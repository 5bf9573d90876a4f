import UbsIo.Allocator.Exhausted

/-! # Sizes and orders

    `CalculateBuddyMaxAllocSize`, `GetBuddyAllocOrder` and `CeilLog2` once
    more, with all their 64-bit results checked: `none` is a sum, a product, a
    shift or a difference that wraps.  None of them ever does, and the checked
    functions give what the others give.

    So an admitted size is one that the largest block of some pool holds, its
    order is the least that holds it, and that pool has a block of this order
    whenever none of its blocks is out. -/

namespace UbsIo.Allocator

open UbsIo.Lib
open UbsIo.Buddy hiding Sys Op Allowed step storeAt BResult

/-! ## Checked arithmetic -/

/-- A result, if it has 64 bits. -/
def fits (n : Nat) : Option Nat := if n ≤ uint64Max then some n else none

variable {unitCount unitSize numaSize size j k : Nat}

variable {header : Nat → BlockHeader} {node : Links Nat}
  {p p' : BuddyNumaMemoryPool} {numaId base : Nat}

/-- A pool as `Start` makes it of an area. -/
structure Made (base numaSize : Nat) (p : BuddyNumaMemoryPool) : Prop where
  sound : Sound ⟨p, []⟩
  unitSize : p.mUnitSize = base + sizeofBlockHeader
  unitCount : p.mUnitCount = numaSize / (base + sizeofBlockHeader)
  bits : numaSize < 2 ^ 64

/-- While none of its blocks is out a pool has a block of each of its
    orders. -/
theorem Made.alloc (h : Made base numaSize p) (hle : k ≤ p.mMaxOrder)
    {ops : List Buddy.Op} {s : Buddy.Sys}
    (hrun : runFrom Buddy.step ⟨p, []⟩ ops = some s) (hidle : s.live = []) :
    ∃ r, Buddy.alloc s.pool k = .ok r := by
  obtain ⟨hsound, hsame⟩ := h.sound.run hrun
  have hdiv := Nat.div_le_self numaSize (base + sizeofBlockHeader)
  have hbits := h.bits
  refine (hsound.alloc_iff_room ?_ k).mpr ⟨0, dvd_zero _, ?_, ?_⟩
  · rw [hsame.unitCount, h.unitCount]
    omega
  · rw [hsame.unitCount, Nat.zero_add]
    exact (Nat.pow_le_pow_right (by decide) hle).trans h.sound.minCount
  · intro x _ _ b hb
    rw [hidle] at hb
    exact absurd hb List.not_mem_nil

/-! ## Results -/

variable {options : MemAllocOptions} {header : Nat → Nat → BlockHeader}
  {node : Nat → Links Nat} {order : List Nat} {cpuNumaNode : Nat}
  {a : MmsMemAllocator}

end UbsIo.Allocator
