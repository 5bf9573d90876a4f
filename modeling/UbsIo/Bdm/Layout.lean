import Mathlib.Data.Nat.Bitwise
import Mathlib.Algebra.Order.Group.Nat

/-! # The division of a disk

    `BdmAllocatorGetSplitSize` divides what follows the head of a disk into
    records and chunks.  It takes as many chunks as fit with their records,
    rounds the end of the records up, and gives up one chunk if the rounding
    has pushed the chunks over the end; all of it in 64 bits. -/

namespace UbsIo.Bdm

/-- `sizeof(BdmChunkMeta)`. -/
def sizeofBdmChunkMeta : Nat := 24

/-- `BDM_ALIGN_SIZE`. -/
def bdmAlignSize : Nat := 2097152

/-- `ROUND_UP` in 64 bits; `2 ^ 64 - align` is `~(align - 1)`. -/
def roundUp (x align : Nat) : Nat :=
  (x + align - 1) % 2 ^ 64 &&& (2 ^ 64 - align)

/-- The difference of two numbers of 64 bits. -/
def sub64 (x y : Nat) : Nat := (x + (2 ^ 64 - y)) % 2 ^ 64

/-- `BdmAllocatorGetSplitSize`: the size of the records and that of the chunks.
    `none` is an error code, or the division by zero that chunks of
    `2 ^ 64 - 24` bytes lead to. -/
def bdmAllocatorGetSplitSize (head chunkSize totalSize : Nat) :
    Option (Nat × Nat) :=
  let elemSize := sizeofBdmChunkMeta
  if (head + chunkSize + elemSize) % 2 ^ 64 > totalSize then none
  else if (elemSize + chunkSize) % 2 ^ 64 = 0 then none
  else
    let calcNum := sub64 totalSize head / ((elemSize + chunkSize) % 2 ^ 64)
    let metaSize1 := roundUp ((elemSize * calcNum % 2 ^ 64 + head) % 2 ^ 64)
      bdmAlignSize
    let dataSize1 := chunkSize * calcNum % 2 ^ 64
    if (metaSize1 + dataSize1) % 2 ^ 64 > totalSize then
      if calcNum ≤ 1 then none
      else
        let calcNum := calcNum - 1
        some (sub64 (elemSize * calcNum % 2 ^ 64) head,
          chunkSize * calcNum % 2 ^ 64)
    else some (sub64 metaSize1 head, dataSize1)

/-! ## The operations of 64 bits -/

theorem sub64_of_le {x y : Nat} (hx : x < 2 ^ 64) (h : y ≤ x) :
    sub64 x y = x - y := by
  rw [sub64]
  omega

theorem sub64_of_lt {x y : Nat} (hy : y < 2 ^ 64) (h : x < y) :
    sub64 x y = x + (2 ^ 64 - y) := by
  rw [sub64]
  omega

/-- The mask clears the low bits. -/
theorem and_mask {x : Nat} (hx : x < 2 ^ 64) :
    x &&& (2 ^ 64 - bdmAlignSize) = x / bdmAlignSize * bdmAlignSize := by
  have hmask : 2 ^ 64 - bdmAlignSize = (2 ^ 43 - 1) <<< 21 := by decide
  have hdiv : x / bdmAlignSize * bdmAlignSize = (x >>> 21) <<< 21 := by
    rw [Nat.shiftRight_eq_div_pow, Nat.shiftLeft_eq]
    rfl
  rw [hmask, hdiv]
  refine Nat.eq_of_testBit_eq fun i => ?_
  rw [Nat.testBit_and, Nat.testBit_shiftLeft, Nat.testBit_shiftLeft,
    Nat.testBit_two_pow_sub_one, Nat.testBit_shiftRight]
  by_cases hlow : 21 ≤ i
  · rw [decide_eq_true hlow, Bool.true_and, Bool.true_and,
      show 21 + (i - 21) = i by omega]
    by_cases hhigh : i < 64
    · rw [decide_eq_true (by omega : i - 21 < 43), Bool.and_true]
    · have hzero : x.testBit i = false :=
        Nat.testBit_lt_two_pow (Nat.lt_of_lt_of_le hx
          (Nat.pow_le_pow_right (by decide) (Nat.not_lt.mp hhigh)))
      rw [hzero, Bool.false_and]
  · rw [decide_eq_false hlow, Bool.false_and, Bool.false_and, Bool.and_false]

/-- Rounding up as it is meant. -/
def ceilAlign (x : Nat) : Nat :=
  (x + bdmAlignSize - 1) / bdmAlignSize * bdmAlignSize

theorem ceilAlign_spec (x : Nat) :
    bdmAlignSize ∣ ceilAlign x ∧ x ≤ ceilAlign x ∧
      ceilAlign x < x + bdmAlignSize := by
  refine ⟨Nat.dvd_mul_left _ _, ?_⟩
  rw [ceilAlign, bdmAlignSize]
  omega

theorem roundUp_of_lt {x : Nat} (h : x + bdmAlignSize - 1 < 2 ^ 64) :
    roundUp x bdmAlignSize = ceilAlign x := by
  rw [roundUp, Nat.mod_eq_of_lt h, and_mask h, ceilAlign]

/-- The addition wraps around, and the mask clears what is left. -/
theorem roundUp_of_ge {x : Nat} (hx : x < 2 ^ 64)
    (h : 2 ^ 64 ≤ x + bdmAlignSize - 1) : roundUp x bdmAlignSize = 0 := by
  rw [roundUp, and_mask (Nat.mod_lt _ (by decide))]
  rw [bdmAlignSize] at h ⊢
  omega

/-! ## The layout -/

variable {head chunkSize totalSize metaSize dataSize : Nat}

/-- Head, records and chunks lie one after the other on the disk. -/
structure LaidOut (head chunkSize totalSize metaSize dataSize : Nat) :
    Prop where
  aligned : bdmAlignSize ∣ head + metaSize
  records : sizeofBdmChunkMeta * (dataSize / chunkSize) ≤ metaSize
  chunks : chunkSize ∣ dataSize
  pos : 0 < dataSize
  fits : head + metaSize + dataSize ≤ totalSize

/-- The number of chunks that fit with their records. -/
def unitNum (head chunkSize totalSize : Nat) : Nat :=
  (totalSize - head) / (sizeofBdmChunkMeta + chunkSize)

/-- When the layout is one: the least disk is not larger than the disk, and the
    chunks behind the rounded records end on it; or a chunk is given up on a
    disk without a head whose records end on a boundary without rounding. -/
structure LayoutFits (head chunkSize totalSize : Nat) : Prop where
  least : head + chunkSize + sizeofBdmChunkMeta ≤ totalSize
  rounded :
    ceilAlign (sizeofBdmChunkMeta * unitNum head chunkSize totalSize + head) +
        chunkSize * unitNum head chunkSize totalSize ≤ totalSize ∨
    (head = 0 ∧ bdmAlignSize ∣
        sizeofBdmChunkMeta * (unitNum head chunkSize totalSize - 1) ∧
      ceilAlign (sizeofBdmChunkMeta * unitNum head chunkSize totalSize + head) +
        chunkSize * unitNum head chunkSize totalSize < 2 ^ 64)

/-- A layout has room for one chunk and its record. -/
theorem LaidOut.least (h : LaidOut head chunkSize totalSize metaSize dataSize)
    (hchunk : 1 ≤ chunkSize) :
    head + chunkSize + sizeofBdmChunkMeta ≤ totalSize := by
  have hle : chunkSize ≤ dataSize := Nat.le_of_dvd h.pos h.chunks
  have hone : 1 ≤ dataSize / chunkSize := (Nat.one_le_div_iff hchunk).mpr hle
  have hrec := h.records
  have hfits := h.fits
  rw [sizeofBdmChunkMeta] at *
  omega

/-- What the function computes when its first sum does not wrap around. -/
theorem getSplitSize_eq (htotal : totalSize < 2 ^ 64)
    (hleast : head + chunkSize + sizeofBdmChunkMeta ≤ totalSize) {n : Nat}
    (hn : unitNum head chunkSize totalSize = n) :
    1 ≤ n ∧ sizeofBdmChunkMeta * n + chunkSize * n + head ≤ totalSize ∧
    bdmAllocatorGetSplitSize head chunkSize totalSize =
      if (roundUp (sizeofBdmChunkMeta * n + head) bdmAlignSize +
          chunkSize * n) % 2 ^ 64 > totalSize then
        if n ≤ 1 then none
        else some (sub64 (sizeofBdmChunkMeta * (n - 1)) head,
          chunkSize * (n - 1))
      else some (sub64 (roundUp (sizeofBdmChunkMeta * n + head) bdmAlignSize)
        head, chunkSize * n) := by
  have hsum : sizeofBdmChunkMeta + chunkSize ≤ totalSize - head := by omega
  have hpos : 0 < sizeofBdmChunkMeta + chunkSize := by
    rw [sizeofBdmChunkMeta]
    omega
  have hone : 1 ≤ n := hn ▸ (Nat.one_le_div_iff hpos).mpr hsum
  have hmul : n * (sizeofBdmChunkMeta + chunkSize) ≤ totalSize - head :=
    hn ▸ Nat.div_mul_le_self _ _
  rw [Nat.mul_comm, Nat.add_mul] at hmul
  have hend : sizeofBdmChunkMeta * n + chunkSize * n + head ≤ totalSize := by
    omega
  have hless : sizeofBdmChunkMeta * (n - 1) ≤ sizeofBdmChunkMeta * n :=
    Nat.mul_le_mul_left _ (Nat.sub_le _ _)
  have hless' : chunkSize * (n - 1) ≤ chunkSize * n :=
    Nat.mul_le_mul_left _ (Nat.sub_le _ _)
  refine ⟨hone, hend, ?_⟩
  have hnum : sub64 totalSize head / ((sizeofBdmChunkMeta + chunkSize) % 2 ^ 64)
      = n := by
    rw [sub64_of_le htotal (by omega),
      Nat.mod_eq_of_lt (by omega : sizeofBdmChunkMeta + chunkSize < _)]
    exact hn
  rw [bdmAllocatorGetSplitSize]
  dsimp only
  rw [hnum,
    Nat.mod_eq_of_lt (by omega : head + chunkSize + sizeofBdmChunkMeta < _),
    if_neg (Nat.not_lt.mpr hleast), if_neg (by
      rw [Nat.mod_eq_of_lt (by omega : sizeofBdmChunkMeta + chunkSize < _)]
      exact hpos.ne'),
    Nat.mod_eq_of_lt (by omega : sizeofBdmChunkMeta * n < _),
    Nat.mod_eq_of_lt (by omega : sizeofBdmChunkMeta * n + head < _),
    Nat.mod_eq_of_lt (by omega : chunkSize * n < _),
    Nat.mod_eq_of_lt (by omega : sizeofBdmChunkMeta * (n - 1) < _),
    Nat.mod_eq_of_lt (by omega : chunkSize * (n - 1) < _)]

/-- **LAYOUT**: what the function returns without an error is a layout of the
    disk if and only if the condition holds. -/
theorem splitSize_exact (hhead : head < 2 ^ 64) (hchunk : 1 ≤ chunkSize)
    (htotal : totalSize < 2 ^ 64)
    (hok : bdmAllocatorGetSplitSize head chunkSize totalSize =
      some (metaSize, dataSize)) :
    LaidOut head chunkSize totalSize metaSize dataSize ↔
      LayoutFits head chunkSize totalSize := by
  by_cases hleast : head + chunkSize + sizeofBdmChunkMeta ≤ totalSize
  swap
  · exact iff_of_false (fun h => hleast (h.least hchunk))
      fun h => hleast h.least
  obtain ⟨n, hn⟩ : ∃ n, unitNum head chunkSize totalSize = n := ⟨_, rfl⟩
  obtain ⟨hone, hend, heq⟩ := getSplitSize_eq htotal hleast hn
  obtain ⟨hdvd, hge, hlt⟩ := ceilAlign_spec (sizeofBdmChunkMeta * n + head)
  have hfits : LayoutFits head chunkSize totalSize ↔
      ceilAlign (sizeofBdmChunkMeta * n + head) + chunkSize * n ≤ totalSize ∨
      (head = 0 ∧ bdmAlignSize ∣ sizeofBdmChunkMeta * (n - 1) ∧
        ceilAlign (sizeofBdmChunkMeta * n + head) + chunkSize * n < 2 ^ 64) := by
    rw [← hn]
    exact ⟨fun h => h.rounded, fun h => ⟨hleast, h⟩⟩
  have hrec : 1 ≤ sizeofBdmChunkMeta * n := by
    rw [sizeofBdmChunkMeta]
    omega
  have hdata : 1 ≤ chunkSize * n := Nat.mul_pos hchunk hone
  have hdiv (k : Nat) : chunkSize * k / chunkSize = k :=
    Nat.mul_div_cancel_left k hchunk
  rw [hok] at heq
  rw [hfits]
  rcases Nat.lt_or_ge
    (sizeofBdmChunkMeta * n + head + bdmAlignSize - 1) (2 ^ 64) with hsmall | hbig
  · rw [roundUp_of_lt hsmall] at heq
    have halign : ceilAlign (sizeofBdmChunkMeta * n + head) < 2 ^ 64 := by
      rw [ceilAlign, bdmAlignSize] at *
      omega
    generalize ceilAlign (sizeofBdmChunkMeta * n + head) = end' at *
    split at heq
    next hover =>
      -- a chunk is given up
      split at heq
      · exact nomatch heq
      next hmany =>
        have hsum : end' + chunkSize * n < 2 ^ 64 := by
          rw [bdmAlignSize] at hlt
          omega
        have hless : sizeofBdmChunkMeta * (n - 1) ≤ sizeofBdmChunkMeta * n :=
          Nat.mul_le_mul_left _ (Nat.sub_le _ _)
        have hless' : chunkSize * (n - 1) ≤ chunkSize * n :=
          Nat.mul_le_mul_left _ (Nat.sub_le _ _)
        rw [Nat.mod_eq_of_lt hsum] at hover
        obtain ⟨rfl, rfl⟩ := Prod.mk.inj (Option.some.inj heq)
        constructor
        · intro h
          have hrecords := h.records
          have hlaid := h.fits
          have haligned := h.aligned
          rw [hdiv] at hrecords
          right
          rcases Nat.lt_or_ge (sizeofBdmChunkMeta * (n - 1)) head with
            hbelow | habove
          · rw [sub64_of_lt hhead hbelow] at hlaid
            omega
          · rw [sub64_of_le (by omega) habove] at hrecords haligned
            obtain rfl : head = 0 := by
              rw [sizeofBdmChunkMeta] at *
              omega
            rw [Nat.sub_zero, Nat.zero_add] at haligned
            exact ⟨rfl, haligned, hsum⟩
        · rintro (hfit | ⟨rfl, hdvd', -⟩)
          · omega
          · rw [sub64_of_le (by omega) (Nat.zero_le _), Nat.sub_zero]
            refine ⟨by rwa [Nat.zero_add], ?_, Nat.dvd_mul_right _ _,
              Nat.mul_pos hchunk (by omega), by omega⟩
            rw [hdiv]
    next hfit =>
      obtain ⟨rfl, rfl⟩ := Prod.mk.inj (Option.some.inj heq)
      rw [sub64_of_le halign (by omega)]
      rcases Nat.lt_or_ge (end' + chunkSize * n) (2 ^ 64) with hsum | hsum
      · rw [Nat.mod_eq_of_lt hsum, gt_iff_lt, not_lt] at hfit
        refine iff_of_true ⟨?_, ?_, Nat.dvd_mul_right _ _, hdata, ?_⟩
          (.inl hfit)
        · rwa [Nat.add_sub_cancel' (by omega)]
        · rw [hdiv]
          omega
        · omega
      · -- the sum of the second test wraps around
        refine iff_of_false (fun h => ?_) (by omega)
        have := h.fits
        omega
  · -- the rounding wraps around to 0
    rw [roundUp_of_ge (by omega) hbig] at heq
    have halign : 2 ^ 64 ≤ ceilAlign (sizeofBdmChunkMeta * n + head) := by
      rw [ceilAlign, bdmAlignSize] at *
      omega
    rw [Nat.zero_add, if_neg (by
      rw [Nat.mod_eq_of_lt (by omega)]
      omega)] at heq
    obtain ⟨rfl, rfl⟩ := Prod.mk.inj (Option.some.inj heq)
    refine iff_of_false (fun h => ?_) (by omega)
    have hrecords := h.records
    have hlaid := h.fits
    rw [hdiv] at hrecords
    rcases Nat.eq_zero_or_pos head with rfl | hpos
    · rw [sub64_of_le (by decide) le_rfl] at hrecords
      omega
    · rw [sub64_of_lt hhead hpos] at hlaid
      omega

theorem splitSize_exact_kept :
    (4096 < 2 ^ 64 ∧ 1 ≤ 4194304 ∧ 104857600 < 2 ^ 64) ∧
    bdmAllocatorGetSplitSize 4096 4194304 104857600 =
      some (2093056, 100663296) ∧
    (LaidOut 4096 4194304 104857600 2093056 100663296 ↔
      LayoutFits 4096 4194304 104857600) := by
  have hok : bdmAllocatorGetSplitSize 4096 4194304 104857600 =
      some (2093056, 100663296) := by
    decide +kernel
  exact ⟨by decide, hok, splitSize_exact (by decide) (by decide) (by decide) hok⟩

/-- A chunk is given up behind a head that is larger than the records. -/
theorem splitSize_wraps : ¬ ∀ head chunkSize totalSize metaSize dataSize : Nat,
    head < 2 ^ 64 → 1 ≤ chunkSize → totalSize < 2 ^ 64 →
    bdmAllocatorGetSplitSize head chunkSize totalSize =
      some (metaSize, dataSize) →
    LaidOut head chunkSize totalSize metaSize dataSize := by
  intro h
  have hok : bdmAllocatorGetSplitSize 4096 1048576 20976096 =
      some (18446744073709547976, 19922944) := by
    decide +kernel
  have hlaid := (h 4096 1048576 20976096 _ _ (by decide) (by decide) (by decide)
    hok).fits
  exact absurd hlaid (by decide)

end UbsIo.Bdm
