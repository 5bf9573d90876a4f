import UbsIo.Lib.Run

/-! # The truncation of a tier

    `WCacheTier::Evict` gives the space of evicted slices back.  The slices of a
    tier have the indices 0, 1, 2, … and lie one after the other in the data
    flow; their records lie in the same order in the meta flow.  The evictions
    finish in any order: `WFlowTruncateCursor` keeps the slices that are ahead
    in an ordered set, and hands out the last slice up to which all are there.
    Then the flows are truncated, outside of its lock.

    Any number of threads evict.  The section of the cursor is one step, and so
    is the truncation of each flow. -/

namespace UbsIo.Cursor

open UbsIo.Lib

/-- `sizeof(WFlowSliceMeta)`. -/
def metaSize : Nat := 512

/-- What the cursor reads of a `WCacheSlice`. -/
structure WCacheSlice where
  indexInFlow : Nat
  offsetInFlow : Nat
  length : Nat
deriving DecidableEq, Repr

/-- `WCacheSliceCmp`. -/
def wCacheSliceCmp (first second : WCacheSlice) : Bool :=
  if first.indexInFlow = second.indexInFlow then true
  else decide (first.indexInFlow < second.indexInFlow)

/-- `emplace` of the ordered set. -/
def emplace (slice : WCacheSlice) : List WCacheSlice → List WCacheSlice
  | [] => [slice]
  | other :: rest =>
      if wCacheSliceCmp slice other then slice :: other :: rest
      else other :: emplace slice rest

structure WFlowTruncateCursor where
  preTruncateSliceIndex : Nat
  evictedSlices : List WCacheSlice
deriving DecidableEq, Repr

/-- The loop of `GetTruncateSlice`: `truncateSlice`, and what it leaves. -/
def truncateLoop : Nat → List WCacheSlice → Option WCacheSlice →
    Option WCacheSlice × WFlowTruncateCursor
  | index, [], truncateSlice => (truncateSlice, ⟨index, []⟩)
  | index, evictSlice :: rest, truncateSlice =>
      if evictSlice.indexInFlow = index then
        truncateLoop (index + 1) rest (some evictSlice)
      else (truncateSlice, ⟨index, evictSlice :: rest⟩)

/-- `GetTruncateSlice`. -/
def getTruncateSlice (c : WFlowTruncateCursor) (slice : WCacheSlice) :
    Option WCacheSlice × WFlowTruncateCursor :=
  truncateLoop c.preTruncateSliceIndex (emplace slice c.evictedSlices) none

/-- What `TruncateOffset` reads of a flow, besides its chunks. -/
structure FlowOffsets where
  preLoadOffset : Nat
  writenOffset : Nat
  truncateOffset : Nat
deriving DecidableEq, Repr

/-- `TruncateOffset`; `none` is `BIO_ERR`. -/
def FlowOffsets.truncate (f : FlowOffsets) (offset : Nat) :
    Option FlowOffsets :=
  if f.preLoadOffset < offset ∨ f.writenOffset < offset then none
  else if offset ≤ f.truncateOffset then some f
  else some { f with truncateOffset := offset }

/-! ## The tier -/

/-- Where a thread is. -/
inductive Phase where
  | idle
  | cursor (slice : WCacheSlice)
  | truncateMeta (truncateSlice : WCacheSlice)
  | truncateData (truncateSlice : WCacheSlice)
deriving DecidableEq, Repr

/-- A tier, with the threads that evict from it.  `called` has the slices that
    `Evict` has been called on, `evicted` those that have come to the
    cursor. -/
structure Tier (ι : Type) where
  cursor : WFlowTruncateCursor
  metaFlow : FlowOffsets
  dataFlow : FlowOffsets
  threads : ι → Phase
  called : List Nat
  evicted : List Nat

/-- A fresh tier. -/
def Tier.init (ι : Type) : Tier ι where
  cursor := ⟨0, []⟩
  metaFlow := ⟨0, 0, 0⟩
  dataFlow := ⟨0, 0, 0⟩
  threads := fun _ => .idle
  called := []
  evicted := []

/-- Where the slice `i` begins, if the slices have these lengths. -/
def startOf (lengths : Nat → Nat) : Nat → Nat
  | 0 => 0
  | i + 1 => startOf lengths i + lengths i

/-- The slices of the tier. -/
def sliceAt (lengths : Nat → Nat) (i : Nat) : WCacheSlice :=
  ⟨i, startOf lengths i, lengths i⟩

inductive Event (ι : Type) where
  /-- Thread `t` calls `Evict` on the slice `i`. -/
  | evict (t : ι) (i : Nat)
  /-- The next section of thread `t`. -/
  | go (t : ι)
  /-- The flows are preloaded and written. -/
  | growMeta (preLoadOffset writenOffset : Nat)
  | growData (preLoadOffset writenOffset : Nat)

variable {ι : Type} [DecidableEq ι]

def Tier.goto (s : Tier ι) (t : ι) (p : Phase) : Tier ι :=
  { s with threads := Function.update s.threads t p }

def FlowOffsets.grow (f : FlowOffsets) (preLoadOffset writenOffset : Nat) :
    FlowOffsets :=
  { f with
    preLoadOffset := max f.preLoadOffset preLoadOffset
    writenOffset := max f.writenOffset writenOffset }

/-- The end of the records up to a slice, and the end of its data. -/
def WCacheSlice.metaEnd (slice : WCacheSlice) : Nat :=
  (slice.indexInFlow + 1) * metaSize

def WCacheSlice.dataEnd (slice : WCacheSlice) : Nat :=
  slice.offsetInFlow + slice.length

/-- The section of the cursor. -/
def evictStep (s : Tier ι) (t : ι) (slice : WCacheSlice) : Tier ι :=
  let out := getTruncateSlice s.cursor slice
  let s := { s with
    cursor := out.2
    evicted := s.evicted ++ [slice.indexInFlow] }
  match out.1 with
  | none => s.goto t .idle
  | some truncateSlice => s.goto t (.truncateMeta truncateSlice)

/-- One step.  No slice is evicted twice. -/
def step (lengths : Nat → Nat) (s : Tier ι) : Event ι → Option (Tier ι)
  | .evict t i =>
      if s.threads t = .idle ∧ i ∉ s.called then
        some (Tier.goto { s with called := s.called ++ [i] } t
          (.cursor (sliceAt lengths i)))
      else none
  | .go t =>
      match s.threads t with
      | .idle => none
      | .cursor slice => some (evictStep s t slice)
      | .truncateMeta slice =>
          match s.metaFlow.truncate slice.metaEnd with
          | none => some (s.goto t .idle)
          | some metaFlow =>
              some (Tier.goto { s with metaFlow } t (.truncateData slice))
      | .truncateData slice =>
          match s.dataFlow.truncate slice.dataEnd with
          | none => some (s.goto t .idle)
          | some dataFlow => some (Tier.goto { s with dataFlow } t .idle)
  | .growMeta preLoadOffset writenOffset =>
      some { s with metaFlow := s.metaFlow.grow preLoadOffset writenOffset }
  | .growData preLoadOffset writenOffset =>
      some { s with dataFlow := s.dataFlow.grow preLoadOffset writenOffset }

end UbsIo.Cursor
