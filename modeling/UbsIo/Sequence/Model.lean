import UbsIo.Cache.Model

/-! # Sequence queues

    The queues of `mms_sequence.cpp`.  A master numbers its requests through a
    `SlidingQueue` of sixteen places; every copy keeps the requests it has
    accepted in a `NegoQueue` of sixteen slots, until a later request tells it
    up to which number the master is done.

    The 64-bit numbers are natural numbers here; the data of a request is of
    any type. -/

namespace UbsIo.Sequence

open UbsIo.Cache

/-- `SEQ_QUEUE_LEN`. -/
def seqQueueLen : Nat := 16

/-- `seqNo & SEQ_QUEUE_MASK`. -/
def seqIdx (seqNo : Nat) : Fin 16 := Fin.ofNat 16 seqNo

/-- `SlidingQueue`: up to `left` every number is done, up to `right` every
    number is handed out. -/
structure SlidingQueue where
  left : Nat
  right : Nat
  finish : Fin 16 → Bool

def SlidingQueue.fresh : SlidingQueue := ⟨0, 0, fun _ => false⟩

/-- `SeqValue`; one that is not `valid` is a slot without a value. -/
structure SeqValue (δ : Type) where
  seqNo : Nat
  data : δ
deriving DecidableEq

/-- `NegoQueue`. -/
structure NegoQueue (δ : Type) where
  valueList : Fin 16 → Option (SeqValue δ)
  negoSeqNo : Nat
  commitSeqNo : Nat

def NegoQueue.fresh {δ : Type} : NegoQueue δ := ⟨fun _ => none, 0, 0⟩

variable {δ : Type}

/-! ## The master -/

/-- `ResetSeqNoState2Mst`. -/
def resetSeqNoState2Mst (seqNo : Nat) : SlidingQueue :=
  ⟨seqNo, seqNo, fun _ => false⟩

/-- `ApplyForSeqNo2Mst`: the number and how far the master is done. -/
def applyForSeqNo2Mst (q : SlidingQueue) :
    Except BResult (Nat × Nat × SlidingQueue) :=
  if q.right - q.left < seqQueueLen then
    .ok (q.right + 1, q.left, { q with right := q.right + 1 })
  else .error .innerRetry

/-- The loop of `ReleaseSeqNo2Mst`, with `right - left` rounds left. -/
def slide : Nat → SlidingQueue → SlidingQueue
  | 0, q => q
  | n + 1, q =>
      if q.finish (seqIdx (q.left + 1)) then
        slide n { q with
          left := q.left + 1
          finish := Function.update q.finish (seqIdx (q.left + 1)) false }
      else q

/-- `ReleaseSeqNo2Mst`. -/
def releaseSeqNo2Mst (q : SlidingQueue) (seqNo : Nat) : SlidingQueue :=
  slide (q.right - q.left)
    { q with finish := Function.update q.finish (seqIdx seqNo) true }

/-! ## The copies -/

/-- The loop of `NegoSeqNoHandle`, with as many rounds left as `negoSeqNo` is
    behind. -/
def discard : Nat → NegoQueue δ → NegoQueue δ
  | 0, q => q
  | n + 1, q =>
      match q.valueList (seqIdx (q.negoSeqNo + 1)) with
      | some _ =>
          discard n { q with
            valueList :=
              Function.update q.valueList (seqIdx (q.negoSeqNo + 1)) none
            negoSeqNo := q.negoSeqNo + 1 }
      | none => q

/-- `NegoSeqNoHandle`. -/
def negoSeqNoHandle (q : NegoQueue δ) (seqNo negoSeqNo : Nat) : NegoQueue δ :=
  let q := discard (negoSeqNo - q.negoSeqNo) q
  if q.commitSeqNo < seqNo then { q with commitSeqNo := seqNo } else q

/-- `NegoSeqNo2Slv`; `dataTmp` is whether the copy of the data could be
    allocated. -/
def negoSeqNo2Slv (q : NegoQueue δ) (seqNo : Nat) (data : δ) (dataTmp : Bool)
    (negoSeqNo : Nat) : BResult × NegoQueue δ :=
  if !dataTmp then (.allocFail, q)
  else
    match q.valueList (seqIdx seqNo) with
    | none =>
        (.ok, negoSeqNoHandle
          { q with
            valueList :=
              Function.update q.valueList (seqIdx seqNo) (some ⟨seqNo, data⟩) }
          seqNo negoSeqNo)
    | some v => if v.seqNo = seqNo then (.ok, q) else (.keyConflict, q)

/-- `GetSeqNoList2Slv`.  The loop runs over the numbers behind `negoSeqNo`, and
    looks at the same slot each time. -/
def getSeqNoList2Slv (q : NegoQueue δ) : List Nat :=
  (List.range' q.negoSeqNo (q.commitSeqNo - q.negoSeqNo)).filterMap fun _ =>
    (q.valueList (seqIdx (q.negoSeqNo + 1))).map SeqValue.seqNo

/-- `GetSeqNoData2Slv`; which number the slot holds is not looked at. -/
def getSeqNoData2Slv (q : NegoQueue δ) (seqNo : Nat) : Except BResult δ :=
  match q.valueList (seqIdx seqNo) with
  | some v => .ok v.data
  | none => .error .notExists

end UbsIo.Sequence
