import UbsIo.Lib.Run

/-! # Negotiation of evictions

    The slices of a flow are cached on `copyNum` nodes, and none may go from
    memory to disk before all copies hold it.  A slave asks the master in rounds
    (`EvictNegotiate`) about the slices that are next; the master counts the
    slaves that have asked for a slice down (`MasterEvictNegotiate`).  When the
    count is zero the slice goes to the queue of evictions; the slave moves it
    when the master has confirmed.

    The counts are 8-bit cells in arrays of 256, and an array is erased when
    its last cell is touched.  A response can get lost; then the slave asks
    again. -/

namespace UbsIo.Negotiate

open UbsIo.Lib

/-- `ARRAY_SIZE_IN_NEGOTIATE_MAP`. -/
def arraySize : Nat := 256

/-- `INVALID_REF_NUM`. -/
def invalidRefNum : Nat := 255

/-- `MAX_EVICT_CONSULT_SIZE`. -/
def maxEvictConsultSize : Nat := 50

/-! ## The memory tier of a copy -/

/-- What a `WCacheTier` has for the negotiation.  `evictSliceQueue` has all
    that has been put on the queue.  `added` has the indices that have come to
    `AddEvictNegotiateMap`, `held` those that have come to
    `AddEvictNegotiateIndexMap` too. -/
structure Tier where
  evictNegotiateMap : List Nat
  negotiateIndexMap : Nat → Option (Nat → Nat)
  curNegotiateIndex : Nat
  evictSliceQueue : List Nat
  added : List Nat
  held : List Nat

def Tier.init : Tier := ⟨[], fun _ => none, 0, [], [], []⟩

def addEvictNegotiateMap (t : Tier) (indexInFlow : Nat) : Tier :=
  { t with
    evictNegotiateMap := t.evictNegotiateMap ++ [indexInFlow]
    added := t.added ++ [indexInFlow] }

def addEvictNegotiateIndexMap (t : Tier) (indexInFlow refNum : Nat) : Tier :=
  let array := (t.negotiateIndexMap (indexInFlow / arraySize)).getD
    fun _ => invalidRefNum
  { t with
    negotiateIndexMap := Function.update t.negotiateIndexMap
      (indexInFlow / arraySize)
      (some (Function.update array (indexInFlow % arraySize) refNum))
    held := t.held ++ [indexInFlow] }

/-- The loops of `GetNegotiateSlice`.  The outer one looks up the array of the
    first index again and again, so there is one array. -/
def negotiateSliceFrom (array : Nat → Nat) : Nat → Nat → Nat → List Nat
  | 0, _, _ => []
  | limit + 1, indexInMap, indexInArray =>
      if array indexInArray ≠ invalidRefNum ∧ 0 < array indexInArray then
        (indexInMap * arraySize + indexInArray) ::
          if indexInArray + 1 < arraySize then
            negotiateSliceFrom array limit indexInMap (indexInArray + 1)
          else negotiateSliceFrom array limit (indexInMap + 1) 0
      else []

/-- `GetNegotiateSlice`. -/
def getNegotiateSlice (t : Tier) (limit : Nat) : List Nat :=
  match t.negotiateIndexMap (t.curNegotiateIndex / arraySize) with
  | none => []
  | some array =>
      negotiateSliceFrom array limit (t.curNegotiateIndex / arraySize)
        (t.curNegotiateIndex % arraySize)

/-- `EvictNegotiateMapToQueue`. -/
def evictNegotiateMapToQueue (t : Tier) (indexInFlow : Nat) : Tier :=
  if indexInFlow ∈ t.evictNegotiateMap then
    { t with
      evictSliceQueue := t.evictSliceQueue ++ [indexInFlow]
      evictNegotiateMap :=
        t.evictNegotiateMap.filter fun i => decide (i ≠ indexInFlow) }
  else t

/-- The decrement of a `uint8_t`. -/
def decRefNum (refNum : Nat) : Nat := (refNum + 255) % 256

/-- `DelEvictIndexArray`, for the last cell of an array. -/
def delEvictIndexArray (t : Tier) (indexInFlow : Nat) : Tier :=
  if indexInFlow % arraySize = arraySize - 1 then
    { t with
      negotiateIndexMap := Function.update t.negotiateIndexMap
        (indexInFlow / arraySize) none }
  else t

/-- The slice goes to the queue. -/
def moveToQueue (t : Tier) (indexInFlow : Nat) : Tier :=
  { evictNegotiateMapToQueue t indexInFlow with
    curNegotiateIndex := min t.curNegotiateIndex indexInFlow + 1 }

/-- `UpdateNegotiateState`, or `none` for `BIO_NOT_EXISTS`. -/
def updateNegotiateState (t : Tier) (indexInFlow : Nat) : Option Tier :=
  match t.negotiateIndexMap (indexInFlow / arraySize) with
  | none => none
  | some array =>
      if array (indexInFlow % arraySize) = invalidRefNum then none
      else
        let curRefNum := decRefNum (array (indexInFlow % arraySize))
        let t := { t with
          negotiateIndexMap := Function.update t.negotiateIndexMap
            (indexInFlow / arraySize)
            (some (Function.update array (indexInFlow % arraySize)
              curRefNum)) }
        let t := if curRefNum = 0 then moveToQueue t indexInFlow else t
        some (delEvictIndexArray t indexInFlow)

/-! ## The copies -/

/-- How far the round of a slave is. -/
inductive Stage where
  | idle
  /-- The request is on its way. -/
  | asked (indexVec : List Nat)
  /-- The master is in its loop; it has confirmed `done`. -/
  | serving (done todo : List Nat)
  /-- The response is on its way, with a true result for each of these. -/
  | answered (confirmed : List Nat)
  /-- The slave is in its loop. -/
  | applying (todo : List Nat)
deriving DecidableEq, Repr

/-- A master with `refNum` slaves.  `masterBusy` is
    `mIsMasterStartEvictNegotiate`; `lost` has the indices that were confirmed
    in lost responses. -/
structure Copies (refNum : Nat) where
  master : Tier
  slaves : Fin refNum → Tier
  stages : Fin refNum → Stage
  masterBusy : Bool
  lost : List Nat

def Copies.init (refNum : Nat) : Copies refNum :=
  ⟨Tier.init, fun _ => Tier.init, fun _ => .idle, false, []⟩

inductive Event (refNum : Nat) where
  /-- The master, or a slave, takes the slice into the first map. -/
  | addMap (n : Option (Fin refNum)) (indexInFlow : Nat)
  /-- It takes the slice into the second map. -/
  | addIndexMap (n : Option (Fin refNum)) (indexInFlow : Nat)
  /-- Slave `u` begins a round. -/
  | evictNegotiate (u : Fin refNum)
  /-- The request of `u` arrives; the weak exchange of the flag can fail
      without a reason. -/
  | masterEvictNegotiate (u : Fin refNum) (exchange : Bool)
  /-- The master goes on with the request of `u`. -/
  | update (u : Fin refNum)
  /-- The response to `u` arrives, or gets lost. -/
  | response (u : Fin refNum)
  | lose (u : Fin refNum)
  /-- Slave `u` goes on with its round. -/
  | apply (u : Fin refNum)
deriving DecidableEq, Repr

variable {refNum : Nat}

def Copies.tier (c : Copies refNum) : Option (Fin refNum) → Tier
  | none => c.master
  | some u => c.slaves u

def Copies.setTier (c : Copies refNum) (t : Tier) :
    Option (Fin refNum) → Copies refNum
  | none => { c with master := t }
  | some u => { c with slaves := Function.update c.slaves u t }

def Copies.goto (c : Copies refNum) (u : Fin refNum) (p : Stage) :
    Copies refNum :=
  { c with stages := Function.update c.stages u p }

/-- The `refNum` that `StartEvictSlice` gives to a slice. -/
def refNumOf (refNum : Nat) : Option (Fin refNum) → Nat
  | none => refNum
  | some _ => 1

/-- One step. -/
def step (c : Copies refNum) : Event refNum → Option (Copies refNum)
  | .addMap n i =>
      if i ∈ (c.tier n).added then none
      else some (c.setTier (addEvictNegotiateMap (c.tier n) i) n)
  | .addIndexMap n i =>
      if i ∈ (c.tier n).added ∧ i ∉ (c.tier n).held then
        some (c.setTier
          (addEvictNegotiateIndexMap (c.tier n) i (refNumOf refNum n)) n)
      else none
  | .evictNegotiate u =>
      match c.stages u with
      | .idle =>
          match getNegotiateSlice (c.slaves u) maxEvictConsultSize with
          | [] => some c
          | i :: indexVec => some (c.goto u (.asked (i :: indexVec)))
      | _ => none
  | .masterEvictNegotiate u exchange =>
      match c.stages u with
      | .asked indexVec =>
          if exchange && !c.masterBusy then
            some (Copies.goto { c with masterBusy := true } u
              (.serving [] indexVec))
          else some (c.goto u (.answered []))
      | _ => none
  | .update u =>
      match c.stages u with
      | .serving done [] =>
          some (Copies.goto { c with masterBusy := false } u (.answered done))
      | .serving done (i :: todo) =>
          match updateNegotiateState c.master i with
          | some t =>
              some (Copies.goto { c with master := t } u
                (.serving (done ++ [i]) todo))
          | none =>
              some (Copies.goto { c with masterBusy := false } u
                (.answered done))
      | _ => none
  | .response u =>
      match c.stages u with
      | .answered confirmed => some (c.goto u (.applying confirmed))
      | _ => none
  | .lose u =>
      match c.stages u with
      | .answered confirmed =>
          some (Copies.goto { c with lost := c.lost ++ confirmed } u .idle)
      | _ => none
  | .apply u =>
      match c.stages u with
      | .applying [] => some (c.goto u .idle)
      | .applying (i :: todo) =>
          some (Copies.goto
            { c with
              slaves := Function.update c.slaves u
                ((updateNegotiateState (c.slaves u) i).getD (c.slaves u)) }
            u (.applying todo))
      | _ => none

end UbsIo.Negotiate
