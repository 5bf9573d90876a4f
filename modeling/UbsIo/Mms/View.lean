import UbsIo.Pt.Calc

/-! # The memstore's partition view

    The memstore has a cluster manager of its own.  It is a sibling of the one
    in `UbsIo.Pt` and shares its node and disk reports, but its partitions have
    one copy on every node, no `keepAlive` flags and no `referNum`: every fault
    and every return of a copy raises the `birthVersion` of its partition, and
    every change of the list raises the `globalVersion`.

    This file has the data model (`cm_inner.h`) and the functions of
    `cm_pt_calc_fixed_state.c`. -/

namespace UbsIo.Mms

open UbsIo.Pt (PtCopyState NodeState NodeInfo nodeIdInvalid diskIdInvalid
  viewPtEntryCheckNetFault viewPtEntryCheckDiskFault CmPtFinish)

/-- `MAX_COPY_NUM`, the length of a copy list. -/
def maxCopyNum : Nat := 8

inductive PtState where
  | init | normal | degradeLoss1 | degradeLoss2 | fault
deriving DecidableEq, Repr

structure PtEntryCopy where
  nodeId : Nat
  diskId : Nat
  state : PtCopyState
deriving DecidableEq, Repr

/-- The value that a slot which is given up gets. -/
def PtEntryCopy.givenUp : PtEntryCopy := ⟨nodeIdInvalid, diskIdInvalid, .out⟩

structure PtEntry where
  birthVersion : Nat
  ptId : Nat
  state : PtState
  masterNodeId : Nat
  masterDiskId : Nat
  copyNum : Nat
  copyList : Nat → PtEntryCopy

structure PtEntryList where
  poolId : Nat
  maxCopyNum : Nat
  minCopyNum : Nat
  globalVersion : Nat
  ptEntryList : List PtEntry

namespace PtEntry

def setCopy (e : PtEntry) (i : Nat) (c : PtEntryCopy) : PtEntry :=
  { e with copyList := Function.update e.copyList i c }

def setState (e : PtEntry) (i : Nat) (s : PtCopyState) : PtEntry :=
  e.setCopy i { e.copyList i with state := s }

/-- The indices below `n` whose copy is running, in order. -/
def runningBelow (e : PtEntry) (n : Nat) : List Nat :=
  (List.range n).filter fun i => (e.copyList i).state = .running

/-- The copy at index `i` is the master. -/
def isMaster (e : PtEntry) (i : Nat) : Bool :=
  (e.copyList i).nodeId == e.masterNodeId &&
    (e.copyList i).diskId == e.masterDiskId

def setMaster (e : PtEntry) (i : Nat) : PtEntry :=
  { e with
    masterNodeId := (e.copyList i).nodeId
    masterDiskId := (e.copyList i).diskId }

/-- Keep the master if it is running, else take the first running copy. -/
def updateMaster (e : PtEntry) : PtEntry :=
  if (e.runningBelow e.copyNum).any e.isMaster then e
  else
    match (e.runningBelow e.copyNum).head? with
    | none => e
    | some i => e.setMaster i

end PtEntry

/-- The comparisons that turn a number of running copies into a state. -/
def ptStateOf (runningNum minCopyNum maxCopyNum : Nat) : PtState :=
  if runningNum < minCopyNum then .fault
  else if runningNum = maxCopyNum then .normal
  else if runningNum + 1 = maxCopyNum then .degradeLoss1
  else if runningNum + 2 = maxCopyNum then .degradeLoss2
  else .fault

/-! ## Node reports -/

/-- `ViewPtUpdateCopyState`: a copy that comes back recovers, unless there is
    no running copy to recover from. -/
def viewPtUpdateCopyState (e : PtEntry) (copyIndex : Nat) : PtEntry :=
  if 1 ≤ (e.runningBelow e.copyNum).length then
    e.setState copyIndex .recovery
  else e.setState copyIndex .running

/-- `ViewPtEntryUpdatePtState`. -/
def viewPtEntryUpdatePtState (e : PtEntry) (minCopyNum maxCopyNum : Nat) :
    PtEntry :=
  { e.updateMaster with
    state := ptStateOf (e.runningBelow e.copyNum).length minCopyNum
      maxCopyNum }

/-- A copy goes down. -/
def goDown (e : PtEntry) (i minCopyNum maxCopyNum : Nat) : PtEntry :=
  let e' := { e.setState i .down with birthVersion := e.birthVersion + 1 }
  if (e.copyList i).state = .running then
    viewPtEntryUpdatePtState e' minCopyNum maxCopyNum
  else e'

/-- A copy comes back. -/
def comeUp (e : PtEntry) (i minCopyNum maxCopyNum : Nat) : PtEntry :=
  viewPtEntryUpdatePtState
    (viewPtUpdateCopyState { e with birthVersion := e.birthVersion + 1 } i)
    minCopyNum maxCopyNum

/-- One iteration of `ViewPtEntryListUpdateNodeDown`; `none` when the loop over
    the copies ends without a change. -/
def nodeDownEntry (nodeId minCopyNum maxCopyNum : Nat) (e : PtEntry) :
    Option PtEntry :=
  ((List.range e.copyNum).find? fun i =>
      (e.copyList i).nodeId == nodeId &&
      ((e.copyList i).state == .running ||
        (e.copyList i).state == .recovery)).map fun i =>
    goDown e i minCopyNum maxCopyNum

/-- One iteration of `ViewPtEntryListUpdateNodeUp`. -/
def nodeUpEntry (nodeId : Nat) (info : NodeInfo)
    (minCopyNum maxCopyNum : Nat) (e : PtEntry) : Option PtEntry :=
  ((List.range e.copyNum).find? fun i =>
      (e.copyList i).nodeId == nodeId &&
      (if viewPtEntryCheckDiskFault info (e.copyList i).diskId then
        (e.copyList i).state == .running || (e.copyList i).state == .recovery
       else (e.copyList i).state == .down)).map fun i =>
    if (e.copyList i).state = .down then comeUp e i minCopyNum maxCopyNum
    else goDown e i minCopyNum maxCopyNum

/-- What a report does to one entry. -/
def nodeStateEntry (nodeId : Nat) (state : NodeState) (info : NodeInfo)
    (minCopyNum maxCopyNum : Nat) (e : PtEntry) : Option PtEntry :=
  match state with
  | .down => nodeDownEntry nodeId minCopyNum maxCopyNum e
  | .up =>
      if viewPtEntryCheckNetFault info then
        nodeDownEntry nodeId minCopyNum maxCopyNum e
      else nodeUpEntry nodeId info minCopyNum maxCopyNum e
  | .invalid => none

/-- `ViewPtEntryListUpdateNodeState`, with `ViewPtEntryListUpdateNodeDown` and
    `ViewPtEntryListUpdateNodeUp`.  `pgChange` is the caller's flag: it is set
    by a change and never cleared here, and whenever it is set in the end the
    `globalVersion` goes up. -/
def viewPtEntryListUpdateNodeState (nodeId : Nat) (state : NodeState)
    (info : NodeInfo) (l : PtEntryList) (pgChange : Bool) :
    PtEntryList × Bool :=
  let f := nodeStateEntry nodeId state info l.minCopyNum l.maxCopyNum
  let pgChange := pgChange || l.ptEntryList.any fun e => (f e).isSome
  ({ l with
      ptEntryList := l.ptEntryList.map fun e => (f e).getD e
      globalVersion :=
        if pgChange then l.globalVersion + 1 else l.globalVersion },
    pgChange)

/-! ## Finish reports -/

/-- The master that `ViewPtUpdateCopyState1` chooses: the first running copy,
    even when the master runs as well. -/
def PtEntry.firstMaster (e : PtEntry) : PtEntry :=
  match (e.runningBelow e.copyNum).head? with
  | none => e
  | some i => if e.isMaster i then e else e.setMaster i

/-- `ViewPtUpdateCopyState1`: it counts the first half of the copy list only,
    and takes the second one off when all of the first runs. -/
def viewPtUpdateCopyState1 (e : PtEntry) (minCopyNum maxCopyNum : Nat) :
    PtEntry :=
  let runningNum := (e.runningBelow maxCopyNum).length
  PtEntry.firstMaster
    { e with
      state := ptStateOf runningNum minCopyNum maxCopyNum
      copyNum :=
        if minCopyNum ≤ runningNum ∧ runningNum = maxCopyNum then maxCopyNum
        else e.copyNum }

/-- What a finish report does to one entry; `none` when it is rejected. -/
def finishEntry (nodeId birthVersion minCopyNum maxCopyNum : Nat)
    (e : PtEntry) : Option PtEntry :=
  if e.birthVersion ≠ birthVersion then none
  else
    ((List.range e.copyNum).find? fun i =>
      (e.copyList i).nodeId == nodeId &&
      (e.copyList i).state == .recovery).map fun i =>
        viewPtUpdateCopyState1 (e.setState i .running) minCopyNum maxCopyNum

/-- One iteration of `ViewPtEntryListUpdateNodeFinish`. -/
def finishItem (nodeId : Nat) (st : PtEntryList × Bool) (f : CmPtFinish) :
    PtEntryList × Bool :=
  match st.1.ptEntryList[f.ptId]? with
  | none => st
  | some e =>
      match finishEntry nodeId f.birthVersion st.1.minCopyNum
          st.1.maxCopyNum e with
      | none => st
      | some e' =>
          ({ st.1 with ptEntryList := st.1.ptEntryList.set f.ptId e' }, true)

/-- `ViewPtEntryListUpdateNodeFinish`; `ptChange` is the caller's flag. -/
def viewPtEntryListUpdateNodeFinish (nodeId : Nat) (ptList : List CmPtFinish)
    (l : PtEntryList) (ptChange : Bool) : PtEntryList × Bool :=
  let r := ptList.foldl (finishItem nodeId) (l, ptChange)
  ({ r.1 with
      globalVersion :=
        if r.2 then r.1.globalVersion + 1 else r.1.globalVersion },
    r.2)

end UbsIo.Mms
