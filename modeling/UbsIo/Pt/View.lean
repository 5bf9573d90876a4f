import UbsIo.Lib.Run
import UbsIo.Lib.Traverse

/-! # The partition view and its local updates

    The data model of the cluster manager's partition view (`cm_inner.h`) and
    the functions of `cm_pt_calc_fixed_state.c` that rewrite it in place when a
    node goes down, comes up or reports that it has finished a recovery.

    A copy list has two halves: slot `i` below `maxCopyNum` is the settled copy,
    slot `i + maxCopyNum` the copy that is being built to replace it.  The array
    of six copies is a function on indices; every index the code uses is below
    `ptMaxCopyIndex`.  Versions and counters are natural numbers: they are only
    incremented, and 64 (56) bits of increments are out of reach. -/

namespace UbsIo.Pt

/-- `NODE_ID_INVALID`. -/
def nodeIdInvalid : Nat := 0xFFFF

/-- `DISK_ID_INVALID`. -/
def diskIdInvalid : Nat := 0xFFFF

/-- `PT_MAX_COPY_INDEX`, twice `PT_MAX_COPY_NUM`. -/
def ptMaxCopyIndex : Nat := 6

inductive PtState where
  | init | normal | degradeLoss1 | degradeLoss2 | fault | loss1Bypass
deriving DecidableEq, Repr

inductive PtCopyState where
  | init | running | down | out | recovery
deriving DecidableEq, Repr

/-- The test `state != INIT && state != OUT` that the source repeats. -/
def PtCopyState.live (s : PtCopyState) : Bool :=
  s != .init && s != .out

structure PtEntryCopy where
  nodeId : Nat
  diskId : Nat
  /-- Set when the copy is one of the last `minCopyNum` running ones. -/
  keepAlive : Bool
  state : PtCopyState
deriving DecidableEq, Repr

/-- The value the source writes into a slot it gives up. -/
def PtEntryCopy.givenUp : PtEntryCopy where
  nodeId := nodeIdInvalid
  diskId := diskIdInvalid
  keepAlive := false
  state := .out

structure PtEntry where
  birthVersion : Nat
  ptId : Nat
  state : PtState
  masterNodeId : Nat
  masterDiskId : Nat
  /-- Counts temporary faults and returns of copies. -/
  referNum : Nat
  copyNum : Nat
  copyList : Nat → PtEntryCopy

structure PtEntryList where
  poolId : Nat
  maxCopyNum : Nat
  minCopyNum : Nat
  globalVersion : Nat
  ptEntryList : List PtEntry

namespace PtEntry

/-- Overwrite one slot. -/
def setCopy (e : PtEntry) (i : Nat) (c : PtEntryCopy) : PtEntry :=
  { e with copyList := Function.update e.copyList i c }

/-- Overwrite the state of one slot. -/
def setState (e : PtEntry) (i : Nat) (s : PtCopyState) : PtEntry :=
  e.setCopy i { e.copyList i with state := s }

/-- The indices below `copyNum` whose copy is running, in order. -/
def runningList (e : PtEntry) : List Nat :=
  (List.range e.copyNum).filter fun i => (e.copyList i).state = .running

/-- The counting loop `normNum` / `runningNum` / `statNum`. -/
def runningNum (e : PtEntry) : Nat := e.runningList.length

/-- Give every running copy below `copyNum` the same `keepAlive` flag. -/
def setRunningKeepAlive (e : PtEntry) (b : Bool) : PtEntry :=
  { e with
    copyList := fun i =>
      if i < e.copyNum ∧ (e.copyList i).state = .running then
        { e.copyList i with keepAlive := b }
      else e.copyList i }

/-- Keep the master if it is a running copy, else take the first running
    copy, if there is one. -/
def updateMaster (e : PtEntry) : PtEntry :=
  if e.runningList.any fun i => (e.copyList i).nodeId == e.masterNodeId &&
      (e.copyList i).diskId == e.masterDiskId then e
  else
    match e.runningList.head? with
    | none => e
    | some i =>
        { e with
          masterNodeId := (e.copyList i).nodeId
          masterDiskId := (e.copyList i).diskId }

end PtEntry

/-- The chain of comparisons that turns a number of running copies into the
    state of the partition. -/
def ptStateOf (runningNum minCopyNum maxCopyNum : Nat) : PtState :=
  if runningNum < minCopyNum then .fault
  else if runningNum = maxCopyNum then .normal
  else if runningNum + 1 = maxCopyNum then .degradeLoss1
  else if runningNum + 2 = maxCopyNum then .degradeLoss2
  else .fault

/-! ## Flags and states of one entry -/

/-- `ViewPtUpdateCopyKeepAlive`. -/
def viewPtUpdateCopyKeepAlive (e : PtEntry) (minCopyNum : Nat) : PtEntry :=
  if e.runningNum = minCopyNum then e.setRunningKeepAlive true
  else if e.runningNum > minCopyNum then e.setRunningKeepAlive false
  else e

/-- `ViewPtUpdateCopyState`: a copy that comes back. -/
def viewPtUpdateCopyState (e : PtEntry) (copyIndex minCopyNum : Nat) :
    PtEntry :=
  if e.runningNum ≥ minCopyNum then e.setState copyIndex .recovery
  else if (e.copyList copyIndex).keepAlive then e.setState copyIndex .running
  else e.setState copyIndex .recovery

/-- `ViewPtEntryUpdatePtState`. -/
def viewPtEntryUpdatePtState (e : PtEntry) (minCopyNum maxCopyNum : Nat) :
    PtEntry :=
  { e.updateMaster with state := ptStateOf e.runningNum minCopyNum maxCopyNum }

/-- `ViewPtSatisfiedCopyNum`. -/
def viewPtSatisfiedCopyNum (e : PtEntry) (minCopyNum : Nat) : Bool :=
  decide (minCopyNum ≤ e.runningNum)

/-! ## Node and disk reports -/

inductive NodeState where
  | invalid | up | down
deriving DecidableEq, Repr

inductive NetState where
  | normal | fault
deriving DecidableEq, Repr

inductive DiskState where
  | normal | fault
deriving DecidableEq, Repr

structure DiskInfo where
  diskId : Nat
  state : DiskState
deriving DecidableEq, Repr

/-- The parts of a node's registration that the calculator reads. -/
structure NodeInfo where
  diskList : List DiskInfo
  netList : List NetState
deriving DecidableEq, Repr

/-- `ViewPtEntryCheckNetFault`: there are monitored networks, they agree, and
    they agree on a fault. -/
def viewPtEntryCheckNetFault (info : NodeInfo) : Bool :=
  match info.netList with
  | [] => false
  | s :: rest => if rest.any (· != s) then false else s == .fault

/-- `ViewPtEntryCheckDiskFault`: the first disk with this id is faulty. -/
def viewPtEntryCheckDiskFault (info : NodeInfo) (diskId : Nat) : Bool :=
  match info.diskList.find? (·.diskId == diskId) with
  | none => false
  | some d => d.state == .fault

/-- A running copy is taken down: the `referNum`, the survivors' flags, the
    master and the partition state follow. -/
def runningDown (e : PtEntry) (i minCopyNum maxCopyNum : Nat) : PtEntry :=
  let e1 := { e.setState i .down with referNum := e.referNum + 1 }
  viewPtEntryUpdatePtState (viewPtUpdateCopyKeepAlive e1 minCopyNum)
    minCopyNum maxCopyNum

/-- A recovering copy is taken down: only the `referNum` follows. -/
def recoveryDown (e : PtEntry) (i : Nat) : PtEntry :=
  { e.setState i .down with referNum := e.referNum + 1 }

/-- One iteration of `ViewPtEntryListUpdateNodeDown`; `none` when the loop over
    the copies ends without a change. -/
def nodeDownEntry (nodeId minCopyNum maxCopyNum : Nat) (e : PtEntry) :
    Option PtEntry :=
  ((List.range e.copyNum).find? fun i =>
      (e.copyList i).nodeId == nodeId &&
      ((e.copyList i).state == .running ||
       (e.copyList i).state == .recovery)).map fun i =>
    if (e.copyList i).state = .running then
      runningDown e i minCopyNum maxCopyNum
    else recoveryDown e i

/-- Apply a per-entry change to the whole list; the flag is the source's
    `pgChange`. -/
def updateEntries (f : PtEntry → Option PtEntry) (l : PtEntryList) :
    PtEntryList × Bool :=
  ({ l with ptEntryList := l.ptEntryList.map fun e => (f e).getD e },
   l.ptEntryList.any fun e => (f e).isSome)

/-- `ViewPtEntryListUpdateNodeDown`. -/
def viewPtEntryListUpdateNodeDown (nodeId : Nat) (l : PtEntryList) :
    PtEntryList × Bool :=
  updateEntries (nodeDownEntry nodeId l.minCopyNum l.maxCopyNum) l

/-- One iteration of `ViewPtEntryListUpdateNodeUp`. -/
def nodeUpEntry (nodeId : Nat) (info : NodeInfo)
    (minCopyNum maxCopyNum : Nat) (e : PtEntry) : Option PtEntry :=
  ((List.range e.copyNum).find? fun i =>
      (e.copyList i).nodeId == nodeId &&
      (if viewPtEntryCheckDiskFault info (e.copyList i).diskId then
        (e.copyList i).state == .running || (e.copyList i).state == .recovery
       else (e.copyList i).state == .down)).map fun i =>
    if (e.copyList i).state = .down then
      viewPtEntryUpdatePtState
        (viewPtUpdateCopyState { e with referNum := e.referNum + 1 } i
          minCopyNum) minCopyNum maxCopyNum
    else if (e.copyList i).state = .running then
      runningDown e i minCopyNum maxCopyNum
    else recoveryDown e i

/-- `ViewPtEntryListUpdateNodeUp`: a node all of whose networks are faulty is
    treated as down. -/
def viewPtEntryListUpdateNodeUp (nodeId : Nat) (info : NodeInfo)
    (l : PtEntryList) : PtEntryList × Bool :=
  if viewPtEntryCheckNetFault info then viewPtEntryListUpdateNodeDown nodeId l
  else updateEntries (nodeUpEntry nodeId info l.minCopyNum l.maxCopyNum) l

/-- `ViewPtEntryListUpdateNodeState`. -/
def viewPtEntryListUpdateNodeState (nodeId : Nat) (state : NodeState)
    (info : NodeInfo) (l : PtEntryList) : PtEntryList × Bool :=
  match state with
  | .down => viewPtEntryListUpdateNodeDown nodeId l
  | .up => viewPtEntryListUpdateNodeUp nodeId info l
  | .invalid => (l, false)

/-! ## Finish reports -/

/-- One report item: the partition and the birth version it is for. -/
structure CmPtFinish where
  birthVersion : Nat
  ptId : Nat
deriving DecidableEq, Repr

/-- One iteration of the loop of `ViewPtEntryTrim`: a settled slot that is not
    running takes over its running replacement. -/
def trimSlot (copyNum : Nat) (e : PtEntry) (i : Nat) : PtEntry :=
  if (e.copyList i).state = .running then e
  else if (e.copyList (i + copyNum)).state = .running then
    (e.setCopy i (e.copyList (i + copyNum))).setCopy (i + copyNum) .givenUp
  else e

/-- The last settled slot on the node, as the loop without a `break` leaves
    it. -/
def lastSlotOn (e : PtEntry) (copyNum nodeId : Nat) : Option Nat :=
  ((List.range copyNum).filter fun i =>
    (e.copyList i).nodeId == nodeId).getLast?

/-- The master election at the end of `ViewPtEntryTrim`: the reporting node
    takes over a master role from a node that has more than its share. -/
def trimMaster (e : PtEntry) (copyNum ptNum : Nat) (masterList : Nat → Nat)
    (nodeId validNum : Nat) : PtEntry × (Nat → Nat) :=
  match lastSlotOn e copyNum nodeId with
  | none => (e, masterList)
  | some i =>
      if masterList nodeId < ptNum / validNum ∧
          masterList e.masterNodeId > ptNum / validNum then
        let lowered := Function.update masterList e.masterNodeId
          (masterList e.masterNodeId - 1)
        ({ e with
            masterNodeId := (e.copyList i).nodeId
            masterDiskId := (e.copyList i).diskId
            referNum := e.referNum + 1 },
         Function.update lowered nodeId (lowered nodeId + 1))
      else (e, masterList)

/-- `ViewPtEntryTrim`; `none` is the source's `FALSE`, with nothing changed. -/
def viewPtEntryTrim (e : PtEntry) (copyNum ptNum : Nat)
    (masterList : Nat → Nat) (nodeId validNum : Nat) :
    Option (PtEntry × (Nat → Nat)) :=
  if e.runningNum ≠ copyNum then none
  else
    let e1 := { (List.range copyNum).foldl (trimSlot copyNum) e with
      state := .normal
      copyNum := copyNum }
    if validNum = 0 then some (e1, masterList)
    else some (trimMaster e1 copyNum ptNum masterList nodeId validNum)

/-- `GenMasterList`: how many partitions each node is the master of. -/
def genMasterList (l : PtEntryList) (nodeNum : Nat) : Nat → Nat := fun n =>
  if n < nodeNum then l.ptEntryList.countP (·.masterNodeId == n) else 0

/-- A recovering copy of `nodeId` becomes running: flags, then the trim, and
    the partition state if the trim did nothing. -/
def finishCopy (e : PtEntry) (i : Nat) (l : PtEntryList)
    (masterList : Nat → Nat) (nodeId validNum : Nat) :
    PtEntry × (Nat → Nat) :=
  let e1 := viewPtUpdateCopyKeepAlive (e.setState i .running) l.minCopyNum
  match viewPtEntryTrim e1 l.maxCopyNum l.ptEntryList.length masterList nodeId
      validNum with
  | some r => r
  | none =>
      (viewPtEntryUpdatePtState e1 l.minCopyNum l.maxCopyNum, masterList)

/-- What a finish report does to one entry; `none` when it is rejected. -/
def finishEntry (nodeId validNum birthVersion : Nat) (l : PtEntryList)
    (masterList : Nat → Nat) (e : PtEntry) :
    Option (PtEntry × (Nat → Nat)) :=
  if e.birthVersion ≠ birthVersion then none
  else if viewPtSatisfiedCopyNum e l.minCopyNum = false then none
  else
    ((List.range e.copyNum).find? fun i =>
      (e.copyList i).nodeId == nodeId &&
      (e.copyList i).state == .recovery).map fun i =>
        finishCopy e i l masterList nodeId validNum

/-- One iteration of `ViewPtEntryListUpdateNodeFinish`; the Boolean is
    `ptChange`. -/
def finishItem (nodeId validNum : Nat) (st : PtEntryList × (Nat → Nat) × Bool)
    (f : CmPtFinish) : PtEntryList × (Nat → Nat) × Bool :=
  match st.1.ptEntryList[f.ptId]? with
  | none => st
  | some e =>
      match finishEntry nodeId validNum f.birthVersion st.1 st.2.1 e with
      | none => st
      | some (e', masterList) =>
          ({ st.1 with ptEntryList := st.1.ptEntryList.set f.ptId e' },
           masterList, true)

/-- `ViewPtEntryListUpdateNodeFinish`. -/
def viewPtEntryListUpdateNodeFinish (nodeId : Nat) (ptList : List CmPtFinish)
    (l : PtEntryList) (nodeNum validNum : Nat) : PtEntryList × Bool :=
  let r := ptList.foldl (finishItem nodeId validNum)
    (l, genMasterList l nodeNum, false)
  (r.1, r.2.2)

/-! ## The clients' copy list -/

/-- A copy as `Cm::FillPtCopyList` hands it to the clients.  Its table of copy
    states is the identity. -/
structure CmPtCopy where
  nodeId : Nat
  diskId : Nat
  state : PtCopyState
deriving DecidableEq, Repr

/-- The body of the loop of `Cm::FillPtCopyList`; `none` is either of its
    "Impossible" branches. -/
def fillPtCopy (maxCopyNum : Nat) (e : PtEntry) (idx : Nat) :
    Option CmPtCopy :=
  let vIdx := if idx < ptMaxCopyIndex ∧ (e.copyList idx).state.live = false
    then idx + maxCopyNum else idx
  if vIdx < ptMaxCopyIndex ∧ (e.copyList vIdx).state.live = false then none
  else if vIdx ≥ ptMaxCopyIndex then none
  else
    let c := e.copyList vIdx
    some ⟨c.nodeId, c.diskId, c.state⟩

/-- `Cm::FillPtCopyList` for one entry of the list. -/
def fillPtCopyList (l : PtEntryList) (e : PtEntry) : Option (List CmPtCopy) :=
  (List.range l.maxCopyNum).mapM (fillPtCopy l.maxCopyNum e)

end UbsIo.Pt
