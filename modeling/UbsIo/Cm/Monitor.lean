import UbsIo.Pt.Calc
import UbsIo.Lib.Run

/-! # The fault monitor and the expiry of nodes and disks

    `cm_server_monitor.c` keeps, for each node of a pool, a record of its fault
    or of the faults of its disks, with the time each was seen.  When records
    have expired a task marks the nodes and disks OUT in the state list and
    commits: it stores the state list if that has changed, updates and stores
    the partition view (`cm_server_view.c`), and drops the expired records if
    all went well.

    The tasks of a pool run one after another on the pool's scheduler, so each
    is one step here.  Whether a store succeeds is part of the event.  The
    tables are functions of the node id; the calculator comes as the table of
    operations that the pool holds (`calcOps`), for any type of views. -/

namespace UbsIo.Cm

open UbsIo.Lib
open UbsIo.Pt (NodeState NodeClusterState DiskClusterState NodeInfoList
  CmEventType)

/-! ## The tables -/

structure NodeDiskState where
  diskId : Nat
  clusterState : DiskClusterState
deriving DecidableEq, Repr

structure NodeStateInfo where
  state : NodeState
  clusterState : NodeClusterState
  diskList : List NodeDiskState
deriving DecidableEq, Repr

/-- The state list of a pool. -/
abbrev NodeStateList := Nat → NodeStateInfo

/-- `RecordInfo` of a disk. -/
structure RecordInfo where
  id : Nat
  times : Nat
deriving DecidableEq, Repr

/-- `NodeRecord`; `fault` says that `node.state` is `RECORD_STATE_FAULT`. -/
structure NodeRecord where
  used : Bool
  fault : Bool
  times : Nat
  diskList : List RecordInfo
deriving DecidableEq, Repr

/-- The configuration of a pool and of the monitor. -/
structure Config where
  maxNodeNum : Nat
  /-- `redundance == PT_NONE`: the pool has no view. -/
  ptNone : Bool
  permFaultTime : Nat
  diskPermFaultTime : Nat

/-- The operations of the calculator that a commit calls. -/
structure CalcOps (View : Type) where
  needRebalance : NodeInfoList → NodeStateList → View → Bool
  viewRebalance : NodeInfoList → NodeStateList → Option CmEventType → View →
    Option View

/-- A pool of the server with its fault records. -/
structure CmServerPool (View : Type) where
  nodeList : NodeInfoList
  stateList : NodeStateList
  stateChange : Bool
  ptEntryList : View
  ptChange : Bool
  records : Nat → NodeRecord
  /-- What the store holds. -/
  zkStateList : NodeStateList
  zkPtEntryList : View
  /-- Bookkeeping: the state list that the view in memory was last computed
      from, or found to need no rebalance for. -/
  calcState : NodeStateList
  /-- Bookkeeping: the state list that the view in the store was computed
      from. -/
  viewState : NodeStateList

variable {View : Type}

/-! ## Fault records -/

/-- `CmServerMonitorResetNode`. -/
def NodeRecord.reset : NodeRecord := ⟨false, false, 0, []⟩

/-- `CmServerListenNodeFault`. -/
def cmServerListenNodeFault (times : Nat) (r : NodeRecord) : NodeRecord :=
  if r.used = false then { r with used := true, fault := true, times := times }
  else if r.fault then r
  else { r with fault := true, times := times, diskList := [] }

/-- `CmServerListenDiskFault`. -/
def cmServerListenDiskFault (diskId times : Nat) (r : NodeRecord) :
    NodeRecord :=
  if r.used = false then
    { r with used := true, diskList := r.diskList ++ [⟨diskId, times⟩] }
  else if r.fault then r
  else if r.diskList.any (·.id == diskId) then r
  else { r with diskList := r.diskList ++ [⟨diskId, times⟩] }

/-- `CmServerCancelNodeFault`. -/
def cmServerCancelNodeFault (r : NodeRecord) : NodeRecord :=
  if r.used = false then r else .reset

/-- `CmServerCancelDiskFault`. -/
def cmServerCancelDiskFault (diskId : Nat) (r : NodeRecord) : NodeRecord :=
  if r.used = false then r
  else if r.fault then r
  else
    let diskList := r.diskList.eraseP (·.id == diskId)
    { r with used := !diskList.isEmpty, diskList := diskList }

/-- The node of the record has been faulty for too long. -/
def NodeRecord.nodeExpired (cfg : Config) (curTimes : Nat) (r : NodeRecord) :
    Bool :=
  r.used && r.fault && decide (r.times + cfg.permFaultTime ≤ curTimes)

/-- A disk record has been there for too long. -/
def RecordInfo.expired (cfg : Config) (curTimes : Nat) (d : RecordInfo) :
    Bool :=
  decide (d.times + cfg.diskPermFaultTime ≤ curTimes)

/-- The disks of the record that have been faulty for too long; a faulty node
    hides its disks. -/
def NodeRecord.expiredDisks (cfg : Config) (curTimes : Nat) (r : NodeRecord) :
    List Nat :=
  if r.used && !r.fault then
    (r.diskList.filter (·.expired cfg curTimes)).map (·.id)
  else []

/-- `CmServerMonitorPoolExpiredUpdate` on the record of one node. -/
def expiredUpdate (cfg : Config) (curTimes : Nat) (r : NodeRecord) :
    NodeRecord :=
  if r.used = false then r
  else if r.fault then
    if r.times + cfg.permFaultTime ≤ curTimes then .reset else r
  else if r.diskList.isEmpty then r
  else
    let kept := r.diskList.filter fun d => !d.expired cfg curTimes
    if kept.isEmpty then .reset else { r with diskList := kept }

/-! ## Marking -/

/-- `CmServerViewExpiredNodeSet`. -/
def cmServerViewExpiredNodeSet (nodeId : Nat) (p : CmServerPool View) :
    CmServerPool View :=
  if (p.stateList nodeId).clusterState = .stateOut then p
  else
    { p with
      stateList := Function.update p.stateList nodeId
        { p.stateList nodeId with clusterState := .stateOut }
      stateChange := true }

/-- Mark the first disk with this id OUT. -/
def markDiskOut (diskId : Nat) : List NodeDiskState → List NodeDiskState
  | [] => []
  | x :: rest =>
      if x.diskId = diskId then { x with clusterState := .stateOut } :: rest
      else x :: markDiskOut diskId rest

/-- `CmServerViewExpiredDiskSet`; a disk that is not in the state list is the
    source's "Impossible". -/
def cmServerViewExpiredDiskSet (nodeId diskId : Nat) (p : CmServerPool View) :
    CmServerPool View :=
  match (p.stateList nodeId).diskList.find? (·.diskId == diskId) with
  | none => p
  | some x =>
      if x.clusterState = .stateOut then p
      else
        { p with
          stateList := Function.update p.stateList nodeId
            { p.stateList nodeId with
              diskList := markDiskOut diskId (p.stateList nodeId).diskList }
          stateChange := true }

/-- The body of the loop of `CmServerMonitorPoolExpiredHandle`. -/
def expiredSet (cfg : Config) (curTimes : Nat) (p : CmServerPool View)
    (nodeId : Nat) : CmServerPool View :=
  if (p.records nodeId).nodeExpired cfg curTimes then
    cmServerViewExpiredNodeSet nodeId p
  else
    ((p.records nodeId).expiredDisks cfg curTimes).foldl
      (fun p diskId => cmServerViewExpiredDiskSet nodeId diskId p) p

/-! ## Committing -/

/-- `storeOps->update` on a view that has changed; `false` is `CM_ERR`,
    `viewOk` says whether the store takes the view. -/
def recordPtEntryList (viewOk : Bool) (p : CmServerPool View) :
    Bool × CmServerPool View :=
  if p.ptChange = false then (true, { p with viewState := p.calcState })
  else if viewOk then
    (true, { p with
      zkPtEntryList := p.ptEntryList
      ptChange := false
      viewState := p.calcState })
  else (false, p)

/-- `CmServerViewUpdatePtEntryList`. -/
def cmServerViewUpdatePtEntryList (ops : CalcOps View) (cfg : Config)
    (event : Option CmEventType) (viewOk : Bool) (p : CmServerPool View) :
    Bool × CmServerPool View :=
  if !cfg.ptNone && ops.needRebalance p.nodeList p.stateList p.ptEntryList then
    match ops.viewRebalance p.nodeList p.stateList event p.ptEntryList with
    | none => (false, p)
    | some l =>
        recordPtEntryList viewOk
          { p with ptEntryList := l, ptChange := true, calcState := p.stateList }
  else recordPtEntryList viewOk { p with calcState := p.stateList }

/-- Store the state list and update the view; `stateOk` says whether the store
    takes the state list. -/
def recordStateList (ops : CalcOps View) (cfg : Config)
    (event : Option CmEventType) (stateOk viewOk : Bool)
    (p : CmServerPool View) : Bool × CmServerPool View :=
  if stateOk then
    cmServerViewUpdatePtEntryList ops cfg event viewOk
      { p with zkStateList := p.stateList, stateChange := false }
  else (false, p)

/-- `CmServerViewExpiredCommit`. -/
def cmServerViewExpiredCommit (ops : CalcOps View) (cfg : Config)
    (stateOk viewOk : Bool) (p : CmServerPool View) :
    Bool × CmServerPool View :=
  if p.stateChange = false then (true, p)
  else recordStateList ops cfg none stateOk viewOk p

/-- The last part of `CmServerViewNodeListChange` and of
    `CmServerViewNodeEvent`, where the view is updated in any case. -/
def cmServerViewCommit (ops : CalcOps View) (cfg : Config)
    (event : Option CmEventType) (stateOk viewOk : Bool)
    (p : CmServerPool View) : Bool × CmServerPool View :=
  if p.stateChange then recordStateList ops cfg event stateOk viewOk p
  else cmServerViewUpdatePtEntryList ops cfg event viewOk p

/-- `CmServerMonitorPoolExpiredHandle`. -/
def cmServerMonitorPoolExpiredHandle (ops : CalcOps View) (cfg : Config)
    (curTimes : Nat) (stateOk viewOk : Bool) (p : CmServerPool View) :
    CmServerPool View :=
  let marked := (List.range cfg.maxNodeNum).foldl (expiredSet cfg curTimes) p
  let r := cmServerViewExpiredCommit ops cfg stateOk viewOk marked
  if r.1 then
    { r.2 with records := fun nodeId =>
        if nodeId < cfg.maxNodeNum then
          expiredUpdate cfg curTimes (r.2.records nodeId)
        else r.2.records nodeId }
  else r.2

/-! ## The pool as a state machine -/

inductive Event (View : Type) where
  | listenNode (nodeId times : Nat)
  | listenDisk (nodeId diskId times : Nat)
  | cancelNode (nodeId : Nat)
  | cancelDisk (nodeId diskId : Nat)
  /-- What the handlers of node and partition events do to the tables: a table
      they write is flagged. -/
  | tables (nodeList : NodeInfoList) (stateList : Option NodeStateList)
      (ptEntryList : Option View)
  /-- The stores at the end of a handler. -/
  | commit (event : Option CmEventType) (stateOk viewOk : Bool)
  /-- `CmServerViewPtEventCommit`. -/
  | ptCommit (viewOk : Bool)
  /-- The task of the monitor. -/
  | expire (curTimes : Nat) (stateOk viewOk : Bool)

/-- Change the record of one node. -/
def CmServerPool.setRecord (p : CmServerPool View) (nodeId : Nat)
    (f : NodeRecord → NodeRecord) : CmServerPool View :=
  { p with
    records := Function.update p.records nodeId (f (p.records nodeId)) }

/-- The pool after one event. -/
def next (ops : CalcOps View) (cfg : Config) (p : CmServerPool View) :
    Event View → CmServerPool View
  | .listenNode nodeId times =>
      p.setRecord nodeId (cmServerListenNodeFault times)
  | .listenDisk nodeId diskId times =>
      p.setRecord nodeId (cmServerListenDiskFault diskId times)
  | .cancelNode nodeId => p.setRecord nodeId cmServerCancelNodeFault
  | .cancelDisk nodeId diskId =>
      p.setRecord nodeId (cmServerCancelDiskFault diskId)
  | .tables nodeList stateList ptEntryList =>
      { p with
        nodeList := nodeList
        stateList := stateList.getD p.stateList
        stateChange := p.stateChange || stateList.isSome
        ptEntryList := ptEntryList.getD p.ptEntryList
        ptChange := p.ptChange || ptEntryList.isSome }
  | .commit event stateOk viewOk =>
      (cmServerViewCommit ops cfg event stateOk viewOk p).2
  | .ptCommit viewOk => (recordPtEntryList viewOk p).2
  | .expire curTimes stateOk viewOk =>
      cmServerMonitorPoolExpiredHandle ops cfg curTimes stateOk viewOk p

/-- Every event is accepted. -/
def step (ops : CalcOps View) (cfg : Config) (p : CmServerPool View)
    (ev : Event View) : Option (CmServerPool View) :=
  some (next ops cfg p ev)

/-- A pool whose tables have all been stored, with any records. -/
structure Started (p : CmServerPool View) : Prop where
  stateChange : p.stateChange = false
  ptChange : p.ptChange = false
  zkStateList : p.zkStateList = p.stateList
  zkPtEntryList : p.zkPtEntryList = p.ptEntryList
  calcState : p.calcState = p.stateList
  viewState : p.viewState = p.stateList

end UbsIo.Cm
