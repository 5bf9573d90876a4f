import UbsIo.Mms.Calc

/-! # The memstore's view server

    `cm_server_view.c` of the memstore: the handlers of a pool once its view
    has been computed.  A handler brings the node tables and the states of the
    copies up to date, stores the tables that it has flagged, and ends with
    `CmServerViewUpdatePtEntryList`, which asks for a rebalance and stores the
    view if that is flagged.  A rebalance that fails ends the handler before
    the store.

    Every store succeeds, and what a handler reads back of a registration is
    part of its event.  The node that owns the tables and its status are left
    out: the handlers store the state list whenever they flag it. -/

namespace UbsIo.Mms

open UbsIo.Pt (NodeState NodeClusterState DiskClusterState NodeStateInfo
  NodeInfo NodeInfoList NodeStateList DiskState CmPtFinish
  viewCalcNormNodeNum viewCalcCheckNodeIsNormal viewCalcCheckNodeIsFault)

/-- The pool that `MmsCmInit` configures for `nodeNum` nodes: as many copies
    and partitions as nodes, and one copy fewer as the least number. -/
def mmsCore (nodeNum : Nat) : CalcCore where
  nodeNum := nodeNum
  ptNum := nodeNum
  copyNum := nodeNum
  minCopyNum := nodeNum - 1

/-- A pool of the server with what the store holds of it. -/
structure CmServerPool where
  nodeList : NodeInfoList
  stateList : NodeStateList
  ptEntryList : PtEntryList
  nodeChange : Bool
  stateChange : Bool
  ptChange : Bool
  zkNodeList : NodeInfoList
  zkStateList : NodeStateList
  zkPtEntryList : PtEntryList

/-- The pool after its first view has been computed and stored. -/
def CmServerPool.started (nodeList : NodeInfoList) (stateList : NodeStateList)
    (l : PtEntryList) : CmServerPool where
  nodeList := nodeList
  stateList := stateList
  ptEntryList := l
  nodeChange := false
  stateChange := false
  ptChange := false
  zkNodeList := nodeList
  zkStateList := stateList
  zkPtEntryList := l

/-! ## The tables -/

/-- Overwrite the state of a node. -/
def CmServerPool.setState (p : CmServerPool) (nodeId : Nat)
    (s : NodeStateInfo) : CmServerPool :=
  { p with
    stateList := ⟨p.stateList.nodeList.set nodeId s⟩
    stateChange := true }

/-- Take over a registration that differs from the one at hand. -/
def CmServerPool.takeInfo (p : CmServerPool) (nodeId : Nat)
    (cache : NodeInfo) : CmServerPool :=
  if p.nodeList.node nodeId = cache then p
  else
    { p with
      nodeList := { p.nodeList with
        nodeList := p.nodeList.nodeList.set nodeId cache }
      nodeChange := true }

/-- `calcOps->updateState`, for a pool with copies. -/
def CmServerPool.updateState (core : CalcCore) (nodeId : Nat)
    (state : NodeState) (p : CmServerPool) : CmServerPool :=
  if core.copyNum = 0 then p
  else
    let r := viewPtEntryListUpdateNodeState nodeId state
      (p.nodeList.node nodeId) p.ptEntryList p.ptChange
    { p with ptEntryList := r.1, ptChange := r.2 }

/-- `CmServerViewOnlineUpdateState`.  A disk behind the end of the registered
    ones reads as the zeroed value, which is the normal state. -/
def cmServerViewOnlineUpdateState (info : NodeInfo) (s : NodeStateInfo) :
    NodeStateInfo :=
  let diskNum :=
    if s.clusterState = .stateIn then s.diskList.length
    else info.diskList.length
  { state := .up
    clusterState := .stateIn
    diskList := (List.range diskNum).map fun index =>
      if (info.diskList.getD index ⟨0, .normal⟩).state = .normal then .stateIn
      else .stateOut }

/-- `CmServerViewNodeOffline`. -/
def cmServerViewNodeOffline (core : CalcCore) (nodeId : Nat)
    (p : CmServerPool) : CmServerPool :=
  let s := p.stateList.node nodeId
  if s.state = .invalid ∨ s.state = .down then p
  else
    let p := p.setState nodeId { s with state := .down }
    if s.clusterState = .stateIn then p.updateState core nodeId .down else p

/-- `CmServerViewNodeOnline`; `cache` is the registration it reads back. -/
def cmServerViewNodeOnline (core : CalcCore) (nodeId : Nat) (cache : NodeInfo)
    (p : CmServerPool) : CmServerPool :=
  if (p.stateList.node nodeId).state = .up then p
  else
    let p := p.takeInfo nodeId cache
    let s := cmServerViewOnlineUpdateState (p.nodeList.node nodeId)
      (p.stateList.node nodeId)
    (p.setState nodeId s).updateState core nodeId .up

/-- `CmServerViewBuildNode`. -/
def cmServerViewBuildNode (core : CalcCore) (nodeId : Nat) (cache : NodeInfo)
    (p : CmServerPool) : CmServerPool :=
  let s := p.stateList.node nodeId
  if s.state = .invalid then p
  else
    let p := p.takeInfo nodeId cache
    if s.clusterState = .stateIn then p.updateState core nodeId s.state else p

/-- What has expired: a node, or a disk of it by its position. -/
inductive Expired where
  | node (nodeId : Nat)
  | disk (nodeId diskIndex : Nat)
deriving DecidableEq, Repr

/-- `CmServerViewExpiredNodeSet` and `CmServerViewExpiredDiskSet`. -/
def expiredSet (p : CmServerPool) : Expired → CmServerPool
  | .node nodeId =>
      let s := p.stateList.node nodeId
      if s.clusterState = .stateOut then p
      else p.setState nodeId { s with clusterState := .stateOut }
  | .disk nodeId diskIndex =>
      let s := p.stateList.node nodeId
      if s.diskList.length ≤ diskIndex then p
      else if s.disk diskIndex = .stateOut then p
      else p.setState nodeId
        { s with diskList := s.diskList.set diskIndex .stateOut }

/-! ## The stores -/

/-- Store the node list if it is flagged. -/
def recordNodeList (p : CmServerPool) : CmServerPool :=
  if p.nodeChange then
    { p with zkNodeList := p.nodeList, nodeChange := false }
  else p

/-- Store the state list if it is flagged. -/
def recordStateList (p : CmServerPool) : CmServerPool :=
  if p.stateChange then
    { p with zkStateList := p.stateList, stateChange := false }
  else p

/-- Store the view if it is flagged; this is `CmServerViewPtEventCommit`. -/
def cmServerViewPtEventCommit (p : CmServerPool) : CmServerPool :=
  if p.ptChange then
    { p with zkPtEntryList := p.ptEntryList, ptChange := false }
  else p

/-- The rebalance of `CmServerViewUpdatePtEntryList`: `CM_ERR` is `false`. -/
def tryRebalance (core : CalcCore) (p : CmServerPool) :
    Option (Bool × CmServerPool) := do
  if core.copyNum = 0 then some (true, p)
  else if ← viewCalculatorNeedRebalance core p.nodeList p.stateList
      p.ptEntryList then
    match ← viewCalculatorRebalance core p.nodeList p.stateList
        p.ptEntryList with
    | (false, l) => some (false, { p with ptEntryList := l })
    | (true, l) => some (true, { p with ptEntryList := l, ptChange := true })
  else some (true, p)

/-- `CmServerViewUpdatePtEntryList`. -/
def cmServerViewUpdatePtEntryList (core : CalcCore) (p : CmServerPool) :
    Option CmServerPool := do
  match ← tryRebalance core p with
  | (false, p) => some p
  | (true, p) => some (cmServerViewPtEventCommit p)

/-! ## The handlers -/

/-- One round of the loop of `CmServerViewNodeListChange`. -/
def nodeListVisit (core : CalcCore) (watchList : List Nat)
    (infos : Nat → NodeInfo) (p : CmServerPool) (nodeId : Nat) :
    CmServerPool :=
  if watchList.contains nodeId then
    cmServerViewNodeOnline core nodeId (infos nodeId) p
  else cmServerViewNodeOffline core nodeId p

/-- The loop of `CmServerViewNodeListChange`. -/
def nodeListVisits (core : CalcCore) (watchList : List Nat)
    (infos : Nat → NodeInfo) (p : CmServerPool) : CmServerPool :=
  (List.range p.nodeList.nodeList.length).foldl
    (nodeListVisit core watchList infos) p

/-- `CmServerViewNodeListChange`; `infos` are the registrations of the nodes
    that come online. -/
def cmServerViewNodeListChange (core : CalcCore) (watchList : List Nat)
    (infos : Nat → NodeInfo) (p : CmServerPool) : Option CmServerPool :=
  cmServerViewUpdatePtEntryList core
    (recordStateList (recordNodeList (nodeListVisits core watchList infos p)))

/-- `CmServerViewNodeEvent`. -/
def cmServerViewNodeEvent (core : CalcCore) (nodeId : Nat) (cache : NodeInfo)
    (p : CmServerPool) : Option CmServerPool :=
  cmServerViewUpdatePtEntryList core
    (recordStateList (recordNodeList
      (cmServerViewBuildNode core nodeId cache p)))

/-- `CmServerViewExpiredCommit`. -/
def cmServerViewExpiredCommit (core : CalcCore) (p : CmServerPool) :
    Option CmServerPool :=
  if p.stateChange then
    cmServerViewUpdatePtEntryList core (recordStateList p)
  else some p

/-- `CmServerViewPtEvent`. -/
def cmServerViewPtEvent (core : CalcCore) (p : CmServerPool)
    (report : Nat × List CmPtFinish) : CmServerPool :=
  if core.copyNum = 0 then p
  else
    let r := viewPtEntryListUpdateNodeFinish report.1 report.2 p.ptEntryList
      p.ptChange
    { p with ptEntryList := r.1, ptChange := r.2 }

inductive ServerEvent where
  | nodeListChange (watchList : List Nat) (infos : Nat → NodeInfo)
  | nodeEvent (nodeId : Nat) (cache : NodeInfo)
  /-- The marks of the fault monitor and their commit. -/
  | expired (marks : List Expired)
  /-- The finish reports of some nodes and their commit. -/
  | ptEvents (reports : List (Nat × List CmPtFinish))

/-- The pool after one event; `none` is a load or store behind a copy list. -/
def serverStep (core : CalcCore) (p : CmServerPool) :
    ServerEvent → Option CmServerPool
  | .nodeListChange watchList infos =>
      cmServerViewNodeListChange core watchList infos p
  | .nodeEvent nodeId cache => cmServerViewNodeEvent core nodeId cache p
  | .expired marks => cmServerViewExpiredCommit core (marks.foldl expiredSet p)
  | .ptEvents reports =>
      some (cmServerViewPtEventCommit
        (reports.foldl (cmServerViewPtEvent core) p))

end UbsIo.Mms
