import UbsIo.Pt.View

/-! # The view calculator

    `cm_pt_calc_fixed.c`: the initial placement of the partitions on the disks
    and the rebalance that evicts copies on expired nodes or disks, refills the
    holes, and moves copies from loaded to idle disks.

    The calculator keeps its candidate disks in a doubly linked list `busy`
    sorted by load; here it is the list of its elements.  It is built at the
    start of a call and given back at the end, so between calls only the
    dimensions of the pool remain.  Last comes the step function of the whole
    view (`Event`, `step`): every way the server rewrites it. -/

namespace UbsIo.Pt

open UbsIo.Lib

inductive NodeClusterState where
  | invalid | stateOut | stateIn
deriving DecidableEq, Repr

inductive DiskClusterState where
  | invalid | stateOut | stateIn
deriving DecidableEq, Repr

structure NodeStateInfo where
  state : NodeState
  clusterState : NodeClusterState
  /-- Cluster state of each disk, by its position in the node's disk list. -/
  diskList : List DiskClusterState
deriving DecidableEq, Repr

structure NodeInfoList where
  poolId : Nat
  nodeList : List NodeInfo
deriving DecidableEq, Repr

structure NodeStateList where
  nodeList : List NodeStateInfo
deriving DecidableEq, Repr

/-- The registration of a node; slots beyond the table hold no disk. -/
def NodeInfoList.node (l : NodeInfoList) (nodeId : Nat) : NodeInfo :=
  l.nodeList.getD nodeId ⟨[], []⟩

/-- The state of a node. -/
def NodeStateList.node (l : NodeStateList) (nodeId : Nat) : NodeStateInfo :=
  l.nodeList.getD nodeId ⟨.invalid, .invalid, []⟩

/-- The cluster state of the disk at a position. -/
def NodeStateInfo.disk (s : NodeStateInfo) (diskIndex : Nat) :
    DiskClusterState :=
  s.diskList.getD diskIndex .invalid

/-- `CalcElem`: a candidate disk and the number of copies on it. -/
structure CalcElem where
  nodeId : Nat
  diskId : Nat
  referNum : Int
deriving DecidableEq, Repr

/-- `CalcCore`, less its work lists. -/
structure CalcCore where
  /-- Number of `CalcElem` cells: `maxNodeNum * DISK_LIST_NUM` in 16 bits. -/
  elemNum : Nat
  ptNum : Nat
  copyNum : Nat
  minCopyNum : Nat
  /-- The value an earlier call left in `diskNum`. -/
  diskNum : Nat
deriving DecidableEq, Repr

/-! ## The busy list -/

/-- Up, and a member of the cluster. -/
def nodeIsIn (stateList : NodeStateList) (nodeId : Nat) : Bool :=
  (stateList.node nodeId).state == .up &&
  (stateList.node nodeId).clusterState == .stateIn

/-- The normal, joined disks of a node, as fresh elements. -/
def normalDisks (nodeList : NodeInfoList) (stateList : NodeStateList)
    (nodeId : Nat) : List CalcElem :=
  ((nodeList.node nodeId).diskList.zipIdx.filter fun d =>
    d.1.state == .normal && (stateList.node nodeId).disk d.2 == .stateIn).map
      fun d => ⟨nodeId, d.1.diskId, 0⟩

/-- `ViewCalcNormNodeNum`. -/
def viewCalcNormNodeNum (nodeList : NodeInfoList)
    (stateList : NodeStateList) : Nat :=
  (List.range stateList.nodeList.length).countP fun nodeId =>
    nodeIsIn stateList nodeId && !(normalDisks nodeList stateList nodeId).isEmpty

/-- The loop of `ViewCalcBuildBusyList`.  A node whose disks exceed the free
    cells ends the loop (the source's "Impossible" branch). -/
def buildBusyFrom (core : CalcCore) (nodeList : NodeInfoList)
    (stateList : NodeStateList) :
    List Nat → List CalcElem → Nat → List CalcElem × Nat
  | [], busy, diskNum => (busy, diskNum)
  | nodeId :: rest, busy, diskNum =>
      if nodeIsIn stateList nodeId then
        let found := normalDisks nodeList stateList nodeId
        if busy.length + found.length > core.elemNum then
          (busy ++ found.take (core.elemNum - busy.length), diskNum)
        else
          buildBusyFrom core nodeList stateList rest (busy ++ found)
            (nodeList.node nodeId).diskList.length
      else buildBusyFrom core nodeList stateList rest busy diskNum

/-- `ViewCalcBuildBusyList`: the busy list and `diskNum`. -/
def viewCalcBuildBusyList (core : CalcCore) (nodeList : NodeInfoList)
    (stateList : NodeStateList) : List CalcElem × Nat :=
  buildBusyFrom core nodeList stateList
    (List.range stateList.nodeList.length) [] core.diskNum

/-- Insert before the first element with a larger load. -/
def insertByRefer (x : CalcElem) (busy : List CalcElem) : List CalcElem :=
  busy.takeWhile (fun y => decide (y.referNum ≤ x.referNum)) ++
    x :: busy.dropWhile (fun y => decide (y.referNum ≤ x.referNum))

/-- `ViewCalcFillUpdateBusyList`: change the load of one disk and move it to
    its place.  On an `int64_t` overflow the source drops the element. -/
def viewCalcFillUpdateBusyList (busy : List CalcElem) (nodeId diskId : Nat)
    (diff : Int) : List CalcElem :=
  match busy.find? fun x => x.nodeId == nodeId && x.diskId == diskId with
  | none => busy
  | some found =>
      let rest := busy.eraseP fun x => x.nodeId == nodeId && x.diskId == diskId
      if 2 ^ 63 - 1 - found.referNum < diff then rest
      else insertByRefer { found with referNum := found.referNum + diff } rest

/-- `ViewCalcResetBusyList`: clear the loads and rotate by one node's disks
    (the `do`-`while` on a zero `uint16_t` runs 65536 times). -/
def viewCalcResetBusyList (busy : List CalcElem) (diskNum : Nat) :
    List CalcElem :=
  (busy.map fun x => { x with referNum := 0 }).rotate
    (if diskNum = 0 then 65536 else diskNum)

/-! ## Normal and fault -/

/-- The position of the first disk with this id. -/
def diskPos (nodeList : NodeInfoList) (nodeId diskId : Nat) : Option Nat :=
  (nodeList.node nodeId).diskList.findIdx? (·.diskId == diskId)

/-- `ViewCalcCheckNodeIsNormal`. -/
def viewCalcCheckNodeIsNormal (nodeList : NodeInfoList)
    (stateList : NodeStateList) (nodeId diskId : Nat) : Bool :=
  if nodeId = nodeIdInvalid ∨ diskId = diskIdInvalid then false
  else if nodeIsIn stateList nodeId = false then false
  else
    match diskPos nodeList nodeId diskId with
    | none => false
    | some k =>
        ((nodeList.node nodeId).diskList.getD k ⟨0, .fault⟩).state == .normal &&
        (stateList.node nodeId).disk k == .stateIn

/-- `ViewCalcCheckNodeIsFault`. -/
def viewCalcCheckNodeIsFault (nodeList : NodeInfoList)
    (stateList : NodeStateList) (nodeId diskId : Nat) : Bool :=
  if nodeId = nodeIdInvalid ∨ diskId = diskIdInvalid then true
  else if (stateList.node nodeId).clusterState = .stateOut then true
  else
    match diskPos nodeList nodeId diskId with
    | none => false
    | some k => (stateList.node nodeId).disk k == .stateOut

/-- The index the source looks at for copy `copyIndex`: the settled slot if it
    is live, else its replacement. -/
def slotIndex (copyNum : Nat) (e : PtEntry) (copyIndex : Nat) : Nat :=
  if (e.copyList copyIndex).state.live then copyIndex else copyIndex + copyNum

/-- `ViewCalcFillBusyList`: load the busy list with the copies of one round. -/
def viewCalcFillBusyList (core : CalcCore) (copyIndex : Nat)
    (nodeList : NodeInfoList) (stateList : NodeStateList)
    (entries : List PtEntry) (busy : List CalcElem) : List CalcElem :=
  entries.foldl (fun busy e =>
    let c := e.copyList (slotIndex core.copyNum e copyIndex)
    if viewCalcCheckNodeIsNormal nodeList stateList c.nodeId c.diskId then
      viewCalcFillUpdateBusyList busy c.nodeId c.diskId 1
    else busy) busy

/-! ## Initial entries and eviction -/

/-- The entry `ViewCalcInitPtEntryList` writes. -/
def initPtEntry (core : CalcCore) (globalVersion ptId : Nat) : PtEntry where
  birthVersion := globalVersion
  ptId := ptId
  state := .init
  masterNodeId := nodeIdInvalid
  masterDiskId := diskIdInvalid
  referNum := 0
  copyNum := core.copyNum
  copyList := fun _ => ⟨nodeIdInvalid, diskIdInvalid, false, .init⟩

/-- `ViewCalcInitPtEntryList`. -/
def viewCalcInitPtEntryList (core : CalcCore) (poolId globalVersion : Nat) :
    PtEntryList where
  poolId := poolId
  maxCopyNum := core.copyNum
  minCopyNum := core.minCopyNum
  globalVersion := globalVersion + 1
  ptEntryList := (List.range core.ptNum).map
    (initPtEntry core (globalVersion + 1))

/-- One iteration of `ViewCalcInitPtEntryList1`: give up a copy whose node or
    disk has left the cluster. -/
def evictSlot (core : CalcCore) (nodeList : NodeInfoList)
    (stateList : NodeStateList) (globalVersion : Nat) (e : PtEntry)
    (copyIndex : Nat) : PtEntry :=
  let index := slotIndex core.copyNum e copyIndex
  if viewCalcCheckNodeIsFault nodeList stateList (e.copyList index).nodeId
      (e.copyList index).diskId then
    { e.setCopy index .givenUp with birthVersion := globalVersion }
  else e

/-- The loop of `ViewCalcInitPtEntryList1` over the copies of one entry. -/
def evictEntry (core : CalcCore) (nodeList : NodeInfoList)
    (stateList : NodeStateList) (globalVersion : Nat) (e : PtEntry) : PtEntry :=
  (List.range core.copyNum).foldl
    (evictSlot core nodeList stateList globalVersion) e

/-! ## Placing one copy -/

/-- A live copy of the entry sits on the node. -/
def liveOn (e : PtEntry) (nodeId : Nat) : Bool :=
  (List.range e.copyNum).any fun i =>
    (e.copyList i).state.live && nodeId == (e.copyList i).nodeId

/-- The write of `ViewCalcBuildPtEntry`: a slot never used starts running, any
    other one gets a recovering replacement. -/
def fillCopy (core : CalcCore) (copyIndex : Nat) (e : PtEntry)
    (x : CalcElem) : PtEntry :=
  if (e.copyList copyIndex).state = .init then
    e.setCopy copyIndex { e.copyList copyIndex with
      nodeId := x.nodeId
      diskId := x.diskId
      state := .running }
  else
    { e.setCopy (copyIndex + core.copyNum)
        { e.copyList (copyIndex + core.copyNum) with
          nodeId := x.nodeId
          diskId := x.diskId
          state := .recovery } with
      copyNum := core.copyNum * 2 }

/-- `ViewCalcBuildPtEntry`: put the copy on the least loaded disk whose node
    holds no live copy. -/
def viewCalcBuildPtEntry (core : CalcCore) (copyIndex : Nat) (e : PtEntry)
    (busy : List CalcElem) : Option (PtEntry × List CalcElem) :=
  match busy.find? fun x => !liveOn e x.nodeId with
  | none => none
  | some x =>
      some (fillCopy core copyIndex e x,
        viewCalcFillUpdateBusyList busy x.nodeId x.diskId 1)

/-- `ViewCalcUpdateCopyKeepAlive`. -/
def viewCalcUpdateCopyKeepAlive (core : CalcCore) (e : PtEntry) : PtEntry :=
  if core.copyNum ≠ core.minCopyNum + 1 then e
  else e.setRunningKeepAlive true

/-- `ViewCalcPtEntryHasNodeId`. -/
def viewCalcPtEntryHasNodeId (e : PtEntry) (nodeId : Nat) : Bool :=
  (List.range e.copyNum).any fun i => (e.copyList i).nodeId == nodeId

/-- `ViewCalcBuildPreCheck`: the index of the copy to move, or `none` when the
    entry is left alone (the source's `CM_OK`). -/
def viewCalcBuildPreCheck (core : CalcCore) (copyIndex : Nat) (e : PtEntry)
    (globalVersion : Nat) : Option Nat :=
  if e.birthVersion = globalVersion then none
  else if e.state ≠ .normal ∧ e.state ≠ .degradeLoss1 then none
  else
    let index := slotIndex core.copyNum e copyIndex
    let c := e.copyList index
    if e.masterNodeId = c.nodeId ∧ e.masterDiskId = c.diskId then none
    else if c.nodeId = nodeIdInvalid ∨ c.diskId = diskIdInvalid then none
    else some index

/-- The scan of `ViewCalcBuildPtEntry1` over the disks before `start`: the
    first one that is lighter by more than one and whose node is new to the
    entry. -/
def scanTarget (e : PtEntry) (startRefer : Int) :
    List CalcElem → Option CalcElem
  | [] => none
  | x :: rest =>
      if x.referNum + 1 ≥ startRefer then none
      else if viewCalcPtEntryHasNodeId e x.nodeId then
        scanTarget e startRefer rest
      else some x

/-- The position where the source's search for the copy's own disk ends: that
    disk, or the LAST element when the disk is not in the list. -/
def startPos (busy : List CalcElem) (nodeId diskId : Nat) : Nat :=
  min (busy.findIdx fun x => x.nodeId == nodeId && x.diskId == diskId)
    (busy.length - 1)

/-- The decision part of `ViewCalcBuildPtEntry1`: the copy that moves and the
    disk it moves to. -/
def balanceTarget (core : CalcCore) (copyIndex : Nat) (e : PtEntry)
    (globalVersion : Nat) (busy : List CalcElem) : Option (Nat × CalcElem) :=
  match busy.head?, busy.getLast? with
  | some first, some last =>
      if last.referNum ≤ first.referNum + 1 then none
      else
        (viewCalcBuildPreCheck core copyIndex e globalVersion).bind fun index =>
          let c := e.copyList index
          let pos := startPos busy c.nodeId c.diskId
          let start := busy.getD pos last
          if start.referNum ≤ first.referNum + 1 then none
          else (scanTarget e start.referNum (busy.take pos)).map (index, ·)
  | _, _ => none

/-- The copies a move writes: the settled slot is given up (its flag stays),
    the replacement recovers on the new disk. -/
def moveCopy (core : CalcCore) (copyIndex : Nat) (e : PtEntry)
    (globalVersion : Nat) (x : CalcElem) : PtEntry :=
  let e1 := e.setCopy copyIndex { e.copyList copyIndex with
    nodeId := nodeIdInvalid
    diskId := diskIdInvalid
    state := .out }
  let e2 := e1.setCopy (copyIndex + core.copyNum)
    { e1.copyList (copyIndex + core.copyNum) with
      nodeId := x.nodeId
      diskId := x.diskId
      state := .recovery }
  { e2 with copyNum := core.copyNum * 2, birthVersion := globalVersion }

/-- The move part of `ViewCalcBuildPtEntry1`. -/
def balanceMove (core : CalcCore) (copyIndex : Nat) (e : PtEntry)
    (globalVersion : Nat) (x : CalcElem) : PtEntry :=
  viewCalcUpdateCopyKeepAlive core (moveCopy core copyIndex e globalVersion x)

/-- `ViewCalcBuildPtEntry1`. -/
def viewCalcBuildPtEntry1 (core : CalcCore) (copyIndex : Nat) (e : PtEntry)
    (globalVersion : Nat) (busy : List CalcElem) :
    PtEntry × List CalcElem :=
  match balanceTarget core copyIndex e globalVersion busy with
  | none => (e, busy)
  | some (index, x) =>
      let c := e.copyList index
      (balanceMove core copyIndex e globalVersion x,
       viewCalcFillUpdateBusyList
        (viewCalcFillUpdateBusyList busy c.nodeId c.diskId (-1))
        x.nodeId x.diskId 1)

/-! ## Placing the whole list -/

/-- The body of the inner loop of `ViewCalcBuildPtEntryList`. -/
def buildVisit (core : CalcCore) (copyIndex : Nat) (e : PtEntry)
    (busy : List CalcElem) : Option (PtEntry × List CalcElem) :=
  if (e.copyList copyIndex).state.live then some (e, busy)
  else viewCalcBuildPtEntry core copyIndex e busy

/-- One round of `ViewCalcBuildPtEntryList`. -/
def buildRound (core : CalcCore) (diskNum : Nat)
    (st : List PtEntry × List CalcElem) (copyIndex : Nat) :
    Option (List PtEntry × List CalcElem) :=
  (traverseSt (buildVisit core copyIndex) st.1 st.2).map fun r =>
    (r.1, viewCalcResetBusyList r.2 diskNum)

/-- `ViewCalcBuildPtEntryList`. -/
def viewCalcBuildPtEntryList (core : CalcCore) (diskNum : Nat)
    (st : List PtEntry × List CalcElem) :
    Option (List PtEntry × List CalcElem) :=
  (List.range core.copyNum).foldlM (buildRound core diskNum) st

/-- The refill visit of `ViewCalcBuildPtEntryList1`: a slot with a live copy in
    either half is skipped. -/
def refillVisit (core : CalcCore) (copyIndex : Nat) (e : PtEntry)
    (busy : List CalcElem) : Option (PtEntry × List CalcElem) :=
  if (e.copyList copyIndex).state.live then some (e, busy)
  else if copyIndex + core.copyNum < e.copyNum ∧
      (e.copyList (copyIndex + core.copyNum)).state.live then some (e, busy)
  else viewCalcBuildPtEntry core copyIndex e busy

/-- The balance visit of `ViewCalcBuildPtEntryList1`. -/
def balanceVisit (core : CalcCore) (copyIndex globalVersion : Nat)
    (e : PtEntry) (busy : List CalcElem) : Option (PtEntry × List CalcElem) :=
  some (viewCalcBuildPtEntry1 core copyIndex e globalVersion busy)

/-- One round of `ViewCalcBuildPtEntryList1`. -/
def rebalanceRound (core : CalcCore) (nodeList : NodeInfoList)
    (stateList : NodeStateList) (globalVersion diskNum : Nat)
    (st : List PtEntry × List CalcElem) (copyIndex : Nat) :
    Option (List PtEntry × List CalcElem) :=
  let busy := viewCalcFillBusyList core copyIndex nodeList stateList st.1 st.2
  (traverseSt (refillVisit core copyIndex) st.1 busy).bind fun r =>
    (traverseSt (balanceVisit core copyIndex globalVersion) r.1 r.2).map
      fun r' => (r'.1, viewCalcResetBusyList r'.2 diskNum)

/-- `ViewCalcBuildPtEntryList1`. -/
def viewCalcBuildPtEntryList1 (core : CalcCore) (nodeList : NodeInfoList)
    (stateList : NodeStateList) (globalVersion diskNum : Nat)
    (st : List PtEntry × List CalcElem) :
    Option (List PtEntry × List CalcElem) :=
  (List.range core.copyNum).foldlM
    (rebalanceRound core nodeList stateList globalVersion diskNum) st

/-! ## Closing a calculation -/

/-- One entry of `ViewCalcUpdatePtEntryList`: the first running copy is the
    master, the partition is normal. -/
def initialUpdateEntry (e : PtEntry) : PtEntry :=
  match e.runningList.head? with
  | none => { e with state := .normal }
  | some i =>
      { e with
        masterNodeId := (e.copyList i).nodeId
        masterDiskId := (e.copyList i).diskId
        state := .normal }

/-- Running, or down while holding the last data. -/
def PtEntryCopy.holdsData (c : PtEntryCopy) : Bool :=
  c.state == .running || (c.state == .down && c.keepAlive)

/-- One iteration of `ViewCalcUpdatePtEntryList111`: with data lost, a
    recovering copy starts running, or a down copy is declared the last one. -/
def promoteSlot (st : PtEntry × Nat) (i : Nat) : PtEntry × Nat :=
  let c := st.1.copyList i
  if st.2 = 0 then st
  else if c.holdsData then st
  else if c.state = .recovery then
    (st.1.setCopy i { c with state := .running, keepAlive := true }, st.2 - 1)
  else if c.state = .down then
    (st.1.setCopy i { c with keepAlive := true }, st.2 - 1)
  else st

/-- `ViewCalcUpdatePtEntryList111`. -/
def viewCalcUpdatePtEntryList111 (e : PtEntry) (diffNum : Nat) : PtEntry :=
  ((List.range e.copyNum).foldl promoteSlot (e, diffNum)).1

/-- The count of `ViewCalcUpdatePtEntryList11`: slots with surviving data in
    either half. -/
def survivorNum (core : CalcCore) (e : PtEntry) : Nat :=
  (List.range core.copyNum).countP fun i =>
    (e.copyList i).holdsData || (e.copyList (i + core.copyNum)).holdsData

/-- One entry of `ViewCalcUpdatePtEntryList11`. -/
def promoteEntry (core : CalcCore) (e : PtEntry) : PtEntry :=
  if survivorNum core e < core.minCopyNum then
    viewCalcUpdatePtEntryList111 e (core.minCopyNum - survivorNum core e)
  else e

inductive CmEventType where
  | net | disk | ptFinish | addDisk
deriving DecidableEq, Repr

/-- `UpdatePtState` with the states `ViewCalcUpdatePtEntryList1` passes. -/
def bypassEntry (event : Option CmEventType) (e : PtEntry) : PtEntry :=
  if event = some .addDisk ∧ e.state = .degradeLoss1 then
    { e with state := .loss1Bypass }
  else e

/-- One entry of `ViewCalcUpdatePtEntryList1`. -/
def closeEntry (core : CalcCore) (event : Option CmEventType) (e : PtEntry) :
    PtEntry :=
  bypassEntry event
    (viewPtEntryUpdatePtState (promoteEntry core e) core.minCopyNum
      core.copyNum)

/-- `ViewCalculatorInitial`; `none` is `CM_ERR`.  Of the list passed in only
    the version counter is read. -/
def viewCalculatorInitial (core : CalcCore) (nodeList : NodeInfoList)
    (stateList : NodeStateList) (globalVersion : Nat) : Option PtEntryList :=
  if viewCalcNormNodeNum nodeList stateList < core.copyNum then none
  else
    let b := viewCalcBuildBusyList core nodeList stateList
    let l := viewCalcInitPtEntryList core nodeList.poolId globalVersion
    (viewCalcBuildPtEntryList core b.2 (l.ptEntryList, b.1)).map fun r =>
      { l with ptEntryList := r.1.map initialUpdateEntry }

/-- `ViewCalculatorRebalance`; `none` is `CM_ERR`. -/
def viewCalculatorRebalance (core : CalcCore) (nodeList : NodeInfoList)
    (stateList : NodeStateList) (event : Option CmEventType)
    (l : PtEntryList) : Option PtEntryList :=
  if viewCalcNormNodeNum nodeList stateList < core.copyNum then none
  else
    let b := viewCalcBuildBusyList core nodeList stateList
    let version := l.globalVersion + 1
    let evicted := l.ptEntryList.map
      (evictEntry core nodeList stateList version)
    (viewCalcBuildPtEntryList1 core nodeList stateList version b.2
      (evicted, b.1)).map fun r =>
      { l with
        globalVersion := version
        ptEntryList := r.1.map (closeEntry core event) }

/-! ## When to rebalance -/

/-- `ViewCalcCheckPtEntryList`: a copy sits on a node or disk that has left. -/
def viewCalcCheckPtEntryList (core : CalcCore) (nodeList : NodeInfoList)
    (stateList : NodeStateList) (entries : List PtEntry) : Bool :=
  entries.any fun e => (List.range core.copyNum).any fun copyIndex =>
    let c := e.copyList (slotIndex core.copyNum e copyIndex)
    viewCalcCheckNodeIsFault nodeList stateList c.nodeId c.diskId

/-- `ViewCalcCheckPtEntryList1`: a normal disk has no copy, while some
    partition is normal. -/
def viewCalcCheckPtEntryList1 (core : CalcCore) (nodeList : NodeInfoList)
    (stateList : NodeStateList) (entries : List PtEntry)
    (busy : List CalcElem) : Bool :=
  let loaded := entries.foldl (fun busy e =>
    (List.range core.copyNum).foldl (fun busy copyIndex =>
      viewCalcFillBusyList core copyIndex nodeList stateList [e] busy) busy)
    busy
  loaded.any fun x =>
    decide (x.referNum = 0 ∧ entries.countP (·.state == .normal) ≠ 0)

/-- `ViewCalculatorNeedRebalance`. -/
def viewCalculatorNeedRebalance (core : CalcCore) (nodeList : NodeInfoList)
    (stateList : NodeStateList) (l : PtEntryList) : Bool :=
  if l.ptEntryList.length = 0 then false
  else if viewCalcNormNodeNum nodeList stateList < core.copyNum then false
  else if viewCalcCheckPtEntryList core nodeList stateList l.ptEntryList then
    true
  else
    viewCalcCheckPtEntryList1 core nodeList stateList l.ptEntryList
      (viewCalcBuildBusyList core nodeList stateList).1

/-! ## The view as a state machine -/

/-- Every call that rewrites the view after it has been computed. -/
inductive Event where
  /-- A node is reported up or down. -/
  | nodeState (nodeId : Nat) (state : NodeState) (info : NodeInfo)
  /-- A node reports recovered partitions. -/
  | finish (nodeId : Nat) (ptList : List CmPtFinish) (nodeNum validNum : Nat)
  /-- The view is rebalanced over new node and disk states. -/
  | rebalance (nodeList : NodeInfoList) (stateList : NodeStateList)
      (event : Option CmEventType)
deriving DecidableEq, Repr

/-- The view after one call; `none` when a rebalance fails. -/
def step (core : CalcCore) (l : PtEntryList) : Event → Option PtEntryList
  | .nodeState nodeId state info =>
      some (viewPtEntryListUpdateNodeState nodeId state info l).1
  | .finish nodeId ptList nodeNum validNum =>
      some (viewPtEntryListUpdateNodeFinish nodeId ptList l nodeNum validNum).1
  | .rebalance nodeList stateList event =>
      viewCalculatorRebalance core nodeList stateList event l

/-- A view reached from a successful initial placement. -/
def Reachable (core : CalcCore) (l : PtEntryList) : Prop :=
  ∃ nodeList stateList globalVersion l₀ events,
    viewCalculatorInitial core nodeList stateList globalVersion = some l₀ ∧
    runFrom (step core) l₀ events = some l

end UbsIo.Pt
