import UbsIo.Mms.View
import UbsIo.Lib.Slots

/-! # The memstore's view calculator

    `cm_pt_calc_fixed.c` of the memstore.  A candidate is a node here: the busy
    list has one element for each normal node, with disk id 0, and every copy
    is placed on disk 0 of its node.  The checks of nodes and disks are the
    ones of `UbsIo.Pt`.

    A copy list has `MAX_COPY_NUM` places.  A load or store behind them makes
    the calculation `none`; it happens for more than four copies, as soon as a
    slot needs its second half. -/

namespace UbsIo.Mms

open UbsIo.Lib
open UbsIo.Pt (PtCopyState NodeState NodeInfo nodeIdInvalid diskIdInvalid
  NodeInfoList NodeStateList CalcElem nodeIsIn normalDisks
  viewCalcNormNodeNum viewCalcCheckNodeIsNormal viewCalcCheckNodeIsFault
  insertByRefer CmPtFinish)

/-- `MAX_DISK_NUM`. -/
def maxDiskNum : Nat := 16

/-- `CalcCore`, less its work lists. -/
structure CalcCore where
  nodeNum : Nat
  ptNum : Nat
  copyNum : Nat
  minCopyNum : Nat
deriving DecidableEq, Repr

/-- The number of `CalcElem` cells, in 16 bits. -/
def CalcCore.elemNum (core : CalcCore) : Nat :=
  core.nodeNum * maxDiskNum % 2 ^ 16

/-! ## The busy list -/

/-- The loop of `ViewCalcBuildBusyList`, which ends when no cell is left. -/
def buildBusyFrom (core : CalcCore) (nodeList : NodeInfoList)
    (stateList : NodeStateList) : List Nat → List CalcElem → List CalcElem
  | [], busy => busy
  | nodeId :: rest, busy =>
      if nodeIsIn stateList nodeId &&
          !(normalDisks nodeList stateList nodeId).isEmpty then
        if core.elemNum ≤ busy.length then busy
        else buildBusyFrom core nodeList stateList rest
          (busy ++ [⟨nodeId, 0, 0⟩])
      else buildBusyFrom core nodeList stateList rest busy

/-- `ViewCalcBuildBusyList`. -/
def viewCalcBuildBusyList (core : CalcCore) (nodeList : NodeInfoList)
    (stateList : NodeStateList) : List CalcElem :=
  buildBusyFrom core nodeList stateList
    (List.range stateList.nodeList.length) []

/-- `ViewCalcFillUpdateBusyList`. -/
def viewCalcFillUpdateBusyList (busy : List CalcElem) (nodeId diskId : Nat)
    (diff : Int) : List CalcElem :=
  match busy.find? fun x => x.nodeId == nodeId && x.diskId == diskId with
  | none => busy
  | some found =>
      insertByRefer { found with referNum := found.referNum + diff }
        (busy.eraseP fun x => x.nodeId == nodeId && x.diskId == diskId)

/-- `ViewCalcResetBusyList`: clear the loads, the first element goes last. -/
def viewCalcResetBusyList (busy : List CalcElem) : List CalcElem :=
  (busy.map fun x => { x with referNum := 0 }).rotate 1

/-! ## Slots -/

/-- The index of the second half of a slot, if it lies in the copy list. -/
def secondIndex (core : CalcCore) (copyIndex : Nat) : Option Nat :=
  if copyIndex + core.copyNum < maxCopyNum then
    some (copyIndex + core.copyNum)
  else none

/-- The index the source looks at for a slot: the first half if it is live,
    else the second. -/
def slotIndex (core : CalcCore) (e : PtEntry) (copyIndex : Nat) :
    Option Nat :=
  if (e.copyList copyIndex).state.live then some copyIndex
  else secondIndex core copyIndex

/-- Count the copy of one slot of an entry in the busy list, if it sits on a
    normal node. -/
def loadCopy (core : CalcCore) (nodeList : NodeInfoList)
    (stateList : NodeStateList) (copyIndex : Nat) (busy : List CalcElem)
    (e : PtEntry) : Option (List CalcElem) := do
  let index ← slotIndex core e copyIndex
  let c := e.copyList index
  if viewCalcCheckNodeIsNormal nodeList stateList c.nodeId c.diskId then
    some (viewCalcFillUpdateBusyList busy c.nodeId c.diskId 1)
  else some busy

/-- `ViewCalcFillBusyList`: load the busy list with the copies of one round. -/
def viewCalcFillBusyList (core : CalcCore) (copyIndex : Nat)
    (nodeList : NodeInfoList) (stateList : NodeStateList)
    (entries : List PtEntry) (busy : List CalcElem) :
    Option (List CalcElem) :=
  entries.foldlM (loadCopy core nodeList stateList copyIndex) busy

/-! ## Initial entries and eviction -/

/-- The entry that `ViewCalcInitPtEntryList` writes. -/
def initPtEntry (core : CalcCore) (globalVersion ptId : Nat) : PtEntry where
  birthVersion := globalVersion
  ptId := ptId
  state := .init
  masterNodeId := nodeIdInvalid
  masterDiskId := diskIdInvalid
  copyNum := core.copyNum
  copyList := fun _ => ⟨nodeIdInvalid, diskIdInvalid, .init⟩

/-- `ViewCalcInitPtEntryList`. -/
def viewCalcInitPtEntryList (core : CalcCore) (poolId globalVersion : Nat) :
    PtEntryList where
  poolId := poolId
  maxCopyNum := core.copyNum
  minCopyNum := core.minCopyNum
  globalVersion := globalVersion + 1
  ptEntryList := (List.range core.ptNum).map
    (initPtEntry core (globalVersion + 1))

/-- One iteration of `ViewCalcInitPtEntryList1`. -/
def evictSlot (core : CalcCore) (nodeList : NodeInfoList)
    (stateList : NodeStateList) (globalVersion : Nat) (e : PtEntry)
    (copyIndex : Nat) : Option PtEntry := do
  let index ← slotIndex core e copyIndex
  let c := e.copyList index
  if viewCalcCheckNodeIsFault nodeList stateList c.nodeId c.diskId then
    some { e.setCopy index .givenUp with birthVersion := globalVersion }
  else some e

/-- The loop of `ViewCalcInitPtEntryList1` over the copies of one entry. -/
def evictEntry (core : CalcCore) (nodeList : NodeInfoList)
    (stateList : NodeStateList) (globalVersion : Nat) (e : PtEntry) :
    Option PtEntry :=
  (List.range core.copyNum).foldlM
    (evictSlot core nodeList stateList globalVersion) e

/-! ## Placing one copy -/

/-- What a placing step comes back with: `CM_ERR` is `false`. -/
abbrev Placement := Bool × PtEntry × List CalcElem

/-- A live copy of the entry sits on the node. -/
def liveOn (e : PtEntry) (nodeId : Nat) : Bool :=
  (List.range e.copyNum).any fun i =>
    (e.copyList i).state.live && nodeId == (e.copyList i).nodeId

/-- The write of `ViewCalcBuildPtEntry`. -/
def fillCopy (core : CalcCore) (copyIndex : Nat) (e : PtEntry)
    (x : CalcElem) : Option PtEntry :=
  if (e.copyList copyIndex).state = .init then
    some (e.setCopy copyIndex ⟨x.nodeId, x.diskId, .running⟩)
  else do
    let index ← secondIndex core copyIndex
    some { e.setCopy index ⟨x.nodeId, x.diskId, .recovery⟩ with
      copyNum := core.copyNum * 2 }

/-- `ViewCalcBuildPtEntry`. -/
def viewCalcBuildPtEntry (core : CalcCore) (copyIndex : Nat) (e : PtEntry)
    (busy : List CalcElem) : Option Placement :=
  match busy.find? fun x => !liveOn e x.nodeId with
  | none => some (false, e, busy)
  | some x => do
      let e ← fillCopy core copyIndex e x
      some (true, e, viewCalcFillUpdateBusyList busy x.nodeId x.diskId 1)

/-- `ViewCalcPtEntryHasNodeId`. -/
def viewCalcPtEntryHasNodeId (e : PtEntry) (nodeId : Nat) : Bool :=
  (List.range e.copyNum).any fun i => (e.copyList i).nodeId == nodeId

/-- `ViewCalcBuildPreCheck`: the index of the copy to move, or `none` within
    when the entry is left alone. -/
def viewCalcBuildPreCheck (core : CalcCore) (copyIndex : Nat) (e : PtEntry)
    (globalVersion : Nat) : Option (Option Nat) :=
  if e.birthVersion = globalVersion then some none
  else if e.state ≠ .normal ∧ e.state ≠ .degradeLoss1 then some none
  else do
    let index ← slotIndex core e copyIndex
    let c := e.copyList index
    if e.masterNodeId = c.nodeId ∧ e.masterDiskId = c.diskId then some none
    else if c.nodeId = nodeIdInvalid ∨ c.diskId = diskIdInvalid then some none
    else some (some index)

/-- The scan of `ViewCalcBuildPtEntry1` over the elements before `start`. -/
def scanTarget (e : PtEntry) (startRefer : Int) :
    List CalcElem → Option CalcElem
  | [] => none
  | x :: rest =>
      if x.referNum + 1 ≥ startRefer then none
      else if viewCalcPtEntryHasNodeId e x.nodeId then
        scanTarget e startRefer rest
      else some x

/-- The position where the search for the copy's own element ends: at that
    element, or at the LAST one when there is none. -/
def startPos (busy : List CalcElem) (nodeId diskId : Nat) : Nat :=
  min (busy.findIdx fun x => x.nodeId == nodeId && x.diskId == diskId)
    (busy.length - 1)

/-- The writes of `ViewCalcBuildPtEntry1`: the first half of the slot is given
    up, the second recovers on the new node. -/
def moveCopy (core : CalcCore) (copyIndex : Nat) (e : PtEntry)
    (globalVersion : Nat) (x : CalcElem) : Option PtEntry := do
  let index ← secondIndex core copyIndex
  let e := e.setCopy copyIndex .givenUp
  some { e.setCopy index ⟨x.nodeId, x.diskId, .recovery⟩ with
    copyNum := core.copyNum * 2
    birthVersion := globalVersion }

/-- `ViewCalcBuildPtEntry1`. -/
def viewCalcBuildPtEntry1 (core : CalcCore) (copyIndex : Nat) (e : PtEntry)
    (globalVersion : Nat) (busy : List CalcElem) :
    Option (PtEntry × List CalcElem) :=
  match busy.head?, busy.getLast? with
  | some first, some last =>
      if last.referNum ≤ first.referNum + 1 then some (e, busy)
      else do
        match ← viewCalcBuildPreCheck core copyIndex e globalVersion with
        | none => some (e, busy)
        | some index =>
            let c := e.copyList index
            let pos := startPos busy c.nodeId c.diskId
            let start := busy.getD pos last
            if start.referNum ≤ first.referNum + 1 then some (e, busy)
            else
              match scanTarget e start.referNum (busy.take pos) with
              | none => some (e, busy)
              | some x =>
                  let e ← moveCopy core copyIndex e globalVersion x
                  some (e, viewCalcFillUpdateBusyList
                    (viewCalcFillUpdateBusyList busy c.nodeId c.diskId (-1))
                    x.nodeId x.diskId 1)
  | _, _ => some (e, busy)

/-! ## Placing the whole list -/

/-- A loop over the entries that threads the busy list and ends with the first
    entry that cannot be placed. -/
def placeAll (visit : PtEntry → List CalcElem → Option Placement) :
    List PtEntry → List CalcElem →
      Option (Bool × List PtEntry × List CalcElem)
  | [], busy => some (true, [], busy)
  | e :: rest, busy => do
      match ← visit e busy with
      | (false, e, busy) => some (false, e :: rest, busy)
      | (true, e, busy) =>
          let (ok, rest, busy) ← placeAll visit rest busy
          some (ok, e :: rest, busy)

/-- A loop over the copies, ending with the first round that fails. -/
def placeRounds (round : Nat → List PtEntry → List CalcElem →
      Option (Bool × List PtEntry × List CalcElem)) :
    List Nat → List PtEntry → List CalcElem →
      Option (Bool × List PtEntry)
  | [], entries, _ => some (true, entries)
  | copyIndex :: rest, entries, busy => do
      match ← round copyIndex entries busy with
      | (false, entries, _) => some (false, entries)
      | (true, entries, busy) =>
          placeRounds round rest entries (viewCalcResetBusyList busy)

/-- The visit of `ViewCalcBuildPtEntryList`. -/
def buildVisit (core : CalcCore) (copyIndex : Nat) (e : PtEntry)
    (busy : List CalcElem) : Option Placement :=
  if (e.copyList copyIndex).state.live then some (true, e, busy)
  else viewCalcBuildPtEntry core copyIndex e busy

/-- `ViewCalcBuildPtEntryList`. -/
def viewCalcBuildPtEntryList (core : CalcCore) (entries : List PtEntry)
    (busy : List CalcElem) : Option (Bool × List PtEntry) :=
  placeRounds (fun copyIndex => placeAll (buildVisit core copyIndex))
    (List.range core.copyNum) entries busy

/-- The refill visit of `ViewCalcBuildPtEntryList1`. -/
def refillVisit (core : CalcCore) (copyIndex : Nat) (e : PtEntry)
    (busy : List CalcElem) : Option Placement :=
  if (e.copyList copyIndex).state.live then some (true, e, busy)
  else if copyIndex + core.copyNum < e.copyNum then do
    let index ← secondIndex core copyIndex
    if (e.copyList index).state.live then some (true, e, busy)
    else viewCalcBuildPtEntry core copyIndex e busy
  else viewCalcBuildPtEntry core copyIndex e busy

/-- The balance visit of `ViewCalcBuildPtEntryList1`, which never fails. -/
def balanceVisit (core : CalcCore) (globalVersion copyIndex : Nat)
    (e : PtEntry) (busy : List CalcElem) : Option Placement := do
  let (e, busy) ← viewCalcBuildPtEntry1 core copyIndex e globalVersion busy
  some (true, e, busy)

/-- One round of `ViewCalcBuildPtEntryList1`. -/
def rebalanceRound (core : CalcCore) (nodeList : NodeInfoList)
    (stateList : NodeStateList) (globalVersion copyIndex : Nat)
    (entries : List PtEntry) (busy : List CalcElem) :
    Option (Bool × List PtEntry × List CalcElem) := do
  let busy ← viewCalcFillBusyList core copyIndex nodeList stateList entries
    busy
  match ← placeAll (refillVisit core copyIndex) entries busy with
  | (false, entries, busy) => some (false, entries, busy)
  | (true, entries, busy) =>
      placeAll (balanceVisit core globalVersion copyIndex) entries busy

/-- `ViewCalcBuildPtEntryList1`. -/
def viewCalcBuildPtEntryList1 (core : CalcCore) (nodeList : NodeInfoList)
    (stateList : NodeStateList) (globalVersion : Nat)
    (entries : List PtEntry) (busy : List CalcElem) :
    Option (Bool × List PtEntry) :=
  placeRounds (rebalanceRound core nodeList stateList globalVersion)
    (List.range core.copyNum) entries busy

/-! ## The calculations -/

/-- One entry of `ViewCalcUpdatePtEntryList`. -/
def initialUpdateEntry (e : PtEntry) : PtEntry :=
  match (e.runningBelow e.copyNum).head? with
  | none => { e with state := .normal }
  | some i => { e.setMaster i with state := .normal }

/-- One entry of `ViewCalcUpdatePtEntryList1`. -/
def closeEntry (core : CalcCore) (e : PtEntry) : PtEntry :=
  viewPtEntryUpdatePtState e core.minCopyNum core.copyNum

/-- `ViewCalculatorInitial`: `CM_ERR` is `false`.  Of the list passed in only
    the version is read. -/
def viewCalculatorInitial (core : CalcCore) (nodeList : NodeInfoList)
    (stateList : NodeStateList) (l : PtEntryList) :
    Option (Bool × PtEntryList) :=
  if viewCalcNormNodeNum nodeList stateList < core.copyNum then
    some (false, l)
  else do
    let l := viewCalcInitPtEntryList core nodeList.poolId l.globalVersion
    match ← viewCalcBuildPtEntryList core l.ptEntryList
        (viewCalcBuildBusyList core nodeList stateList) with
    | (false, entries) => some (false, { l with ptEntryList := entries })
    | (true, entries) =>
        some (true, { l with ptEntryList := entries.map initialUpdateEntry })

/-- `ViewCalculatorRebalance`: `CM_ERR` is `false`. -/
def viewCalculatorRebalance (core : CalcCore) (nodeList : NodeInfoList)
    (stateList : NodeStateList) (l : PtEntryList) :
    Option (Bool × PtEntryList) :=
  if viewCalcNormNodeNum nodeList stateList < core.copyNum then
    some (false, l)
  else do
    let version := l.globalVersion + 1
    let evicted ← l.ptEntryList.mapM
      (evictEntry core nodeList stateList version)
    match ← viewCalcBuildPtEntryList1 core nodeList stateList version evicted
        (viewCalcBuildBusyList core nodeList stateList) with
    | (false, entries) =>
        some (false,
          { l with globalVersion := version, ptEntryList := entries })
    | (true, entries) =>
        some (true,
          { l with
            globalVersion := version
            ptEntryList := entries.map (closeEntry core) })

/-! ## When to rebalance -/

/-- `ViewCalcCheckPtEntryList`: a copy sits on a node or disk that has left. -/
def viewCalcCheckPtEntryList (core : CalcCore) (nodeList : NodeInfoList)
    (stateList : NodeStateList) (entries : List PtEntry) : Option Bool :=
  entries.anyM fun e =>
    (List.range core.copyNum).anyM fun copyIndex => do
      let index ← slotIndex core e copyIndex
      let c := e.copyList index
      some (viewCalcCheckNodeIsFault nodeList stateList c.nodeId c.diskId)

/-- `ViewCalcCheckPtEntryList1`: a normal node has no copy, while some
    partition is normal. -/
def viewCalcCheckPtEntryList1 (core : CalcCore) (nodeList : NodeInfoList)
    (stateList : NodeStateList) (entries : List PtEntry)
    (busy : List CalcElem) : Option Bool := do
  let busy ← entries.foldlM (fun busy e =>
    (List.range core.copyNum).foldlM (fun busy copyIndex =>
      loadCopy core nodeList stateList copyIndex busy e) busy) busy
  let normPtNum := entries.countP fun e => e.state == .normal
  some (busy.any fun x => decide (x.referNum = 0 ∧ normPtNum ≠ 0))

/-- `ViewCalculatorNeedRebalance`. -/
def viewCalculatorNeedRebalance (core : CalcCore) (nodeList : NodeInfoList)
    (stateList : NodeStateList) (l : PtEntryList) : Option Bool :=
  if l.ptEntryList.length = 0 then some false
  else if viewCalcNormNodeNum nodeList stateList < 1 then some false
  else do
    let isFault ← viewCalcCheckPtEntryList core nodeList stateList
      l.ptEntryList
    let busy := viewCalcBuildBusyList core nodeList stateList
    if isFault then some true
    else
      viewCalcCheckPtEntryList1 core nodeList stateList l.ptEntryList busy

/-! ## The view as a state machine -/

/-- Every call that rewrites the view once it has been computed; the flags are
    the callers'. -/
inductive Event where
  | nodeState (nodeId : Nat) (state : NodeState) (info : NodeInfo)
      (pgChange : Bool)
  | finish (nodeId : Nat) (ptList : List CmPtFinish) (ptChange : Bool)
  | rebalance (nodeList : NodeInfoList) (stateList : NodeStateList)

/-- The view after one call; `none` when a rebalance does not succeed. -/
def step (core : CalcCore) (l : PtEntryList) : Event → Option PtEntryList
  | .nodeState nodeId state info pgChange =>
      some (viewPtEntryListUpdateNodeState nodeId state info l pgChange).1
  | .finish nodeId ptList ptChange =>
      some (viewPtEntryListUpdateNodeFinish nodeId ptList l ptChange).1
  | .rebalance nodeList stateList =>
      match viewCalculatorRebalance core nodeList stateList l with
      | some (true, l) => some l
      | _ => none

end UbsIo.Mms
