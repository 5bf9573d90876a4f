import UbsIo.Crb.Select
import UbsIo.Mms.Rebalance

/-! # A node that recovers

    `CrbScheduler` of `mms_crb_scheduler.cpp`: the recovering node with
    `mIsRecovering` and `mRecoverNodes`, the nodes that send it their data,
    with their tables of recover tasks, and the server with its view of the
    partitions.  Start requests, data batches and finish reports stay in flight
    for as long as they like, the node works on a view that lags behind the
    server's, and the server may take the node down and up at any time while
    its process goes on.

    Of a batch only its task and its finish flag are kept: what `PutLocal`
    stores does not matter here.  The partition `p` is entry `p` of the view,
    under which number `mPtInfos` has it.  A call that waits for answers is cut
    into the steps between them; the nodes that send are not recovering
    themselves, and they may see the node faulty whenever they like. -/

namespace UbsIo.Crb.Recovery

open UbsIo.Lib UbsIo.Mms
open UbsIo.Cache (BResult)
open UbsIo.Pt (PtCopyState CmPtFinish NodeState NodeInfo NodeInfoList
  NodeStateList)

/-! ## The state -/

/-- A recover task of a node for the recovering one.  `started` is not in the
    program: it is the position of the server's view at that time. -/
structure Task where
  source : UInt16
  ptId : UInt16
  started : Nat
deriving DecidableEq, Repr

/-- A `CrbStartRequest` in flight. -/
structure CrbStartRequest where
  dstNode : UInt16
  ptId : UInt16
deriving DecidableEq, Repr

/-- A data batch; `finish` is `CRB_PT_RECOVER_FINISH_FLAG`. -/
structure Batch where
  task : Task
  finish : Bool
deriving DecidableEq, Repr

/-- A finish report.  `readAt` is not in the program: it is the position of the
    view that the version was read from. -/
structure Report where
  task : Task
  version : Nat
  readAt : Nat
deriving DecidableEq, Repr

/-- Where `HandleCrbReceiveData` is. -/
inductive Phase where
  /-- In `PutLocal`. -/
  | put
  /-- At the look into `mRecoverNodes` of `ReportPtRecoverDone`. -/
  | check
  /-- At `GetPtInfo`. -/
  | getPtInfo
  /-- In the loop over `ReportPtFinish`. -/
  | report (report : Report) (retryCount : Nat)
deriving DecidableEq, Repr

/-- A call of `HandleCrbReceiveData`. -/
structure Handler where
  batch : Batch
  phase : Phase
deriving DecidableEq, Repr

structure Sys where
  /-- The server's published views. -/
  history : Nat → PtEntryList
  /-- The position of the current view. -/
  now : Nat
  /-- The position of the view in the node's `mPtInfos`. -/
  seen : Nat
  mServiceable : Bool
  mIsRecovering : Bool
  /-- The calls of `StartCatchUp` before `SelectNodeForRecover`. -/
  selecting : Nat
  /-- Those in `SendCrbRequests`. -/
  sending : Nat
  /-- Those that have failed and are about to clear `mIsRecovering`. -/
  failing : Nat
  scheduler : CrbScheduler
  handlers : List Handler
  requests : List CrbStartRequest
  /-- What each node's `mRecoverTasks` has for the recovering node. -/
  mRecoverTasks : UInt16 → Finset UInt16
  /-- The running calls of `BackGroundRecoverTask`. -/
  tasks : List Task
  batches : List Batch
  reports : List Report

/-- The server's view. -/
def Sys.view (s : Sys) : PtEntryList := s.history s.now

/-- The node's view. -/
def Sys.localView (s : Sys) : PtEntryList := s.history s.seen

/-- A node that starts on a view, before anything is recovered. -/
def Sys.start (l : PtEntryList) : Sys where
  history := fun _ => l
  now := 0
  seen := 0
  mServiceable := false
  mIsRecovering := false
  selecting := 0
  sending := 0
  failing := 0
  scheduler := ⟨0, [], fun _ => ∅⟩
  handlers := []
  requests := []
  mRecoverTasks := fun _ => ∅
  tasks := []
  batches := []
  reports := []

/-! ## The server -/

/-- The server publishes a new view. -/
def Sys.publish (s : Sys) (l : PtEntryList) : Sys :=
  { s with
    history := Function.update s.history (s.now + 1) l
    now := s.now + 1 }

/-- The finish list of a report. -/
def Report.finish (r : Report) : List CmPtFinish :=
  [⟨r.version, r.task.ptId.toNat⟩]

/-! ## The recovering node -/

/-- `s_copystate`. -/
def copyStateOf : PtCopyState → CmCopyState
  | .init => .init
  | .running => .running
  | .down => .down
  | .out => .out
  | .recovery => .recovery

/-- The copies of an entry, as `Cm::NotifyPtListChange` passes them on. -/
def ptCopys (l : PtEntryList) (e : PtEntry) : List CmPtCopy :=
  (List.range l.maxCopyNum).map fun idx =>
    ⟨UInt8.ofNat (e.copyList idx).nodeId, copyStateOf (e.copyList idx).state⟩

/-- `UpdateLocalCopys`. -/
def updateLocalCopys (localNodeId : UInt16) (s : Sys) : Sys :=
  match s.localView.ptEntryList[localNodeId.toNat]? with
  | none => s
  | some e =>
      { s with
        scheduler :=
          { s.scheduler with mLocalPtCopys := ptCopys s.localView e } }

/-- All copies of the node run. -/
def serviceable (localNodeId : UInt16) (l : PtEntryList) : Bool :=
  l.ptEntryList.all fun e => (List.range l.maxCopyNum).all fun idx =>
    (e.copyList idx).nodeId != localNodeId.toNat ||
      (e.copyList idx).state == .running

/-- `NotifyServiceable`. -/
def notifyServiceable (localNodeId : UInt16) (s : Sys) : Sys :=
  let serviceable := serviceable localNodeId s.localView
  { s with
    mServiceable := serviceable
    mIsRecovering := s.mIsRecovering && !serviceable }

/-- The loop of `MigrateCrbToNewNode`, with the answers to its requests: a
    request is sent to each node it selects.  `false` is `MMS_INNER_ERR`;
    `none` when there are too few answers. -/
def migrateLoop (localNodeId ptId : UInt16) : Nat → List Bool →
    List CrbStartRequest → CrbScheduler →
    Option (Bool × List CrbStartRequest × CrbScheduler × List Bool)
  | 0, answers, sent, c => some (false, sent, c, answers)
  | retries + 1, answers, sent, c =>
      match selectMigrateNode localNodeId c with
      | none => none
      | some (.error _, c) => some (false, sent, c, answers)
      | some (.ok newRecoverNode, c) =>
          let sent := ⟨newRecoverNode, ptId⟩ :: sent
          match answers with
          | [] => none
          | true :: answers =>
              some (true, sent, c.assign newRecoverNode ptId, answers)
          | false :: answers =>
              migrateLoop localNodeId ptId retries answers sent c

/-- `MigrateCrbToNewNode`: it gives up at the answer after `maxRetryCount`
    failures. -/
def migrateCrbToNewNode (localNodeId ptId : UInt16) (answers : List Bool)
    (sent : List CrbStartRequest) (c : CrbScheduler) :
    Option (Bool × List CrbStartRequest × CrbScheduler × List Bool) :=
  migrateLoop localNodeId ptId (c.mLocalPtCopys.length + 1) answers sent c

/-- The inner loop of `CrbBrokenHandle`. -/
def migrateAll (localNodeId : UInt16) : List UInt16 → List Bool →
    List CrbStartRequest → CrbScheduler →
    Option (Bool × List CrbStartRequest × CrbScheduler × List Bool)
  | [], answers, sent, c => some (true, sent, c, answers)
  | ptId :: ptIds, answers, sent, c =>
      match migrateCrbToNewNode localNodeId ptId answers sent c with
      | some (true, sent, c, answers) =>
          migrateAll localNodeId ptIds answers sent c
      | r => r

/-- The loop of `CrbBrokenHandle` over the nodes that are faulty; `ptIds` is
    the order in which the partitions of a node are visited. -/
def brokenLoop (localNodeId : UInt16) (ptIds : UInt16 → List UInt16) :
    List UInt16 → List Bool → List CrbStartRequest → CrbScheduler →
    Option (Bool × List CrbStartRequest × CrbScheduler)
  | [], _, sent, c => some (true, sent, c)
  | nodeId :: nodeIds, answers, sent, c =>
      if (ptIds nodeId).Nodup ∧
          (ptIds nodeId).toFinset = c.mRecoverNodes nodeId then
        match migrateAll localNodeId (ptIds nodeId) answers sent
          { c with
            mRecoverNodes := Function.update c.mRecoverNodes nodeId ∅ } with
        | none => none
        | some (false, sent, c, _) => some (false, sent, c)
        | some (true, sent, c, answers) =>
            brokenLoop localNodeId ptIds nodeIds answers sent c
      else none

/-- `CrbBrokenHandle` of the recovering node. -/
def crbBrokenHandle (localNodeId : UInt16) (ptIds : UInt16 → List UInt16)
    (faulty : List UInt16) (answers : List Bool) (s : Sys) :
    Option Sys :=
  if s.mIsRecovering then
    (brokenLoop localNodeId ptIds faulty answers [] s.scheduler).map fun r =>
      { s with
        scheduler := r.2.2
        requests := r.2.1 ++ s.requests
        failing := if r.1 then s.failing else s.failing + 1 }
  else some s

/-- `StartCatchUp` up to `SelectNodeForRecover`. -/
def startCatchUp (s : Sys) : Sys :=
  if s.mServiceable || s.mIsRecovering then s
  else { s with mIsRecovering := true, selecting := s.selecting + 1 }

/-- `SelectNodeForRecover`, called by `StartCatchUp`. -/
def select (localNodeId ptNum : UInt16) (s : Sys) : Option Sys :=
  if s.selecting = 0 then none
  else
    (selectNodeForRecover localNodeId ptNum s.scheduler).map fun r =>
      let s := { s with scheduler := r.2, selecting := s.selecting - 1 }
      if r.1 = .ok then { s with sending := s.sending + 1 }
      else { s with failing := s.failing + 1 }

/-- `HandlePtRecoverDone`. -/
def handlePtRecoverDone (nodeId ptId : UInt16) (c : CrbScheduler) :
    CrbScheduler :=
  { c with
    mRecoverNodes := Function.update c.mRecoverNodes nodeId
      ((c.mRecoverNodes nodeId).erase ptId) }

/-- The node gets a batch: the beginning of `HandleCrbReceiveData`. -/
def receive (b : Batch) (s : Sys) : Sys :=
  if s.mIsRecovering then { s with handlers := ⟨b, .put⟩ :: s.handlers }
  else s

/-- One of the handlers goes on; `ok` is the answer of `PutLocal` or of
    `ReportPtFinish`.  `none` is the end of the handler. -/
def advance (ok : Bool) (h : Handler) (s : Sys) : Option Phase :=
  match h.phase with
  | .put => if ok && h.batch.finish then some .check else none
  | .check =>
      if h.batch.task.ptId ∈
          s.scheduler.mRecoverNodes h.batch.task.source then
        some .getPtInfo
      else none
  | .getPtInfo =>
      (s.localView.ptEntryList[h.batch.task.ptId.toNat]?).map fun e =>
        .report ⟨h.batch.task, e.birthVersion, s.seen⟩ 0
  | .report r retryCount =>
      if ok || decide (retryCount + 1 > 5) then none
      else some (.report r (retryCount + 1))

/-- What the end of `ReportPtRecoverDone` does to the node. -/
def finishHandler (ok : Bool) (h : Handler) (s : Sys) : Sys :=
  match h.phase with
  | .report r _ =>
      if ok then
        { s with
          scheduler := handlePtRecoverDone r.task.source r.task.ptId
            s.scheduler }
      else s
  | _ => s

/-- A step of the handler at the position. -/
def handlerStep (pos : Nat) (ok : Bool) (s : Sys) : Option Sys :=
  (s.handlers[pos]?).map fun h =>
    match advance ok h s with
    | some phase => { s with handlers := s.handlers.set pos ⟨h.batch, phase⟩ }
    | none =>
        finishHandler ok h { s with handlers := s.handlers.eraseIdx pos }

/-! ## The nodes that send -/

/-- `HandleRecoverData`: a task that is there already is not started again. -/
def handleRecoverData (executed : Bool) (r : CrbStartRequest) (s : Sys) :
    Sys :=
  if r.ptId ∈ s.mRecoverTasks r.dstNode ∨ ¬ executed then s
  else
    { s with
      mRecoverTasks := Function.update s.mRecoverTasks r.dstNode
        (insert r.ptId (s.mRecoverTasks r.dstNode))
      tasks := ⟨r.dstNode, r.ptId, s.now⟩ :: s.tasks }

/-- `TaskDone`, and the end of the task at the position. -/
def taskDone (pos : Nat) (t : Task) (s : Sys) : Sys :=
  { s with
    mRecoverTasks := Function.update s.mRecoverTasks t.source
      ((s.mRecoverTasks t.source).erase t.ptId)
    tasks := s.tasks.eraseIdx pos }

/-! ## The system -/

inductive Action where
  /-- A node report or a rebalance at the server. -/
  | server (ev : Event)
  /-- The server handles one of the reports in flight. -/
  | deliver (pos : Nat) (ptChange : Bool)
  /-- The node's `mPtInfos` becomes the view at a position. -/
  | observe (pos : Nat)
  | updateLocalCopys
  | crbBrokenHandle (ptIds : UInt16 → List UInt16) (faulty : List UInt16)
      (answers : List Bool)
  | notifyServiceable
  | startCatchUp
  | selectNodeForRecover
  /-- `SendCrbRequests` sends one of its requests. -/
  | request (nodeId ptId : UInt16)
  /-- `SendCrbRequests` returns. -/
  | requestsSent (ok : Bool)
  /-- A failed call clears `mIsRecovering`. -/
  | clearRecovering
  /-- A start request arrives. -/
  | startRecover (pos : Nat) (executed : Bool)
  /-- A sending node finds the recovering one faulty: its `CrbBrokenHandle`. -/
  | sourceBroken (source : UInt16)
  /-- A task sends a batch, or sends it again. -/
  | send (pos : Nat) (finish : Bool)
  /-- A task finds itself removed from the table. -/
  | terminated (pos : Nat)
  | taskDone (pos : Nat)
  /-- A batch arrives. -/
  | receive (pos : Nat)
  /-- A handler goes on. -/
  | handler (pos : Nat) (ok : Bool)
  /-- A handler calls `ReportPtFinish`. -/
  | report (pos : Nat)

def sysStep (core : CalcCore) (localNodeId : UInt16) (s : Sys) :
    Action → Option Sys
  | .server (.finish _ _ _) => none
  | .server ev =>
      if Over core.copyNum ev then (step core s.view ev).map s.publish
      else none
  | .deliver pos ptChange =>
      (s.reports[pos]?).bind fun r =>
        (step core s.view (.finish localNodeId.toNat r.finish ptChange)).map
          fun l => { s.publish l with reports := s.reports.eraseIdx pos }
  | .observe pos =>
      if s.seen ≤ pos ∧ pos ≤ s.now then some { s with seen := pos }
      else none
  | .updateLocalCopys => some (updateLocalCopys localNodeId s)
  | .crbBrokenHandle ptIds faulty answers =>
      crbBrokenHandle localNodeId ptIds faulty answers s
  | .notifyServiceable => some (notifyServiceable localNodeId s)
  | .startCatchUp => some (startCatchUp s)
  | .selectNodeForRecover =>
      select localNodeId (UInt16.ofNat core.ptNum) s
  | .request nodeId ptId =>
      if 0 < s.sending ∧ ptId ∈ s.scheduler.mRecoverNodes nodeId then
        some { s with requests := ⟨nodeId, ptId⟩ :: s.requests }
      else none
  | .requestsSent ok =>
      if s.sending = 0 then none
      else
        some { s with
          sending := s.sending - 1
          failing := if ok then s.failing else s.failing + 1 }
  | .clearRecovering =>
      if s.failing = 0 then none
      else some { s with mIsRecovering := false, failing := s.failing - 1 }
  | .startRecover pos executed =>
      (s.requests[pos]?).map fun r =>
        handleRecoverData executed r
          { s with requests := s.requests.eraseIdx pos }
  | .sourceBroken source =>
      some { s with
        mRecoverTasks := Function.update s.mRecoverTasks source ∅ }
  | .send pos finish =>
      (s.tasks[pos]?).map fun t =>
        { s with batches := ⟨t, finish⟩ :: s.batches }
  | .terminated pos =>
      (s.tasks[pos]?).bind fun t =>
        if t.ptId ∈ s.mRecoverTasks t.source then none
        else some { s with tasks := s.tasks.eraseIdx pos }
  | .taskDone pos => (s.tasks[pos]?).map fun t => taskDone pos t s
  | .receive pos =>
      (s.batches[pos]?).map fun b =>
        receive b { s with batches := s.batches.eraseIdx pos }
  | .handler pos ok => handlerStep pos ok s
  | .report pos =>
      (s.handlers[pos]?).bind fun h =>
        match h.phase with
        | .report r _ => some { s with reports := r :: s.reports }
        | _ => none

end UbsIo.Crb.Recovery
