import UbsIo.Lib.Run

/-! # Eviction tasks of a flow

    A `WCache` has two tiers, memory and disk.  Each has a queue of slices that
    are to be evicted and a flag `mEvictRef[type]` for the task that does it:

    * `StartEvictTask` sets the flag and gives a task to the thread pool;
    * the task (`EvictAllMemSliceToDisk`, `EvictAllDiskSliceToUnderFs`) takes
      slices off the queue.  At its end it clears the flag, or it leaves the
      flag set and the flow in the list of `mRetryManager[type]`;
    * `RetryEvictThread` moves that list out, first the one for memory, then
      the one for disk, and calls `RetryEvictTask` for each entry.  This gives
      a new task to the thread pool or clears the flag.

    All of them run at the same time, so every access to the flag, to a queue
    or to `mRetryManager` is a step of its own.  What other components answer
    (`mLocRole`, `mGlobEvictOffset`, the thread pool, the conditions on the
    levels, the eviction of a slice) comes with the event. -/

namespace UbsIo.Evict

open UbsIo.Lib

/-- `WCacheTierType`. -/
inductive WCacheTierType
  | memory
  | disk
  deriving DecidableEq, Repr

def WCacheTierType.other : WCacheTierType → WCacheTierType
  | .memory => .disk
  | .disk => .memory

/-- The results that the tasks tell apart. -/
inductive BResult
  | ok
  | notExists
  | error (code : Int)
  deriving DecidableEq, Repr

structure Slice where
  offsetInFlow : Nat
  length : Nat
  deriving DecidableEq, Repr

/-- A `WCacheSliceRefPtr` with what `GetSlice` returns. -/
abbrev SliceRef := Option Slice

/-- `NO_MAX_VALUE64`. -/
def noMaxValue64 : Nat := 2 ^ 64 - 1

/-! ## The threads -/

/-- Where a call of `StartEvictTask` is. -/
inductive CallerPhase
  /-- before `mGetLocDiskStatus` -/
  | status
  /-- the disk is not normal, before the flag is cleared -/
  | breakTask
  /-- before `compare_exchange_weak` -/
  | exchange
  /-- the flag is set, before `Execute` -/
  | execute
  /-- `Execute` has failed, before the flag is cleared -/
  | undo
  deriving DecidableEq, Repr

/-- Where a task is. -/
inductive TaskPhase
  /-- before `mLocRole` -/
  | locRole
  /-- before the condition of a disk task -/
  | firstCond
  /-- before `if (!isSatisfied && !mIsForced)` -/
  | ifSatisfied
  /-- before `if (!isMaster && !mIsForced)` -/
  | ifStandby
  /-- before `mGlobEvictOffset` -/
  | globOffset
  /-- before the condition on the levels is evaluated for the loop -/
  | cond
  /-- before `while (isSatisfied || mIsForced)` -/
  | loop
  /-- before `GetEvictSlice` -/
  | getSlice
  /-- the slice is evicted -/
  | evict (slice : SliceRef)
  /-- before `RetryEvictQueue` -/
  | retryQueue (slice : SliceRef)
  /-- before `mRetryCallback` -/
  | retryCallback
  /-- before the flag is cleared -/
  | store
  deriving DecidableEq, Repr

/-- A running task with its local variables. -/
structure Task where
  phase : TaskPhase
  isMaster : Bool
  isSatisfied : Bool
  globEvictOffset : Nat
  deriving DecidableEq, Repr

/-- A task at its first instruction. -/
def Task.first : WCacheTierType → Task
  | .memory => ⟨.cond, false, false, noMaxValue64⟩
  | .disk => ⟨.locRole, false, false, noMaxValue64⟩

def Task.goto (k : Task) (phase : TaskPhase) : Task := { k with phase := phase }

/-- Where `RetryEvictThread` is with the list of a type.  The number is that of
    the entries of this flow in `retryFlows` that are still to come. -/
inductive RetryPhase
  /-- before the list is moved out -/
  | take
  /-- in the loop over `retryFlows` -/
  | next (rest : Nat)
  /-- `RetryEvictTask`, before `IsEmptyEvictSliceQueue` -/
  | isEmpty (rest : Nat)
  /-- `RetryEvictTask`, before `mGetLocDiskStatus` -/
  | status (rest : Nat)
  /-- `RetryEvictTask`, before `Execute` -/
  | execute (rest : Nat)
  /-- `RetryEvictTask`, before the flag is cleared -/
  | store (rest : Nat)
  deriving DecidableEq, Repr

/-! ## A tier -/

/-- What belongs to one type.  `queued` counts the tasks in the queue of the
    thread pool, `retryManager` the entries of this flow in `mRetryManager`. -/
structure Tier where
  evictRef : Bool
  evictSliceQueue : List SliceRef
  callers : List CallerPhase
  queued : Nat
  running : List Task
  retryManager : Nat
  retry : RetryPhase
  deriving DecidableEq, Repr

def Tier.init : Tier := ⟨false, [], [], 0, [], 0, .take⟩

/-- What all types read. -/
structure Shared where
  isNormal : Bool
  isForced : Bool
  deriving DecidableEq, Repr

inductive CallerEvent
  | go
  /-- `compare_exchange_weak`, which may fail without a reason -/
  | exchange (spurious : Bool)
  | execute (isSucceed : Bool)
  deriving DecidableEq, Repr

inductive TaskEvent
  | go
  | locRole (ret : BResult) (isMaster : Bool)
  /-- `EvictMemSatisfiedCond` or `EvictDiskSatisfiedCond` -/
  | satisfied (isSatisfied : Bool)
  | globOffset (ret : BResult) (globEvictOffset : Nat)
  /-- `EvictFromMemToDisk` or `EvictFromDiskToUnderFs` -/
  | evicted (ret : BResult)
  deriving DecidableEq, Repr

inductive RetryEvent
  | go
  | execute (isSucceed : Bool)
  deriving DecidableEq, Repr

/-- The steps that touch one type. -/
inductive TierEvent
  /-- `StartEvictTask` is called -/
  | call
  | caller (i : Nat) (e : CallerEvent)
  /-- a worker of the thread pool takes a task -/
  | start
  | task (i : Nat) (e : TaskEvent)
  | retry (e : RetryEvent)
  /-- `AddEvictQueue` -/
  | addSlice (slice : SliceRef)
  /-- `DelEvictQueue` -/
  | delSlice (slice : SliceRef)
  deriving DecidableEq, Repr

/-- A step of a call of `StartEvictTask`, with the call's next phase or `none`
    where it returns. -/
def callerStep (c : Shared) (t : Tier) :
    CallerPhase → CallerEvent → Option (Tier × Option CallerPhase)
  | .status, .go =>
      some (t, some (if c.isNormal then .exchange else .breakTask))
  | .breakTask, .go => some ({ t with evictRef := false }, none)
  | .exchange, .exchange spurious =>
      if t.evictRef || spurious then some (t, none)
      else some ({ t with evictRef := true }, some .execute)
  | .execute, .execute isSucceed =>
      if isSucceed then some ({ t with queued := t.queued + 1 }, none)
      else some (t, some .undo)
  | .undo, .go => some ({ t with evictRef := false }, none)
  | _, _ => none

/-- The loop body of a task once it has a slice.  The memory task does not look
    at the slice. -/
def sliceStep (type : WCacheTierType) (k : Task) (slice : SliceRef) : Task :=
  match type, slice with
  | .memory, _ => k.goto (.evict slice)
  | .disk, none => k.goto .store
  | .disk, some s =>
      if k.globEvictOffset < s.offsetInFlow + s.length then
        k.goto (.retryQueue slice)
      else k.goto (.evict slice)

/-- A step of a task, with the task's next state or `none` where it returns. -/
def taskStep (type : WCacheTierType) (c : Shared) (t : Tier) (k : Task) :
    TaskEvent → Option (Tier × Option Task)
  | .locRole ret isMaster =>
      if k.phase = .locRole then
        -- `ChkTrue` returns at once
        if ret = .ok then
          some (t, some { k with phase := .firstCond, isMaster := isMaster })
        else some (t, none)
      else none
  | .satisfied isSatisfied =>
      if k.phase = .firstCond then
        some (t, some { k with
          phase := .ifSatisfied, isSatisfied := isSatisfied })
      else if k.phase = .cond then
        some (t, some { k with phase := .loop, isSatisfied := isSatisfied })
      else none
  | .globOffset ret globEvictOffset =>
      if k.phase = .globOffset then
        if ret = .ok ∨ ret = .notExists then
          some (t, some { k with
            phase := .loop, globEvictOffset := globEvictOffset })
        else some (t, some (k.goto .retryCallback))
      else none
  | .evicted ret =>
      match k.phase with
      | .evict slice =>
          if ret = .ok then some (t, some (k.goto .cond))
          else some (t, some (k.goto (.retryQueue slice)))
      | _ => none
  | .go =>
      match k.phase with
      | .ifSatisfied =>
          if !k.isSatisfied && !c.isForced then
            some (t, some (k.goto .retryCallback))
          else some (t, some (k.goto .ifStandby))
      | .ifStandby =>
          if !k.isMaster && !c.isForced then
            some (t, some (k.goto .globOffset))
          else some (t, some (k.goto .loop))
      | .loop =>
          if k.isSatisfied || c.isForced then some (t, some (k.goto .getSlice))
          else some (t, some (k.goto .store))
      | .getSlice =>
          match t.evictSliceQueue with
          | [] => some (t, some (k.goto .store))
          | slice :: rest =>
              some ({ t with evictSliceQueue := rest },
                some (sliceStep type k slice))
      | .retryQueue slice =>
          some ({ t with evictSliceQueue := slice :: t.evictSliceQueue },
            some (k.goto .retryCallback))
      | .retryCallback =>
          some ({ t with retryManager := t.retryManager + 1 }, none)
      | .store => some ({ t with evictRef := false }, none)
      | _ => none

/-- A step of `RetryEvictThread`. -/
def retryStep (c : Shared) (t : Tier) : RetryEvent → Option Tier
  | .go =>
      match t.retry with
      | .take => some { t with retry := .next t.retryManager, retryManager := 0 }
      | .next 0 => some { t with retry := .take }
      | .next (rest + 1) => some { t with retry := .isEmpty rest }
      | .isEmpty rest =>
          if t.evictSliceQueue = [] then some { t with retry := .store rest }
          else some { t with retry := .status rest }
      | .status rest =>
          if c.isNormal then some { t with retry := .execute rest }
          else some { t with retry := .store rest }
      | .store rest =>
          some { t with evictRef := false, retry := .next rest }
      | .execute _ => none
  | .execute isSucceed =>
      match t.retry with
      | .execute rest =>
          if isSucceed then
            some { t with queued := t.queued + 1, retry := .next rest }
          else some { t with retry := .store rest }
      | _ => none

/-- The call at place `i` goes on, or it has returned. -/
def setCaller (i : Nat) : Tier × Option CallerPhase → Tier
  | (t, some p) => { t with callers := t.callers.set i p }
  | (t, none) => { t with callers := t.callers.eraseIdx i }

/-- The task at place `i` goes on, or it has returned. -/
def setTask (i : Nat) : Tier × Option Task → Tier
  | (t, some k) => { t with running := t.running.set i k }
  | (t, none) => { t with running := t.running.eraseIdx i }

def tierStep (type : WCacheTierType) (c : Shared) (t : Tier) :
    TierEvent → Option Tier
  | .call => some { t with callers := t.callers ++ [.status] }
  | .caller i e =>
      t.callers[i]?.bind fun p => (callerStep c t p e).map (setCaller i)
  | .start =>
      match t.queued with
      | 0 => none
      | n + 1 =>
          some { t with queued := n, running := t.running ++ [.first type] }
  | .task i e =>
      t.running[i]?.bind fun k => (taskStep type c t k e).map (setTask i)
  | .retry e => retryStep c t e
  | .addSlice slice =>
      some { t with evictSliceQueue := t.evictSliceQueue ++ [slice] }
  | .delSlice slice =>
      some { t with
        evictSliceQueue := t.evictSliceQueue.filter fun s => s ≠ slice }

/-! ## The cache -/

/-- A registered `WCache`.  `turn` is the type whose list `RetryEvictThread`
    is with. -/
structure WCache where
  tier : WCacheTierType → Tier
  turn : WCacheTierType
  shared : Shared

def WCache.init (isNormal isForced : Bool) : WCache :=
  ⟨fun _ => .init, .memory, ⟨isNormal, isForced⟩⟩

inductive Event
  | tier (type : WCacheTierType) (e : TierEvent)
  /-- the state of the disk changes -/
  | diskStatus (isNormal : Bool)
  /-- `mIsForced` is set -/
  | force
  deriving DecidableEq, Repr

def WCache.setTier (s : WCache) (type : WCacheTierType) (t : Tier) : WCache :=
  { s with tier := Function.update s.tier type t }

/-- The thread goes to the other list when it is through with one. -/
def WCache.turnAfter (s : WCache) (t : Tier) : WCacheTierType :=
  if t.retry = .take then s.turn.other else s.turn

def step (s : WCache) : Event → Option WCache
  | .tier type (.retry e) =>
      if s.turn = type then
        (retryStep s.shared (s.tier type) e).map fun t =>
          { s.setTier type t with turn := s.turnAfter t }
      else none
  | .tier type e =>
      (tierStep type s.shared (s.tier type) e).map (s.setTier type)
  | .diskStatus isNormal =>
      some { s with shared := { s.shared with isNormal := isNormal } }
  | .force => some { s with shared := { s.shared with isForced := true } }

/-- A run of the cache. -/
abbrev run : WCache → List Event → Option WCache := runFrom step

end UbsIo.Evict
