import UbsIo.Lib.Run

/-! # Flows

    A `Flow` is an endless byte stream on chunks of one size.  Writers ask for
    the addresses of a range (`GetAddrByOffset`); a worker preloads chunks ahead
    of the writers (`PreLoadHandle`), and a writer that is ahead of the worker
    waits for it (`HoldWait`); `TruncateOffset` gives the chunks at the front
    back.

    Any number of threads work on a flow.  Every locked section is one step,
    and so is every load of an atomic outside the lock, every call of the
    allocator and every hand-over to the task pool.  Offsets have 64 bits, the
    offset and the length of a `FlowAddr` have 32. -/

namespace UbsIo.Flows

open UbsIo.Lib

/-- A sum of 64-bit numbers. -/
def wrap64 (x : Nat) : Nat := x % 2 ^ 64

/-- `NO_MAX_VALUE64`. -/
def noMaxValue64 : Nat := 2 ^ 64 - 1

structure FlowAddr where
  chunkId : Nat
  chunkOffset : Nat
  chunkLen : Nat
deriving DecidableEq, Repr

inductive BResult where
  | ok | err | innerErr | innerRetry
deriving DecidableEq, Repr

/-- What is fixed when a flow is created. -/
structure Dims where
  chunkSize : Nat
  preLoadSize : Nat
  chunkSize_lt : chunkSize < 2 ^ 64
  preLoadSize_lt : preLoadSize < 2 ^ 64
deriving DecidableEq, Repr

/-- The dimensions as machine words. -/
def Dims.of (chunkSize preLoadSize : UInt64) : Dims :=
  ⟨chunkSize.toNat, preLoadSize.toNat, chunkSize.toNat_lt,
    preLoadSize.toNat_lt⟩

/-- The arguments of `GetAddrByOffset`. -/
structure Range where
  offset : Nat
  len : Nat
  offset_lt : offset < 2 ^ 64
  len_lt : len < 2 ^ 32
deriving DecidableEq, Repr

/-- The arguments as machine words. -/
def Range.of (offset : UInt64) (len : UInt32) : Range :=
  ⟨offset.toNat, len.toNat, offset.toNat_lt, len.toNat_lt⟩

/-- The end of the range; `ValidateAndPreloadRange` has refused a range whose
    end does not fit. -/
def Range.needOffset (r : Range) : Nat := r.offset + r.len

/-- Who has called `PreLoadSchedule`: `HoldWait`, or `GetAddrByOffset` at its
    end. -/
inductive Caller where
  | holdWait (r : Range)
  | getAddr
deriving DecidableEq, Repr

/-- Where a thread is. -/
inductive Phase where
  | idle
  -- `GetAddrByOffset`
  | validate (r : Range)
  | compare (r : Range)
  | hold (r : Range)
  | check (k : Caller)
  | flag (k : Caller)
  | submit (k : Caller)
  | wait (r : Range)
  | written (r : Range)
  | build (r : Range)
  -- `TruncateOffset`
  | truncPreLoad (offset : Nat)
  | truncWriten (offset : Nat)
  | truncate (offset : Nat)
  | free (cleanList : List Nat)
  -- `PreLoadHandle`
  | load
  | alloc (offset : Nat)
  | push (chunkId : Nat)
  | clean (offset : Nat) (isReady : Bool)
  | cleanAll
deriving DecidableEq, Repr

/-- A flow, the threads on it, and the medium under it.  `holdList` has the
    waiting threads with their `needOffset`, `posted` what `HoldClean` has left
    in the context of a thread; `queued` counts the tasks that no worker has
    taken yet.  `media` has the chunks that are allocated now, with the flow
    offsets they were allocated for; `log` has all that ever were, and
    `answers` all results of `GetAddrByOffset`. -/
structure Flow (ι : Type) where
  chunkList : List Nat
  truncateOffset : Nat
  writenOffset : Nat
  preLoadOffset : Nat
  preLoadFlag : Bool
  holdList : List (ι × Nat)
  posted : ι → Option BResult
  queued : Nat
  threads : ι → Phase
  media : List (Nat × Nat)
  log : List (Nat × Nat)
  answers : List (Range × List FlowAddr)

/-- A new flow. -/
def Flow.init (ι : Type) : Flow ι where
  chunkList := []
  truncateOffset := 0
  writenOffset := 0
  preLoadOffset := 0
  preLoadFlag := false
  holdList := []
  posted := fun _ => none
  queued := 0
  threads := fun _ => .idle
  media := []
  log := []
  answers := []

/-! ## Locked sections -/

/-- The loop of `BuildFlowAddrs`; `none` is `BIO_INNER_ERR`.  Every iteration
    takes at least one byte, so the length is enough fuel. -/
def buildFrom (chunkSize : Nat) (chunkList : List Nat) :
    Nat → Nat → Nat → Option (List FlowAddr)
  | _, 0, _ => some []
  | 0, _ + 1, _ => none
  | fuel + 1, remainLen@(_ + 1), curOffset =>
      match chunkList[curOffset / chunkSize]? with
      | none => none
      | some chunkId =>
          let curLen := min remainLen (chunkSize - curOffset % chunkSize)
          (buildFrom chunkSize chunkList fuel (remainLen - curLen)
            (wrap64 (curOffset + curLen))).map fun rest =>
              ⟨chunkId, curOffset % chunkSize % 2 ^ 32, curLen % 2 ^ 32⟩ :: rest

/-- `BuildFlowAddrs`: the subtraction is one of unsigned numbers. -/
def buildFlowAddrs (d : Dims) (chunkList : List Nat) (truncateOffset : Nat)
    (r : Range) : Option (List FlowAddr) :=
  buildFrom d.chunkSize chunkList r.len r.len
    (wrap64 (r.offset + 2 ^ 64 -
      truncateOffset / d.chunkSize * d.chunkSize))

/-- The loop of `TruncateOffset`: the chunks to free, and the others. -/
def truncateFrom (chunkSize offset : Nat) :
    Nat → List Nat → List Nat × List Nat
  | _, [] => ([], [])
  | startOffset, c :: rest =>
      if wrap64 (startOffset + chunkSize) ≤ offset then
        let r := truncateFrom chunkSize offset
          (wrap64 (startOffset + chunkSize)) rest
        (c :: r.1, r.2)
      else ([], c :: rest)

variable {ι : Type} [DecidableEq ι]

/-- Thread `t` goes on to another place. -/
def Flow.goto (s : Flow ι) (t : ι) (p : Phase) : Flow ι :=
  { s with threads := Function.update s.threads t p }

/-- Preloading is far enough ahead of the writers. -/
def isReady (d : Dims) (s : Flow ι) : Bool :=
  decide (wrap64 (s.writenOffset + d.preLoadSize) ≤ s.preLoadOffset)

/-- `HoldClean`: it wakes the waiters at the front of the list, up to the first
    one that needs more. -/
def holdClean (s : Flow ι) (realOffset : Nat) (ret : BResult)
    (preLoadFlag : Bool) : Flow ι :=
  { s with
    preLoadFlag := preLoadFlag
    holdList := s.holdList.dropWhile fun w => decide (w.2 ≤ realOffset)
    posted := fun t =>
      if t ∈ (s.holdList.takeWhile fun w => decide (w.2 ≤ realOffset)).map
          Prod.fst
      then some ret else s.posted t }

/-- Where a thread is after `PreLoadSchedule`. -/
def Caller.next : Caller → Phase
  | .holdWait r => .wait r
  | .getAddr => .idle

/-! ## Steps -/

inductive Event (ι : Type) where
  /-- Thread `t` calls `GetAddrByOffset`. -/
  | getAddrByOffset (t : ι) (r : Range)
  /-- Thread `t` calls `TruncateOffset`. -/
  | truncateOffset (t : ι) (offset : Nat)
  /-- A worker takes a `PreLoadHandle` from the queue. -/
  | start (t : ι)
  /-- The next section of thread `t`. -/
  | go (t : ι)
  /-- `MediaAlloc` returns to thread `t`. -/
  | mediaAlloc (t : ι) (chunkId : Option Nat)
  /-- `PreLoadObject` returns to thread `t`. -/
  | preLoadObject (t : ι) (ok : Bool)

/-- The next section of a thread that is in phase `p`. -/
def resume (d : Dims) (s : Flow ι) (t : ι) : Phase → Option (Flow ι)
  | .validate r =>
      if r.offset < s.truncateOffset ∨ 2 ^ 64 - 1 - r.offset < r.len then
        some (s.goto t .idle)
      else some (s.goto t (.compare r))
  | .compare r =>
      if s.preLoadOffset < r.needOffset then some (s.goto t (.hold r))
      else some (s.goto t (.written r))
  | .hold r =>
      let s := { s with writenOffset := max s.writenOffset r.needOffset }
      if r.needOffset ≤ s.preLoadOffset then some (s.goto t (.written r))
      else
        some (Flow.goto
          { s with
            holdList := s.holdList ++ [(t, r.needOffset)]
            posted := Function.update s.posted t none }
          t (.check (.holdWait r)))
  | .check k =>
      if isReady d s then some (s.goto t k.next)
      else some (s.goto t (.flag k))
  | .flag k =>
      if s.preLoadFlag then some (s.goto t k.next)
      else some (Flow.goto { s with preLoadFlag := true } t (.submit k))
  | .wait r =>
      match s.posted t with
      | none => none
      | some .ok =>
          some (Flow.goto
            { s with posted := Function.update s.posted t none } t (.written r))
      | some _ =>
          some (Flow.goto
            { s with posted := Function.update s.posted t none } t .idle)
  | .written r =>
      some (Flow.goto
        { s with writenOffset := max s.writenOffset r.needOffset } t (.build r))
  | .build r =>
      match buildFlowAddrs d s.chunkList s.truncateOffset r with
      | none => some (s.goto t .idle)
      | some flowAddr =>
          some (Flow.goto { s with answers := s.answers ++ [(r, flowAddr)] }
            t (.check .getAddr))
  | .truncPreLoad offset =>
      if s.preLoadOffset < offset then some (s.goto t .idle)
      else some (s.goto t (.truncWriten offset))
  | .truncWriten offset =>
      if s.writenOffset < offset then some (s.goto t .idle)
      else some (s.goto t (.truncate offset))
  | .truncate offset =>
      if offset ≤ s.truncateOffset then some (s.goto t .idle)
      else
        let r := truncateFrom d.chunkSize offset
          (s.truncateOffset / d.chunkSize * d.chunkSize) s.chunkList
        some (Flow.goto
          { s with chunkList := r.2, truncateOffset := offset }
          t (.free r.1))
  | .free [] => some (s.goto t .idle)
  | .free (chunkId :: cleanList) =>
      some (Flow.goto
        { s with media := s.media.filter fun e => decide (e.2 ≠ chunkId) }
        t (.free cleanList))
  | .load => some (s.goto t (.alloc s.preLoadOffset))
  | .push chunkId =>
      let s := { s with
        chunkList := s.chunkList ++ [chunkId]
        preLoadOffset := wrap64 (s.preLoadOffset + d.chunkSize) }
      some (s.goto t (.clean s.preLoadOffset (isReady d s)))
  | .clean offset isReady =>
      some ((holdClean s offset .ok (!isReady)).goto t
        (if isReady then .idle else .load))
  | .cleanAll =>
      some ((holdClean s noMaxValue64 .innerRetry false).goto t .idle)
  | _ => none

/-- One step.  `MediaAlloc` never returns a chunk that is in use. -/
def step (d : Dims) (s : Flow ι) : Event ι → Option (Flow ι)
  | .getAddrByOffset t r =>
      if s.threads t = .idle then some (s.goto t (.validate r)) else none
  | .truncateOffset t offset =>
      if s.threads t = .idle then some (s.goto t (.truncPreLoad offset))
      else none
  | .start t =>
      if s.threads t = .idle ∧ 0 < s.queued then
        some (Flow.goto { s with queued := s.queued - 1 } t .load)
      else none
  | .go t => resume d s t (s.threads t)
  | .mediaAlloc t result =>
      match s.threads t, result with
      | .alloc offset, some chunkId =>
          if chunkId ∈ s.media.map Prod.snd then none
          else
            some (Flow.goto
              { s with
                media := s.media ++ [(offset, chunkId)]
                log := s.log ++ [(offset, chunkId)] }
              t (.push chunkId))
      | .alloc _, none => some (s.goto t .cleanAll)
      | _, _ => none
  | .preLoadObject t ok =>
      match s.threads t with
      | .submit k =>
          if ok then
            some (Flow.goto { s with queued := s.queued + 1 } t k.next)
          else some (Flow.goto { s with preLoadFlag := false } t k.next)
      | _ => none

end UbsIo.Flows
