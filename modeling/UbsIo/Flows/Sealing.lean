import UbsIo.Flows.Address
import UbsIo.Lib.Holdings

/-! # Sealing a flow

    `Seal` truncates a flow up to its `mPreLoadOffset`, which gives all its
    chunks back.  It takes no lock before it comes to the locked section of
    `TruncateOffset`: it reads `mPreLoadOffset`, writes it to `mWritenOffset`
    and reads that again.

    Two things can go on meanwhile.  A worker that has got a chunk puts it on
    the list; and a writer that has compared `mWritenOffset` with what it needs
    stores its own value over the one from `Seal`. -/

namespace UbsIo.Flows

open UbsIo.Lib

variable {ι : Type} [DecidableEq ι]

/-- Where `Seal` is. -/
inductive SealPhase where
  /-- before `if (mSealed)` -/
  | check
  /-- before `mSealed = true` -/
  | set
  /-- before `mPreLoadOffset` is read -/
  | load
  /-- before `mWritenOffset` is written -/
  | store (writenOffset : Nat)
  /-- before `mWritenOffset` is read for the call of `TruncateOffset` -/
  | call
  /-- in `TruncateOffset` -/
  | truncating
  | returned (ret : BResult)
deriving DecidableEq, Repr

/-- The phases before `TruncateOffset`. -/
def SealPhase.before : SealPhase → Bool
  | .truncating => false
  | .returned _ => false
  | _ => true

/-- A flow that is sealed once.  `sealer` is the thread that does it;
    `writing` is a thread that has the lock and is about to store
    `mWritenOffset`; `freed` has all chunks that went to `MediaFree`, in
    order. -/
structure Sealing (ι : Type) where
  flow : Flow ι
  sealed : Bool
  sealer : Option (ι × SealPhase)
  writing : Option ι
  freed : List Nat

def Sealing.init (ι : Type) : Sealing ι := ⟨Flow.init ι, false, none, none, []⟩

inductive SealEvent (ι : Type) where
  /-- A step of the flow. -/
  | flow (e : Event ι)
  /-- Thread `t` finds `mWritenOffset` below what it needs, in `HoldWait` or at
      the end of `ValidateAndPreloadRange`. -/
  | compare (t : ι)
  /-- Thread `t` calls `Seal`. -/
  | callSeal (t : ι)
  /-- The next step of `Seal` before `TruncateOffset`. -/
  | goSeal

def Event.thread : Event ι → ι
  | .getAddrByOffset t _ => t
  | .truncateOffset t _ => t
  | .start t => t
  | .go t => t
  | .mediaAlloc t _ => t
  | .preLoadObject t _ => t

/-- The phases whose next section takes `mLock`. -/
def Phase.locks : Phase → Bool
  | .hold _ => true
  | .check _ => true
  | .flag _ => true
  | .written _ => true
  | .build _ => true
  | .truncate _ => true
  | .push _ => true
  | .clean _ _ => true
  | .cleanAll => true
  | _ => false

/-- What a thread that compares `mWritenOffset` needs. -/
def Phase.needs : Phase → Option Nat
  | .hold r => some r.needOffset
  | .written r => some r.needOffset
  | _ => none

/-- A step of the flow that neither `Seal` nor the lock prevents. -/
def Sealing.allows (s : Sealing ι) (e : Event ι) : Bool :=
  (match s.sealer with
    | some (t, p) => !(decide (t = e.thread) && p.before)
    | none => true) &&
  match s.writing with
    | some t => decide (t = e.thread) || !(s.flow.threads e.thread).locks
    | none => true

/-- The flow as a thread sees it: one that is about to store `mWritenOffset`
    does not look at it again, so it may as well be `0`. -/
def Sealing.seen (s : Sealing ι) (t : ι) : Flow ι :=
  if s.writing = some t then { s.flow with writenOffset := 0 } else s.flow

/-- What a step passes to `MediaFree`. -/
def freedBy (s : Flow ι) : Event ι → List Nat
  | .go t =>
      match s.threads t with
      | .free (chunkId :: _) => [chunkId]
      | _ => []
  | _ => []

/-- The result of `TruncateOffset` when it returns from phase `p`. -/
def truncateResult : Phase → BResult
  | .truncPreLoad _ => .err
  | .truncWriten _ => .err
  | _ => .ok

/-- `Seal` after its thread has gone on in `TruncateOffset` from phase `p` to
    phase `p'`. -/
def SealPhase.after (p p' : Phase) : SealPhase :=
  if p' = .idle then .returned (truncateResult p) else .truncating

def Sealing.sealerAfter (s : Sealing ι) (t : ι) (flow : Flow ι) :
    Option (ι × SealPhase) :=
  match s.sealer with
  | some (u, .truncating) =>
      if u = t then some (u, .after (s.flow.threads t) (flow.threads t))
      else s.sealer
  | _ => s.sealer

/-- The state after a step of the flow by thread `t`. -/
def Sealing.afterFlow (s : Sealing ι) (e : Event ι) (flow : Flow ι) :
    Sealing ι :=
  { s with
    flow := flow
    sealer := s.sealerAfter e.thread flow
    writing := if s.writing = some e.thread then none else s.writing
    freed := s.freed ++ freedBy s.flow e }

/-- `Seal`, up to the call of `TruncateOffset`. -/
def goSeal (s : Sealing ι) (t : ι) : SealPhase → Option (Sealing ι)
  | .check =>
      if s.sealed then some { s with sealer := some (t, .returned .ok) }
      else some { s with sealer := some (t, .set) }
  | .set => some { s with sealed := true, sealer := some (t, .load) }
  | .load => some { s with sealer := some (t, .store s.flow.preLoadOffset) }
  | .store writenOffset =>
      some { s with
        flow := { s.flow with writenOffset := writenOffset }
        sealer := some (t, .call) }
  | .call =>
      some { s with
        flow := s.flow.goto t (.truncPreLoad s.flow.writenOffset)
        sealer := some (t, .truncating) }
  | _ => none

def sealStep (d : Dims) (s : Sealing ι) : SealEvent ι → Option (Sealing ι)
  | .flow e =>
      if s.allows e then (step d (s.seen e.thread) e).map (s.afterFlow e)
      else none
  | .compare t =>
      match (s.flow.threads t).needs with
      | some needOffset =>
          if s.writing = none ∧ s.flow.writenOffset < needOffset then
            some { s with writing := some t }
          else none
      | none => none
  | .callSeal t =>
      if s.sealer = none ∧ s.flow.threads t = .idle then
        some { s with sealer := some (t, .check) }
      else none
  | .goSeal =>
      match s.sealer with
      | some (t, p) => goSeal s t p
      | none => none

end UbsIo.Flows
