import UbsIo.Lib.Run

/-! # Versions of items and of requests

    An item gets its version when it is encoded, from `gPtVersion`; the head of
    a request gets its version when it is sent, from `mPtVersion`; the server
    compares the head with its own version and applies the items.  A request
    that is refused makes the client ask for the version and store it, first in
    `mPtVersion` and then in `gPtVersion`, and is sent again with a new head
    and the old block.  Threads take these steps in any order; clients share
    nothing but the server. -/

namespace UbsIo.Client.Versions

open UbsIo.Lib

/-! ## The client -/

/-- The versions of the items of a block, and whether both variables of the
    client have had their present value since the first item was encoded.  The
    latter is a history variable, which no step looks at. -/
structure Block where
  versions : List UInt64
  fresh : Bool
deriving DecidableEq, Repr

/-- `IoCtrlRequest::head.ptv`, and whether the block was fresh when it was
    loaded. -/
structure Request where
  ptv : UInt64
  fresh : Bool
deriving DecidableEq, Repr

/-- What a call comes back with; `again` stands for the four codes that are
    tried again with the same request. -/
inductive Answer where
  | ok
  | needUpdatePtVersion
  | again
  | failed
deriving DecidableEq, Repr

/-- Where a thread stands: in the encoder, in the loop of `HandleSendReqs`, in
    a `SyncCall`, behind it, or in `UpdateClientPtVersion` with the version it
    was told. -/
inductive Phase where
  | encoding
  | sending
  | calling (req : Request)
  | answered (req : Request) (ret : Answer)
  | told (req : Request) (ptVersion : UInt64)
  | storedClient (req : Request) (ptVersion : UInt64)
  | storedLocal (req : Request)
deriving DecidableEq, Repr

/-- The blocks of a call that are not done yet, in the order they are sent. -/
structure Thread where
  blocks : List Block
  phase : Phase
deriving DecidableEq, Repr

/-- An item was applied with this version after a comparison with `localPtV`. -/
structure Applied where
  localPtV : UInt64
  version : UInt64
deriving DecidableEq, Repr

/-- What a step of a thread leaves. -/
structure Outcome where
  thread : Thread
  mPtVersion : UInt64
  gPtVersion : UInt64
  applied : List Applied
deriving DecidableEq, Repr

/-- One atomic step of a thread.  `handle` is the handler of the server, which
    applies the first `num` items of a block that it accepts and then answers
    `ret`; `lose` is a call that does not get there. -/
inductive Action where
  | encodeItem (opens : Bool)
  | freeBlocks
  | encoded
  | load
  | handle (num : Nat) (ret : Answer)
  | lose (ret : Answer)
  | next
  | retry
  | giveUp
  | ask
  | storeClient
  | storeLocal
  | reload
deriving DecidableEq, Repr

/-- `desc->version = gPtVersion`, in the last block or in a new one. -/
def encodeItem (mPtVersion gPtVersion : UInt64) (opens : Bool) :
    List Block → List Block
  | [] => [⟨[gPtVersion], decide (mPtVersion = gPtVersion)⟩]
  | [b] =>
      if opens then [b, ⟨[gPtVersion], decide (mPtVersion = gPtVersion)⟩]
      else [⟨b.versions ++ [gPtVersion],
        b.fresh && decide (mPtVersion = gPtVersion)⟩]
  | b :: b' :: l => b :: encodeItem mPtVersion gPtVersion opens (b' :: l)

/-- `HandlePut`, `HandleUpdate` and `HandleDelete`, from the comparison on. -/
def handle (localPtV : UInt64) (num : Nat) (ret : Answer) (req : Request)
    (block : Block) : Answer × List Applied :=
  if req.ptv ≠ localPtV then (.needUpdatePtVersion, [])
  else (ret, (block.versions.take num).map fun v => ⟨localPtV, v⟩)

/-- A step of a thread; most leave the two variables alone. -/
def act (mPtVersion gPtVersion localPtV : UInt64) (t : Thread) (a : Action) :
    Option Outcome :=
  let stay (blocks : List Block) (phase : Phase) :=
    some ⟨⟨blocks, phase⟩, mPtVersion, gPtVersion, []⟩
  match a, t.phase, t.blocks with
  | .encodeItem opens, .encoding, blocks =>
      stay (encodeItem mPtVersion gPtVersion opens blocks) .encoding
  | .freeBlocks, .encoding, _ => stay [] .encoding
  | .encoded, .encoding, blocks => stay blocks .sending
  | .load, .sending, [] => stay [] .encoding
  | .load, .sending, b :: l =>
      stay (b :: l) (.calling ⟨mPtVersion, b.fresh⟩)
  | .handle num ret, .calling req, b :: l =>
      let r := handle localPtV num ret req b
      some ⟨⟨b :: l, .answered req r.1⟩, mPtVersion, gPtVersion, r.2⟩
  | .lose ret, .calling req, blocks => stay blocks (.answered req ret)
  | .next, .answered _ .ok, _ :: l => stay l .sending
  | .retry, .answered req .again, blocks => stay blocks (.calling req)
  | .giveUp, .answered _ ret, _ =>
      if ret = .ok then none else stay [] .encoding
  | .ask, .answered req .needUpdatePtVersion, blocks =>
      stay blocks (.told req localPtV)
  | .storeClient, .told req v, blocks =>
      some ⟨⟨blocks, .storedClient req v⟩, v, gPtVersion, []⟩
  | .storeLocal, .storedClient req v, blocks =>
      some ⟨⟨blocks, .storedLocal req⟩, mPtVersion, v, []⟩
  | .reload, .storedLocal _, b :: l =>
      stay (b :: l) (.calling ⟨mPtVersion, b.fresh⟩)
  | _, _, _ => none

/-! ## The system -/

structure MmsKvClient where
  mPtVersion : UInt64
  gPtVersion : UInt64
  threads : List Thread
deriving DecidableEq, Repr

/-- No block has seen the new value of a variable all along. -/
def Thread.outdate (t : Thread) : Thread :=
  { t with blocks := t.blocks.map fun b => { b with fresh := false } }

/-- The client after a step: one thread has changed, and the blocks of all are
    marked when a variable has. -/
def MmsKvClient.after (c : MmsKvClient) (t : Nat) (o : Outcome) :
    MmsKvClient where
  mPtVersion := o.mPtVersion
  gPtVersion := o.gPtVersion
  threads :=
    if o.mPtVersion = c.mPtVersion ∧ o.gPtVersion = c.gPtVersion then
      c.threads.set t o.thread
    else (c.threads.set t o.thread).map Thread.outdate

structure System where
  localPtV : UInt64
  clients : List MmsKvClient
  applied : List Applied
deriving DecidableEq, Repr

/-- A step of a thread of a client, or a new view at the server. -/
inductive Event where
  | act (client thread : Nat) (a : Action)
  | changeView (ptVersion : UInt64)
deriving DecidableEq, Repr

def step (s : System) : Event → Option System
  | .act i t a => do
      let c ← s.clients[i]?
      let th ← c.threads[t]?
      let o ← Versions.act c.mPtVersion c.gPtVersion s.localPtV th a
      some ⟨s.localPtV, s.clients.set i (c.after t o), s.applied ++ o.applied⟩
  | .changeView v => some { s with localPtV := v }

/-- Clients with these numbers of threads; `mPtVersion` starts at 1. -/
def initial (ptVersion : UInt64) (threads : List Nat) : System where
  localPtV := ptVersion
  clients := threads.map fun n => ⟨1, 1, List.replicate n ⟨[], .encoding⟩⟩
  applied := []

/-- Every item has the version that the server has compared. -/
def System.Matches (s : System) : Prop :=
  ∀ a ∈ s.applied, a.version = a.localPtV

/-- The request that a thread waits for. -/
def System.requestOf (s : System) (client thread : Nat) : Option Request := do
  let c ← s.clients[client]?
  let t ← c.threads[thread]?
  match t.phase with
  | .calling req => some req
  | _ => none

/-- The thread whose request the server handles. -/
def Event.handles : Event → Option (Nat × Nat)
  | .act client thread (.handle _ _) => some (client, thread)
  | _ => none

/-- A request is accepted only if neither variable has changed from the first
    item of its block to its head. -/
def Undisturbed (s : System) (e : Event) : Prop :=
  ∀ p ∈ e.handles, ∀ req ∈ s.requestOf p.1 p.2,
    req.ptv = s.localPtV → req.fresh = true

instance (s : System) (e : Event) : Decidable (Undisturbed s e) :=
  inferInstanceAs (Decidable (∀ p ∈ e.handles,
    ∀ req ∈ s.requestOf p.1 p.2, req.ptv = s.localPtV → req.fresh = true))

/-! ## The invariant -/

/-- The items of a fresh block have the value of both variables. -/
def Block.Good (mPtVersion gPtVersion : UInt64) (b : Block) : Prop :=
  b.fresh = true → ∀ v ∈ b.versions, v = mPtVersion ∧ v = gPtVersion

def Phase.request : Phase → Option Request
  | .encoding => none
  | .sending => none
  | .calling req => some req
  | .answered req _ => some req
  | .told req _ => some req
  | .storedClient req _ => some req
  | .storedLocal req => some req

/-- The items of the block that is being sent have the version of the head, if
    the block was fresh when the head was loaded. -/
def Thread.Sends (t : Thread) : Prop :=
  ∀ req ∈ t.phase.request, req.fresh = true →
    ∀ b ∈ t.blocks.head?, ∀ v ∈ b.versions, v = req.ptv

structure Thread.Good (mPtVersion gPtVersion : UInt64) (t : Thread) : Prop where
  blocks : ∀ b ∈ t.blocks, b.Good mPtVersion gPtVersion
  sends : t.Sends

def MmsKvClient.Good (c : MmsKvClient) : Prop :=
  ∀ t ∈ c.threads, t.Good c.mPtVersion c.gPtVersion

structure System.Good (s : System) : Prop where
  clients : ∀ c ∈ s.clients, c.Good
  applied : s.Matches

variable {mPtVersion gPtVersion localPtV : UInt64} {t : Thread} {a : Action}
  {o : Outcome}

theorem good_newBlock (mPtVersion gPtVersion : UInt64) :
    Block.Good mPtVersion gPtVersion
      ⟨[gPtVersion], decide (mPtVersion = gPtVersion)⟩ := by
  intro hfresh v hv
  have heq : mPtVersion = gPtVersion := of_decide_eq_true hfresh
  rw [List.mem_singleton.mp hv]
  exact ⟨heq.symm, rfl⟩

theorem good_addItem {b : Block} (hb : b.Good mPtVersion gPtVersion) :
    Block.Good mPtVersion gPtVersion
      ⟨b.versions ++ [gPtVersion],
        b.fresh && decide (mPtVersion = gPtVersion)⟩ := by
  intro hfresh v hv
  obtain ⟨hb', heq⟩ := Bool.and_eq_true_iff.mp hfresh
  have heq : mPtVersion = gPtVersion := of_decide_eq_true heq
  rcases List.mem_append.mp hv with hv | hv
  · exact hb hb' v hv
  · rw [List.mem_singleton.mp hv]
    exact ⟨heq.symm, rfl⟩

/-- Encoding an item keeps the blocks good. -/
theorem good_encodeItem {opens : Bool} : ∀ {blocks : List Block},
    (∀ b ∈ blocks, b.Good mPtVersion gPtVersion) →
    ∀ b ∈ encodeItem mPtVersion gPtVersion opens blocks,
      b.Good mPtVersion gPtVersion := by
  intro blocks
  induction blocks with
  | nil =>
      intro _ b hb
      rw [List.mem_singleton.mp hb]
      exact good_newBlock mPtVersion gPtVersion
  | cons b₀ l ih =>
      intro h b hb
      have hb₀ := h b₀ (List.mem_cons_self ..)
      cases l with
      | nil =>
          change b ∈ (if _ then _ else _ : List Block) at hb
          split at hb
          · rcases List.mem_cons.mp hb with rfl | hb
            · exact hb₀
            · rw [List.mem_singleton.mp hb]
              exact good_newBlock mPtVersion gPtVersion
          · rw [List.mem_singleton.mp hb]
            exact good_addItem hb₀
      | cons b₁ l =>
          rcases List.mem_cons.mp hb with rfl | hb
          · exact hb₀
          · exact ih (fun x hx => h x (List.mem_cons_of_mem _ hx)) b hb

/-- A request that starts now has the version of a fresh block. -/
theorem sends_load {b : Block} {l : List Block}
    (hb : b.Good mPtVersion gPtVersion) :
    Thread.Sends ⟨b :: l, .calling ⟨mPtVersion, b.fresh⟩⟩ := by
  rintro req ⟨⟩ hfresh b' ⟨⟩ v hv
  exact (hb hfresh v hv).1

/-- What a step of a thread leaves: blocks that are good as long as no variable
    has changed, a request that fits its block, and applied items of the block
    it was accepted for. -/
structure Leaves (mPtVersion gPtVersion localPtV : UInt64) (t : Thread)
    (a : Action) (o : Outcome) : Prop where
  blocks : o.mPtVersion = mPtVersion → o.gPtVersion = gPtVersion →
    ∀ b ∈ o.thread.blocks, b.Good mPtVersion gPtVersion
  sends : o.thread.Sends
  applied : ∀ x ∈ o.applied, x.localPtV = localPtV ∧ ∃ num ret req b,
    a = .handle num ret ∧ t.phase = .calling req ∧ t.blocks.head? = some b ∧
      req.ptv = localPtV ∧ x.version ∈ b.versions

/-- A step that applies nothing. -/
theorem leaves_of_sends {t' : Thread} {m g : UInt64}
    (hblocks : m = mPtVersion → g = gPtVersion →
      ∀ b ∈ t'.blocks, b.Good mPtVersion gPtVersion) (hsends : t'.Sends) :
    Leaves mPtVersion gPtVersion localPtV t a ⟨t', m, g, []⟩ :=
  ⟨hblocks, hsends, fun _ hx => absurd hx List.not_mem_nil⟩

/-- A thread that waits for nothing sends nothing. -/
theorem sends_of_none (h : t.phase.request = none) : t.Sends := by
  intro req hreq
  rw [h] at hreq
  cases hreq

theorem act_leaves (h : t.Good mPtVersion gPtVersion)
    (hact : act mPtVersion gPtVersion localPtV t a = some o) :
    Leaves mPtVersion gPtVersion localPtV t a o := by
  obtain ⟨blocks, phase⟩ := t
  obtain ⟨hblocks, hsends⟩ := h
  cases a with
  | encodeItem opens =>
      cases phase with
      | encoding =>
          cases hact
          exact leaves_of_sends (fun _ _ => good_encodeItem hblocks)
            (sends_of_none rfl)
      | _ => cases hact
  | freeBlocks =>
      cases phase with
      | encoding =>
          cases hact
          exact leaves_of_sends (fun _ _ _ hb => absurd hb List.not_mem_nil)
            (sends_of_none rfl)
      | _ => cases hact
  | encoded =>
      cases phase with
      | encoding =>
          cases hact
          exact leaves_of_sends (fun _ _ => hblocks) (sends_of_none rfl)
      | _ => cases hact
  | load =>
      cases phase with
      | sending =>
          cases blocks with
          | nil =>
              cases hact
              exact leaves_of_sends (fun _ _ => hblocks) (sends_of_none rfl)
          | cons b l =>
              cases hact
              exact leaves_of_sends (fun _ _ => hblocks)
                (sends_load (hblocks b (List.mem_cons_self ..)))
      | _ => cases hact
  | handle num ret =>
      cases phase with
      | calling req =>
          cases blocks with
          | nil => cases hact
          | cons b l =>
              cases hact
              refine ⟨fun _ _ => hblocks, hsends, ?_⟩
              intro x hx
              change x ∈ (handle localPtV num ret req b).2 at hx
              unfold handle at hx
              split at hx
              · exact absurd hx List.not_mem_nil
              · rename_i heq
                obtain ⟨v, hv, rfl⟩ := List.mem_map.mp hx
                exact ⟨rfl, num, ret, req, b, rfl, rfl, rfl, not_not.mp heq,
                  List.mem_of_mem_take hv⟩
      | _ => cases hact
  | lose ret =>
      cases phase with
      | calling req =>
          cases hact
          exact leaves_of_sends (fun _ _ => hblocks) hsends
      | _ => cases hact
  | next =>
      cases phase with
      | answered req ret =>
          cases ret with
          | ok =>
              cases blocks with
              | nil => cases hact
              | cons b l =>
                  cases hact
                  exact leaves_of_sends
                    (fun _ _ x hx => hblocks x (List.mem_cons_of_mem _ hx))
                    (sends_of_none rfl)
          | _ => cases hact
      | _ => cases hact
  | retry =>
      cases phase with
      | answered req ret =>
          cases ret with
          | again =>
              cases hact
              exact leaves_of_sends (fun _ _ => hblocks) hsends
          | _ => cases hact
      | _ => cases hact
  | giveUp =>
      cases phase with
      | answered req ret =>
          change (if _ then _ else _) = _ at hact
          split at hact
          · cases hact
          · cases hact
            exact leaves_of_sends
              (fun _ _ _ hb => absurd hb List.not_mem_nil)
              (sends_of_none rfl)
      | _ => cases hact
  | ask =>
      cases phase with
      | answered req ret =>
          cases ret with
          | needUpdatePtVersion =>
              cases hact
              exact leaves_of_sends (fun _ _ => hblocks) hsends
          | _ => cases hact
      | _ => cases hact
  | storeClient =>
      cases phase with
      | told req v =>
          cases hact
          exact leaves_of_sends (fun _ _ => hblocks) hsends
      | _ => cases hact
  | storeLocal =>
      cases phase with
      | storedClient req v =>
          cases hact
          exact leaves_of_sends (fun _ _ => hblocks) hsends
      | _ => cases hact
  | reload =>
      cases phase with
      | storedLocal req =>
          cases blocks with
          | nil => cases hact
          | cons b l =>
              cases hact
              exact leaves_of_sends (fun _ _ => hblocks)
                (sends_load (hblocks b (List.mem_cons_self ..)))
      | _ => cases hact

/-- Marking the blocks makes them good for any values. -/
theorem good_outdate (hsends : t.Sends) :
    t.outdate.Good mPtVersion gPtVersion := by
  constructor
  · intro b hb hfresh
    obtain ⟨b', -, rfl⟩ := List.mem_map.mp hb
    cases hfresh
  · intro req hreq hfresh b hb v hv
    rw [Thread.outdate, List.head?_map] at hb
    obtain ⟨b', hb', rfl⟩ := Option.map_eq_some_iff.mp hb
    exact hsends req hreq hfresh b' hb' v hv

/-- The other threads of the client stay good. -/
theorem good_after {c : MmsKvClient} {i : Nat} (hc : c.Good)
    (ho : Leaves c.mPtVersion c.gPtVersion localPtV t a o) :
    (c.after i o).Good := by
  intro t' ht'
  change t' ∈ (if _ then _ else _ : List Thread) at ht'
  show t'.Good o.mPtVersion o.gPtVersion
  split at ht'
  · rename_i hsame
    rcases List.mem_or_eq_of_mem_set ht' with ht' | rfl
    · rw [hsame.1, hsame.2]
      exact hc t' ht'
    · rw [hsame.1, hsame.2]
      exact ⟨ho.blocks hsame.1 hsame.2, ho.sends⟩
  · obtain ⟨t'', ht'', rfl⟩ := List.mem_map.mp ht'
    rcases List.mem_or_eq_of_mem_set ht'' with ht'' | rfl
    · exact good_outdate (hc t'' ht'').sends
    · exact good_outdate ho.sends

/-- **STEP**: a step that does not accept a disturbed request keeps the
    invariant. -/
theorem System.Good.step {s s' : System} {e : Event} (h : s.Good)
    (hguard : Undisturbed s e) (hstep : step s e = some s') : s'.Good := by
  cases e with
  | changeView v =>
      cases hstep
      exact ⟨h.clients, h.applied⟩
  | act i n a =>
      simp only [Versions.step, Option.bind_eq_bind,
        Option.bind_eq_some_iff] at hstep
      obtain ⟨c, hc, t, ht, o, hact, hs'⟩ := hstep
      cases hs'
      have hgood : c.Good := h.clients c (List.mem_of_getElem? hc)
      have htgood := hgood t (List.mem_of_getElem? ht)
      have hleaves := act_leaves htgood hact
      constructor
      · intro c' hc'
        rcases List.mem_or_eq_of_mem_set hc' with hc' | rfl
        · exact h.clients c' hc'
        · exact good_after hgood hleaves
      · intro x hx
        rcases List.mem_append.mp hx with hx | hx
        · exact h.applied x hx
        · obtain ⟨hlocal, num, ret, req, b, rfl, hphase, hb, hptv, hv⟩ :=
            hleaves.applied x hx
          have hreq : s.requestOf i n = some req := by
            simp only [System.requestOf, hc, ht, hphase,
              Option.bind_eq_bind, Option.bind_some]
          have hfresh := hguard (i, n) rfl req hreq hptv
          have hversion := htgood.sends req (by rw [hphase]; rfl) hfresh b hb
            x.version hv
          rw [hversion, hptv, hlocal]

theorem good_initial (ptVersion : UInt64) (threads : List Nat) :
    (initial ptVersion threads).Good := by
  constructor
  · intro c hc t ht
    obtain ⟨n, -, rfl⟩ := List.mem_map.mp hc
    obtain rfl := List.eq_of_mem_replicate ht
    exact ⟨fun _ hb => absurd hb List.not_mem_nil, sends_of_none rfl⟩
  · intro x hx
    exact absurd hx List.not_mem_nil

/-- **RUN**: as long as no request is accepted for a block during which a
    version variable of its client changed, every applied item has the version
    that the server compared. -/
theorem versions_match (ptVersion : UInt64) (threads : List Nat)
    (es : List Event) (s : System)
    (hguard : Along step Undisturbed (initial ptVersion threads) es)
    (hrun : runFrom step (initial ptVersion threads) es = some s) :
    s.Matches := by
  have hgood : s.Good := runFrom_invariant_along
    (fun _ _ _ h hg hs => System.Good.step h hg hs) es _ s
    (good_initial ptVersion threads) hguard hrun
  exact hgood.applied

/-! ## A put at a view change -/

/-- One thread of the only client encodes one item, sends it and is refused. -/
def refusedPut : List Event :=
  [.act 0 0 (.encodeItem true), .act 0 0 .encoded, .act 0 0 .load,
    .act 0 0 (.handle 1 .ok)]

/-- It asks for the version and stores it. -/
def refresh : List Event :=
  [.act 0 0 .ask, .act 0 0 .storeClient, .act 0 0 .storeLocal,
    .act 0 0 .reload]

/-- One thread waits too long and gives up, and its next item is applied. -/
def putAgain : List Event :=
  refusedPut ++ refresh ++ [.act 0 0 (.lose .failed), .act 0 0 .giveUp] ++
    refusedPut

theorem versions_match_put_again :
    Along step Undisturbed (initial 2 [1]) putAgain ∧
      ∃ s, runFrom step (initial 2 [1]) putAgain = some s ∧
        s.applied = [⟨2, 2⟩] ∧ s.Matches := by
  have hguard : Along step Undisturbed (initial 2 [1]) putAgain :=
    along_of_alongB (b := fun s e => decide (Undisturbed s e))
      (fun _ _ h => of_decide_eq_true h) putAgain _ (by decide)
  have hrun : (runFrom step (initial 2 [1]) putAgain).map System.applied
      = some [⟨2, 2⟩] := by decide
  obtain ⟨s, hs, happlied⟩ := Option.map_eq_some_iff.mp hrun
  exact ⟨hguard, s, hs, happlied, versions_match 2 [1] putAgain s hguard hs⟩

/-- The old block is sent again with the new head: the server has compared 2,
    the item has version 1. -/
theorem resent_block_applied :
    ∃ s, runFrom step (initial 2 [1])
        (refusedPut ++ refresh ++ [.act 0 0 (.handle 1 .ok)]) = some s ∧
      s.applied = [⟨2, 1⟩] ∧ ¬ s.Matches := by
  have hrun : (runFrom step (initial 2 [1])
      (refusedPut ++ refresh ++ [.act 0 0 (.handle 1 .ok)])).map
        System.applied = some [⟨2, 1⟩] := by decide
  obtain ⟨s, hs, happlied⟩ := Option.map_eq_some_iff.mp hrun
  refine ⟨s, hs, happlied, ?_⟩
  intro hmatches
  have hbad : (1 : UInt64) = 2 := hmatches ⟨2, 1⟩ (by
    rw [happlied]
    exact List.mem_singleton_self _)
  exact absurd hbad (by decide)

end UbsIo.Client.Versions
