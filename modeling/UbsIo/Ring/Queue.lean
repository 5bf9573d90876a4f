import UbsIo.Lib.Census
import UbsIo.Ring.Deque

/-! # The blocking queue

    `RingBufferBlockingQueue` of `mms_ring_buffer.h`: producers push and then
    post a semaphore, a consumer pops and waits for the semaphore only where
    there was nothing.  A pop that succeeds takes no token, so the semaphore
    may count more than there are items, but never less: a token that is
    missing is still with a producer, or with a consumer on its way to the next
    pop. -/

namespace UbsIo.Ring.Queue

open UbsIo.Lib

variable {α : Type}

/-! ## Model -/

/-- Where a thread is: in no call, behind a push and before its `sem_post`, in
    `sem_wait`, or behind it and before the next pop. -/
inductive Phase where
  | idle
  | posting
  | waiting
  | woken
deriving DecidableEq, Repr

structure RingBufferBlockingQueue (α : Type) where
  mRingBuffer : RingBuffer α
  mSem : Nat
  threads : List Phase

/-- After `Initialize`, with so many threads. -/
def fresh (capacity : UInt32) (ringBuf : Nat → α) (num : Nat) :
    RingBufferBlockingQueue α :=
  ⟨.fresh capacity ringBuf, 0, List.replicate num .idle⟩

/-- What a thread does next: it pushes, posts, pops or gets a token. -/
inductive Action (α : Type) where
  | enqueue (item : α)
  | enqueueFirst (item : α)
  | semPost
  | dequeue
  | semWait

/-- After a push: the call returns `false`, or goes on to `sem_post`. -/
def pushed (q : RingBufferBlockingQueue α) (out : Reply α × RingBuffer α) :
    RingBuffer α × Nat × Phase :=
  (out.2, q.mSem, if out.1.ret then .posting else .idle)

/-- One section of a thread that is in this place. -/
def act (q : RingBufferBlockingQueue α) : Phase → Action α →
    Option (RingBuffer α × Nat × Phase)
  | .idle, .enqueue item => some (pushed q (pushBack q.mRingBuffer item))
  | .idle, .enqueueFirst item =>
      some (pushed q (pushFront q.mRingBuffer item))
  | .posting, .semPost => some (q.mRingBuffer, q.mSem + 1, .idle)
  | .idle, .dequeue =>
      let out := popFront q.mRingBuffer
      some (out.2, q.mSem, if out.1.ret then .idle else .waiting)
  | .woken, .dequeue =>
      let out := popFront q.mRingBuffer
      some (out.2, q.mSem, if out.1.ret then .idle else .waiting)
  | .waiting, .semWait =>
      if q.mSem = 0 then none
      else some (q.mRingBuffer, q.mSem - 1, .woken)
  | _, _ => none

def step (q : RingBufferBlockingQueue α) (e : Nat × Action α) :
    Option (RingBufferBlockingQueue α) :=
  (q.threads[e.1]?).bind fun p => (act q p e.2).map fun out =>
    ⟨out.1, out.2.1, q.threads.set e.1 out.2.2⟩

/-! ## Invariant -/

/-- A thread that has a token or is about to post one. -/
def Phase.hasToken : Phase → Bool
  | .posting => true
  | .woken => true
  | _ => false

/-- The tokens, wherever they are. -/
def tokens (q : RingBufferBlockingQueue α) : Nat :=
  q.mSem + q.threads.countP Phase.hasToken

/-- No item is without a token. -/
structure Inv (q : RingBufferBlockingQueue α) : Prop where
  represents : ∃ xs, Represents q.mRingBuffer xs
  covered : q.mRingBuffer.mCount.toNat ≤ tokens q

theorem Inv.fresh {capacity : UInt32} (hpos : capacity ≠ 0)
    (ringBuf : Nat → α) (num : Nat) : Inv (fresh capacity ringBuf num) :=
  ⟨⟨[], represents_fresh hpos ringBuf⟩, Nat.zero_le _⟩

/-- What a push does to the count: one more, or it returns `false`. -/
theorem push_count {r : RingBuffer α} {xs : List α} (h : Represents r xs)
    (op : Op α) {ys : List α}
    (hdeque : dequeCall r.mCapacity.toNat xs op =
      dequePush r.mCapacity.toNat xs 1 ys) (hys : ys.length = xs.length + 1)
    (hfits : SumFits (r, xs) op) :
    (∃ zs, Represents (call r op).2 zs) ∧
      (call r op).2.mCount.toNat =
        r.mCount.toNat + (call r op).1.ret.toNat := by
  have hagrees := h.agrees hfits
  have hcontents : Represents (call r op).2
      (dequeCall r.mCapacity.toNat xs op).2 := hagrees.contents
  have hreply : (call r op).1 = (dequeCall r.mCapacity.toNat xs op).1 :=
    hagrees.reply
  refine ⟨⟨_, hcontents⟩, ?_⟩
  rw [← hcontents.length, hreply, hdeque, dequePush, ← h.length]
  split
  · exact hys
  · rfl

/-- What a pop does to it: one less, or there was nothing. -/
theorem pop_count {r : RingBuffer α} {xs : List α} (h : Represents r xs) :
    (∃ zs, Represents (popFront r).2 zs) ∧
      ((popFront r).1.ret = true ∧
        (popFront r).2.mCount.toNat + 1 = r.mCount.toNat ∨
      (popFront r).1.ret = false ∧ (popFront r).2.mCount.toNat = 0) := by
  have hagrees := agrees_popFront h
  have hcontents : Represents (popFront r).2
      (dequeCall r.mCapacity.toNat xs .popFront).2 := hagrees.contents
  have hreply : (popFront r).1 =
      (dequeCall r.mCapacity.toNat xs .popFront).1 := hagrees.reply
  refine ⟨⟨_, hcontents⟩, ?_⟩
  rw [← hcontents.length, hreply, dequeCall, ← h.length]
  split
  · rename_i hnil
    exact .inr ⟨rfl, congrArg List.length hnil⟩
  · rename_i hne
    have := List.length_pos_of_ne_nil hne
    refine .inl ⟨rfl, ?_⟩
    show (xs.drop 1).length + 1 = xs.length
    rw [List.length_drop]
    omega

/-- What a section does: the items and the tokens change together. -/
theorem act_spec {q : RingBufferBlockingQueue α} (h : Inv q) {p : Phase}
    {a : Action α} {out : RingBuffer α × Nat × Phase}
    (hact : act q p a = some out) :
    (∃ xs, Represents out.1 xs) ∧
      (out.1.mCount.toNat = 0 ∨
        out.1.mCount.toNat + q.mSem + p.hasToken.toNat ≤
          q.mRingBuffer.mCount.toNat + out.2.1 + out.2.2.hasToken.toNat) := by
  obtain ⟨xs, hxs⟩ := h.represents
  have hpush : ∀ {r : RingBuffer α} {reply : Reply α},
      r.mCount.toNat = q.mRingBuffer.mCount.toNat + reply.ret.toNat →
      r.mCount.toNat + q.mSem + Phase.idle.hasToken.toNat ≤
        q.mRingBuffer.mCount.toNat + q.mSem +
          (if reply.ret then Phase.posting else Phase.idle).hasToken.toNat := by
    intro r reply hcount
    cases hret : reply.ret with
    | false =>
        rw [hret] at hcount
        rw [hcount]
        exact Nat.le_refl _
    | true =>
        rw [hret] at hcount
        show r.mCount.toNat + q.mSem + 0 ≤
          q.mRingBuffer.mCount.toNat + q.mSem + 1
        have hone : true.toNat = 1 := rfl
        omega
  cases p with
  | idle =>
      cases a with
      | enqueue item =>
          cases hact
          obtain ⟨hrep, hcount⟩ := push_count hxs (.pushBack item) rfl
            (List.length_append.trans rfl) trivial
          exact ⟨hrep, .inr (hpush hcount)⟩
      | enqueueFirst item =>
          cases hact
          obtain ⟨hrep, hcount⟩ := push_count hxs (.pushFront item) rfl
            rfl trivial
          exact ⟨hrep, .inr (hpush hcount)⟩
      | dequeue =>
          cases hact
          obtain ⟨hrep, ⟨hret, hcount⟩ | ⟨-, hzero⟩⟩ := pop_count hxs
          · refine ⟨hrep, .inr ?_⟩
            show (popFront q.mRingBuffer).2.mCount.toNat + q.mSem + 0 ≤
              q.mRingBuffer.mCount.toNat + q.mSem + _
            omega
          · exact ⟨hrep, .inl hzero⟩
      | semPost => cases hact
      | semWait => cases hact
  | posting =>
      cases a with
      | semPost =>
          cases hact
          refine ⟨⟨xs, hxs⟩, .inr ?_⟩
          show q.mRingBuffer.mCount.toNat + q.mSem + 1 ≤
            q.mRingBuffer.mCount.toNat + (q.mSem + 1) + 0
          omega
      | _ => cases hact
  | waiting =>
      cases a with
      | semWait =>
          simp only [act] at hact
          split at hact
          · cases hact
          · cases hact
            refine ⟨⟨xs, hxs⟩, .inr ?_⟩
            show q.mRingBuffer.mCount.toNat + q.mSem + 0 ≤
              q.mRingBuffer.mCount.toNat + (q.mSem - 1) + 1
            omega
      | _ => cases hact
  | woken =>
      cases a with
      | dequeue =>
          cases hact
          obtain ⟨hrep, ⟨hret, hcount⟩ | ⟨-, hzero⟩⟩ := pop_count hxs
          · refine ⟨hrep, .inr ?_⟩
            show (popFront q.mRingBuffer).2.mCount.toNat + q.mSem + 1 ≤
              q.mRingBuffer.mCount.toNat + q.mSem + _
            omega
          · exact ⟨hrep, .inl hzero⟩
      | _ => cases hact

/-- **STEP**: every section keeps the invariant. -/
theorem Inv.step {q q' : RingBufferBlockingQueue α} {e : Nat × Action α}
    (h : Inv q) (hs : step q e = some q') : Inv q' := by
  obtain ⟨p, hp, hs⟩ := Option.bind_eq_some_iff.mp hs
  obtain ⟨out, hact, rfl⟩ := Option.map_eq_some_iff.mp hs
  obtain ⟨hrep, hcount⟩ := act_spec h hact
  refine ⟨hrep, ?_⟩
  show out.1.mCount.toNat ≤
    out.2.1 + (q.threads.set e.1 out.2.2).countP Phase.hasToken
  have hmoved := countP_set_add (f := Phase.hasToken) (b := out.2.2) hp
  have hcovered := h.covered
  rw [tokens] at hcovered
  omega

/-- A consumer sits in `sem_wait`, no token is there, no producer is between
    its push and its `sem_post`, and no consumer between `sem_wait` and its next
    pop. -/
def Stuck (q : RingBufferBlockingQueue α) : Prop :=
  .waiting ∈ q.threads ∧ q.mSem = 0 ∧ .posting ∉ q.threads ∧
    .woken ∉ q.threads

instance (q : RingBufferBlockingQueue α) : Decidable (Stuck q) :=
  inferInstanceAs (Decidable (_ ∧ _ ∧ _ ∧ _))

theorem Inv.empty {q : RingBufferBlockingQueue α} (h : Inv q)
    (hstuck : Stuck q) : q.mRingBuffer.mCount = 0 := by
  obtain ⟨-, hsem, hposting, hwoken⟩ := hstuck
  have hnone : q.threads.countP Phase.hasToken = 0 := by
    rw [List.countP_eq_zero]
    intro p hp
    cases p with
    | posting => exact absurd hp hposting
    | woken => exact absurd hp hwoken
    | idle => exact Bool.false_ne_true
    | waiting => exact Bool.false_ne_true
  have hcovered := h.covered
  rw [tokens, hsem, hnone] at hcovered
  exact UInt32.toNat_inj.mp (Nat.le_zero.mp hcovered)

/-! ## Results -/

/-- **RING BUFFER**: in every run of calls the buffer agrees with the bounded
    deque exactly as long as no sum in a test for room wraps; and in every run
    of the blocking queue a consumer that is stuck has nothing to take. -/
theorem ringBuffer_iff (capacity : UInt32) (hpos : capacity ≠ 0)
    (ringBuf : Nat → α) :
    (∀ ops : List (Op α),
      Along Ring.step Agrees (RingBuffer.fresh capacity ringBuf, []) ops ↔
        Along Ring.step SumFits (RingBuffer.fresh capacity ringBuf, [])
          ops) ∧
    ∀ (num : Nat) (es : List (Nat × Action α)) (q : RingBufferBlockingQueue α),
      runFrom step (fresh capacity ringBuf num) es = some q →
      Stuck q → q.mRingBuffer.mCount = 0 := by
  refine ⟨agrees_iff_sumFits hpos ringBuf, ?_⟩
  intro num es q hrun hstuck
  have hinv : Inv q := runFrom_invariant (fun _ _ _ hI hs => hI.step hs)
    (Inv.fresh hpos ringBuf num) hrun
  exact hinv.empty hstuck

/-- A buffer of two, filled and emptied at both ends. -/
def bothEnds : List (Op Nat) :=
  [.pushBack 7, .pushFront 8, .popFrontNFlex 5, .pushFrontN ⟨[1, 2], by decide⟩]

/-- The consumer waits, is woken, pops and waits again; the token of a producer
    whose item was there in time is left over. -/
def stuckConsumer : List (Nat × Action Nat) :=
  [(0, .dequeue), (1, .enqueue 7), (1, .semPost), (0, .semWait),
    (0, .dequeue), (0, .dequeue)]

theorem ringBuffer_iff_capacity_two :
    (2 : UInt32) ≠ 0 ∧
    Along Ring.step Agrees (RingBuffer.fresh 2 fun _ => 0, []) bothEnds ∧
    ∃ q, runFrom step (fresh 2 (fun _ => 0) 2) stuckConsumer = some q ∧
      Stuck q ∧ q.mRingBuffer.mCount = 0 := by
  obtain ⟨hdeque, hqueue⟩ :=
    ringBuffer_iff 2 (by decide) (fun _ => (0 : Nat))
  refine ⟨by decide, (hdeque bothEnds).mpr ?_, ?_⟩
  · refine ⟨trivial, fun p₁ h₁ => ⟨trivial, fun p₂ h₂ => ⟨trivial,
      fun p₃ h₃ => ⟨?_, fun p₄ _ => trivial⟩⟩⟩⟩
    cases h₁
    cases h₂
    cases h₃
    decide
  · have hrun : (runFrom step (fresh 2 (fun _ => 0) 2) stuckConsumer).any
        (fun q => Stuck q) = true := by
      decide +kernel
    obtain ⟨q, hq, hstuck⟩ := (Option.any_eq_true _ _).mp hrun
    exact ⟨q, hq, of_decide_eq_true hstuck,
      hqueue 2 stuckConsumer q hq (of_decide_eq_true hstuck)⟩

/-- As many items as 32 bits can count. -/
def hugePush : Items Nat :=
  ⟨List.replicate (2 ^ 32 - 1) 0, by
    rw [List.length_replicate]
    decide⟩

/-- A buffer of one cell that holds an item accepts them all. -/
theorem huge_push_accepted :
    (call (call (RingBuffer.fresh 1 fun _ => 0) (.pushBack 7)).2
      (.pushBackN hugePush)).1 = .pushed true ∧
    ¬ Along Ring.step Agrees (RingBuffer.fresh 1 fun _ => 0, [])
      [.pushBack 7, .pushBackN hugePush] := by
  have hfresh : Represents (RingBuffer.fresh 1 fun _ => 0) [] :=
    represents_fresh (by decide) fun _ => 0
  have hfirst : Agrees (RingBuffer.fresh 1 fun _ => 0, []) (.pushBack 7) :=
    hfresh.agrees trivial
  obtain ⟨hreply, hnot⟩ := pushBackN_wraps hfirst.contents hugePush (by
    rw [show hugePush.list.length = 2 ^ 32 - 1 from List.length_replicate]
    decide)
  refine ⟨hreply, ?_⟩
  rintro ⟨-, hrest⟩
  exact hnot (hrest _ rfl).1

end UbsIo.Ring.Queue
