import UbsIo.Flows.Model

/-! # The steps of a flow

    `Trans` lists what a step can do, with what the thread has found out when
    it does it; the proofs about flows go by its cases.

    `mPreLoadFlag` is handed from thread to thread: the one that sets it in
    `PreLoadSchedule` passes it on with the task, and the worker that takes the
    task clears it in its last `HoldClean`.  `Held` says who has it. -/

namespace UbsIo.Flows

open UbsIo.Lib

variable {ι : Type} [DecidableEq ι] {d : Dims} {s s' : Flow ι} {t u : ι}

/-! ## What a step can do -/

/-- Steps to the end of a call which change nothing else. -/
def Phase.mayLeave : Phase → Bool
  | .validate _ => true
  | .build _ => true
  | .truncPreLoad _ => true
  | .truncWriten _ => true
  | .truncate _ => true
  | .free [] => true
  | _ => false

/-- Checks that let a call go on. -/
inductive Advance (s : Flow ι) : Phase → Phase → Prop where
  | valid (r : Range) (hoff : s.truncateOffset ≤ r.offset)
      (hneed : r.needOffset < 2 ^ 64) :
      Advance s (.validate r) (.compare r)
  | ahead (r : Range) (h : s.preLoadOffset < r.needOffset) :
      Advance s (.compare r) (.hold r)
  | loaded (r : Range) : Advance s (.compare r) (.written r)
  | truncPreLoad (offset : Nat) (h : offset ≤ s.preLoadOffset) :
      Advance s (.truncPreLoad offset) (.truncWriten offset)
  | truncWriten (offset : Nat) :
      Advance s (.truncWriten offset) (.truncate offset)

/-- The registration of a waiter. -/
def register (s : Flow ι) (t : ι) (r : Range) : Flow ι :=
  Flow.goto
    { s with
      writenOffset := max s.writenOffset r.needOffset
      holdList := s.holdList ++ [(t, r.needOffset)]
      posted := Function.update s.posted t none }
    t (.check (.holdWait r))

/-- The result of the locked section of `TruncateOffset`. -/
def truncated (d : Dims) (s : Flow ι) (offset : Nat) : List Nat × List Nat :=
  truncateFrom d.chunkSize offset
    (s.truncateOffset / d.chunkSize * d.chunkSize) s.chunkList

/-- The flow after a chunk has been pushed. -/
def pushed (d : Dims) (s : Flow ι) (chunkId : Nat) : Flow ι :=
  { s with
    chunkList := s.chunkList ++ [chunkId]
    preLoadOffset := wrap64 (s.preLoadOffset + d.chunkSize) }

inductive Trans (d : Dims) (s : Flow ι) : Event ι → Flow ι → Prop where
  | call (t : ι) (r : Range) (h : s.threads t = .idle) :
      Trans d s (.getAddrByOffset t r) (s.goto t (.validate r))
  | truncCall (t : ι) (offset : Nat) (h : s.threads t = .idle) :
      Trans d s (.truncateOffset t offset) (s.goto t (.truncPreLoad offset))
  | leave (t : ι) (h : (s.threads t).mayLeave = true) :
      Trans d s (.go t) (s.goto t .idle)
  | advance (t : ι) (p : Phase) (h : Advance s (s.threads t) p) :
      Trans d s (.go t) (s.goto t p)
  | holdLoaded (t : ι) (r : Range) (h : s.threads t = .hold r) :
      Trans d s (.go t) (Flow.goto
        { s with writenOffset := max s.writenOffset r.needOffset }
        t (.written r))
  | register (t : ι) (r : Range) (h : s.threads t = .hold r)
      (hneed : s.preLoadOffset < r.needOffset) :
      Trans d s (.go t) (register s t r)
  | ready (t : ι) (k : Caller) (h : s.threads t = .check k)
      (hready : isReady d s = true) :
      Trans d s (.go t) (s.goto t k.next)
  | notReady (t : ι) (k : Caller) (h : s.threads t = .check k) :
      Trans d s (.go t) (s.goto t (.flag k))
  | busy (t : ι) (k : Caller) (h : s.threads t = .flag k)
      (hflag : s.preLoadFlag = true) :
      Trans d s (.go t) (s.goto t k.next)
  | take (t : ι) (k : Caller) (h : s.threads t = .flag k)
      (hflag : s.preLoadFlag = false) :
      Trans d s (.go t)
        (Flow.goto { s with preLoadFlag := true } t (.submit k))
  | woken (t : ι) (r : Range) (p : Phase) (h : s.threads t = .wait r)
      (hpost : s.posted t ≠ none) (hp : p = .written r ∨ p = .idle) :
      Trans d s (.go t) (Flow.goto
        { s with posted := Function.update s.posted t none } t p)
  | written (t : ι) (r : Range) (h : s.threads t = .written r) :
      Trans d s (.go t) (Flow.goto
        { s with writenOffset := max s.writenOffset r.needOffset }
        t (.build r))
  | built (t : ι) (r : Range) (flowAddr : List FlowAddr)
      (h : s.threads t = .build r)
      (hbuild : buildFlowAddrs d s.chunkList s.truncateOffset r =
        some flowAddr) :
      Trans d s (.go t) (Flow.goto
        { s with answers := s.answers ++ [(r, flowAddr)] }
        t (.check .getAddr))
  | truncated (t : ι) (offset : Nat) (h : s.threads t = .truncate offset)
      (hlt : s.truncateOffset < offset) :
      Trans d s (.go t) (Flow.goto
        { s with
          chunkList := (truncated d s offset).2
          truncateOffset := offset }
        t (.free (truncated d s offset).1))
  | freed (t : ι) (chunkId : Nat) (cleanList : List Nat)
      (h : s.threads t = .free (chunkId :: cleanList)) :
      Trans d s (.go t) (Flow.goto
        { s with media := s.media.filter fun e => decide (e.2 ≠ chunkId) }
        t (.free cleanList))
  | start (t : ι) (h : s.threads t = .idle) (hq : 0 < s.queued) :
      Trans d s (.start t)
        (Flow.goto { s with queued := s.queued - 1 } t .load)
  | load (t : ι) (h : s.threads t = .load) :
      Trans d s (.go t) (s.goto t (.alloc s.preLoadOffset))
  | allocated (t : ι) (offset chunkId : Nat)
      (h : s.threads t = .alloc offset)
      (hfresh : chunkId ∉ s.media.map Prod.snd) :
      Trans d s (.mediaAlloc t (some chunkId)) (Flow.goto
        { s with
          media := s.media ++ [(offset, chunkId)]
          log := s.log ++ [(offset, chunkId)] }
        t (.push chunkId))
  | allocFailed (t : ι) (offset : Nat) (h : s.threads t = .alloc offset) :
      Trans d s (.mediaAlloc t none) (s.goto t .cleanAll)
  | pushed (t : ι) (chunkId : Nat) (h : s.threads t = .push chunkId) :
      Trans d s (.go t) ((pushed d s chunkId).goto t
        (.clean (pushed d s chunkId).preLoadOffset
          (isReady d (pushed d s chunkId))))
  | cleaned (t : ι) (offset : Nat) (isReady : Bool)
      (h : s.threads t = .clean offset isReady) :
      Trans d s (.go t) ((holdClean s offset .ok (!isReady)).goto t
        (if isReady then .idle else .load))
  | cleanedAll (t : ι) (h : s.threads t = .cleanAll) :
      Trans d s (.go t)
        ((holdClean s noMaxValue64 .innerRetry false).goto t .idle)
  | submitted (t : ι) (k : Caller) (h : s.threads t = .submit k) :
      Trans d s (.preLoadObject t true)
        (Flow.goto { s with queued := s.queued + 1 } t k.next)
  | submitFailed (t : ι) (k : Caller) (h : s.threads t = .submit k) :
      Trans d s (.preLoadObject t false)
        (Flow.goto { s with preLoadFlag := false } t k.next)

theorem trans_of_resume {p : Phase} (hp : s.threads t = p)
    (h : resume d s t p = some s') : Trans d s (.go t) s' := by
  cases p with
  | idle => exact nomatch h
  | validate r =>
      rw [resume] at h
      split at h
      · cases h
        exact .leave t (by rw [hp]; rfl)
      · rename_i hok
        cases h
        refine .advance t _ ?_
        rw [hp]
        refine .valid r (by omega) ?_
        have hoff := r.offset_lt
        rw [Range.needOffset]
        omega
  | compare r =>
      rw [resume] at h
      split at h
      · rename_i hlt
        cases h
        exact .advance t _ (by rw [hp]; exact .ahead r hlt)
      · cases h
        exact .advance t _ (by rw [hp]; exact .loaded r)
  | hold r =>
      simp only [resume] at h
      split at h
      · cases h
        exact .holdLoaded t r hp
      · rename_i hlt
        cases h
        exact .register t r hp (Nat.lt_of_not_le hlt)
  | check k =>
      rw [resume] at h
      split at h
      · rename_i hready
        cases h
        exact .ready t k hp hready
      · cases h
        exact .notReady t k hp
  | flag k =>
      rw [resume] at h
      split at h
      · rename_i hflag
        cases h
        exact .busy t k hp hflag
      · rename_i hflag
        cases h
        exact .take t k hp (Bool.eq_false_iff.mpr hflag)
  | submit k => exact nomatch h
  | wait r =>
      rw [resume] at h
      split at h
      · exact nomatch h
      · rename_i hpost
        cases h
        exact .woken t r _ hp (by rw [hpost]; exact nofun) (Or.inl rfl)
      · rename_i ret _ hpost
        cases h
        exact .woken t r _ hp (by rw [hpost]; exact nofun) (Or.inr rfl)
  | written r =>
      cases h
      exact .written t r hp
  | build r =>
      rw [resume] at h
      split at h
      · cases h
        exact .leave t (by rw [hp]; rfl)
      · rename_i flowAddr hbuild
        cases h
        exact .built t r flowAddr hp hbuild
  | truncPreLoad offset =>
      rw [resume] at h
      split at h
      · cases h
        exact .leave t (by rw [hp]; rfl)
      · rename_i hle
        cases h
        exact .advance t _ (by
          rw [hp]
          exact .truncPreLoad offset (Nat.le_of_not_lt hle))
  | truncWriten offset =>
      rw [resume] at h
      split at h
      · cases h
        exact .leave t (by rw [hp]; rfl)
      · cases h
        exact .advance t _ (by rw [hp]; exact .truncWriten offset)
  | truncate offset =>
      rw [resume] at h
      split at h
      · cases h
        exact .leave t (by rw [hp]; rfl)
      · rename_i hle
        cases h
        exact .truncated t offset hp (Nat.lt_of_not_le hle)
  | free cleanList =>
      cases cleanList with
      | nil =>
          cases h
          exact .leave t (by rw [hp]; rfl)
      | cons chunkId cleanList =>
          cases h
          exact .freed t chunkId cleanList hp
  | load =>
      cases h
      exact .load t hp
  | alloc offset => exact nomatch h
  | push chunkId =>
      cases h
      exact .pushed t chunkId hp
  | clean offset isReady =>
      cases h
      exact .cleaned t offset isReady hp
  | cleanAll =>
      cases h
      exact .cleanedAll t hp

/-- **INVERSION** of a step. -/
theorem trans_of_step {e : Event ι} (h : step d s e = some s') :
    Trans d s e s' := by
  cases e with
  | getAddrByOffset t r =>
      rw [step] at h
      split at h
      · rename_i hp
        cases h
        exact .call t r hp
      · exact nomatch h
  | truncateOffset t offset =>
      rw [step] at h
      split at h
      · rename_i hp
        cases h
        exact .truncCall t offset hp
      · exact nomatch h
  | start t =>
      rw [step] at h
      split at h
      · rename_i hp
        cases h
        exact .start t hp.1 hp.2
      · exact nomatch h
  | go t => exact trans_of_resume rfl h
  | mediaAlloc t result =>
      simp only [step] at h
      split at h
      · rename_i offset chunkId hp
        split at h
        · exact nomatch h
        · rename_i hfresh
          cases h
          exact .allocated t offset chunkId hp hfresh
      · rename_i offset hp
        cases h
        exact .allocFailed t offset hp
      · exact nomatch h
  | preLoadObject t ok =>
      rw [step] at h
      split at h
      · rename_i k hp
        cases ok with
        | true =>
            cases h
            exact .submitted t k hp
        | false =>
            cases h
            exact .submitFailed t k hp
      · exact nomatch h

/-! ## Who has the flag -/

/-- The thread has `mPreLoadFlag`: it is handing the task over, or works on
    it. -/
def Phase.owns : Phase → Bool
  | .submit _ => true
  | .load => true
  | .alloc _ => true
  | .push _ => true
  | .clean _ _ => true
  | .cleanAll => true
  | _ => false

/-- The thread is in `PreLoadHandle`. -/
def Phase.handles : Phase → Bool
  | .submit _ => false
  | p => p.owns

theorem handles_owns {p : Phase} (hp : p.handles = true) : p.owns = true := by
  cases p with
  | submit k => exact nomatch hp
  | _ => exact hp

@[simp] theorem goto_threads_self (s : Flow ι) (t : ι) (p : Phase) :
    (s.goto t p).threads t = p :=
  Function.update_self ..

theorem goto_threads_ne (s : Flow ι) {t u : ι} (p : Phase) (h : u ≠ t) :
    (s.goto t p).threads u = s.threads u :=
  Function.update_of_ne h ..

theorem next_owns (k : Caller) : k.next.owns = false := by
  cases k with
  | holdWait r => rfl
  | getAddr => rfl

/-- The flag is free, lies in the queue with the task, or is with a thread. -/
def Held (s : Flow ι) : Option (Option ι) → Prop
  | none => s.preLoadFlag = false ∧ s.queued = 0 ∧
      ∀ u, (s.threads u).owns = false
  | some none => s.preLoadFlag = true ∧ s.queued = 1 ∧
      ∀ u, (s.threads u).owns = false
  | some (some t) => s.preLoadFlag = true ∧ s.queued = 0 ∧
      ∀ u, (s.threads u).owns = true ↔ u = t

variable {h : Option (Option ι)}

omit [DecidableEq ι] in
theorem Held.of_owns (hh : Held s h) (ht : (s.threads t).owns = true) :
    h = some (some t) := by
  match h, hh with
  | none, hh => exact absurd (hh.2.2 t) (by rw [ht]; exact Bool.noConfusion)
  | some none, hh =>
      exact absurd (hh.2.2 t) (by rw [ht]; exact Bool.noConfusion)
  | some (some u), hh => rw [(hh.2.2 t).mp ht]

omit [DecidableEq ι] in
theorem Held.of_flag (hh : Held s h) (hflag : s.preLoadFlag = false) :
    h = none := by
  match h, hh with
  | none, _ => rfl
  | some none, hh => exact absurd hh.1 (by rw [hflag]; exact Bool.noConfusion)
  | some (some u), hh =>
      exact absurd hh.1 (by rw [hflag]; exact Bool.noConfusion)

omit [DecidableEq ι] in
theorem Held.of_queued (hh : Held s h) (hq : 0 < s.queued) :
    h = some none := by
  match h, hh with
  | none, hh => exact absurd hh.2.1 (Nat.ne_of_gt hq)
  | some none, _ => rfl
  | some (some u), hh => exact absurd hh.2.1 (Nat.ne_of_gt hq)

/-- A step that takes the flag neither from nor to a thread. -/
theorem Held.keep {p : Phase} (hh : Held s h)
    (hflag : s'.preLoadFlag = s.preLoadFlag) (hq : s'.queued = s.queued)
    (hthreads : s'.threads = Function.update s.threads t p)
    (hp : p.owns = (s.threads t).owns) : Held s' h := by
  have howns : ∀ u, (s'.threads u).owns = (s.threads u).owns := by
    intro u
    rw [hthreads]
    by_cases hu : u = t
    · rw [hu, Function.update_self]
      exact hp
    · rw [Function.update_of_ne hu]
  match h, hh with
  | none, hh =>
      exact ⟨hflag.trans hh.1, hq.trans hh.2.1,
        fun u => (howns u).trans (hh.2.2 u)⟩
  | some none, hh =>
      exact ⟨hflag.trans hh.1, hq.trans hh.2.1,
        fun u => (howns u).trans (hh.2.2 u)⟩
  | some (some u), hh =>
      refine ⟨hflag.trans hh.1, hq.trans hh.2.1, fun v => ?_⟩
      rw [howns]
      exact hh.2.2 v

/-- A thread that gives the flag away leaves none with it. -/
theorem Held.given {p : Phase} (hh : Held s (some (some t)))
    (hp : p.owns = false) :
    ∀ u, ((Function.update s.threads t p) u).owns = false := by
  intro u
  by_cases hu : u = t
  · rw [hu, Function.update_self]
    exact hp
  · rw [Function.update_of_ne hu]
    exact Bool.eq_false_iff.mpr fun h' => hu ((hh.2.2 u).mp h')

/-- A thread that gets the flag is the only one with it. -/
theorem owns_given {p : Phase} (hno : ∀ u, (s.threads u).owns = false)
    (hp : p.owns = true) :
    ∀ u, ((Function.update s.threads t p) u).owns = true ↔ u = t := by
  intro u
  by_cases hu : u = t
  · rw [hu, Function.update_self]
    exact ⟨fun _ => rfl, fun _ => hp⟩
  · rw [Function.update_of_ne hu, hno u]
    exact ⟨Bool.noConfusion, fun h' => absurd h' hu⟩

omit [DecidableEq ι] in
theorem Advance.not_owns {p q : Phase} (h : Advance s p q) :
    p.owns = false ∧ q.owns = false := by
  cases h with
  | valid r _ _ => exact ⟨rfl, rfl⟩
  | ahead r _ => exact ⟨rfl, rfl⟩
  | loaded r => exact ⟨rfl, rfl⟩
  | truncPreLoad offset _ => exact ⟨rfl, rfl⟩
  | truncWriten offset => exact ⟨rfl, rfl⟩

theorem mayLeave_not_owns {p : Phase} (h : p.mayLeave = true) :
    p.owns = false := by
  cases p with
  | idle => exact nomatch h
  | check k => rfl
  | flag k => rfl
  | submit k => exact nomatch h
  | load => exact nomatch h
  | alloc offset => exact nomatch h
  | push chunkId => exact nomatch h
  | clean offset isReady => exact nomatch h
  | cleanAll => exact nomatch h
  | _ => rfl

/-- Who has the flag after a step. -/
theorem held_trans {e : Event ι} (hh : Held s h) (ht : Trans d s e s') :
    ∃ h', Held s' h' := by
  cases ht with
  | call t r hp => exact ⟨h, hh.keep rfl rfl rfl (by rw [hp]; rfl)⟩
  | truncCall t offset hp => exact ⟨h, hh.keep rfl rfl rfl (by rw [hp]; rfl)⟩
  | leave t hp =>
      exact ⟨h, hh.keep rfl rfl rfl (by rw [mayLeave_not_owns hp]; rfl)⟩
  | advance t p hp =>
      exact ⟨h, hh.keep rfl rfl rfl (by
        rw [hp.not_owns.1, hp.not_owns.2])⟩
  | holdLoaded t r hp => exact ⟨h, hh.keep rfl rfl rfl (by rw [hp]; rfl)⟩
  | register t r hp hneed => exact ⟨h, hh.keep rfl rfl rfl (by rw [hp]; rfl)⟩
  | ready t k hp hready =>
      exact ⟨h, hh.keep rfl rfl rfl (by rw [hp, next_owns]; rfl)⟩
  | notReady t k hp => exact ⟨h, hh.keep rfl rfl rfl (by rw [hp]; rfl)⟩
  | busy t k hp hflag =>
      exact ⟨h, hh.keep rfl rfl rfl (by rw [hp, next_owns]; rfl)⟩
  | take t k hp hflag =>
      rw [hh.of_flag hflag] at hh
      exact ⟨some (some t), rfl, hh.2.1, owns_given hh.2.2 rfl⟩
  | woken t r p hp hpost hp' =>
      refine ⟨h, hh.keep rfl rfl rfl ?_⟩
      rcases hp' with rfl | rfl
      · rw [hp]
        rfl
      · rw [hp]
        rfl
  | written t r hp => exact ⟨h, hh.keep rfl rfl rfl (by rw [hp]; rfl)⟩
  | built t r flowAddr hp hbuild =>
      exact ⟨h, hh.keep rfl rfl rfl (by rw [hp]; rfl)⟩
  | truncated t offset hp hlt =>
      exact ⟨h, hh.keep rfl rfl rfl (by rw [hp]; rfl)⟩
  | freed t chunkId cleanList hp =>
      exact ⟨h, hh.keep rfl rfl rfl (by rw [hp]; rfl)⟩
  | start t hp hq =>
      rw [hh.of_queued hq] at hh
      exact ⟨some (some t), hh.1, by
        show s.queued - 1 = 0
        rw [hh.2.1], owns_given hh.2.2 rfl⟩
  | load t hp => exact ⟨h, hh.keep rfl rfl rfl (by rw [hp]; rfl)⟩
  | allocated t offset chunkId hp hfresh =>
      exact ⟨h, hh.keep rfl rfl rfl (by rw [hp]; rfl)⟩
  | allocFailed t offset hp =>
      exact ⟨h, hh.keep rfl rfl rfl (by rw [hp]; rfl)⟩
  | pushed t chunkId hp => exact ⟨h, hh.keep rfl rfl rfl (by rw [hp]; rfl)⟩
  | cleaned t offset isReady hp =>
      have hmine := hh.of_owns (t := t) (by rw [hp]; rfl)
      rw [hmine] at hh
      cases isReady with
      | true => exact ⟨none, rfl, hh.2.1, hh.given rfl⟩
      | false =>
          exact ⟨some (some t), hh.keep (by
            rw [hh.1]
            rfl) rfl rfl (by rw [hp]; rfl)⟩
  | cleanedAll t hp =>
      have hmine := hh.of_owns (t := t) (by rw [hp]; rfl)
      rw [hmine] at hh
      exact ⟨none, rfl, hh.2.1, hh.given rfl⟩
  | submitted t k hp =>
      have hmine := hh.of_owns (t := t) (by rw [hp]; rfl)
      rw [hmine] at hh
      exact ⟨some none, hh.1, by
        show s.queued + 1 = 1
        rw [hh.2.1], hh.given (next_owns k)⟩
  | submitFailed t k hp =>
      have hmine := hh.of_owns (t := t) (by rw [hp]; rfl)
      rw [hmine] at hh
      exact ⟨none, rfl, hh.2.1, hh.given (next_owns k)⟩

omit [DecidableEq ι] in
theorem held_init : Held (Flow.init ι) none :=
  ⟨rfl, rfl, fun _ => rfl⟩

end UbsIo.Flows
