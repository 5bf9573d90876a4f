import UbsIo.Evict.Model
import UbsIo.Lib.Census

/-! # The flag as a token

    `mEvictRef[type]` is set for as long as somebody has to do with an eviction
    of this type: a call of `StartEvictTask` that has set it, a task in the
    queue of the thread pool, a running task, an entry in `mRetryManager`, or
    `RetryEvictThread` with an entry it has moved out.  These are the holders
    of the token; each step hands it on or clears the flag.

    Two steps do not.  A disk task returns when `mLocRole` fails, with the flag
    set and no retry registered.  `StartEvictTask` clears the flag when it finds
    that the disk is not normal, also while somebody else holds the token. -/

namespace UbsIo.Evict

open UbsIo.Lib

/-! ## Holders -/

/-- A call that has set the flag. -/
def CallerPhase.holding : CallerPhase → Bool
  | .execute => true
  | .undo => true
  | _ => false

/-- The entries of this flow that `RetryEvictThread` has moved out. -/
def RetryPhase.held : RetryPhase → Nat
  | .take => 0
  | .next rest => rest
  | .isEmpty rest => rest + 1
  | .status rest => rest + 1
  | .execute rest => rest + 1
  | .store rest => rest + 1

/-- The tasks that are queued or running. -/
def Tier.evictTasks (t : Tier) : Nat := t.queued + t.running.length

/-- The holders that are on the way from one place to the other: a call of
    `StartEvictTask` before its task is queued, `RetryEvictThread` after it has
    moved the entry out. -/
def Tier.handedOver (t : Tier) : Nat :=
  t.callers.countP CallerPhase.holding + t.retry.held

def Tier.holders (t : Tier) : Nat :=
  t.evictTasks + t.retryManager + t.handedOver

/-- The flag is set if there is exactly one holder, and clear if there is
    none; there are no other cases. -/
def Tier.Token (t : Tier) : Prop := t.holders = t.evictRef.toNat

/-- The steps of a tier that keep the token: `mLocRole` succeeds, and nobody
    holds the token when `StartEvictTask` breaks the task. -/
def tierKeeps (t : Tier) : TierEvent → Prop
  | .task _ (.locRole ret _) => ret = .ok
  | .caller i _ => t.callers[i]? = some .breakTask → t.evictRef = false
  | _ => True

/-- What a step does to the flag and the holders. -/
inductive Effect (t : Tier) (e : TierEvent) (t' : Tier) : Prop
  | quiet (hkeeps : tierKeeps t e) (hflag : t'.evictRef = t.evictRef)
      (hholders : t'.holders = t.holders)
  | take (hkeeps : tierKeeps t e) (hclear : t.evictRef = false)
      (hflag : t'.evictRef = true) (hholders : t'.holders = t.holders + 1)
  | clear (hkeeps : tierKeeps t e) (hflag : t'.evictRef = false)
      (hholders : t.holders = t'.holders + 1)
  | leak (hkeeps : ¬ tierKeeps t e) (hflag : t'.evictRef = t.evictRef)
      (hholders : t.holders = t'.holders + 1)
  | breakTask (hkeeps : tierKeeps t e ↔ t.evictRef = false)
      (hflag : t'.evictRef = false) (hholders : t'.holders = t.holders)

/-- The flag says the number of holders after a step exactly if the step keeps
    the token. -/
theorem Effect.token {t t' : Tier} {e : TierEvent} (h : Effect t e t')
    (ht : t.Token) : t'.Token ↔ tierKeeps t e := by
  unfold Tier.Token at ht ⊢
  cases h with
  | quiet hkeeps hflag hholders =>
      rw [hflag, hholders]
      exact ⟨fun _ => hkeeps, fun _ => ht⟩
  | take hkeeps hclear hflag hholders =>
      rw [hclear] at ht
      rw [hflag, hholders, ht]
      exact ⟨fun _ => hkeeps, fun _ => rfl⟩
  | clear hkeeps hflag hholders =>
      have hle : t.holders ≤ 1 := ht ▸ Bool.toNat_le t.evictRef
      rw [hflag]
      refine ⟨fun _ => hkeeps, fun _ => ?_⟩
      show t'.holders = 0
      omega
  | leak hkeeps hflag hholders =>
      rw [hflag, ← ht]
      refine ⟨fun h => ?_, fun h => absurd h hkeeps⟩
      omega
  | breakTask hkeeps hflag hholders =>
      rw [hflag, hholders, ht, hkeeps]
      cases t.evictRef <;> simp

/-- The holders after a call of `StartEvictTask` has gone on. -/
theorem holders_setCaller {t : Tier} {i : Nat} {p : CallerPhase}
    {p' : Option CallerPhase} (h : t.callers[i]? = some p) :
    (setCaller i (t, p')).holders + p.holding.toNat =
      t.holders + (p'.any CallerPhase.holding).toNat := by
  cases p' with
  | none =>
      have hcount := countP_eraseIdx_add (f := CallerPhase.holding) h
      simp only [setCaller, Tier.holders, Tier.evictTasks, Tier.handedOver,
        Option.any_none, Bool.toNat_false]
      omega
  | some q =>
      have hcount := countP_set_add (f := CallerPhase.holding) (b := q) h
      simp only [setCaller, Tier.holders, Tier.evictTasks, Tier.handedOver,
        Option.any_some]
      omega

/-- The holders after a task has gone on. -/
theorem holders_setTask {t : Tier} {i : Nat} {k : Task} {k' : Option Task}
    (h : t.running[i]? = some k) :
    (setTask i (t, k')).holders + 1 = t.holders + k'.isSome.toNat := by
  have hlt : i < t.running.length := (List.getElem?_eq_some_iff.mp h).1
  cases k' with
  | none =>
      have hlen : (t.running.eraseIdx i).length + 1 = t.running.length :=
        List.length_eraseIdx_add_one hlt
      simp only [setTask, Tier.holders, Tier.evictTasks, Tier.handedOver,
        Option.isSome_none, Bool.toNat_false]
      omega
  | some k' =>
      simp only [setTask, Tier.holders, Tier.evictTasks, Tier.handedOver,
        List.length_set, Option.isSome_some, Bool.toNat_true]

@[simp] theorem setCaller_evictRef (i : Nat) (x : Tier × Option CallerPhase) :
    (setCaller i x).evictRef = x.1.evictRef := by
  obtain ⟨t, p⟩ := x
  cases p <;> rfl

@[simp] theorem setTask_evictRef (i : Nat) (x : Tier × Option Task) :
    (setTask i x).evictRef = x.1.evictRef := by
  obtain ⟨t, k⟩ := x
  cases k <;> rfl

/-! ## The effect of a step -/

/-- A call of `StartEvictTask` goes on. -/
theorem effect_caller {c : Shared} {t : Tier} {i : Nat} {p : CallerPhase}
    {e : CallerEvent} {x : Tier × Option CallerPhase}
    (hp : t.callers[i]? = some p) (h : callerStep c t p e = some x) :
    Effect t (.caller i e) (setCaller i x) := by
  obtain ⟨t₁, p'⟩ := x
  have hset : ∀ {u : Tier} {q : Option CallerPhase},
      u.callers = t.callers →
        (setCaller i (u, q)).holders + p.holding.toNat =
          u.holders + (q.any CallerPhase.holding).toNat :=
    fun heq => holders_setCaller (heq ▸ hp)
  have hkeeps : p ≠ .breakTask → tierKeeps t (.caller i e) := by
    intro hne hbreak
    rw [hp, Option.some.injEq] at hbreak
    exact absurd hbreak hne
  cases p with
  | status =>
      cases e with
      | go =>
          obtain ⟨rfl, rfl⟩ := Prod.mk.inj (Option.some.inj h)
          refine .quiet (hkeeps nofun) (setCaller_evictRef ..) ?_
          have hq := hset (q := some (if c.isNormal then .exchange
            else .breakTask)) rfl
          cases hn : c.isNormal <;> rw [hn] at hq <;> exact hq
      | exchange spurious => cases h
      | execute isSucceed => cases h
  | breakTask =>
      cases e with
      | go =>
          obtain ⟨rfl, rfl⟩ := Prod.mk.inj (Option.some.inj h)
          refine .breakTask ?_ (setCaller_evictRef ..) (hset rfl)
          exact ⟨fun h => h hp, fun h _ => h⟩
      | exchange spurious => cases h
      | execute isSucceed => cases h
  | exchange =>
      cases e with
      | go => cases h
      | exchange spurious =>
          by_cases hfail : (t.evictRef || spurious) = true
          · simp only [callerStep, if_pos hfail] at h
            obtain ⟨rfl, rfl⟩ := Prod.mk.inj (Option.some.inj h)
            exact .quiet (hkeeps nofun) (setCaller_evictRef ..) (hset rfl)
          · simp only [callerStep, if_neg hfail] at h
            obtain ⟨rfl, rfl⟩ := Prod.mk.inj (Option.some.inj h)
            have hclear : t.evictRef = false := by
              rw [Bool.not_eq_true, Bool.or_eq_false_iff] at hfail
              exact hfail.1
            exact .take (hkeeps nofun) hclear (setCaller_evictRef ..)
              (hset rfl)
      | execute isSucceed => cases h
  | execute =>
      cases e with
      | go => cases h
      | exchange spurious => cases h
      | execute isSucceed =>
          cases isSucceed with
          | false =>
              obtain ⟨rfl, rfl⟩ := Prod.mk.inj (Option.some.inj h)
              refine .quiet (hkeeps nofun) (setCaller_evictRef ..) ?_
              exact Nat.add_right_cancel (hset (q := some .undo) rfl)
          | true =>
              obtain ⟨rfl, rfl⟩ := Prod.mk.inj (Option.some.inj h)
              refine .quiet (hkeeps nofun) (setCaller_evictRef ..) ?_
              -- the call hands the token to the queue of the pool
              have hq := hset (u := { t with queued := t.queued + 1 })
                (q := none) rfl
              have hmore : ({ t with queued := t.queued + 1 } : Tier).holders =
                  t.holders + 1 := by
                simp only [Tier.holders, Tier.evictTasks, Tier.handedOver]
                omega
              rw [hmore] at hq
              exact Nat.add_right_cancel hq
  | undo =>
      cases e with
      | go =>
          obtain ⟨rfl, rfl⟩ := Prod.mk.inj (Option.some.inj h)
          exact .clear (hkeeps nofun) (setCaller_evictRef ..)
            (hset (u := { t with evictRef := false }) (q := none) rfl).symm
      | exchange spurious => cases h
      | execute isSucceed => cases h

/-- What a step of a task can be: it goes on, with a change of the queue of
    slices at most; or it returns after it has registered a retry, after it has
    cleared the flag, or because `mLocRole` has failed. -/
theorem taskStep_cases {type : WCacheTierType} {c : Shared} {t : Tier}
    {k : Task} {e : TaskEvent} {x : Tier × Option Task}
    (h : taskStep type c t k e = some x) :
    ((∃ queue k', x = ({ t with evictSliceQueue := queue }, some k')) ∧
      ∀ ret isMaster, e = .locRole ret isMaster → ret = .ok) ∨
    (x = ({ t with retryManager := t.retryManager + 1 }, none) ∧ e = .go) ∨
    (x = ({ t with evictRef := false }, none) ∧ e = .go) ∨
    (x = (t, none) ∧ ∃ ret isMaster, e = .locRole ret isMaster ∧
      ret ≠ .ok) := by
  have hon : ∀ {k' : Task}, (∀ ret isMaster, e ≠ .locRole ret isMaster) →
      some (t, some k') = some x →
        (∃ queue k', x = ({ t with evictSliceQueue := queue }, some k')) ∧
          ∀ ret isMaster, e = .locRole ret isMaster → ret = .ok := by
    intro k' hne hx
    refine ⟨⟨t.evictSliceQueue, k', (Option.some.inj hx).symm⟩, ?_⟩
    intro ret isMaster he
    exact absurd he (hne ret isMaster)
  cases e with
  | locRole ret isMaster =>
      simp only [taskStep] at h
      split at h
      · split at h
        case isTrue.isTrue hok =>
            refine .inl ⟨⟨t.evictSliceQueue, _, (Option.some.inj h).symm⟩, ?_⟩
            intro ret' _ he
            injection he with hret
            exact hret ▸ hok
        case isTrue.isFalse hok =>
            exact .inr (.inr (.inr ⟨(Option.some.inj h).symm, ret, isMaster,
              rfl, hok⟩))
      · cases h
  | satisfied isSatisfied =>
      simp only [taskStep] at h
      split at h
      · exact .inl (hon nofun h)
      · split at h
        · exact .inl (hon nofun h)
        · cases h
  | globOffset ret globEvictOffset =>
      simp only [taskStep] at h
      split at h
      · split at h
        · exact .inl (hon nofun h)
        · exact .inl (hon nofun h)
      · cases h
  | evicted ret =>
      simp only [taskStep] at h
      split at h
      · split at h
        · exact .inl (hon nofun h)
        · exact .inl (hon nofun h)
      · cases h
  | go =>
      cases hphase : k.phase <;> simp only [taskStep, hphase] at h
      case ifSatisfied => split at h <;> exact .inl (hon nofun h)
      case ifStandby => split at h <;> exact .inl (hon nofun h)
      case loop => split at h <;> exact .inl (hon nofun h)
      case getSlice =>
          split at h
          · exact .inl (hon nofun h)
          · exact .inl ⟨⟨_, _, (Option.some.inj h).symm⟩, nofun⟩
      case retryQueue slice =>
          exact .inl ⟨⟨_, _, (Option.some.inj h).symm⟩, nofun⟩
      case retryCallback => exact .inr (.inl ⟨(Option.some.inj h).symm, rfl⟩)
      case store =>
          exact .inr (.inr (.inl ⟨(Option.some.inj h).symm, rfl⟩))
      all_goals cases h

/-- A task goes on. -/
theorem effect_task {type : WCacheTierType} {c : Shared} {t : Tier} {i : Nat}
    {k : Task} {e : TaskEvent} {x : Tier × Option Task}
    (hk : t.running[i]? = some k) (h : taskStep type c t k e = some x) :
    Effect t (.task i e) (setTask i x) := by
  have hset : ∀ {u : Tier} {l : Option Task}, u.running = t.running →
      (setTask i (u, l)).holders + 1 = u.holders + l.isSome.toNat :=
    fun heq => holders_setTask (heq ▸ hk)
  rcases taskStep_cases h with ⟨⟨queue, k', rfl⟩, hok⟩ | ⟨rfl, rfl⟩ |
    ⟨rfl, rfl⟩ | ⟨rfl, ret, isMaster, rfl, hret⟩
  · refine .quiet ?_ (setTask_evictRef ..) ?_
    · cases e with
      | locRole ret isMaster => exact hok ret isMaster rfl
      | _ => exact trivial
    · exact Nat.add_right_cancel
        (hset (u := { t with evictSliceQueue := queue }) (l := some k') rfl)
  · refine .quiet trivial (setTask_evictRef ..) ?_
    -- the task hands the token to the entry of the list
    have hq := hset (u := { t with retryManager := t.retryManager + 1 })
      (l := none) rfl
    have hmore : ({ t with retryManager := t.retryManager + 1 } : Tier).holders
        = t.holders + 1 := by
      simp only [Tier.holders, Tier.evictTasks, Tier.handedOver]
      omega
    rw [hmore] at hq
    exact Nat.add_right_cancel hq
  · exact .clear trivial (setTask_evictRef ..)
      (hset (u := { t with evictRef := false }) (l := none) rfl).symm
  · exact .leak hret (setTask_evictRef ..) (hset (l := none) rfl).symm

/-- `RetryEvictThread` goes on. -/
theorem effect_retry {c : Shared} {t t' : Tier} {e : RetryEvent}
    (h : retryStep c t e = some t') : Effect t (.retry e) t' := by
  have hquiet : ∀ {t₁ : Tier}, some t₁ = some t' → t₁.evictRef = t.evictRef →
      t₁.holders = t.holders → Effect t (.retry e) t' := by
    intro t₁ ht hflag hholders
    rw [← Option.some.inj ht]
    exact .quiet trivial hflag hholders
  cases e with
  | go =>
      cases hphase : t.retry <;> simp only [retryStep, hphase] at h
      case take =>
          refine hquiet h rfl ?_
          simp only [Tier.holders, Tier.evictTasks, Tier.handedOver, hphase,
            RetryPhase.held]
          omega
      case next rest =>
          cases rest with
          | zero =>
              refine hquiet h rfl ?_
              simp only [Tier.holders, Tier.evictTasks, Tier.handedOver,
                hphase, RetryPhase.held]
          | succ rest =>
              refine hquiet h rfl ?_
              simp only [Tier.holders, Tier.evictTasks, Tier.handedOver,
                hphase, RetryPhase.held]
      case isEmpty rest =>
          split at h
          all_goals
            refine hquiet h rfl ?_
            simp only [Tier.holders, Tier.evictTasks, Tier.handedOver, hphase,
              RetryPhase.held]
      case status rest =>
          split at h
          all_goals
            refine hquiet h rfl ?_
            simp only [Tier.holders, Tier.evictTasks, Tier.handedOver, hphase,
              RetryPhase.held]
      case store rest =>
          rw [← Option.some.inj h]
          refine .clear trivial rfl ?_
          simp only [Tier.holders, Tier.evictTasks, Tier.handedOver, hphase,
            RetryPhase.held]
          omega
      all_goals cases h
  | execute isSucceed =>
      cases hphase : t.retry <;> simp only [retryStep, hphase] at h
      case execute rest =>
          cases isSucceed with
          | true =>
              refine hquiet h rfl ?_
              simp only [Tier.holders, Tier.evictTasks, Tier.handedOver,
                hphase, RetryPhase.held]
              omega
          | false =>
              refine hquiet h rfl ?_
              simp only [Tier.holders, Tier.evictTasks, Tier.handedOver,
                hphase, RetryPhase.held]
      all_goals cases h

/-- **STEP EFFECT**: each step of a tier does one of five things to the flag
    and the holders. -/
theorem effect_of_step {type : WCacheTierType} {c : Shared} {t t' : Tier}
    {e : TierEvent} (h : tierStep type c t e = some t') : Effect t e t' := by
  cases e with
  | call =>
      rw [← Option.some.inj h]
      refine .quiet trivial rfl ?_
      simp only [Tier.holders, Tier.evictTasks, Tier.handedOver,
        List.countP_append]
      rfl
  | caller i e =>
      obtain ⟨p, hp, hx⟩ := Option.bind_eq_some_iff.mp h
      obtain ⟨x, hstep, rfl⟩ := Option.map_eq_some_iff.mp hx
      exact effect_caller hp hstep
  | start =>
      simp only [tierStep] at h
      split at h
      · cases h
      case h_2 n hqueued =>
          rw [← Option.some.inj h]
          refine .quiet trivial rfl ?_
          simp only [Tier.holders, Tier.evictTasks, Tier.handedOver, hqueued,
            List.length_append, List.length_singleton]
          omega
  | task i e =>
      obtain ⟨k, hk, hx⟩ := Option.bind_eq_some_iff.mp h
      obtain ⟨x, hstep, rfl⟩ := Option.map_eq_some_iff.mp hx
      exact effect_task hk hstep
  | retry e => exact effect_retry h
  | addSlice slice =>
      rw [← Option.some.inj h]
      exact .quiet trivial rfl rfl
  | delSlice slice =>
      rw [← Option.some.inj h]
      exact .quiet trivial rfl rfl

end UbsIo.Evict
