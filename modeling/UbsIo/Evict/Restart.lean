import UbsIo.Evict.Token

/-! # Evictions can be started again

    The two types run side by side and share `RetryEvictThread`.  A run keeps
    the tokens of both types exactly if its steps keep them; and from a state
    with both tokens the holder of a token can always go on until the flag is
    clear, so that the next `StartEvictTask` gets it.

    In this order: a task comes to its end or to `mRetryManager`
    (`clears_running`); an entry that the thread has moved out is dealt with
    (`clears_held`); the thread comes round to the list with the entry
    (`clears_registered`). -/

namespace UbsIo.Evict

open UbsIo.Lib

variable {s s' : WCache} {type : WCacheTierType}

/-! ## Steps of the cache -/

/-- The steps that keep the tokens. -/
def Keeps (s : WCache) : Event → Prop
  | .tier type e => tierKeeps (s.tier type) e
  | _ => True

/-- `RetryEvictThread` has entries of one type only. -/
def Turned (s : WCache) : Prop :=
  ∀ type, s.turn ≠ type → (s.tier type).retry = .take

/-- The tokens of both types. -/
structure Tokens (s : WCache) : Prop where
  token : ∀ type, (s.tier type).Token
  turn : Turned s

@[simp] theorem setTier_self (s : WCache) (type : WCacheTierType) (t : Tier) :
    (s.setTier type t).tier type = t := Function.update_self ..

theorem setTier_ne {type₁ : WCacheTierType} (s : WCache) (t : Tier)
    (h : type₁ ≠ type) : (s.setTier type t).tier type₁ = s.tier type₁ :=
  Function.update_of_ne h ..

theorem other_ne (type : WCacheTierType) : type.other ≠ type := by
  cases type with
  | memory => exact nofun
  | disk => exact nofun

theorem eq_other {type type₁ : WCacheTierType} (h : type₁ ≠ type) :
    type₁ = type.other := by
  cases type with
  | memory =>
      cases type₁ with
      | memory => exact absurd rfl h
      | disk => rfl
  | disk =>
      cases type₁ with
      | memory => rfl
      | disk => exact absurd rfl h

theorem retry_of_callerStep {c : Shared} {t t' : Tier} {p : CallerPhase}
    {e : CallerEvent} {p' : Option CallerPhase}
    (h : callerStep c t p e = some (t', p')) : t'.retry = t.retry := by
  cases p <;> cases e <;> simp only [callerStep] at h
  case exchange.exchange =>
      split at h
      · cases h
        rfl
      · cases h
        rfl
  case execute.execute =>
      split at h
      · cases h
        rfl
      · cases h
        rfl
  all_goals
    cases h
    try rfl

/-- A step of another thread leaves `RetryEvictThread` where it is. -/
theorem retry_of_step {c : Shared} {t t' : Tier} {e : TierEvent}
    (hne : ∀ r, e ≠ .retry r) (h : tierStep type c t e = some t') :
    t'.retry = t.retry := by
  cases e with
  | call => exact (Option.some.inj h) ▸ rfl
  | caller i e =>
      obtain ⟨p, -, hx⟩ := Option.bind_eq_some_iff.mp h
      obtain ⟨⟨t₁, p'⟩, hstep, rfl⟩ := Option.map_eq_some_iff.mp hx
      have hset : (setCaller i (t₁, p')).retry = t₁.retry := by
        cases p' with
        | none => rfl
        | some p => rfl
      rw [hset]
      exact retry_of_callerStep hstep
  | start =>
      simp only [tierStep] at h
      split at h
      · cases h
      · cases h
        rfl
  | task i e =>
      obtain ⟨k, -, hx⟩ := Option.bind_eq_some_iff.mp h
      obtain ⟨⟨t₁, k'⟩, hstep, rfl⟩ := Option.map_eq_some_iff.mp hx
      have hset : (setTask i (t₁, k')).retry = t₁.retry := by
        cases k' with
        | none => rfl
        | some k => rfl
      rw [hset]
      rcases taskStep_cases hstep with ⟨⟨queue, k', heq⟩, -⟩ | ⟨heq, -⟩ |
        ⟨heq, -⟩ | ⟨heq, -⟩
      all_goals
        cases heq
        rfl
  | retry e => exact absurd rfl (hne e)
  | addSlice slice => exact (Option.some.inj h) ▸ rfl
  | delSlice slice => exact (Option.some.inj h) ▸ rfl

/-- A step of another thread than `RetryEvictThread`. -/
theorem step_tier {e : TierEvent} (hne : ∀ r, e ≠ .retry r) :
    step s (.tier type e) =
      (tierStep type s.shared (s.tier type) e).map (s.setTier type) := by
  cases e with
  | retry r => exact absurd rfl (hne r)
  | _ => rfl

/-- What a step of the cache is: one of a tier, or one that changes what all
    types read. -/
theorem step_cases {e : Event} (h : step s e = some s') :
    (∃ type e' t, e = .tier type e' ∧
      tierStep type s.shared (s.tier type) e' = some t ∧
      s'.tier = Function.update s.tier type t ∧
      (((∀ r, e' ≠ .retry r) ∧ s'.turn = s.turn) ∨
        (s.turn = type ∧ s'.turn = s.turnAfter t))) ∨
    ((∀ type e', e ≠ .tier type e') ∧ s'.tier = s.tier ∧
      s'.turn = s.turn) := by
  cases e with
  | tier type e' =>
      refine .inl ?_
      by_cases hretry : ∃ r, e' = .retry r
      · obtain ⟨r, rfl⟩ := hretry
        by_cases hturn : s.turn = type
        · simp only [step, if_pos hturn] at h
          obtain ⟨t, ht, rfl⟩ := Option.map_eq_some_iff.mp h
          exact ⟨type, _, t, rfl, ht, rfl, .inr ⟨hturn, rfl⟩⟩
        · simp only [step, if_neg hturn] at h
          cases h
      · have hne : ∀ r, e' ≠ .retry r := fun r hr => hretry ⟨r, hr⟩
        rw [step_tier hne] at h
        obtain ⟨t, ht, rfl⟩ := Option.map_eq_some_iff.mp h
        exact ⟨type, _, t, rfl, ht, rfl, .inl ⟨hne, rfl⟩⟩
  | diskStatus isNormal => cases h; exact .inr ⟨nofun, rfl, rfl⟩
  | force => cases h; exact .inr ⟨nofun, rfl, rfl⟩

/-- The tiers after a step of one of them. -/
theorem tier_update {t : Tier} (htier : s'.tier = Function.update s.tier type t) :
    s'.tier type = t ∧ ∀ type₁, type₁ ≠ type → s'.tier type₁ = s.tier type₁ := by
  rw [htier]
  exact ⟨Function.update_self .., fun _ hne => Function.update_of_ne hne ..⟩

theorem turned_step {e : Event} (ht : Turned s) (h : step s e = some s') :
    Turned s' := by
  rcases step_cases h with ⟨type, e', t, rfl, hstep, htier, hturn⟩ |
    ⟨-, htier, hturn⟩
  · obtain ⟨hself, hother⟩ := tier_update htier
    intro type₁ hne
    by_cases heq : type₁ = type
    · subst heq
      rw [hself]
      rcases hturn with ⟨hquiet, hturn⟩ | ⟨hown, hturn⟩
      · rw [retry_of_step hquiet hstep]
        exact ht type₁ (hturn ▸ hne)
      · -- the thread's own step: it leaves a list when it is through
        rw [hturn, WCache.turnAfter] at hne
        by_contra htake
        rw [if_neg htake] at hne
        exact hne hown
    · rw [hother type₁ heq]
      rcases hturn with ⟨-, hturn⟩ | ⟨hown, -⟩
      · exact ht type₁ (hturn ▸ hne)
      · exact ht type₁ (hown ▸ Ne.symm heq)
  · intro type h
    rw [htier]
    exact ht type (hturn ▸ h)

/-- **TOKEN STEP**: from a state with both tokens a step leads to one with both
    tokens exactly if it keeps them. -/
theorem tokens_step {e : Event} (ht : Tokens s) (h : step s e = some s') :
    Tokens s' ↔ Keeps s e := by
  have hturned : Turned s' := turned_step ht.turn h
  rcases step_cases h with ⟨type, e', t, rfl, hstep, htier, -⟩ |
    ⟨hne, htier, -⟩
  · have heffect := (effect_of_step hstep).token (ht.token type)
    obtain ⟨hself, hother⟩ := tier_update htier
    constructor
    · intro ht'
      exact heffect.mp (hself ▸ ht'.token type)
    · intro hkeeps
      refine ⟨?_, hturned⟩
      intro type₁
      by_cases heq : type₁ = type
      · rw [heq, hself]
        exact heffect.mpr hkeeps
      · rw [hother type₁ heq]
        exact ht.token type₁
  · have hkeeps : Keeps s e := by
      cases e with
      | tier type e' => exact absurd rfl (hne type e')
      | _ => exact trivial
    exact ⟨fun _ => hkeeps,
      fun _ => ⟨fun type => htier ▸ ht.token type, hturned⟩⟩

theorem tokens_init (isNormal isForced : Bool) :
    Tokens (.init isNormal isForced) :=
  ⟨fun _ => rfl, fun _ _ => rfl⟩

/-! ## The flag can become clear -/

/-- A run that keeps the tokens leads to a state in which the flag of the type
    is clear. -/
def Clears (type : WCacheTierType) (s : WCache) : Prop :=
  ∃ es s', run s es = some s' ∧ Along step Keeps s es ∧
    (s'.tier type).evictRef = false

theorem Clears.now (h : (s.tier type).evictRef = false) : Clears type s :=
  ⟨[], s, rfl, trivial, h⟩

/-- A step leads to a state from which the flag can become clear. -/
theorem Clears.after {e : Event} (hstep : step s e = some s')
    (hkeeps : Keeps s e) (h : Clears type s') : Clears type s := by
  obtain ⟨es, t, hrun, halong, hclear⟩ := h
  refine ⟨e :: es, t, runFrom_cons.mpr ⟨s', hstep, hrun⟩, ⟨hkeeps, ?_⟩, hclear⟩
  intro s₁ hs₁
  rw [hstep] at hs₁
  exact Option.some.inj hs₁ ▸ halong

/-- The same for a step of a tier by another thread than `RetryEvictThread`. -/
theorem Clears.afterTier {e : TierEvent} {t : Tier} (hne : ∀ r, e ≠ .retry r)
    (hstep : tierStep type s.shared (s.tier type) e = some t)
    (hkeeps : tierKeeps (s.tier type) e) (h : Clears type (s.setTier type t)) :
    Clears type s := by
  refine .after (e := .tier type e) ?_ hkeeps h
  rw [step_tier hne, hstep]
  rfl

/-- The same for a step of `RetryEvictThread` inside its loop. -/
theorem Clears.afterRetry {type₁ : WCacheTierType} {e : RetryEvent} {t : Tier}
    (hturn : s.turn = type)
    (hstep : retryStep s.shared (s.tier type) e = some t)
    (hinside : t.retry ≠ .take)
    (h : ∀ s₁ : WCache, s₁.turn = type → s₁.tier type = t →
      s₁.tier type.other = s.tier type.other → Clears type₁ s₁) :
    Clears type₁ s := by
  have hs : step s (.tier type (.retry e)) =
      some { s.setTier type t with turn := s.turnAfter t } := by
    simp only [step, if_pos hturn, hstep, Option.map_some]
  refine .after hs trivial
    (h _ ?_ (setTier_self ..) (setTier_ne s t (other_ne type)))
  show s.turnAfter t = type
  rw [WCache.turnAfter, if_neg hinside, hturn]

/-- `RetryEvictThread` has dealt with an entry without a new task. -/
structure Past (type : WCacheTierType) (rest : Nat) (s s₁ : WCache) : Prop where
  turn : s₁.turn = type
  retry : (s₁.tier type).retry = .next rest
  clear : (s₁.tier type).evictRef = false
  other : s₁.tier type.other = s.tier type.other

variable {type₁ : WCacheTierType} {rest : Nat}

theorem Past.back {s₁ s₂ : WCache} (h : Past type rest s₁ s₂)
    (hother : s₁.tier type.other = s.tier type.other) :
    Past type rest s s₂ :=
  { h with other := h.other.trans hother }

/-- A step of `RetryEvictThread` that changes nothing else. -/
theorem Clears.inside {e : RetryEvent} {p : RetryPhase} (hturn : s.turn = type)
    (hstep : retryStep s.shared (s.tier type) e =
      some { s.tier type with retry := p })
    (hinside : p ≠ .take)
    (h : ∀ s₁ : WCache, s₁.turn = type → (s₁.tier type).retry = p →
      s₁.tier type.other = s.tier type.other → Clears type₁ s₁) :
    Clears type₁ s := by
  refine .afterRetry hturn hstep hinside ?_
  intro s₁ hturn₁ htier₁ hother₁
  exact h s₁ hturn₁ (congrArg Tier.retry htier₁) hother₁

theorem clears_store (hturn : s.turn = type)
    (hphase : (s.tier type).retry = .store rest)
    (h : ∀ s₁, Past type rest s s₁ → Clears type₁ s₁) : Clears type₁ s := by
  have hstep : retryStep s.shared (s.tier type) .go =
      some { s.tier type with evictRef := false, retry := .next rest } := by
    simp only [retryStep, hphase]
  have hinside : RetryPhase.next rest ≠ .take := fun h => by cases h
  refine .afterRetry hturn hstep hinside ?_
  intro s₁ hturn₁ htier₁ hother₁
  exact h s₁ ⟨hturn₁, congrArg Tier.retry htier₁,
    congrArg Tier.evictRef htier₁, hother₁⟩

theorem clears_execute (hturn : s.turn = type)
    (hphase : (s.tier type).retry = .execute rest)
    (h : ∀ s₁, Past type rest s s₁ → Clears type₁ s₁) : Clears type₁ s := by
  have hstep : retryStep s.shared (s.tier type) (.execute false) =
      some { s.tier type with retry := .store rest } := by
    simp only [retryStep, hphase]
    rfl
  refine .inside hturn hstep (fun h => by cases h) ?_
  intro s₁ hturn₁ hphase₁ hother₁
  exact clears_store hturn₁ hphase₁ fun s₂ h₂ => h s₂ (h₂.back hother₁)

theorem clears_status (hturn : s.turn = type)
    (hphase : (s.tier type).retry = .status rest)
    (h : ∀ s₁, Past type rest s s₁ → Clears type₁ s₁) : Clears type₁ s := by
  by_cases hnormal : s.shared.isNormal = true
  · have hstep : retryStep s.shared (s.tier type) .go =
        some { s.tier type with retry := .execute rest } := by
      simp only [retryStep, hphase, if_pos hnormal]
    refine .inside hturn hstep (fun h => by cases h) ?_
    intro s₁ hturn₁ hphase₁ hother₁
    exact clears_execute hturn₁ hphase₁ fun s₂ h₂ => h s₂ (h₂.back hother₁)
  · have hstep : retryStep s.shared (s.tier type) .go =
        some { s.tier type with retry := .store rest } := by
      simp only [retryStep, hphase, if_neg hnormal]
    refine .inside hturn hstep (fun h => by cases h) ?_
    intro s₁ hturn₁ hphase₁ hother₁
    exact clears_store hturn₁ hphase₁ fun s₂ h₂ => h s₂ (h₂.back hother₁)

theorem clears_isEmpty (hturn : s.turn = type)
    (hphase : (s.tier type).retry = .isEmpty rest)
    (h : ∀ s₁, Past type rest s s₁ → Clears type₁ s₁) : Clears type₁ s := by
  by_cases hempty : (s.tier type).evictSliceQueue = []
  · have hstep : retryStep s.shared (s.tier type) .go =
        some { s.tier type with retry := .store rest } := by
      simp only [retryStep, hphase, if_pos hempty]
    refine .inside hturn hstep (fun h => by cases h) ?_
    intro s₁ hturn₁ hphase₁ hother₁
    exact clears_store hturn₁ hphase₁ fun s₂ h₂ => h s₂ (h₂.back hother₁)
  · have hstep : retryStep s.shared (s.tier type) .go =
        some { s.tier type with retry := .status rest } := by
      simp only [retryStep, hphase, if_neg hempty]
    refine .inside hturn hstep (fun h => by cases h) ?_
    intro s₁ hturn₁ hphase₁ hother₁
    exact clears_status hturn₁ hphase₁ fun s₂ h₂ => h s₂ (h₂.back hother₁)

theorem clears_next (hturn : s.turn = type)
    (hphase : (s.tier type).retry = .next (rest + 1))
    (h : ∀ s₁, Past type rest s s₁ → Clears type₁ s₁) : Clears type₁ s := by
  have hstep : retryStep s.shared (s.tier type) .go =
      some { s.tier type with retry := .isEmpty rest } := by
    simp only [retryStep, hphase]
  refine .inside hturn hstep (fun h => by cases h) ?_
  intro s₁ hturn₁ hphase₁ hother₁
  exact clears_isEmpty hturn₁ hphase₁ fun s₂ h₂ => h s₂ (h₂.back hother₁)

/-- The thread deals with the next of the entries it has moved out. -/
theorem clears_dealt (hturn : s.turn = type)
    (hheld : (s.tier type).retry.held = rest + 1)
    (h : ∀ s₁, Past type rest s s₁ → Clears type₁ s₁) : Clears type₁ s := by
  cases hphase : (s.tier type).retry <;> rw [hphase] at hheld
  case take => cases hheld
  case next r =>
      obtain rfl : r = rest + 1 := hheld
      exact clears_next hturn hphase h
  case isEmpty r =>
      obtain rfl : r = rest := Nat.succ.inj hheld
      exact clears_isEmpty hturn hphase h
  case status r =>
      obtain rfl : r = rest := Nat.succ.inj hheld
      exact clears_status hturn hphase h
  case execute r =>
      obtain rfl : r = rest := Nat.succ.inj hheld
      exact clears_execute hturn hphase h
  case store r =>
      obtain rfl : r = rest := Nat.succ.inj hheld
      exact clears_store hturn hphase h

/-- An entry that the thread has moved out. -/
theorem clears_held (hturn : s.turn = type)
    (hheld : 0 < (s.tier type).retry.held) : Clears type s := by
  obtain ⟨rest, hrest⟩ : ∃ rest, (s.tier type).retry.held = rest + 1 :=
    ⟨_, (Nat.succ_pred_eq_of_pos hheld).symm⟩
  exact clears_dealt hturn hrest fun s₁ h₁ => .now h₁.clear

/-- The thread moves the list out. -/
theorem clears_take (hturn : s.turn = type)
    (hphase : (s.tier type).retry = .take)
    (h : ∀ s₁ : WCache, s₁.turn = type →
      (s₁.tier type).retry = .next (s.tier type).retryManager →
      s₁.tier type.other = s.tier type.other → Clears type₁ s₁) :
    Clears type₁ s := by
  have hstep : retryStep s.shared (s.tier type) .go = some { s.tier type with
      retry := .next (s.tier type).retryManager, retryManager := 0 } := by
    simp only [retryStep, hphase]
  have hinside : RetryPhase.next (s.tier type).retryManager ≠ .take :=
    fun h => by cases h
  refine .afterRetry hturn hstep hinside ?_
  intro s₁ hturn₁ htier₁ hother₁
  exact h s₁ hturn₁ (congrArg Tier.retry htier₁) hother₁

/-- The thread is through with a list and goes to the other. -/
theorem clears_through (hturn : s.turn = type)
    (hphase : (s.tier type).retry = .next 0)
    (h : ∀ s₁ : WCache, s₁.turn = type.other →
      s₁.tier type = { s.tier type with retry := .take } →
      s₁.tier type.other = s.tier type.other → Clears type₁ s₁) :
    Clears type₁ s := by
  have ht : retryStep s.shared (s.tier type) .go =
      some { s.tier type with retry := .take } := by
    simp only [retryStep, hphase]
  have hs : step s (.tier type (.retry .go)) = some { s.setTier type
      { s.tier type with retry := .take } with turn := type.other } := by
    simp only [step, ht, Option.map_some, WCache.turnAfter, if_true, hturn]
  exact .after hs trivial
    (h _ rfl (setTier_self ..) (setTier_ne s _ (other_ne type)))

/-- The thread deals with all entries of a list. -/
theorem clears_list : ∀ {rest : Nat} {s : WCache}, s.turn = type →
    (s.tier type).retry = .next rest →
    (∀ s₁ : WCache, s₁.turn = type.other →
      s₁.tier type.other = s.tier type.other → Clears type₁ s₁) →
    Clears type₁ s := by
  intro rest
  induction rest with
  | zero =>
      intro s hturn hphase h
      refine clears_through hturn hphase ?_
      intro s₁ hturn₁ _ hother₁
      exact h s₁ hturn₁ hother₁
  | succ rest ih =>
      intro s hturn hphase h
      refine clears_next hturn hphase ?_
      intro s₁ h₁
      refine ih h₁.turn h₁.retry ?_
      intro s₂ hturn₂ hother₂
      exact h s₂ hturn₂ (hother₂.trans h₁.other)

/-- The thread comes to the end of a list from wherever it is with it. -/
theorem clears_round (hturn : s.turn = type)
    (h : ∀ s₁ : WCache, s₁.turn = type.other →
      s₁.tier type.other = s.tier type.other → Clears type₁ s₁) :
    Clears type₁ s := by
  by_cases htake : (s.tier type).retry = .take
  · refine clears_take hturn htake ?_
    intro s₁ hturn₁ hphase₁ hother₁
    refine clears_list hturn₁ hphase₁ ?_
    intro s₂ hturn₂ hother₂
    exact h s₂ hturn₂ (hother₂.trans hother₁)
  · by_cases hzero : (s.tier type).retry = .next 0
    · exact clears_list hturn hzero h
    · have hpos : 0 < (s.tier type).retry.held := by
        cases hphase : (s.tier type).retry with
        | take => exact absurd hphase htake
        | next r =>
            refine Nat.pos_of_ne_zero fun hr => hzero ?_
            rw [hphase]
            exact congrArg RetryPhase.next hr
        | _ => exact Nat.succ_pos _
      obtain ⟨rest, hrest⟩ : ∃ rest, (s.tier type).retry.held = rest + 1 :=
        ⟨_, (Nat.succ_pred_eq_of_pos hpos).symm⟩
      refine clears_dealt hturn hrest ?_
      intro s₁ h₁
      refine clears_list h₁.turn h₁.retry ?_
      intro s₂ hturn₂ hother₂
      exact h s₂ hturn₂ (hother₂.trans h₁.other)

@[simp] theorem other_other (type : WCacheTierType) :
    type.other.other = type := by
  cases type with
  | memory => rfl
  | disk => rfl

/-- An entry in the list, when the thread comes to it. -/
theorem clears_reached (hturn : s.turn = type)
    (hphase : (s.tier type).retry = .take)
    (hpos : 0 < (s.tier type).retryManager) : Clears type s := by
  refine clears_take hturn hphase ?_
  intro s₁ hturn₁ hphase₁ _
  refine clears_held hturn₁ ?_
  rw [hphase₁]
  exact hpos

/-- **REGISTERED**: an entry in the list comes to its turn. -/
theorem clears_registered (ht : Tokens s)
    (hpos : 0 < (s.tier type).retryManager) : Clears type s := by
  -- the thread comes from the other list
  have hround : ∀ s₁ : WCache, s₁.turn = type.other →
      (s₁.tier type).retry = .take → 0 < (s₁.tier type).retryManager →
      Clears type s₁ := by
    intro s₁ hturn₁ hphase₁ hpos₁
    refine clears_round hturn₁ ?_
    intro s₂ hturn₂ hother₂
    rw [other_other] at hturn₂ hother₂
    exact clears_reached hturn₂ (hother₂ ▸ hphase₁) (hother₂ ▸ hpos₁)
  by_cases hturn : s.turn = type
  · cases hphase : (s.tier type).retry with
    | take => exact clears_reached hturn hphase hpos
    | next r =>
        cases r with
        | zero =>
            refine clears_through hturn hphase ?_
            intro s₁ hturn₁ htier₁ _
            exact hround s₁ hturn₁ (htier₁ ▸ rfl) (htier₁ ▸ hpos)
        | succ r => exact clears_held hturn (hphase ▸ Nat.succ_pos r)
    | isEmpty r => exact clears_held hturn (hphase ▸ Nat.succ_pos r)
    | status r => exact clears_held hturn (hphase ▸ Nat.succ_pos r)
    | execute r => exact clears_held hturn (hphase ▸ Nat.succ_pos r)
    | store r => exact clears_held hturn (hphase ▸ Nat.succ_pos r)
  · exact hround s (eq_other hturn) (ht.turn type hturn) hpos

/-! ## Tasks and calls -/

/-- How far a task is from its end at most, if no eviction succeeds. -/
def TaskPhase.rank : TaskPhase → Nat
  | .locRole => 10
  | .firstCond => 9
  | .ifSatisfied => 8
  | .ifStandby => 7
  | .globOffset => 6
  | .cond => 6
  | .loop => 5
  | .getSlice => 4
  | .evict _ => 3
  | .retryQueue _ => 2
  | .retryCallback => 1
  | .store => 1

/-- A step that brings a task nearer to its end. -/
def TaskPhase.onward : TaskPhase → TaskEvent
  | .locRole => .locRole .ok true
  | .firstCond => .satisfied false
  | .globOffset => .globOffset .ok 0
  | .cond => .satisfied false
  | .evict _ => .evicted .notExists
  | _ => .go

theorem rank_pos (phase : TaskPhase) : 0 < phase.rank := by
  cases phase <;> exact Nat.succ_pos _

theorem rank_sliceStep (type : WCacheTierType) (k : Task) (slice : SliceRef) :
    (sliceStep type k slice).phase.rank < 4 := by
  cases type with
  | memory => exact (by decide : 3 < 4)
  | disk =>
      cases slice with
      | none => exact (by decide : 1 < 4)
      | some slice =>
          simp only [sliceStep]
          split
          · exact (by decide : 2 < 4)
          · exact (by decide : 3 < 4)

/-- A task can take the step, and it comes nearer to its end, registers a retry
    or clears the flag. -/
theorem taskStep_onward (type : WCacheTierType) (c : Shared) (t : Tier)
    (k : Task) : ∃ x, taskStep type c t k k.phase.onward = some x ∧
      ((∃ queue k', x = ({ t with evictSliceQueue := queue }, some k') ∧
          k'.phase.rank < k.phase.rank) ∨
        x = ({ t with retryManager := t.retryManager + 1 }, none) ∨
        x = ({ t with evictRef := false }, none)) := by
  have hon : ∀ {l : Task}, l.phase.rank < k.phase.rank →
      taskStep type c t k k.phase.onward = some (t, some l) →
      ∃ x, taskStep type c t k k.phase.onward = some x ∧
        ((∃ queue k', x = ({ t with evictSliceQueue := queue }, some k') ∧
            k'.phase.rank < k.phase.rank) ∨
          x = ({ t with retryManager := t.retryManager + 1 }, none) ∨
          x = ({ t with evictRef := false }, none)) :=
    fun hlt hstep => ⟨_, hstep, .inl ⟨t.evictSliceQueue, _, rfl, hlt⟩⟩
  obtain ⟨phase, isMaster, isSatisfied, globEvictOffset⟩ := k
  cases phase with
  | locRole =>
      exact hon (l := ⟨.firstCond, _, _, _⟩) (by decide : 9 < 10) rfl
  | firstCond =>
      exact hon (l := ⟨.ifSatisfied, _, _, _⟩) (by decide : 8 < 9) rfl
  | ifSatisfied =>
      by_cases hwanted : (!isSatisfied && !c.isForced) = true
      · exact hon (l := ⟨.retryCallback, _, _, _⟩) (by decide : 1 < 8)
          (by simp only [taskStep, TaskPhase.onward, if_pos hwanted]; rfl)
      · exact hon (l := ⟨.ifStandby, _, _, _⟩) (by decide : 7 < 8)
          (by simp only [taskStep, TaskPhase.onward, if_neg hwanted]; rfl)
  | ifStandby =>
      by_cases hstandby : (!isMaster && !c.isForced) = true
      · exact hon (l := ⟨.globOffset, _, _, _⟩) (by decide : 6 < 7)
          (by simp only [taskStep, TaskPhase.onward, if_pos hstandby]; rfl)
      · exact hon (l := ⟨.loop, _, _, _⟩) (by decide : 5 < 7)
          (by simp only [taskStep, TaskPhase.onward, if_neg hstandby]; rfl)
  | globOffset => exact hon (l := ⟨.loop, _, _, _⟩) (by decide : 5 < 6) rfl
  | cond => exact hon (l := ⟨.loop, _, _, _⟩) (by decide : 5 < 6) rfl
  | loop =>
      by_cases hmore : (isSatisfied || c.isForced) = true
      · exact hon (l := ⟨.getSlice, _, _, _⟩) (by decide : 4 < 5)
          (by simp only [taskStep, TaskPhase.onward, if_pos hmore]; rfl)
      · exact hon (l := ⟨.store, _, _, _⟩) (by decide : 1 < 5)
          (by simp only [taskStep, TaskPhase.onward, if_neg hmore]; rfl)
  | getSlice =>
      by_cases hqueue : t.evictSliceQueue = []
      · exact hon (l := ⟨.store, _, _, _⟩) (by decide : 1 < 4)
          (by simp only [taskStep, TaskPhase.onward, hqueue]; rfl)
      · obtain ⟨slice, rest, hqueue⟩ := List.exists_cons_of_ne_nil hqueue
        exact ⟨_, by simp only [taskStep, TaskPhase.onward, hqueue]; rfl,
          .inl ⟨rest, _, rfl, rank_sliceStep ..⟩⟩
  | evict slice =>
      exact hon (l := ⟨.retryQueue slice, _, _, _⟩) (by decide : 2 < 3) rfl
  | retryQueue slice =>
      exact ⟨_, rfl, .inl ⟨_, ⟨.retryCallback, _, _, _⟩, rfl,
        (by decide : 1 < 2)⟩⟩
  | retryCallback => exact ⟨_, rfl, .inr (.inl rfl)⟩
  | store => exact ⟨_, rfl, .inr (.inr rfl)⟩

theorem tierKeeps_onward (t : Tier) (i : Nat) (phase : TaskPhase) :
    tierKeeps t (.task i phase.onward) := by
  cases phase with
  | locRole => exact rfl
  | _ => exact trivial

/-- The tokens after a step of a tier that keeps them. -/
theorem Tokens.setTier {e : TierEvent} {t : Tier} (ht : Tokens s)
    (hne : ∀ r, e ≠ .retry r)
    (hstep : tierStep type s.shared (s.tier type) e = some t)
    (hkeeps : tierKeeps (s.tier type) e) : Tokens (s.setTier type t) := by
  refine (tokens_step (e := .tier type e) ht ?_).mpr hkeeps
  rw [step_tier hne, hstep]
  rfl

/-- **RUNNING**: a task comes to its end or registers a retry. -/
theorem clears_running : ∀ {n : Nat} {s : WCache} {i : Nat} {k : Task},
    Tokens s → (s.tier type).running[i]? = some k → k.phase.rank ≤ n →
      Clears type s := by
  intro n
  induction n with
  | zero =>
      intro s i k _ _ hrank
      exact absurd hrank (Nat.not_le_of_lt (rank_pos k.phase))
  | succ n ih =>
      intro s i k ht hk hrank
      obtain ⟨x, hx, hcases⟩ :=
        taskStep_onward type s.shared (s.tier type) k
      have hne : ∀ r, TierEvent.task i k.phase.onward ≠ .retry r := nofun
      have hstep : tierStep type s.shared (s.tier type)
          (.task i k.phase.onward) = some (setTask i x) := by
        simp only [tierStep, hk, Option.bind_some, hx, Option.map_some]
      have hkeeps := tierKeeps_onward (s.tier type) i k.phase
      have ht' := ht.setTier hne hstep hkeeps
      refine .afterTier hne hstep hkeeps ?_
      rcases hcases with ⟨queue, k', rfl, hlt⟩ | rfl | rfl
      · refine ih (i := i) (k := k') ht' ?_ (by omega)
        rw [setTier_self]
        exact List.getElem?_set_self (List.getElem?_eq_some_iff.mp hk).1
      · refine clears_registered ht' ?_
        rw [setTier_self]
        exact Nat.succ_pos _
      · refine .now ?_
        rw [setTier_self]
        rfl

/-- **QUEUED**: a worker takes the task. -/
theorem clears_queued (ht : Tokens s) (hpos : 0 < (s.tier type).queued) :
    Clears type s := by
  obtain ⟨n, hn⟩ : ∃ n, (s.tier type).queued = n + 1 :=
    ⟨_, (Nat.succ_pred_eq_of_pos hpos).symm⟩
  have hne : ∀ r, TierEvent.start ≠ .retry r := nofun
  have hstep : tierStep type s.shared (s.tier type) .start =
      some { s.tier type with
        queued := n, running := (s.tier type).running ++ [.first type] } := by
    simp only [tierStep, hn]
  refine .afterTier hne hstep trivial ?_
  refine clears_running (i := (s.tier type).running.length) (k := .first type)
    (ht.setTier hne hstep trivial) ?_ (Nat.le_refl _)
  rw [setTier_self]
  exact List.getElem?_concat_length ..

/-- **CALLED**: a call of `StartEvictTask` that holds the token gets rid of it. -/
theorem clears_calling
    (hpos : 0 < (s.tier type).callers.countP CallerPhase.holding) :
    Clears type s := by
  obtain ⟨p, hmem, hhold⟩ := List.countP_pos_iff.mp hpos
  obtain ⟨i, hi⟩ := List.getElem?_of_mem hmem
  -- the pool refuses the task, and the call clears the flag
  have hundo : ∀ {s : WCache} {i : Nat},
      (s.tier type).callers[i]? = some .undo → Clears type s := by
    intro s i hi
    have hstep : tierStep type s.shared (s.tier type) (.caller i .go) =
        some (setCaller i ({ s.tier type with evictRef := false }, none)) := by
      simp only [tierStep, hi, Option.bind_some, callerStep, Option.map_some]
    have hne : ∀ r, TierEvent.caller i .go ≠ .retry r :=
      fun r h => by cases h
    refine .afterTier hne hstep ?_ (.now ?_)
    · intro hbreak
      rw [hi] at hbreak
      cases hbreak
    · rw [setTier_self]
      rfl
  cases p with
  | execute =>
      have hstep : tierStep type s.shared (s.tier type)
          (.caller i (.execute false)) =
          some (setCaller i (s.tier type, some .undo)) := by
        simp only [tierStep, hi, Option.bind_some, callerStep]
        rfl
      have hne : ∀ r, TierEvent.caller i (.execute false) ≠ .retry r :=
        fun r h => by cases h
      refine .afterTier hne hstep ?_ (hundo (i := i) ?_)
      · intro hbreak
        rw [hi] at hbreak
        cases hbreak
      · rw [setTier_self]
        exact List.getElem?_set_self (List.getElem?_eq_some_iff.mp hi).1
  | undo => exact hundo hi
  | status => cases hhold
  | breakTask => cases hhold
  | exchange => cases hhold

/-- **AGAIN**: from a state with the tokens the flag can become clear. -/
theorem Tokens.clears (ht : Tokens s) (type : WCacheTierType) :
    Clears type s := by
  cases hflag : (s.tier type).evictRef with
  | false => exact .now hflag
  | true =>
      have htoken := ht.token type
      rw [Tier.Token, hflag, Bool.toNat_true, Tier.holders, Tier.evictTasks,
        Tier.handedOver] at htoken
      by_cases hqueued : 0 < (s.tier type).queued
      · exact clears_queued ht hqueued
      by_cases hrunning : 0 < (s.tier type).running.length
      · exact clears_running ht (List.getElem?_eq_getElem hrunning)
          (Nat.le_refl _)
      by_cases hregistered : 0 < (s.tier type).retryManager
      · exact clears_registered ht hregistered
      by_cases hcalling :
          0 < (s.tier type).callers.countP CallerPhase.holding
      · exact clears_calling hcalling
      · have hheld : 0 < (s.tier type).retry.held := by omega
        have hturn : s.turn = type := by
          by_contra hne
          rw [ht.turn type hne] at hheld
          cases hheld
        exact clears_held hturn hheld

/-! ## Whole runs -/

/-- The flag is set exactly if one task is queued or running, or one retry is
    registered, or one of them is being handed over, and then there is no
    other; and if it is clear, there is none of them. -/
structure Tier.OneOwner (t : Tier) : Prop where
  flag : t.evictRef = true ↔
    (t.evictTasks = 1 ∧ t.retryManager = 0 ∧ t.handedOver = 0) ∨
    (t.evictTasks = 0 ∧ t.retryManager = 1 ∧ t.handedOver = 0) ∨
    (t.evictTasks = 0 ∧ t.retryManager = 0 ∧ t.handedOver = 1)
  clear : t.evictRef = false →
    t.evictTasks = 0 ∧ t.retryManager = 0 ∧ t.handedOver = 0

theorem oneOwner_iff {t : Tier} : t.OneOwner ↔ t.Token := by
  rw [Tier.Token, Tier.holders]
  constructor
  · intro h
    cases hflag : t.evictRef with
    | false =>
        have hclear := h.clear hflag
        show _ = 0
        omega
    | true =>
        have howner := h.flag.mp hflag
        show _ = 1
        omega
  · intro h
    cases hflag : t.evictRef with
    | false =>
        rw [hflag, Bool.toNat_false] at h
        refine ⟨⟨fun h => ?_, fun h => ?_⟩, fun _ => by omega⟩
        · rw [hflag] at h
          cases h
        · omega
    | true =>
        rw [hflag, Bool.toNat_true] at h
        refine ⟨⟨fun _ => by omega, fun _ => hflag⟩, fun h => ?_⟩
        rw [hflag] at h
        cases h

/-- **EVICTION TOKENS**: the states of a run have one owner of each set flag
    and none of a clear one exactly if every call of `mLocRole` by a task
    succeeds and no `StartEvictTask` breaks a task that it has not started.
    Then there is one task of a type at most, and from every state the flag of
    a type can become clear again. -/
theorem eviction_tokens {isNormal isForced : Bool} {es : List Event}
    {t : WCache} (h : run (.init isNormal isForced) es = some t) :
    ((∀ n m, run (.init isNormal isForced) (es.take n) = some m →
        ∀ type, (m.tier type).OneOwner) ↔
      Along step Keeps (.init isNormal isForced) es) ∧
    (Along step Keeps (.init isNormal isForced) es →
      ∀ type, (t.tier type).evictTasks ≤ 1 ∧ Clears type t) := by
  have hinit := tokens_init isNormal isForced
  have hiff := invariant_iff_along (fun _ _ _ => tokens_step) es _ t hinit h
  refine ⟨⟨?_, ?_⟩, ?_⟩
  · intro howner
    refine hiff.mp fun n m hm => ⟨fun type => ?_, ?_⟩
    · exact oneOwner_iff.mp (howner n m hm type)
    · exact runFrom_invariant (fun _ _ _ => turned_step) hinit.turn hm
  · intro halong n m hm type
    exact oneOwner_iff.mpr ((hiff.mpr halong n m hm).token type)
  · intro halong type
    have ht : Tokens t := by
      refine hiff.mpr halong es.length t ?_
      rw [List.take_length]
      exact h
    refine ⟨?_, ht.clears type⟩
    have htoken := ht.token type
    have hle := Bool.toNat_le (t.tier type).evictRef
    rw [Tier.Token, Tier.holders] at htoken
    omega

/-- The events by which `StartEvictTask` gives a task to the thread pool. -/
def started (type : WCacheTierType) : List Event :=
  [.tier type .call, .tier type (.caller 0 .go),
   .tier type (.caller 0 (.exchange false)),
   .tier type (.caller 0 (.execute true))]

/-- A disk task does not get its role. -/
def refusedRole : List Event :=
  started .disk ++ [.tier .disk .start,
   .tier .disk (.task 0 (.locRole (.error 1) false))]

/-- While a memory task is queued, the disk is not normal for a time. -/
def brokenTask : List Event :=
  started .memory ++ [.diskStatus false, .tier .memory .call,
   .tier .memory (.caller 0 .go), .tier .memory (.caller 0 .go),
   .diskStatus true] ++ started .memory

/-- The flag of a tier is set without an owner, and a tier has two tasks. -/
theorem flag_without_owner :
    (∃ s, run (.init true false) refusedRole = some s ∧
      (s.tier .disk).evictRef = true ∧ (s.tier .disk).evictTasks = 0 ∧
      (s.tier .disk).retryManager = 0 ∧ (s.tier .disk).handedOver = 0) ∧
    ∃ s, run (.init true false) brokenTask = some s ∧
      (s.tier .memory).evictTasks = 2 := by
  have hrefused : (run (.init true false) refusedRole).any (fun s =>
      decide ((s.tier .disk).evictRef = true ∧ (s.tier .disk).evictTasks = 0 ∧
        (s.tier .disk).retryManager = 0 ∧ (s.tier .disk).handedOver = 0)) =
        true := by
    decide
  have hbroken : (run (.init true false) brokenTask).any (fun s =>
      decide ((s.tier .memory).evictTasks = 2)) = true := by
    decide
  obtain ⟨s, hs, hflag⟩ := (Option.any_eq_true _ _).mp hrefused
  obtain ⟨s', hs', htwo⟩ := (Option.any_eq_true _ _).mp hbroken
  exact ⟨⟨s, hs, of_decide_eq_true hflag⟩, s', hs', of_decide_eq_true htwo⟩

/-- A check that is enough for a step to keep the tokens. -/
def keepsB (s : WCache) : Event → Bool
  | .tier _ (.task _ (.locRole ret _)) => decide (ret = .ok)
  | .tier type (.caller i _) =>
      !decide ((s.tier type).callers[i]? = some .breakTask) ||
        !(s.tier type).evictRef
  | _ => true

theorem keeps_of_keepsB {s : WCache} {e : Event} (h : keepsB s e = true) :
    Keeps s e := by
  cases e with
  | tier type e =>
      cases e with
      | task i e =>
          cases e with
          | locRole ret isMaster =>
              exact of_decide_eq_true (p := ret = .ok) h
          | _ => exact trivial
      | caller i e =>
          intro hbreak
          simp only [keepsB, hbreak, decide_true, Bool.not_true,
            Bool.false_or, Bool.not_eq_true'] at h
          exact h
      | _ => exact trivial
  | _ => exact trivial

/-- A disk task finds no reason to evict and registers a retry, and
    `RetryEvictThread` comes to it with a slice in the queue. -/
def retried : List Event :=
  started .disk ++ [.tier .disk .start,
   .tier .disk (.task 0 (.locRole .ok true)),
   .tier .disk (.task 0 (.satisfied false)), .tier .disk (.task 0 .go),
   .tier .disk (.task 0 .go), .tier .disk (.addSlice (some ⟨0, 4096⟩)),
   .tier .memory (.retry .go), .tier .memory (.retry .go),
   .tier .disk (.retry .go), .tier .disk (.retry .go),
   .tier .disk (.retry .go), .tier .disk (.retry .go),
   .tier .disk (.retry (.execute true))]

theorem eviction_tokens_retried :
    ∃ t, run (.init true false) retried = some t ∧
      (t.tier .disk).queued = 1 ∧
      (∀ n m, run (.init true false) (retried.take n) = some m →
        ∀ type, (m.tier type).OneOwner) ∧
      ∀ type, (t.tier type).evictTasks ≤ 1 ∧ Clears type t := by
  have hrun : (run (.init true false) retried).any (fun s =>
      decide ((s.tier .disk).queued = 1)) = true := by
    decide
  obtain ⟨t, ht, hqueued⟩ := (Option.any_eq_true _ _).mp hrun
  have halong : Along step Keeps (.init true false) retried :=
    along_of_alongB (b := keepsB) (fun _ _ => keeps_of_keepsB) _ _
      (by decide)
  obtain ⟨hiff, hagain⟩ := eviction_tokens ht
  exact ⟨t, ht, of_decide_eq_true hqueued, hiff.mpr halong, hagain halong⟩

end UbsIo.Evict
