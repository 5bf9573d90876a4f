import Mathlib

/-! # Runs of a partial step function

    A component is a state type, an event type and a step function that
    refuses some events (`none`).  A run is a list of events that the step
    function accepts one after another.  The rules here are the only
    inductions over runs the development uses:

    * `runFrom_invariant`: what every accepted step preserves holds at the end
      of every run;
    * `runFrom_invariant_along`: the same for runs whose steps all meet a
      guard on the state before the step and on the event;
    * `along_of_invariant`: what invariant and guard give at a step holds at
      every step of a guarded run;
    * `invariant_iff_along`: where a step keeps the invariant exactly when it
      meets the guard, the states of a run keep it exactly when the run meets
      the guard;
    * `along_iff_along`: the same for a property of the steps;
    * `final_iff_along`: the same for the last state, where what is lost stays
      lost. -/

namespace UbsIo.Lib

variable {σ ε : Type}

/-- The parties of a system of two, by number. -/
def two : Nat → Fin 2 := Fin.ofNat 2

/-- The parties of a system of three, by number. -/
def three : Nat → Fin 3 := Fin.ofNat 3

/-- Run a list of events, stopping at the first refused one. -/
def runFrom (step : σ → ε → Option σ) : σ → List ε → Option σ
  | s, [] => some s
  | s, e :: es => (step s e).bind fun s' => runFrom step s' es

/-- Every step of the run meets the guard `G` in the state it is taken in. -/
def Along (step : σ → ε → Option σ) (G : σ → ε → Prop) : σ → List ε → Prop
  | _, [] => True
  | s, e :: es => G s e ∧ ∀ s', step s e = some s' → Along step G s' es

@[simp] theorem runFrom_nil (step : σ → ε → Option σ) (s : σ) :
    runFrom step s [] = some s := rfl

/-- A run of at least one event is a step followed by a run. -/
theorem runFrom_cons {step : σ → ε → Option σ} {s t : σ} {e : ε}
    {es : List ε} :
    runFrom step s (e :: es) = some t ↔
      ∃ s', step s e = some s' ∧ runFrom step s' es = some t := by
  show (step s e).bind _ = some t ↔ _
  rw [Option.bind_eq_some_iff]

/-- Runs compose. -/
theorem runFrom_append {step : σ → ε → Option σ} {es fs : List ε} :
    ∀ {s t : σ}, runFrom step s (es ++ fs) = some t ↔
      ∃ m, runFrom step s es = some m ∧ runFrom step m fs = some t := by
  induction es with
  | nil =>
      intro s t
      constructor
      · intro h
        exact ⟨s, rfl, h⟩
      · rintro ⟨m, hm, h⟩
        rw [runFrom_nil] at hm
        rw [Option.some.inj hm]
        exact h
  | cons e es ih =>
      intro s t
      rw [List.cons_append, runFrom_cons]
      constructor
      · rintro ⟨s', hs, h⟩
        obtain ⟨m, hm, ht⟩ := ih.mp h
        exact ⟨m, runFrom_cons.mpr ⟨s', hs, hm⟩, ht⟩
      · rintro ⟨m, hm, ht⟩
        obtain ⟨s', hs, hr⟩ := runFrom_cons.mp hm
        exact ⟨s', hs, ih.mpr ⟨m, hr, ht⟩⟩

/-- A run of translated events is a run of the translated step. -/
theorem runFrom_map {ε' : Type} {step : σ → ε' → Option σ} (f : ε → ε') :
    ∀ (es : List ε) (s : σ),
      runFrom step s (es.map f) = runFrom (fun s e => step s (f e)) s es := by
  intro es
  induction es with
  | nil => exact fun _ => rfl
  | cons e es ih =>
      intro s
      simp only [List.map_cons, runFrom, ih]

/-- A guarded run is a guarded run followed by one. -/
theorem along_append {step : σ → ε → Option σ} {G : σ → ε → Prop}
    {es fs : List ε} :
    ∀ {s : σ}, Along step G s (es ++ fs) ↔ Along step G s es ∧
      ∀ t, runFrom step s es = some t → Along step G t fs := by
  induction es with
  | nil =>
      intro s
      constructor
      · intro h
        refine ⟨trivial, ?_⟩
        intro t ht
        rw [runFrom_nil] at ht
        rw [← Option.some.inj ht]
        exact h
      · rintro ⟨-, h⟩
        exact h s rfl
  | cons e es ih =>
      intro s
      constructor
      · rintro ⟨hG, h⟩
        refine ⟨⟨hG, fun s' hs => (ih.mp (h s' hs)).1⟩, ?_⟩
        intro t ht
        obtain ⟨s', hs, hr⟩ := runFrom_cons.mp ht
        exact (ih.mp (h s' hs)).2 t hr
      · rintro ⟨⟨hG, h⟩, hrest⟩
        refine ⟨hG, fun s' hs => ih.mpr ⟨h s' hs, ?_⟩⟩
        intro t ht
        exact hrest t (runFrom_cons.mpr ⟨s', hs, ht⟩)

/-- **GUARDED INVARIANT RULE**: an invariant kept by every accepted step that
    meets the guard holds at the end of every run that meets it throughout. -/
theorem runFrom_invariant_along {step : σ → ε → Option σ}
    {G : σ → ε → Prop} {I : σ → Prop}
    (hstep : ∀ s e s', I s → G s e → step s e = some s' → I s') :
    ∀ (es : List ε) (s t : σ), I s → Along step G s es →
      runFrom step s es = some t → I t := by
  intro es
  induction es with
  | nil =>
      intro s t hI _ hr
      rw [runFrom_nil] at hr
      rw [← Option.some.inj hr]
      exact hI
  | cons e es ih =>
      intro s t hI hG hr
      obtain ⟨s', hs, hr'⟩ := runFrom_cons.mp hr
      exact ih s' t (hstep s e s' hI hG.1 hs) (hG.2 s' hs) hr'

/-- **STEP PROPERTY RULE**: what the invariant and the guard give at a step
    holds at every step of every guarded run. -/
theorem along_of_invariant {step : σ → ε → Option σ} {G P : σ → ε → Prop}
    {I : σ → Prop}
    (hstep : ∀ s e s', I s → step s e = some s' → I s')
    (hP : ∀ s e, I s → G s e → P s e) :
    ∀ (es : List ε) (s : σ), I s → Along step G s es →
      Along step P s es := by
  intro es
  induction es with
  | nil => intro s _ _; exact trivial
  | cons e es ih =>
      intro s hI hG
      exact ⟨hP s e hI hG.1,
        fun s' hs => ih s' (hstep s e s' hI hs) (hG.2 s' hs)⟩

/-- **EXACT GUARD RULE**: if from a state with the invariant a step keeps it
    exactly when it meets the guard, then all states of a run have it exactly
    when all steps of the run meet the guard. -/
theorem invariant_iff_along {step : σ → ε → Option σ} {G : σ → ε → Prop}
    {I : σ → Prop}
    (hstep : ∀ s e s', I s → step s e = some s' → (I s' ↔ G s e)) :
    ∀ (es : List ε) (s t : σ), I s → runFrom step s es = some t →
      ((∀ n m, runFrom step s (es.take n) = some m → I m) ↔
        Along step G s es) := by
  intro es
  induction es with
  | nil =>
      intro s t hI _
      constructor
      · exact fun _ => trivial
      · intro _ n m hm
        rw [List.take_nil, runFrom_nil] at hm
        rw [← Option.some.inj hm]
        exact hI
  | cons e es ih =>
      intro s t hI hr
      obtain ⟨s₁, hs, hr'⟩ := runFrom_cons.mp hr
      constructor
      · intro h
        -- the first step leads to a state of the run
        have h₁ : I s₁ := h 1 s₁ (runFrom_cons.mpr ⟨s₁, hs, rfl⟩)
        refine ⟨(hstep s e s₁ hI hs).mp h₁, ?_⟩
        intro s' hs'
        rw [hs] at hs'
        rw [← Option.some.inj hs']
        refine (ih s₁ t h₁ hr').mp ?_
        intro n m hm
        exact h (n + 1) m (runFrom_cons.mpr ⟨s₁, hs, hm⟩)
      · rintro ⟨hG, hrest⟩ n m hm
        have h₁ : I s₁ := (hstep s e s₁ hI hs).mpr hG
        cases n with
        | zero =>
            rw [List.take_zero, runFrom_nil] at hm
            rw [← Option.some.inj hm]
            exact hI
        | succ n =>
            obtain ⟨s', hs', hm'⟩ := runFrom_cons.mp hm
            rw [hs] at hs'
            rw [← Option.some.inj hs'] at hm'
            exact (ih s₁ t h₁ hr').mpr (hrest s₁ hs) n m hm'

/-- **EXACT STEP RULE**: if from a state with the invariant a step has a
    property exactly when it meets the guard, and the guard keeps the invariant,
    then all steps of a run have the property exactly when they all meet the
    guard. -/
theorem along_iff_along {step : σ → ε → Option σ} {G P : σ → ε → Prop}
    {I : σ → Prop} (hP : ∀ s e, I s → (P s e ↔ G s e))
    (hstep : ∀ s e s', I s → G s e → step s e = some s' → I s') :
    ∀ (es : List ε) (s : σ), I s → (Along step P s es ↔ Along step G s es) := by
  intro es
  induction es with
  | nil => exact fun s _ => Iff.rfl
  | cons e es ih =>
      intro s hI
      constructor
      · rintro ⟨hp, hrest⟩
        have hG := (hP s e hI).mp hp
        exact ⟨hG, fun s' hs => (ih s' (hstep s e s' hI hG hs)).mp (hrest s' hs)⟩
      · rintro ⟨hG, hrest⟩
        exact ⟨(hP s e hI).mpr hG,
          fun s' hs => (ih s' (hstep s e s' hI hG hs)).mpr (hrest s' hs)⟩

/-- **FINAL STATE RULE**: if a step keeps `Q` exactly when it meets the guard,
    and what has lost `Q` does not get it back, then the last state of a run
    has `Q` exactly when all steps of the run meet the guard.  `J` is an
    invariant of the runs in question, those along `H`. -/
theorem final_iff_along {step : σ → ε → Option σ} {H G : σ → ε → Prop}
    {J Q : σ → Prop}
    (hinv : ∀ s e s', J s → H s e → step s e = some s' → J s')
    (hkeep : ∀ s e s', J s → H s e → step s e = some s' → Q s →
      (Q s' ↔ G s e))
    (hlost : ∀ s e s', J s → H s e → step s e = some s' → ¬ Q s → ¬ Q s') :
    ∀ (es : List ε) (s t : σ), J s → Q s → Along step H s es →
      runFrom step s es = some t → (Q t ↔ Along step G s es) := by
  intro es
  induction es with
  | nil =>
      intro s t _ hQ _ hr
      rw [runFrom_nil] at hr
      rw [← Option.some.inj hr]
      exact ⟨fun _ => trivial, fun _ => hQ⟩
  | cons e es ih =>
      intro s t hJ hQ hH hr
      obtain ⟨s₁, hs, hr'⟩ := runFrom_cons.mp hr
      have hJ₁ : J s₁ := hinv s e s₁ hJ hH.1 hs
      by_cases hG : G s e
      · have hQ₁ : Q s₁ := (hkeep s e s₁ hJ hH.1 hs hQ).mpr hG
        rw [ih s₁ t hJ₁ hQ₁ (hH.2 s₁ hs) hr']
        constructor
        · intro hrest
          refine ⟨hG, ?_⟩
          intro s' hs'
          rw [hs] at hs'
          rw [← Option.some.inj hs']
          exact hrest
        · exact fun h => h.2 s₁ hs
      · have hlost₁ : ¬ Q s₁ := fun h =>
          hG ((hkeep s e s₁ hJ hH.1 hs hQ).mp h)
        have hnot : J t ∧ ¬ Q t :=
          runFrom_invariant_along (I := fun s => J s ∧ ¬ Q s)
            (fun s e s' hI hg hstep =>
              ⟨hinv s e s' hI.1 hg hstep, hlost s e s' hI.1 hg hstep hI.2⟩)
            es s₁ t ⟨hJ₁, hlost₁⟩ (hH.2 s₁ hs) hr'
        exact ⟨fun h => absurd h hnot.2, fun h => absurd h.1 hG⟩

/-- A condition on the events alone. -/
theorem along_of_forall {step : σ → ε → Option σ} {P : ε → Prop} :
    ∀ {es : List ε} (s : σ), (∀ e ∈ es, P e) →
      Along step (fun _ => P) s es := by
  intro es
  induction es with
  | nil => intro s _; exact trivial
  | cons e es ih =>
      intro s h
      exact ⟨h e (List.mem_cons_self ..),
        fun s' _ => ih s' fun x hx => h x (List.mem_cons_of_mem _ hx)⟩

/-- **INVARIANT RULE**: an invariant kept by every accepted step holds at the
    end of every run. -/
theorem runFrom_invariant {step : σ → ε → Option σ} {I : σ → Prop}
    (hstep : ∀ s e s', I s → step s e = some s' → I s')
    {es : List ε} {s t : σ} (hI : I s) (hr : runFrom step s es = some t) :
    I t := by
  have hall : ∀ (es : List ε) (s : σ), Along step (fun _ _ => True) s es := by
    intro es
    induction es with
    | nil => intro s; exact trivial
    | cons e es ih => intro s; exact ⟨trivial, fun s' _ => ih s'⟩
  exact runFrom_invariant_along (G := fun _ _ => True)
    (fun s e s' h _ hs => hstep s e s' h hs) es s t hI (hall es s) hr

/-- Check a condition at every step of a run by evaluating it. -/
def alongB (step : σ → ε → Option σ) (check : σ → ε → Bool) :
    σ → List ε → Bool
  | _, [] => true
  | s, e :: es => check s e &&
      match step s e with
      | some s' => alongB step check s' es
      | none => true

/-- **EVALUATION RULE**: a condition that the check implies holds along every
    run that passes it. -/
theorem along_of_alongB {step : σ → ε → Option σ} {G : σ → ε → Prop}
    {b : σ → ε → Bool} (hcheck : ∀ s e, b s e = true → G s e) :
    ∀ (es : List ε) (s : σ), alongB step b s es = true →
      Along step G s es := by
  intro es
  induction es with
  | nil => exact fun _ _ => trivial
  | cons e es ih =>
      intro s h
      obtain ⟨hs, hrest⟩ := Bool.and_eq_true_iff.mp h
      refine ⟨hcheck s e hs, fun s' hstep => ih s' ?_⟩
      rw [hstep] at hrest
      exact hrest

end UbsIo.Lib
