import Mathlib

/-! # Visiting a list with a threaded state

    The loops of the program over an array of records keep a second structure
    (a work list, a table of counters) that every visit reads and updates, and
    stop at the first visit that fails.  `traverseSt` is that loop.  What one
    visit does to its record is lifted to the whole array by `Forall₂`. -/

namespace UbsIo.Lib

variable {α τ : Type}

/-- Visit the elements in order, threading a state; the first failing visit
    fails the loop. -/
def traverseSt (f : α → τ → Option (α × τ)) :
    List α → τ → Option (List α × τ)
  | [], t => some ([], t)
  | a :: as, t =>
      (f a t).bind fun r =>
        (traverseSt f as r.2).bind fun rs => some (r.1 :: rs.1, rs.2)

/-- Every visit of the loop meets `P` in the state it is made in. -/
def Visits (f : α → τ → Option (α × τ)) (P : α → τ → Prop) :
    List α → τ → Prop
  | [], _ => True
  | a :: as, t => P a t ∧ ∀ r, f a t = some r → Visits f P as r.2

/-- Inversion of a loop over a non-empty list. -/
theorem traverseSt_cons {f : α → τ → Option (α × τ)} {a : α} {as : List α}
    {t t'' : τ} {bs : List α} (h : traverseSt f (a :: as) t = some (bs, t'')) :
    ∃ b t' bs', f a t = some (b, t') ∧ traverseSt f as t' = some (bs', t'')
      ∧ bs = b :: bs' := by
  have h' : (f a t).bind (fun r => (traverseSt f as r.2).bind
      fun rs => some (r.1 :: rs.1, rs.2)) = some (bs, t'') := h
  obtain ⟨⟨b, t'⟩, hf, h1⟩ := Option.bind_eq_some_iff.mp h'
  obtain ⟨⟨bs', t3⟩, hr, h2⟩ := Option.bind_eq_some_iff.mp h1
  have hp := Option.some.inj h2
  have hbs : b :: bs' = bs := congrArg Prod.fst hp
  have ht : t3 = t'' := congrArg Prod.snd hp
  refine ⟨b, t', bs', hf, ?_, hbs.symm⟩
  rw [← ht]
  exact hr

/-- **LOOP RULE**: what every visit that meets `P` does to its record, the loop
    does to the whole array. -/
theorem traverseSt_forall₂ {f : α → τ → Option (α × τ)} {P : α → τ → Prop}
    {R : α → α → Prop}
    (hf : ∀ a t b t', P a t → f a t = some (b, t') → R a b) :
    ∀ (as : List α) (t t' : τ) (bs : List α), Visits f P as t →
      traverseSt f as t = some (bs, t') → List.Forall₂ R as bs := by
  intro as
  induction as with
  | nil =>
      intro t t' bs _ h
      have hp := Option.some.inj h
      have hbs : [] = bs := congrArg Prod.fst hp
      rw [← hbs]
      exact List.Forall₂.nil
  | cons a as ih =>
      intro t t' bs hP h
      obtain ⟨b, t1, bs', hfa, hrest, rfl⟩ := traverseSt_cons h
      exact List.Forall₂.cons (hf a t b t1 hP.1 hfa)
        (ih t1 t' bs' (hP.2 _ hfa) hrest)

/-- **PROGRESS RULE**: if in every state that fits the records done so far the
    next visit succeeds, and the state it leaves fits them and the new one,
    then the loop succeeds and its last state fits all records. -/
theorem traverseSt_total {f : α → τ → Option (α × τ)} {R : α → α → Prop}
    {P : List α → τ → Prop} :
    ∀ (as done : List α) (t : τ),
      (∀ a ∈ as, ∀ done' t, done'.length < done.length + as.length →
        P done' t → ∃ b t', f a t = some (b, t') ∧ R a b ∧
          P (done' ++ [b]) t') →
      P done t →
      ∃ bs t', traverseSt f as t = some (bs, t') ∧ List.Forall₂ R as bs ∧
        P (done ++ bs) t' := by
  intro as
  induction as with
  | nil =>
      intro done t _ hP
      refine ⟨[], t, rfl, List.Forall₂.nil, ?_⟩
      rwa [List.append_nil]
  | cons a as ih =>
      intro done t hf hP
      obtain ⟨b, t₁, hfa, hR, hP₁⟩ := hf a (List.mem_cons_self ..) done t
        (by rw [List.length_cons]; omega) hP
      obtain ⟨bs, t₂, hrest, hRs, hP₂⟩ := ih (done ++ [b]) t₁
        (fun x hx done' u hlt => hf x (List.mem_cons_of_mem _ hx) done' u
          (by rw [List.length_append, List.length_singleton] at hlt
              rw [List.length_cons]; omega)) hP₁
      refine ⟨b :: bs, t₂, ?_, List.Forall₂.cons hR hRs, ?_⟩
      · rw [traverseSt, hfa]
        show (traverseSt f as t₁).bind _ = _
        rw [hrest]
        rfl
      · rwa [List.append_assoc] at hP₂

/-- A condition that every visit meets anyway. -/
theorem visits_of_forall {f : α → τ → Option (α × τ)} {P : α → τ → Prop}
    (h : ∀ a t, P a t) : ∀ (as : List α) (t : τ), Visits f P as t := by
  intro as
  induction as with
  | nil => intro t; exact trivial
  | cons a as ih => intro t; exact ⟨h a t, fun r _ => ih r.2⟩

/-- Entrywise relations compose along two loops. -/
theorem forall₂_comp {R S T : α → α → Prop}
    (h : ∀ a b c, R a b → S b c → T a c) :
    ∀ {xs ys zs : List α}, List.Forall₂ R xs ys → List.Forall₂ S ys zs →
      List.Forall₂ T xs zs := by
  intro xs ys zs hxy
  induction hxy generalizing zs with
  | nil => intro hyz; cases hyz; exact List.Forall₂.nil
  | cons hab _ ih =>
      intro hyz
      cases hyz with
      | cons hbc hrest => exact List.Forall₂.cons (h _ _ _ hab hbc) (ih hrest)

/-- Replacing one record by a related one. -/
theorem forall₂_set {R : α → α → Prop} (hrefl : ∀ a, R a a) :
    ∀ {as : List α} {k : Nat} {a b : α}, as[k]? = some a → R a b →
      List.Forall₂ R as (as.set k b) := by
  intro as
  induction as with
  | nil => intro k a b hk _; exact nomatch hk
  | cons c as ih =>
      intro k a b hk hab
      cases k with
      | zero =>
          rw [List.getElem?_cons_zero] at hk
          rw [← Option.some.inj hk] at hab
          exact List.Forall₂.cons hab (List.forall₂_same.mpr fun x _ => hrefl x)
      | succ k =>
          rw [List.getElem?_cons_succ] at hk
          exact List.Forall₂.cons (hrefl c) (ih hk hab)

/-- A property of single records that a related record inherits. -/
theorem forall₂_all {R : α → α → Prop} {P Q : α → Prop}
    (h : ∀ a b, R a b → P a → Q b) :
    ∀ {xs ys : List α}, List.Forall₂ R xs ys → (∀ x ∈ xs, P x) →
      ∀ y ∈ ys, Q y := by
  intro xs ys hxy
  induction hxy with
  | nil => intro _ y hy; exact nomatch hy
  | cons hab _ ih =>
      intro hP y hy
      rcases List.mem_cons.mp hy with heq | hmem
      · rw [heq]
        exact h _ _ hab (hP _ (List.mem_cons_self ..))
      · exact ih (fun x hx => hP x (List.mem_cons_of_mem _ hx)) y hmem

/-- A sequence that does not fail is two calls that do not fail. -/
theorem bind_ok {ε α β : Type} {x : Except ε α} {f : α → Except ε β} {b : β}
    (h : x >>= f = .ok b) : ∃ a, x = .ok a ∧ f a = .ok b := by
  cases x with
  | error e => cases h
  | ok a => exact ⟨a, rfl, h⟩

/-- A loop that does not fail is a visit that does not fail, followed by a
    loop. -/
theorem foldlM_cons_ok {ε : Type} {f : τ → α → Except ε τ} {a : α}
    {as : List α} {t t' : τ} (h : (a :: as).foldlM f t = .ok t') :
    ∃ u, f t a = .ok u ∧ as.foldlM f u = .ok t' := by
  rw [List.foldlM_cons] at h
  exact bind_ok h

/-- **PREFIX RULE**: what holds of the visited elements and the state, and is
    kept by each further visit, holds of all elements when no visit fails. -/
theorem foldlM_ok_prefix {ε : Type} {f : τ → α → Except ε τ}
    {P : List α → τ → Prop} {l : List α}
    (hf : ∀ done a todo t t', l = done ++ a :: todo → P done t →
      f t a = .ok t' → P (done ++ [a]) t') :
    ∀ {t t' : τ}, P [] t → l.foldlM f t = .ok t' → P l t' := by
  have hrest : ∀ (todo done : List α) (t t' : τ), l = done ++ todo →
      P done t → todo.foldlM f t = .ok t' → P l t' := by
    intro todo
    induction todo with
    | nil =>
        intro done t t' hl hP h
        rw [List.foldlM_nil] at h
        cases h
        rwa [hl, List.append_nil]
    | cons a todo ih =>
        intro done t t' hl hP h
        obtain ⟨u, hu, h⟩ := foldlM_cons_ok h
        exact ih (done ++ [a]) u t' (by rw [hl, List.append_assoc]; rfl)
          (hf done a todo t u hl hP hu) h
  intro t t' hP h
  exact hrest l [] t t' rfl hP h

/-- A loop in `Option` keeps what each of its visits keeps. -/
theorem foldlM_some_invariant {f : τ → α → Option τ} {I : τ → Prop}
    (hf : ∀ t a t', I t → f t a = some t' → I t') :
    ∀ {as : List α} {t t' : τ}, I t → as.foldlM f t = some t' → I t' := by
  intro as
  induction as with
  | nil =>
      intro t t' hI h
      cases h
      exact hI
  | cons a as ih =>
      intro t t' hI h
      rw [List.foldlM_cons] at h
      obtain ⟨u, hu, h⟩ := Option.bind_eq_some_iff.mp h
      exact ih (hf t a u hI hu) h

/-- A map in `Option` that does not fail relates the records one by one. -/
theorem forall₂_of_mapM_some {f : α → Option α} {R : α → α → Prop} :
    ∀ {as bs : List α}, (∀ a b, a ∈ as → f a = some b → R a b) →
      as.mapM f = some bs → List.Forall₂ R as bs := by
  intro as
  induction as with
  | nil =>
      intro bs _ h
      cases h
      exact List.Forall₂.nil
  | cons a as ih =>
      intro bs hf h
      rw [List.mapM_cons] at h
      obtain ⟨b, hb, h⟩ := Option.bind_eq_some_iff.mp h
      obtain ⟨bs', hbs, h⟩ := Option.bind_eq_some_iff.mp h
      cases h
      exact List.Forall₂.cons (hf a b (List.mem_cons_self ..) hb)
        (ih (fun x y hx => hf x y (List.mem_cons_of_mem _ hx)) hbs)

/-- A traversal succeeds if every visit does. -/
theorem mapM_some_of_forall {β : Type} {f : α → Option β} {g : α → β} :
    ∀ {as : List α}, (∀ a ∈ as, f a = some (g a)) →
      as.mapM f = some (as.map g) := by
  intro as
  induction as with
  | nil => intro _; rfl
  | cons a as ih =>
      intro h
      rw [List.mapM_cons, h a (List.mem_cons_self ..),
        ih fun x hx => h x (List.mem_cons_of_mem _ hx)]
      rfl

/-- A search in `Option` whose tests do not fail. -/
theorem anyM_some_of_forall {f : α → Option Bool} {g : α → Bool} :
    ∀ {as : List α}, (∀ a ∈ as, f a = some (g a)) →
      as.anyM f = some (as.any g) := by
  intro as
  induction as with
  | nil => intro _; rfl
  | cons a as ih =>
      intro h
      rw [List.anyM, h a (List.mem_cons_self ..), List.any_cons]
      cases hg : g a with
      | true => rfl
      | false => exact ih fun x hx => h x (List.mem_cons_of_mem _ hx)

/-- A loop in `Option` whose visits succeed. -/
theorem foldlM_total {f : τ → α → Option τ} {I : τ → Prop} :
    ∀ (as : List α),
      (∀ a ∈ as, ∀ t, I t → ∃ t', f t a = some t' ∧ I t') →
      ∀ {t : τ}, I t → ∃ t', as.foldlM f t = some t' ∧ I t' := by
  intro as
  induction as with
  | nil => exact fun _ t hI => ⟨t, rfl, hI⟩
  | cons a as ih =>
      intro hf t hI
      obtain ⟨u, hu, hIu⟩ := hf a (List.mem_cons_self ..) t hI
      obtain ⟨t', ht', hI'⟩ :=
        ih (fun x hx => hf x (List.mem_cons_of_mem _ hx)) hIu
      refine ⟨t', ?_, hI'⟩
      rw [List.foldlM_cons, hu]
      exact ht'

/-- A map in `Option` whose visits succeed. -/
theorem mapM_total {β : Type} {f : α → Option β} {P : β → Prop} :
    ∀ {as : List α}, (∀ a ∈ as, ∃ b, f a = some b ∧ P b) →
      ∃ bs, as.mapM f = some bs ∧ ∀ b ∈ bs, P b := by
  intro as
  induction as with
  | nil => exact fun _ => ⟨[], rfl, fun b hb => nomatch hb⟩
  | cons a as ih =>
      intro hf
      obtain ⟨b, hb, hP⟩ := hf a (List.mem_cons_self ..)
      obtain ⟨bs, hbs, hPs⟩ := ih fun x hx => hf x (List.mem_cons_of_mem _ hx)
      refine ⟨b :: bs, ?_, ?_⟩
      · rw [List.mapM_cons, hb, hbs]
        rfl
      · intro y hy
        rcases List.mem_cons.mp hy with rfl | hy
        · exact hP
        · exact hPs y hy

/-- **COLLECTING RULE**: a loop whose visits succeed and each add what `R` says
    to what has been collected succeeds and collects all of it. -/
theorem foldlM_collect {ι : Type} {f : τ → α → Option τ}
    {T : List ι → τ → Prop} {R : α → ι → Prop} :
    ∀ {as : List α},
      (∀ a ∈ as, ∀ seen t, T seen t → ∃ seen' t', f t a = some t' ∧
        T seen' t' ∧ ∀ y, y ∈ seen' ↔ y ∈ seen ∨ R a y) →
      ∀ {seen : List ι} {t : τ}, T seen t →
        ∃ seen' t', as.foldlM f t = some t' ∧ T seen' t' ∧
          ∀ y, y ∈ seen' ↔ y ∈ seen ∨ ∃ a ∈ as, R a y := by
  intro as
  induction as with
  | nil =>
      intro _ seen t hT
      refine ⟨seen, t, rfl, hT, fun y => ?_⟩
      simp only [List.not_mem_nil, false_and, exists_false, or_false]
  | cons a as ih =>
      intro hf seen t hT
      obtain ⟨seen₁, t₁, h₁, hT₁, hmem₁⟩ :=
        hf a (List.mem_cons_self ..) seen t hT
      obtain ⟨seen₂, t₂, h₂, hT₂, hmem₂⟩ :=
        ih (fun x hx => hf x (List.mem_cons_of_mem _ hx)) hT₁
      refine ⟨seen₂, t₂, ?_, hT₂, fun y => ?_⟩
      · rw [List.foldlM_cons, h₁]
        exact h₂
      · rw [hmem₂, hmem₁, or_assoc]
        simp only [List.mem_cons, exists_eq_or_imp]

end UbsIo.Lib
