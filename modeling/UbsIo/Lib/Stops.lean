import UbsIo.Lib.Traverse

/-! # Where a loop stands

    `traverseSt` returns the finished array.  A visit is made in the array as
    it is then: the records before it are done, those from it on untouched.
    `stopAt` is that array, with the threaded state, and moves on by `set`. -/

namespace UbsIo.Lib

variable {α τ : Type} {f : α → τ → Option (α × τ)}

/-- The array and the state just before visit `p`. -/
def stopAt (f : α → τ → Option (α × τ)) (as : List α) (t : τ) (p : Nat) :
    Option (List α × τ) :=
  (traverseSt f (as.take p) t).map fun r => (r.1 ++ as.drop p, r.2)

/-- A loop over two arrays is two loops. -/
theorem traverseSt_append (as bs : List α) (t : τ) :
    traverseSt f (as ++ bs) t = (traverseSt f as t).bind fun r =>
      (traverseSt f bs r.2).map fun r' => (r.1 ++ r'.1, r'.2) := by
  induction as generalizing t with
  | nil =>
      show traverseSt f bs t = (traverseSt f bs t).map fun r' => (r'.1, r'.2)
      cases traverseSt f bs t with
      | none => rfl
      | some r => rfl
  | cons a as ih =>
      show (f a t).bind _ = ((f a t).bind _).bind _
      cases f a t with
      | none => rfl
      | some r =>
          show (traverseSt f (as ++ bs) r.2).bind _ = _
          rw [ih]
          show _ = ((traverseSt f as r.2).bind _).bind _
          cases traverseSt f as r.2 with
          | none => rfl
          | some r₁ =>
              show ((traverseSt f bs r₁.2).map _).bind _ =
                (traverseSt f bs r₁.2).map _
              cases traverseSt f bs r₁.2 with
              | none => rfl
              | some r₂ => rfl

/-- A loop keeps the length of the array. -/
theorem traverseSt_length {as bs : List α} {t u : τ}
    (h : traverseSt f as t = some (bs, u)) : bs.length = as.length :=
  (traverseSt_forall₂ (R := fun _ _ => True) (P := fun _ _ => True)
    (fun _ _ _ _ _ _ => trivial) as t u bs
    (visits_of_forall (fun _ _ => trivial) as t) h).length_eq.symm

@[simp] theorem stopAt_zero (as : List α) (t : τ) :
    stopAt f as t 0 = some (as, t) := rfl

theorem stopAt_length (as : List α) (t : τ) :
    stopAt f as t as.length = traverseSt f as t := by
  rw [stopAt, List.take_length, List.drop_length]
  cases traverseSt f as t with
  | none => rfl
  | some r =>
      show some (r.1 ++ [], r.2) = some r
      rw [List.append_nil]

/-- What is still to be visited is untouched. -/
theorem stopAt_rest {as es : List α} {t u : τ} {p q : Nat}
    (h : stopAt f as t p = some (es, u)) (hpq : p ≤ q) :
    es[q]? = as[q]? := by
  obtain ⟨r, hr, heq⟩ := Option.map_eq_some_iff.mp h
  obtain ⟨rfl, rfl⟩ := Prod.mk.inj heq
  have hlen := traverseSt_length hr
  rw [List.length_take] at hlen
  by_cases hp : p ≤ as.length
  · rw [List.getElem?_append_right (by omega), List.getElem?_drop]
    congr 1
    omega
  · rw [List.getElem?_eq_none (by rw [List.length_append, List.length_drop]
                                  omega),
      List.getElem?_eq_none (by omega)]

/-- **NEXT STOP**: a visit replaces its record. -/
theorem stopAt_succ {as : List α} {t : τ} {p : Nat} {a : α}
    (ha : as[p]? = some a) :
    stopAt f as t (p + 1) = (stopAt f as t p).bind fun r =>
      (f a r.2).map fun r' => (r.1.set p r'.1, r'.2) := by
  obtain ⟨hlt, hget⟩ := List.getElem?_eq_some_iff.mp ha
  have htake : as.take (p + 1) = as.take p ++ [a] := by
    rw [List.take_add_one, ha]
    rfl
  have hdrop : as.drop p = a :: as.drop (p + 1) := by
    rw [← hget, List.drop_eq_getElem_cons hlt]
  rw [stopAt, stopAt, htake, traverseSt_append]
  cases hr : traverseSt f (as.take p) t with
  | none => rfl
  | some r =>
      have hlen := traverseSt_length hr
      rw [List.length_take, Nat.min_eq_left hlt.le] at hlen
      show ((traverseSt f [a] r.2).map _).map _ = (f a r.2).map _
      show (((f a r.2).bind _).map _).map _ = _
      cases f a r.2 with
      | none => rfl
      | some r' =>
          show some ((r.1 ++ [r'.1]) ++ as.drop (p + 1), r'.2) =
            some ((r.1 ++ as.drop p).set p r'.1, r'.2)
          rw [List.set_append_right _ _ hlen.le, hlen, Nat.sub_self, hdrop,
            List.set_cons_zero, List.append_assoc]
          rfl

/-- **STOPS RULE**: if from every stop that meets `P` the next visit succeeds
    and leads to a stop that meets `P`, the loop comes to every stop. -/
theorem stopAt_total {P : Nat → List α → τ → Prop} {as : List α} {t : τ}
    (h0 : P 0 as t)
    (hstep : ∀ p es u a, as[p]? = some a → es[p]? = some a → P p es u →
      ∃ b u', f a u = some (b, u') ∧ P (p + 1) (es.set p b) u') :
    ∀ p ≤ as.length, ∃ es u, stopAt f as t p = some (es, u) ∧ P p es u := by
  intro p
  induction p with
  | zero => exact fun _ => ⟨as, t, rfl, h0⟩
  | succ p ih =>
      intro hp
      obtain ⟨es, u, hstop, hP⟩ := ih (Nat.le_of_succ_le hp)
      have ha : as[p]? = some as[p] := List.getElem?_eq_getElem hp
      obtain ⟨b, u', hb, hP'⟩ := hstep p es u as[p] ha
        ((stopAt_rest hstop (Nat.le_refl p)).trans ha) hP
      refine ⟨es.set p b, u', ?_, hP'⟩
      rw [stopAt_succ ha, hstop]
      show (f as[p] u).map _ = _
      rw [hb]
      rfl

/-- The visit of a record in a loop that ends. -/
theorem stopAt_visit {as bs : List α} {t t' : τ} {p : Nat} {a : α}
    (h : traverseSt f as t = some (bs, t')) (ha : as[p]? = some a) :
    ∃ es u b u', stopAt f as t p = some (es, u) ∧ es[p]? = some a ∧
      f a u = some (b, u') ∧ bs[p]? = some b := by
  obtain ⟨hlt, hget⟩ := List.getElem?_eq_some_iff.mp ha
  have hsplit : as = as.take p ++ a :: as.drop (p + 1) := by
    rw [← hget, ← List.drop_eq_getElem_cons hlt, List.take_append_drop]
  rw [hsplit, traverseSt_append] at h
  obtain ⟨r, hr, h⟩ := Option.bind_eq_some_iff.mp h
  obtain ⟨r', hr', heq⟩ := Option.map_eq_some_iff.mp h
  obtain ⟨b, u', bs', hb, -, hcons⟩ := traverseSt_cons hr'
  have hlen := traverseSt_length hr
  rw [List.length_take, Nat.min_eq_left hlt.le] at hlen
  have hstop : stopAt f as t p = some (r.1 ++ as.drop p, r.2) := by
    rw [stopAt, hr]
    rfl
  refine ⟨_, _, b, u', hstop, ?_, hb, ?_⟩
  · exact (stopAt_rest hstop (Nat.le_refl p)).trans ha
  · have hbs : bs = r.1 ++ r'.1 := (congrArg Prod.fst heq).symm
    rw [hbs]
    rw [hcons, List.getElem?_append_right hlen.le, hlen, Nat.sub_self]
    rfl

end UbsIo.Lib
