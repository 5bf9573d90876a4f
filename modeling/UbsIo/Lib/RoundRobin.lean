import Mathlib

/-! # Round robin

    A cursor goes round `n` places, one place a step.  However many steps it
    has made, it has been at any two places almost equally often
    (`visits_balanced`); and within `n` steps it comes by every place
    (`exists_visit`). -/

namespace UbsIo.Lib

variable {n start p q t : Nat}

/-- How often a cursor that starts at `start` has been at the place `p` in the
    first `t` steps. -/
def visits (n start p t : Nat) : Nat :=
  Nat.count (fun k => (start + k) % n = p) t

@[simp] theorem visits_zero : visits n start p 0 = 0 := rfl

theorem visits_succ : visits n start p (t + 1) =
    visits n start p t + if (start + t) % n = p then 1 else 0 :=
  Nat.count_succ _ t

/-- The steps that lead to a place are those with one remainder. -/
theorem visit_iff (hp : p < n) (k : Nat) :
    (start + k) % n = p ↔ k ≡ p + (n - start % n) [MOD n] := by
  have hstart := Nat.mod_lt start (Nat.zero_lt_of_lt hp)
  have hback : start + (p + (n - start % n)) ≡ p [MOD n] := by
    have hsum : start + (p + (n - start % n)) = p + n * (start / n + 1) := by
      have hdiv := Nat.div_add_mod start n
      rw [Nat.mul_add, Nat.mul_one]
      omega
    rw [hsum]
    exact Nat.add_mul_mod_self_left p n (start / n + 1)
  constructor
  · intro h
    have hk : start + k ≡ p [MOD n] := by
      rw [Nat.ModEq, h, Nat.mod_eq_of_lt hp]
    exact Nat.ModEq.add_left_cancel' start (hk.trans hback.symm)
  · intro h
    have hk := (Nat.ModEq.add_left start h).trans hback
    rw [Nat.ModEq, Nat.mod_eq_of_lt hp] at hk
    exact hk

theorem visits_bounds (hp : p < n) :
    t / n ≤ visits n start p t ∧ visits n start p t ≤ t / n + 1 := by
  have hcount : visits n start p t =
      Nat.count (· ≡ p + (n - start % n) [MOD n]) t := by
    rw [visits]
    congr 1
    funext k
    exact propext (visit_iff hp k)
  rw [hcount, Nat.count_modEq_card t (Nat.zero_lt_of_lt hp)]
  split
  · exact ⟨Nat.le_succ _, le_refl _⟩
  · exact ⟨le_refl _, Nat.le_succ _⟩

/-- **BALANCE**: no place is visited twice more than another. -/
theorem visits_balanced (hp : p < n) (hq : q < n) :
    visits n start p t ≤ visits n start q t + 1 :=
  (visits_bounds hp).2.trans (Nat.succ_le_succ (visits_bounds hq).1)

/-- **COMPLETENESS**: `n` steps come by every place. -/
theorem exists_visit (hp : p < n) (t : Nat) :
    ∃ k, t ≤ k ∧ k < t + n ∧ (start + k) % n = p := by
  have hpos := Nat.zero_lt_of_lt hp
  have hat := Nat.mod_lt (start + t) hpos
  have hdiv := Nat.div_add_mod (start + t) n
  have hto : ∀ d, (start + t) % n + d = p ∨ (start + t) % n + d = p + n →
      (start + (t + d)) % n = p := by
    intro d hd
    rw [← Nat.add_assoc, ← Nat.mod_add_mod]
    rcases hd with hd | hd
    · rw [hd, Nat.mod_eq_of_lt hp]
    · rw [hd, Nat.add_mod_right, Nat.mod_eq_of_lt hp]
  by_cases hle : (start + t) % n ≤ p
  · refine ⟨t + (p - (start + t) % n), Nat.le_add_right _ _, by omega, ?_⟩
    exact hto _ (.inl (by omega))
  · refine ⟨t + (p + n - (start + t) % n), Nat.le_add_right _ _, by omega, ?_⟩
    exact hto _ (.inr (by omega))

end UbsIo.Lib
