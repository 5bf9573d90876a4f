import Mathlib

/-! # Marks that only rise

    A front moves forward, and whoever has moved it raises a mark to where it
    was then.  The marks are raised later and in any order; a raise below the
    mark does nothing.  The mark is never beyond the front, and it is at the
    front as soon as no raise is pending.

    Where the front is what comes next in a set of numbers, it is the length of
    the longest initial segment in the set. -/

namespace UbsIo.Lib

/-! ## The front of a set -/

/-- Everything below `n` is in the set, and `n` is not. -/
structure Front (S : Nat → Prop) (n : Nat) : Prop where
  below : ∀ i < n, S i
  stop : ¬ S n

variable {S : Nat → Prop} {n m : Nat}

theorem Front.le (h : Front S n) (hm : ∀ i < m, S i) : m ≤ n :=
  Nat.not_lt.mp fun hlt => h.stop (hm n hlt)

theorem Front.unique (h : Front S n) (h' : Front S m) : n = m :=
  Nat.le_antisymm (h'.le h.below) (h.le h'.below)

/-! ## The mark -/

variable {α : Type} [LinearOrder α] {mark top top' x : α} {P P' : α → Prop}

/-- The mark, the front, and the raises that are pending. -/
structure HighWater (mark top : α) (P : α → Prop) : Prop where
  le : mark ≤ top
  pending_le : ∀ x, P x → x ≤ top
  reached : mark = top ∨ P top

theorem HighWater.quiet (h : HighWater mark top P) (hP : ∀ x, ¬ P x) :
    mark = top :=
  h.reached.resolve_right (hP top)

/-- The front moves, and a raise to it is pending. -/
theorem HighWater.move (h : HighWater mark top P) (hle : top ≤ top')
    (hnew : P' top') (hP : ∀ x, P' x → P x ∨ x = top') :
    HighWater mark top' P' where
  le := h.le.trans hle
  pending_le := by
    intro x hx
    rcases hP x hx with hx | rfl
    · exact (h.pending_le x hx).trans hle
    · exact le_refl x
  reached := .inr hnew

/-- A pending raise is done. -/
theorem HighWater.raise (h : HighWater mark top P) (hx : P x)
    (hP : ∀ y, P' y → P y) (hrest : ∀ y, P y → y = x ∨ P' y) :
    HighWater (max mark x) top P' where
  le := max_le h.le (h.pending_le x hx)
  pending_le := fun y hy => h.pending_le y (hP y hy)
  reached := by
    rcases h.reached with rfl | htop
    · exact .inl (max_eq_left (h.pending_le x hx))
    · rcases hrest top htop with rfl | htop
      · exact .inl (max_eq_right h.le)
      · exact .inr htop

/-! ## Raises by threads -/

variable {ι : Type} {f f' : ι → Option α} {t : ι}

/-- A thread is going to raise the mark to `x`. -/
def Pending (f : ι → Option α) (x : α) : Prop := ∃ t, f t = some x

theorem HighWater.keep_thread (h : HighWater mark top (Pending f))
    (hf : ∀ u, f' u = f u) : HighWater mark top (Pending f') := by
  rw [show f' = f from funext hf]
  exact h

theorem HighWater.move_thread (h : HighWater mark top (Pending f))
    (hle : top ≤ top') (ht : f' t = some top') (hf : ∀ u, u ≠ t → f' u = f u) :
    HighWater mark top' (Pending f') := by
  refine h.move hle ⟨t, ht⟩ ?_
  rintro x ⟨u, hu⟩
  by_cases hut : u = t
  · subst hut
    exact .inr (Option.some.inj (hu.symm.trans ht))
  · exact .inl ⟨u, (hf u hut).symm.trans hu⟩

theorem HighWater.raise_thread (h : HighWater mark top (Pending f))
    (ht : f t = some x) (ht' : f' t = none) (hf : ∀ u, u ≠ t → f' u = f u) :
    HighWater (max mark x) top (Pending f') := by
  refine h.raise ⟨t, ht⟩ ?_ ?_
  · rintro y ⟨u, hu⟩
    by_cases hut : u = t
    · subst hut
      cases ht'.symm.trans hu
    · exact ⟨u, (hf u hut).symm.trans hu⟩
  · rintro y ⟨u, hu⟩
    by_cases hut : u = t
    · subst hut
      exact .inl (Option.some.inj (hu.symm.trans ht))
    · exact .inr ⟨u, (hf u hut).trans hu⟩

end UbsIo.Lib
