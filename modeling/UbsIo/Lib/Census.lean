import Mathlib

/-! # How many threads are where

    A list of threads, each somewhere in its code.  `countP` says how many of
    them are in one place; when one thread moves, the counts change by that
    thread alone (`countP_set_add`). -/

namespace UbsIo.Lib

variable {α : Type} {f : α → Bool} {a b : α} {l : List α} {i j : Nat}

/-- **ONE THREAD**: one member of the list is exchanged. -/
theorem countP_set_add (h : l[i]? = some a) :
    (l.set i b).countP f + (f a).toNat = l.countP f + (f b).toNat := by
  induction l generalizing i with
  | nil => cases h
  | cons x l ih =>
      cases i with
      | zero =>
          rw [List.getElem?_cons_zero, Option.some.injEq] at h
          rw [h, List.set_cons_zero, List.countP_cons, List.countP_cons]
          cases f a <;> cases f b <;> simp
      | succ i =>
          rw [List.getElem?_cons_succ] at h
          have hrest := ih h
          rw [List.set_cons_succ, List.countP_cons, List.countP_cons]
          omega

/-- One member of the list is taken out. -/
theorem countP_eraseIdx_add (h : l[i]? = some a) :
    (l.eraseIdx i).countP f + (f a).toNat = l.countP f := by
  induction l generalizing i with
  | nil => cases h
  | cons x l ih =>
      cases i with
      | zero =>
          rw [List.getElem?_cons_zero, Option.some.injEq] at h
          rw [h, List.eraseIdx_cons_zero, List.countP_cons]
          cases f a <;> simp
      | succ i =>
          rw [List.getElem?_cons_succ] at h
          have hrest := ih h
          rw [List.eraseIdx_cons_succ, List.countP_cons, List.countP_cons]
          omega

/-- Whoever is there is counted. -/
theorem countP_pos (h : l[i]? = some a) (ha : f a = true) :
    0 < l.countP f :=
  List.countP_pos_iff.mpr ⟨a, List.mem_of_getElem? h, ha⟩

/-- Two threads are counted twice. -/
theorem two_le_countP (hi : l[i]? = some a) (hj : l[j]? = some b)
    (hne : i ≠ j) (ha : f a = true) (hb : f b = true) : 2 ≤ l.countP f := by
  induction l generalizing i j with
  | nil => cases hi
  | cons x l ih =>
      cases i with
      | zero =>
          cases j with
          | zero => exact absurd rfl hne
          | succ j =>
              rw [List.getElem?_cons_zero, Option.some.injEq] at hi
              rw [List.getElem?_cons_succ] at hj
              have hrest : 0 < l.countP f := countP_pos hj hb
              rw [List.countP_cons, hi, if_pos ha]
              omega
      | succ i =>
          rw [List.getElem?_cons_succ] at hi
          have hrest : 0 < l.countP f := countP_pos hi ha
          cases j with
          | zero =>
              rw [List.getElem?_cons_zero, Option.some.injEq] at hj
              rw [List.countP_cons, hj, if_pos hb]
              omega
          | succ j =>
              rw [List.getElem?_cons_succ] at hj
              have h2 := ih hi hj (fun h => hne (congrArg Nat.succ h))
              rw [List.countP_cons]
              omega

end UbsIo.Lib
