import Mathlib

/-! # Windows on a cycle of cells

    A cycle of `cap` cells, and the `count` cells from `head` on, read in
    order.  Such a window grows at both ends by one write, and shrinks at its
    front by moving `head`:

    * `window_back`: the cell behind the last one is written;
    * `window_front`: the cell before the first one is written;
    * `window_cons`: the first cell is taken off. -/

namespace UbsIo.Lib

variable {α : Type} {cells : Nat → α} {cap head i j count n : Nat} {x : α}

/-- The cells from `head` on. -/
def window (cells : Nat → α) (cap head count : Nat) : List α :=
  (List.range count).map fun i => cells ((head + i) % cap)

@[simp] theorem length_window :
    (window cells cap head count).length = count := by
  rw [window, List.length_map, List.length_range]

@[simp] theorem window_zero : window cells cap head 0 = [] := rfl

/-- The last cell. -/
theorem window_concat :
    window cells cap head (count + 1) =
      window cells cap head count ++ [cells ((head + count) % cap)] := by
  rw [window, List.range_succ, List.map_append]
  rfl

/-- The first cell. -/
theorem window_cons (hhead : head < cap) :
    window cells cap head (count + 1) =
      cells head :: window cells cap ((head + 1) % cap) count := by
  rw [window, List.range_succ_eq_map, List.map_cons, List.map_map, Nat.add_zero,
    Nat.mod_eq_of_lt hhead]
  congr 1
  refine List.map_congr_left ?_
  intro i _
  show cells ((head + (i + 1)) % cap) = cells (((head + 1) % cap + i) % cap)
  rw [Nat.mod_add_mod]
  congr 2
  omega

/-- A write elsewhere is not seen. -/
theorem window_update (h : ∀ i < count, (head + i) % cap ≠ j) :
    window (Function.update cells j x) cap head count =
      window cells cap head count := by
  refine List.map_congr_left ?_
  intro i hi
  exact Function.update_of_ne (h i (List.mem_range.mp hi)) x cells

/-- Different steps lead to different cells. -/
theorem mod_ne_of_lt (hlt : i < j) (hle : j < i + cap) :
    i % cap ≠ j % cap := by
  intro heq
  obtain ⟨k, hk⟩ := (Nat.modEq_iff_dvd' hlt.le).mp heq
  have hpos : 0 < k := Nat.pos_of_ne_zero (by
    rintro rfl
    omega)
  have hle' : cap * 1 ≤ cap * k := Nat.mul_le_mul_left cap hpos
  omega

/-- The cell behind the last one is written. -/
theorem window_back (hroom : count < cap) :
    window (Function.update cells ((head + count) % cap) x) cap head
      (count + 1) = window cells cap head count ++ [x] := by
  rw [window_concat, Function.update_self, window_update]
  intro i hi
  exact mod_ne_of_lt (by omega) (by omega)

/-- The cell before the first one is written. -/
theorem window_front (hlt : i < cap) (hnext : (i + 1) % cap = head)
    (hroom : count < cap) :
    window (Function.update cells i x) cap i (count + 1) =
      x :: window cells cap head count := by
  rw [window_cons hlt, Function.update_self, hnext, window_update]
  intro k hk
  rw [← hnext, Nat.mod_add_mod]
  have hne : i % cap ≠ (i + 1 + k) % cap :=
    mod_ne_of_lt (by omega) (by omega)
  rw [Nat.mod_eq_of_lt hlt] at hne
  exact hne.symm

end UbsIo.Lib
