import Mathlib

/-! # Level lists

    A work list is kept sorted by a weight.  Each round takes the first
    element, makes it heavier by one and puts it back behind the elements that
    are not heavier.  A list that starts **LEVEL** (sorted, no two weights more
    than one apart) stays so: the element taken was among the lightest, and
    with one more it is at most as heavy as the heaviest were or will be. -/

namespace UbsIo.Lib

variable {α : Type}

/-- Insert behind the elements that are not heavier. -/
def insertAfter (w : α → Int) (x : α) (l : List α) : List α :=
  l.takeWhile (fun y => decide (w y ≤ w x)) ++
    x :: l.dropWhile (fun y => decide (w y ≤ w x))

theorem insertAfter_perm (w : α → Int) (x : α) (l : List α) :
    (insertAfter w x l).Perm (x :: l) := by
  have h : (insertAfter w x l).Perm
      (x :: (l.takeWhile (fun y => decide (w y ≤ w x)) ++
        l.dropWhile fun y => decide (w y ≤ w x))) := List.perm_middle
  rw [List.takeWhile_append_dropWhile] at h
  exact h

theorem mem_insertAfter {w : α → Int} {x y : α} {l : List α} :
    y ∈ insertAfter w x l ↔ y = x ∨ y ∈ l := by
  rw [(insertAfter_perm w x l).mem_iff, List.mem_cons]

/-- Sorted by weight. -/
def SortedBy (w : α → Int) (l : List α) : Prop :=
  l.Pairwise fun x y => w x ≤ w y

theorem insertAfter_cons_of_le {w : α → Int} {x y : α} {l : List α}
    (h : w y ≤ w x) : insertAfter w x (y :: l) = y :: insertAfter w x l := by
  rw [insertAfter, insertAfter, List.takeWhile_cons_of_pos (by simp [h]),
    List.dropWhile_cons_of_pos (by simp [h])]
  rfl

theorem insertAfter_cons_of_lt {w : α → Int} {x y : α} {l : List α}
    (h : w x < w y) : insertAfter w x (y :: l) = x :: y :: l := by
  rw [insertAfter, List.takeWhile_cons_of_neg (by simp [h]),
    List.dropWhile_cons_of_neg (by simp [h])]
  rfl

/-- Inserting keeps a list sorted. -/
theorem SortedBy.insertAfter {w : α → Int} {l : List α} (h : SortedBy w l)
    (x : α) : SortedBy w (insertAfter w x l) := by
  induction l with
  | nil => exact List.pairwise_singleton _ x
  | cons y l ih =>
      obtain ⟨hy, hl⟩ := List.pairwise_cons.mp h
      by_cases hyx : w y ≤ w x
      · rw [insertAfter_cons_of_le hyx]
        refine List.pairwise_cons.mpr ⟨?_, ih hl⟩
        intro z hz
        rcases mem_insertAfter.mp hz with rfl | hz
        · exact hyx
        · exact hy z hz
      · have hxy : w x < w y := not_le.mp hyx
        rw [insertAfter_cons_of_lt hxy]
        refine List.pairwise_cons.mpr ⟨?_, h⟩
        intro z hz
        rcases List.mem_cons.mp hz with rfl | hz
        · exact hxy.le
        · exact hxy.le.trans (hy z hz)

/-- Sorted by weight, and no two weights more than one apart. -/
structure Level (w : α → Int) (l : List α) : Prop where
  sorted : SortedBy w l
  close : ∀ x ∈ l, ∀ y ∈ l, w y ≤ w x + 1

/-- Equal weights are level. -/
theorem level_of_eq {w : α → Int} {l : List α} {k : Int}
    (h : ∀ x ∈ l, w x = k) : Level w l where
  sorted := List.pairwise_of_forall_mem_list fun x hx y hy => by
    rw [h x hx, h y hy]
  close x hx y hy := by
    rw [h x hx, h y hy]
    exact Int.le_add_one (Int.le_refl k)

/-- **LEVEL STEP**: the first element, made heavier by one and put back, leaves
    the list level. -/
theorem Level.bump {w : α → Int} {x x' : α} {l : List α}
    (h : Level w (x :: l)) (hx : w x' = w x + 1) :
    Level w (insertAfter w x' l) := by
  obtain ⟨hlow, hl⟩ := List.pairwise_cons.mp h.sorted
  have hx0 : x ∈ x :: l := List.mem_cons_self ..
  refine ⟨SortedBy.insertAfter hl x', ?_⟩
  intro y hy z hz
  rcases mem_insertAfter.mp hy with hyx | hyl
  · rcases mem_insertAfter.mp hz with hzx | hzl
    · rw [hyx, hzx]
      exact Int.le_add_one (Int.le_refl _)
    · have := h.close x hx0 z (List.mem_cons_of_mem _ hzl)
      rw [hyx, hx]
      omega
  · rcases mem_insertAfter.mp hz with hzx | hzl
    · have := hlow y hyl
      rw [hzx, hx]
      omega
    · exact h.close y (List.mem_cons_of_mem _ hyl) z
        (List.mem_cons_of_mem _ hzl)

end UbsIo.Lib
