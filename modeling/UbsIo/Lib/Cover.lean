import Mathlib

/-! # Tilings of a range by segments

    A segment is a start and a length.  `coverNum ss u` counts the segments of
    a list that contain the unit `u`; it adds up over lists and does not change
    when a segment is cut in two, so an allocator that splits and joins
    segments is reasoned about by equations between numbers.  A list tiles
    `[0, n)` when its segments are pairwise disjoint and together contain
    exactly the units below `n` (`tiles_iff`: every unit below `n` is covered
    once, every other one never). -/

namespace UbsIo.Lib

structure Seg where
  start : Nat
  length : Nat
deriving DecidableEq, Repr

namespace Seg

/-- The unit `u` lies in the segment. -/
def Has (s : Seg) (u : Nat) : Prop := s.start ≤ u ∧ u < s.start + s.length

instance (s : Seg) (u : Nat) : Decidable (s.Has u) :=
  inferInstanceAs (Decidable (s.start ≤ u ∧ u < s.start + s.length))

/-- No unit lies in both segments. -/
def Apart (s t : Seg) : Prop := ∀ u, ¬ (s.Has u ∧ t.Has u)

theorem has_start {s : Seg} (h : 0 < s.length) : s.Has s.start :=
  ⟨le_refl _, by omega⟩

theorem has_last {s : Seg} (h : 0 < s.length) :
    s.Has (s.start + s.length - 1) := by
  rw [Has]
  omega

instance : Std.Symm Apart where
  symm _ _ h u hu := h u ⟨hu.2, hu.1⟩

/-- Two segments that are apart follow each other. -/
theorem apart_iff {s t : Seg} (hs : 0 < s.length) (ht : 0 < t.length) :
    s.Apart t ↔
      s.start + s.length ≤ t.start ∨ t.start + t.length ≤ s.start := by
  constructor
  · intro h
    have h1 := h s.start
    have h2 := h t.start
    simp only [Has] at h1 h2
    omega
  · rintro h u ⟨h1, h2⟩
    simp only [Has] at h1 h2
    omega

end Seg

/-- How many segments of the list contain the unit. -/
def coverNum (ss : List Seg) (u : Nat) : Nat := ss.countP fun s => s.Has u

@[simp] theorem coverNum_nil (u : Nat) : coverNum [] u = 0 := rfl

theorem coverNum_cons (s : Seg) (ss : List Seg) (u : Nat) :
    coverNum (s :: ss) u = coverNum [s] u + coverNum ss u := by
  rw [coverNum, List.countP_cons, coverNum, List.countP_singleton, coverNum,
    Nat.add_comm]

theorem coverNum_append (ss ts : List Seg) (u : Nat) :
    coverNum (ss ++ ts) u = coverNum ss u + coverNum ts u :=
  List.countP_append

theorem coverNum_perm {ss ts : List Seg} (h : ss.Perm ts) (u : Nat) :
    coverNum ss u = coverNum ts u := h.countP_eq _

theorem coverNum_singleton (s : Seg) (u : Nat) :
    coverNum [s] u = if s.Has u then 1 else 0 := by
  rw [coverNum, List.countP_singleton]
  simp

/-- Cutting a segment in two changes no count. -/
theorem coverNum_cut (start k l u : Nat) :
    coverNum [⟨start, k + l⟩] u =
      coverNum [⟨start, k⟩] u + coverNum [⟨start + k, l⟩] u := by
  rw [coverNum_singleton, coverNum_singleton, coverNum_singleton]
  split_ifs with h h1 h2 h2 h1 h2 h2 <;> simp only [Seg.Has] at * <;> omega

theorem coverNum_pos {ss : List Seg} {u : Nat} :
    0 < coverNum ss u ↔ ∃ s ∈ ss, s.Has u := by
  rw [coverNum, List.countP_pos_iff]
  simp

theorem coverNum_eq_zero {ss : List Seg} {u : Nat} :
    coverNum ss u = 0 ↔ ∀ s ∈ ss, ¬ s.Has u := by
  rw [coverNum, List.countP_eq_zero]
  simp

/-- The segments of a list are pairwise apart when no unit counts twice. -/
theorem pairwise_apart_iff (ss : List Seg) :
    ss.Pairwise Seg.Apart ↔ ∀ u, coverNum ss u ≤ 1 := by
  induction ss with
  | nil => simp
  | cons s ss ih =>
      rw [List.pairwise_cons, ih]
      constructor
      · rintro ⟨hs, hss⟩ u
        rw [coverNum_cons, coverNum_singleton]
        split
        · rename_i hu
          have hzero : coverNum ss u = 0 :=
            coverNum_eq_zero.mpr fun t ht htu => hs t ht u ⟨hu, htu⟩
          omega
        · have := hss u
          omega
      · intro h
        refine ⟨?_, ?_⟩
        · rintro t ht u ⟨hs, htu⟩
          have hpos : 0 < coverNum ss u := coverNum_pos.mpr ⟨t, ht, htu⟩
          have hu := h u
          rw [coverNum_cons, coverNum_singleton, if_pos hs] at hu
          omega
        · intro u
          have hu := h u
          rw [coverNum_cons] at hu
          omega

/-- The segments are pairwise apart and make up exactly `[0, n)`. -/
structure Tiles (n : Nat) (ss : List Seg) : Prop where
  apart : ss.Pairwise Seg.Apart
  exact : ∀ u, u < n ↔ ∃ s ∈ ss, s.Has u

/-- **TILING BY COUNTING**. -/
theorem tiles_iff {n : Nat} {ss : List Seg} :
    Tiles n ss ↔ ∀ u, coverNum ss u = if u < n then 1 else 0 := by
  constructor
  · intro h u
    have hle := (pairwise_apart_iff ss).mp h.apart u
    have hpos := (h.exact u).trans coverNum_pos.symm
    split
    · rename_i hu
      have := hpos.mp hu
      omega
    · rename_i hu
      have := mt hpos.mpr hu
      omega
  · intro h
    refine ⟨(pairwise_apart_iff ss).mpr ?_, ?_⟩
    · intro u
      rw [h u]
      split <;> omega
    · intro u
      rw [← coverNum_pos, h u]
      split <;> omega

/-- A segment of a tiling ends inside the range. -/
theorem Tiles.le {n : Nat} {ss : List Seg} (h : Tiles n ss) {s : Seg}
    (hs : s ∈ ss) (hpos : 0 < s.length) : s.start + s.length ≤ n := by
  have hlast := (h.exact _).mpr ⟨s, hs, Seg.has_last hpos⟩
  omega

/-- A tiling grows by a segment at its end. -/
theorem Tiles.extend {n l : Nat} {ss ts : List Seg} (h : Tiles n ss)
    (hts : ∀ u, coverNum ts u = coverNum ss u + coverNum [⟨n, l⟩] u) :
    Tiles (n + l) ts := by
  rw [tiles_iff]
  intro u
  rw [hts u, tiles_iff.mp h u, coverNum_singleton]
  split_ifs <;> simp only [Seg.Has] at * <;> omega

end UbsIo.Lib
