import Mathlib

/-! # Slots in two halves

    A table of `m` slots, each with a place in the first half and one in the
    second: place `i` and place `i + m`.  Some of the places are live and hold
    an owner.  `Halves` says that a slot is live in at most one half, that no
    owner occurs twice, and that the live places lie within the extent.

    With `m` owners to choose from, a slot that is empty always leaves an owner
    that occurs nowhere, and once every slot is live each owner occurs exactly
    once. -/

namespace UbsIo.Lib

structure Halves (m : Nat) (live : Nat → Prop) (owner : Nat → Nat)
    (extent : Nat) : Prop where
  once : ∀ i < m, live i → ¬ live (i + m)
  extent_eq : extent = m ∨ extent = 2 * m
  extended : ∀ i < m, live (i + m) → extent = 2 * m
  distinct : ∀ i < 2 * m, ∀ j < 2 * m, live i → live j →
    owner i = owner j → i = j

variable {m extent : Nat} {live live' : Nat → Prop} {owner owner' : Nat → Nat}

/-- No slot below `k` is empty. -/
def FilledBelow (m : Nat) (live : Nat → Prop) (k : Nat) : Prop :=
  ∀ i < k, live i ∨ live (i + m)

namespace Halves

/-- Live places may go, as long as the others keep their owners. -/
theorem of_fewer (h : Halves m live owner extent)
    (hfew : ∀ i < 2 * m, live' i → live i ∧ owner' i = owner i) :
    Halves m live' owner' extent := by
  refine ⟨?_, h.extent_eq, ?_, ?_⟩
  · intro i hi hl hl'
    exact h.once i hi (hfew i (by omega) hl).1 (hfew (i + m) (by omega) hl').1
  · intro i hi hl
    exact h.extended i hi (hfew (i + m) (by omega) hl).1
  · intro i hi j hj hli hlj howner
    obtain ⟨hi', hoi⟩ := hfew i hi hli
    obtain ⟨hj', hoj⟩ := hfew j hj hlj
    exact h.distinct i hi j hj hi' hj' (by rw [← hoi, ← hoj, howner])

theorem live_lt (h : Halves m live owner extent) {i : Nat} (hi : i < 2 * m)
    (hl : live i) : i < extent := by
  rcases h.extent_eq with he | he
  · by_contra hge
    have hsum : i - m + m = i := by omega
    have hfull := h.extended (i - m) (by omega) (by rw [hsum]; exact hl)
    omega
  · omega

/-- An empty slot gets an owner that occurs nowhere, in its second half. -/
theorem fill (h : Halves m live owner extent) {c x : Nat}
    (hfirst : ¬ live c) (hnew : ∀ i < 2 * m, live i → owner i ≠ x)
    (hlive : ∀ i, live' i ↔ live i ∨ i = c + m)
    (howner : ∀ i, owner' i = if i = c + m then x else owner i) :
    Halves m live' owner' (2 * m) := by
  have hold : ∀ i < 2 * m, i ≠ c + m → live' i →
      live i ∧ owner' i = owner i := by
    intro i _ hne hl
    rw [howner, if_neg hne]
    exact ⟨((hlive i).mp hl).resolve_right hne, rfl⟩
  refine ⟨?_, Or.inr rfl, fun _ _ _ => rfl, ?_⟩
  · intro i hi hl hl'
    obtain ⟨hli, -⟩ := hold i (by omega) (by omega) hl
    rcases (hlive (i + m)).mp hl' with hl' | heq
    · exact h.once i hi hli hl'
    · have hic : i = c := by omega
      rw [hic] at hli
      exact hfirst hli
  · intro i hi j hj hli hlj heq
    by_cases hic : i = c + m
    · by_cases hjc : j = c + m
      · rw [hic, hjc]
      · obtain ⟨hlj', hoj⟩ := hold j hj hjc hlj
        rw [howner, if_pos hic, hoj] at heq
        exact absurd heq.symm (hnew j hj hlj')
    · obtain ⟨hli', hoi⟩ := hold i hi hic hli
      by_cases hjc : j = c + m
      · rw [howner j, if_pos hjc, hoi] at heq
        exact absurd heq (hnew i hi hli')
      · obtain ⟨hlj', hoj⟩ := hold j hj hjc hlj
        rw [hoi, hoj] at heq
        exact h.distinct i hi j hj hli' hlj' heq

/-- The slot of a place. -/
def slot (m i : Nat) : Nat := if i < m then i else i - m

theorem slot_lt {i : Nat} (hi : i < 2 * m) : slot m i < m := by
  rw [slot]
  split
  · assumption
  · omega

/-- A live place is determined by its slot. -/
theorem slot_inj (h : Halves m live owner extent) {i j : Nat}
    (hli : live i) (hlj : live j) (heq : slot m i = slot m j) : i = j := by
  rw [slot, slot] at heq
  by_cases him : i < m
  · by_cases hjm : j < m
    · rw [if_pos him, if_pos hjm] at heq
      exact heq
    · rw [if_pos him, if_neg hjm] at heq
      have hsum : j = i + m := by omega
      rw [hsum] at hlj
      exact absurd hlj (h.once i him hli)
  · by_cases hjm : j < m
    · rw [if_neg him, if_pos hjm] at heq
      have hsum : i = j + m := by omega
      rw [hsum] at hli
      exact absurd hli (h.once j hjm hlj)
    · rw [if_neg him, if_neg hjm] at heq
      omega

/-- **A FREE OWNER**: while a slot is empty, the live places do not have all
    `m` owners. -/
theorem exists_free (h : Halves m live owner extent) {c : Nat} (hc : c < m)
    (hfirst : ¬ live c) (hsecond : ¬ live (c + m)) {xs : List Nat}
    (hxs : xs.Nodup) (hlen : m ≤ xs.length) :
    ∃ x ∈ xs, ∀ i < 2 * m, live i → owner i ≠ x := by
  classical
  by_contra hall
  push Not at hall
  -- the place of each owner, and from it the slot
  choose! place hplace using hall
  have hinj : Set.InjOn (fun x => slot m (place x)) (xs.toFinset : Set Nat) := by
    intro x hx y hy hxy
    obtain ⟨hlx, hx1, hx2⟩ := hplace x (by simpa using hx)
    obtain ⟨hly, hy1, hy2⟩ := hplace y (by simpa using hy)
    have hp := h.slot_inj hx1 hy1 hxy
    rw [← hx2, ← hy2, hp]
  have hmaps : Set.MapsTo (fun x => slot m (place x))
      (xs.toFinset : Set Nat) ((Finset.range m).erase c : Set Nat) := by
    intro x hx
    obtain ⟨hlx, hx1, -⟩ := hplace x (by simpa using hx)
    simp only [Finset.coe_erase, Set.mem_sdiff, Finset.coe_range, Set.mem_Iio,
      Set.mem_singleton_iff]
    refine ⟨slot_lt hlx, ?_⟩
    intro hs
    rw [slot] at hs
    split at hs
    · rw [hs] at hx1
      exact hfirst hx1
    · have hsum : place x = c + m := by omega
      rw [hsum] at hx1
      exact hsecond hx1
  have hcard := Finset.card_le_card_of_injOn _ hmaps hinj
  rw [List.toFinset_card_of_nodup hxs, Finset.card_erase_of_mem
    (Finset.mem_range.mpr hc), Finset.card_range] at hcard
  omega

/-- **EACH OWNER ONCE**: with every slot live and owners below `m`, every owner
    below `m` has exactly one place. -/
theorem existsUnique_place (h : Halves m live owner extent)
    (hfill : FilledBelow m live m)
    (hbound : ∀ i < 2 * m, live i → owner i < m) {x : Nat} (hx : x < m) :
    ∃! i, i < 2 * m ∧ live i ∧ owner i = x := by
  classical
  have hplace : ∀ s < m, ∃ i, i < 2 * m ∧ live i ∧ slot m i = s := by
    intro s hs
    rcases hfill s hs with hl | hl
    · exact ⟨s, by omega, hl, by rw [slot, if_pos hs]⟩
    · exact ⟨s + m, by omega, hl, by rw [slot, if_neg (by omega)]; omega⟩
  choose! place hp using hplace
  have hinj : Set.InjOn (fun s => owner (place s)) (Finset.range m : Set Nat) := by
    intro s hs t ht hst
    obtain ⟨hs1, hs2, hs3⟩ := hp s (by simpa using hs)
    obtain ⟨ht1, ht2, ht3⟩ := hp t (by simpa using ht)
    have heq := h.distinct _ hs1 _ ht1 hs2 ht2 hst
    rw [← hs3, ← ht3, heq]
  have hmaps : ∀ s ∈ Finset.range m, owner (place s) ∈ Finset.range m := by
    intro s hs
    obtain ⟨hs1, hs2, -⟩ := hp s (Finset.mem_range.mp hs)
    exact Finset.mem_range.mpr (hbound _ hs1 hs2)
  obtain ⟨s, hs, hsx⟩ := Finset.surj_on_of_inj_on_of_card_le
    (fun s _ => owner (place s)) hmaps
    (fun s t hs ht hst => hinj (by simpa using hs) (by simpa using ht) hst)
    (Nat.le_refl _) x (Finset.mem_range.mpr hx)
  obtain ⟨hs1, hs2, -⟩ := hp s (Finset.mem_range.mp hs)
  refine ⟨place s, ⟨hs1, hs2, hsx.symm⟩, ?_⟩
  rintro j ⟨hj1, hj2, hj3⟩
  exact h.distinct j hj1 _ hs1 hj2 hs2 (by rw [hj3, hsx])

end Halves

end UbsIo.Lib
