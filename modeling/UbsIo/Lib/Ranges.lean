import Mathlib

/-! # Ranges of a stream

    A stream hands out ranges: each has the next number and begins where the
    one before it ends.  Some of them are held, by whomever.  `Handed` says
    that the ranges held have come from such a stream; it stays when ranges are
    given up or change hands (`Handed.of_sub`), and when the next one is handed
    out (`Handed.push`).  Ranges held by two are `Before` each other one way or
    the other, so none of their places is the same. -/

namespace UbsIo.Lib

/-- How the ranges are read: their number, and their first place and the one
    behind their last. -/
structure Ruler (V : Type) where
  index : V → Nat
  first : V → Nat
  behind : V → Nat

variable {V ω : Type} {r : Ruler V}

/-- A range comes before another in the stream. -/
def Ruler.Before (r : Ruler V) (v u : V) : Prop :=
  r.index v < r.index u ∧ r.behind v ≤ r.first u

/-- The ranges held come from a stream that goes on at `index` and `offset`. -/
structure Handed (r : Ruler V) (held : ω → Option V) (index offset : Nat) :
    Prop where
  below : ∀ w v, held w = some v → r.index v < index ∧ r.first v < r.behind v ∧
    r.behind v ≤ offset
  apart : ∀ w x v u, w ≠ x → held w = some v → held x = some u →
    r.Before v u ∨ r.Before u v

variable {held held' : ω → Option V} {index offset index' offset' : Nat}

theorem handed_none (r : Ruler V) (index offset : Nat) :
    Handed r (fun _ : ω => none) index offset where
  below := by
    intro w v h
    cases h
  apart := by
    intro w x v u _ h
    cases h

/-- **FEWER**: ranges may be given up or change hands. -/
theorem Handed.of_sub (h : Handed r held index offset) (f : ω → ω)
    (hf : ∀ w x, (held' w).isSome → (held' x).isSome → f w = f x → w = x)
    (hsub : ∀ w v, held' w = some v → held (f w) = some v)
    (hindex : index ≤ index') (hoffset : offset ≤ offset') :
    Handed r held' index' offset' where
  below := by
    intro w v hw
    obtain ⟨hi, hpos, ho⟩ := h.below _ _ (hsub w v hw)
    exact ⟨hi.trans_le hindex, hpos, ho.trans hoffset⟩
  apart := by
    intro w x v u hne hw hx
    refine h.apart (f w) (f x) v u ?_ (hsub w v hw) (hsub x u hx)
    intro heq
    exact hne (hf w x (by rw [hw]; rfl) (by rw [hx]; rfl) heq)

/-- Ranges may be given up. -/
theorem Handed.mono (h : Handed r held index offset)
    (hsub : ∀ w v, held' w = some v → held w = some v) :
    Handed r held' index offset :=
  h.of_sub id (fun _ _ _ _ heq => heq) hsub le_rfl le_rfl

/-- **ONE MORE**: someone who held nothing gets the next range. -/
theorem Handed.push (h : Handed r held index offset) {t : ω} {v : V}
    (hindex : r.index v = index) (hfirst : r.first v = offset)
    (hpos : r.first v < r.behind v)
    (hv : ∀ u, held' t = some u → u = v)
    (hothers : ∀ w u, w ≠ t → held' w = some u → held w = some u) :
    Handed r held' (index + 1) (r.behind v) := by
  have hlast : ∀ w u, w ≠ t → held' w = some u → r.Before u v := by
    intro w u hne hw
    obtain ⟨hi, -, ho⟩ := h.below w u (hothers w u hne hw)
    exact ⟨hindex ▸ hi, hfirst ▸ ho⟩
  constructor
  · intro w u hw
    by_cases hne : w = t
    · rw [hv u (hne ▸ hw)]
      exact ⟨by omega, hpos, le_rfl⟩
    · obtain ⟨hi, hp, -⟩ := h.below w u (hothers w u hne hw)
      have hb := hlast w u hne hw
      exact ⟨by omega, hp, hb.2.trans hpos.le⟩
  · intro w x u y hne hw hx
    by_cases hwt : w = t
    · have hxt : x ≠ t := fun h => hne (hwt.trans h.symm)
      rw [hv u (hwt ▸ hw)]
      exact Or.inr (hlast x y hxt hx)
    · by_cases hxt : x = t
      · rw [hv y (hxt ▸ hx)]
        exact Or.inl (hlast w u hwt hw)
      · exact h.apart w x u y hne (hothers w u hwt hw) (hothers x y hxt hx)

/-- A range held by another begins behind one that no range is before. -/
theorem Handed.behind_le (h : Handed r held index offset) {w x : ω} {v u : V}
    (hne : w ≠ x) (hw : held w = some v) (hx : held x = some u)
    (hle : r.first v ≤ r.first u) : r.behind v ≤ r.first u := by
  rcases h.apart w x v u hne hw hx with hb | hb
  · exact hb.2
  · have hpos := (h.below x u hx).2.1
    have := hb.2
    omega

/-- Two who hold ranges with one place are one. -/
theorem Handed.eq_of_mem (h : Handed r held index offset) {w x : ω} {v u : V}
    {p : Nat} (hw : held w = some v) (hx : held x = some u)
    (hv : r.first v ≤ p ∧ p < r.behind v)
    (hu : r.first u ≤ p ∧ p < r.behind u) : w = x := by
  by_contra hne
  rcases h.apart w x v u hne hw hx with hb | hb
  · have := hb.2
    omega
  · have := hb.2
    omega

/-- The numbers tell the order of the places. -/
theorem Handed.before_of_index (h : Handed r held index offset) {w x : ω}
    {v u : V} (hw : held w = some v) (hx : held x = some u)
    (hlt : r.index v < r.index u) : r.behind v ≤ r.first u := by
  have hne : w ≠ x := by
    rintro rfl
    rw [hw] at hx
    cases hx
    exact lt_irrefl _ hlt
  rcases h.apart w x v u hne hw hx with hb | hb
  · exact hb.2
  · exact absurd hlt (Nat.lt_asymm hb.1)

end UbsIo.Lib
