import Mathlib

/-! # Greedy packing

    Items of different lengths go into boxes one after another; an item that
    does not fit into the box at hand begins the next one. -/

namespace UbsIo.Lib

variable {α : Type*} {len : α → Nat} {cap : Nat}

/-- What the items of a box need together. -/
def boxLen (len : α → Nat) (box : List α) : Nat := (box.map len).sum

@[simp] theorem boxLen_nil : boxLen len [] = 0 := rfl

@[simp] theorem boxLen_singleton (a : α) : boxLen len [a] = len a := by
  simp [boxLen]

@[simp] theorem boxLen_append (box box' : List α) :
    boxLen len (box ++ box') = boxLen len box + boxLen len box' := by
  simp [boxLen]

/-- The boxes for the items of a list, the box at hand with `box` in it. -/
def packFrom (len : α → Nat) (cap : Nat) :
    List α → List α → List (List α)
  | box, [] => [box]
  | box, a :: l =>
      if cap < boxLen len box + len a then box :: packFrom len cap [a] l
      else packFrom len cap (box ++ [a]) l

/-- **NOTHING IS LOST**: the boxes hold the items, in order. -/
theorem flatten_packFrom : ∀ (l box : List α),
    (packFrom len cap box l).flatten = box ++ l := by
  intro l
  induction l with
  | nil => simp [packFrom]
  | cons a l ih =>
      intro box
      rw [packFrom]
      split
      · rw [List.flatten_cons, ih]
        rfl
      · rw [ih, List.append_assoc]
        rfl

end UbsIo.Lib
