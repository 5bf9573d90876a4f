import Mathlib

/-! # Writes over a list

    A write puts some elements in the place of those from a position on; the
    list grows where a write goes over its end.  After some writes a position
    has what the last write over it has put there.  So writes that show in a
    list change nothing when they are done again, nor do those behind any of
    them. -/

namespace UbsIo.Lib

variable {α : Type}

/-- Some elements, and the position of the first. -/
structure Write (α : Type) where
  offset : Nat
  data : List α

namespace Write

/-- The position behind the last element. -/
def reach (w : Write α) : Nat := w.offset + w.data.length

/-- The list after the write. -/
def onto (w : Write α) (l : List α) : List α :=
  l.take w.offset ++ w.data ++ l.drop w.reach

/-- What the write puts at a position. -/
def gives (w : Write α) (p : Nat) : Option α :=
  if p < w.offset then none else w.data[p - w.offset]?

end Write

/-- The list after some writes. -/
def writeAll (l : List α) (ws : List (Write α)) : List α :=
  ws.foldl (fun l w => w.onto l) l

/-- What the last write over a position puts there. -/
def lastAt : List (Write α) → Nat → Option α
  | [], _ => none
  | w :: ws, p => (lastAt ws p).or (w.gives p)

/-- The list has what the last of the writes have put. -/
structure Visible (l : List α) (ws : List (Write α)) : Prop where
  within : ∀ w ∈ ws, w.reach ≤ l.length
  last : ∀ p x, lastAt ws p = some x → l[p]? = some x

variable {l : List α} {w : Write α} {ws : List (Write α)} {p : Nat}

/-! ## One write -/

theorem Write.length_onto (h : w.offset ≤ l.length) :
    (w.onto l).length = max l.length w.reach := by
  simp only [onto, reach, List.length_append, List.length_take,
    List.length_drop]
  omega

theorem Write.getElem?_onto (h : w.offset ≤ l.length) (p : Nat) :
    (w.onto l)[p]? = (w.gives p).or l[p]? := by
  have htake : (l.take w.offset).length = w.offset := by
    rw [List.length_take, Nat.min_eq_left h]
  rw [onto, gives, List.append_assoc]
  by_cases hlow : p < w.offset
  · rw [if_pos hlow, Option.none_or,
      List.getElem?_append_left (by rw [htake]; exact hlow),
      List.getElem?_take_of_lt hlow]
  rw [if_neg hlow, List.getElem?_append_right (by omega), htake]
  by_cases hin : p - w.offset < w.data.length
  · rw [List.getElem?_append_left hin, List.getElem?_eq_getElem hin,
      Option.some_or]
  · have hbehind : w.reach + (p - w.offset - w.data.length) = p := by
      unfold reach
      omega
    rw [List.getElem?_append_right (Nat.not_lt.mp hin), List.getElem?_drop,
      hbehind, List.getElem?_eq_none (Nat.not_lt.mp hin), Option.none_or]

/-! ## Writes in a row -/

theorem lastAt_append (ws ws' : List (Write α)) (p : Nat) :
    lastAt (ws ++ ws') p = (lastAt ws' p).or (lastAt ws p) := by
  induction ws with
  | nil =>
      rw [List.nil_append, lastAt, Option.or_none]
  | cons w ws ih =>
      rw [List.cons_append, lastAt, ih, lastAt, Option.or_assoc]

/-- A position has what the last write over it has put there, or what was there
    before. -/
theorem getElem?_writeAll : ∀ (ws : List (Write α)) {l : List α},
    (∀ w ∈ ws, w.offset ≤ l.length) → ∀ p,
    (writeAll l ws)[p]? = (lastAt ws p).or l[p]? := by
  intro ws
  induction ws with
  | nil => exact fun _ _ => rfl
  | cons w ws ih =>
      intro l h p
      have hw := h w (List.mem_cons_self ..)
      have hrest : ∀ x ∈ ws, x.offset ≤ (w.onto l).length := by
        intro x hx
        rw [Write.length_onto hw]
        exact (h x (List.mem_cons_of_mem _ hx)).trans (Nat.le_max_left ..)
      show (writeAll (w.onto l) ws)[p]? = _
      rw [ih hrest p, Write.getElem?_onto hw, lastAt, Option.or_assoc]

/-! ## Writes that show -/

theorem Visible.nil (l : List α) : Visible l [] := by
  refine ⟨fun w hw => ?_, fun p x hx => ?_⟩
  · cases hw
  · cases hx

/-- What is behind the first of them shows too. -/
theorem Visible.tail (h : Visible l (w :: ws)) : Visible l ws := by
  refine ⟨fun x hx => h.within x (List.mem_cons_of_mem _ hx), ?_⟩
  intro p x hx
  refine h.last p x ?_
  rw [lastAt, hx, Option.some_or]

/-- **ONE MORE**: a write on top shows with those below it. -/
theorem Visible.onto (h : Visible l ws) (hw : w.offset ≤ l.length) :
    Visible (w.onto l) (ws ++ [w]) := by
  constructor
  · intro x hx
    rw [Write.length_onto hw]
    rcases List.mem_append.mp hx with hx | hx
    · exact (h.within x hx).trans (Nat.le_max_left ..)
    · rw [List.mem_singleton.mp hx]
      exact Nat.le_max_right ..
  · intro p x hx
    rw [lastAt_append, lastAt, lastAt, Option.none_or] at hx
    rw [Write.getElem?_onto hw]
    cases hat : w.gives p with
    | some y =>
        rw [hat, Option.some_or] at hx
        rw [hx, Option.some_or]
    | none =>
        rw [hat, Option.none_or] at hx
        rw [Option.none_or, h.last p x hx]

/-- **DONE AGAIN**: writes that show change nothing. -/
theorem Visible.writeAll_eq (h : Visible l ws) : writeAll l ws = l := by
  refine List.ext_getElem? fun p => ?_
  have hoff : ∀ w ∈ ws, w.offset ≤ l.length := by
    intro w hw
    exact (Nat.le_add_right ..).trans (h.within w hw)
  rw [getElem?_writeAll ws hoff]
  cases hlast : lastAt ws p with
  | none => exact Option.none_or
  | some x => rw [h.last p x hlast, Option.some_or]

end UbsIo.Lib
