import Mathlib

/-! # Free lists in the free memory

    A free block holds the pointer to the next free block, so a list of free
    blocks is a pointer to the first one and the links that are in the memory.
    `OnList next h l` says that the blocks reached from `h` are those of `l`.
    Blocks are put before the first one and are taken from there, one or many
    at a time; a list does not change while other memory is written
    (`onList_congr`). -/

namespace UbsIo.Lib

variable {α : Type}

/-- The blocks of a list, from a pointer on. -/
def OnList (next : α → Option α) : Option α → List α → Prop
  | h, [] => h = none
  | h, u :: l => h = some u ∧ OnList next (next u) l

/-- Take blocks until there are `n` of them or the list is empty. -/
def popMany (next : α → Option α) : Nat → Option α → List α × Option α
  | 0, h => ([], h)
  | _ + 1, none => ([], none)
  | n + 1, some u => (u :: (popMany next n (next u)).1,
      (popMany next n (next u)).2)

/-- Put a block before the first one. -/
def pushOne [DecidableEq α] (m : (α → Option α) × Option α) (u : α) :
    (α → Option α) × Option α :=
  (Function.update m.1 u m.2, some u)

/-- Put blocks before the first one, one after another. -/
def pushMany [DecidableEq α] (m : (α → Option α) × Option α) (us : List α) :
    (α → Option α) × Option α :=
  us.foldl pushOne m

variable {next next' : α → Option α} {h : Option α} {u x : α} {l us : List α}
  {n : Nat}

/-- Only the links of the list matter. -/
theorem onList_congr (hl : OnList next h l) (heq : ∀ x ∈ l, next' x = next x) :
    OnList next' h l := by
  induction l generalizing h with
  | nil => exact hl
  | cons u l ih =>
      obtain ⟨rfl, hl⟩ := hl
      refine ⟨rfl, ?_⟩
      rw [heq u List.mem_cons_self]
      exact ih hl fun x hx => heq x (List.mem_cons_of_mem _ hx)

/-- **POP**: the first blocks are taken and the others stay. -/
theorem onList_popMany (hl : OnList next h l) :
    (popMany next n h).1 = l.take n ∧
      OnList next (popMany next n h).2 (l.drop n) := by
  induction n generalizing h l with
  | zero => exact ⟨rfl, hl⟩
  | succ n ih =>
      cases l with
      | nil =>
          cases hl
          exact ⟨rfl, rfl⟩
      | cons u l =>
          obtain ⟨rfl, hl⟩ := hl
          obtain ⟨htaken, hrest⟩ := ih hl
          exact ⟨congrArg (u :: ·) htaken, hrest⟩

/-! ## Blocks by the list they are in -/

/-- Blocks that are sorted into lists are all there. -/
theorem perm_flatMap_filter {κ β : Type} [DecidableEq κ] (key : β → κ) :
    ∀ (places : List κ) (bs : List β), places.Nodup →
      (∀ b ∈ bs, key b ∈ places) →
      bs.Perm (places.flatMap fun p => bs.filter fun b => key b = p) := by
  intro places
  induction places with
  | nil =>
      intro bs _ hin
      have hnil : bs = [] :=
        List.eq_nil_iff_forall_not_mem.mpr fun b hb =>
          List.not_mem_nil (hin b hb)
      rw [hnil]
      exact .nil
  | cons p places ih =>
      intro bs hn hin
      obtain ⟨hp, hn⟩ := List.nodup_cons.mp hn
      have hsplit := List.filter_append_perm (fun b => decide (key b = p)) bs
      have hrest := ih (bs.filter fun b => !decide (key b = p)) hn
        fun b hb => by
          rw [List.mem_filter] at hb
          rcases List.mem_cons.mp (hin b hb.1) with heq | hmem
          · simp [heq] at hb
          · exact hmem
      refine hsplit.symm.trans ?_
      rw [List.flatMap_cons]
      refine List.Perm.append_left _ (hrest.trans (.of_eq ?_))
      -- of the blocks of another list none is of this one
      refine List.flatMap_congr fun q hq => ?_
      rw [List.filter_filter]
      refine List.filter_congr fun b _ => ?_
      by_cases hkey : key b = q
      · have hne : q ≠ p := ne_of_mem_of_not_mem hq hp
        simp [hkey, hne]
      · simp [hkey]

variable [DecidableEq α]

/-- **PUSH**: a block that is not in the list becomes its first one. -/
theorem onList_pushOne (hl : OnList next h l) (hu : u ∉ l) :
    OnList (pushOne (next, h) u).1 (pushOne (next, h) u).2 (u :: l) := by
  refine ⟨rfl, ?_⟩
  show OnList _ (Function.update next u h u) l
  rw [Function.update_self]
  refine onList_congr hl fun x hx => ?_
  exact Function.update_of_ne (ne_of_mem_of_not_mem hx hu) ..

/-- Many blocks end up in the list the last one first. -/
theorem onList_pushMany (hl : OnList next h l) (hus : us.Nodup)
    (hu : ∀ u ∈ us, u ∉ l) :
    OnList (pushMany (next, h) us).1 (pushMany (next, h) us).2
      (us.reverse ++ l) := by
  induction us generalizing next h l with
  | nil => exact hl
  | cons u us ih =>
      obtain ⟨hnot, hus⟩ := List.nodup_cons.mp hus
      have hpush := onList_pushOne hl (hu u List.mem_cons_self)
      have hrest := ih hpush hus fun x hx hmem => by
        rcases List.mem_cons.mp hmem with rfl | hmem
        · exact hnot hx
        · exact hu x (List.mem_cons_of_mem _ hx) hmem
      rw [List.reverse_cons, List.append_assoc]
      exact hrest

/-- A push writes the links of its own blocks only. -/
theorem pushMany_frame {m : (α → Option α) × Option α} (hx : x ∉ us) :
    (pushMany m us).1 x = m.1 x := by
  induction us generalizing m with
  | nil => rfl
  | cons u us ih =>
      rw [List.mem_cons, not_or] at hx
      have hrest := ih (m := pushOne m u) hx.2
      refine hrest.trans ?_
      exact Function.update_of_ne hx.1 ..

end UbsIo.Lib
