import Mathlib

/-! # Chains of records

    Records at positions of a disk, each with a length: the record at `p` is
    followed by the one at `p + len p`.  `Chain len p ps q` says that a walk
    from `p` visits the positions `ps` and ends at `q`.  Writing records
    changes `len`; `chain_splice` is the one way a chain changes: between two
    of its positions another chain is put, and what lies between is skipped. -/

namespace UbsIo.Lib

/-- A walk along the records from `p` to `q`. -/
inductive Chain (len : Nat → Nat) : Nat → List Nat → Nat → Prop where
  | nil (p : Nat) : Chain len p [] p
  | cons {p q : Nat} {ps : List Nat} (hpos : 0 < len p)
      (h : Chain len (p + len p) ps q) : Chain len p (p :: ps) q

variable {len len' : Nat → Nat} {p q m : Nat} {ps qs : List Nat}

theorem chain_append (h₁ : Chain len p ps m) (h₂ : Chain len m qs q) :
    Chain len p (ps ++ qs) q := by
  induction h₁ with
  | nil p => exact h₂
  | cons hpos _ ih => exact Chain.cons hpos (ih h₂)

/-- A walk only reads the records it visits. -/
theorem chain_congr (h : Chain len p ps q) (heq : ∀ x ∈ ps, len' x = len x) :
    Chain len' p ps q := by
  induction h with
  | nil p => exact Chain.nil p
  | @cons p q ps hpos _ ih =>
      have hp := heq p (List.mem_cons_self ..)
      refine Chain.cons (hp ▸ hpos) ?_
      rw [hp]
      exact ih fun x hx => heq x (List.mem_cons_of_mem _ hx)

theorem chain_le (h : Chain len p ps q) : p ≤ q := by
  induction h with
  | nil p => exact le_refl p
  | cons _ _ ih => exact le_trans (Nat.le_add_right _ _) ih

theorem chain_bounds (h : Chain len p ps q) :
    ∀ x ∈ ps, p ≤ x ∧ x + len x ≤ q ∧ 0 < len x := by
  induction h with
  | nil p => intro x hx; exact absurd hx List.not_mem_nil
  | @cons p q ps hpos htail ih =>
      intro x hx
      rcases List.mem_cons.mp hx with rfl | hx
      · exact ⟨le_refl _, chain_le htail, hpos⟩
      · obtain ⟨hle, hend, hx⟩ := ih x hx
        exact ⟨by omega, hend, hx⟩

/-- A walk takes at most one step for each position. -/
theorem chain_length (h : Chain len p ps q) : p + ps.length ≤ q := by
  induction h with
  | nil p => simp
  | cons hpos _ ih =>
      rw [List.length_cons]
      omega

theorem chain_nodup (h : Chain len p ps q) : ps.Nodup := by
  induction h with
  | nil p => exact List.nodup_nil
  | cons hpos htail ih =>
      refine List.nodup_cons.mpr ⟨?_, ih⟩
      intro hmem
      have := (chain_bounds htail _ hmem).1
      omega

/-- The record after a visited one is visited, or the walk ends there. -/
theorem chain_succ (h : Chain len p ps q) :
    ∀ x ∈ ps, x + len x ∈ ps ∨ x + len x = q := by
  induction h with
  | nil p => intro x hx; exact absurd hx List.not_mem_nil
  | @cons p q ps hpos htail ih =>
      intro x hx
      rcases List.mem_cons.mp hx with rfl | hx
      · cases htail with
        | nil => exact Or.inr rfl
        | cons => exact Or.inl (List.mem_cons_of_mem _ (List.mem_cons_self ..))
      · exact (ih x hx).imp (List.mem_cons_of_mem _) id

/-- Cut a walk at one of its positions, or at its end. -/
theorem chain_split (h : Chain len p ps q) {x : Nat} (hx : x ∈ ps ∨ x = q) :
    Chain len p (ps.filter (· < x)) x ∧
      Chain len x (ps.filter (x ≤ ·)) q := by
  induction h with
  | nil p =>
      obtain rfl : x = p := by simpa using hx
      exact ⟨Chain.nil x, Chain.nil x⟩
  | @cons p q ps hpos htail ih =>
      by_cases hxp : x = p
      · subst hxp
        have hbounds := chain_bounds htail
        have hlow : (x :: ps).filter (· < x) = [] := by
          refine List.filter_eq_nil_iff.mpr ?_
          intro y hy
          rcases List.mem_cons.mp hy with rfl | hy
          · simp
          · have := (hbounds y hy).1
            simp
            omega
        have hhigh : (x :: ps).filter (x ≤ ·) = x :: ps := by
          refine List.filter_eq_self.mpr ?_
          intro y hy
          rcases List.mem_cons.mp hy with rfl | hy
          · simp
          · have := (hbounds y hy).1
            simp
            omega
        rw [hlow, hhigh]
        exact ⟨Chain.nil x, Chain.cons hpos htail⟩
      · have hx' : x ∈ ps ∨ x = q := by
          rcases hx with hx | hx
          · exact Or.inl ((List.mem_cons.mp hx).resolve_left hxp)
          · exact Or.inr hx
        have hlt : p < x := by
          rcases hx' with hx' | rfl
          · have := (chain_bounds htail x hx').1
            omega
          · have := chain_le htail
            omega
        obtain ⟨h₁, h₂⟩ := ih hx'
        rw [List.filter_cons_of_pos (by simpa using hlt),
          List.filter_cons_of_neg (by simpa using hlt)]
        exact ⟨Chain.cons hpos h₁, h₂⟩

/-- The positions of a walk with a part replaced. -/
def splice (ps : List Nat) (i : Nat) (mid : List Nat) (e : Nat) : List Nat :=
  ps.filter (· < i) ++ (mid ++ ps.filter (e ≤ ·))

theorem mem_splice {i e x : Nat} {mid : List Nat} :
    x ∈ splice ps i mid e ↔ (x ∈ ps ∧ (x < i ∨ e ≤ x)) ∨ x ∈ mid := by
  simp only [splice, List.mem_append, List.mem_filter, decide_eq_true_eq]
  tauto

/-- **SPLICING**: between two positions of a walk the records are replaced by
    another walk. -/
theorem chain_splice (h : Chain len p ps q) {i e : Nat} {mid : List Nat}
    (hi : i ∈ ps) (he : e ∈ ps ∨ e = q) (hmid : Chain len' i mid e)
    (heq : ∀ x ∈ ps, x < i ∨ e ≤ x → len' x = len x) :
    Chain len' p (splice ps i mid e) q := by
  have h₁ := (chain_split h (Or.inl hi)).1
  have h₂ := (chain_split h he).2
  refine chain_append (chain_congr h₁ ?_)
    (chain_append hmid (chain_congr h₂ ?_))
  · intro x hx
    obtain ⟨hmem, hlt⟩ := List.mem_filter.mp hx
    exact heq x hmem (Or.inl (of_decide_eq_true hlt))
  · intro x hx
    obtain ⟨hmem, hle⟩ := List.mem_filter.mp hx
    exact heq x hmem (Or.inr (of_decide_eq_true hle))

end UbsIo.Lib
