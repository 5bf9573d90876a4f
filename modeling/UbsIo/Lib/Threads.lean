import Mathlib

/-! # Chains whose nodes are embedded in blocks

    A node points to a block, and the node of the next block of the chain is
    stored inside that block.  `Threads s n l` says that the blocks reached
    from the node `n` are those of `l`, and that every node on the way fits the
    block it points to.  A chain changes in two ways only: a block is put
    before the first one, or the node that points to a block is overwritten
    with the node stored in it. -/

namespace UbsIo.Lib

/-- What nodes point to, which of them fit, and the node stored in a block. -/
structure Nodes (N α : Type) where
  ptr : N → Option α
  fits : N → α → Prop
  next : α → Option N

variable {N α : Type}

/-- The blocks of a chain, from a node on. -/
def Threads (s : Nodes N α) : N → List α → Prop
  | n, [] => s.ptr n = none
  | n, a :: l => s.ptr n = some a ∧ s.fits n a ∧
      ∃ n', s.next a = some n' ∧ Threads s n' l

/-- The node that points to what follows `pre`. -/
def nodeAfter (s : Nodes N α) (n : N) (pre : List α) : Option N :=
  match pre.getLast? with
  | none => some n
  | some b => s.next b

variable {s t : Nodes N α} {n : N} {a b : α} {l pre post : List α}

@[simp] theorem nodeAfter_nil : nodeAfter s n [] = some n := rfl

theorem nodeAfter_cons {n' : N} (h : s.next a = some n') :
    nodeAfter s n (a :: pre) = nodeAfter s n' pre := by
  cases pre with
  | nil => exact h
  | cons c l => simp [nodeAfter, List.getLast?_cons]

/-- Only the blocks of the chain matter. -/
theorem threads_congr (hptr : t.ptr = s.ptr) : ∀ {l : List α} {n : N},
    (∀ a ∈ l, t.next a = s.next a) →
    (∀ a ∈ l, ∀ n, s.fits n a → t.fits n a) →
    Threads s n l → Threads t n l := by
  intro l
  induction l with
  | nil =>
      intro n _ _ h
      exact (congrFun hptr n).trans h
  | cons a l ih =>
      rintro n hnext hfits ⟨hp, hf, n', hn', hl⟩
      refine ⟨(congrFun hptr n).trans hp,
        hfits a (List.mem_cons_self ..) n hf, n',
        (hnext a (List.mem_cons_self ..)).trans hn', ih ?_ ?_ hl⟩
      · exact fun x hx => hnext x (List.mem_cons_of_mem _ hx)
      · exact fun x hx => hfits x (List.mem_cons_of_mem _ hx)

/-- Both halves of a chain, and the node between them. -/
theorem threads_append : ∀ {pre : List α} {n : N},
    Threads s n (pre ++ l) → ∃ n', nodeAfter s n pre = some n' ∧
      Threads s n' l := by
  intro pre
  induction pre with
  | nil => intro n h; exact ⟨n, rfl, h⟩
  | cons a pre ih =>
      rintro n ⟨-, -, n', hn', h⟩
      rw [nodeAfter_cons hn']
      exact ih h

/-- A block in the middle of a chain is taken out by overwriting the node
    before it. -/
theorem threads_bypass (hptr : t.ptr = s.ptr) {na : N} :
    ∀ {pre : List α} {n : N}, Threads s n (pre ++ b :: a :: post) →
    s.next a = some na → t.next b = some na →
    (∀ x ∈ pre ++ post, t.next x = s.next x) →
    (∀ x ∈ pre ++ b :: post, ∀ n, s.fits n x → t.fits n x) →
    Threads t n (pre ++ b :: post) := by
  intro pre
  induction pre with
  | nil =>
      rintro n ⟨hp, hf, n', -, -, -, na', hna', hl⟩ hna hb hnext hfits
      rw [hna] at hna'
      cases hna'
      refine ⟨(congrFun hptr n).trans hp,
        hfits b (List.mem_cons_self ..) n hf, na, hb, ?_⟩
      exact threads_congr hptr hnext
        (fun x hx => hfits x (List.mem_cons_of_mem _ hx)) hl
  | cons c pre ih =>
      rintro n ⟨hp, hf, n', hn', hl⟩ hna hb hnext hfits
      refine ⟨(congrFun hptr n).trans hp,
        hfits c (List.mem_cons_self ..) n hf, n',
        (hnext c (List.mem_cons_self ..)).trans hn', ?_⟩
      exact ih hl hna hb
        (fun x hx => hnext x (List.mem_cons_of_mem _ hx))
        (fun x hx => hfits x (List.mem_cons_of_mem _ hx))

end UbsIo.Lib
