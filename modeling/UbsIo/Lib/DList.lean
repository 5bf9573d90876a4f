import Mathlib

/-! # Doubly linked lists in a memory of nodes

    Nodes carry a pointer to the node before and the node after them; a list
    is known by a pointer to its first node.  `Linked m b h l` says that the
    nodes reached from `h` are those of `l`, and that the pointers back agree,
    the first one being `b`.  The operations write pointers as list code does;
    each has one theorem about its own list and one about all other nodes. -/

namespace UbsIo.Lib

/-- The two pointers of every node. -/
structure Links (α : Type) where
  prev : α → Option α
  next : α → Option α

variable {α : Type}

/-- The nodes of a list, from a pointer on. -/
def Linked (m : Links α) : Option α → Option α → List α → Prop
  | _, h, [] => h = none
  | b, h, u :: l => h = some u ∧ m.prev u = b ∧ Linked m (some u) (m.next u) l

variable {m m' : Links α} {b h : Option α} {u x : α} {l : List α}

/-- Only the nodes of the list matter. -/
theorem linked_congr : ∀ {l : List α} {b h : Option α}, Linked m b h l →
    (∀ x ∈ l, m'.prev x = m.prev x ∧ m'.next x = m.next x) →
    Linked m' b h l := by
  intro l
  induction l with
  | nil => intro b h hl _; exact hl
  | cons u l ih =>
      rintro b h ⟨rfl, hp, hl⟩ heq
      obtain ⟨hpu, hnu⟩ := heq u (List.mem_cons_self ..)
      refine ⟨rfl, hpu.trans hp, ?_⟩
      rw [hnu]
      exact ih hl fun x hx => heq x (List.mem_cons_of_mem _ hx)

/-- The list has the first node its pointer says. -/
theorem linked_head? : Linked m b h l → h = l.head? := by
  cases l with
  | nil => exact id
  | cons u l => exact And.left

/-- The node after a node is in the list. -/
theorem linked_next : ∀ {l : List α} {b h : Option α}, Linked m b h l →
    ∀ u ∈ l, ∀ x, m.next u = some x → x ∈ l := by
  intro l
  induction l with
  | nil => intro b h _ u hu; exact absurd hu List.not_mem_nil
  | cons v l ih =>
      rintro b h ⟨-, -, hl⟩ u hu x hx
      refine List.mem_cons_of_mem _ ?_
      rcases List.mem_cons.mp hu with rfl | hu
      · rw [linked_head? hl] at hx
        exact List.mem_of_mem_head? hx
      · exact ih hl u hu x hx

/-- The node before a node is in the list, or is the one before the list. -/
theorem linked_prev : ∀ {l : List α} {b h : Option α}, Linked m b h l →
    ∀ u ∈ l, m.prev u = b ∨ ∃ x ∈ l, m.prev u = some x := by
  intro l
  induction l with
  | nil => intro b h _ u hu; exact absurd hu List.not_mem_nil
  | cons v l ih =>
      rintro b h ⟨-, hp, hl⟩ u hu
      rcases List.mem_cons.mp hu with rfl | hu
      · exact Or.inl hp
      · right
        rcases ih hl u hu with hv | ⟨x, hx, hpx⟩
        · exact ⟨v, List.mem_cons_self .., hv⟩
        · exact ⟨x, List.mem_cons_of_mem _ hx, hpx⟩

/-- Follow the pointers, for at most so many nodes. -/
def walk (m : Links α) : Nat → Option α → Option (List α)
  | 0, _ => none
  | _ + 1, none => some []
  | fuel + 1, some u => (walk m fuel (m.next u)).map (u :: ·)

theorem walk_eq : ∀ {l : List α} {b h : Option α} (fuel : Nat),
    Linked m b h l → l.length < fuel → walk m fuel h = some l := by
  intro l
  induction l with
  | nil =>
      rintro b h fuel rfl hf
      cases fuel with
      | zero => exact absurd hf (Nat.not_lt_zero _)
      | succ fuel => rfl
  | cons u l ih =>
      rintro b h fuel ⟨rfl, -, hl⟩ hf
      cases fuel with
      | zero => exact absurd hf (Nat.not_lt_zero _)
      | succ fuel =>
          rw [walk, ih fuel hl (Nat.lt_of_succ_lt_succ hf)]
          rfl

/-! ## Pointer writes -/

variable [DecidableEq α]

namespace Links

/-- `if (p != nullptr) p->prev = v`. -/
def setPrev (m : Links α) (p v : Option α) : Links α :=
  match p with
  | none => m
  | some x => { m with prev := Function.update m.prev x v }

/-- `if (p != nullptr) p->next = v`. -/
def setNext (m : Links α) (p v : Option α) : Links α :=
  match p with
  | none => m
  | some x => { m with next := Function.update m.next x v }

/-- A node is linked to no other. -/
def clear (m : Links α) (u : α) : Links α :=
  { prev := Function.update m.prev u none
    next := Function.update m.next u none }

/-- Put a node before the first one. -/
def pushFront (m : Links α) (h : Option α) (u : α) : Links α :=
  Links.setPrev
    { prev := Function.update m.prev u none
      next := Function.update m.next u h } h (some u)

/-- Take out the first node. -/
def popFront (m : Links α) (u : α) : Links α :=
  (m.setPrev (m.next u) none).clear u

/-- Take out a node; without a node before it, the list starts after it. -/
def remove (m : Links α) (u : α) : Links α :=
  ((m.setNext (m.prev u) (m.next u)).setPrev (m.next u) (m.prev u)).clear u

end Links

theorem setPrev_prev (m : Links α) (p v : Option α) (x : α) :
    (m.setPrev p v).prev x = if p = some x then v else m.prev x := by
  cases p with
  | none => rfl
  | some y =>
      show Function.update m.prev y v x = _
      rw [Function.update_apply]
      simp [eq_comm]

@[simp] theorem setPrev_next (m : Links α) (p v : Option α) :
    (m.setPrev p v).next = m.next := by
  cases p with
  | none => rfl
  | some y => rfl

theorem setNext_next (m : Links α) (p v : Option α) (x : α) :
    (m.setNext p v).next x = if p = some x then v else m.next x := by
  cases p with
  | none => rfl
  | some y =>
      show Function.update m.next y v x = _
      rw [Function.update_apply]
      simp [eq_comm]

@[simp] theorem setNext_prev (m : Links α) (p v : Option α) :
    (m.setNext p v).prev = m.prev := by
  cases p with
  | none => rfl
  | some y => rfl

theorem pushFront_prev (hx : x ≠ u) : (m.pushFront h u).prev x =
    if h = some x then some u else m.prev x := by
  rw [Links.pushFront, setPrev_prev]
  show (if h = some x then some u else Function.update m.prev u none x) = _
  rw [Function.update_of_ne hx]

theorem pushFront_next (hx : x ≠ u) : (m.pushFront h u).next x = m.next x := by
  rw [Links.pushFront, setPrev_next]
  exact Function.update_of_ne hx _ _

theorem remove_prev (hx : x ≠ u) : (m.remove u).prev x =
    if m.next u = some x then m.prev u else m.prev x := by
  show Function.update (Links.prev _) u none x = _
  rw [Function.update_of_ne hx, setPrev_prev, setNext_prev]

theorem remove_next (hx : x ≠ u) : (m.remove u).next x =
    if m.prev u = some x then m.next u else m.next x := by
  show Function.update (Links.next _) u none x = _
  rw [Function.update_of_ne hx, setPrev_next, setNext_next]

/-! ## Operations on a list -/

/-- **PUSH**. -/
theorem linked_pushFront (hl : Linked m none h l) (hu : u ∉ l)
    (hn : l.Nodup) : Linked (m.pushFront h u) none (some u) (u :: l) := by
  have hself : ¬ h = some u := by
    intro he
    rw [linked_head? hl] at he
    exact hu (List.mem_of_mem_head? he)
  refine ⟨rfl, ?_, ?_⟩
  · rw [Links.pushFront, setPrev_prev, if_neg hself]
    exact Function.update_self _ _ _
  · have hnext : (m.pushFront h u).next u = h := by
      rw [Links.pushFront, setPrev_next]
      exact Function.update_self _ _ _
    rw [hnext]
    cases l with
    | nil => exact hl
    | cons v l =>
        obtain ⟨rfl, hp, hl⟩ := hl
        have hvu : v ≠ u := fun he => hu (he ▸ List.mem_cons_self ..)
        refine ⟨rfl, ?_, ?_⟩
        · rw [pushFront_prev hvu, if_pos rfl]
        · rw [pushFront_next hvu]
          refine linked_congr hl ?_
          intro x hx
          have hxu : x ≠ u := fun he => hu (he ▸ List.mem_cons_of_mem _ hx)
          have hxv : v ≠ x := fun he => (List.nodup_cons.mp hn).1 (he ▸ hx)
          rw [pushFront_prev hxu, pushFront_next hxu,
            if_neg (fun he => hxv (Option.some.inj he))]
          exact ⟨rfl, rfl⟩

/-- A push writes only its own list's nodes. -/
theorem pushFront_frame (hl : Linked m none h l) (hx : x ∉ l) (hxu : x ≠ u) :
    (m.pushFront h u).prev x = m.prev x ∧
      (m.pushFront h u).next x = m.next x := by
  refine ⟨?_, pushFront_next hxu⟩
  rw [pushFront_prev hxu, if_neg]
  intro he
  rw [linked_head? hl] at he
  exact hx (List.mem_of_mem_head? he)

/-- **REMOVAL**, from any place of the list. -/
theorem linked_remove : ∀ {l : List α} {b h : Option α}, Linked m b h l →
    l.Nodup → u ∈ l → (∀ x ∈ l, b ≠ some x) →
    Linked (m.remove u) b (if m.prev u = b then m.next u else h)
      (l.erase u) := by
  intro l
  induction l with
  | nil => intro b h _ _ hu; exact absurd hu List.not_mem_nil
  | cons v l ih =>
      rintro b h ⟨rfl, hp, hl⟩ hn hu hb
      obtain ⟨hvl, hnl⟩ := List.nodup_cons.mp hn
      by_cases huv : v = u
      · subst huv
        rw [List.erase_cons_head, if_pos hp]
        -- the node after it now points back to the one before it
        cases l with
        | nil => exact hl
        | cons w l =>
            obtain ⟨hw, hpw, hlw⟩ := hl
            obtain ⟨hwl, -⟩ := List.nodup_cons.mp hnl
            have hwv : w ≠ v := fun he => hvl (he ▸ List.mem_cons_self ..)
            have hkeep : ∀ x ∈ v :: w :: l, ¬ m.prev v = some x :=
              fun x hx he => hb x hx (hp ▸ he)
            refine ⟨hw, ?_, ?_⟩
            · rw [remove_prev hwv, if_pos hw]
              exact hp
            · rw [remove_next hwv, if_neg (hkeep w (by simp))]
              refine linked_congr hlw ?_
              intro x hx
              have hxv : x ≠ v := fun he =>
                hvl (he ▸ List.mem_cons_of_mem _ hx)
              have hwx : ¬ m.next v = some x := by
                rw [hw]
                rintro he
                exact hwl (Option.some.inj he ▸ hx)
              rw [remove_prev hxv, remove_next hxv, if_neg hwx,
                if_neg (hkeep x (by simp [hx]))]
              exact ⟨rfl, rfl⟩
      · have hul : u ∈ l := (List.mem_cons.mp hu).resolve_left (Ne.symm huv)
        have hprev : m.prev u ≠ b := by
          rcases linked_prev hl u hul with he | ⟨x, hx, he⟩
          · rw [he]
            exact (hb v (List.mem_cons_self ..)).symm
          · rw [he]
            exact (hb x (List.mem_cons_of_mem _ hx)).symm
        have hnext : ¬ m.next u = some v :=
          fun he => hvl (linked_next hl u hul v he)
        rw [List.erase_cons_tail (by simpa using huv), if_neg hprev]
        refine ⟨rfl, ?_, ?_⟩
        · rw [remove_prev huv, if_neg hnext]
          exact hp
        · rw [remove_next huv]
          refine ih hl hnl hul ?_
          rintro x hx he
          exact hvl (Option.some.inj he ▸ hx)

/-- A removal writes only its own list's nodes. -/
theorem remove_frame (hl : Linked m none h l) (hu : u ∈ l) (hx : x ∉ l) :
    (m.remove u).prev x = m.prev x ∧ (m.remove u).next x = m.next x := by
  have hxu : x ≠ u := fun he => hx (he ▸ hu)
  rw [remove_prev hxu, remove_next hxu, if_neg, if_neg]
  · exact ⟨rfl, rfl⟩
  · intro he
    rcases linked_prev hl u hu with hn | ⟨y, hy, hp⟩
    · rw [hn] at he
      exact nomatch he
    · rw [hp] at he
      exact hx (Option.some.inj he ▸ hy)
  · intro he
    exact hx (linked_next hl u hu x he)

/-- Taking out the first node is a removal. -/
theorem popFront_eq (hp : m.prev u = none) : m.popFront u = m.remove u := by
  rw [Links.popFront, Links.remove, hp]
  rfl

end UbsIo.Lib
