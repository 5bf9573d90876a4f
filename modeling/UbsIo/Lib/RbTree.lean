import Mathlib

/-! # Red-black trees with parent pointers

    A tree whose nodes know their parents is walked and edited from the
    inside, so the functions here work on a focused subtree together with the
    PATH from it to the root.  What a position in the tree means to its users
    is the in-order list: the elements `before` it, its subtree, the elements
    `after` it.

    The rebalancing loops follow the textbook algorithm (Cormen, Leiserson,
    Rivest).  They are partial where the algorithm follows a pointer that a
    balanced tree always has: a red node's parent's parent, a sibling.  On
    balanced trees (`RB`) they always succeed, keep the balance, and keep the
    in-order list. -/

namespace UbsIo.Lib

inductive Color where
  | red | black
deriving DecidableEq, Repr

inductive RbTree (α : Type) where
  | leaf
  | node (c : Color) (l : RbTree α) (v : α) (r : RbTree α)
deriving DecidableEq, Repr

/-- One step from the focus to its parent: the focus is the left (right) child
    of a node with this colour, value and other child. -/
inductive Frame (α : Type) where
  | left (c : Color) (v : α) (r : RbTree α)
  | right (c : Color) (l : RbTree α) (v : α)
deriving DecidableEq, Repr

variable {α : Type}

namespace RbTree

/-- The in-order list of the values. -/
def toList : RbTree α → List α
  | leaf => []
  | node _ l v r => l.toList ++ v :: r.toList

/-- The sentinel is black. -/
def color : RbTree α → Color
  | leaf => .black
  | node c _ _ _ => c

def blacken : RbTree α → RbTree α
  | leaf => leaf
  | node _ l v r => node .black l v r

/-- Apply a function to every value. -/
def map {β : Type} (f : α → β) : RbTree α → RbTree β
  | leaf => leaf
  | node c l v r => node c (l.map f) (f v) (r.map f)

/-- The whole tree around a focus. -/
def plug : RbTree α → List (Frame α) → RbTree α
  | t, [] => t
  | t, .left c v r :: p => plug (node c t v r) p
  | t, .right c l v :: p => plug (node c l v t) p

end RbTree

/-- The values to the left of a position. -/
def before : List (Frame α) → List α
  | [] => []
  | .left _ _ _ :: p => before p
  | .right _ l v :: p => before p ++ (l.toList ++ [v])

/-- The values to the right of a position. -/
def after : List (Frame α) → List α
  | [] => []
  | .left _ v r :: p => (v :: r.toList) ++ after p
  | .right _ _ _ :: p => after p

open RbTree

@[simp] theorem toList_leaf : (leaf : RbTree α).toList = [] := rfl

@[simp] theorem toList_node (c : Color) (l : RbTree α) (v : α) (r : RbTree α) :
    (node c l v r).toList = l.toList ++ v :: r.toList := rfl

@[simp] theorem toList_blacken (t : RbTree α) : t.blacken.toList = t.toList := by
  cases t with
  | leaf => rfl
  | node c l v r => rfl

@[simp] theorem color_blacken (t : RbTree α) : t.blacken.color = .black := by
  cases t with
  | leaf => rfl
  | node c l v r => rfl

@[simp] theorem toList_map {β : Type} (f : α → β) (t : RbTree α) :
    (t.map f).toList = t.toList.map f := by
  induction t with
  | leaf => rfl
  | node c l v r ihl ihr => simp [RbTree.map, ihl, ihr]

@[simp] theorem before_nil : before ([] : List (Frame α)) = [] := rfl

@[simp] theorem before_left (c : Color) (v : α) (r : RbTree α)
    (p : List (Frame α)) : before (.left c v r :: p) = before p := rfl

@[simp] theorem before_right (c : Color) (l : RbTree α) (v : α)
    (p : List (Frame α)) :
    before (.right c l v :: p) = before p ++ (l.toList ++ [v]) := rfl

@[simp] theorem after_nil : after ([] : List (Frame α)) = [] := rfl

@[simp] theorem after_left (c : Color) (v : α) (r : RbTree α)
    (p : List (Frame α)) :
    after (.left c v r :: p) = (v :: r.toList) ++ after p := rfl

@[simp] theorem after_right (c : Color) (l : RbTree α) (v : α)
    (p : List (Frame α)) : after (.right c l v :: p) = after p := rfl

theorem before_append (p q : List (Frame α)) :
    before (p ++ q) = before q ++ before p := by
  induction p with
  | nil => simp
  | cons f p ih =>
      cases f with
      | left c v r => simpa using ih
      | right c l v => simp [ih]

theorem after_append (p q : List (Frame α)) :
    after (p ++ q) = after p ++ after q := by
  induction p with
  | nil => simp
  | cons f p ih =>
      cases f with
      | left c v r => simp [ih]
      | right c l v => simpa using ih

/-- **IN-ORDER**: a tree is what is before the focus, the focus, and what is
    after it. -/
@[simp] theorem toList_plug : ∀ (p : List (Frame α)) (t : RbTree α),
    (t.plug p).toList = before p ++ (t.toList ++ after p) := by
  intro p
  induction p with
  | nil => intro t; simp [plug]
  | cons f p ih =>
      intro t
      cases f with
      | left c v r => simp [plug, ih]
      | right c l v => simp [plug, ih]

/-! ## Walking -/

inductive Turn where
  | here | left | right
deriving DecidableEq, Repr

/-- Go down from a focus, turning as `f` says, until `f` stops at a node or a
    leaf is reached. -/
def descend (f : α → Turn) : RbTree α → List (Frame α) → RbTree α × List (Frame α)
  | leaf, p => (leaf, p)
  | node c l v r, p =>
      match f v with
      | .here => (node c l v r, p)
      | .left => descend f l (.left c v r :: p)
      | .right => descend f r (.right c l v :: p)

/-- The walk moves the focus and changes nothing. -/
theorem plug_descend (f : α → Turn) : ∀ (t : RbTree α) (p : List (Frame α)),
    (descend f t p).1.plug (descend f t p).2 = t.plug p := by
  intro t
  induction t with
  | leaf => intro p; rfl
  | node c l v r ihl ihr =>
      intro p
      rw [descend]
      split
      · rfl
      · exact ihl _
      · exact ihr _

/-- Where the walk ends: at a leaf, or at a node where `f` says so. -/
theorem descend_end (f : α → Turn) : ∀ (t : RbTree α) (p : List (Frame α)),
    (descend f t p).1 = leaf ∨
    ∃ c l v r, (descend f t p).1 = node c l v r ∧ f v = .here := by
  intro t
  induction t with
  | leaf => intro p; exact Or.inl rfl
  | node c l v r ihl ihr =>
      intro p
      rw [descend]
      split
      · rename_i hf
        exact Or.inr ⟨c, l, v, r, rfl, hf⟩
      · exact ihl _
      · exact ihr _

/-- Only the turns at the nodes of the tree matter. -/
theorem descend_congr {f g : α → Turn} : ∀ (t : RbTree α) (p : List (Frame α)),
    (∀ v ∈ t.toList, f v = g v) → descend f t p = descend g t p := by
  intro t
  induction t with
  | leaf => exact fun _ _ => rfl
  | node c l v r ihl ihr =>
      intro p h
      have hin (u : α) (hu : u ∈ l.toList ∨ u = v ∨ u ∈ r.toList) : f u = g u := by
        refine h u ?_
        rw [toList_node, List.mem_append, List.mem_cons]
        exact hu
      rw [descend, descend, hin v (.inr (.inl rfl)),
        ihl _ fun u hu => hin u (.inl hu),
        ihr _ fun u hu => hin u (.inr (.inr hu))]

/-- **SEARCH**: in a list ordered by `R`, if a turn to the right (left) tells
    that everything up to the node is low (from it on is high), then the walk
    ends with low values before it and high values after it. -/
theorem descend_sides {f : α → Turn} {R : α → α → Prop} {P Q : α → Prop}
    (hlo : ∀ v, f v = .right → P v ∧ ∀ u, R u v → P u)
    (hhi : ∀ v, f v = .left → Q v ∧ ∀ u, R v u → Q u) :
    ∀ (t : RbTree α) (p : List (Frame α)), t.toList.Pairwise R →
      (∀ u ∈ before p, P u) → (∀ u ∈ after p, Q u) →
      (∀ u ∈ before (descend f t p).2, P u) ∧
      (∀ u ∈ after (descend f t p).2, Q u) := by
  intro t
  induction t with
  | leaf => intro p _ hb ha; exact ⟨hb, ha⟩
  | node c l v r ihl ihr =>
      intro p hsort hb ha
      rw [toList_node] at hsort
      obtain ⟨hl, hvr, hcross⟩ := List.pairwise_append.mp hsort
      obtain ⟨hv, hr⟩ := List.pairwise_cons.mp hvr
      rw [descend]
      split
      · exact ⟨hb, ha⟩
      · rename_i hf
        obtain ⟨hv', hall⟩ := hhi v hf
        refine ihl _ hl hb ?_
        intro u hu
        rw [after_left] at hu
        rcases List.mem_append.mp hu with hu | hu
        · rcases List.mem_cons.mp hu with rfl | hu
          · exact hv'
          · exact hall u (hv u hu)
        · exact ha u hu
      · rename_i hf
        obtain ⟨hv', hall⟩ := hlo v hf
        refine ihr _ hr ?_ ha
        intro u hu
        rw [before_right] at hu
        rcases List.mem_append.mp hu with hu | hu
        · exact hb u hu
        · rcases List.mem_append.mp hu with hu | hu
          · exact hall u (hcross u hu v (List.mem_cons_self ..))
          · rw [List.mem_singleton.mp hu]
            exact hv'

/-- The first ancestor that the focus is to the left of. -/
def nextUp : List (Frame α) → Option α
  | [] => none
  | .left _ v _ :: _ => some v
  | .right _ _ _ :: p => nextUp p

/-- The leftmost value. -/
def minValue? : RbTree α → Option α
  | leaf => none
  | node _ l v _ => (minValue? l).or (some v)

/-- The node after a focused node with right child `r`. -/
def next (r : RbTree α) (p : List (Frame α)) : Option α :=
  (minValue? r).or (nextUp p)

theorem minValue?_eq (t : RbTree α) : minValue? t = t.toList.head? := by
  induction t with
  | leaf => rfl
  | node c l v r ihl _ =>
      rw [minValue?, ihl, toList_node, List.head?_append]
      rfl

theorem nextUp_eq (p : List (Frame α)) : nextUp p = (after p).head? := by
  induction p with
  | nil => rfl
  | cons f p ih =>
      cases f with
      | left c v r => rfl
      | right c l v => exact ih

/-- **SUCCESSOR**: the next node is the first of the values to the right. -/
theorem next_eq (r : RbTree α) (p : List (Frame α)) :
    next r p = (r.toList ++ after p).head? := by
  rw [next, minValue?_eq, nextUp_eq, List.head?_append]

/-- Find the node with a value. -/
def locate [DecidableEq α] (x : α) : RbTree α → List (Frame α) →
    Option (RbTree α × List (Frame α))
  | leaf, _ => none
  | node c l v r, p =>
      if v = x then some (node c l v r, p)
      else (locate x l (.left c v r :: p)).or
        (locate x r (.right c l v :: p))

theorem locate_plug [DecidableEq α] {x : α} :
    ∀ (t : RbTree α) (p : List (Frame α)) (z : RbTree α × List (Frame α)),
      locate x t p = some z →
      z.1.plug z.2 = t.plug p ∧ ∃ c l r, z.1 = node c l x r := by
  intro t
  induction t with
  | leaf => intro p z h; exact nomatch h
  | node c l v r ihl ihr =>
      intro p z h
      rw [locate] at h
      split at h
      · rename_i hv
        rw [← Option.some.inj h, ← hv]
        exact ⟨rfl, c, l, r, rfl⟩
      · rcases Option.or_eq_some_iff.mp h with h | ⟨-, h⟩
        · exact ihl _ z h
        · exact ihr _ z h

theorem locate_isSome [DecidableEq α] {x : α} :
    ∀ (t : RbTree α) (p : List (Frame α)), x ∈ t.toList →
      ∃ z, locate x t p = some z := by
  intro t
  induction t with
  | leaf => intro p h; exact nomatch h
  | node c l v r ihl ihr =>
      intro p h
      rw [locate]
      by_cases hv : v = x
      · exact ⟨_, if_pos hv⟩
      · rw [if_neg hv]
        rw [toList_node] at h
        rcases List.mem_append.mp h with h | h
        · obtain ⟨z, hz⟩ := ihl (.left c v r :: p) h
          exact ⟨z, by rw [hz]; rfl⟩
        · have hr : x ∈ r.toList := by
            rcases List.mem_cons.mp h with h | h
            · exact absurd h.symm hv
            · exact h
          obtain ⟨z, hz⟩ := ihr (.right c l v :: p) hr
          cases hl : locate x l (.left c v r :: p) with
          | none => exact ⟨z, by rw [hz]; rfl⟩
          | some z' => exact ⟨z', rfl⟩

/-! ## Rebalancing after an insertion -/

/-- Two rotations bring an inner grandchild between its parent and its
    grandparent. -/
def doubleRotate (a : RbTree α) (v : α) (t : RbTree α) (w : α)
    (b : RbTree α) : Option (RbTree α) :=
  match t with
  | leaf => none
  | node _ l x r => some (node .black (node .red a v l) x (node .red r w b))

theorem toList_doubleRotate {a t b s : RbTree α} {v w : α}
    (h : doubleRotate a v t w b = some s) :
    s.toList = a.toList ++ v :: (t.toList ++ w :: b.toList) := by
  cases t with
  | leaf => exact nomatch h
  | node c l x r =>
      rw [← Option.some.inj h]
      simp

/-- The loop that repairs a red focus under a red parent. -/
def insertFix : RbTree α → List (Frame α) → Option (RbTree α)
  | t, [] => some t.blacken
  | t, .left .black v r :: p => some (plug (node .black t v r) p).blacken
  | t, .right .black l v :: p => some (plug (node .black l v t) p).blacken
  | _, [.left .red _ _] => none
  | _, [.right .red _ _] => none
  -- the parent is a left child, `u` the uncle
  | t, .left .red v r :: .left _ g u :: p =>
      if u.color = .red then
        insertFix (node .red (node .black t v r) g u.blacken) p
      else some (plug (node .black t v (node .red r g u)) p).blacken
  | t, .right .red l v :: .left _ g u :: p =>
      if u.color = .red then
        insertFix (node .red (node .black l v t) g u.blacken) p
      else (doubleRotate l v t g u).map fun s => (plug s p).blacken
  -- the parent is a right child
  | t, .right .red l v :: .right _ u g :: p =>
      if u.color = .red then
        insertFix (node .red u.blacken g (node .black l v t)) p
      else some (plug (node .black (node .red u g l) v t) p).blacken
  | t, .left .red v r :: .right _ u g :: p =>
      if u.color = .red then
        insertFix (node .red u.blacken g (node .black t v r)) p
      else (doubleRotate u g t v r).map fun s => (plug s p).blacken

/-- Rotations and recolourings keep the in-order list. -/
theorem toList_insertFix (t : RbTree α) (p : List (Frame α)) :
    ∀ t', insertFix t p = some t' →
      t'.toList = before p ++ (t.toList ++ after p) := by
  induction t, p using insertFix.induct with
  | case1 t =>
      intro t' h
      rw [← Option.some.inj h]
      simp
  | case2 t v r p =>
      intro t' h
      rw [← Option.some.inj h]
      simp
  | case3 t l v p =>
      intro t' h
      rw [← Option.some.inj h]
      simp
  | case4 => intro t' h; exact nomatch h
  | case5 => intro t' h; exact nomatch h
  | case6 t v r c g u p hu ih =>
      intro t' h
      rw [insertFix, if_pos hu] at h
      simp [ih t' h]
  | case7 t v r c g u p hu =>
      intro t' h
      rw [insertFix, if_neg hu] at h
      rw [← Option.some.inj h]
      simp
  | case8 t l v c g u p hu ih =>
      intro t' h
      rw [insertFix, if_pos hu] at h
      simp [ih t' h]
  | case9 t l v c g u p hu =>
      intro t' h
      rw [insertFix, if_neg hu] at h
      obtain ⟨s, hs, heq⟩ := Option.map_eq_some_iff.mp h
      rw [← heq]
      simp [toList_doubleRotate hs]
  | case10 t l v c u g p hu ih =>
      intro t' h
      rw [insertFix, if_pos hu] at h
      simp [ih t' h]
  | case11 t l v c u g p hu =>
      intro t' h
      rw [insertFix, if_neg hu] at h
      rw [← Option.some.inj h]
      simp
  | case12 t v r c u g p hu ih =>
      intro t' h
      rw [insertFix, if_pos hu] at h
      simp [ih t' h]
  | case13 t v r c u g p hu =>
      intro t' h
      rw [insertFix, if_neg hu] at h
      obtain ⟨s, hs, heq⟩ := Option.map_eq_some_iff.mp h
      rw [← heq]
      simp [toList_doubleRotate hs]

/-! ## Rebalancing after a deletion -/

/-- The part of the deletion loop after the sibling is known to be black, for a
    focus `t` that is a left child: the new subtree of the parent, and whether
    the loop goes on from there. -/
def fixLeft (t : RbTree α) (c : Color) (v : α) (w : RbTree α) :
    Option (RbTree α × Bool) :=
  match w with
  | leaf => none
  | node _ a x b =>
      if a.color = .black ∧ b.color = .black then
        some (node c t v (node .red a x b), true)
      else if b.color = .black then
        match a with
        | leaf => none
        | node _ al y ar =>
            some (node c (node .black t v al) y (node .black ar x b), false)
      else some (node c (node .black t v a) x b.blacken, false)

/-- The mirror image, for a focus that is a right child. -/
def fixRight (w : RbTree α) (c : Color) (v : α) (t : RbTree α) :
    Option (RbTree α × Bool) :=
  match w with
  | leaf => none
  | node _ a x b =>
      if a.color = .black ∧ b.color = .black then
        some (node c (node .red a x b) v t, true)
      else if a.color = .black then
        match b with
        | leaf => none
        | node _ bl y br =>
            some (node c (node .black a x bl) y (node .black br v t), false)
      else some (node c a.blacken x (node .black b v t), false)

/-- After the rotation of a red sibling the parent is red, so the loop ends
    there in either case. -/
def fixUnderRed (s : RbTree α × Bool) (f : Frame α) (p : List (Frame α)) :
    RbTree α :=
  if s.2 then plug s.1.blacken (f :: p) else (plug s.1 (f :: p)).blacken

/-- The loop that repairs a focus whose subtree lost one black node. -/
def deleteFix : RbTree α → List (Frame α) → Option (RbTree α)
  | t, [] => some t.blacken
  | t, .left c v w :: p =>
      if t.color = .red then some (plug t.blacken (.left c v w :: p))
      else
        match w with
        | node .red wl wv wr =>
            (fixLeft t .red v wl).map fun s =>
              fixUnderRed s (.left .black wv wr) p
        | w =>
            (fixLeft t c v w).bind fun s =>
              if s.2 then deleteFix s.1 p else some (plug s.1 p).blacken
  | t, .right c w v :: p =>
      if t.color = .red then some (plug t.blacken (.right c w v :: p))
      else
        match w with
        | node .red wl wv wr =>
            (fixRight wr .red v t).map fun s =>
              fixUnderRed s (.right .black wl wv) p
        | w =>
            (fixRight w c v t).bind fun s =>
              if s.2 then deleteFix s.1 p else some (plug s.1 p).blacken

/-- Take the leftmost node out of a non-empty tree: its colour, value and right
    child, and the path to it inside the tree. -/
def takeMin : RbTree α → List (Frame α) →
    Option (Color × α × RbTree α × List (Frame α))
  | leaf, _ => none
  | node c leaf v r, p => some (c, v, r, p)
  | node c l v r, p => takeMin l (.left c v r :: p)

/-- Close the gap a removed node leaves: nothing to repair below a red one. -/
def closeGap (c : Color) (t : RbTree α) (p : List (Frame α)) :
    Option (RbTree α) :=
  if c = .red then some (plug t p) else deleteFix t p

/-- Delete a focused node. -/
def deleteNode (c : Color) (l : RbTree α) (r : RbTree α)
    (p : List (Frame α)) : Option (RbTree α) :=
  match l, r with
  | leaf, r => if p = [] then some r.blacken else closeGap c r p
  | l, leaf => if p = [] then some l.blacken else closeGap c l p
  | l, r =>
      (takeMin r []).bind fun m =>
        -- the substitute takes the place and the colour of the node
        closeGap m.1 m.2.2.1 (m.2.2.2 ++ .right c l m.2.1 :: p)

theorem toList_fixLeft {t w : RbTree α} {c : Color} {v : α}
    {s : RbTree α × Bool} (h : fixLeft t c v w = some s) :
    s.1.toList = t.toList ++ v :: w.toList := by
  cases w with
  | leaf => exact nomatch h
  | node cw a x b =>
      simp only [fixLeft.eq_def] at h
      split at h
      · rw [← Option.some.inj h]
        simp
      · split at h
        · split at h
          · exact nomatch h
          · rw [← Option.some.inj h]
            simp
        · rw [← Option.some.inj h]
          simp

theorem toList_fixRight {t w : RbTree α} {c : Color} {v : α}
    {s : RbTree α × Bool} (h : fixRight w c v t = some s) :
    s.1.toList = w.toList ++ v :: t.toList := by
  cases w with
  | leaf => exact nomatch h
  | node cw a x b =>
      simp only [fixRight.eq_def] at h
      split at h
      · rw [← Option.some.inj h]
        simp
      · split at h
        · split at h
          · exact nomatch h
          · rw [← Option.some.inj h]
            simp
        · rw [← Option.some.inj h]
          simp

theorem toList_fixUnderRed (s : RbTree α × Bool) (f : Frame α)
    (p : List (Frame α)) :
    (fixUnderRed s f p).toList
      = before (f :: p) ++ (s.1.toList ++ after (f :: p)) := by
  rw [fixUnderRed]
  split
  · rw [toList_plug, toList_blacken]
  · rw [toList_blacken, toList_plug]

theorem toList_deleteFix : ∀ (p : List (Frame α)) (t t' : RbTree α),
    deleteFix t p = some t' → t'.toList = before p ++ (t.toList ++ after p) := by
  intro p
  induction p with
  | nil =>
      intro t t' h
      rw [← Option.some.inj h]
      simp
  | cons f p ih =>
      intro t t' h
      cases f with
      | left c v w =>
          rw [deleteFix.eq_def] at h
          dsimp only at h
          split at h
          · rw [← Option.some.inj h, toList_plug, toList_blacken]
          · split at h
            · obtain ⟨s, hs, heq⟩ := Option.map_eq_some_iff.mp h
              rw [← heq, toList_fixUnderRed, toList_fixLeft hs]
              simp
            · obtain ⟨s, hs, h⟩ := Option.bind_eq_some_iff.mp h
              split at h
              · rw [ih _ _ h, toList_fixLeft hs]
                simp
              · rw [← Option.some.inj h, toList_blacken, toList_plug,
                  toList_fixLeft hs]
                simp
      | right c w v =>
          rw [deleteFix.eq_def] at h
          dsimp only at h
          split at h
          · rw [← Option.some.inj h, toList_plug, toList_blacken]
          · split at h
            · obtain ⟨s, hs, heq⟩ := Option.map_eq_some_iff.mp h
              rw [← heq, toList_fixUnderRed, toList_fixRight hs]
              simp
            · obtain ⟨s, hs, h⟩ := Option.bind_eq_some_iff.mp h
              split at h
              · rw [ih _ _ h, toList_fixRight hs]
                simp
              · rw [← Option.some.inj h, toList_blacken, toList_plug,
                  toList_fixRight hs]
                simp

/-- The leftmost node has nothing of the tree before it. -/
theorem takeMin_spec : ∀ (t : RbTree α) (p : List (Frame α))
    (m : Color × α × RbTree α × List (Frame α)), takeMin t p = some m →
    ∃ q, m.2.2.2 = q ++ p ∧ before q = [] ∧
      t.toList = m.2.1 :: (m.2.2.1.toList ++ after q) ∧
      ∀ p', plug (node m.1 leaf m.2.1 m.2.2.1) (q ++ p') = plug t p' := by
  intro t
  induction t with
  | leaf => intro p m h; exact nomatch h
  | node c l v r ihl _ =>
      intro p m h
      cases l with
      | leaf =>
          rw [← Option.some.inj h]
          exact ⟨[], rfl, rfl, by simp, fun _ => rfl⟩
      | node cl ll vl rl =>
          obtain ⟨q, hq, hb, hlist, hplug⟩ := ihl _ m h
          refine ⟨q ++ [.left c v r], ?_, ?_, ?_, ?_⟩
          · rw [hq, List.append_assoc]
            rfl
          · rw [before_append, hb]
            rfl
          · rw [toList_node, hlist, after_append]
            simp
          · intro p'
            rw [List.append_assoc, hplug]
            rfl

theorem takeMin_isSome : ∀ (t : RbTree α) (p : List (Frame α)), t ≠ leaf →
    ∃ m, takeMin t p = some m := by
  intro t
  induction t with
  | leaf => intro p h; exact absurd rfl h
  | node c l v r ihl _ =>
      intro p _
      cases l with
      | leaf => exact ⟨_, rfl⟩
      | node cl ll vl rl => exact ihl _ nofun

theorem toList_closeGap {c : Color} {t t' : RbTree α} {p : List (Frame α)}
    (h : closeGap c t p = some t') :
    t'.toList = before p ++ (t.toList ++ after p) := by
  rw [closeGap] at h
  split at h
  · rw [← Option.some.inj h, toList_plug]
  · exact toList_deleteFix p t t' h

/-- **DELETION** removes the focused node from the in-order list. -/
theorem toList_deleteNode {c : Color} {l r t' : RbTree α}
    {p : List (Frame α)} (h : deleteNode c l r p = some t') :
    t'.toList = before p ++ (l.toList ++ (r.toList ++ after p)) := by
  rw [deleteNode.eq_def] at h
  split at h
  · split at h
    · rename_i hp
      rw [← Option.some.inj h, hp]
      simp
    · simpa using toList_closeGap h
  · split at h
    · rename_i hp
      rw [← Option.some.inj h, hp]
      simp
    · simpa using toList_closeGap h
  · obtain ⟨m, hm, h⟩ := Option.bind_eq_some_iff.mp h
    obtain ⟨q, hq, hb, hlist, -⟩ := takeMin_spec r [] m hm
    rw [List.append_nil] at hq
    rw [toList_closeGap h, hq, before_append, after_append, hb, hlist]
    simp

/-! ## Balance -/

/-- Red nodes have black children, and every path to a leaf has `n` black
    nodes. -/
inductive RB : RbTree α → Nat → Prop where
  | leaf : RB leaf 0
  | red {l r : RbTree α} {v : α} {n : Nat} (hl : RB l n) (hr : RB r n)
      (cl : l.color = .black) (cr : r.color = .black) :
      RB (node .red l v r) n
  | black {l r : RbTree α} {v : α} {n : Nat} (hl : RB l n) (hr : RB r n) :
      RB (node .black l v r) (n + 1)

/-- A position where any balanced tree of black height `n` fits; under a red
    parent, and at the root, only a black one (`b`). -/
inductive Hole : List (Frame α) → Bool → Nat → Prop where
  | root (n : Nat) : Hole [] true n
  | leftBlack {p : List (Frame α)} {b : Bool} {n : Nat} {v : α} {r : RbTree α}
      (hp : Hole p b (n + 1)) (hr : RB r n) :
      Hole (.left .black v r :: p) false n
  | rightBlack {p : List (Frame α)} {b : Bool} {n : Nat} {v : α}
      {l : RbTree α} (hp : Hole p b (n + 1)) (hl : RB l n) :
      Hole (.right .black l v :: p) false n
  | leftRed {p : List (Frame α)} {n : Nat} {v : α} {r : RbTree α}
      (hp : Hole p false n) (hr : RB r n) (cr : r.color = .black) :
      Hole (.left .red v r :: p) true n
  | rightRed {p : List (Frame α)} {n : Nat} {v : α} {l : RbTree α}
      (hp : Hole p false n) (hl : RB l n) (cl : l.color = .black) :
      Hole (.right .red l v :: p) true n

/-- A balanced tree with a black root. -/
def Balanced (t : RbTree α) : Prop := (∃ n, RB t n) ∧ t.color = .black

theorem balanced_leaf : Balanced (leaf : RbTree α) := ⟨⟨0, RB.leaf⟩, rfl⟩

theorem hole_false_or_true {b : Bool} {t : RbTree α}
    (h : b = true → t.color = .black) (hc : t.color = .red) : b = false := by
  cases b with
  | false => rfl
  | true =>
      rw [h rfl] at hc
      exact nomatch hc

theorem balanced_plug {p : List (Frame α)} {b : Bool} {n : Nat}
    (hp : Hole p b n) : ∀ {t : RbTree α}, RB t n →
      (b = true → t.color = .black) → Balanced (t.plug p) := by
  induction hp with
  | root n => intro t ht hc; exact ⟨⟨n, ht⟩, hc rfl⟩
  | leftBlack _ hr ih => intro t ht _; exact ih (RB.black ht hr) fun _ => rfl
  | rightBlack _ hl ih => intro t ht _; exact ih (RB.black hl ht) fun _ => rfl
  | leftRed _ hr cr ih =>
      intro t ht hc
      exact ih (RB.red ht hr (hc rfl) cr) nofun
  | rightRed _ hl cl ih =>
      intro t ht hc
      exact ih (RB.red hl ht cl (hc rfl)) nofun

theorem blacken_of_black {t : RbTree α} (h : t.color = .black) :
    t.blacken = t := by
  cases t with
  | leaf => rfl
  | node c l v r =>
      cases c with
      | red => exact nomatch h
      | black => rfl

/-- Blackening the root of a balanced tree does nothing. -/
theorem Balanced.blacken {t : RbTree α} (h : Balanced t) :
    Balanced t.blacken := by
  rw [blacken_of_black h.2]
  exact h

/-- A red root made black adds one to the black height. -/
theorem RB.blacken_red {t : RbTree α} {n : Nat} (h : RB t n)
    (hc : t.color = .red) : RB t.blacken (n + 1) := by
  cases h with
  | leaf => exact nomatch hc
  | red hl hr _ _ => exact RB.black hl hr
  | black _ _ => exact nomatch hc

theorem color_eq_black {c : Color} (h : c ≠ .red) : c = .black := by
  cases c with
  | red => exact absurd rfl h
  | black => rfl

/-- **INSERTION SUCCEEDS**: a red focus with balanced subtree is repaired. -/
theorem balanced_insertFix (t : RbTree α) (p : List (Frame α)) :
    ∀ (b : Bool) (n : Nat), RB t n → t.color = .red → Hole p b n →
      ∃ t', insertFix t p = some t' ∧ Balanced t' := by
  induction t, p using insertFix.induct with
  | case1 t =>
      intro b n ht hc _
      exact ⟨_, rfl, ⟨_, ht.blacken_red hc⟩, color_blacken t⟩
  | case2 t v r p =>
      intro b n ht _ hp
      cases hp with
      | leftBlack hp hr =>
          exact ⟨_, rfl, (balanced_plug hp (RB.black ht hr)
            fun _ => rfl).blacken⟩
  | case3 t l v p =>
      intro b n ht _ hp
      cases hp with
      | rightBlack hp hl =>
          exact ⟨_, rfl, (balanced_plug hp (RB.black hl ht)
            fun _ => rfl).blacken⟩
  | case4 t v r =>
      intro b n _ _ hp
      -- the root is black
      cases hp with
      | leftRed hp _ _ => cases hp
  | case5 t l v =>
      intro b n _ _ hp
      cases hp with
      | rightRed hp _ _ => cases hp
  | case6 t v r c g u p hu ih =>
      intro b n ht _ hp
      rw [insertFix, if_pos hu]
      cases hp with
      | leftRed hp hr _ =>
          cases hp with
          | leftBlack hp hu' =>
              exact ih _ _ (RB.red (RB.black ht hr) (hu'.blacken_red hu) rfl
                (color_blacken u)) rfl hp
  | case7 t v r c g u p hu =>
      intro b n ht _ hp
      rw [insertFix, if_neg hu]
      cases hp with
      | leftRed hp hr cr =>
          cases hp with
          | leftBlack hp hu' =>
              exact ⟨_, rfl, (balanced_plug hp (RB.black ht (RB.red hr hu' cr
                (color_eq_black hu))) fun _ => rfl).blacken⟩
  | case8 t l v c g u p hu ih =>
      intro b n ht _ hp
      rw [insertFix, if_pos hu]
      cases hp with
      | rightRed hp hl _ =>
          cases hp with
          | leftBlack hp hu' =>
              exact ih _ _ (RB.red (RB.black hl ht) (hu'.blacken_red hu) rfl
                (color_blacken u)) rfl hp
  | case9 t l v c g u p hu =>
      intro b n ht hc hp
      rw [insertFix, if_neg hu]
      cases hp with
      | rightRed hp hl cl =>
          cases hp with
          | leftBlack hp hu' =>
              cases ht with
              | leaf => exact nomatch hc
              | black _ _ => exact nomatch hc
              | red ha hb ca cb =>
                  exact ⟨_, rfl, (balanced_plug hp (RB.black
                    (RB.red hl ha cl ca) (RB.red hb hu' cb
                    (color_eq_black hu))) fun _ => rfl).blacken⟩
  | case10 t l v c u g p hu ih =>
      intro b n ht _ hp
      rw [insertFix, if_pos hu]
      cases hp with
      | rightRed hp hl _ =>
          cases hp with
          | rightBlack hp hu' =>
              exact ih _ _ (RB.red (hu'.blacken_red hu) (RB.black hl ht)
                (color_blacken u) rfl) rfl hp
  | case11 t l v c u g p hu =>
      intro b n ht _ hp
      rw [insertFix, if_neg hu]
      cases hp with
      | rightRed hp hl cl =>
          cases hp with
          | rightBlack hp hu' =>
              exact ⟨_, rfl, (balanced_plug hp (RB.black (RB.red hu' hl
                (color_eq_black hu) cl) ht) fun _ => rfl).blacken⟩
  | case12 t v r c u g p hu ih =>
      intro b n ht _ hp
      rw [insertFix, if_pos hu]
      cases hp with
      | leftRed hp hr _ =>
          cases hp with
          | rightBlack hp hu' =>
              exact ih _ _ (RB.red (hu'.blacken_red hu) (RB.black ht hr)
                (color_blacken u) rfl) rfl hp
  | case13 t v r c u g p hu =>
      intro b n ht hc hp
      rw [insertFix, if_neg hu]
      cases hp with
      | leftRed hp hr cr =>
          cases hp with
          | rightBlack hp hu' =>
              cases ht with
              | leaf => exact nomatch hc
              | black _ _ => exact nomatch hc
              | red ha hb ca cb =>
                  exact ⟨_, rfl, (balanced_plug hp (RB.black
                    (RB.red hu' ha (color_eq_black hu) ca) (RB.red hb hr cb
                    cr)) fun _ => rfl).blacken⟩

/-- What the deletion step at a black sibling yields: the loop goes on with the
    sibling made red, or a subtree with two black children is finished. -/
def Fixed (c : Color) (n : Nat) (t : RbTree α × Bool) : Prop :=
  (t.2 = true ∧ ∃ l v r, t.1 = node c l v r ∧ RB (node .black l v r) (n + 1)) ∨
  (t.2 = false ∧ ∃ l v r, t.1 = node c l v r ∧ RB l (n + 1) ∧ RB r (n + 1) ∧
    l.color = .black ∧ r.color = .black)

theorem fixed_fixLeft {t w : RbTree α} {n : Nat} (c : Color) (v : α)
    (ht : RB t n) (hw : RB w (n + 1)) (cw : w.color = .black) :
    ∃ s, fixLeft t c v w = some s ∧ Fixed c n s := by
  cases hw with
  | red _ _ _ _ => exact nomatch cw
  | black ha hb =>
      rename_i a b x
      simp only [fixLeft.eq_def]
      by_cases hboth : a.color = .black ∧ b.color = .black
      · rw [if_pos hboth]
        exact ⟨_, rfl, Or.inl ⟨rfl, _, _, _, rfl,
          RB.black ht (RB.red ha hb hboth.1 hboth.2)⟩⟩
      · rw [if_neg hboth]
        by_cases hcb : b.color = .black
        · rw [if_pos hcb]
          cases ha with
          | leaf => exact absurd ⟨rfl, hcb⟩ hboth
          | black _ _ => exact absurd ⟨rfl, hcb⟩ hboth
          | red hal har _ _ =>
              exact ⟨_, rfl, Or.inr ⟨rfl, _, _, _, rfl, RB.black ht hal,
                RB.black har hb, rfl, rfl⟩⟩
        · rw [if_neg hcb]
          have hred : b.color = .red := by
            cases hc : b.color with
            | red => rfl
            | black => exact absurd hc hcb
          exact ⟨_, rfl, Or.inr ⟨rfl, _, _, _, rfl, RB.black ht ha,
            hb.blacken_red hred, rfl, color_blacken b⟩⟩

theorem fixed_fixRight {t w : RbTree α} {n : Nat} (c : Color) (v : α)
    (ht : RB t n) (hw : RB w (n + 1)) (cw : w.color = .black) :
    ∃ s, fixRight w c v t = some s ∧ Fixed c n s := by
  cases hw with
  | red _ _ _ _ => exact nomatch cw
  | black ha hb =>
      rename_i a b x
      simp only [fixRight.eq_def]
      by_cases hboth : a.color = .black ∧ b.color = .black
      · rw [if_pos hboth]
        exact ⟨_, rfl, Or.inl ⟨rfl, _, _, _, rfl,
          RB.black (RB.red ha hb hboth.1 hboth.2) ht⟩⟩
      · rw [if_neg hboth]
        by_cases hca : a.color = .black
        · rw [if_pos hca]
          cases hb with
          | leaf => exact absurd ⟨hca, rfl⟩ hboth
          | black _ _ => exact absurd ⟨hca, rfl⟩ hboth
          | red hbl hbr _ _ =>
              exact ⟨_, rfl, Or.inr ⟨rfl, _, _, _, rfl, RB.black ha hbl,
                RB.black hbr ht, rfl, rfl⟩⟩
        · rw [if_neg hca]
          have hred : a.color = .red := by
            cases hc : a.color with
            | red => rfl
            | black => exact absurd hc hca
          exact ⟨_, rfl, Or.inr ⟨rfl, _, _, _, rfl, ha.blacken_red hred,
            RB.black hb ht, color_blacken a, rfl⟩⟩

/-- The end of a step below a rotated red sibling. -/
theorem balanced_fixUnderRed {s : RbTree α × Bool} {n : Nat} {f : Frame α}
    {p : List (Frame α)} (hs : Fixed .red n s)
    (hp : Hole (f :: p) false (n + 1)) : Balanced (fixUnderRed s f p) := by
  rw [fixUnderRed]
  rcases hs with ⟨hgo, l, v, r, heq, hb⟩ | ⟨hgo, l, v, r, heq, hl, hr, cl, cr⟩
  · rw [if_pos hgo, heq]
    exact balanced_plug hp hb nofun
  · rw [hgo, if_neg nofun, heq]
    exact (balanced_plug hp (RB.red hl hr cl cr) nofun).blacken

theorem deleteFix_red {t : RbTree α} (p : List (Frame α))
    (h : t.color = .red) : deleteFix t p = some (plug t.blacken p) := by
  cases p with
  | nil => rfl
  | cons f p =>
      rw [deleteFix.eq_def]
      cases f with
      | left c v w => exact if_pos h
      | right c w v => exact if_pos h

/-- The end of a step below a black sibling, given that the loop can go on. -/
theorem balanced_step {s : RbTree α × Bool} {c : Color} {n : Nat}
    {p : List (Frame α)} (hs : Fixed c n s)
    (hred : c = .red → Hole p false (n + 1))
    (hblack : c = .black → ∃ b, Hole p b (n + 2))
    (ih : ∀ t b, RB t (n + 1) → Hole p b (n + 2) →
      ∃ t', deleteFix t p = some t' ∧ Balanced t') :
    ∃ t', (if s.2 then deleteFix s.1 p else some (plug s.1 p).blacken)
      = some t' ∧ Balanced t' := by
  rcases hs with ⟨hgo, l, v, r, heq, hb⟩ | ⟨hgo, l, v, r, heq, hl, hr, cl, cr⟩
  · rw [if_pos hgo, heq]
    cases c with
    | red =>
        -- a red parent ends the loop and turns black
        exact ⟨_, deleteFix_red p rfl, balanced_plug (hred rfl) hb nofun⟩
    | black =>
        obtain ⟨b, hp⟩ := hblack rfl
        exact ih _ b hb hp
  · rw [hgo, if_neg nofun, heq]
    cases c with
    | red =>
        exact ⟨_, rfl, (balanced_plug (hred rfl) (RB.red hl hr cl cr)
          nofun).blacken⟩
    | black =>
        obtain ⟨b, hp⟩ := hblack rfl
        exact ⟨_, rfl, (balanced_plug hp (RB.black hl hr)
          fun _ => rfl).blacken⟩

theorem deleteFix_left_red {t : RbTree α} (h : t.color ≠ .red) (c : Color)
    (v : α) (wl : RbTree α) (wv : α) (wr : RbTree α) (p : List (Frame α)) :
    deleteFix t (.left c v (node .red wl wv wr) :: p)
      = (fixLeft t .red v wl).map fun s =>
          fixUnderRed s (.left .black wv wr) p := by
  rw [deleteFix.eq_def]
  exact if_neg h

theorem deleteFix_left_black {t : RbTree α} (h : t.color ≠ .red) (c : Color)
    (v : α) (wl : RbTree α) (wv : α) (wr : RbTree α) (p : List (Frame α)) :
    deleteFix t (.left c v (node .black wl wv wr) :: p)
      = (fixLeft t c v (node .black wl wv wr)).bind fun s =>
          if s.2 then deleteFix s.1 p else some (plug s.1 p).blacken := by
  rw [deleteFix.eq_def]
  exact if_neg h

theorem deleteFix_right_red {t : RbTree α} (h : t.color ≠ .red) (c : Color)
    (v : α) (wl : RbTree α) (wv : α) (wr : RbTree α) (p : List (Frame α)) :
    deleteFix t (.right c (node .red wl wv wr) v :: p)
      = (fixRight wr .red v t).map fun s =>
          fixUnderRed s (.right .black wl wv) p := by
  rw [deleteFix.eq_def]
  exact if_neg h

theorem deleteFix_right_black {t : RbTree α} (h : t.color ≠ .red) (c : Color)
    (v : α) (wl : RbTree α) (wv : α) (wr : RbTree α) (p : List (Frame α)) :
    deleteFix t (.right c (node .black wl wv wr) v :: p)
      = (fixRight (node .black wl wv wr) c v t).bind fun s =>
          if s.2 then deleteFix s.1 p else some (plug s.1 p).blacken := by
  rw [deleteFix.eq_def]
  exact if_neg h

/-- **DELETION SUCCEEDS**: a focus that is one black node short is repaired. -/
theorem balanced_deleteFix : ∀ (p : List (Frame α)) (t : RbTree α) (b : Bool)
    (n : Nat), RB t n → Hole p b (n + 1) →
      ∃ t', deleteFix t p = some t' ∧ Balanced t' := by
  intro p
  induction p with
  | nil =>
      intro t b n ht _
      refine ⟨_, rfl, ?_, color_blacken t⟩
      cases ht with
      | leaf => exact ⟨0, RB.leaf⟩
      | red hl hr _ _ => exact ⟨_, RB.black hl hr⟩
      | black hl hr => exact ⟨_, RB.black hl hr⟩
  | cons f p ih =>
      intro t b n ht hp
      by_cases hc : t.color = .red
      · exact ⟨_, deleteFix_red _ hc, balanced_plug hp (ht.blacken_red hc)
          fun _ => color_blacken t⟩
      · cases hp with
        | leftBlack hp hw =>
            rename_i b v w
            cases hw with
            | red hwl hwr cl cr =>
                rename_i wl wr wv
                obtain ⟨s, hs, hfix⟩ := fixed_fixLeft .red v ht hwl cl
                rw [deleteFix_left_red hc, hs]
                exact ⟨_, rfl,
                  balanced_fixUnderRed hfix (Hole.leftBlack hp hwr)⟩
            | black hwl hwr =>
                rename_i wl wr wv
                obtain ⟨s, hs, hfix⟩ := fixed_fixLeft .black v ht
                  (RB.black hwl hwr (v := wv)) rfl
                rw [deleteFix_left_black hc, hs]
                exact balanced_step hfix nofun (fun _ => ⟨_, hp⟩)
                  (fun t b => ih t b (n + 1))
        | leftRed hp hw cw =>
            rename_i v w
            cases hw with
            | red _ _ _ _ => exact nomatch cw
            | black hwl hwr =>
                rename_i wl wr wv
                obtain ⟨s, hs, hfix⟩ := fixed_fixLeft .red v ht
                  (RB.black hwl hwr (v := wv)) rfl
                rw [deleteFix_left_black hc, hs]
                exact balanced_step hfix (fun _ => hp) nofun
                  (fun t b => ih t b (n + 1))
        | rightBlack hp hw =>
            rename_i b v w
            cases hw with
            | red hwl hwr cl cr =>
                rename_i wl wr wv
                obtain ⟨s, hs, hfix⟩ := fixed_fixRight .red v ht hwr cr
                rw [deleteFix_right_red hc, hs]
                exact ⟨_, rfl,
                  balanced_fixUnderRed hfix (Hole.rightBlack hp hwl)⟩
            | black hwl hwr =>
                rename_i wl wr wv
                obtain ⟨s, hs, hfix⟩ := fixed_fixRight .black v ht
                  (RB.black hwl hwr (v := wv)) rfl
                rw [deleteFix_right_black hc, hs]
                exact balanced_step hfix nofun (fun _ => ⟨_, hp⟩)
                  (fun t b => ih t b (n + 1))
        | rightRed hp hw cw =>
            rename_i v w
            cases hw with
            | red _ _ _ _ => exact nomatch cw
            | black hwl hwr =>
                rename_i wl wr wv
                obtain ⟨s, hs, hfix⟩ := fixed_fixRight .red v ht
                  (RB.black hwl hwr (v := wv)) rfl
                rw [deleteFix_right_black hc, hs]
                exact balanced_step hfix (fun _ => hp) nofun
                  (fun t b => ih t b (n + 1))

/-! ## Positions in a balanced tree -/

/-- A walk inside a balanced tree stays at a position that fits its focus. -/
def Fits (t : RbTree α) (p : List (Frame α)) : Prop :=
  ∃ b n, RB t n ∧ Hole p b n ∧ (b = true → t.color = .black)

theorem fits_root {t : RbTree α} (h : Balanced t) : Fits t [] := by
  obtain ⟨⟨n, hn⟩, hc⟩ := h
  exact ⟨true, n, hn, Hole.root n, fun _ => hc⟩

theorem fits_left {c : Color} {l r : RbTree α} {v : α} {p : List (Frame α)}
    (h : Fits (node c l v r) p) : Fits l (.left c v r :: p) := by
  obtain ⟨b, n, ht, hp, hb⟩ := h
  cases ht with
  | red hl hr cl cr =>
      rw [hole_false_or_true hb rfl] at hp
      exact ⟨true, n, hl, Hole.leftRed hp hr cr, fun _ => cl⟩
  | black hl hr => exact ⟨false, _, hl, Hole.leftBlack hp hr, nofun⟩

theorem fits_right {c : Color} {l r : RbTree α} {v : α} {p : List (Frame α)}
    (h : Fits (node c l v r) p) : Fits r (.right c l v :: p) := by
  obtain ⟨b, n, ht, hp, hb⟩ := h
  cases ht with
  | red hl hr cl cr =>
      rw [hole_false_or_true hb rfl] at hp
      exact ⟨true, n, hr, Hole.rightRed hp hl cl, fun _ => cr⟩
  | black hl hr => exact ⟨false, _, hr, Hole.rightBlack hp hl, nofun⟩

theorem fits_descend (f : α → Turn) : ∀ (t : RbTree α) (p : List (Frame α)),
    Fits t p → Fits (descend f t p).1 (descend f t p).2 := by
  intro t
  induction t with
  | leaf => intro p h; exact h
  | node c l v r ihl ihr =>
      intro p h
      rw [descend]
      split
      · exact h
      · exact ihl _ (fits_left h)
      · exact ihr _ (fits_right h)

theorem fits_locate [DecidableEq α] {x : α} :
    ∀ (t : RbTree α) (p : List (Frame α)) (z : RbTree α × List (Frame α)),
      locate x t p = some z → Fits t p → Fits z.1 z.2 := by
  intro t
  induction t with
  | leaf => intro p z h; exact nomatch h
  | node c l v r ihl ihr =>
      intro p z h hf
      rw [locate] at h
      split at h
      · rw [← Option.some.inj h]
        exact hf
      · rcases Option.or_eq_some_iff.mp h with h | ⟨-, h⟩
        · exact ihl _ z h (fits_left hf)
        · exact ihr _ z h (fits_right hf)

/-- The values on the path do not matter. -/
theorem fits_value {c : Color} {l t : RbTree α} {v v' : α}
    {p : List (Frame α)} (h : Fits t (.right c l v :: p)) :
    Fits t (.right c l v' :: p) := by
  obtain ⟨b, n, ht, hp, hb⟩ := h
  cases hp with
  | rightBlack hp hl => exact ⟨_, n, ht, Hole.rightBlack hp hl, hb⟩
  | rightRed hp hl cl => exact ⟨_, n, ht, Hole.rightRed hp hl cl, hb⟩

/-- A new value at a leaf position. -/
theorem balanced_insert {p : List (Frame α)} {v : α}
    (h : Fits (leaf : RbTree α) p) :
    ∃ t', insertFix (node .red leaf v leaf) p = some t' ∧ Balanced t' := by
  obtain ⟨b, n, ht, hp, -⟩ := h
  cases ht with
  | leaf =>
      exact balanced_insertFix _ p b 0 (RB.red RB.leaf RB.leaf rfl rfl) rfl hp

theorem fits_takeMin : ∀ (t : RbTree α) (q p : List (Frame α))
    (m : Color × α × RbTree α × List (Frame α)), takeMin t q = some m →
    Fits t (q ++ p) →
    Fits (node m.1 leaf m.2.1 m.2.2.1) (m.2.2.2 ++ p) := by
  intro t
  induction t with
  | leaf => intro q p m h; exact nomatch h
  | node c l v r ihl _ =>
      intro q p m h hf
      cases l with
      | leaf =>
          rw [← Option.some.inj h]
          exact hf
      | node cl ll vl rl => exact ihl _ p m h (fits_left hf)

/-- A node with a missing child can be taken out. -/
theorem balanced_closeGap {c : Color} {l r t : RbTree α} {v : α}
    {p : List (Frame α)} (h : Fits (node c l v r) p)
    (ht : (l = leaf ∧ t = r) ∨ (r = leaf ∧ t = l)) :
    ∃ t', closeGap c t p = some t' ∧ Balanced t' := by
  obtain ⟨b, n, hrb, hp, hb⟩ := h
  rw [closeGap]
  cases hrb with
  | red hl hr cl cr =>
      rw [if_pos rfl]
      rw [hole_false_or_true hb rfl] at hp
      rcases ht with ⟨-, rfl⟩ | ⟨-, rfl⟩
      · exact ⟨_, rfl, balanced_plug hp hr nofun⟩
      · exact ⟨_, rfl, balanced_plug hp hl nofun⟩
  | black hl hr =>
      rw [if_neg nofun]
      rcases ht with ⟨-, rfl⟩ | ⟨-, rfl⟩
      · exact balanced_deleteFix p _ b _ hr hp
      · exact balanced_deleteFix p _ b _ hl hp

/-- The root may be replaced by its only child. -/
theorem balanced_blacken {t : RbTree α} {n : Nat} (h : RB t n) :
    Balanced t.blacken := by
  refine ⟨?_, color_blacken t⟩
  cases h with
  | leaf => exact ⟨0, RB.leaf⟩
  | red hl hr _ _ => exact ⟨_, RB.black hl hr⟩
  | black hl hr => exact ⟨_, RB.black hl hr⟩

/-- **DELETING A NODE SUCCEEDS** in a balanced tree. -/
theorem balanced_deleteNode {c : Color} {l r : RbTree α} {v : α}
    {p : List (Frame α)} (h : Fits (node c l v r) p) :
    ∃ t', deleteNode c l r p = some t' ∧ Balanced t' := by
  have hchild : (∃ n, RB l n) ∧ ∃ n, RB r n := by
    obtain ⟨b, n, hrb, -, -⟩ := h
    cases hrb with
    | red hl hr _ _ => exact ⟨⟨_, hl⟩, ⟨_, hr⟩⟩
    | black hl hr => exact ⟨⟨_, hl⟩, ⟨_, hr⟩⟩
  obtain ⟨⟨nl, hl⟩, ⟨nr, hr⟩⟩ := hchild
  rw [deleteNode.eq_def]
  cases l with
  | leaf =>
      by_cases hp : p = []
      · exact ⟨_, if_pos hp, balanced_blacken hr⟩
      · obtain ⟨t', ht', hbal⟩ := balanced_closeGap h (Or.inl ⟨rfl, rfl⟩)
        exact ⟨t', (if_neg hp).trans ht', hbal⟩
  | node cl ll vl rl =>
      cases r with
      | leaf =>
          by_cases hp : p = []
          · exact ⟨_, if_pos hp, balanced_blacken hl⟩
          · obtain ⟨t', ht', hbal⟩ :=
              balanced_closeGap h (Or.inr ⟨rfl, rfl⟩)
            exact ⟨t', (if_neg hp).trans ht', hbal⟩
      | node cr lr vr rr =>
          obtain ⟨m, hm⟩ := takeMin_isSome (node cr lr vr rr) [] nofun
          -- the substitute's own place, under the node with its value
          have hmin : Fits (node m.1 leaf m.2.1 m.2.2.1)
              (m.2.2.2 ++ .right c (node cl ll vl rl) m.2.1 :: p) := by
            refine fits_takeMin (node cr lr vr rr) [] _ m hm ?_
            exact fits_value (fits_right h)
          obtain ⟨t', ht', hbal⟩ := balanced_closeGap hmin (Or.inl ⟨rfl, rfl⟩)
          refine ⟨t', ?_, hbal⟩
          show (takeMin (node cr lr vr rr) []).bind _ = some t'
          rw [hm]
          exact ht'

/-- Renaming the values keeps the balance. -/
theorem balanced_map {β : Type} (f : α → β) {t : RbTree α}
    (h : Balanced t) : Balanced (t.map f) := by
  have hcolor : ∀ t : RbTree α, (t.map f).color = t.color := by
    intro t
    cases t with
    | leaf => rfl
    | node c l v r => rfl
  have hrb : ∀ {t : RbTree α} {n : Nat}, RB t n → RB (t.map f) n := by
    intro t n ht
    induction ht with
    | leaf => exact RB.leaf
    | red hl hr cl cr ihl ihr =>
        exact RB.red ihl ihr (by rw [hcolor, cl]) (by rw [hcolor, cr])
    | black hl hr ihl ihr => exact RB.black ihl ihr
  obtain ⟨⟨n, hn⟩, hc⟩ := h
  exact ⟨⟨n, hrb hn⟩, by rw [hcolor, hc]⟩

end UbsIo.Lib
