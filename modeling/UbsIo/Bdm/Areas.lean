import UbsIo.Lib.Cover
import UbsIo.Bdm.Allocator

/-! # The free areas of the chunk allocator

    What an insertion and a removal do to the free areas, each said once.
    `Areas` is the invariant of the three representations: the tree is
    balanced and ordered by position without overlaps, and the list for a
    length holds exactly the cells of the tree with that length.  `Joins` is
    everything an insertion can do, `Takes` everything a removal can do; the
    theorems about runs use only these two. -/

namespace UbsIo.Bdm

open UbsIo.Lib

variable {a a' : BdmAllocatorRealize} {c : Nat}

/-! ## What each helper changes -/

@[simp] theorem len_setCell (x : BdmChunkIndex) (d : Nat) :
    (a.setCell c x).len d = if d = c then x.length else a.len d := by
  show (Function.update a.chunkList c x d).length = _
  rw [Function.update_apply]
  split <;> rfl

@[simp] theorem chunkList_setCell (x : BdmChunkIndex) :
    (a.setCell c x).chunkList = Function.update a.chunkList c x := rfl

@[simp] theorem root_setCell (x : BdmChunkIndex) :
    (a.setCell c x).root = a.root := rfl

@[simp] theorem chunkList_setLength (l : Nat) :
    (a.setLength c l).chunkList =
      Function.update a.chunkList c ⟨(a.chunkList c).index, l⟩ := rfl

@[simp] theorem len_setLength (l d : Nat) :
    (a.setLength c l).len d = if d = c then l else a.len d := len_setCell _ _

@[simp] theorem len_unlink (k d : Nat) : (unlink a c k).len d = a.len d := rfl

@[simp] theorem len_link (d : Nat) : (link a c).len d = a.len d := rfl

@[simp] theorem len_updateMeta (b o : Nat) (f : Bool) (d : Nat) :
    (bdmAllocatorUpdateMeta a b o c f).len d = a.len d := rfl

theorem updateMeta_eq {l : Nat} (h : a.chunkList c = ⟨c, l⟩) (b o : Nat)
    (f : Bool) :
    bdmAllocatorUpdateMeta a b o c f =
      { a with
        metaAddr := Function.update a.metaAddr c (metaOf b o l f)
        writes := a.writes ++ [(c, metaOf b o l f)] } := by
  rw [bdmAllocatorUpdateMeta, BdmAllocatorRealize.len, h]

theorem chunkList_setLength_self (h : (a.chunkList c).index = c) (l : Nat) :
    (a.setLength c l).chunkList = Function.update a.chunkList c ⟨c, l⟩ := by
  rw [chunkList_setLength, h]

/-! ## The free lists -/

/-- The lists hold exactly the cells with `S`, each once and in the list for
    its length, and the counters count them. -/
def Filed (a : BdmAllocatorRealize) (S : Nat → Prop) : Prop :=
  ∀ k, (a.freeHead k).Nodup ∧ a.freeCount k = (a.freeHead k).length ∧
    ∀ c, c ∈ a.freeHead k ↔ S c ∧ freeIndexOf (a.len c) = k

variable {S : Nat → Prop}

theorem Filed.congr (h : Filed a S) {T : Nat → Prop} (hST : ∀ x, S x ↔ T x) :
    Filed a T := by
  intro k
  obtain ⟨hn, hc, hm⟩ := h k
  refine ⟨hn, hc, ?_⟩
  intro x
  rw [hm x, hST x]

/-- Only the lists, the counters and the cells matter. -/
theorem Filed.of_eq (h : Filed a S) (hh : a'.freeHead = a.freeHead)
    (hc : a'.freeCount = a.freeCount) (hl : a'.chunkList = a.chunkList) :
    Filed a' S := by
  intro k
  rw [hh, hc]
  refine ⟨(h k).1, (h k).2.1, ?_⟩
  intro x
  rw [show a'.len x = a.len x from congrArg (fun f => (f x).length) hl]
  exact (h k).2.2 x

theorem Filed.unlink (h : Filed a S) (hc : S c) :
    Filed (unlink a c (freeIndexOf (a.len c))) fun x => S x ∧ x ≠ c := by
  intro k
  obtain ⟨hn, hcount, hm⟩ := h k
  refine ⟨hn.erase c, ?_, ?_⟩
  · show Function.update a.freeCount _ _ k = ((a.freeHead k).erase c).length
    rw [Function.update_apply]
    split
    · rename_i hk
      rw [← hk, hcount, List.length_erase_of_mem ((hm c).mpr ⟨hc, hk.symm⟩)]
    · rename_i hk
      rw [hcount, List.erase_of_not_mem]
      intro hmem
      exact hk ((hm c).mp hmem).2.symm
  · intro x
    show x ∈ (a.freeHead k).erase c ↔ _
    rw [hn.mem_erase_iff, hm x, len_unlink]
    tauto

theorem Filed.setCell (h : Filed a S) (hc : ¬ S c) (x : BdmChunkIndex) :
    Filed (a.setCell c x) S := by
  intro k
  obtain ⟨hn, hcount, hm⟩ := h k
  refine ⟨hn, hcount, ?_⟩
  intro d
  show d ∈ a.freeHead k ↔ _
  rw [hm d, len_setCell]
  split
  · rename_i hd
    rw [hd]
    simp [hc]
  · rfl

theorem Filed.setLength (h : Filed a S) (hc : ¬ S c) (l : Nat) :
    Filed (a.setLength c l) S := h.setCell hc _

theorem Filed.link (h : Filed a S) (hc : ¬ S c) :
    Filed (link a c) fun x => S x ∨ x = c := by
  intro k
  obtain ⟨hn, hcount, hm⟩ := h k
  have hout : c ∉ a.freeHead k := fun hmem => hc ((hm c).mp hmem).1
  have hhead : (Bdm.link a c).freeHead k =
      if k = freeIndexOf (a.len c) then a.freeHead k ++ [c]
      else a.freeHead k := by
    show Function.update a.freeHead _ _ k = _
    rw [Function.update_apply]
    split
    · rename_i hk
      rw [hk]
    · rfl
  have hnum : (Bdm.link a c).freeCount k =
      if k = freeIndexOf (a.len c) then a.freeCount k + 1
      else a.freeCount k := by
    show Function.update a.freeCount _ _ k = _
    rw [Function.update_apply]
    split
    · rename_i hk
      rw [hk]
    · rfl
  rw [hhead, hnum]
  split
  · rename_i hk
    refine ⟨?_, by rw [hcount, List.length_append]; rfl, ?_⟩
    · refine List.nodup_append.mpr ⟨hn, List.nodup_singleton c, ?_⟩
      intro x hx y hy hxy
      rw [List.mem_singleton.mp hy] at hxy
      exact hout (hxy ▸ hx)
    · intro x
      rw [List.mem_append, List.mem_singleton, hm x, len_link]
      constructor
      · rintro (⟨hS, hi⟩ | rfl)
        · exact ⟨Or.inl hS, hi⟩
        · exact ⟨Or.inr rfl, hk.symm⟩
      · rintro ⟨hS | rfl, hi⟩
        · exact Or.inl ⟨hS, hi⟩
        · exact Or.inr rfl
  · rename_i hk
    refine ⟨hn, hcount, ?_⟩
    intro x
    rw [hm x, len_link]
    constructor
    · rintro ⟨hS, hi⟩
      exact ⟨Or.inl hS, hi⟩
    · rintro ⟨hS | rfl, hi⟩
      · exact ⟨hS, hi⟩
      · exact absurd hi.symm hk

/-! ## The tree -/

/-- A node takes another one's place in the order. -/
theorem toList_rbtreeReplace {t : RbTree Nat} {lower upper : List Nat}
    {source : Nat} (target : Nat) (hl : t.toList = lower ++ source :: upper)
    (hn : t.toList.Nodup) :
    (rbtreeReplace t target source).toList = lower ++ target :: upper := by
  rw [rbtreeReplace, toList_map, hl]
  rw [hl] at hn
  obtain ⟨-, hu, hlow⟩ := List.nodup_append.mp hn
  have hkeep : ∀ l : List Nat, source ∉ l →
      l.map (fun x => if x = source then target else x) = l := by
    intro l hout
    conv_rhs => rw [← List.map_id l]
    refine List.map_congr_left ?_
    intro x hx
    exact if_neg fun he : x = source => hout (he ▸ hx)
  have hsu : source ∉ upper := (List.nodup_cons.mp hu).1
  have hsl : source ∉ lower := fun hmem =>
    hlow source hmem source (List.mem_cons_self ..) rfl
  rw [List.map_append, List.map_cons, hkeep lower hsl, hkeep upper hsu,
    if_pos rfl]

theorem rbtreeDelete_spec {t : RbTree Nat} {lower upper : List Nat}
    (hb : Balanced t) (hl : t.toList = lower ++ c :: upper)
    (hn : t.toList.Nodup) :
    ∃ t', rbtreeDelete t c = some t' ∧ Balanced t' ∧
      t'.toList = lower ++ upper := by
  have hmem : c ∈ t.toList := by
    rw [hl]
    exact List.mem_append_right _ (List.mem_cons_self ..)
  obtain ⟨z, hz⟩ := locate_isSome t [] hmem
  obtain ⟨hplug, color, l, r, hnode⟩ := locate_plug t [] z hz
  have hfits := fits_locate t [] z hz (fits_root hb)
  rw [hnode] at hfits hplug
  obtain ⟨t', ht', hbal⟩ := balanced_deleteNode hfits
  refine ⟨t', ?_, hbal, ?_⟩
  · rw [rbtreeDelete, hz, Option.bind_some, hnode]
    exact ht'
  · -- the focus is the only place where `c` stands in the order
    have hlist := congrArg RbTree.toList hplug
    rw [toList_plug, toList_plug, toList_node,
      before_nil, after_nil, List.append_nil, List.nil_append, hl] at hlist
    have hsplit : lower = before z.2 ++ l.toList ∧
        upper = r.toList ++ after z.2 := by
      rw [hl] at hn
      have hout := (List.nodup_cons.mp (List.nodup_middle.mp hn)).1
      rw [List.mem_append, not_or] at hout
      have hparts : lower ++ c :: upper =
          (before z.2 ++ l.toList) ++ c :: (r.toList ++ after z.2) := by
        rw [← hlist]
        simp
      exact (List.append_cons_inj_of_notMem hout.1 hout.2).mp hparts
        |>.imp id And.right
    rw [toList_deleteNode ht', hsplit.1, hsplit.2]
    simp

/-! ## The areas -/

/-- The area or chunk at a cell, as a segment of the disk. -/
def BdmAllocatorRealize.seg (a : BdmAllocatorRealize) (c : Nat) : Seg :=
  ⟨(a.chunkList c).index, a.len c⟩

/-- The free areas, in the order of the tree. -/
def BdmAllocatorRealize.areas (a : BdmAllocatorRealize) : List Seg :=
  a.root.toList.map a.seg

/-- A cell in use knows its own position. -/
structure Cell (a : BdmAllocatorRealize) (c : Nat) : Prop where
  index : (a.chunkList c).index = c
  pos : 0 < a.len c

/-- The three representations of the free areas agree. -/
structure Areas (a : BdmAllocatorRealize) : Prop where
  balanced : Balanced a.root
  cell : ∀ c ∈ a.root.toList, Cell a c
  sorted : a.root.toList.Pairwise fun c d => c + a.len c ≤ d
  filed : Filed a (· ∈ a.root.toList)

/-- Only the tree, the lists and the cells matter. -/
theorem Areas.of_eq (h : Areas a) (hr : a'.root = a.root)
    (hh : a'.freeHead = a.freeHead) (hc : a'.freeCount = a.freeCount)
    (hl : a'.chunkList = a.chunkList) : Areas a' := by
  have hlen : ∀ c, a'.len c = a.len c := fun c =>
    congrArg (fun f => (f c).length) hl
  refine ⟨hr ▸ h.balanced, ?_, ?_, ?_⟩
  · intro c hmem
    rw [hr] at hmem
    refine ⟨?_, hlen c ▸ (h.cell c hmem).pos⟩
    rw [hl]
    exact (h.cell c hmem).index
  · rw [hr]
    refine h.sorted.imp ?_
    intro c d hle
    rw [hlen c]
    exact hle
  · rw [hr]
    exact h.filed.of_eq hh hc hl

/-- A cell outside the tree may hold anything. -/
theorem Areas.setCell (h : Areas a) (hc : c ∉ a.root.toList)
    (x : BdmChunkIndex) : Areas (a.setCell c x) := by
  have hkeep : ∀ d ∈ a.root.toList, (a.setCell c x).chunkList d =
      a.chunkList d := by
    intro d hd
    rw [chunkList_setCell, Function.update_of_ne]
    rintro rfl
    exact hc hd
  have hlen : ∀ d ∈ a.root.toList, (a.setCell c x).len d = a.len d :=
    fun d hd => congrArg BdmChunkIndex.length (hkeep d hd)
  refine ⟨h.balanced, ?_, ?_, h.filed.setCell hc x⟩
  · intro d hd
    refine ⟨?_, hlen d hd ▸ (h.cell d hd).pos⟩
    rw [hkeep d hd]
    exact (h.cell d hd).index
  · refine h.sorted.imp_of_mem ?_
    intro d e hd _ hle
    rw [hlen d hd]
    exact hle

theorem Areas.nodup (h : Areas a) : a.root.toList.Nodup := by
  refine h.sorted.imp_of_mem ?_
  intro x y hx _ hle hxy
  have := (h.cell x hx).pos
  omega

/-- The areas on both sides of one. -/
theorem Areas.around (h : Areas a) {lower upper : List Nat} {d : Nat}
    (hl : a.root.toList = lower ++ d :: upper) :
    (∀ x ∈ lower, x + a.len x ≤ d) ∧ (∀ x ∈ upper, d + a.len d ≤ x) := by
  have hs := h.sorted
  rw [hl] at hs
  obtain ⟨-, hu, hlow⟩ := List.pairwise_append.mp hs
  refine ⟨?_, (List.pairwise_cons.mp hu).1⟩
  intro x hx
  exact hlow x hx d (List.mem_cons_self ..)

/-- The areas without one. -/
theorem Areas.mem_ne_iff (h : Areas a) {lower upper : List Nat} {d : Nat}
    (hl : a.root.toList = lower ++ d :: upper) (x : Nat) :
    x ∈ a.root.toList ∧ x ≠ d ↔ x ∈ lower ++ upper := by
  have hn := h.nodup
  rw [hl] at hn ⊢
  have hout := (List.nodup_cons.mp (List.nodup_middle.mp hn)).1
  constructor
  · rintro ⟨hx, hne⟩
    simpa [hne] using hx
  · intro hx
    refine ⟨?_, fun he => hout (he ▸ hx)⟩
    rcases List.mem_append.mp hx with hx | hx
    · exact List.mem_append_left _ hx
    · exact List.mem_append_right _ (List.mem_cons_of_mem _ hx)

theorem Cell.eq (h : Cell a c) : a.chunkList c = ⟨c, a.len c⟩ := by
  have heta : a.chunkList c = ⟨(a.chunkList c).index, a.len c⟩ := rfl
  rw [h.index] at heta
  exact heta

theorem Cell.seg_eq (h : Cell a c) : a.seg c = ⟨c, a.len c⟩ := by
  rw [BdmAllocatorRealize.seg, h.index]

theorem seg_congr {d : Nat} (h : a'.chunkList d = a.chunkList d) :
    a'.seg d = a.seg d := by
  rw [BdmAllocatorRealize.seg, BdmAllocatorRealize.seg,
    BdmAllocatorRealize.len, BdmAllocatorRealize.len, h]

/-- A chunk that meets no free area. -/
structure Fresh (a : BdmAllocatorRealize) (c : Nat) : Prop where
  cell : Cell a c
  apart : ∀ d ∈ a.root.toList, c + a.len c ≤ d ∨ d + a.len d ≤ c

theorem Fresh.not_mem (h : Fresh a c) : c ∉ a.root.toList := by
  intro hmem
  have := h.apart c hmem
  have := h.cell.pos
  omega

/-- Everything an insertion can do to the areas: those in `gone` and the chunk
    become the one area `new`. -/
structure Joins (a : BdmAllocatorRealize) (c : Nat) (a' : BdmAllocatorRealize)
    (lower gone upper : List Nat) (new : Seg) : Prop where
  old : a.root.toList = lower ++ (gone ++ upper)
  root : a'.root.toList = lower ++ new.start :: upper
  balanced : Balanced a'.root
  filed : Filed a' (· ∈ a'.root.toList)
  pos : 0 < new.length
  chunkList : a'.chunkList =
    Function.update a.chunkList new.start ⟨new.start, new.length⟩
  cover : ∀ u, coverNum [new] u =
    coverNum (gone.map a.seg) u + coverNum [a.seg c] u
  lower_le : ∀ d ∈ lower, d + a.len d ≤ new.start
  le_upper : ∀ d ∈ upper, new.start + new.length ≤ d
  starts : new.start = c ∨ new.start ∈ gone
  ends : new.start + new.length = c + a.len c ∨
    ∃ d ∈ gone, new.start + new.length = d + a.len d
  minChunkSize : a'.minChunkSize = a.minChunkSize
  usedSize : a'.usedSize = a.usedSize
  chunkNum : a'.chunkNum = a.chunkNum

/-- Everything an insertion can do to the records: the record of the new area
    or of the chunk is written, unless the chunk touches no area. -/
def Recorded (a : BdmAllocatorRealize) (c : Nat) (a' : BdmAllocatorRealize)
    (new : Seg) : Prop :=
  (new = a.seg c ∧ a'.metaAddr = a.metaAddr ∧ a'.writes = a.writes) ∨
  ∃ first : Seg,
    (first = new ∧ c + a.len c < new.start + new.length ∨ first = a.seg c) ∧
    (first.start = c → first.length = a'.len c) ∧
    a'.metaAddr = Function.update a.metaAddr first.start
      (metaOf 0 0 first.length true) ∧
    a'.writes = a.writes ++ [(first.start, metaOf 0 0 first.length true)]

theorem insertTurn_right {d : Nat} (h : insertTurn a c d = .right) :
    (a.chunkList d).index + a.len d < (a.chunkList c).index := by
  rw [insertTurn] at h
  split at h; · exact nomatch h
  split at h; · exact nomatch h
  split at h; · exact nomatch h
  split at h
  · assumption
  · exact nomatch h

theorem insertTurn_left {d : Nat} (h : insertTurn a c d = .left) :
    (a.chunkList c).index + a.len c < (a.chunkList d).index := by
  rw [insertTurn] at h
  split at h; · exact nomatch h
  split at h; · exact nomatch h
  split at h
  · assumption
  · split at h <;> exact nomatch h

/-- Where the walk ends: with the order split around the chunk. -/
theorem fresh_descend (hA : Areas a) (hc : Fresh a c)
    {t : RbTree Nat} {p : List (Frame Nat)}
    (hw : descend (insertTurn a c) a.root [] = (t, p)) :
    a.root.toList = before p ++ (t.toList ++ after p) ∧ Fits t p ∧
    (∀ d ∈ before p, d + a.len d < c) ∧ (∀ d ∈ after p, c + a.len c < d) := by
  have hplug := plug_descend (insertTurn a c) a.root []
  have hfits := fits_descend (insertTurn a c) a.root [] (fits_root hA.balanced)
  have hsides := descend_sides
    (f := insertTurn a c)
    (R := fun u v => (a.chunkList u).index + a.len u ≤ (a.chunkList v).index)
    (P := fun v => (a.chunkList v).index + a.len v < c)
    (Q := fun v => c + a.len c < (a.chunkList v).index)
    (by
      intro v hv
      have h := insertTurn_right hv
      rw [hc.cell.index] at h
      exact ⟨h, fun u hu => by omega⟩)
    (by
      intro v hv
      have h := insertTurn_left hv
      rw [hc.cell.index] at h
      exact ⟨h, fun u hu => by omega⟩)
    a.root []
    (hA.sorted.imp_of_mem fun {u v} hu hv h => by
      rw [(hA.cell u hu).index, (hA.cell v hv).index]
      exact h)
    (by simp) (by simp)
  rw [hw] at hplug hfits hsides
  have hlist := congrArg RbTree.toList hplug
  rw [toList_plug, toList_plug, before_nil, after_nil, List.append_nil,
    List.nil_append] at hlist
  refine ⟨hlist.symm, hfits, ?_, ?_⟩
  · intro d hd
    have hmem : d ∈ a.root.toList := by
      rw [← hlist]
      exact List.mem_append_left _ hd
    have h := hsides.1 d hd
    rw [(hA.cell d hmem).index] at h
    exact h
  · intro d hd
    have hmem : d ∈ a.root.toList := by
      rw [← hlist]
      exact List.mem_append_right _ (List.mem_append_right _ hd)
    have h := hsides.2 d hd
    rw [(hA.cell d hmem).index] at h
    exact h

/-- The chunk touches no area. -/
theorem restoreInsert_alone (hA : Areas a) (hc : Fresh a c)
    {p : List (Frame Nat)}
    (hw : descend (insertTurn a c) a.root [] = (.leaf, p)) :
    ∃ a', bdmAllocatorRestoreInsert a c = some a' ∧
      Joins a c a' (before p) [] (after p) ⟨c, a.len c⟩ ∧
      a'.metaAddr = a.metaAddr ∧ a'.writes = a.writes := by
  obtain ⟨hlist, hfits, hlo, hhi⟩ := fresh_descend hA hc hw
  obtain ⟨t, ht, hbal⟩ := balanced_insert (v := c) hfits
  have htree := toList_insertFix _ _ t ht
  refine ⟨{ link a c with root := t }, ?_, ?_, rfl, rfl⟩
  · rw [bdmAllocatorRestoreInsert, hw]
    dsimp only
    rw [if_neg (Nat.pos_iff_ne_zero.mp hc.cell.pos), ht]
    rfl
  · refine { old := hlist, root := htree, balanced := hbal, filed := ?_,
             chunkList := ?_, cover := ?_, lower_le := ?_, le_upper := ?_,
             starts := Or.inl rfl, ends := Or.inl rfl, pos := hc.cell.pos,
             minChunkSize := rfl, usedSize := rfl, chunkNum := rfl }
    · refine ((hA.filed.link hc.not_mem).of_eq rfl rfl rfl).congr ?_
      intro x
      show _ ↔ x ∈ t.toList
      rw [htree, hlist]
      simp
      tauto
    · show a.chunkList = _
      rw [← hc.cell.eq, Function.update_eq_self]
    · intro u
      rw [hc.cell.seg_eq]
      simp
    · intro d hd
      have := hlo d hd
      show d + a.len d ≤ c
      omega
    · intro d hd
      have := hhi d hd
      show c + a.len c ≤ d
      omega

/-- The walk stops at a neighbour of the chunk. -/
theorem fresh_neighbour (hA : Areas a) (hc : Fresh a c) {color : Color}
    {l r : RbTree Nat} {d : Nat} {p : List (Frame Nat)}
    (hw : descend (insertTurn a c) a.root [] = (.node color l d r, p)) :
    a.root.toList = (before p ++ l.toList) ++ d :: (r.toList ++ after p) ∧
      d ∈ a.root.toList ∧ (d + a.len d = c ∨ c + a.len c = d) := by
  obtain ⟨hlist, -, -, -⟩ := fresh_descend hA hc hw
  have hlist' : a.root.toList =
      (before p ++ l.toList) ++ d :: (r.toList ++ after p) := by
    rw [hlist, toList_node]
    simp
  have hmem : d ∈ a.root.toList := by
    rw [hlist']
    simp
  refine ⟨hlist', hmem, ?_⟩
  have hhere : insertTurn a c d = .here := by
    rcases descend_end (insertTurn a c) a.root [] with h | ⟨_, _, v, _, h, hv⟩
    · rw [hw] at h
      exact nomatch h
    · rw [hw] at h
      obtain ⟨-, -, rfl, -⟩ := RbTree.node.inj h
      exact hv
  rw [insertTurn] at hhere
  have happart := hc.apart d hmem
  have hx := hc.cell.index
  have hy := (hA.cell d hmem).index
  rw [BdmAllocatorRealize.len, BdmAllocatorRealize.len] at *
  split at hhere; · omega
  split at hhere; · omega
  split at hhere; · exact nomatch hhere
  split at hhere
  · exact nomatch hhere
  · omega

theorem insertPre_eq {n : Nat} (hc : Cell a c) (hn : Cell a n) :
    bdmAllocatorInsertPre a c n = some
      { link ((unlink a n (freeIndexOf (a.len n))).setLength c
          (a.len c + a.len n)) c with
        root := rbtreeReplace a.root c n
        metaAddr := Function.update a.metaAddr c
          (metaOf 0 0 (a.len c + a.len n) true)
        writes := a.writes ++
          [(c, metaOf 0 0 (a.len c + a.len n) true)] } := by
  have hpos := hc.pos
  rw [bdmAllocatorInsertPre, if_neg (Nat.pos_iff_ne_zero.mp hn.pos)]
  dsimp only
  rw [if_neg (by rw [len_setLength, if_pos rfl, len_unlink]; omega),
    updateMeta_eq (l := a.len c + a.len n)]
  · rfl
  · show Function.update a.chunkList c _ c = _
    rw [Function.update_self]
    exact congrArg (BdmChunkIndex.mk · _) hc.index

/-- The chunk touches the area after it. -/
theorem restoreInsert_pre (hA : Areas a) (hc : Fresh a c) {color : Color}
    {l r : RbTree Nat} {n : Nat} {p : List (Frame Nat)}
    (hw : descend (insertTurn a c) a.root [] = (.node color l n r, p))
    (hn : c + a.len c = n) :
    ∃ a', bdmAllocatorRestoreInsert a c = some a' ∧
      Joins a c a' (before p ++ l.toList) [n] (r.toList ++ after p)
        ⟨c, a.len c + a.len n⟩ ∧
      a'.metaAddr = Function.update a.metaAddr c
        (metaOf 0 0 (a.len c + a.len n) true) ∧
      a'.writes = a.writes ++ [(c, metaOf 0 0 (a.len c + a.len n) true)] := by
  obtain ⟨hlist, hmem, -⟩ := fresh_neighbour hA hc hw
  have hcell := hA.cell n hmem
  have hpos := hcell.pos
  have hins : bdmAllocatorRestoreInsert a c = bdmAllocatorInsertPre a c n := by
    rw [bdmAllocatorRestoreInsert, hw]
    dsimp only
    rw [if_neg (by rw [hc.cell.index, hcell.index]; omega),
      if_pos (by rw [hc.cell.index, hcell.index]; exact hn)]
  rw [hins, insertPre_eq hc.cell hcell]
  refine ⟨_, rfl, ?_, rfl, rfl⟩
  · have hroot := toList_rbtreeReplace c hlist hA.nodup
    refine { old := hlist, root := hroot,
             balanced := balanced_map _ hA.balanced, filed := ?_,
             chunkList := chunkList_setLength_self (a := unlink a n _)
               hc.cell.index _,
             cover := ?_, lower_le := ?_, le_upper := ?_,
             starts := Or.inl rfl, ends := ?_,
             pos := Nat.add_pos_left hc.cell.pos _, minChunkSize := rfl,
             usedSize := rfl, chunkNum := rfl }
    · have hfile := ((hA.filed.unlink hmem).setLength
        (fun h => hc.not_mem h.1) (a.len c + a.len n)).link
          (fun h => hc.not_mem h.1)
      refine (hfile.of_eq rfl rfl rfl).congr ?_
      intro x
      show _ ↔ x ∈ (rbtreeReplace a.root c n).toList
      rw [hroot, hA.mem_ne_iff hlist]
      simp only [List.mem_append, List.mem_cons]
      tauto
    · intro u
      rw [hc.cell.seg_eq, List.map_singleton, hcell.seg_eq, coverNum_cut, hn,
        Nat.add_comm]
    · intro d hd
      have hd' : d ∈ a.root.toList := by
        rw [hlist]
        exact List.mem_append_left _ hd
      have hbefore := (hA.around hlist).1 d hd
      have hapart := hc.apart d hd'
      have hdpos := (hA.cell d hd').pos
      show d + a.len d ≤ c
      omega
    · intro d hd
      have hafter := (hA.around hlist).2 d hd
      show c + (a.len c + a.len n) ≤ d
      omega
    · refine Or.inr ⟨n, List.mem_singleton.mpr rfl, ?_⟩
      show c + (a.len c + a.len n) = n + a.len n
      omega

/-- The area before the chunk, with the chunk added to it and taken out of its
    list. -/
def grown (a : BdmAllocatorRealize) (c p : Nat) : BdmAllocatorRealize :=
  (unlink a p (freeIndexOf (a.len p))).setLength p (a.len p + a.len c)

theorem index_grown (p d : Nat) :
    ((grown a c p).chunkList d).index = (a.chunkList d).index := by
  rw [grown, chunkList_setLength, Function.update_apply]
  split
  · rename_i h
    rw [h]
    rfl
  · rfl

theorem len_grown {p d : Nat} (h : d ≠ p) : (grown a c p).len d = a.len d := by
  rw [grown, len_setLength, if_neg h, len_unlink]

theorem len_grown_self (p : Nat) :
    (grown a c p).len p = a.len p + a.len c := by
  rw [grown, len_setLength, if_pos rfl]

/-- The area after the chunk, if it is adjacent to it. -/
def adjacent (a : BdmAllocatorRealize) (c : Nat) (neigh : Option Nat) :
    Option Nat :=
  neigh.filter fun n =>
    (a.chunkList c).index + a.len c == (a.chunkList n).index

theorem insertNext_grown {p : Nat} (hp : Cell a p) (neigh : Option Nat) :
    bdmAllocatorInsertNext a c p neigh =
      match adjacent (grown a c p) c neigh with
      | some n =>
          if (grown a c p).len n = 0 then none
          else
            let b := unlink (grown a c p) n (freeIndexOf ((grown a c p).len n))
            let b := b.setLength p (b.len p + b.len n)
            if b.len p = 0 then none
            else some (bdmAllocatorUpdateMeta (link b p) 0 0 p true, some n)
      | none =>
          if (grown a c p).len p = 0 then none
          else some (bdmAllocatorUpdateMeta (link (grown a c p) p) 0 0 c true,
            none) := by
  rw [bdmAllocatorInsertNext, if_neg (Nat.pos_iff_ne_zero.mp hp.pos)]
  rfl

theorem insertNext_eq {p : Nat} {neigh : Option Nat}
    (hc : a.chunkList c = ⟨c, a.len c⟩) (hp : Cell a p) (hne : c ≠ p)
    (hn : ∀ n, neigh = some n → c + a.len c ≠ (a.chunkList n).index) :
    bdmAllocatorInsertNext a c p neigh = some
      ({ link (grown a c p) p with
        metaAddr := Function.update a.metaAddr c (metaOf 0 0 (a.len c) true)
        writes := a.writes ++ [(c, metaOf 0 0 (a.len c) true)] }, none) := by
  have hpos := hp.pos
  have hfilter : adjacent (grown a c p) c neigh = none := by
    rw [adjacent, Option.filter_eq_none_iff]
    intro n hneigh
    rw [index_grown, index_grown, len_grown hne,
      show (a.chunkList c).index = c from congrArg BdmChunkIndex.index hc,
      beq_iff_eq]
    exact hn n hneigh
  rw [insertNext_grown hp, hfilter]
  dsimp only
  rw [if_neg (by rw [len_grown_self]; omega),
    updateMeta_eq (l := a.len c)]
  · rfl
  · have hself : (grown a c p).chunkList c = a.chunkList c :=
      Function.update_of_ne hne _ _
    show (grown a c p).chunkList c = _
    rw [hself, hc]

theorem insertNext_both_eq {p n : Nat} (hc : Cell a c) (hp : Cell a p)
    (hn : Cell a n) (hcp : c ≠ p) (hnp : n ≠ p) (hadj : c + a.len c = n) :
    bdmAllocatorInsertNext a c p (some n) = some
      ({ link ((unlink (grown a c p) n (freeIndexOf (a.len n))).setLength p
          (a.len p + a.len c + a.len n)) p with
        metaAddr := Function.update a.metaAddr p
          (metaOf 0 0 (a.len p + a.len c + a.len n) true)
        writes := a.writes ++
          [(p, metaOf 0 0 (a.len p + a.len c + a.len n) true)] }, some n) := by
  have hpos := hc.pos
  have hfilter : adjacent (grown a c p) c (some n) = some n := by
    rw [adjacent, Option.filter_some, if_pos]
    rw [index_grown, index_grown, len_grown hcp, hc.index, hn.index, beq_iff_eq]
    exact hadj
  rw [insertNext_grown hp, hfilter]
  dsimp only
  rw [len_grown hnp, if_neg (Nat.pos_iff_ne_zero.mp hn.pos), len_unlink,
    len_unlink, len_grown hnp, len_grown_self, if_neg (by rw [len_setLength, if_pos rfl]; omega),
    updateMeta_eq (l := a.len p + a.len c + a.len n)]
  · rfl
  · show Function.update (grown a c p).chunkList p _ p = _
    rw [Function.update_self]
    show BdmChunkIndex.mk ((grown a c p).chunkList p).index _ = _
    rw [index_grown, hp.index]

/-- The chunk touches only the area before it. -/
theorem restoreInsert_next (hA : Areas a) (hc : Fresh a c) {color : Color}
    {l r : RbTree Nat} {d : Nat} {p : List (Frame Nat)}
    (hw : descend (insertTurn a c) a.root [] = (.node color l d r, p))
    (hd : d + a.len d = c)
    (hup : ∀ n, (r.toList ++ after p).head? = some n → c + a.len c ≠ n) :
    ∃ a', bdmAllocatorRestoreInsert a c = some a' ∧
      Joins a c a' (before p ++ l.toList) [d] (r.toList ++ after p)
        ⟨d, a.len d + a.len c⟩ ∧
      a'.metaAddr = Function.update a.metaAddr c
        (metaOf 0 0 (a.len c) true) ∧
      a'.writes = a.writes ++ [(c, metaOf 0 0 (a.len c) true)] := by
  obtain ⟨hlist, hmem, -⟩ := fresh_neighbour hA hc hw
  have hcell := hA.cell d hmem
  have hpos := hcell.pos
  have hmemup : ∀ n ∈ r.toList ++ after p, n ∈ a.root.toList := by
    intro n hn
    rw [hlist]
    exact List.mem_append_right _ (List.mem_cons_of_mem _ hn)
  have hup' : ∀ n, next r p = some n →
      c + a.len c ≠ (a.chunkList n).index := by
    intro n hn
    rw [next_eq] at hn
    rw [(hA.cell n (hmemup n (List.mem_of_mem_head? hn))).index]
    exact hup n hn
  rw [bdmAllocatorRestoreInsert, hw]
  dsimp only
  rw [if_pos (by rw [hc.cell.index, hcell.index]; exact hd.symm),
    insertNext_eq hc.cell.eq hcell (by omega) hup']
  refine ⟨_, rfl, ?_, rfl, rfl⟩
  refine { old := hlist, root := hlist, balanced := hA.balanced, filed := ?_,
           chunkList := chunkList_setLength_self (a := unlink a d _)
             hcell.index _,
           cover := ?_, lower_le := (hA.around hlist).1, le_upper := ?_,
           starts := Or.inr (List.mem_singleton.mpr rfl), ends := Or.inl ?_,
           pos := Nat.add_pos_left hpos _, minChunkSize := rfl, usedSize := rfl, chunkNum := rfl }
  · have hfile := ((hA.filed.unlink hmem).setLength
      (fun h => h.2 rfl) (a.len d + a.len c)).link (fun h => h.2 rfl)
    refine (hfile.of_eq rfl rfl rfl).congr ?_
    intro x
    show _ ↔ x ∈ a.root.toList
    constructor
    · rintro (h | rfl)
      · exact h.1
      · exact hmem
    · intro h
      by_cases hx : x = d
      · exact Or.inr hx
      · exact Or.inl ⟨h, hx⟩
  · intro u
    rw [hc.cell.seg_eq, List.map_singleton, hcell.seg_eq, coverNum_cut, hd]
  · intro x hx
    have hafter := (hA.around hlist).2 x hx
    have hapart := hc.apart x (hmemup x hx)
    have hxpos := (hA.cell x (hmemup x hx)).pos
    show d + (a.len d + a.len c) ≤ x
    omega
  · show d + (a.len d + a.len c) = c + a.len c
    omega

/-- The chunk fills the gap between two areas. -/
theorem restoreInsert_both (hA : Areas a) (hc : Fresh a c) {color : Color}
    {l r : RbTree Nat} {d n : Nat} {p : List (Frame Nat)} {upper : List Nat}
    (hw : descend (insertTurn a c) a.root [] = (.node color l d r, p))
    (hd : d + a.len d = c) (hup : r.toList ++ after p = n :: upper)
    (hn : c + a.len c = n) :
    ∃ a', bdmAllocatorRestoreInsert a c = some a' ∧
      Joins a c a' (before p ++ l.toList) [d, n] upper
        ⟨d, a.len d + a.len c + a.len n⟩ ∧
      a'.metaAddr = Function.update a.metaAddr d
        (metaOf 0 0 (a.len d + a.len c + a.len n) true) ∧
      a'.writes = a.writes ++
        [(d, metaOf 0 0 (a.len d + a.len c + a.len n) true)] := by
  obtain ⟨hlist, hmem, -⟩ := fresh_neighbour hA hc hw
  rw [hup] at hlist
  have hmemn : n ∈ a.root.toList := by
    rw [hlist]
    simp
  have hcell := hA.cell d hmem
  have hcelln := hA.cell n hmemn
  have hpos := hcell.pos
  have hcpos := hc.cell.pos
  have hnext : next r p = some n := by
    rw [next_eq, hup]
    rfl
  have hlistn : a.root.toList =
      (before p ++ l.toList ++ [d]) ++ n :: upper := by
    rw [hlist]
    simp
  obtain ⟨t, ht, hbal, htree⟩ := rbtreeDelete_spec hA.balanced hlistn hA.nodup
  have htree' : t.toList = (before p ++ l.toList) ++ d :: upper := by
    rw [htree]
    simp
  rw [bdmAllocatorRestoreInsert, hw]
  dsimp only
  rw [if_pos (by rw [hc.cell.index, hcell.index]; exact hd.symm), hnext,
    insertNext_both_eq hc.cell hcell hcelln (by omega) (by omega) hn]
  rw [Option.bind_some]
  dsimp only
  rw [show (link ((unlink (grown a c d) n (freeIndexOf (a.len n))).setLength d
    (a.len d + a.len c + a.len n)) d).root = a.root from rfl, ht]
  refine ⟨_, rfl, ?_, rfl, rfl⟩
  refine { old := hlist, root := htree', balanced := hbal, filed := ?_,
           chunkList := ?_,
           cover := ?_, lower_le := (hA.around hlist).1, le_upper := ?_,
           starts := Or.inr (List.mem_cons_self ..),
           ends := Or.inr ⟨n, by simp, ?_⟩,
           pos := Nat.add_pos_left (Nat.add_pos_left hpos _) _,
           minChunkSize := rfl, usedSize := rfl, chunkNum := rfl }
  · have hgrown : Filed (grown a c d) fun x => x ∈ a.root.toList ∧ x ≠ d :=
      (hA.filed.unlink hmem).setLength (fun h => h.2 rfl) _
    have hunlink := hgrown.unlink (c := n) ⟨hmemn, by omega⟩
    rw [len_grown (by omega)] at hunlink
    have hfile := (hunlink.setLength (c := d) (fun h => h.1.2 rfl)
      (a.len d + a.len c + a.len n)).link (fun h => h.1.2 rfl)
    refine (hfile.of_eq rfl rfl rfl).congr ?_
    intro x
    show _ ↔ x ∈ t.toList
    rw [htree, ← hA.mem_ne_iff hlistn]
    constructor
    · rintro (h | rfl)
      · exact ⟨h.1.1, h.2⟩
      · exact ⟨hmem, by omega⟩
    · rintro ⟨h, hx⟩
      by_cases hxd : x = d
      · exact Or.inr hxd
      · exact Or.inl ⟨⟨h, hxd⟩, hx⟩
  · have hindex : ((unlink (grown a c d) n (freeIndexOf (a.len n))).chunkList
        d).index = d := (index_grown d d).trans hcell.index
    refine (chunkList_setLength_self hindex _).trans ?_
    exact Function.update_idem _ _ _
  · intro u
    rw [hc.cell.seg_eq, List.map_cons, List.map_singleton, hcell.seg_eq,
      hcelln.seg_eq, coverNum_cut, coverNum_cut, ← Nat.add_assoc, hd, hn,
      coverNum_cons ⟨d, a.len d⟩ [⟨n, a.len n⟩]]
    omega
  · intro x hx
    have hafter := (hA.around hlistn).2 x hx
    show d + (a.len d + a.len c + a.len n) ≤ x
    omega
  · show d + (a.len d + a.len c + a.len n) = n + a.len n
    omega

/-- **INSERTION**: inserting a chunk that meets no area succeeds. -/
theorem restoreInsert_spec (hA : Areas a) (hc : Fresh a c) :
    ∃ a' lower gone upper new, bdmAllocatorRestoreInsert a c = some a' ∧
      Joins a c a' lower gone upper new ∧ Recorded a c a' new := by
  rcases hw : descend (insertTurn a c) a.root [] with ⟨t, p⟩
  cases t with
  | leaf =>
      obtain ⟨a', hins, hj, hm, hwr⟩ := restoreInsert_alone hA hc hw
      exact ⟨a', _, _, _, _, hins, hj, Or.inl ⟨hc.cell.seg_eq.symm, hm, hwr⟩⟩
  | node color l d r =>
      obtain ⟨hlist, hmem, hd | hd⟩ := fresh_neighbour hA hc hw
      · have hpos := (hA.cell d hmem).pos
        by_cases hup : ∃ n, (r.toList ++ after p).head? = some n ∧
            c + a.len c = n
        · obtain ⟨n, hhead, hn⟩ := hup
          obtain ⟨upper, hup⟩ := List.head?_eq_some_iff.mp hhead
          obtain ⟨a', hins, hj, hm, hwr⟩ :=
            restoreInsert_both hA hc hw hd hup hn
          have hnpos := (hA.cell n (by rw [hlist, hup]; simp)).pos
          have hend : c + a.len c < d + (a.len d + a.len c + a.len n) := by
            omega
          refine ⟨a', _, _, _, _, hins, hj,
            Or.inr ⟨_, Or.inl ⟨rfl, hend⟩, ?_, hm, hwr⟩⟩
          intro hstart
          change d = c at hstart
          omega
        · have hup' : ∀ n, (r.toList ++ after p).head? = some n →
              c + a.len c ≠ n := fun n hn he => hup ⟨n, hn, he⟩
          obtain ⟨a', hins, hj, hm, hwr⟩ :=
            restoreInsert_next hA hc hw hd hup'
          refine ⟨a', _, _, _, _, hins, hj,
            Or.inr ⟨⟨c, a.len c⟩, Or.inr hc.cell.seg_eq.symm, ?_, hm, hwr⟩⟩
          intro _
          show a.len c = (a'.chunkList c).length
          have hcd : c ≠ d := by omega
          rw [hj.chunkList, Function.update_of_ne hcd]
          rfl
      · obtain ⟨a', hins, hj, hm, hwr⟩ := restoreInsert_pre hA hc hw hd
        have hpos := (hA.cell d hmem).pos
        have hend : c + a.len c < c + (a.len c + a.len d) := by omega
        refine ⟨a', _, _, _, _, hins, hj,
          Or.inr ⟨_, Or.inl ⟨rfl, hend⟩, ?_, hm, hwr⟩⟩
        intro _
        show _ = (a'.chunkList c).length
        rw [hj.chunkList, Function.update_self]

section Joins

variable {lower gone upper : List Nat} {new : Seg}

theorem Joins.chunkList_ne (h : Joins a c a' lower gone upper new) {d : Nat}
    (hd : d ≠ new.start) : a'.chunkList d = a.chunkList d := by
  rw [h.chunkList, Function.update_of_ne hd]

/-- The areas that stay are where they were. -/
theorem Joins.kept (h : Joins a c a' lower gone upper new) (hA : Areas a)
    {d : Nat} (hd : d ∈ lower ++ upper) :
    d ∈ a.root.toList ∧ d ≠ new.start := by
  have hmem : d ∈ a.root.toList := by
    rw [h.old]
    rcases List.mem_append.mp hd with hd | hd
    · exact List.mem_append_left _ hd
    · exact List.mem_append_right _ (List.mem_append_right _ hd)
  refine ⟨hmem, ?_⟩
  have hdpos := (hA.cell d hmem).pos
  have hpos := h.pos
  rcases List.mem_append.mp hd with hd | hd
  · have := h.lower_le d hd
    omega
  · have := h.le_upper d hd
    omega

theorem Joins.len_kept (h : Joins a c a' lower gone upper new) (hA : Areas a)
    {d : Nat} (hd : d ∈ lower ++ upper) : a'.len d = a.len d :=
  congrArg BdmChunkIndex.length (h.chunkList_ne (h.kept hA hd).2)

theorem Joins.cell_new (h : Joins a c a' lower gone upper new) :
    Cell a' new.start ∧ a'.len new.start = new.length := by
  have hcell : a'.chunkList new.start = ⟨new.start, new.length⟩ := by
    rw [h.chunkList, Function.update_self]
  have hlen : a'.len new.start = new.length :=
    congrArg BdmChunkIndex.length hcell
  exact ⟨⟨congrArg BdmChunkIndex.index hcell, hlen ▸ h.pos⟩, hlen⟩

/-- An insertion keeps the areas in order. -/
theorem Joins.areas (h : Joins a c a' lower gone upper new) (hA : Areas a) :
    Areas a' := by
  obtain ⟨hnew, hlen⟩ := h.cell_new
  have hkept : ∀ d ∈ lower ++ upper, Cell a' d ∧ a'.len d = a.len d := by
    intro d hd
    obtain ⟨hmem, hne⟩ := h.kept hA hd
    have hl := h.len_kept hA hd
    refine ⟨⟨?_, hl ▸ (hA.cell d hmem).pos⟩, hl⟩
    rw [h.chunkList_ne hne]
    exact (hA.cell d hmem).index
  refine ⟨h.balanced, ?_, ?_, h.filed⟩
  · intro d hd
    rw [h.root] at hd
    rcases List.mem_append.mp hd with hd | hd
    · exact (hkept d (List.mem_append_left _ hd)).1
    · rcases List.mem_cons.mp hd with rfl | hd
      · exact hnew
      · exact (hkept d (List.mem_append_right _ hd)).1
  · have hs := hA.sorted
    rw [h.old] at hs
    obtain ⟨hlow, hrest, hcross⟩ := List.pairwise_append.mp hs
    obtain ⟨-, hup, -⟩ := List.pairwise_append.mp hrest
    rw [h.root]
    refine List.pairwise_append.mpr ⟨?_, List.pairwise_cons.mpr ⟨?_, ?_⟩, ?_⟩
    · refine hlow.imp_of_mem ?_
      intro x y hx _ hle
      rw [(hkept x (List.mem_append_left _ hx)).2]
      exact hle
    · intro x hx
      rw [hlen]
      exact h.le_upper x hx
    · refine hup.imp_of_mem ?_
      intro x y hx _ hle
      rw [(hkept x (List.mem_append_right _ hx)).2]
      exact hle
    · intro x hx y hy
      rw [(hkept x (List.mem_append_left _ hx)).2]
      rcases List.mem_cons.mp hy with rfl | hy
      · exact h.lower_le x hx
      · exact hcross x hx y (List.mem_append_right _ hy)

/-- An insertion covers what was covered, and the chunk. -/
theorem Joins.coverNum_areas (h : Joins a c a' lower gone upper new)
    (hA : Areas a) (u : Nat) :
    coverNum a'.areas u = coverNum a.areas u + coverNum [a.seg c] u := by
  have hnew : a'.seg new.start = new := by
    rw [h.cell_new.1.seg_eq, h.cell_new.2]
  have hmap : ∀ l : List Nat, (∀ d ∈ l, d ∈ lower ++ upper) →
      l.map a'.seg = l.map a.seg := by
    intro l hl
    refine List.map_congr_left ?_
    intro d hd
    exact seg_congr (h.chunkList_ne (h.kept hA (hl d hd)).2)
  rw [BdmAllocatorRealize.areas, BdmAllocatorRealize.areas, h.root, h.old]
  simp only [List.map_append, List.map_cons, coverNum_append]
  rw [coverNum_cons, hnew, h.cover u,
    hmap lower fun d hd => List.mem_append_left _ hd,
    hmap upper fun d hd => List.mem_append_right _ hd]
  omega

end Joins

/-- The records a whole insertion writes: the first one says already that the
    chunk is free, and a second one is for the chunk itself. -/
def Released (a : BdmAllocatorRealize) (c : Nat) (a' : BdmAllocatorRealize)
    (new : Seg) : Prop :=
  ∃ (first : Seg) (second : List (Nat × BdmChunkMeta)),
    (first = new ∨ first = a.seg c) ∧
    (first.start = c → first.length = a'.len c) ∧
    (second = [] ∨ second = [(c, metaOf 0 0 (a'.len c) true)]) ∧
    a'.writes = a.writes ++
      (first.start, metaOf 0 0 first.length true) :: second

theorem insert_spec (hA : Areas a) (hc : Fresh a c) :
    ∃ a' lower gone upper new, bdmAllocatorInsert a c = some a' ∧
      Joins a c a' lower gone upper new ∧ Released a c a' new := by
  obtain ⟨a', lower, gone, upper, new, hins, hj, hr⟩ := restoreInsert_spec hA hc
  have hself : a'.chunkList c = ⟨c, a'.len c⟩ := by
    by_cases hnew : c = new.start
    · have hcell := hj.cell_new.1.eq
      rw [← hnew] at hcell
      exact hcell
    · have hkeep := hj.chunkList_ne hnew
      rw [BdmAllocatorRealize.len, hkeep]
      exact hc.cell.eq
  have hinsert : bdmAllocatorInsert a c = some
      { a' with
        metaAddr := Function.update a'.metaAddr c
          (metaOf 0 0 (a'.len c) true)
        writes := a'.writes ++ [(c, metaOf 0 0 (a'.len c) true)] } := by
    rw [bdmAllocatorInsert, hins, Option.map_some, updateMeta_eq hself]
  refine ⟨_, lower, gone, upper, new, hinsert, ?_, ?_⟩
  · exact ⟨hj.old, hj.root, hj.balanced, hj.filed, hj.pos, hj.chunkList,
      hj.cover, hj.lower_le, hj.le_upper, hj.starts, hj.ends, hj.minChunkSize,
      hj.usedSize, hj.chunkNum⟩
  · rcases hr with ⟨hnew, -, hw⟩ | ⟨first, hfirst, hlen, -, hw⟩
    · have hstart : new.start = c := by rw [hnew, hc.cell.seg_eq]
      have hlen : a'.len c = new.length := hstart ▸ hj.cell_new.2
      refine ⟨new, [], Or.inl rfl, fun _ => hlen.symm, Or.inl rfl, ?_⟩
      show a'.writes ++ _ = _
      rw [hw, hstart, hlen]
    · refine ⟨first, _, hfirst.imp And.left id, hlen, Or.inr rfl, ?_⟩
      show a'.writes ++ _ = _
      rw [hw, List.append_assoc]
      rfl

/-! ## Removal -/

theorem findArea_spec (hA : Areas a) {length k : Nat}
    (h : findArea a length = some (k, c)) :
    c ∈ a.root.toList ∧ k = freeIndexOf (a.len c) ∧ length ≤ a.len c := by
  obtain ⟨k', -, hk'⟩ := List.exists_of_findSome?_eq_some h
  obtain ⟨c', hfind, heq⟩ := Option.map_eq_some_iff.mp hk'
  obtain ⟨rfl, rfl⟩ := Prod.mk.inj heq
  obtain ⟨hmem, hindex⟩ := ((hA.filed k').2.2 c').mp (List.mem_of_find?_eq_some hfind)
  exact ⟨hmem, hindex.symm, by simpa using List.find?_some hfind⟩

/-- Everything a removal can do: the first cells of the area at `c` become a
    chunk, and `rest` is the cell of what is left of the area, if anything. -/
structure Takes (a : BdmAllocatorRealize) (c : Nat) (a' : BdmAllocatorRealize)
    (lower upper rest : List Nat) (length bucketId bucketOffset : Nat) :
    Prop where
  old : a.root.toList = lower ++ c :: upper
  root : a'.root.toList = lower ++ (rest ++ upper)
  balanced : Balanced a'.root
  filed : Filed a' (· ∈ a'.root.toList)
  rest_cases : (rest = [] ∧ a.len c = length) ∨
    (rest = [c + length] ∧ length < a.len c)
  chunk : a'.chunkList c = ⟨c, length⟩
  remainder : ∀ d ∈ rest, a'.chunkList d = ⟨d, a.len c - length⟩
  frame : ∀ d, d ≠ c → d ∉ rest → a'.chunkList d = a.chunkList d
  writes : a'.writes = a.writes ++
    (rest.map fun d => (d, metaOf 0 0 (a.len c - length) true)) ++
    [(c, metaOf bucketId bucketOffset length false)]
  minChunkSize : a'.minChunkSize = a.minChunkSize
  usedSize : a'.usedSize = a.usedSize
  chunkNum : a'.chunkNum = a.chunkNum

theorem removeSameLen_spec (hA : Areas a) (hc : c ∈ a.root.toList)
    (bucketId bucketOffset : Nat) :
    ∃ a' lower upper, bdmAllocatorRemoveSameLen a c bucketId bucketOffset
        (freeIndexOf (a.len c)) = some (a', c) ∧
      Takes a c a' lower upper [] (a.len c) bucketId bucketOffset := by
  obtain ⟨lower, upper, hlist⟩ := List.append_of_mem hc
  have hcell := hA.cell c hc
  obtain ⟨t, ht, hbal, htree⟩ := rbtreeDelete_spec hA.balanced hlist hA.nodup
  have hself : (unlink a c (freeIndexOf (a.len c))).chunkList c =
      ⟨c, a.len c⟩ := hcell.eq
  have hrem : bdmAllocatorRemoveSameLen a c bucketId bucketOffset
      (freeIndexOf (a.len c)) = some
        ({ unlink a c (freeIndexOf (a.len c)) with
          root := t
          metaAddr := Function.update a.metaAddr c
            (metaOf bucketId bucketOffset (a.len c) false)
          writes := a.writes ++
            [(c, metaOf bucketId bucketOffset (a.len c) false)] }, c) := by
    rw [bdmAllocatorRemoveSameLen, updateMeta_eq hself]
    dsimp only
    rw [hself, show (unlink a c (freeIndexOf (a.len c))).root = a.root from rfl,
      ht]
    rfl
  refine ⟨_, lower, upper, hrem, ?_⟩
  refine { old := hlist, root := htree, balanced := hbal, filed := ?_,
           rest_cases := Or.inl ⟨rfl, rfl⟩, chunk := hself,
           remainder := fun _ hd => (List.not_mem_nil hd).elim,
           frame := fun _ _ _ => rfl,
           writes := by simp, minChunkSize := rfl, usedSize := rfl,
           chunkNum := rfl }
  refine ((hA.filed.unlink hc).of_eq rfl rfl rfl).congr ?_
  intro x
  show _ ↔ x ∈ t.toList
  rw [htree, hA.mem_ne_iff hlist]

/-- The rest of the area at `c` after `length` cells, listed and recorded as an
    area of its own. -/
def carved (a : BdmAllocatorRealize) (c length : Nat) : BdmAllocatorRealize :=
  let b := a.setCell (c + length)
    ⟨(a.chunkList c).index + length, a.len c - length⟩
  bdmAllocatorUpdateMeta (link b (c + length)) 0 0 (c + length) true

section Carved

variable {length : Nat}

theorem chunkList_carved (hc : Cell a c) :
    (carved a c length).chunkList = Function.update a.chunkList (c + length)
      ⟨c + length, a.len c - length⟩ := by
  show Function.update a.chunkList (c + length) _ = _
  rw [hc.index]

theorem len_carved (hc : Cell a c) (hpos : 0 < length) :
    (carved a c length).len c = a.len c ∧
      (carved a c length).len (c + length) = a.len c - length := by
  have hne : c ≠ c + length := by omega
  constructor
  · show ((carved a c length).chunkList c).length = _
    rw [chunkList_carved hc, Function.update_of_ne hne]
    rfl
  · show ((carved a c length).chunkList (c + length)).length = _
    rw [chunkList_carved hc, Function.update_self]

theorem writes_carved (hc : Cell a c) :
    (carved a c length).writes = a.writes ++
      [(c + length, metaOf 0 0 (a.len c - length) true)] := by
  rw [carved, updateMeta_eq (l := a.len c - length)]
  · rfl
  · exact (congrFun (chunkList_carved hc) _).trans (Function.update_self _ _ _)

theorem removeDiffLen_eq (hc : Cell a c) (hpos : 0 < length)
    (hlt : length < a.len c) (bucketId bucketOffset : Nat) :
    bdmAllocatorRemoveDiffLen a c bucketId bucketOffset length =
      (let b := (unlink (carved a c length) c
          (freeIndexOf (a.len c))).setLength c length
       { b with
        root := rbtreeReplace a.root (c + length) c
        metaAddr := Function.update b.metaAddr c
          (metaOf bucketId bucketOffset length false)
        writes := b.writes ++
          [(c, metaOf bucketId bucketOffset length false)] }, c) := by
  have hrest : a.len c - (a.len c - length) = length := by omega
  have hindex : ((carved a c length).chunkList c).index = c := by
    rw [chunkList_carved hc, Function.update_of_ne (by omega)]
    exact hc.index
  have hunfold : bdmAllocatorRemoveDiffLen a c bucketId bucketOffset length =
      (let b := carved a c length
       let b' := (unlink b c (freeIndexOf (b.len c))).setLength c
         (b.len c - b.len (c + length))
       let b' := bdmAllocatorUpdateMeta b' bucketId bucketOffset c false
       ({ b' with root := rbtreeReplace b'.root (c + length) c },
        (b'.chunkList c).index)) := rfl
  have hcell : ((unlink (carved a c length) c
      (freeIndexOf (a.len c))).setLength c length).chunkList c =
        ⟨c, length⟩ := by
    refine (congrFun (chunkList_setLength_self ?_ _) _).trans
      (Function.update_self _ _ _)
    exact hindex
  rw [hunfold]
  dsimp only
  rw [(len_carved hc hpos).1, (len_carved hc hpos).2, hrest,
    updateMeta_eq hcell, hcell]
  rfl

/-- No area starts inside another one. -/
theorem Areas.inside_not_mem (hA : Areas a) (hc : c ∈ a.root.toList)
    (hpos : 0 < length) (hlt : length < a.len c) :
    c + length ∉ a.root.toList := by
  obtain ⟨lower, upper, hlist⟩ := List.append_of_mem hc
  intro hmem
  rw [hlist] at hmem
  rcases List.mem_append.mp hmem with hmem | hmem
  · have := (hA.around hlist).1 _ hmem
    omega
  · rcases List.mem_cons.mp hmem with hmem | hmem
    · omega
    · have := (hA.around hlist).2 _ hmem
      omega

theorem removeDiffLen_spec (hA : Areas a) (hc : c ∈ a.root.toList)
    (hpos : 0 < length) (hlt : length < a.len c) (bucketId bucketOffset : Nat) :
    ∃ a' lower upper,
      bdmAllocatorRemoveDiffLen a c bucketId bucketOffset length = (a', c) ∧
      Takes a c a' lower upper [c + length] length bucketId bucketOffset := by
  obtain ⟨lower, upper, hlist⟩ := List.append_of_mem hc
  have hcell := hA.cell c hc
  have hroot := toList_rbtreeReplace (c + length) hlist hA.nodup
  have hne : c ≠ c + length := by omega
  have hout := hA.inside_not_mem hc hpos hlt
  rw [removeDiffLen_eq hcell hpos hlt]
  have hcells : ((unlink (carved a c length) c
      (freeIndexOf (a.len c))).setLength c length).chunkList =
        Function.update (Function.update a.chunkList (c + length)
          ⟨c + length, a.len c - length⟩) c ⟨c, length⟩ := by
    rw [chunkList_setLength, show (unlink (carved a c length) c
      (freeIndexOf (a.len c))).chunkList = (carved a c length).chunkList from
        rfl, chunkList_carved hcell, Function.update_of_ne hne, hcell.index]
  refine ⟨_, lower, upper, rfl, ?_⟩
  refine { old := hlist, root := hroot, balanced := balanced_map _ hA.balanced,
           filed := ?_, rest_cases := Or.inr ⟨rfl, hlt⟩, chunk := ?_,
           remainder := ?_, frame := ?_, writes := ?_, minChunkSize := rfl,
           usedSize := rfl, chunkNum := rfl }
  · have hcarved : Filed (carved a c length)
        fun x => x ∈ a.root.toList ∨ x = c + length :=
      ((hA.filed.setCell hout _).link hout).of_eq rfl rfl rfl
    have hunlink := hcarved.unlink (c := c) (Or.inl hc)
    rw [(len_carved hcell hpos).1] at hunlink
    have hfile := hunlink.setLength (c := c) (fun h => h.2 rfl) length
    refine (hfile.of_eq rfl rfl rfl).congr ?_
    intro x
    show _ ↔ x ∈ (rbtreeReplace a.root (c + length) c).toList
    rw [hroot]
    have hkeep := hA.mem_ne_iff hlist x
    simp only [List.mem_append, List.mem_cons] at hkeep ⊢
    constructor
    · rintro ⟨h | rfl, hx⟩
      · have := hkeep.mp ⟨h, hx⟩
        tauto
      · tauto
    · rintro (h | rfl | h)
      · have := hkeep.mpr (Or.inl h)
        tauto
      · exact ⟨Or.inr rfl, hne.symm⟩
      · have := hkeep.mpr (Or.inr h)
        tauto
  · exact (congrFun hcells c).trans (Function.update_self _ _ _)
  · intro d hd
    rw [List.mem_singleton] at hd
    subst hd
    refine (congrFun hcells _).trans ?_
    rw [Function.update_of_ne hne.symm, Function.update_self]
  · intro d hdc hd
    rw [List.mem_singleton] at hd
    refine (congrFun hcells d).trans ?_
    rw [Function.update_of_ne hdc, Function.update_of_ne hd]
  · exact congrArg (· ++ _) (writes_carved hcell)

end Carved

/-- **REMOVAL**: a search either finds nothing, or its area is taken. -/
theorem remove_spec (hA : Areas a) (bucketId bucketOffset chunkSize : Nat) :
    bdmAllocatorRemove a bucketId bucketOffset chunkSize = .refused ∨
    ∃ a' c lower upper rest,
      bdmAllocatorRemove a bucketId bucketOffset chunkSize = .done (a', c) ∧
      0 < chunkSize / a.minChunkSize ∧
      Takes a c a' lower upper rest (chunkSize / a.minChunkSize)
        bucketId bucketOffset := by
  rw [bdmAllocatorRemove]
  split
  · exact Or.inl rfl
  dsimp only
  split
  · exact Or.inl rfl
  rename_i hlength
  split
  · exact Or.inl rfl
  · rename_i k c hfind
    obtain ⟨hmem, rfl, hle⟩ := findArea_spec hA hfind
    right
    by_cases heq : a.len c = chunkSize / a.minChunkSize
    · obtain ⟨a', lower, upper, hrem, htakes⟩ :=
        removeSameLen_spec hA hmem bucketId bucketOffset
      rw [if_pos heq, hrem]
      rw [heq] at htakes
      exact ⟨a', c, lower, upper, [], rfl, Nat.pos_of_ne_zero hlength, htakes⟩
    · obtain ⟨a', lower, upper, hrem, htakes⟩ :=
        removeDiffLen_spec hA hmem (Nat.pos_of_ne_zero hlength)
          (by omega) bucketId bucketOffset
      rw [if_neg heq, hrem]
      exact ⟨a', c, lower, upper, _, rfl, Nat.pos_of_ne_zero hlength, htakes⟩

section Takes

variable {lower upper rest : List Nat} {length bucketId bucketOffset : Nat}

theorem Takes.mem (h : Takes a c a' lower upper rest length bucketId
    bucketOffset) : c ∈ a.root.toList := by
  rw [h.old]
  exact List.mem_append_right _ (List.mem_cons_self ..)

/-- The other areas are where they were. -/
theorem Takes.kept (h : Takes a c a' lower upper rest length bucketId
    bucketOffset) (hA : Areas a) (hpos : 0 < length) {d : Nat}
    (hd : d ∈ lower ++ upper) :
    d ∈ a.root.toList ∧ a'.chunkList d = a.chunkList d := by
  obtain ⟨hmem, hne⟩ := (hA.mem_ne_iff h.old d).mpr hd
  refine ⟨hmem, h.frame d hne ?_⟩
  intro hrest
  have hdpos := (hA.cell d hmem).pos
  rcases h.rest_cases with ⟨rfl, -⟩ | ⟨rfl, hlt⟩
  · exact List.not_mem_nil hrest
  · rw [List.mem_singleton] at hrest
    rcases List.mem_append.mp hd with hd | hd
    · have := (hA.around h.old).1 d hd
      omega
    · have := (hA.around h.old).2 d hd
      omega

theorem Takes.cell_rest (h : Takes a c a' lower upper rest length bucketId
    bucketOffset) {d : Nat} (hd : d ∈ rest) :
    Cell a' d ∧ d = c + length ∧ d + a'.len d = c + a.len c := by
  have hcell := h.remainder d hd
  rcases h.rest_cases with ⟨rfl, -⟩ | ⟨rfl, hlt⟩
  · exact absurd hd List.not_mem_nil
  · rw [List.mem_singleton] at hd
    have hlen : a'.len d = a.len c - length :=
      congrArg BdmChunkIndex.length hcell
    refine ⟨⟨congrArg BdmChunkIndex.index hcell, by omega⟩, hd, by omega⟩

theorem Takes.areas (h : Takes a c a' lower upper rest length bucketId
    bucketOffset) (hA : Areas a) (hpos : 0 < length) : Areas a' := by
  have hkept : ∀ d ∈ lower ++ upper, Cell a' d ∧ a'.len d = a.len d := by
    intro d hd
    obtain ⟨hmem, heq⟩ := h.kept hA hpos hd
    have hlen : a'.len d = a.len d := congrArg BdmChunkIndex.length heq
    refine ⟨⟨?_, hlen ▸ (hA.cell d hmem).pos⟩, hlen⟩
    rw [heq]
    exact (hA.cell d hmem).index
  refine ⟨h.balanced, ?_, ?_, h.filed⟩
  · intro d hd
    rw [h.root] at hd
    rcases List.mem_append.mp hd with hd | hd
    · exact (hkept d (List.mem_append_left _ hd)).1
    · rcases List.mem_append.mp hd with hd | hd
      · exact (h.cell_rest hd).1
      · exact (hkept d (List.mem_append_right _ hd)).1
  · have hs := hA.sorted
    rw [h.old] at hs
    obtain ⟨hlow, hcup, hcross⟩ := List.pairwise_append.mp hs
    obtain ⟨hcu, hup⟩ := List.pairwise_cons.mp hcup
    rw [h.root]
    refine List.pairwise_append.mpr ⟨?_, List.pairwise_append.mpr ⟨?_, ?_, ?_⟩,
      ?_⟩
    · refine hlow.imp_of_mem ?_
      intro x y hx _ hle
      rw [(hkept x (List.mem_append_left _ hx)).2]
      exact hle
    · rcases h.rest_cases with ⟨rfl, -⟩ | ⟨rfl, -⟩
      · exact List.Pairwise.nil
      · exact List.pairwise_singleton _ _
    · refine hup.imp_of_mem ?_
      intro x y hx _ hle
      rw [(hkept x (List.mem_append_right _ hx)).2]
      exact hle
    · intro x hx y hy
      rw [(h.cell_rest hx).2.2]
      exact hcu y hy
    · intro x hx y hy
      rw [(hkept x (List.mem_append_left _ hx)).2]
      rcases List.mem_append.mp hy with hy | hy
      · have := hcross x hx c (List.mem_cons_self ..)
        have := (h.cell_rest hy).2.1
        omega
      · exact hcross x hx y (List.mem_cons_of_mem _ hy)

/-- A removal uncovers exactly the chunk. -/
theorem Takes.coverNum_areas (h : Takes a c a' lower upper rest length
    bucketId bucketOffset) (hA : Areas a) (hpos : 0 < length) (u : Nat) :
    coverNum a.areas u = coverNum a'.areas u + coverNum [⟨c, length⟩] u := by
  have hmap : ∀ l : List Nat, (∀ d ∈ l, d ∈ lower ++ upper) →
      l.map a'.seg = l.map a.seg := by
    intro l hl
    refine List.map_congr_left ?_
    intro d hd
    exact seg_congr (h.kept hA hpos (hl d hd)).2
  have hcut : coverNum [a.seg c] u =
      coverNum [⟨c, length⟩] u + coverNum (rest.map a'.seg) u := by
    rw [(hA.cell c h.mem).seg_eq]
    rcases h.rest_cases with ⟨rfl, heq⟩ | ⟨rfl, hlt⟩
    · rw [heq]
      rfl
    · have hrest := h.cell_rest (List.mem_singleton.mpr rfl)
      rw [List.map_singleton, hrest.1.seg_eq, ← coverNum_cut]
      congr 3
      omega
  rw [BdmAllocatorRealize.areas, BdmAllocatorRealize.areas, h.root, h.old]
  simp only [List.map_append, List.map_cons, coverNum_append]
  rw [coverNum_cons, hcut,
    hmap lower fun d hd => List.mem_append_left _ hd,
    hmap upper fun d hd => List.mem_append_right _ hd]
  omega

end Takes

end UbsIo.Bdm
