import UbsIo.Buddy.Pool

/-! # The invariant of the buddy pool

    `Inv` says that the lists, `mOrders` and `mFreeStates` describe the same
    free chunks, that these and the blocks somebody holds are aligned and tile
    the pool, and that no two free chunks are buddies.  The code only ever
    makes four moves, each of which keeps it: a free chunk is taken
    (`Inv.detach`), a held block is put among the free chunks (`Inv.attach`),
    and the held blocks are cut in two or joined (`Inv.held_congr`).  The block
    a call is working on counts as held until it is put somewhere. -/

namespace UbsIo.Buddy

open UbsIo.Lib

/-- The chunk is marked free with its order. -/
def IsFree (p : BuddyNumaMemoryPool) (b : Block) : Prop :=
  p.mFreeStates b.unit = true ∧ p.mOrders b.unit = b.order

/-- The chunks that are marked free. -/
def freeChunks (p : BuddyNumaMemoryPool) : List Block :=
  ((List.range p.mUnitCount).filter p.mFreeStates).map fun u =>
    ⟨u, p.mOrders u⟩

variable {p p' : BuddyNumaMemoryPool} {u k e : Nat} {b : Block}

theorem mem_freeChunks : b ∈ freeChunks p ↔ b.unit < p.mUnitCount ∧ IsFree p b := by
  rw [freeChunks, List.mem_map]
  constructor
  · rintro ⟨v, hv, rfl⟩
    obtain ⟨hlt, hfree⟩ := List.mem_filter.mp hv
    exact ⟨List.mem_range.mp hlt, hfree, rfl⟩
  · rintro ⟨hlt, hfree, ho⟩
    refine ⟨b.unit, List.mem_filter.mpr ⟨List.mem_range.mpr hlt, hfree⟩, ?_⟩
    rw [ho]

theorem nodup_freeChunks (p : BuddyNumaMemoryPool) : (freeChunks p).Nodup := by
  refine (List.nodup_range.filter _).map ?_
  intro v w h
  exact congrArg Block.unit h

/-- `ls` are the nodes of the free lists, `held` the blocks somebody holds, and
    `e` how much of the pool is in use: all of it after `Start`. -/
structure Inv (e : Nat) (p : BuddyNumaMemoryPool) (held : List Block)
    (ls : Nat → List Nat) : Prop where
  extent : e ≤ p.mUnitCount
  linked : ∀ k, Linked p.node none (p.mFreeHeads k) (ls k)
  nodup : ∀ k, (ls k).Nodup
  mem : ∀ k u, u ∈ ls k ↔ IsFree p ⟨u, k⟩
  bound : ∀ u, p.mFreeStates u = true → u < p.mUnitCount
  aligned : ∀ b, IsFree p b ∨ b ∈ held → b.Aligned ∧ b.order ≤ p.mMaxOrder
  tiles : Tiles e ((freeChunks p ++ held).map Block.seg)
  lone : ∀ b, IsFree p b → ¬ IsFree p ⟨b.buddy, b.order⟩

variable {held held' : List Block} {ls : Nat → List Nat}

theorem Inv.mem_free (h : Inv e p held ls) (hb : IsFree p b) :
    b ∈ freeChunks p := mem_freeChunks.mpr ⟨h.bound _ hb.1, hb⟩

/-- No free chunk starts inside a held block. -/
theorem Inv.not_free (h : Inv e p held ls) (hb : b ∈ held) {x : Nat}
    (hx : b.seg.Has x) : p.mFreeStates x = false := by
  rw [← Bool.not_eq_true]
  intro hfree
  have hmem := h.mem_free (b := ⟨x, p.mOrders x⟩) ⟨hfree, rfl⟩
  have hap := h.tiles.apart
  rw [List.map_append] at hap
  obtain ⟨-, -, hcross⟩ := List.pairwise_append.mp hap
  exact hcross _ (List.mem_map_of_mem hmem) _ (List.mem_map_of_mem hb) x
    ⟨Block.has_unit ⟨x, p.mOrders x⟩, hx⟩

/-- Every chunk and block lies in the pool. -/
theorem Inv.le (h : Inv e p held ls) (hb : IsFree p b ∨ b ∈ held) :
    b.unit + 2 ^ b.order ≤ e := by
  refine h.tiles.le (s := b.seg) (List.mem_map_of_mem ?_) b.seg_pos
  rcases hb with hb | hb
  · exact List.mem_append_left _ (h.mem_free hb)
  · exact List.mem_append_right _ hb

/-- Only what the held blocks cover matters. -/
theorem Inv.held_congr (h : Inv e p held ls)
    (hal : ∀ b ∈ held', b.Aligned ∧ b.order ≤ p.mMaxOrder)
    (hcov : ∀ x, coverNum (held'.map Block.seg) x =
      coverNum (held.map Block.seg) x) : Inv e p held' ls := by
  refine { h with
    aligned := fun b hb => hb.elim (fun hf => h.aligned b (Or.inl hf)) (hal b)
    tiles := ?_ }
  rw [tiles_iff]
  intro x
  rw [← tiles_iff.mp h.tiles x, List.map_append, List.map_append,
    coverNum_append, coverNum_append, hcov x]

theorem Inv.perm (h : Inv e p held ls) (hp : held'.Perm held) :
    Inv e p held' ls := by
  refine h.held_congr ?_ ?_
  · intro b hb
    exact h.aligned b (Or.inr (hp.mem_iff.mp hb))
  · intro x
    exact coverNum_perm (hp.map _) x

/-- The free chunks with one more are the same in some order. -/
theorem freeChunks_perm {b : Block} (hn : p'.mUnitCount = p.mUnitCount)
    (hlt : b.unit < p.mUnitCount) (hout : ¬ IsFree p b)
    (hiff : ∀ c, IsFree p' c ↔ c = b ∨ IsFree p c) :
    (freeChunks p').Perm (b :: freeChunks p) := by
  refine (List.perm_ext_iff_of_nodup (nodup_freeChunks p') ?_).mpr ?_
  · refine List.nodup_cons.mpr ⟨?_, nodup_freeChunks p⟩
    intro hmem
    exact hout (mem_freeChunks.mp hmem).2
  · intro c
    rw [List.mem_cons, mem_freeChunks, mem_freeChunks, hiff c, hn]
    constructor
    · rintro ⟨hc, rfl | hf⟩
      · exact Or.inl rfl
      · exact Or.inr ⟨hc, hf⟩
    · rintro (rfl | ⟨hc, hf⟩)
      · exact ⟨hlt, Or.inl rfl⟩
      · exact ⟨hc, Or.inr hf⟩

/-! ## Taking a free chunk -/

/-- A free chunk is taken out of its list. -/
def detach (p : BuddyNumaMemoryPool) (u k : Nat) : BuddyNumaMemoryPool :=
  { p with
    mFreeHeads :=
      if p.node.prev u = none then
        Function.update p.mFreeHeads k (p.node.next u)
      else p.mFreeHeads
    node := p.node.remove u
    mFreeStates := Function.update p.mFreeStates u false }

theorem isFree_detach : IsFree (detach p u k) b ↔ IsFree p b ∧ b.unit ≠ u := by
  show Function.update p.mFreeStates u false b.unit = true ∧ _ ↔ _
  rw [Function.update_apply]
  split
  · rename_i h
    simp [h]
  · rename_i h
    simp [IsFree, detach, h]

theorem removeFreeChunkUnlocked_eq :
    (removeFreeChunkUnlocked p u k = none ∧ ¬ IsFree p ⟨u, k⟩) ∨
    (removeFreeChunkUnlocked p u k = some (detach p u k) ∧
      IsFree p ⟨u, k⟩) := by
  rw [removeFreeChunkUnlocked]
  by_cases h : p.mFreeStates u = false ∨ p.mOrders u ≠ k
  · left
    refine ⟨if_pos h, ?_⟩
    rintro ⟨hf, ho⟩
    rcases h with h | h
    · exact absurd (hf.symm.trans h) (by decide)
    · exact h ho
  · right
    rw [not_or, Bool.not_eq_false, not_not] at h
    exact ⟨if_neg (by simp [h.1, h.2]), h⟩

theorem Inv.popFreeChunkUnlocked_eq (h : Inv e p held ls) (k : Nat) :
    (popFreeChunkUnlocked p k = none ∧ p.mFreeHeads k = none) ∨
    ∃ u, popFreeChunkUnlocked p k = some (detach p u k, u) ∧
      IsFree p ⟨u, k⟩ := by
  rw [popFreeChunkUnlocked]
  have hl := h.linked k
  cases hlist : ls k with
  | nil =>
      rw [hlist] at hl
      have hnone : p.mFreeHeads k = none := hl
      exact Or.inl ⟨by rw [hnone]; rfl, hnone⟩
  | cons u l =>
      right
      have hmem : u ∈ ls k := by
        rw [hlist]
        exact List.mem_cons_self ..
      rw [hlist] at hl
      obtain ⟨hhead, hprev, -⟩ := hl
      refine ⟨u, ?_, (h.mem k u).mp hmem⟩
      rw [hhead, Option.map_some, detach, if_pos hprev, popFront_eq hprev]

/-- **TAKING** a free chunk: it is held then. -/
theorem Inv.detach (h : Inv e p held ls) (hf : IsFree p ⟨u, k⟩) :
    Inv e (detach p u k) (⟨u, k⟩ :: held)
      (Function.update ls k ((ls k).erase u)) := by
  have hu : u ∈ ls k := (h.mem k u).mpr hf
  have hle := h.le (Or.inl hf)
  refine ⟨h.extent, ?_, ?_, ?_, ?_, ?_, ?_, ?_⟩
  · intro j
    rw [Function.update_apply]
    split
    · rename_i hj
      subst hj
      have hrem := linked_remove (h.linked j) (h.nodup j) hu nofun
      have hhead : (Buddy.detach p u j).mFreeHeads j =
          if p.node.prev u = none then p.node.next u else p.mFreeHeads j := by
        show (if p.node.prev u = none then
          Function.update p.mFreeHeads j (p.node.next u)
            else p.mFreeHeads) j = _
        split
        · exact Function.update_self _ _ _
        · rfl
      rw [hhead]
      exact hrem
    · rename_i hj
      -- the lists of other orders have no node in common with this one
      have hhead : (Buddy.detach p u k).mFreeHeads j = p.mFreeHeads j := by
        show (if p.node.prev u = none then
          Function.update p.mFreeHeads k (p.node.next u)
            else p.mFreeHeads) j = _
        split
        · exact Function.update_of_ne hj _ _
        · rfl
      rw [hhead]
      refine linked_congr (h.linked j) ?_
      intro x hx
      refine remove_frame (h.linked k) hu ?_
      intro hxk
      exact hj (((h.mem j x).mp hx).2.symm.trans ((h.mem k x).mp hxk).2)
  · intro j
    rw [Function.update_apply]
    split
    · exact (h.nodup k).erase u
    · exact h.nodup j
  · intro j v
    rw [isFree_detach, Function.update_apply]
    split
    · rename_i hj
      rw [hj, (h.nodup k).mem_erase_iff, h.mem k v]
      exact And.comm
    · rename_i hj
      rw [h.mem j v]
      constructor
      · intro hv
        refine ⟨hv, ?_⟩
        rintro rfl
        exact hj (hv.2.symm.trans hf.2)
      · exact And.left
  · intro v hv
    exact h.bound v (isFree_detach.mp
      (show IsFree (Buddy.detach p u k) ⟨v, p.mOrders v⟩ from ⟨hv, rfl⟩)).1.1
  · intro b hb
    refine h.aligned b ?_
    rcases hb with hb | hb
    · exact Or.inl (isFree_detach.mp hb).1
    · rcases List.mem_cons.mp hb with rfl | hb
      · exact Or.inl hf
      · exact Or.inr hb
  · have hperm : (freeChunks p).Perm (⟨u, k⟩ :: freeChunks (Buddy.detach p u k)) := by
      refine freeChunks_perm rfl (h.bound u hf.1) ?_ ?_
      · intro hfree
        exact (isFree_detach.mp hfree).2 rfl
      · intro c
        rw [isFree_detach]
        constructor
        · intro hc
          by_cases hcu : c.unit = u
          · left
            refine Block.ext hcu ?_
            rw [← hc.2, hcu]
            exact hf.2
          · exact Or.inr ⟨hc, hcu⟩
        · rintro (rfl | hc)
          · exact hf
          · exact hc.1
    rw [tiles_iff]
    intro x
    have htile := tiles_iff.mp h.tiles x
    rw [List.map_append, coverNum_append, coverNum_perm (hperm.map _) x,
      List.map_cons, coverNum_cons] at htile
    rw [← htile, List.map_append, coverNum_append, List.map_cons,
      coverNum_cons (Block.seg ⟨u, k⟩) (held.map Block.seg)]
    omega
  · intro b hb hbud
    exact h.lone b (isFree_detach.mp hb).1 (isFree_detach.mp hbud).1

/-! ## Putting a block among the free chunks -/

theorem isFree_addFreeChunk :
    IsFree (addFreeChunkUnlocked p u k) b ↔
      b = ⟨u, k⟩ ∨ (IsFree p b ∧ b.unit ≠ u) := by
  show Function.update p.mFreeStates u true b.unit = true ∧
    Function.update p.mOrders u k b.unit = b.order ↔ _
  rw [Function.update_apply, Function.update_apply]
  by_cases hu : b.unit = u
  · rw [if_pos hu, if_pos hu]
    constructor
    · rintro ⟨-, ho⟩
      exact Or.inl (Block.ext hu ho.symm)
    · rintro (rfl | ⟨-, hne⟩)
      · exact ⟨rfl, rfl⟩
      · exact absurd hu hne
  · rw [if_neg hu, if_neg hu]
    constructor
    · intro h
      exact Or.inr ⟨h, hu⟩
    · rintro (rfl | ⟨h, -⟩)
      · exact absurd rfl hu
      · exact h

/-- **PUTTING** a held block among the free chunks: its buddy must not be
    there. -/
theorem Inv.attach (h : Inv e p (⟨u, k⟩ :: held) ls)
    (hbud : ¬ IsFree p ⟨(⟨u, k⟩ : Block).buddy, k⟩) :
    Inv e (addFreeChunkUnlocked p u k) held
      (Function.update ls k (u :: ls k)) := by
  have hmem : (⟨u, k⟩ : Block) ∈ (⟨u, k⟩ :: held : List Block) :=
    List.mem_cons_self ..
  have hnot := h.not_free hmem (Block.has_unit ⟨u, k⟩)
  have hout : ∀ c, IsFree p c → c.unit ≠ u := by
    rintro c hc rfl
    exact absurd (hc.1.symm.trans hnot) (by decide)
  have hu : ∀ j, u ∉ ls j := fun j hj => hout _ ((h.mem j u).mp hj) rfl
  have hle := h.le (Or.inr hmem)
  have hpos := Nat.two_pow_pos k
  have hext := h.extent
  refine ⟨h.extent, ?_, ?_, ?_, ?_, ?_, ?_, ?_⟩
  · intro j
    show Linked (p.node.pushFront (p.mFreeHeads k) u) none
      (Function.update p.mFreeHeads k (some u) j) _
    rw [Function.update_apply, Function.update_apply]
    by_cases hj : j = k
    · rw [if_pos hj, if_pos hj]
      exact linked_pushFront (h.linked k) (hu k) (h.nodup k)
    · rw [if_neg hj, if_neg hj]
      refine linked_congr (h.linked j) ?_
      intro x hx
      refine pushFront_frame (h.linked k) ?_ ?_
      · intro hxk
        exact hj (((h.mem j x).mp hx).2.symm.trans ((h.mem k x).mp hxk).2)
      · rintro rfl
        exact hu j hx
  · intro j
    rw [Function.update_apply]
    split
    · exact List.nodup_cons.mpr ⟨hu k, h.nodup k⟩
    · exact h.nodup j
  · intro j v
    rw [isFree_addFreeChunk, Function.update_apply]
    by_cases hj : j = k
    · subst hj
      rw [if_pos rfl, List.mem_cons, h.mem j v]
      constructor
      · rintro (rfl | hv)
        · exact Or.inl rfl
        · exact Or.inr ⟨hv, hout _ hv⟩
      · rintro (heq | ⟨hv, -⟩)
        · exact Or.inl (congrArg Block.unit heq)
        · exact Or.inr hv
    · rw [if_neg hj, h.mem j v]
      constructor
      · intro hv
        exact Or.inr ⟨hv, hout _ hv⟩
      · rintro (heq | ⟨hv, -⟩)
        · exact absurd (congrArg Block.order heq) hj
        · exact hv
  · intro v hv
    change Function.update p.mFreeStates u true v = true at hv
    rw [Function.update_apply] at hv
    split at hv
    · rename_i hvu
      show v < p.mUnitCount
      change u + 2 ^ k ≤ e at hle
      omega
    · exact h.bound v hv
  · intro b hb
    refine h.aligned b ?_
    rcases hb with hb | hb
    · rcases isFree_addFreeChunk.mp hb with rfl | ⟨hb, -⟩
      · exact Or.inr hmem
      · exact Or.inl hb
    · exact Or.inr (List.mem_cons_of_mem _ hb)
  · have hperm : (freeChunks (addFreeChunkUnlocked p u k)).Perm
        (⟨u, k⟩ :: freeChunks p) := by
      refine freeChunks_perm rfl ?_ ?_ ?_
      · show u < p.mUnitCount
        change u + 2 ^ k ≤ e at hle
        omega
      · intro hfree
        exact hout _ hfree rfl
      · intro c
        rw [isFree_addFreeChunk]
        constructor
        · rintro (rfl | ⟨hc, -⟩)
          · exact Or.inl rfl
          · exact Or.inr hc
        · rintro (rfl | hc)
          · exact Or.inl rfl
          · exact Or.inr ⟨hc, hout c hc⟩
    rw [tiles_iff]
    intro x
    have htile := tiles_iff.mp h.tiles x
    rw [List.map_append, coverNum_append, List.map_cons,
      coverNum_cons (Block.seg ⟨u, k⟩) (held.map Block.seg)] at htile
    rw [← htile, List.map_append, coverNum_append,
      coverNum_perm (hperm.map _) x, List.map_cons, coverNum_cons]
    omega
  · intro b hb hb'
    rcases isFree_addFreeChunk.mp hb with rfl | ⟨hb, -⟩
    · rcases isFree_addFreeChunk.mp hb' with heq | ⟨hb', -⟩
      · exact Block.buddy_ne ⟨u, k⟩ (congrArg Block.unit heq)
      · exact hbud hb'
    · rcases isFree_addFreeChunk.mp hb' with heq | ⟨hb', -⟩
      · have hbu : b = ⟨(⟨u, k⟩ : Block).buddy, k⟩ := by
          obtain ⟨hu', ho⟩ := Block.mk.inj heq
          refine Block.ext ?_ ho
          rw [← Block.buddy_buddy b, ← hu', ← ho]
        exact hbud (hbu ▸ hb)
      · exact h.lone b hb hb'

end UbsIo.Buddy
