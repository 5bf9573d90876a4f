import UbsIo.Bdm.Restore

/-! # Crashes between two records

    Every record is written with one durable write.  Between calls the chain
    of records also passes through the start and the end of every free area
    (`Durable`), so a call can join, split and take areas by writing one record
    on the chain: the first write of a free and the last write of an
    allocation.  The other write of a call is off the chain or says nothing
    new.  So the disk is recoverable at every crash, to the chunks held before
    the call or after it. -/

namespace UbsIo.Bdm

open UbsIo.Lib

/-- The disk after some writes. -/
def applyWrites (disk : Nat → BdmChunkMeta) (ws : List (Nat × BdmChunkMeta)) :
    Nat → BdmChunkMeta :=
  ws.foldl (fun d w => Function.update d w.1 w.2) disk

@[simp] theorem applyWrites_nil (disk : Nat → BdmChunkMeta) :
    applyWrites disk [] = disk := rfl

theorem applyWrites_cons (disk : Nat → BdmChunkMeta) (x : Nat)
    (m : BdmChunkMeta) (ws : List (Nat × BdmChunkMeta)) :
    applyWrites disk ((x, m) :: ws) =
      applyWrites (Function.update disk x m) ws := rfl

theorem applyWrites_append (disk : Nat → BdmChunkMeta)
    (ws vs : List (Nat × BdmChunkMeta)) :
    applyWrites disk (ws ++ vs) = applyWrites (applyWrites disk ws) vs :=
  List.foldl_append

/-- The position is on the chain, or is its end. -/
def OnChain (n : Nat) (ps : List Nat) (x : Nat) : Prop := x ∈ ps ∨ x = n

/-- What holds of the disk between calls. -/
structure Durable (n : Nat) (s : Sys) (disk : Nat → BdmChunkMeta)
    (ps : List Nat) : Prop where
  records : Records n s.live disk ps
  starts : ∀ c ∈ s.alloc.root.toList, c ∈ ps
  ends : ∀ c ∈ s.alloc.root.toList, OnChain n ps (c + s.alloc.len c)

variable {n : Nat} {s s' : Sys} {disk disk' : Nat → BdmChunkMeta}
  {ps : List Nat} {live : List Chunk}

/-- A record off the chain may hold anything. -/
theorem Records.update_off (h : Records n live disk ps) {x : Nat} (hx : x ∉ ps)
    (m : BdmChunkMeta) : Records n live (Function.update disk x m) ps := by
  have hkeep : ∀ y ∈ ps, Function.update disk x m y = disk y := by
    intro y hy
    refine Function.update_of_ne ?_ _ _
    rintro rfl
    exact hx hy
  have hchunk : ∀ y ∈ ps,
      chunkAt (Function.update disk x m) y = chunkAt disk y := by
    intro y hy
    rw [chunkAt, hkeep y hy]
    rfl
  refine ⟨chain_congr h.chain ?_, ?_, ?_, ?_⟩
  · intro y hy
    rw [hkeep y hy]
  · intro y hy
    rw [hkeep y hy]
    exact h.head y hy
  · intro y hy hf
    rw [hkeep y hy] at hf
    rw [hchunk y hy]
    exact h.taken y hy hf
  · intro k hk
    obtain ⟨hmem, hf, heq⟩ := h.held k hk
    rw [hkeep _ hmem, hchunk _ hmem]
    exact ⟨hmem, hf, heq⟩

/-- The records between two positions of the chain are replaced by others: the
    chunks outside stay, and those on the new part take the place of those in
    between. -/
theorem Records.splice (h : Records n live disk ps) {i e : Nat}
    {mid : List Nat} {live' : List Chunk} (hi : i ∈ ps) (he : OnChain n ps e)
    (hmid : Chain (fun x => (disk' x).length) i mid e)
    (hhead : ∀ x ∈ mid, (disk' x).head = true ∧ (disk' x).restore = true)
    (hkeep : ∀ x, x < i ∨ e ≤ x → disk' x = disk x)
    (hout : ∀ k, k.id < i ∨ e ≤ k.id → (k ∈ live' ↔ k ∈ live))
    (hin : ∀ k, i ≤ k.id → k.id < e →
      (k ∈ live' ↔ k.id ∈ mid ∧ (disk' k.id).free = false ∧
        chunkAt disk' k.id = k)) :
    Records n live' disk' (Lib.splice ps i mid e) := by
  have hmidb := chain_bounds hmid
  have hchunk : ∀ x, x < i ∨ e ≤ x → chunkAt disk' x = chunkAt disk x := by
    intro x hx
    rw [chunkAt, chunkAt, hkeep x hx]
  refine ⟨chain_splice h.chain hi he hmid ?_, ?_, ?_, ?_⟩
  · intro x _ hx
    rw [hkeep x hx]
  · intro x hx
    rcases mem_splice.mp hx with ⟨hmem, hx⟩ | hx
    · rw [hkeep x hx]
      exact h.head x hmem
    · exact hhead x hx
  · intro x hx hf
    rcases mem_splice.mp hx with ⟨hmem, hx⟩ | hx
    · rw [hkeep x hx] at hf
      rw [hchunk x hx]
      exact (hout _ hx).mpr (h.taken x hmem hf)
    · obtain ⟨hle, hend, hpos⟩ := hmidb x hx
      have hlt : x < e := by
        have : 0 < (disk' x).length := hpos
        omega
      exact (hin (chunkAt disk' x) hle hlt).mpr ⟨hx, hf, rfl⟩
  · intro k hk
    by_cases hrange : k.id < i ∨ e ≤ k.id
    · obtain ⟨hmem, hf, heq⟩ := h.held k ((hout k hrange).mp hk)
      rw [hkeep _ hrange, hchunk _ hrange]
      exact ⟨mem_splice.mpr (Or.inl ⟨hmem, hrange⟩), hf, heq⟩
    · rw [not_or, not_lt, not_le] at hrange
      obtain ⟨hmem, hf, heq⟩ := (hin k hrange.1 hrange.2).mp hk
      exact ⟨mem_splice.mpr (Or.inr hmem), hf, heq⟩

theorem onChain_splice {i e x : Nat} {mid : List Nat} (h : OnChain n ps x)
    (hx : x < i ∨ e ≤ x) : OnChain n (Lib.splice ps i mid e) x := by
  rcases h with h | h
  · exact Or.inl (mem_splice.mpr (Or.inl ⟨h, hx⟩))
  · exact Or.inr h

/-! ## Allocation -/

section Takes

variable {a : BdmAllocatorRealize} {c length bucketId bucketOffset : Nat}
  {lower upper rest : List Nat}

/-- The writes of a removal. -/
def takenWrites (a : BdmAllocatorRealize) (c : Nat) (rest : List Nat)
    (length bucketId bucketOffset : Nat) : List (Nat × BdmChunkMeta) :=
  (rest.map fun d => (d, metaOf 0 0 (a.len c - length) true)) ++
    [(c, metaOf bucketId bucketOffset length false)]

/-- What the writes of a removal leave on the disk. -/
theorem Takes.applyWrites_eq
    (ht : Takes s.alloc c a lower upper rest length bucketId bucketOffset)
    (x : Nat) :
    applyWrites disk
        (takenWrites s.alloc c rest length bucketId bucketOffset) x =
      if x = c then metaOf bucketId bucketOffset length false
      else if x ∈ rest then metaOf 0 0 (s.alloc.len c - length) true
      else disk x := by
  rw [takenWrites, applyWrites_append, applyWrites_cons, applyWrites_nil,
    Function.update_apply]
  by_cases hx : x = c
  · rw [if_pos hx, if_pos hx]
  rw [if_neg hx, if_neg hx]
  rcases ht.rest_cases with ⟨rfl, -⟩ | ⟨rfl, -⟩
  · simp
  · rw [List.map_singleton, applyWrites_cons, applyWrites_nil,
      Function.update_apply]
    simp

/-- A held chunk lies before or after an area. -/
theorem Sound.beside (h : Sound n s) {k : Chunk} (hk : k ∈ s.live)
    (hc : c ∈ s.alloc.root.toList) :
    k.id < c ∨ c + s.alloc.len c ≤ k.id := by
  have hfresh := h.fresh hk
  have := hfresh.apart c hc
  have := hfresh.cell.pos
  omega

theorem Sound.area_le (h : Sound n s) (hc : c ∈ s.alloc.root.toList) :
    c + s.alloc.len c ≤ n := by
  have hcell := h.areas.cell c hc
  have hle := h.tiles.le (s := s.alloc.seg c)
    (List.mem_append_left _ (List.mem_map_of_mem hc)) hcell.pos
  rw [hcell.seg_eq] at hle
  exact hle

/-- The chunk is on the chain once all writes of the removal are done. -/
theorem Takes.records (h : Sound n s) (hd : Durable n s disk ps)
    (ht : Takes s.alloc c a lower upper rest length bucketId bucketOffset)
    (hpos : 0 < length) (hbits : n < 2 ^ 21) :
    Records n (⟨c, length, bucketId, bucketOffset⟩ :: s.live)
      (applyWrites disk
        (takenWrites s.alloc c rest length bucketId bucketOffset))
      (splice ps c (c :: rest) (c + s.alloc.len c)) := by
  have hend := h.area_le ht.mem
  have hwrites : ∀ x, applyWrites disk
      (takenWrites s.alloc c rest length bucketId bucketOffset) x = _ :=
    ht.applyWrites_eq
  generalize applyWrites disk
    (takenWrites s.alloc c rest length bucketId bucketOffset) = disk' at hwrites ⊢
  have hcpos := (h.areas.cell c ht.mem).pos
  have hlen : length ≤ s.alloc.len c := by
    rcases ht.rest_cases with ⟨-, hl⟩ | ⟨-, hl⟩ <;> omega
  have hrestc : ∀ x ∈ rest, x = c + length ∧ length < s.alloc.len c := by
    intro x hx
    have hcell := ht.cell_rest hx
    have := hcell.1.pos
    exact ⟨hcell.2.1, by omega⟩
  have hself : disk' c = metaOf bucketId bucketOffset length false := by
    rw [hwrites, if_pos rfl]
  have hrest : ∀ x ∈ rest,
      disk' x = metaOf 0 0 (s.alloc.len c - length) true := by
    intro x hx
    have := hrestc x hx
    rw [hwrites, if_neg (by omega), if_pos hx]
  have hlc : (disk' c).length = length := by
    rw [hself]
    exact Nat.mod_eq_of_lt (by omega)
  have hchunk : chunkAt disk' c = ⟨c, length, bucketId, bucketOffset⟩ := by
    rw [chunkAt, hlc, hself]
    rfl
  refine hd.records.splice (hd.starts c ht.mem) (hd.ends c ht.mem) ?_ ?_ ?_ ?_ ?_
  · refine Chain.cons (hlc ▸ hpos) ?_
    rw [hlc]
    rcases ht.rest_cases with ⟨rfl, hl⟩ | ⟨rfl, hl⟩
    · rw [hl]
      exact Chain.nil _
    · have hlm : (disk' (c + length)).length = s.alloc.len c - length := by
        rw [hrest _ (List.mem_singleton.mpr rfl)]
        exact Nat.mod_eq_of_lt (by omega)
      refine Chain.cons (by rw [hlm]; omega) ?_
      rw [hlm, show c + length + (s.alloc.len c - length) =
        c + s.alloc.len c from by omega]
      exact Chain.nil _
  · intro x hx
    rcases List.mem_cons.mp hx with rfl | hx
    · rw [hself]
      exact ⟨rfl, rfl⟩
    · rw [hrest x hx]
      exact ⟨rfl, rfl⟩
  · intro x hx
    rw [hwrites, if_neg (by omega), if_neg]
    intro hmem
    have := hrestc x hmem
    omega
  · intro k hk
    rw [List.mem_cons, or_iff_right]
    rintro rfl
    change c < c ∨ c + s.alloc.len c ≤ c at hk
    omega
  · intro k hle hlt
    constructor
    · intro hk
      rcases List.mem_cons.mp hk with rfl | hk
      · exact ⟨List.mem_cons_self .., by rw [hself]; rfl, hchunk⟩
      · have := h.beside hk ht.mem
        omega
    · rintro ⟨hmem, hf, heq⟩
      rcases List.mem_cons.mp hmem with hid | hmem
      · rw [← heq, hid, hchunk]
        exact List.mem_cons_self ..
      · rw [hrest _ hmem] at hf
        cases hf

/-- The chunks are the same after the first of two writes of a removal. -/
theorem Takes.records_first (h : Sound n s) (hd : Durable n s disk ps)
    (ht : Takes s.alloc c a lower upper rest length bucketId bucketOffset)
    (hbits : n < 2 ^ 21) {d : Nat} (hmem : d ∈ rest) :
    Recoverable n s.live
      (Function.update disk d (metaOf 0 0 (s.alloc.len c - length) true)) := by
  have hend := h.area_le ht.mem
  have hcell := ht.cell_rest hmem
  have hdpos := hcell.1.pos
  have hlen : s.alloc.len c - length = c + s.alloc.len c - d := by omega
  by_cases hon : d ∈ ps
  · -- the rest of the area is on the chain already, and is joined
    refine ⟨splice ps d [d] (c + s.alloc.len c),
      hd.records.splice hon (hd.ends c ht.mem)
      ?_ ?_ ?_ (fun _ _ => Iff.rfl) ?_⟩
    · have hl : (Function.update disk d (metaOf 0 0 (s.alloc.len c - length)
          true) d).length = c + s.alloc.len c - d := by
        rw [Function.update_self, hlen]
        exact Nat.mod_eq_of_lt (by omega)
      refine Chain.cons (by rw [hl]; omega) ?_
      rw [hl, show d + (c + s.alloc.len c - d) = c + s.alloc.len c from by omega]
      exact Chain.nil _
    · intro x hx
      rw [List.mem_singleton.mp hx, Function.update_self]
      exact ⟨rfl, rfl⟩
    · intro x hx
      exact Function.update_of_ne (by omega) _ _
    · intro k hle hlt
      constructor
      · intro hk
        have := h.beside hk ht.mem
        omega
      · rintro ⟨hid, hf, -⟩
        rw [List.mem_singleton.mp hid, Function.update_self] at hf
        exact nomatch hf
  · exact ⟨ps, hd.records.update_off hon _⟩

/-- After a removal the chain passes through the areas that are left. -/
theorem Takes.durable (h : Sound n s) (hd : Durable n s disk ps)
    (ht : Takes s.alloc c a lower upper rest length bucketId bucketOffset)
    (hpos : 0 < length) (hbits : n < 2 ^ 21) {used : Nat} :
    ∃ qs, Durable n
      ⟨{ a with usedSize := used },
        ⟨c, length, bucketId, bucketOffset⟩ :: s.live⟩
      (applyWrites disk
        (takenWrites s.alloc c rest length bucketId bucketOffset)) qs := by
  have hlow : ∀ d ∈ lower, d ∈ s.alloc.root.toList ∧ d < c ∧
      d + s.alloc.len d ≤ c := by
    intro d hmem
    have hd' := (ht.kept h.areas hpos (List.mem_append_left _ hmem)).1
    have hle := (h.areas.around ht.old).1 d hmem
    have hdpos := (h.areas.cell d hd').pos
    exact ⟨hd', by omega, hle⟩
  have hup : ∀ d ∈ upper, d ∈ s.alloc.root.toList ∧
      c + s.alloc.len c ≤ d := fun d hmem =>
    ⟨(ht.kept h.areas hpos (List.mem_append_right _ hmem)).1,
      (h.areas.around ht.old).2 d hmem⟩
  have hlen : ∀ d ∈ lower ++ upper, a.len d = s.alloc.len d := fun d hmem =>
    congrArg BdmChunkIndex.length (ht.kept h.areas hpos hmem).2
  refine ⟨_, ht.records h hd hpos hbits, ?_, ?_⟩
  · intro d hmem
    change d ∈ a.root.toList at hmem
    rw [ht.root] at hmem
    rcases List.mem_append.mp hmem with hmem | hmem
    · obtain ⟨hd', hlt, -⟩ := hlow d hmem
      exact mem_splice.mpr (Or.inl ⟨hd.starts d hd', Or.inl hlt⟩)
    · rcases List.mem_append.mp hmem with hmem | hmem
      · exact mem_splice.mpr (Or.inr (List.mem_cons_of_mem _ hmem))
      · obtain ⟨hd', hle⟩ := hup d hmem
        exact mem_splice.mpr (Or.inl ⟨hd.starts d hd', Or.inr hle⟩)
  · intro d hmem
    change d ∈ a.root.toList at hmem
    show OnChain n _ (d + a.len d)
    rw [ht.root] at hmem
    rcases List.mem_append.mp hmem with hmem | hmem
    · obtain ⟨hd', -, hle⟩ := hlow d hmem
      rw [hlen d (List.mem_append_left _ hmem)]
      rcases Nat.lt_or_eq_of_le hle with hlt | heq
      · exact onChain_splice (hd.ends d hd') (Or.inl hlt)
      · exact Or.inl (mem_splice.mpr (Or.inr (heq ▸ List.mem_cons_self ..)))
    · rcases List.mem_append.mp hmem with hmem | hmem
      · rw [(ht.cell_rest hmem).2.2]
        exact onChain_splice (hd.ends c ht.mem) (Or.inr (le_refl _))
      · obtain ⟨hd', hle⟩ := hup d hmem
        rw [hlen d (List.mem_append_right _ hmem)]
        exact onChain_splice (hd.ends d hd') (Or.inr (by omega))

end Takes

/-! ## Free -/

section Joins

variable {a : BdmAllocatorRealize} {k : Chunk} {lower gone upper : List Nat}
  {new first : Seg}

/-- The chunk lies in the new area. -/
theorem Joins.has {c : Nat} (hj : Joins s.alloc c a lower gone upper new)
    (hc : Cell s.alloc c) :
    new.start ≤ c ∧ c + s.alloc.len c ≤ new.start + new.length := by
  have hpos := hc.pos
  have hin : ∀ u, c ≤ u → u < c + s.alloc.len c → new.Has u := by
    intro u hle hlt
    have hcover := hj.cover u
    rw [hc.seg_eq, coverNum_singleton ⟨c, s.alloc.len c⟩,
      if_pos (show Seg.Has _ u from ⟨hle, hlt⟩), coverNum_singleton] at hcover
    by_contra hno
    rw [if_neg hno] at hcover
    omega
  have h₁ := hin c (le_refl _) (by omega)
  have h₂ := hin (c + s.alloc.len c - 1) (by omega) (by omega)
  simp only [Seg.Has] at h₁ h₂
  omega

/-- No other held chunk starts in the new area. -/
theorem Sound.outside (h : Sound n s) (hk : k ∈ s.live)
    (hj : Joins s.alloc k.id a lower gone upper new) {j : Chunk}
    (hjl : j ∈ s.live) (hne : j.id ≠ k.id) :
    j.id < new.start ∨ new.start + new.length ≤ j.id := by
  have hgone : coverNum (gone.map s.alloc.seg) j.id = 0 := by
    refine coverNum_eq_zero.mpr ?_
    intro t ht hhas
    obtain ⟨d, hd, rfl⟩ := List.mem_map.mp ht
    have hmem : d ∈ s.alloc.root.toList := by
      rw [hj.old]
      exact List.mem_append_right _ (List.mem_append_left _ hd)
    rw [(h.areas.cell d hmem).seg_eq] at hhas
    have := h.beside hjl hmem
    simp only [Seg.Has] at hhas
    omega
  have hself : coverNum [s.alloc.seg k.id] j.id = 0 := by
    have hapart := h.apart_live hjl hk hne
    have hpos := h.pos j hjl
    rw [h.seg_eq hk, coverNum_singleton, if_neg]
    simp only [Seg.Has, Chunk.seg]
    omega
  have hcover := hj.cover j.id
  rw [hgone, hself, coverNum_singleton] at hcover
  by_contra hno
  rw [if_pos] at hcover
  · omega
  · rw [Seg.Has]
    omega

/-- Where the first record of an insertion stands. -/
structure Placed (s : Sys) (k : Chunk) (new first : Seg) : Prop where
  ge : new.start ≤ first.start
  le_chunk : first.start ≤ k.id
  chunk_le : k.id + k.length ≤ first.start + first.length
  le : first.start + first.length ≤ new.start + new.length

theorem Sound.placed (h : Sound n s) (hk : k ∈ s.live)
    (hj : Joins s.alloc k.id a lower gone upper new)
    (hf : first = new ∨ first = s.alloc.seg k.id) : Placed s k new first := by
  have hlen : s.alloc.len k.id = k.length :=
    congrArg BdmChunkIndex.length (h.held k hk)
  have hhas := hj.has (h.fresh hk).cell
  rw [hlen] at hhas
  rcases hf with rfl | rfl
  · exact ⟨le_refl _, hhas.1, hhas.2, le_refl _⟩
  · rw [h.seg_eq hk]
    exact ⟨hhas.1, le_refl _, le_refl _, hhas.2⟩

/-- The new area lies on the disk. -/
theorem Sound.joins_le (h : Sound n s) (hk : k ∈ s.live)
    (hj : Joins s.alloc k.id a lower gone upper new) :
    new.start + new.length ≤ n := by
  have hpos := hj.pos
  have hcover := hj.cover (new.start + new.length - 1)
  rw [coverNum_singleton new, if_pos (Seg.has_last hpos)] at hcover
  have hin : ∃ t ∈ s.segs, t.Has (new.start + new.length - 1) := by
    rcases Nat.eq_zero_or_pos (coverNum (gone.map s.alloc.seg)
      (new.start + new.length - 1)) with hz | hg
    · rw [hz, Nat.zero_add] at hcover
      obtain ⟨t, ht, hhas⟩ := coverNum_pos.mp (hcover ▸ Nat.one_pos)
      rw [List.mem_singleton.mp ht, h.seg_eq hk] at hhas
      exact ⟨k.seg, List.mem_append_right _ (List.mem_map_of_mem hk), hhas⟩
    · obtain ⟨t, ht, hhas⟩ := coverNum_pos.mp hg
      obtain ⟨d, hd, rfl⟩ := List.mem_map.mp ht
      refine ⟨_, List.mem_append_left _ (List.mem_map_of_mem ?_), hhas⟩
      rw [hj.old]
      exact List.mem_append_right _ (List.mem_append_left _ hd)
  have := (h.tiles.exact _).mpr hin
  omega

/-- The chain passes through both ends of what an insertion touches. -/
theorem Durable.on_chain (hd : Durable n s disk ps) (hk : k ∈ s.live)
    (hlen : s.alloc.len k.id = k.length)
    (hj : Joins s.alloc k.id a lower gone upper new) :
    new.start ∈ ps ∧ OnChain n ps (new.start + new.length) ∧
      k.id ∈ ps ∧ OnChain n ps (k.id + k.length) := by
  obtain ⟨hmem, -, heq⟩ := hd.records.held k hk
  have hsucc := chain_succ hd.records.chain k.id hmem
  rw [show (disk k.id).length = k.length from congrArg Chunk.length heq] at hsucc
  have hgone : ∀ d ∈ gone, d ∈ s.alloc.root.toList := by
    intro d hdg
    rw [hj.old]
    exact List.mem_append_right _ (List.mem_append_left _ hdg)
  refine ⟨?_, ?_, hmem, hsucc⟩
  · rcases hj.starts with hs | hs
    · rw [hs]
      exact hmem
    · exact hd.starts _ (hgone _ hs)
  · rcases hj.ends with he | ⟨d, hdg, he⟩
    · rw [he, hlen]
      exact hsucc
    · rw [he]
      exact hd.ends d (hgone d hdg)

/-- The first record of an insertion frees the chunk. -/
theorem Joins.records (h : Sound n s) (hd : Durable n s disk ps)
    (hk : k ∈ s.live) (hj : Joins s.alloc k.id a lower gone upper new)
    (hf : first = new ∨ first = s.alloc.seg k.id) (hbits : n < 2 ^ 21) :
    Records n (s.live.filter (·.id != k.id))
      (Function.update disk first.start (metaOf 0 0 first.length true))
      (splice ps first.start [first.start] (first.start + first.length)) := by
  have hplace := h.placed hk hj hf
  have hge := hplace.ge
  have hlec := hplace.le_chunk
  have hcle := hplace.chunk_le
  have hle := hplace.le
  have hkpos := h.pos k hk
  have hend := h.joins_le hk hj
  have hlen : s.alloc.len k.id = k.length :=
    congrArg BdmChunkIndex.length (h.held k hk)
  obtain ⟨hs, he, hks, hke⟩ := hd.on_chain hk hlen hj
  have hi : first.start ∈ ps ∧ OnChain n ps (first.start + first.length) := by
    rcases hf with rfl | rfl
    · exact ⟨hs, he⟩
    · rw [h.seg_eq hk]
      exact ⟨hks, hke⟩
  have hl : (Function.update disk first.start
      (metaOf 0 0 first.length true) first.start).length = first.length := by
    rw [Function.update_self]
    exact Nat.mod_eq_of_lt (by omega)
  refine hd.records.splice hi.1 hi.2 ?_ ?_ ?_ ?_ ?_
  · refine Chain.cons (by rw [hl]; omega) ?_
    rw [hl]
    exact Chain.nil _
  · intro x hx
    rw [List.mem_singleton.mp hx, Function.update_self]
    exact ⟨rfl, rfl⟩
  · intro x hx
    exact Function.update_of_ne (by omega) _ _
  · intro j hjr
    rw [mem_live_filter]
    exact and_iff_left (by omega)
  · intro j hle hlt
    constructor
    · intro hjl
      obtain ⟨hjl, hne⟩ := mem_live_filter.mp hjl
      have := h.outside hk hj hjl hne
      omega
    · rintro ⟨hid, hfree, -⟩
      rw [List.mem_singleton.mp hid, Function.update_self] at hfree
      exact nomatch hfree

/-- The second record of an insertion says nothing new. -/
theorem Joins.records_all (h : Sound n s) (hd : Durable n s disk ps)
    (hk : k ∈ s.live) (hj : Joins s.alloc k.id a lower gone upper new)
    (hf : first = new ∨ first = s.alloc.seg k.id) (hbits : n < 2 ^ 21)
    (hlen : first.start = k.id → first.length = a.len k.id)
    {second : List (Nat × BdmChunkMeta)}
    (hsec : second = [] ∨ second = [(k.id, metaOf 0 0 (a.len k.id) true)]) :
    Records n (s.live.filter (·.id != k.id))
      (applyWrites disk ((first.start, metaOf 0 0 first.length true) :: second))
      (splice ps first.start [first.start] (first.start + first.length)) := by
  have hfirst := hj.records h hd hk hf hbits
  rcases hsec with rfl | rfl
  · exact hfirst
  rw [applyWrites_cons, applyWrites_cons, applyWrites_nil]
  by_cases hid : first.start = k.id
  · have hsame : Function.update (Function.update disk first.start
        (metaOf 0 0 first.length true)) k.id (metaOf 0 0 first.length true) =
          Function.update disk first.start (metaOf 0 0 first.length true) := by
      rw [← hid, Function.update_idem]
    rw [← hlen hid, hsame]
    exact hfirst
  · refine hfirst.update_off ?_ _
    have hplace := h.placed hk hj hf
    have hge := hplace.le_chunk
    have hle := hplace.chunk_le
    have hpos := h.pos k hk
    intro hmem
    rcases mem_splice.mp hmem with ⟨-, hr⟩ | hr
    · omega
    · exact hid (List.mem_singleton.mp hr).symm

/-- After an insertion the chain passes through the areas. -/
theorem Joins.durable (h : Sound n s) (hd : Durable n s disk ps)
    (hk : k ∈ s.live) (hj : Joins s.alloc k.id a lower gone upper new)
    (hf : first = new ∨ first = s.alloc.seg k.id) {used : Nat}
    (hrec : Records n (s.live.filter (·.id != k.id)) disk'
      (splice ps first.start [first.start] (first.start + first.length))) :
    ∃ qs, Durable n
      ⟨{ a with usedSize := used }, s.live.filter (·.id != k.id)⟩ disk' qs := by
  have hplace := h.placed hk hj hf
  have hge := hplace.ge
  have hle := hplace.le
  have hlec := hplace.le_chunk
  have hlen : s.alloc.len k.id = k.length :=
    congrArg BdmChunkIndex.length (h.held k hk)
  obtain ⟨hs, he, hks, hke⟩ := hd.on_chain hk hlen hj
  have hon : ∀ x, OnChain n ps x → x ≤ new.start ∨
      new.start + new.length ≤ x → OnChain n (splice ps first.start
        [first.start] (first.start + first.length)) x := by
    intro x hx hside
    by_cases hx' : x = first.start
    · exact Or.inl (mem_splice.mpr (Or.inr (List.mem_singleton.mpr hx')))
    · exact onChain_splice hx (by omega)
  have hend := h.joins_le hk hj
  have hmem : ∀ x ∈ ps, x ≤ new.start ∨ new.start + new.length ≤ x →
      x ∈ splice ps first.start [first.start]
        (first.start + first.length) := by
    intro x hx hside
    refine (hon x (Or.inl hx) hside).resolve_right ?_
    have := chain_bounds hd.records.chain x hx
    omega
  refine ⟨_, hrec, ?_, ?_⟩
  · intro d hdt
    change d ∈ a.root.toList at hdt
    rw [hj.root] at hdt
    rcases List.mem_append.mp hdt with hdl | hdt
    · have hlow := hj.lower_le d hdl
      refine hmem d (hd.starts d ?_) (Or.inl (by omega))
      exact (hj.kept h.areas (List.mem_append_left _ hdl)).1
    · rcases List.mem_cons.mp hdt with rfl | hdu
      · exact hmem _ hs (Or.inl (le_refl _))
      · refine hmem d (hd.starts d ?_) (Or.inr (hj.le_upper d hdu))
        exact (hj.kept h.areas (List.mem_append_right _ hdu)).1
  · intro d hdt
    change d ∈ a.root.toList at hdt
    show OnChain n _ (d + a.len d)
    rw [hj.root] at hdt
    rcases List.mem_append.mp hdt with hdl | hdt
    · rw [hj.len_kept h.areas (List.mem_append_left _ hdl)]
      refine hon _ (hd.ends d ?_) (Or.inl (hj.lower_le d hdl))
      exact (hj.kept h.areas (List.mem_append_left _ hdl)).1
    · rcases List.mem_cons.mp hdt with rfl | hdu
      · rw [hj.cell_new.2]
        exact hon _ he (Or.inr (le_refl _))
      · rw [hj.len_kept h.areas (List.mem_append_right _ hdu)]
        have hup := hj.le_upper d hdu
        refine hon _ (hd.ends d ?_) (Or.inr (by omega))
        exact (hj.kept h.areas (List.mem_append_right _ hdu)).1

end Joins

/-! ## Calls and runs -/

/-- **CRASH STEP**: a crash during a call leaves the chunks from before the
    call or from after it, and the call leaves a durable disk. -/
theorem effect_crash (h : Sound n s) (hd : Durable n s disk ps)
    (hbits : n < 2 ^ 21) {op : Op} (heff : Effect s op s') :
    ∃ ws, s'.alloc.writes = s.alloc.writes ++ ws ∧
      (∀ vs, vs <+: ws → Recoverable n s.live (applyWrites disk vs) ∨
        Recoverable n s'.live (applyWrites disk vs)) ∧
      ∃ qs, Durable n s' (applyWrites disk ws) qs := by
  cases heff with
  | refused =>
      refine ⟨[], by simp, ?_, ps, hd⟩
      intro vs hvs
      rw [List.prefix_nil.mp hvs]
      exact Or.inl ⟨ps, hd.records⟩
  | @alloc bucketId bucketOffset chunkSize c a lower upper rest _ hpos ht =>
      refine ⟨takenWrites s.alloc c rest (chunkSize / s.alloc.minChunkSize)
        bucketId bucketOffset, ?_, ?_, ht.durable h hd hpos hbits⟩
      · show a.writes = _
        rw [ht.writes, takenWrites, List.append_assoc]
      · intro vs hvs
        have hall := ht.records h hd hpos hbits
        have hnone : Recoverable n s.live disk := ⟨ps, hd.records⟩
        rcases ht.rest_cases with ⟨rfl, -⟩ | ⟨rfl, -⟩
        · rcases List.prefix_cons_iff.mp hvs with rfl | ⟨us, rfl, hus⟩
          · exact Or.inl hnone
          · rw [List.prefix_nil.mp hus]
            exact Or.inr ⟨_, hall⟩
        · rcases List.prefix_cons_iff.mp hvs with rfl | ⟨us, rfl, hus⟩
          · exact Or.inl hnone
          rcases List.prefix_cons_iff.mp hus with rfl | ⟨ts, rfl, hts⟩
          · exact Or.inl (ht.records_first h hd hbits
              (List.mem_singleton.mpr rfl))
          · rw [List.prefix_nil.mp hts]
            exact Or.inr ⟨_, hall⟩
  | @free chunkSize k a lower gone upper new hk _ hj hr =>
      obtain ⟨first, second, hf, hlen, hsec, hw⟩ := hr
      have hall : ∀ {vs}, (vs = [] ∨
          vs = [(k.id, metaOf 0 0 (a.len k.id) true)]) → _ :=
        hj.records_all h hd hk hf hbits hlen
      refine ⟨_, hw, ?_, hj.durable h hd hk hf (hall hsec)⟩
      intro vs hvs
      rcases List.prefix_cons_iff.mp hvs with rfl | ⟨us, rfl, hus⟩
      · exact Or.inl ⟨ps, hd.records⟩
      · refine Or.inr ⟨_, hall ?_⟩
        rcases hsec with rfl | rfl
        · exact Or.inl (List.prefix_nil.mp hus)
        · rcases List.prefix_cons_iff.mp hus with rfl | ⟨ts, rfl, hts⟩
          · exact Or.inl rfl
          · rw [List.prefix_nil.mp hts]
            exact Or.inr rfl

/-- A new allocator has written the record of the whole disk. -/
theorem durable_create {minChunkSize totalSize : Nat}
    {cells : Nat → BdmChunkIndex} {records : Nat → BdmChunkMeta}
    {a : BdmAllocatorRealize} (hnum : 1 ≤ totalSize / minChunkSize)
    (hbits : totalSize / minChunkSize < 2 ^ 21)
    (hj : Joins (wholeDisk minChunkSize totalSize cells records) 0 a [] [] []
      ⟨0, totalSize / minChunkSize⟩)
    (hr : Released (wholeDisk minChunkSize totalSize cells records) 0 a
      ⟨0, totalSize / minChunkSize⟩) (disk : Nat → BdmChunkMeta) :
    Durable (totalSize / minChunkSize) ⟨a, []⟩ (applyWrites disk a.writes)
      [0] := by
  obtain ⟨hfresh, hlen⟩ := fresh_wholeDisk hnum cells records
  have hdisk : applyWrites disk a.writes = Function.update disk 0
      (metaOf 0 0 (totalSize / minChunkSize) true) := by
    obtain ⟨first, second, hf, hsame, hsec, hw⟩ := hr
    have hfirst : first = ⟨0, totalSize / minChunkSize⟩ := by
      rcases hf with rfl | rfl
      · rfl
      · rw [hfresh.cell.seg_eq, hlen]
    subst hfirst
    rw [hw, show (wholeDisk minChunkSize totalSize cells records).writes = []
      from rfl, List.nil_append, applyWrites_cons]
    rcases hsec with rfl | rfl
    · rfl
    · rw [← hsame rfl, applyWrites_cons, applyWrites_nil, Function.update_idem]
  rw [hdisk]
  generalize totalSize / minChunkSize = n at *
  have hl : (Function.update disk 0 (metaOf 0 0 n true) 0).length = n := by
    rw [Function.update_self]
    exact Nat.mod_eq_of_lt hbits
  refine ⟨⟨?_, ?_, ?_, ?_⟩, ?_, ?_⟩
  · refine Chain.cons (by rw [hl]; exact hnum) ?_
    rw [hl, Nat.zero_add]
    exact Chain.nil n
  · intro x hx
    rw [List.mem_singleton.mp hx, Function.update_self]
    exact ⟨rfl, rfl⟩
  · intro x hx hfree
    rw [List.mem_singleton.mp hx, Function.update_self] at hfree
    exact nomatch hfree
  · intro k hk
    exact absurd hk List.not_mem_nil
  · intro c hc
    rw [show a.root.toList = [0] from hj.root] at hc
    exact hc
  · intro c hc
    rw [show a.root.toList = [0] from hj.root] at hc
    rw [List.mem_singleton.mp hc, Nat.zero_add]
    exact Or.inr hj.cell_new.2

/-- **CRASH CONSISTENCY**: whatever calls have been made, and wherever between
    two durable writes of the next call the machine stops, restoration from
    the durable records succeeds.  It has exactly the chunks held before that
    call, or exactly those held after it, with their lengths and buckets; the
    used size is theirs, and the free areas, listed by length, are the rest of
    the disk. -/
theorem restore_after_crash (minChunkSize totalSize : Nat)
    (hnum : 1 ≤ totalSize / minChunkSize)
    (hbits : totalSize / minChunkSize < 2 ^ 21)
    (cells : Nat → BdmChunkIndex) (records disk : Nat → BdmChunkMeta) :
    ∃ a, bdmAllocatorCreate minChunkSize totalSize cells records = some a ∧
      ∀ (ops : List Op) (s : Sys) (op : Op) (s' : Sys)
        (ws : List (Nat × BdmChunkMeta)) (cells' : Nat → BdmChunkIndex),
        runFrom step ⟨a, []⟩ ops = some s → step s op = some s' →
        s.alloc.writes <+: ws → ws <+: s'.alloc.writes →
        ∃ r live, bdmAllocatorRestore minChunkSize totalSize cells'
            (applyWrites disk ws) = some r ∧
          (live.Perm s.live ∨ live.Perm s'.live) ∧
          liveChunks r = some live ∧
          (∀ k ∈ live, r.chunkList k.id = ⟨k.id, k.length⟩) ∧
          r.usedSize = minChunkSize * (live.map (·.length)).sum ∧
          Tiles (totalSize / minChunkSize) (r.areas ++ live.map Chunk.seg) ∧
          ∀ i, (r.freeHead i).Nodup ∧
            r.freeCount i = (r.freeHead i).length ∧
            ∀ c, c ∈ r.freeHead i ↔
              c ∈ r.root.toList ∧ min (r.len c) 1024 - 1 = i := by
  obtain ⟨a, hcreate, hmin, hj, hr⟩ := create_spec hnum cells records
  refine ⟨a, hcreate, ?_⟩
  intro ops s op s' ws cells' hrun hstep hpre hws
  have hinv : Sound (totalSize / minChunkSize) s ∧
      ∃ ps, Durable (totalSize / minChunkSize) s
        (applyWrites disk s.alloc.writes) ps := by
    refine runFrom_invariant (I := fun s =>
      Sound (totalSize / minChunkSize) s ∧
        ∃ ps, Durable (totalSize / minChunkSize) s
          (applyWrites disk s.alloc.writes) ps) ?_
      ⟨sound_create hmin hj, _, durable_create hnum hbits hj hr disk⟩ hrun
    rintro s op s' ⟨hs, ps, hd⟩ hstep
    have heff := effect_of_step hs hstep
    obtain ⟨vs, hvs, -, hdur⟩ := effect_crash hs hd hbits heff
    refine ⟨sound_of_effect hs heff, ?_⟩
    rw [hvs, applyWrites_append]
    exact hdur
  obtain ⟨hs, ps, hd⟩ := hinv
  have heff := effect_of_step hs hstep
  have hs' := sound_of_effect hs heff
  obtain ⟨new, hnew, hcrash, -⟩ := effect_crash hs hd hbits heff
  obtain ⟨vs, rfl⟩ := hpre
  rw [hnew, List.prefix_append_right_inj] at hws
  rw [applyWrites_append]
  have hrec : ∃ r live, bdmAllocatorRestore minChunkSize totalSize cells'
        (applyWrites (applyWrites disk s.alloc.writes) vs) = some r ∧
      (live.Perm s.live ∨ live.Perm s'.live) ∧ liveChunks r = some live ∧
      Sound (totalSize / minChunkSize) ⟨r, live⟩ ∧
      r.minChunkSize = minChunkSize := by
    rcases hcrash vs hws with hrec | hrec
    · obtain ⟨r, live, hr, hperm, hrest⟩ := restore_spec hmin rfl hbits
        (List.Nodup.of_map _ hs.nodup) hrec cells'
      exact ⟨r, live, hr, Or.inl hperm, hrest⟩
    · obtain ⟨r, live, hr, hperm, hrest⟩ := restore_spec hmin rfl hbits
        (List.Nodup.of_map _ hs'.nodup) hrec cells'
      exact ⟨r, live, hr, Or.inr hperm, hrest⟩
  obtain ⟨r, live, hr, hperm, hlive, hsound, hm⟩ := hrec
  exact ⟨r, live, hr, hperm, hlive, hsound.held, hm ▸ hsound.used,
    hsound.tiles, hsound.areas.filed⟩

/-- A disk with one chunk held between two free areas. -/
def gapOps : List Op :=
  [.alloc 7 0 3, .alloc 8 1 2, .alloc 9 2 3, .free 3 0, .free 3 5]

/-- A crash between the two writes of a free that joins both neighbours. -/
theorem restore_after_crash_between : (1 ≤ 8 / 1 ∧ 8 / 1 < 2 ^ 21) ∧
    ∃ a s s' r live, bdmAllocatorCreate 1 8 noCells noRecords = some a ∧
      runFrom step ⟨a, []⟩ gapOps = some s ∧ s.live = [⟨3, 2, 8, 1⟩] ∧
      step s (.free 2 3) = some s' ∧
      s'.alloc.writes.length = s.alloc.writes.length + 2 ∧
      bdmAllocatorRestore 1 8 noCells
        (applyWrites noRecords s'.alloc.writes.dropLast) = some r ∧
      (live.Perm s.live ∨ live.Perm s'.live) ∧ liveChunks r = some live ∧
      Tiles 8 (r.areas ++ live.map Chunk.seg) := by
  obtain ⟨a, ha, hall⟩ := restore_after_crash 1 8 (by decide) (by decide)
    noCells noRecords noRecords
  have hrun : ((bdmAllocatorCreate 1 8 noCells noRecords).bind fun a =>
      runFrom step ⟨a, []⟩ gapOps).any (fun s => s.live = [⟨3, 2, 8, 1⟩] ∧
        ((step s (.free 2 3)).any fun s' =>
          s'.alloc.writes.length = s.alloc.writes.length + 2 ∧
          s.alloc.writes <+: s'.alloc.writes.dropLast) = true) = true := by
    decide +kernel
  rw [ha, Option.bind_some] at hrun
  obtain ⟨s, hs, hs'⟩ := (Option.any_eq_true _ _).mp hrun
  obtain ⟨hlive, hnext⟩ := of_decide_eq_true hs'
  obtain ⟨s', hstep, hwrites⟩ := (Option.any_eq_true _ _).mp hnext
  obtain ⟨hlen, hpre⟩ := of_decide_eq_true hwrites
  obtain ⟨r, live, hr, hperm, hscan, -, -, htiles, -⟩ := hall gapOps s _ s' _
    noCells hs hstep hpre (List.dropLast_prefix _)
  exact ⟨⟨by decide, by decide⟩, a, s, s', r, live, ha, hs, hlive, hstep, hlen,
    hr, hperm, hscan, htiles⟩

end UbsIo.Bdm
