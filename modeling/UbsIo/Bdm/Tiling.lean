import UbsIo.Bdm.Areas

/-! # No chunk is allocated twice

    The free areas and the chunks that users hold tile the disk in every state
    the allocator reaches.  The invariant `Sound` adds to `Areas` that the cell
    of every held chunk still describes it; an insertion and a removal are used
    only through `Joins` and `Takes`. -/

namespace UbsIo.Bdm

open UbsIo.Lib

def Chunk.seg (k : Chunk) : Seg := ⟨k.id, k.length⟩

/-- The free areas and the held chunks, as segments of the disk. -/
def Sys.segs (s : Sys) : List Seg := s.alloc.areas ++ s.live.map Chunk.seg

/-- The areas and the held chunks tile the first `n` chunks of the disk. -/
structure Sound (n : Nat) (s : Sys) : Prop where
  areas : Areas s.alloc
  held : ∀ k ∈ s.live, s.alloc.chunkList k.id = ⟨k.id, k.length⟩
  pos : ∀ k ∈ s.live, 0 < k.length
  tiles : Tiles n s.segs
  used : s.alloc.usedSize =
    s.alloc.minChunkSize * (s.live.map (·.length)).sum
  minPos : 0 < s.alloc.minChunkSize

variable {n : Nat} {s s' : Sys} {k : Chunk}

/-- A held chunk meets no free area. -/
theorem Sound.fresh (h : Sound n s) (hk : k ∈ s.live) : Fresh s.alloc k.id := by
  have heq := h.held k hk
  have hlen : s.alloc.len k.id = k.length := congrArg BdmChunkIndex.length heq
  refine ⟨⟨congrArg BdmChunkIndex.index heq, hlen ▸ h.pos k hk⟩, ?_⟩
  intro d hd
  have hcell := h.areas.cell d hd
  obtain ⟨-, -, hcross⟩ := List.pairwise_append.mp h.tiles.apart
  have hapart := hcross _ (List.mem_map_of_mem hd) _ (List.mem_map_of_mem hk)
  rw [hcell.seg_eq] at hapart
  have := (Seg.apart_iff hcell.pos (h.pos k hk)).mp hapart
  change d + s.alloc.len d ≤ k.id ∨ k.id + k.length ≤ d at this
  omega

theorem Sound.seg_eq (h : Sound n s) (hk : k ∈ s.live) :
    s.alloc.seg k.id = k.seg := by
  rw [BdmAllocatorRealize.seg, BdmAllocatorRealize.len, h.held k hk]
  rfl

/-- Held chunks do not overlap. -/
theorem Sound.apart_live (h : Sound n s) {j : Chunk} (hj : j ∈ s.live)
    (hk : k ∈ s.live) (hne : j.id ≠ k.id) :
    j.id + j.length ≤ k.id ∨ k.id + k.length ≤ j.id := by
  obtain ⟨-, hlive, -⟩ := List.pairwise_append.mp h.tiles.apart
  have hapart := hlive.forall (List.mem_map_of_mem hj)
    (List.mem_map_of_mem hk) (fun heq => hne (congrArg Seg.start heq))
  exact (Seg.apart_iff (h.pos j hj) (h.pos k hk)).mp hapart

/-- Different chunks have different ids. -/
theorem Sound.nodup (h : Sound n s) : (s.live.map (·.id)).Nodup := by
  obtain ⟨-, hlive, -⟩ := List.pairwise_append.mp h.tiles.apart
  rw [List.nodup_iff_pairwise_ne, List.pairwise_map]
  rw [List.pairwise_map] at hlive
  refine hlive.imp_of_mem ?_
  intro x y hx hy hapart heq
  have := (Seg.apart_iff (h.pos x hx) (h.pos y hy)).mp hapart
  change x.id + x.length ≤ y.id ∨ y.id + y.length ≤ x.id at this
  have := h.pos x hx
  have := h.pos y hy
  omega

/-- The held chunks are the one with an id and the others. -/
theorem perm_of_nodup_ids {live : List Chunk}
    (hn : (live.map (·.id)).Nodup) (hk : k ∈ live) :
    live.Perm (k :: live.filter (·.id != k.id)) := by
  have hfilter : live.filter (·.id != k.id) = live.erase k := by
    rw [(List.Nodup.of_map _ hn).erase_eq_filter]
    refine List.filter_congr ?_
    intro x hx
    have hiff : x.id = k.id ↔ x = k :=
      ⟨fun h => List.inj_on_of_nodup_map hn hx hk h, fun h => h ▸ rfl⟩
    rw [Bool.eq_iff_iff]
    simp [hiff]
  rw [hfilter]
  exact List.perm_cons_erase hk

/-! ## The steps -/

/-- Everything an accepted call can do. -/
inductive Effect (s : Sys) : Op → Sys → Prop where
  | refused (op : Op) : Effect s op s
  | alloc {bucketId bucketOffset chunkSize c : Nat} {a : BdmAllocatorRealize}
      {lower upper rest : List Nat}
      (hsize : s.alloc.minChunkSize ∣ chunkSize)
      (hpos : 0 < chunkSize / s.alloc.minChunkSize)
      (ht : Takes s.alloc c a lower upper rest
        (chunkSize / s.alloc.minChunkSize) bucketId bucketOffset) :
      Effect s (.alloc bucketId bucketOffset chunkSize)
        ⟨{ a with usedSize := a.usedSize + chunkSize },
         ⟨c, chunkSize / s.alloc.minChunkSize, bucketId, bucketOffset⟩ ::
           s.live⟩
  | free {chunkSize : Nat} {k : Chunk} {a : BdmAllocatorRealize}
      {lower gone upper : List Nat} {new : Seg} (hk : k ∈ s.live)
      (hsize : chunkSize = s.alloc.len k.id * s.alloc.minChunkSize)
      (hj : Joins s.alloc k.id a lower gone upper new)
      (hr : Released s.alloc k.id a new) :
      Effect s (.free chunkSize k.id)
        ⟨{ a with usedSize := a.usedSize - chunkSize },
         s.live.filter (·.id != k.id)⟩

/-- **STEP**: every allowed call is accepted. -/
theorem step_effect (h : Sound n s) {op : Op} (hop : Allowed s op) :
    ∃ s', step s op = some s' ∧ Effect s op s' := by
  rw [step.eq_def, if_pos hop]
  cases op with
  | alloc bucketId bucketOffset chunkSize =>
      dsimp only
      rw [bdmAllocatorAllocChunk]
      rcases remove_spec h.areas bucketId bucketOffset chunkSize with
        hrem | ⟨a, c, lower, upper, rest, hrem, hpos, ht⟩
      · rw [hrem]
        exact ⟨s, rfl, Effect.refused _⟩
      · rw [hrem]
        exact ⟨_, rfl, Effect.alloc hop.2 hpos ht⟩
  | free chunkSize chunkId =>
      obtain ⟨k, hk, rfl⟩ := List.mem_map.mp hop
      dsimp only
      rw [bdmAllocatorFreeChunk]
      by_cases hid : k.id ≥ s.alloc.chunkNum
      · rw [if_pos hid]
        exact ⟨s, rfl, Effect.refused _⟩
      rw [if_neg hid]
      by_cases hsize : chunkSize = s.alloc.len k.id * s.alloc.minChunkSize
      · rw [if_neg (not_not.mpr hsize)]
        obtain ⟨a, lower, gone, upper, new, hins, hj, hr⟩ :=
          insert_spec h.areas (h.fresh hk)
        rw [hins]
        exact ⟨_, rfl, Effect.free hk hsize hj hr⟩
      · rw [if_pos hsize]
        exact ⟨s, rfl, Effect.refused _⟩

theorem effect_of_step (h : Sound n s) {op : Op} (hs : step s op = some s') :
    Effect s op s' := by
  have hop : Allowed s op := by
    by_contra hno
    rw [step.eq_def, if_neg hno] at hs
    exact nomatch hs
  obtain ⟨t, ht, heff⟩ := step_effect h hop
  rw [hs] at ht
  rw [Option.some.inj ht]
  exact heff

/-- No call changes the sizes of the disk. -/
theorem effect_sizes {op : Op} (h : Effect s op s') :
    s'.alloc.chunkNum = s.alloc.chunkNum ∧
      s'.alloc.minChunkSize = s.alloc.minChunkSize := by
  cases h with
  | refused => exact ⟨rfl, rfl⟩
  | alloc _ _ ht => exact ⟨ht.chunkNum, ht.minChunkSize⟩
  | free _ _ hj _ => exact ⟨hj.chunkNum, hj.minChunkSize⟩

/-- What a removal leaves of the held chunks. -/
theorem Sound.held_of_takes (h : Sound n s) {a : BdmAllocatorRealize} {c : Nat}
    {lower upper rest : List Nat} {length bucketId bucketOffset : Nat}
    (ht : Takes s.alloc c a lower upper rest length bucketId bucketOffset)
    (hk : k ∈ s.live) :
    a.chunkList k.id = s.alloc.chunkList k.id := by
  have hfresh := h.fresh hk
  have hapart := hfresh.apart c ht.mem
  have hkpos := hfresh.cell.pos
  have hcpos := (h.areas.cell c ht.mem).pos
  refine ht.frame k.id (by omega) ?_
  intro hrest
  -- the rest of the area lies inside the area
  have hcell := ht.cell_rest hrest
  have hrpos := hcell.1.pos
  omega

/-- What an insertion leaves of the other held chunks. -/
theorem Sound.held_of_joins (h : Sound n s) {a : BdmAllocatorRealize} {c : Nat}
    {lower gone upper : List Nat} {new : Seg} {j : Chunk} (hj : j ∈ s.live)
    (hjoin : Joins s.alloc c a lower gone upper new) (hne : j.id ≠ c) :
    a.chunkList j.id = s.alloc.chunkList j.id := by
  refine hjoin.chunkList_ne ?_
  rcases hjoin.starts with hs | hs
  · rw [hs]
    exact hne
  · -- the new area starts where a free area started
    intro heq
    refine (h.fresh hj).not_mem ?_
    rw [heq, hjoin.old]
    exact List.mem_append_right _ (List.mem_append_left _ hs)

theorem mem_live_filter {live : List Chunk} {j : Chunk} {id : Nat} :
    j ∈ live.filter (·.id != id) ↔ j ∈ live ∧ j.id ≠ id := by
  simp

/-- **PRESERVATION**: every call keeps the allocator sound. -/
theorem sound_of_effect (h : Sound n s) {op : Op} (heff : Effect s op s') :
    Sound n s' := by
  cases heff with
  | refused => exact h
  | @alloc bucketId bucketOffset chunkSize c a lower upper rest hsize hpos ht =>
      refine ⟨?_, ?_, ?_, ?_, ?_, ?_⟩
      · exact (ht.areas h.areas hpos).of_eq rfl rfl rfl rfl
      · intro k hk
        rcases List.mem_cons.mp hk with rfl | hk
        · exact ht.chunk
        · exact (h.held_of_takes ht hk).trans (h.held k hk)
      · intro k hk
        rcases List.mem_cons.mp hk with rfl | hk
        · exact hpos
        · exact h.pos k hk
      · rw [tiles_iff]
        intro u
        have hold := tiles_iff.mp h.tiles u
        have hcover := ht.coverNum_areas h.areas hpos u
        rw [Sys.segs, coverNum_append] at hold ⊢
        rw [List.map_cons, coverNum_cons]
        show coverNum a.areas u +
          (coverNum [⟨c, chunkSize / s.alloc.minChunkSize⟩] u + _) =
            if u < n then 1 else 0
        rw [← hold, hcover]
        omega
      · show a.usedSize + chunkSize = a.minChunkSize * _
        rw [ht.usedSize, ht.minChunkSize, h.used, List.map_cons, List.sum_cons,
          Nat.mul_add, Nat.mul_div_cancel' hsize, Nat.add_comm]
      · exact ht.minChunkSize ▸ h.minPos
  | @free chunkSize k a lower gone upper new hk hsize hj hr =>
      have hperm := perm_of_nodup_ids h.nodup hk
      have hlen : s.alloc.len k.id = k.length :=
        congrArg BdmChunkIndex.length (h.held k hk)
      refine ⟨?_, ?_, ?_, ?_, ?_, ?_⟩
      · exact (hj.areas h.areas).of_eq rfl rfl rfl rfl
      · intro j hmem
        obtain ⟨hjl, hne⟩ := mem_live_filter.mp hmem
        exact (h.held_of_joins hjl hj hne).trans (h.held j hjl)
      · intro j hmem
        exact h.pos j (mem_live_filter.mp hmem).1
      · rw [tiles_iff]
        intro u
        have hold := tiles_iff.mp h.tiles u
        have hcover := hj.coverNum_areas h.areas u
        rw [h.seg_eq hk] at hcover
        rw [Sys.segs, coverNum_append, coverNum_perm (hperm.map _) u,
          List.map_cons, coverNum_cons] at hold
        rw [Sys.segs, coverNum_append]
        show coverNum a.areas u +
          coverNum ((s.live.filter (·.id != k.id)).map Chunk.seg) u =
            if u < n then 1 else 0
        rw [← hold, hcover]
        omega
      · show a.usedSize - chunkSize = a.minChunkSize * _
        rw [hlen] at hsize
        rw [hj.usedSize, hj.minChunkSize, h.used,
          (hperm.map fun j : Chunk => j.length).sum_eq, List.map_cons,
          List.sum_cons, hsize, Nat.mul_add, Nat.mul_comm k.length,
          Nat.add_sub_cancel_left]
      · exact hj.minChunkSize ▸ h.minPos

theorem sound_of_step (h : Sound n s) {op : Op} (hs : step s op = some s') :
    Sound n s' := sound_of_effect h (effect_of_step h hs)

/-! ## Runs -/

theorem areas_empty (minChunkSize totalSize : Nat)
    (cells : Nat → BdmChunkIndex) (records : Nat → BdmChunkMeta) :
    Areas (emptyAllocator minChunkSize totalSize cells records) := by
  refine ⟨balanced_leaf, ?_, List.Pairwise.nil, ?_⟩
  · intro c hc
    exact absurd hc List.not_mem_nil
  · intro k
    refine ⟨List.nodup_nil, rfl, ?_⟩
    intro c
    constructor
    · intro hc
      exact absurd hc List.not_mem_nil
    · rintro ⟨hc, -⟩
      exact absurd hc List.not_mem_nil

/-- The allocator at the moment its first area, the whole disk, is inserted. -/
def wholeDisk (minChunkSize totalSize : Nat) (cells : Nat → BdmChunkIndex)
    (records : Nat → BdmChunkMeta) : BdmAllocatorRealize :=
  emptyAllocator minChunkSize totalSize
    (Function.update cells 0 ⟨0, totalSize / minChunkSize⟩) records

section Create

variable {minChunkSize totalSize : Nat}

theorem fresh_wholeDisk (hnum : 1 ≤ totalSize / minChunkSize)
    (cells : Nat → BdmChunkIndex) (records : Nat → BdmChunkMeta) :
    Fresh (wholeDisk minChunkSize totalSize cells records) 0 ∧
      (wholeDisk minChunkSize totalSize cells records).len 0 =
        totalSize / minChunkSize := by
  have hself : (wholeDisk minChunkSize totalSize cells records).chunkList 0 =
      ⟨0, totalSize / minChunkSize⟩ := Function.update_self 0 _ cells
  have hlen := congrArg BdmChunkIndex.length hself
  refine ⟨⟨⟨congrArg BdmChunkIndex.index hself, ?_⟩, ?_⟩, hlen⟩
  · rw [show (wholeDisk minChunkSize totalSize cells records).len 0 =
      totalSize / minChunkSize from hlen]
    exact hnum
  · intro d hd
    exact absurd hd List.not_mem_nil

/-- Creation inserts the whole disk as the only area. -/
theorem create_spec (hnum : 1 ≤ totalSize / minChunkSize)
    (cells : Nat → BdmChunkIndex) (records : Nat → BdmChunkMeta) :
    ∃ a, bdmAllocatorCreate minChunkSize totalSize cells records = some a ∧
      0 < minChunkSize ∧
      Joins (wholeDisk minChunkSize totalSize cells records) 0 a [] [] []
        ⟨0, totalSize / minChunkSize⟩ ∧
      Released (wholeDisk minChunkSize totalSize cells records) 0 a
        ⟨0, totalSize / minChunkSize⟩ := by
  have hmin : minChunkSize ≠ 0 := by
    rintro rfl
    simp at hnum
  obtain ⟨hfresh, hlen⟩ := fresh_wholeDisk hnum cells records
  have hA : Areas (wholeDisk minChunkSize totalSize cells records) :=
    areas_empty _ _ _ _
  obtain ⟨a, lower, gone, upper, new, hins, hj, hr⟩ := insert_spec hA hfresh
  obtain ⟨rfl, hrest⟩ := List.append_eq_nil_iff.mp hj.old.symm
  obtain ⟨rfl, rfl⟩ := List.append_eq_nil_iff.mp hrest
  -- with no area to join, the new one is the chunk
  have hstart : new.start = 0 := hj.starts.resolve_right List.not_mem_nil
  have hend := hj.ends.resolve_right (by simp)
  rw [hstart, hlen, Nat.zero_add, Nat.zero_add] at hend
  have hnew : new = ⟨0, totalSize / minChunkSize⟩ := by
    rw [← hstart, ← hend]
  rw [hnew] at hj hr
  refine ⟨a, ?_, Nat.pos_of_ne_zero hmin, hj, hr⟩
  rw [bdmAllocatorCreate, if_neg hmin]
  exact hins

/-- A new allocator has one free area, the whole disk. -/
theorem sound_create {cells : Nat → BdmChunkIndex}
    {records : Nat → BdmChunkMeta} {a : BdmAllocatorRealize}
    (hmin : 0 < minChunkSize)
    (hj : Joins (wholeDisk minChunkSize totalSize cells records) 0 a [] [] []
      ⟨0, totalSize / minChunkSize⟩) :
    Sound (totalSize / minChunkSize) ⟨a, []⟩ := by
  have hA := areas_empty minChunkSize totalSize
    (Function.update cells 0 ⟨0, totalSize / minChunkSize⟩) records
  refine ⟨hj.areas hA, ?_, ?_, ?_, ?_, ?_⟩
  · intro k hk
    exact absurd hk List.not_mem_nil
  · intro k hk
    exact absurd hk List.not_mem_nil
  · rw [tiles_iff]
    intro u
    have hareas : a.areas = [⟨0, totalSize / minChunkSize⟩] := by
      rw [BdmAllocatorRealize.areas, hj.root]
      show [a.seg 0] = _
      rw [show a.seg 0 = ⟨0, a.len 0⟩ from hj.cell_new.1.seg_eq,
        show a.len 0 = totalSize / minChunkSize from hj.cell_new.2]
    rw [Sys.segs, coverNum_append, hareas, coverNum_singleton]
    simp [Seg.Has]
  · show a.usedSize = a.minChunkSize * 0
    rw [hj.usedSize]
    rfl
  · show 0 < a.minChunkSize
    rw [hj.minChunkSize]
    exact hmin

end Create

/-- **NO DOUBLE ALLOCATION**: a disk of at least one chunk gets an allocator,
    and in every state it reaches by allocations and by frees of held chunks
    the held chunks and the areas of the tree tile the disk, the free lists
    hold exactly the areas of the tree by length, the counters count them, the
    used size is that of the held chunks, and every further call is carried
    out or refused. -/
theorem reachable_tiled (minChunkSize totalSize : Nat)
    (hnum : 1 ≤ totalSize / minChunkSize) (cells : Nat → BdmChunkIndex)
    (records : Nat → BdmChunkMeta) :
    ∃ a, bdmAllocatorCreate minChunkSize totalSize cells records = some a ∧
      ∀ (ops : List Op) (s : Sys), runFrom step ⟨a, []⟩ ops = some s →
        Tiles (totalSize / minChunkSize)
          (s.alloc.areas ++ s.live.map Chunk.seg) ∧
        (∀ i, (s.alloc.freeHead i).Nodup ∧
          s.alloc.freeCount i = (s.alloc.freeHead i).length ∧
          ∀ c, c ∈ s.alloc.freeHead i ↔
            c ∈ s.alloc.root.toList ∧ min (s.alloc.len c) 1024 - 1 = i) ∧
        s.alloc.usedSize = minChunkSize * (s.live.map (·.length)).sum ∧
        ∀ op, Allowed s op → ∃ s', step s op = some s' := by
  obtain ⟨a, hcreate, hmin, hj, -⟩ := create_spec hnum cells records
  have hsound := sound_create hmin hj
  have hm : a.minChunkSize = minChunkSize := hj.minChunkSize
  refine ⟨a, hcreate, ?_⟩
  intro ops s hrun
  -- the sizes never change
  have hinv : Sound (totalSize / minChunkSize) s ∧
      s.alloc.minChunkSize = minChunkSize := by
    refine runFrom_invariant (I := fun s =>
      Sound (totalSize / minChunkSize) s ∧
        s.alloc.minChunkSize = minChunkSize) ?_ ⟨hsound, hm⟩ hrun
    rintro s op s' ⟨hs, hm⟩ hstep
    have hsizes := effect_sizes (effect_of_step hs hstep)
    exact ⟨sound_of_step hs hstep, hsizes.2.trans hm⟩
  obtain ⟨hs, hm⟩ := hinv
  refine ⟨hs.tiles, hs.areas.filed, hm ▸ hs.used, ?_⟩
  intro op hop
  obtain ⟨s', hs', -⟩ := step_effect hs hop
  exact ⟨s', hs'⟩

/-- Memory that was never written. -/
def noCells : Nat → BdmChunkIndex := fun _ => ⟨0, 0⟩

def noRecords : Nat → BdmChunkMeta := fun _ => ⟨false, false, false, 0, 0, 0⟩

/-- Splits, an exact fit, and merges on both sides. -/
def mixedOps : List Op :=
  [.alloc 7 0 3, .alloc 8 1 2, .alloc 9 2 3, .free 3 0, .free 3 5, .free 2 3,
   .alloc 9 3 2]

theorem reachable_tiled_eight : 1 ≤ 8 / 1 ∧
    ∃ a s, bdmAllocatorCreate 1 8 noCells noRecords = some a ∧
      runFrom step ⟨a, []⟩ mixedOps = some s ∧ s.live = [⟨0, 2, 9, 3⟩] ∧
      Tiles 8 (s.alloc.areas ++ s.live.map Chunk.seg) := by
  obtain ⟨a, ha, hall⟩ :=
    reachable_tiled 1 8 (by decide) noCells noRecords
  have hrun : ((bdmAllocatorCreate 1 8 noCells noRecords).bind fun a =>
      runFrom step ⟨a, []⟩ mixedOps).any
        (fun s => s.live = [⟨0, 2, 9, 3⟩]) = true := by
    decide +kernel
  rw [ha, Option.bind_some] at hrun
  obtain ⟨s, hs, hlive⟩ := (Option.any_eq_true _ _).mp hrun
  exact ⟨by decide, a, s, ha, hs, of_decide_eq_true hlive, (hall _ s hs).1⟩

end UbsIo.Bdm
