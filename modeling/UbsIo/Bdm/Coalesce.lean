import UbsIo.Bdm.Tiling

/-! # Adjacent free areas

    A freed chunk is joined to the areas beside it.  The walk through the tree
    stops at the first of the two that it meets: at the area before the chunk
    both are joined, at the area after it only that one.  As long as no walk
    stops behind a chunk that has an area before it, no two areas touch
    (`Coalesced`), and then an allocation succeeds whenever enough chunks in a
    row are free. -/

namespace UbsIo.Bdm

open UbsIo.Lib

variable {a a' : BdmAllocatorRealize} {c : Nat}

/-- No area ends where another one begins. -/
def Coalesced (a : BdmAllocatorRealize) : Prop :=
  ∀ c ∈ a.root.toList, ∀ d ∈ a.root.toList, c + a.len c ≠ d

/-- The walk of an insertion does not stop at the area after the chunk when
    there is one before it. -/
def MeetsPrev (a : BdmAllocatorRealize) (c : Nat) : Prop :=
  ∀ color l d r p,
    descend (insertTurn a c) a.root [] = (.node color l d r, p) →
    c + a.len c = d → ∀ e ∈ a.root.toList, e + a.len e ≠ c

/-! ## Insertion -/

/-- The new area touches none of those that stay. -/
theorem Joins.coalesced {lower gone upper : List Nat} {new : Seg}
    (h : Joins a c a' lower gone upper new) (hA : Areas a)
    (hco : Coalesced a) (hlower : new.start = c →
      ∀ d ∈ lower, d + a.len d ≠ c)
    (hupper : new.start + new.length = c + a.len c →
      ∀ d ∈ upper, c + a.len c ≠ d) : Coalesced a' := by
  have hold {d : Nat} (hd : d ∈ gone) : d ∈ a.root.toList := by
    rw [h.old]
    exact List.mem_append_right _ (List.mem_append_left _ hd)
  have hleft (d : Nat) (hd : d ∈ lower) : d + a.len d ≠ new.start := by
    rcases h.starts with hstart | hgone
    · rw [hstart]
      exact hlower hstart d hd
    · exact hco d (h.kept hA (List.mem_append_left _ hd)).1 _ (hold hgone)
  have hright (d : Nat) (hd : d ∈ upper) : new.start + new.length ≠ d := by
    rcases h.ends with hend | ⟨x, hx, hend⟩
    · rw [hend]
      exact hupper hend d hd
    · rw [hend]
      exact hco x (hold hx) d (h.kept hA (List.mem_append_right _ hd)).1
  have hmem {d : Nat} (hd : d ∈ a'.root.toList) :
      d = new.start ∨ d ∈ lower ++ upper := by
    rw [h.root] at hd
    rcases List.mem_append.mp hd with hd | hd
    · exact .inr (List.mem_append_left _ hd)
    · exact (List.mem_cons.mp hd).imp_right (List.mem_append_right _)
  intro x hx y hy hxy
  rcases hmem hx with rfl | hx'
  · rw [h.cell_new.2] at hxy
    rcases hmem hy with rfl | hy'
    · have := h.pos
      omega
    · rcases List.mem_append.mp hy' with hlo | hup
      · have := h.lower_le y hlo
        have := h.pos
        omega
      · exact hright y hup hxy
  · rw [h.len_kept hA hx'] at hxy
    rcases hmem hy with rfl | hy'
    · rcases List.mem_append.mp hx' with hlo | hup
      · exact hleft x hlo hxy
      · have := h.le_upper x hup
        have := h.pos
        omega
    · exact hco x (h.kept hA hx').1 y (h.kept hA hy').1 hxy

/-- **INSERTION**: a walk that does not pass over the area before the chunk
    leaves no two areas that touch. -/
theorem coalesced_restoreInsert (hA : Areas a) (hc : Fresh a c)
    (hco : Coalesced a) (hmeet : MeetsPrev a c)
    (hins : bdmAllocatorRestoreInsert a c = some a') : Coalesced a' := by
  rcases hw : descend (insertTurn a c) a.root [] with ⟨t, p⟩
  cases t with
  | leaf =>
      obtain ⟨-, -, hlo, hhi⟩ := fresh_descend hA hc hw
      obtain ⟨b, hb, hj, -⟩ := restoreInsert_alone hA hc hw
      rw [hins] at hb
      cases hb
      exact hj.coalesced hA hco (fun _ d hd => (hlo d hd).ne)
        fun _ d hd => (hhi d hd).ne
  | node color l d r =>
      obtain ⟨hlist, hmem, hd | hd⟩ := fresh_neighbour hA hc hw
      · have hpos := (hA.cell d hmem).pos
        by_cases hup : ∃ n, (r.toList ++ after p).head? = some n ∧
            c + a.len c = n
        · obtain ⟨n, hhead, hn⟩ := hup
          obtain ⟨upper, hup⟩ := List.head?_eq_some_iff.mp hhead
          have hnpos := (hA.cell n (by rw [hlist, hup]; simp)).pos
          obtain ⟨b, hb, hj, -⟩ := restoreInsert_both hA hc hw hd hup hn
          rw [hins] at hb
          cases hb
          refine hj.coalesced hA hco (fun h => ?_) fun h => ?_
          · change d = c at h
            omega
          · change d + (a.len d + a.len c + a.len n) = _ at h
            omega
        · have hup' : ∀ n, (r.toList ++ after p).head? = some n →
              c + a.len c ≠ n := fun n hn he => hup ⟨n, hn, he⟩
          obtain ⟨b, hb, hj, -⟩ := restoreInsert_next hA hc hw hd hup'
          rw [hins] at hb
          cases hb
          refine hj.coalesced hA hco (fun h => ?_) fun _ x hx => ?_
          · change d = c at h
            omega
          · -- the areas behind the first one begin after its end
            obtain ⟨n, rest, hn⟩ := List.exists_cons_of_ne_nil
              (List.ne_nil_of_mem hx)
            rw [hn] at hx
            rcases List.mem_cons.mp hx with rfl | hx
            · exact hup' x (by rw [hn]; rfl)
            · have hnmem : n ∈ a.root.toList := by
                rw [hlist, hn]
                simp
              have hs := hA.sorted
              rw [hlist, hn] at hs
              have hnx := (List.pairwise_cons.mp (List.pairwise_cons.mp
                (List.pairwise_append.mp hs).2.1).2).1 x hx
              have hcn := hc.apart n hnmem
              have hdn := (List.pairwise_cons.mp
                (List.pairwise_append.mp hs).2.1).1 n
                (List.mem_cons_self ..)
              have := (hA.cell n hnmem).pos
              have := hc.cell.pos
              omega
      · have hpos := (hA.cell d hmem).pos
        obtain ⟨b, hb, hj, -⟩ := restoreInsert_pre hA hc hw hd
        rw [hins] at hb
        cases hb
        refine hj.coalesced hA hco (fun _ x hx => ?_) fun h => ?_
        · exact hmeet color l d r p hw hd x
            (hj.kept hA (List.mem_append_left _ hx)).1
        · change c + (a.len c + a.len d) = _ at h
          omega

theorem coalesced_insert (hA : Areas a) (hc : Fresh a c) (hco : Coalesced a)
    (hmeet : MeetsPrev a c) (hins : bdmAllocatorInsert a c = some a') :
    Coalesced a' := by
  obtain ⟨b, hb, rfl⟩ := Option.map_eq_some_iff.mp hins
  have h := coalesced_restoreInsert hA hc hco hmeet hb
  exact h

/-! ## Allocation -/

/-- What is left of an area ends where the area did. -/
theorem Takes.coalesced {lower upper rest : List Nat}
    {length bucketId bucketOffset : Nat}
    (h : Takes a c a' lower upper rest length bucketId bucketOffset)
    (hA : Areas a) (hpos : 0 < length) (hco : Coalesced a) : Coalesced a' := by
  have hlen {d : Nat} (hd : d ∈ lower ++ upper) :
      d ∈ a.root.toList ∧ a'.len d = a.len d := by
    obtain ⟨hmem, heq⟩ := h.kept hA hpos hd
    exact ⟨hmem, congrArg BdmChunkIndex.length heq⟩
  have hmem {d : Nat} (hd : d ∈ a'.root.toList) :
      d ∈ rest ∨ d ∈ lower ++ upper := by
    rw [h.root] at hd
    rcases List.mem_append.mp hd with hd | hd
    · exact .inr (List.mem_append_left _ hd)
    · exact (List.mem_append.mp hd).imp_right (List.mem_append_right _)
  intro x hx y hy hxy
  rcases hmem hx with hx | hx
  · obtain ⟨hcell, hxc, hend⟩ := h.cell_rest hx
    rw [hend] at hxy
    rcases hmem hy with hy | hy
    · obtain ⟨hcell', hyc, -⟩ := h.cell_rest hy
      have := hcell.pos
      omega
    · exact hco c h.mem y (hlen hy).1 hxy
  · rw [(hlen hx).2] at hxy
    rcases hmem hy with hy | hy
    · obtain ⟨hcell, hyc, hend⟩ := h.cell_rest hy
      have := hcell.pos
      have := (hA.cell x (hlen hx).1).pos
      rcases List.mem_append.mp hx with hx | hx
      · have := (hA.around h.old).1 x hx
        omega
      · have := (hA.around h.old).2 x hx
        omega
    · exact hco x (hlen hx).1 y (hlen hy).1 hxy

/-- A list of areas that are long enough is found. -/
theorem findArea_isSome (hA : Areas a) {length : Nat} (hpos : 0 < length)
    (hc : c ∈ a.root.toList) (hle : length ≤ a.len c) :
    (findArea a length).isSome = true := by
  have hfiled : c ∈ a.freeHead (freeIndexOf (a.len c)) :=
    ((hA.filed _).2.2 c).mpr ⟨hc, rfl⟩
  have hk : freeIndexOf (a.len c) ∈ List.range' (freeIndexOf length)
      (bdmFreeListNum - freeIndexOf length) := by
    rw [List.mem_range'_1]
    rw [freeIndexOf, freeIndexOf, bdmFreeListNum]
    omega
  rw [findArea, List.findSome?_isSome_iff]
  refine ⟨_, hk, ?_⟩
  rw [Option.isSome_map, List.find?_isSome]
  exact ⟨c, hfiled, decide_eq_true hle⟩

/-- **ALLOCATION**: the call succeeds when an area is long enough, and only
    then. -/
theorem allocChunk_done (hA : Areas a) (hmin : 0 < a.minChunkSize)
    {length : Nat} (hpos : 0 < length) (bucketId bucketOffset : Nat) :
    (∃ x, bdmAllocatorAllocChunk a bucketId bucketOffset
      (length * a.minChunkSize) = .done x) ↔
      ∃ c ∈ a.root.toList, length ≤ a.len c := by
  have hdiv : length * a.minChunkSize / a.minChunkSize = length :=
    Nat.mul_div_cancel _ hmin
  constructor
  · rintro ⟨x, hx⟩
    rw [bdmAllocatorAllocChunk] at hx
    rcases remove_spec hA bucketId bucketOffset (length * a.minChunkSize) with
      hrem | ⟨b, c, lower, upper, rest, hrem, -, ht⟩
    · rw [hrem] at hx
      cases hx
    · rw [hdiv] at ht
      refine ⟨c, ht.mem, ?_⟩
      rcases ht.rest_cases with ⟨-, h⟩ | ⟨-, h⟩
      · exact h.ge
      · exact h.le
  · rintro ⟨c, hc, hle⟩
    rcases remove_spec hA bucketId bucketOffset (length * a.minChunkSize) with
      hrem | ⟨b, c, lower, upper, rest, hrem, -, ht⟩
    · -- the search finds an area, so the call is not refused
      obtain ⟨⟨k, d⟩, hfind⟩ :=
        Option.isSome_iff_exists.mp (findArea_isSome hA hpos hc hle)
      rw [bdmAllocatorRemove, if_neg hmin.ne'] at hrem
      dsimp only at hrem
      rw [hdiv, if_neg hpos.ne', hfind] at hrem
      dsimp only at hrem
      by_cases heq : a.len d = length
      · obtain ⟨hmem, rfl, -⟩ := findArea_spec hA hfind
        obtain ⟨a', lower, upper, hsame, -⟩ :=
          removeSameLen_spec hA hmem bucketId bucketOffset
        rw [if_pos heq, hsame] at hrem
        cases hrem
      · rw [if_neg heq] at hrem
        cases hrem
    · rw [bdmAllocatorAllocChunk, hrem]
      exact ⟨_, rfl⟩

/-! ## Runs -/

variable {n : Nat} {s s' : Sys}

/-- A run of free chunks lies in one area. -/
theorem Sound.area_of_free (h : Sound n s) (hco : Coalesced s.alloc)
    {start length : Nat} (hpos : 0 < length) (hle : start + length ≤ n)
    (hfree : ∀ u, start ≤ u → u < start + length →
      ∀ k ∈ s.live, ¬ k.seg.Has u) :
    ∃ c ∈ s.alloc.root.toList, length ≤ s.alloc.len c := by
  have harea (u : Nat) (hu : start ≤ u) (hu' : u < start + length) :
      ∃ c ∈ s.alloc.root.toList, c ≤ u ∧ u < c + s.alloc.len c := by
    obtain ⟨x, hx, hhas⟩ := (h.tiles.exact u).mp (by omega)
    rcases List.mem_append.mp hx with hx | hx
    · obtain ⟨c, hc, rfl⟩ := List.mem_map.mp hx
      rw [(h.areas.cell c hc).seg_eq] at hhas
      exact ⟨c, hc, hhas⟩
    · obtain ⟨k, hk, rfl⟩ := List.mem_map.mp hx
      exact absurd hhas (hfree u hu hu' k hk)
  obtain ⟨c, hc, hcs, hce⟩ := harea start le_rfl (by omega)
  refine ⟨c, hc, ?_⟩
  by_contra hlt
  -- the chunk after the area is free, and begins another one
  obtain ⟨d, hd, hds, hde⟩ := harea (c + s.alloc.len c) (by omega) (by omega)
  have hne := hco c hc d hd
  have hcd : c ≠ d := by
    rintro rfl
    omega
  have hdpos := (h.areas.cell d hd).pos
  have hcpos := (h.areas.cell c hc).pos
  obtain ⟨lower, upper, hlist⟩ := List.append_of_mem hc
  rw [hlist] at hd
  rcases List.mem_append.mp hd with hd | hd
  · have := (h.areas.around hlist).1 d hd
    omega
  · rcases List.mem_cons.mp hd with hd | hd
    · exact hcd hd.symm
    · have := (h.areas.around hlist).2 d hd
      omega

/-- A free is refused, or inserts the chunk. -/
theorem step_free {chunkSize chunkId : Nat}
    (hs : step s (.free chunkSize chunkId) = some s') :
    s' = s ∨ ∃ a, bdmAllocatorInsert s.alloc chunkId = some a ∧
      s' = ⟨{ a with usedSize := a.usedSize - chunkSize },
        s.live.filter (·.id != chunkId)⟩ := by
  rw [step.eq_def] at hs
  split at hs
  · dsimp only at hs
    rw [bdmAllocatorFreeChunk] at hs
    split at hs
    next a hfree =>
      cases hs
      split at hfree
      · cases hfree
      · split at hfree
        · cases hfree
        · cases hins : bdmAllocatorInsert s.alloc chunkId with
          | none =>
              rw [hins] at hfree
              cases hfree
          | some b =>
              rw [hins] at hfree
              cases hfree
              exact .inr ⟨b, rfl, rfl⟩
    · cases hs
      exact .inl rfl
    · cases hs
  · cases hs

/-- An allocation is refused, or takes a chunk. -/
theorem step_alloc {bucketId bucketOffset chunkSize : Nat}
    (hs : step s (.alloc bucketId bucketOffset chunkSize) = some s') :
    s' = s ∨ ∃ a id,
      bdmAllocatorRemove s.alloc bucketId bucketOffset chunkSize =
        .done (a, id) ∧
      s' = ⟨{ a with usedSize := a.usedSize + chunkSize },
        ⟨id, chunkSize / s.alloc.minChunkSize, bucketId, bucketOffset⟩ ::
          s.live⟩ := by
  rw [step.eq_def] at hs
  split at hs
  · dsimp only at hs
    rw [bdmAllocatorAllocChunk] at hs
    cases hrem : bdmAllocatorRemove s.alloc bucketId bucketOffset chunkSize with
    | done x =>
        rw [hrem] at hs
        cases hs
        exact .inr ⟨x.1, x.2, rfl, rfl⟩
    | refused =>
        rw [hrem] at hs
        cases hs
        exact .inl rfl
    | broken =>
        rw [hrem] at hs
        cases hs
  · cases hs

theorem allowed_of_step {op : Op} (hs : step s op = some s') : Allowed s op := by
  by_contra hno
  rw [step.eq_def, if_neg hno] at hs
  cases hs

theorem coalesced_of_step (h : Sound n s) (hco : Coalesced s.alloc)
    {op : Op} (hmeet : ∀ chunkSize chunkId, op = .free chunkSize chunkId →
      MeetsPrev s.alloc chunkId) (hs : step s op = some s') :
    Coalesced s'.alloc := by
  have hop := allowed_of_step hs
  cases op with
  | alloc bucketId bucketOffset chunkSize =>
      rcases step_alloc hs with rfl | ⟨a, id, hrem, rfl⟩
      · exact hco
      · rcases remove_spec h.areas bucketId bucketOffset chunkSize with
          hno | ⟨b, c, lower, upper, rest, hrem', hpos, ht⟩
        · rw [hrem] at hno
          exact nomatch hno
        · rw [hrem] at hrem'
          cases hrem'
          exact ht.coalesced h.areas hpos hco
  | free chunkSize chunkId =>
      obtain ⟨k, hk, rfl⟩ := List.mem_map.mp hop
      rcases step_free hs with rfl | ⟨a, hins, rfl⟩
      · exact hco
      · have ha := coalesced_insert h.areas (h.fresh hk) hco
          (hmeet _ _ rfl) hins
        exact ha

/-- Every free meets the area before its chunk first. -/
def FreesMeetPrev (s : Sys) : Op → Prop
  | .alloc _ _ _ => True
  | .free _ chunkId => MeetsPrev s.alloc chunkId

/-- A disk without a chunk gets no allocator. -/
theorem create_pos {minChunkSize totalSize : Nat}
    {cells : Nat → BdmChunkIndex} {records : Nat → BdmChunkMeta}
    (h : bdmAllocatorCreate minChunkSize totalSize cells records = some a) :
    1 ≤ totalSize / minChunkSize := by
  by_contra hno
  have hzero : totalSize / minChunkSize = 0 :=
    Nat.lt_one_iff.mp (not_le.mp hno)
  rw [bdmAllocatorCreate] at h
  split at h
  · cases h
  · obtain ⟨b, hb, -⟩ := Option.map_eq_some_iff.mp h
    have hlen : ((emptyAllocator minChunkSize totalSize cells records).setCell 0
        ⟨0, (emptyAllocator minChunkSize totalSize cells
          records).chunkNum⟩).len 0 = 0 := by
      rw [len_setCell, if_pos rfl]
      exact hzero
    rw [bdmAllocatorRestoreInsert] at hb
    change (if _ = 0 then none else _) = some b at hb
    rw [if_pos hlen] at hb
    cases hb

/-- What a new allocator is. -/
theorem create_of_some {minChunkSize totalSize : Nat}
    {cells : Nat → BdmChunkIndex} {records : Nat → BdmChunkMeta}
    (h : bdmAllocatorCreate minChunkSize totalSize cells records = some a) :
    0 < minChunkSize ∧
      Joins (wholeDisk minChunkSize totalSize cells records) 0 a [] [] []
        ⟨0, totalSize / minChunkSize⟩ ∧
      Released (wholeDisk minChunkSize totalSize cells records) 0 a
        ⟨0, totalSize / minChunkSize⟩ := by
  obtain ⟨b, hb, hmin, hj, hr⟩ := create_spec (create_pos h) cells records
  rw [h] at hb
  cases hb
  exact ⟨hmin, hj, hr⟩

theorem coalesced_create {minChunkSize totalSize : Nat}
    {cells : Nat → BdmChunkIndex} {records : Nat → BdmChunkMeta}
    (hj : Joins (wholeDisk minChunkSize totalSize cells records) 0 a [] [] []
      ⟨0, totalSize / minChunkSize⟩) : Coalesced a := by
  intro x hx y hy hxy
  rw [show a.root.toList = [0] from hj.root, List.mem_singleton] at hx hy
  rw [hx, hy, hj.cell_new.2] at hxy
  have := hj.pos
  omega

/-- **COALESCING**: in every run in which no free passes over the area before
    its chunk no two areas touch; an allocation succeeds when enough chunks in
    a row are free, and only then; and when nothing is held the whole disk can
    be allocated at once. -/
theorem reachable_coalesced (minChunkSize totalSize : Nat)
    (cells : Nat → BdmChunkIndex) (records : Nat → BdmChunkMeta)
    (hcreate : bdmAllocatorCreate minChunkSize totalSize cells records = some a)
    (ops : List Op) (hg : Along step FreesMeetPrev ⟨a, []⟩ ops)
    (hrun : runFrom step ⟨a, []⟩ ops = some s) :
    (∀ c ∈ s.alloc.root.toList, ∀ d ∈ s.alloc.root.toList,
      c + s.alloc.len c ≠ d) ∧
    (∀ bucketId bucketOffset length, 0 < length →
      ((∃ x, bdmAllocatorAllocChunk s.alloc bucketId bucketOffset
        (length * minChunkSize) = .done x) ↔
      ∃ start, start + length ≤ totalSize / minChunkSize ∧
        ∀ u, start ≤ u → u < start + length →
          ∀ k ∈ s.live, ¬ k.seg.Has u)) ∧
    (s.live = [] → ∀ bucketId bucketOffset,
      ∃ x, bdmAllocatorAllocChunk s.alloc bucketId bucketOffset
        (totalSize / minChunkSize * minChunkSize) = .done x) := by
  have hnum := create_pos hcreate
  obtain ⟨hmin, hj, -⟩ := create_of_some hcreate
  obtain ⟨hs, hco, hm⟩ : Sound (totalSize / minChunkSize) s ∧
      Coalesced s.alloc ∧ s.alloc.minChunkSize = minChunkSize := by
    refine runFrom_invariant_along (G := FreesMeetPrev) (I := fun s =>
      Sound (totalSize / minChunkSize) s ∧ Coalesced s.alloc ∧
        s.alloc.minChunkSize = minChunkSize) ?_ ops _ s
      ⟨sound_create hmin hj, coalesced_create hj, hj.minChunkSize⟩ hg hrun
    rintro s op s' ⟨hs, hco, hm⟩ hG hstep
    refine ⟨sound_of_step hs hstep, coalesced_of_step hs hco ?_ hstep,
      (effect_sizes (effect_of_step hs hstep)).2.trans hm⟩
    rintro chunkSize chunkId rfl
    exact hG
  have halloc (bucketId bucketOffset length : Nat) (hpos : 0 < length) :
      (∃ x, bdmAllocatorAllocChunk s.alloc bucketId bucketOffset
        (length * minChunkSize) = .done x) ↔
      ∃ start, start + length ≤ totalSize / minChunkSize ∧
        ∀ u, start ≤ u → u < start + length →
          ∀ k ∈ s.live, ¬ k.seg.Has u := by
    rw [← hm, allocChunk_done hs.areas hs.minPos hpos, hm]
    constructor
    · rintro ⟨c, hc, hle⟩
      have hcell := hs.areas.cell c hc
      have hin : s.alloc.seg c ∈ s.segs :=
        List.mem_append_left _ (List.mem_map_of_mem hc)
      have hend := hs.tiles.le hin hcell.pos
      rw [hcell.seg_eq] at hend
      change c + s.alloc.len c ≤ _ at hend
      refine ⟨c, by omega, fun u hu hu' k hk hhas => ?_⟩
      have hcross := (List.pairwise_append.mp hs.tiles.apart).2.2 _
        (List.mem_map_of_mem hc) _ (List.mem_map_of_mem hk)
      rw [hcell.seg_eq] at hcross
      refine hcross u ⟨⟨hu, ?_⟩, hhas⟩
      show u < c + s.alloc.len c
      omega
    · rintro ⟨start, hle, hfree⟩
      exact hs.area_of_free hco hpos hle hfree
  refine ⟨hco, halloc, fun hlive bucketId bucketOffset => ?_⟩
  refine (halloc bucketId bucketOffset _ hnum).mpr ⟨0, by omega, ?_⟩
  intro u _ _ k hk
  rw [hlive] at hk
  exact absurd hk List.not_mem_nil

/-- The condition, evaluated. -/
def freesMeetPrev (s : Sys) : Op → Bool
  | .alloc _ _ _ => true
  | .free _ chunkId =>
      match descend (insertTurn s.alloc chunkId) s.alloc.root [] with
      | (.leaf, _) => true
      | (.node _ _ d _, _) => chunkId + s.alloc.len chunkId ≠ d ||
          s.alloc.root.toList.all fun e => e + s.alloc.len e ≠ chunkId

theorem freesMeetPrev_of_eval (s : Sys) (op : Op)
    (h : freesMeetPrev s op = true) : FreesMeetPrev s op := by
  cases op with
  | alloc bucketId bucketOffset chunkSize => trivial
  | free chunkSize chunkId =>
      intro color l d r p hw hd e he
      rw [freesMeetPrev, hw] at h
      dsimp only at h
      rcases (Bool.or_eq_true _ _).mp h with h | h
      · exact absurd hd (of_decide_eq_true h)
      · exact of_decide_eq_true (List.all_eq_true.mp h e he)

/-- Three chunks at the beginning of a disk of eight. -/
def threeChunks : List Op :=
  [.alloc 7 0 2, .alloc 8 1 2, .alloc 9 2 2]

theorem reachable_coalesced_eight :
    ∃ a s, bdmAllocatorCreate 1 8 noCells noRecords = some a ∧
      runFrom step ⟨a, []⟩ (threeChunks ++ [.free 2 4, .free 2 2, .free 2 0]) =
        some s ∧
      ∃ x, bdmAllocatorAllocChunk s.alloc 0 0 (8 / 1 * 1) = .done x := by
  have hrun : ((bdmAllocatorCreate 1 8 noCells noRecords).bind fun a =>
      if alongB step freesMeetPrev ⟨a, []⟩
          (threeChunks ++ [.free 2 4, .free 2 2, .free 2 0]) then
        runFrom step ⟨a, []⟩ (threeChunks ++ [.free 2 4, .free 2 2, .free 2 0])
      else none).any (fun s => s.live = []) = true := by
    decide +kernel
  obtain ⟨s, hs, hlive⟩ := (Option.any_eq_true _ _).mp hrun
  obtain ⟨a, ha, hs⟩ := Option.bind_eq_some_iff.mp hs
  split at hs
  next hg =>
    have halong := along_of_alongB freesMeetPrev_of_eval _ _ hg
    exact ⟨a, s, ha, hs, (reachable_coalesced 1 8 noCells noRecords ha _ halong
      hs).2.2 (of_decide_eq_true hlive) 0 0⟩
  · exact nomatch hs

/-- The chunk in the middle is freed last, and the area after it is met first:
    nothing is held, and the disk cannot be allocated at once. -/
theorem freed_disk_divided : ¬ ∀ (ops : List Op) (a : BdmAllocatorRealize)
    (s : Sys), bdmAllocatorCreate 1 8 noCells noRecords = some a →
      runFrom step ⟨a, []⟩ ops = some s → s.live = [] →
      ∃ x, bdmAllocatorAllocChunk s.alloc 0 0 8 = .done x := by
  intro h
  have hrun : ((bdmAllocatorCreate 1 8 noCells noRecords).bind fun a =>
      runFrom step ⟨a, []⟩
        (threeChunks ++ [.free 2 0, .free 2 4, .free 2 2])).any (fun s =>
          s.live.isEmpty && match bdmAllocatorAllocChunk s.alloc 0 0 8 with
            | .done _ => false
            | _ => true) = true := by
    decide +kernel
  obtain ⟨s, hs, hend⟩ := (Option.any_eq_true _ _).mp hrun
  obtain ⟨a, ha, hs⟩ := Option.bind_eq_some_iff.mp hs
  obtain ⟨hlive, hno⟩ := (Bool.and_eq_true_iff.mp hend)
  obtain ⟨x, hx⟩ := h _ a s ha hs (List.isEmpty_iff.mp hlive)
  rw [hx] at hno
  exact nomatch hno

end UbsIo.Bdm
