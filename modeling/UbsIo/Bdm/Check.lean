import UbsIo.Bdm.Scan

/-! # The range check

    `BdmAllocatorCheckChunk` reads the record at a chunk id.  A record that has
    been written tells exactly whether the chunk is held; one that has never
    been written holds what the memory held, and the sum of offset and length
    wraps around. -/

namespace UbsIo.Bdm

open UbsIo.Lib

/-- The codes of the check. -/
inductive BdmCode where
  | ok | invalidChunkId | crossBound
deriving DecidableEq, Repr

/-- `BdmAllocatorCheckChunk`; the sum and the product are of 64 bits. -/
def bdmAllocatorCheckChunk (a : BdmAllocatorRealize)
    (chunkId offset length : Nat) : BdmCode :=
  if chunkId ≥ a.chunkNum then .invalidChunkId
  else
    let m := a.metaAddr chunkId
    if m.head = false ∨ m.free = true then .invalidChunkId
    else if (offset + length) % 2 ^ 64 >
        (m.length * a.minChunkSize) % 2 ^ 64 then .crossBound
    else .ok

variable {a a' : BdmAllocatorRealize} {records : Nat → BdmChunkMeta}
  {c n : Nat} {s s' : Sys}

/-! ## Writes -/

theorem applyWrites_of_not_mem {d : Nat → BdmChunkMeta} {x : Nat} :
    ∀ {ws : List (Nat × BdmChunkMeta)}, x ∉ ws.map Prod.fst →
      applyWrites d ws x = d x := by
  intro ws
  induction ws generalizing d with
  | nil => exact fun _ => rfl
  | cons w ws ih =>
      intro hx
      rw [List.map_cons, List.mem_cons, not_or] at hx
      rw [show applyWrites d (w :: ws) =
        applyWrites (Function.update d w.1 w.2) ws from rfl, ih hx.2,
        Function.update_of_ne hx.1]

theorem applyWrites_free {d : Nat → BdmChunkMeta} {x : Nat} :
    ∀ {ws : List (Nat × BdmChunkMeta)}, (∀ w ∈ ws, w.2.free = true) →
      ((d x).free = true ∨ x ∈ ws.map Prod.fst) →
      (applyWrites d ws x).free = true := by
  intro ws
  induction ws generalizing d with
  | nil => exact fun _ h => h.resolve_right List.not_mem_nil
  | cons w ws ih =>
      intro hw hx
      rw [show applyWrites d (w :: ws) =
        applyWrites (Function.update d w.1 w.2) ws from rfl]
      refine ih (fun v hv => hw v (List.mem_cons_of_mem _ hv)) ?_
      by_cases hxw : x = w.1
      · left
        rw [hxw, Function.update_self]
        exact hw w (List.mem_cons_self ..)
      · rw [Function.update_of_ne hxw]
        exact hx.imp_right fun h' => (List.mem_cons.mp h').resolve_left hxw

/-! ## The records of chunks -/

/-- The ids whose records have been written. -/
def Sys.written (s : Sys) : List Nat := s.alloc.writes.map Prod.fst

/-- The records that have been written tell the held chunks. -/
structure Marked (s : Sys) : Prop where
  held : ∀ k ∈ s.live, s.alloc.metaAddr k.id =
    metaOf k.bucketId k.bucketOffset k.length false
  written : ∀ k ∈ s.live, k.id ∈ s.written
  free : ∀ x ∈ s.written, (∀ k ∈ s.live, k.id ≠ x) →
    (s.alloc.metaAddr x).free = true

theorem marked_takes {lower upper rest : List Nat}
    {length bucketId bucketOffset chunkSize : Nat} (h : Sound n s)
    (hm : Marked s) (hmir : Mirrors records s.alloc)
    (hmir' : Mirrors records a')
    (ht : Takes s.alloc c a' lower upper rest length bucketId bucketOffset)
    (hpos : 0 < length) :
    Marked ⟨{ a' with usedSize := a'.usedSize + chunkSize },
      ⟨c, length, bucketId, bucketOffset⟩ :: s.live⟩ := by
  have hmeta : a'.metaAddr = Function.update (applyWrites s.alloc.metaAddr
      (rest.map fun d => (d, metaOf 0 0 (s.alloc.len c - length) true))) c
      (metaOf bucketId bucketOffset length false) := by
    rw [hmir', ht.writes, applyWrites_append, applyWrites_append, ← hmir]
    rfl
  have hrest : (rest.map fun d =>
      (d, metaOf 0 0 (s.alloc.len c - length) true)).map Prod.fst = rest := by
    rw [List.map_map]
    exact List.map_id rest
  have hne {k : Chunk} (hk : k ∈ s.live) : k.id ≠ c ∧ k.id ∉ rest := by
    have happ := (h.fresh hk).apart c ht.mem
    have hkpos := (h.fresh hk).cell.pos
    have hcpos := (h.areas.cell c ht.mem).pos
    refine ⟨by omega, fun hin => ?_⟩
    rcases ht.rest_cases with ⟨rfl, -⟩ | ⟨rfl, hlt⟩
    · exact absurd hin List.not_mem_nil
    · rw [List.mem_singleton] at hin
      omega
  have hwritten (x : Nat) (hx : x ∈ a'.writes.map Prod.fst) :
      x ∈ s.written ∨ x ∈ rest ∨ x = c := by
    rw [ht.writes, List.map_append, List.map_append, hrest] at hx
    rcases List.mem_append.mp hx with hx | hx
    · exact (List.mem_append.mp hx).imp_right .inl
    · exact .inr (.inr (List.mem_singleton.mp hx))
  refine ⟨?_, ?_, ?_⟩
  · intro k hk
    show a'.metaAddr k.id = _
    rw [hmeta]
    rcases List.mem_cons.mp hk with rfl | hk
    · rw [Function.update_self]
    · rw [Function.update_of_ne (hne hk).1, applyWrites_of_not_mem
        (hrest.symm ▸ (hne hk).2)]
      exact hm.held k hk
  · intro k hk
    show k.id ∈ a'.writes.map Prod.fst
    rw [ht.writes, List.map_append, List.map_append]
    rcases List.mem_cons.mp hk with rfl | hk
    · exact List.mem_append_right _ (List.mem_singleton_self _)
    · exact List.mem_append_left _ (List.mem_append_left _ (hm.written k hk))
  · intro x hx hlive
    show (a'.metaAddr x).free = true
    have hxc : x ≠ c := fun hxc => hlive _ (List.mem_cons_self ..) hxc.symm
    rw [hmeta, Function.update_of_ne hxc]
    refine applyWrites_free ?_ ?_
    · intro w hw
      obtain ⟨d, -, rfl⟩ := List.mem_map.mp hw
      rfl
    · rw [hrest]
      rcases hwritten x hx with hx | hx | hx
      · exact .inl (hm.free x hx fun k hk =>
          hlive k (List.mem_cons_of_mem _ hk))
      · exact .inr hx
      · exact absurd hx hxc

/-- The record of a freed chunk is written last. -/
theorem insert_record (hc : Fresh a c) (hA : Areas a)
    (hins : bdmAllocatorInsert a c = some a') :
    (a'.metaAddr c).free = true ∧ c ∈ a'.writes.map Prod.fst := by
  obtain ⟨b, lower, gone, upper, new, hb, hj, -⟩ := restoreInsert_spec hA hc
  have ha' : bdmAllocatorUpdateMeta b 0 0 c true = a' := by
    rw [bdmAllocatorInsert, hb] at hins
    exact Option.some.inj hins
  have hindex : (b.chunkList c).index = c := by
    by_cases hnew : c = new.start
    · rw [hnew]
      exact hj.cell_new.1.index
    · rw [hj.chunkList_ne hnew]
      exact hc.cell.index
  rw [← ha', updateMeta_eq (l := b.len c)
    (congrArg (BdmChunkIndex.mk · (b.len c)) hindex)]
  refine ⟨?_, ?_⟩
  · show (Function.update b.metaAddr c _ c).free = true
    rw [Function.update_self]
    rfl
  · show c ∈ (b.writes ++ [(c, _)]).map Prod.fst
    rw [List.map_append]
    exact List.mem_append_right _ (List.mem_singleton_self _)

theorem marked_joins {chunkSize : Nat} {k : Chunk} (h : Sound n s)
    (hm : Marked s) (hmir : Mirrors records s.alloc)
    (hmir' : Mirrors records a') (hk : k ∈ s.live)
    (hins : bdmAllocatorInsert s.alloc k.id = some a') :
    Marked ⟨{ a' with usedSize := a'.usedSize - chunkSize },
      s.live.filter (·.id != k.id)⟩ := by
  obtain ⟨b, lower, gone, upper, new, hb, hj, hr⟩ :=
    insert_spec h.areas (h.fresh hk)
  rw [hins] at hb
  cases hb
  obtain ⟨hself, hselfw⟩ := insert_record (h.fresh hk) h.areas hins
  obtain ⟨first, second, hfirst, -, hsec, hw⟩ := hr
  have hmeta : a'.metaAddr = applyWrites s.alloc.metaAddr
      ((first.start, metaOf 0 0 first.length true) :: second) := by
    rw [hmir', hw, applyWrites_append, ← hmir]
  have hws : ∀ w ∈ (first.start, metaOf 0 0 first.length true) :: second,
      w.2.free = true := by
    intro w hw
    rcases List.mem_cons.mp hw with rfl | hw
    · rfl
    · rcases hsec with rfl | rfl
      · exact absurd hw List.not_mem_nil
      · rw [List.mem_singleton.mp hw]
        rfl
  -- the records that are written are not those of other held chunks
  have hout {j : Chunk} (hj' : j ∈ s.live) (hne : j.id ≠ k.id) :
      j.id ∉ ((first.start, metaOf 0 0 first.length true) :: second).map
        Prod.fst := by
    have hnew : j.id ≠ new.start := by
      rintro heq
      rcases hj.starts with hst | hst
      · exact hne (heq.trans hst)
      · refine (h.fresh hj').not_mem ?_
        rw [heq, hj.old]
        exact List.mem_append_right _ (List.mem_append_left _ hst)
    have hstart : j.id ≠ first.start := by
      rcases hfirst with rfl | rfl
      · exact hnew
      · rw [(h.fresh hk).cell.seg_eq]
        exact hne
    rw [List.map_cons, List.mem_cons, not_or]
    refine ⟨hstart, ?_⟩
    rcases hsec with rfl | rfl
    · exact List.not_mem_nil
    · exact fun hin => hne (List.mem_singleton.mp hin)
  refine ⟨?_, ?_, ?_⟩
  · intro j hj'
    obtain ⟨hj', hne⟩ := mem_live_filter.mp hj'
    show a'.metaAddr j.id = _
    rw [hmeta, applyWrites_of_not_mem (hout hj' hne)]
    exact hm.held j hj'
  · intro j hj'
    obtain ⟨hj', -⟩ := mem_live_filter.mp hj'
    show j.id ∈ a'.writes.map Prod.fst
    rw [hw, List.map_append]
    exact List.mem_append_left _ (hm.written j hj')
  · intro x hx hlive
    show (a'.metaAddr x).free = true
    by_cases hxk : x = k.id
    · rw [hxk]
      exact hself
    · rw [hmeta]
      refine applyWrites_free hws ?_
      have hx' : x ∈ a'.writes.map Prod.fst := hx
      rw [hw, List.map_append] at hx'
      rcases List.mem_append.mp hx' with hx' | hx'
      · refine .inl (hm.free x hx' fun j hj' heq => ?_)
        exact hlive j (mem_live_filter.mpr ⟨hj', heq ▸ hxk⟩) heq
      · exact .inr hx'

theorem Marked.step (h : Sound n s) (hm : Marked s)
    (hmir : Mirrors records s.alloc) {op : Op} (hs : step s op = some s') :
    Marked s' := by
  have hop := allowed_of_step hs
  have hmir' := hmir.step hs
  cases op with
  | alloc bucketId bucketOffset chunkSize =>
      rcases step_alloc hs with rfl | ⟨a, id, hrem, rfl⟩
      · exact hm
      · rcases remove_spec h.areas bucketId bucketOffset chunkSize with
          hno | ⟨b, c, lower, upper, rest, hrem', hpos, ht⟩
        · rw [hrem] at hno
          exact nomatch hno
        · rw [hrem] at hrem'
          cases hrem'
          exact marked_takes h hm hmir (hmir'.of_eq rfl rfl) ht hpos
  | free chunkSize chunkId =>
      obtain ⟨k, hk, rfl⟩ := List.mem_map.mp hop
      rcases step_free hs with rfl | ⟨a, hins, rfl⟩
      · exact hm
      · exact marked_joins h hm hmir (hmir'.of_eq rfl rfl) hk hins

theorem marked_create {minChunkSize totalSize : Nat}
    {cells : Nat → BdmChunkIndex}
    (hcreate : bdmAllocatorCreate minChunkSize totalSize cells records =
      some a) : Marked ⟨a, []⟩ := by
  refine ⟨fun k hk => absurd hk List.not_mem_nil,
    fun k hk => absurd hk List.not_mem_nil, fun x hx _ => ?_⟩
  obtain ⟨-, -, first, second, hfirst, -, hsec, hw⟩ := create_of_some hcreate
  show (a.metaAddr x).free = true
  rw [mirrors_create hcreate]
  refine applyWrites_free ?_ (.inr hx)
  intro w hmem
  rw [hw] at hmem
  rcases List.mem_append.mp hmem with hmem | hmem
  · exact absurd hmem List.not_mem_nil
  · rcases List.mem_cons.mp hmem with rfl | hmem
    · rfl
    · rcases hsec with rfl | rfl
      · exact absurd hmem List.not_mem_nil
      · rw [List.mem_singleton.mp hmem]
        rfl

/-- What holds of every state an allocator reaches. -/
structure Reached (minChunkSize totalSize : Nat)
    (records : Nat → BdmChunkMeta) (s : Sys) : Prop where
  sound : Sound (totalSize / minChunkSize) s
  marked : Marked s
  mirrors : Mirrors records s.alloc
  unit : s.alloc.minChunkSize = minChunkSize
  number : s.alloc.chunkNum = totalSize / minChunkSize

theorem reached_of_run {minChunkSize totalSize : Nat}
    {cells : Nat → BdmChunkIndex} {ops : List Op}
    (hcreate : bdmAllocatorCreate minChunkSize totalSize cells records = some a)
    (hrun : runFrom step ⟨a, []⟩ ops = some s) :
    Reached minChunkSize totalSize records s := by
  obtain ⟨hmin, hj, -⟩ := create_of_some hcreate
  refine runFrom_invariant ?_ ⟨sound_create hmin hj, marked_create hcreate,
    mirrors_create hcreate, hj.minChunkSize, hj.chunkNum⟩ hrun
  intro s op s' h hstep
  have hsizes := effect_sizes (effect_of_step h.sound hstep)
  exact ⟨sound_of_step h.sound hstep, h.marked.step h.sound h.mirrors hstep,
    h.mirrors.step hstep, hsizes.2.trans h.unit,
    hsizes.1.trans h.number⟩

/-- No held chunk is larger than the disk. -/
theorem Reached.size_le {minChunkSize totalSize : Nat} {k : Chunk}
    (h : Reached minChunkSize totalSize records s) (hk : k ∈ s.live) :
    k.id + k.length ≤ totalSize / minChunkSize ∧
      k.length * minChunkSize ≤ totalSize := by
  have hend := h.sound.tiles.le
    (List.mem_append_right _ (List.mem_map_of_mem hk)) (h.sound.pos k hk)
  change k.id + k.length ≤ _ at hend
  refine ⟨hend, ?_⟩
  calc k.length * minChunkSize
      ≤ totalSize / minChunkSize * minChunkSize :=
        Nat.mul_le_mul_right _ (by omega)
    _ ≤ totalSize := Nat.div_mul_le_self _ _

/-! ## The check -/

/-- Where the check is exact: the sum does not wrap around into the chunk, the
    length of the chunk fits its field or does not matter, and a record that
    was never written does not look like one of a held chunk. -/
structure CheckFits (records : Nat → BdmChunkMeta) (s : Sys)
    (chunkId offset length : Nat) : Prop where
  sum : ∀ k ∈ s.live, k.id = chunkId → offset + length < 2 ^ 64 ∨
    k.length % 2 ^ 21 * s.alloc.minChunkSize < offset + length - 2 ^ 64
  field : ∀ k ∈ s.live, k.id = chunkId → k.length < 2 ^ 21 ∨
    offset + length ≤ k.length % 2 ^ 21 * s.alloc.minChunkSize ∨
    k.length * s.alloc.minChunkSize < offset + length
  unwritten : chunkId < s.alloc.chunkNum → chunkId ∉ s.written →
    (records chunkId).head = true → (records chunkId).free = false →
    (records chunkId).length * s.alloc.minChunkSize % 2 ^ 64 <
      (offset + length) % 2 ^ 64

theorem checkChunk_ok {chunkId offset length : Nat} :
    bdmAllocatorCheckChunk a chunkId offset length = .ok ↔
      chunkId < a.chunkNum ∧ (a.metaAddr chunkId).head = true ∧
      (a.metaAddr chunkId).free = false ∧
      (offset + length) % 2 ^ 64 ≤
        (a.metaAddr chunkId).length * a.minChunkSize % 2 ^ 64 := by
  rw [bdmAllocatorCheckChunk]
  by_cases hid : chunkId ≥ a.chunkNum
  · rw [if_pos hid]
    exact iff_of_false nofun fun h => absurd h.1 (Nat.not_lt.mpr hid)
  rw [if_neg hid]
  dsimp only
  by_cases hmeta : (a.metaAddr chunkId).head = false ∨
      (a.metaAddr chunkId).free = true
  · rw [if_pos hmeta]
    refine iff_of_false nofun ?_
    rintro ⟨-, hhead, hfree, -⟩
    rcases hmeta with hmeta | hmeta
    · exact nomatch hmeta.symm.trans hhead
    · exact nomatch hmeta.symm.trans hfree
  rw [if_neg hmeta]
  rw [not_or, Bool.not_eq_false, Bool.not_eq_true] at hmeta
  by_cases hsum : (offset + length) % 2 ^ 64 >
      (a.metaAddr chunkId).length * a.minChunkSize % 2 ^ 64
  · rw [if_pos hsum]
    exact iff_of_false nofun fun h => absurd h.2.2.2 (Nat.not_le.mpr hsum)
  · rw [if_neg hsum]
    exact iff_of_true rfl
      ⟨Nat.not_le.mp hid, hmeta.1, hmeta.2, Nat.not_lt.mp hsum⟩

/-- The check of a held chunk compares with the length its record decodes
    to. -/
theorem Reached.checkChunk_live {minChunkSize totalSize offset length : Nat}
    {k : Chunk} (h : Reached minChunkSize totalSize records s)
    (hk : k ∈ s.live) :
    bdmAllocatorCheckChunk s.alloc k.id offset length = .ok ↔
      (offset + length) % 2 ^ 64 ≤
        k.length % 2 ^ 21 * minChunkSize % 2 ^ 64 := by
  rw [checkChunk_ok, h.marked.held k hk, h.unit, h.number]
  have hend := (h.size_le hk).1
  have hpos := h.sound.pos k hk
  exact ⟨fun h => h.2.2.2, fun h => ⟨by omega, rfl, rfl, h⟩⟩

/-- The sum and the truncated length, against the chunk. -/
theorem range_iff {size minChunkSize sum : Nat}
    (hsize : size * minChunkSize < 2 ^ 64) (hmin : 0 < minChunkSize)
    (hsum : sum < 2 * 2 ^ 64) :
    (sum % 2 ^ 64 ≤ size % 2 ^ 21 * minChunkSize % 2 ^ 64 ↔
      sum ≤ size * minChunkSize) ↔
    (sum < 2 ^ 64 ∨ size % 2 ^ 21 * minChunkSize < sum - 2 ^ 64) ∧
      (size < 2 ^ 21 ∨ sum ≤ size % 2 ^ 21 * minChunkSize ∨
        size * minChunkSize < sum) := by
  have hle : size % 2 ^ 21 * minChunkSize ≤ size * minChunkSize :=
    Nat.mul_le_mul_right _ (Nat.mod_le _ _)
  rw [Nat.mod_eq_of_lt (Nat.lt_of_le_of_lt hle hsize)]
  -- a length that does not fit decodes to less
  have hfield : size < 2 ^ 21 ↔
      size % 2 ^ 21 * minChunkSize = size * minChunkSize := by
    rw [Nat.mul_left_inj (Nat.ne_of_gt hmin)]
    exact ⟨Nat.mod_eq_of_lt, fun h => h ▸ Nat.mod_lt _ (by decide)⟩
  rw [hfield]
  rcases Nat.lt_or_ge sum (2 ^ 64) with hlt | hge
  · rw [Nat.mod_eq_of_lt hlt]
    omega
  · rw [show sum % 2 ^ 64 = sum - 2 ^ 64 by omega]
    omega

/-- **RANGE CHECK**: in every state that the allocator reaches the check of a
    chunk, an offset and a length is exact if and only if the condition holds
    of them. -/
theorem reachable_check (minChunkSize totalSize : Nat)
    (hbits : totalSize < 2 ^ 64) (cells : Nat → BdmChunkIndex)
    (records : Nat → BdmChunkMeta)
    (hcreate : bdmAllocatorCreate minChunkSize totalSize cells records = some a)
    (ops : List Op) (s : Sys) (hrun : runFrom step ⟨a, []⟩ ops = some s)
    (chunkId offset length : Nat) (hoffset : offset < 2 ^ 64)
    (hlength : length < 2 ^ 64) :
    (bdmAllocatorCheckChunk s.alloc chunkId offset length = .ok ↔
      ∃ k ∈ s.live, k.id = chunkId ∧
        offset + length ≤ k.length * minChunkSize) ↔
    CheckFits records s chunkId offset length := by
  obtain ⟨hmin, -⟩ := create_of_some hcreate
  have hr := reached_of_run hcreate hrun
  have hm := hr.unit
  by_cases hlive : ∃ k ∈ s.live, k.id = chunkId
  · obtain ⟨k, hk, rfl⟩ := hlive
    obtain ⟨hend, hsize⟩ := hr.size_le hk
    have hsame {j : Chunk} (hj : j ∈ s.live) (hid : j.id = k.id) : j = k :=
      List.inj_on_of_nodup_map hr.sound.nodup hj hk hid
    have hclaim : (∃ j ∈ s.live, j.id = k.id ∧
        offset + length ≤ j.length * minChunkSize) ↔
        offset + length ≤ k.length * minChunkSize := by
      constructor
      · rintro ⟨j, hj, hid, hle⟩
        exact hsame hj hid ▸ hle
      · exact fun hle => ⟨k, hk, rfl, hle⟩
    rw [hr.checkChunk_live hk, hclaim,
      range_iff (Nat.lt_of_le_of_lt hsize hbits) hmin (by omega)]
    constructor
    · rintro ⟨hsum, hfield⟩
      refine ⟨fun j hj hid => ?_, fun j hj hid => ?_, fun _ hno => ?_⟩
      · rw [hsame hj hid, hm]
        exact hsum
      · rw [hsame hj hid, hm]
        exact hfield
      · exact absurd (hr.marked.written k hk) hno
    · intro h
      exact ⟨hm ▸ h.sum k hk rfl, hm ▸ h.field k hk rfl⟩
  · -- nothing is held there
    have hclaim : ¬ ∃ k ∈ s.live, k.id = chunkId ∧
        offset + length ≤ k.length * minChunkSize := by
      rintro ⟨k, hk, hid, -⟩
      exact hlive ⟨k, hk, hid⟩
    have hnone (k : Chunk) (hk : k ∈ s.live) (hid : k.id = chunkId) : False :=
      hlive ⟨k, hk, hid⟩
    rw [checkChunk_ok, iff_false_right hclaim]
    by_cases hwritten : chunkId ∈ s.written
    · refine iff_of_true ?_ ⟨fun k hk hid => (hnone k hk hid).elim,
        fun k hk hid => (hnone k hk hid).elim,
        fun _ hno => absurd hwritten hno⟩
      rintro ⟨-, -, hfree, -⟩
      have htrue := hr.marked.free chunkId hwritten hnone
      exact nomatch htrue.symm.trans hfree
    · have hmeta : s.alloc.metaAddr chunkId = records chunkId := by
        rw [hr.mirrors]
        exact applyWrites_of_not_mem hwritten
      rw [hmeta]
      constructor
      · intro hno
        refine ⟨fun k hk hid => (hnone k hk hid).elim,
          fun k hk hid => (hnone k hk hid).elim, fun hid _ hhead hfree => ?_⟩
        by_contra hle
        exact hno ⟨hid, hhead, hfree, Nat.not_lt.mp hle⟩
      · rintro h ⟨hid, hhead, hfree, hle⟩
        exact absurd (h.unwritten hid hwritten hhead hfree) (Nat.not_lt.mpr hle)

theorem reachable_check_eight : 8 < 2 ^ 64 ∧ 3 < 2 ^ 64 ∧ 0 < 2 ^ 64 ∧
    ∃ a s, bdmAllocatorCreate 1 8 noCells noRecords = some a ∧
      runFrom step ⟨a, []⟩ mixedOps = some s ∧
      ((bdmAllocatorCheckChunk s.alloc 0 0 3 = .ok ↔
        ∃ k ∈ s.live, k.id = 0 ∧ 0 + 3 ≤ k.length * 1) ↔
      CheckFits noRecords s 0 0 3) := by
  have hrun : ((bdmAllocatorCreate 1 8 noCells noRecords).bind fun a =>
      runFrom step ⟨a, []⟩ mixedOps).isSome = true := by
    decide +kernel
  obtain ⟨s, hs⟩ := Option.isSome_iff_exists.mp hrun
  obtain ⟨a, ha, hs⟩ := Option.bind_eq_some_iff.mp hs
  exact ⟨by decide, by decide, by decide, a, s, ha, hs,
    reachable_check 1 8 (by decide) noCells noRecords ha _ s hs 0 0 3
      (by decide) (by decide)⟩

/-- A sum that wraps around to 0 lies in every held chunk. -/
theorem check_wraps : ¬ ∀ (a : BdmAllocatorRealize) (s : Sys)
    (chunkId offset length : Nat), offset < 2 ^ 64 → length < 2 ^ 64 →
      bdmAllocatorCreate 1 8 noCells noRecords = some a →
      runFrom step ⟨a, []⟩ mixedOps = some s →
      (bdmAllocatorCheckChunk s.alloc chunkId offset length = .ok ↔
        ∃ k ∈ s.live, k.id = chunkId ∧ offset + length ≤ k.length * 1) := by
  intro h
  have hrun : ((bdmAllocatorCreate 1 8 noCells noRecords).bind fun a =>
      runFrom step ⟨a, []⟩ mixedOps).any (fun s =>
        bdmAllocatorCheckChunk s.alloc 0 (2 ^ 64 - 1) 1 = .ok ∧
        s.live = [⟨0, 2, 9, 3⟩]) = true := by
    decide +kernel
  obtain ⟨s, hs, hend⟩ := (Option.any_eq_true _ _).mp hrun
  obtain ⟨a, ha, hs⟩ := Option.bind_eq_some_iff.mp hs
  obtain ⟨hok, hlive⟩ := of_decide_eq_true hend
  obtain ⟨k, hk, -, hle⟩ :=
    (h a s 0 (2 ^ 64 - 1) 1 (by decide) (by decide) ha hs).mp hok
  rw [hlive, List.mem_singleton] at hk
  rw [hk] at hle
  exact absurd hle (by decide)

end UbsIo.Bdm
