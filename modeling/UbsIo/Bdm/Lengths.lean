import UbsIo.Bdm.Check

/-! # The length field

    A record keeps the length of a chunk in 21 bits.  On a disk of fewer than
    `2 ^ 21` units every record decodes to the length of its cell, a disk on
    which nothing is held is restored as one area, and the check accepts every
    range of a held chunk; on a larger disk the first record that is written,
    that of the whole disk, is already wrong. -/

namespace UbsIo.Bdm

open UbsIo.Lib

variable {a a' : BdmAllocatorRealize} {records disk : Nat → BdmChunkMeta}
  {c n pos : Nat} {s s' : Sys} {live : List Chunk}

/-! ## What the records decode to -/

theorem metaOf_length {bucketId bucketOffset length : Nat} {isFree : Bool}
    (h : length < 2 ^ 21) :
    (metaOf bucketId bucketOffset length isFree).length = length :=
  Nat.mod_eq_of_lt h

/-- The records a call writes decode to the lengths of their cells. -/
def Decodes (a : BdmAllocatorRealize) (ws : List (Nat × BdmChunkMeta)) : Prop :=
  ∀ w ∈ ws, w.2.length = a.len w.1

theorem Takes.decodes {lower upper rest : List Nat}
    {length bucketId bucketOffset : Nat}
    (h : Takes a c a' lower upper rest length bucketId bucketOffset)
    (hlen : a.len c < 2 ^ 21) :
    Decodes a' (takenWrites a c rest length bucketId bucketOffset) := by
  have hle : length ≤ a.len c := by
    rcases h.rest_cases with ⟨-, h⟩ | ⟨-, h⟩
    · exact h.ge
    · exact h.le
  intro w hw
  rw [takenWrites] at hw
  rcases List.mem_append.mp hw with hw | hw
  · obtain ⟨d, hd, rfl⟩ := List.mem_map.mp hw
    have hcell : a'.len d = a.len c - length :=
      congrArg BdmChunkIndex.length (h.remainder d hd)
    rw [hcell]
    exact metaOf_length (by omega)
  · rw [List.mem_singleton.mp hw]
    have hcell : a'.len c = length := congrArg BdmChunkIndex.length h.chunk
    rw [hcell]
    exact metaOf_length (by omega)

theorem Released.decodes {lower gone upper : List Nat} {new : Seg}
    (hj : Joins a c a' lower gone upper new) (hr : Released a c a' new)
    (hc : Fresh a c) (hnew : new.length < 2 ^ 21) :
    ∃ ws, a'.writes = a.writes ++ ws ∧ Decodes a' ws := by
  obtain ⟨first, second, hfirst, hsame, hsec, hw⟩ := hr
  have hhas := hj.has (s := ⟨a, []⟩) hc.cell
  change new.start ≤ c ∧ c + a.len c ≤ _ at hhas
  -- the cell of the chunk is that of the new area, or as it was
  have hself : a'.len c < 2 ^ 21 := by
    by_cases hstart : c = new.start
    · rw [hstart, hj.cell_new.2]
      exact hnew
    · have hkeep : a'.len c = a.len c :=
        congrArg BdmChunkIndex.length (hj.chunkList_ne hstart)
      omega
  refine ⟨_, hw, fun w hmem => ?_⟩
  rcases List.mem_cons.mp hmem with rfl | hmem
  · show (metaOf 0 0 first.length true).length = a'.len first.start
    rcases hfirst with rfl | rfl
    · rw [hj.cell_new.2]
      exact metaOf_length hnew
    · have hstart : (a.seg c).start = c := by
        rw [hc.cell.seg_eq]
      rw [hstart, hsame hstart]
      exact metaOf_length hself
  · rcases hsec with rfl | rfl
    · exact absurd hmem List.not_mem_nil
    · rw [List.mem_singleton.mp hmem]
      exact metaOf_length hself

theorem decodes_of_step (h : Sound n s) (hbits : n < 2 ^ 21) {op : Op}
    (hs : step s op = some s') :
    ∃ ws, s'.alloc.writes = s.alloc.writes ++ ws ∧ Decodes s'.alloc ws := by
  cases effect_of_step h hs with
  | refused => exact ⟨[], (List.append_nil _).symm, fun w hw =>
      absurd hw List.not_mem_nil⟩
  | @alloc bucketId bucketOffset chunkSize c a lower upper rest _ _ ht =>
      have hle := h.area_le ht.mem
      refine ⟨takenWrites s.alloc c rest (chunkSize / s.alloc.minChunkSize)
        bucketId bucketOffset, ?_, ht.decodes (by omega)⟩
      show a.writes = _
      rw [ht.writes, takenWrites, List.append_assoc]
  | @free chunkSize k a lower gone upper new hk _ hj hr =>
      have hle := h.joins_le hk hj
      obtain ⟨ws, hw, hdec⟩ := hr.decodes hj (h.fresh hk) (by omega)
      exact ⟨ws, hw, hdec⟩

/-! ## Restoring a disk on which nothing is held -/

theorem Coalesced.setCell (h : Coalesced a) (hc : c ∉ a.root.toList)
    (x : BdmChunkIndex) : Coalesced (a.setCell c x) := by
  intro d hd e he
  rw [len_setCell, if_neg fun hdc : d = c => hc (hdc ▸ hd)]
  exact h d hd e he

theorem coalesced_restoreFrom :
    ∀ (ps : List Nat) (fuel : Nat) (a : BdmAllocatorRealize)
      (live : List Chunk) (pos : Nat) (r : BdmAllocatorRealize),
      Chain (fun x => (disk x).length) pos ps n →
      Sound pos ⟨a, live⟩ → Coalesced a → a.chunkNum = n →
      (∀ x, pos ≤ x → a.metaAddr x = disk x) →
      restoreFrom fuel a pos = some r → Coalesced r := by
  intro ps
  induction ps with
  | nil =>
      intro fuel a live pos r hchain _ hco hnum _ hr
      cases hchain
      cases fuel with
      | zero => cases hr
      | succ fuel =>
          rw [restoreFrom, if_pos (le_of_eq hnum)] at hr
          exact Option.some.inj hr ▸ hco
  | cons pos ps ih =>
      intro fuel a live start r hchain hsound hco hnum hmeta hr
      cases hchain with
      | cons hpos htail =>
      cases fuel with
      | zero => cases hr
      | succ fuel =>
          have hend := chain_le htail
          have hset := hsound.setCell ⟨pos, (disk pos).length⟩
          have hself : (a.setCell pos ⟨pos, (disk pos).length⟩).chunkList pos =
              ⟨pos, (disk pos).length⟩ := Function.update_self pos _ _
          have hout : pos ∉ a.root.toList := by
            intro hmem
            have := hsound.below.1 pos hmem
            have := (hsound.areas.cell pos hmem).pos
            change 0 < a.len pos at this
            omega
          have hco' := hco.setCell hout ⟨pos, (disk pos).length⟩
          rw [restoreFrom, if_neg (by rw [hnum]; omega)] at hr
          dsimp only at hr
          rw [hmeta pos (le_refl _)] at hr
          split at hr
          · cases hr
          split at hr
          · obtain ⟨b, hins, hb, hbn, -, hrec⟩ :=
              sound_restoreInsert hset hpos hself
            rw [hins, Option.bind_some] at hr
            have hcell : Cell (a.setCell pos ⟨pos, (disk pos).length⟩) pos := by
              refine ⟨congrArg BdmChunkIndex.index hself, ?_⟩
              rw [len_setCell, if_pos rfl]
              exact hpos
            have hfresh : Fresh (a.setCell pos ⟨pos, (disk pos).length⟩) pos :=
              ⟨hcell, fun d hd => Or.inr (hset.below.1 d hd)⟩
            -- every area ends at the position or before it
            have hmeet : MeetsPrev (a.setCell pos ⟨pos, (disk pos).length⟩)
                pos := by
              intro color l d t p hw hd
              obtain ⟨-, hmem, -⟩ := fresh_neighbour hset.areas hfresh hw
              have := hset.below.1 d hmem
              have := hcell.pos
              omega
            have hbc := coalesced_restoreInsert hset.areas hfresh hco' hmeet
              hins
            refine ih fuel b live _ r htail hb hbc (hbn.trans hnum) ?_ hr
            intro x hx
            have hne : x ≠ pos := by
              change 0 < (disk pos).length at hpos
              omega
            have hkeep : b.metaAddr x = a.metaAddr x := by
              rcases hrec with hrec | hrec
              · rw [hrec]
                rfl
              · rw [hrec, Function.update_of_ne hne]
                rfl
            rw [hkeep]
            exact hmeta x (by omega)
          · exact ih fuel _ _ _ r htail
              (sound_restoreHeld (k := chunkAt disk pos) hset rfl hpos hself)
              hco' hnum (fun x hx => hmeta x (by omega)) hr

/-- Areas that tile the disk and do not touch are one. -/
theorem Sound.areas_eq (h : Sound n ⟨a, []⟩) (hco : Coalesced a)
    (hpos : 0 < n) : a.areas = [⟨0, n⟩] := by
  obtain ⟨c, hc, hle⟩ := h.area_of_free hco hpos (Nat.zero_add n).le
    fun u _ _ k hk => absurd hk List.not_mem_nil
  change c ∈ a.root.toList at hc
  change n ≤ a.len c at hle
  have hend := h.area_le hc
  change c + a.len c ≤ n at hend
  have hother (d : Nat) (hd : d ∈ a.root.toList)
      (happ : d + a.len d ≤ c ∨ c + a.len c ≤ d) : False := by
    have hdpos := (h.areas.cell d hd).pos
    have hdend := h.area_le hd
    change 0 < a.len d at hdpos
    change d + a.len d ≤ n at hdend
    omega
  obtain ⟨lower, upper, hlist⟩ := List.append_of_mem hc
  have haround := h.areas.around hlist
  have hlower : lower = [] := by
    refine List.eq_nil_iff_forall_not_mem.mpr fun d hd => ?_
    exact hother d (by rw [hlist]; simp [hd]) (.inl (haround.1 d hd))
  have hupper : upper = [] := by
    refine List.eq_nil_iff_forall_not_mem.mpr fun d hd => ?_
    exact hother d (by rw [hlist]; simp [hd]) (.inr (haround.2 d hd))
  rw [BdmAllocatorRealize.areas, hlist, hlower, hupper]
  show [a.seg c] = _
  rw [(h.areas.cell c hc).seg_eq, show c = 0 by omega,
    show a.len 0 = n by
      obtain rfl : c = 0 := by omega
      omega]

theorem restore_empty {minChunkSize totalSize : Nat} (hmin : 0 < minChunkSize)
    (hn : totalSize / minChunkSize = n) (hpos : 0 < n) (hbits : n < 2 ^ 21)
    {ps : List Nat} (h : Records n [] disk ps) (cells : Nat → BdmChunkIndex) :
    ∃ r, bdmAllocatorRestore minChunkSize totalSize cells disk = some r ∧
      r.areas = [⟨0, n⟩] ∧ r.usedSize = 0 := by
  obtain ⟨r, live, hr, hperm, -, hs, -⟩ :=
    restore_spec hmin hn hbits List.nodup_nil ⟨ps, h⟩ cells
  rw [List.perm_nil.mp hperm] at hs
  refine ⟨r, hr, hs.areas_eq ?_ hpos, hs.used⟩
  rw [bdmAllocatorRestore, if_neg hmin.ne'] at hr
  refine coalesced_restoreFrom ps _ _ [] 0 r h.chain (sound_empty hmin _ _ _)
    ?_ hn (fun _ _ => rfl) hr
  exact fun c hc => absurd hc List.not_mem_nil

/-! ## Runs -/

/-- The record of the whole disk is the first one. -/
theorem create_writes {minChunkSize totalSize : Nat}
    {cells : Nat → BdmChunkIndex}
    (hcreate : bdmAllocatorCreate minChunkSize totalSize cells records =
      some a) :
    (0, metaOf 0 0 (totalSize / minChunkSize) true) ∈ a.writes ∧
      a.len 0 = totalSize / minChunkSize := by
  obtain ⟨-, hj, first, second, hfirst, -, -, hw⟩ := create_of_some hcreate
  obtain ⟨hfresh, hlen⟩ := fresh_wholeDisk (create_pos hcreate) cells records
  have hwhole : first = ⟨0, totalSize / minChunkSize⟩ := by
    rcases hfirst with rfl | rfl
    · rfl
    · rw [hfresh.cell.seg_eq, hlen]
  refine ⟨?_, hj.cell_new.2⟩
  rw [hw, hwhole]
  exact List.mem_append_right _ (List.mem_cons_self ..)

/-- **LENGTHS**: if and only if the disk has fewer than `2 ^ 21` units, every
    record that a creation or a call writes decodes to the length of its cell,
    a disk on which nothing is held is restored as one free area, and the
    check accepts every range of a held chunk, in every run. -/
theorem reachable_lengths (minChunkSize totalSize : Nat)
    (hsize : totalSize < 2 ^ 64) (cells : Nat → BdmChunkIndex)
    (records disk : Nat → BdmChunkMeta)
    (hcreate : bdmAllocatorCreate minChunkSize totalSize cells records =
      some a) :
    ((∀ w ∈ a.writes, w.2.length = a.len w.1) ∧
      ∀ (ops : List Op) (s : Sys), runFrom step ⟨a, []⟩ ops = some s →
        (∀ op s', step s op = some s' →
          ∃ ws, s'.alloc.writes = s.alloc.writes ++ ws ∧
            ∀ w ∈ ws, w.2.length = s'.alloc.len w.1) ∧
        (s.live = [] → ∀ cells', ∃ r,
          bdmAllocatorRestore minChunkSize totalSize cells'
            (applyWrites disk s.alloc.writes) = some r ∧
          r.areas = [⟨0, totalSize / minChunkSize⟩] ∧ r.usedSize = 0) ∧
        (∀ k ∈ s.live, ∀ offset length,
          offset + length ≤ k.length * minChunkSize →
          bdmAllocatorCheckChunk s.alloc k.id offset length = .ok)) ↔
    totalSize / minChunkSize < 2 ^ 21 := by
  have hnum := create_pos hcreate
  obtain ⟨hmin, hj, hr⟩ := create_of_some hcreate
  constructor
  · rintro ⟨hall, -⟩
    obtain ⟨hmem, hlen⟩ := create_writes hcreate
    have hdec := hall _ hmem
    change totalSize / minChunkSize % 2 ^ 21 = a.len 0 at hdec
    rw [hlen] at hdec
    rw [← hdec]
    exact Nat.mod_lt _ (by decide)
  intro hbits
  have hfresh := (fresh_wholeDisk hnum cells records).1
  refine ⟨?_, fun ops s hrun => ?_⟩
  · obtain ⟨ws, hw, hdec⟩ := hr.decodes hj hfresh hbits
    rw [show (wholeDisk minChunkSize totalSize cells records).writes = []
      from rfl, List.nil_append] at hw
    exact hw ▸ hdec
  have hreach := reached_of_run hcreate hrun
  obtain ⟨ps, hd⟩ : ∃ ps, Durable (totalSize / minChunkSize) s
      (applyWrites disk s.alloc.writes) ps := by
    refine (runFrom_invariant (I := fun s =>
      Sound (totalSize / minChunkSize) s ∧
      ∃ ps, Durable (totalSize / minChunkSize) s
        (applyWrites disk s.alloc.writes) ps) ?_
      ⟨sound_create hmin hj, _, durable_create hnum hbits hj hr disk⟩ hrun).2
    rintro s op s' ⟨hs, ps, hd⟩ hstep
    have heff := effect_of_step hs hstep
    obtain ⟨vs, hvs, -, hdur⟩ := effect_crash hs hd hbits heff
    refine ⟨sound_of_effect hs heff, ?_⟩
    rw [hvs, applyWrites_append]
    exact hdur
  refine ⟨fun op s' hstep => decodes_of_step hreach.sound hbits hstep,
    fun hlive cells' => ?_, fun k hk offset length hle => ?_⟩
  · have hrec := hd.records
    rw [hlive] at hrec
    exact restore_empty hmin rfl hnum hbits hrec cells'
  · obtain ⟨hend, htotal⟩ := hreach.size_le hk
    rw [hreach.checkChunk_live hk, Nat.mod_eq_of_lt (by omega : k.length < _),
      Nat.mod_eq_of_lt (by omega : offset + length < _),
      Nat.mod_eq_of_lt (by omega : k.length * minChunkSize < _)]
    exact hle

theorem reachable_lengths_eight : 8 < 2 ^ 64 ∧
    ∃ a, bdmAllocatorCreate 1 8 noCells noRecords = some a ∧
      ∀ ops s, runFrom step ⟨a, []⟩ ops = some s → s.live = [] →
        ∃ r, bdmAllocatorRestore 1 8 noCells
            (applyWrites noRecords s.alloc.writes) = some r ∧
          r.areas = [⟨0, 8 / 1⟩] := by
  obtain ⟨a, ha, -⟩ := create_spec (by decide : 1 ≤ 8 / 1) noCells noRecords
  have hall := ((reachable_lengths 1 8 (by decide) noCells noRecords noRecords
    ha).mpr (by decide)).2
  refine ⟨by decide, a, ha, fun ops s hrun hlive => ?_⟩
  obtain ⟨r, hr, hareas, -⟩ := (hall ops s hrun).2.1 hlive noCells
  exact ⟨r, hr, hareas⟩

/-- The first record of a disk of `2 ^ 21` units decodes to the length 0. -/
theorem whole_disk_truncated : ¬ ∀ (minChunkSize totalSize : Nat)
    (a : BdmAllocatorRealize),
    bdmAllocatorCreate minChunkSize totalSize noCells noRecords = some a →
    ∀ w ∈ a.writes, w.2.length = a.len w.1 := by
  intro h
  obtain ⟨a, ha, -⟩ :=
    create_spec (by decide : 1 ≤ 2 ^ 21 / 1) noCells noRecords
  obtain ⟨hmem, hlen⟩ := create_writes ha
  have hdec := h 1 (2 ^ 21) a ha _ hmem
  rw [hlen] at hdec
  exact absurd hdec (by decide)

end UbsIo.Bdm
