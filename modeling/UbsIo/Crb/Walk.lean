import UbsIo.Crb.Records

/-! # The walk over the buckets

    The task comes to the entries of its partition in the order of the slots,
    once each, and stops at the first that it cannot send.  `Sending` is what
    it has at hand between two entries. -/

namespace UbsIo.Crb

open UbsIo.Lib UbsIo.Cache UbsIo.Message

/-- The entries of a partition among those at some addresses. -/
def partitionAmong (m : Mem) (pt : Nat) (as : List Addr) : List IndexValue :=
  (as.filterMap fun a => m.index.lookup a).filter fun v => v.ptId = pt

/-- The entries of a partition, in the order of the slots. -/
def partitionOf (L : Layout) (m : Mem) (pt : Nat) : List IndexValue :=
  partitionAmong m pt ((entriesOf L m).getD [])

variable {c : Config} {t : Task} {L : Layout} {m : Mem} {v : IndexValue}
  {s : Sender} {chains : SlotId → List Addr} {α β σ : Type}

/-- What one message has room for. -/
def messageRoom : Nat := crbRecoverMessageBuffLen - ioDataRequestLen

/-- An entry as the cache has it. -/
structure Sound (L : Layout) (m : Mem) (v : IndexValue) : Prop where
  filled : Filled L m v
  short : v.key.length < maxKeySize

/-- The message at hand has the records of these entries. -/
def Holding (t : Task) (s : Sender) (box : List IndexValue) : Prop :=
  ∃ rs, Filling s rs ∧ List.Forall₂ (Shows t.behind t.mem) box rs ∧
    recordsLen rs = boxLen needLen box

/-- A message that has been sent has the records of these entries. -/
def Carries (c : Config) (t : Task) (msg : Bytes) (box : List IndexValue) :
    Prop :=
  ∃ rs, Message c msg rs ∧ List.Forall₂ (Shows t.behind t.mem) box rs

/-! ## Loops in a row -/

theorem untilError_append {body : α → σ → Option (BResult × σ)} :
    ∀ (l l' : List α) (s : σ), untilError body (l ++ l') s =
      (untilError body l s).bind fun r =>
        if r.1 = .ok then untilError body l' r.2 else some r := by
  intro l
  induction l with
  | nil => exact fun _ _ => rfl
  | cons a l ih =>
      intro l' s
      rw [List.cons_append, untilError, untilError]
      cases hbody : body a s with
      | none => rfl
      | some r =>
          obtain ⟨ret, s'⟩ := r
          cases ret with
          | ok => exact ih l' s'
          | _ => rfl

/-- A loop whose turns are loops is one loop. -/
theorem untilError_flatMap {body : α → σ → Option (BResult × σ)}
    {inner : β → σ → Option (BResult × σ)} {items : α → List β} :
    ∀ (l : List α), (∀ a ∈ l, ∀ s, body a s = untilError inner (items a) s) →
      ∀ s, untilError body l s = untilError inner (l.flatMap items) s := by
  intro l
  induction l with
  | nil => exact fun _ _ => rfl
  | cons a l ih =>
      intro hbody s
      have hrest := ih fun b hb => hbody b (List.mem_cons_of_mem _ hb)
      rw [List.flatMap_cons, untilError_append, untilError,
        hbody a (List.mem_cons_self ..)]
      cases untilError inner (items a) s with
      | none => rfl
      | some r =>
          obtain ⟨ret, s'⟩ := r
          cases ret with
          | ok => exact hrest s'
          | _ => rfl

/-! ## The order of the entries -/

theorem partitionAmong_append (pt : Nat) (as as' : List Addr) :
    partitionAmong m pt (as ++ as') =
      partitionAmong m pt as ++ partitionAmong m pt as' := by
  rw [partitionAmong, List.filterMap_append, List.filter_append]
  rfl

theorem partitionAmong_flatMap (pt : Nat) (f : α → List Addr) :
    ∀ l : List α, partitionAmong m pt (l.flatMap f) =
      l.flatMap fun a => partitionAmong m pt (f a) := by
  intro l
  induction l with
  | nil => rfl
  | cons a l ih =>
      rw [List.flatMap_cons, partitionAmong_append, ih, List.flatMap_cons]

theorem partitionOf_eq (h : Chains L m chains) (pt : Nat) :
    partitionOf L m pt = partitionAmong m pt (L.slotIds.flatMap chains) := by
  rw [partitionOf, entriesOf_eq h]
  rfl

/-- The inner loop of a bucket goes through the partition's entries of the
    chain. -/
theorem processChain_eq : ∀ (l : List Addr) {p : NodePtr} {n : IndexNode}
    {fuel : Nat}, t.mem.readNode p = some n → Threads (nodes t.mem) n l →
    l.length < fuel → ∀ s, processChain c t fuel p s =
      untilError (processIndexValue c t)
        (partitionAmong t.mem t.taskPtId l) s := by
  intro l
  induction l with
  | nil =>
      intro p n fuel hread ht hfuel s
      obtain ⟨fuel, rfl⟩ := Nat.exists_eq_succ_of_ne_zero (Nat.ne_of_gt hfuel)
      rw [threads_nil_iff] at ht
      simp [processChain, hread, ht, partitionAmong, untilError]
  | cons a l ih =>
      intro p n fuel hread ht hfuel s
      obtain ⟨fuel, rfl⟩ := Nat.exists_eq_succ_of_ne_zero
        (Nat.ne_of_gt (Nat.zero_lt_of_lt hfuel))
      obtain ⟨hvalid, rfl, v, hv, -, ht⟩ := threads_cons_iff.mp ht
      have hnext : t.mem.readNode (.next n.indexValueAddr) = some v.next := by
        simp [Mem.readNode, hv]
      have hrest := ih hnext ht (Nat.lt_of_succ_lt_succ hfuel)
      have hfirst : partitionAmong t.mem t.taskPtId (n.indexValueAddr :: l) =
          (if v.ptId = t.taskPtId then [v] else []) ++
            partitionAmong t.mem t.taskPtId l := by
        rw [← List.singleton_append, partitionAmong_append]
        by_cases hpt : v.ptId = t.taskPtId
        · simp [partitionAmong, hv, hpt]
        · simp [partitionAmong, hv, hpt]
      rw [hfirst, processChain]
      simp only [hread, hv, hvalid, Option.bind_eq_bind, Option.bind_some,
        if_true]
      by_cases hpt : v.ptId = t.taskPtId
      · rw [if_neg (fun hne => hne hpt), if_pos hpt, List.singleton_append,
          untilError]
        cases processIndexValue c t v s with
        | none => rfl
        | some r =>
            obtain ⟨ret, s'⟩ := r
            cases ret with
            | ok => exact hrest s'
            | _ => rfl
      · rw [if_pos hpt, if_neg hpt, List.nil_append, hrest]

/-- The buckets of all shards are numbered one after another. -/
theorem map_getBucketAddr : ∀ (shards : List Nat) (base : Nat),
    (List.range shards.sum).map (getBucketAddr shards base) =
      ((List.range shards.length).flatMap fun shard =>
        (List.range (shards.getD shard 1)).map fun bucket =>
          (base + shard, bucket)).map some := by
  intro shards
  induction shards with
  | nil => exact fun _ => rfl
  | cons n shards ih =>
      intro base
      have hhere : (List.range n).map (getBucketAddr (n :: shards) base) =
          ((List.range n).map fun bucket => (base, bucket)).map some := by
        rw [List.map_map]
        refine List.map_congr_left ?_
        intro i hi
        rw [getBucketAddr, if_pos (List.mem_range.mp hi)]
        rfl
      have hlater : ∀ i, getBucketAddr (n :: shards) base (n + i) =
          getBucketAddr shards (base + 1) i := by
        intro i
        rw [getBucketAddr, if_neg (by omega), Nat.add_sub_cancel_left]
      have hshift : ∀ i, base + 1 + i = base + (i + 1) := by
        intro i
        omega
      have htail : ((List.range shards.sum).map (n + ·)).map
          (getBucketAddr (n :: shards) base) =
          (List.range shards.sum).map (getBucketAddr shards (base + 1)) := by
        rw [List.map_map]
        exact List.map_congr_left fun i _ => hlater i
      rw [List.sum_cons, List.range_add, List.map_append, hhere, htail,
        ih (base + 1), List.length_cons, List.range_succ_eq_map,
        List.flatMap_cons, List.map_append, List.flatMap_map]
      simp only [List.getD_cons_zero, List.getD_cons_succ, Nat.add_zero,
        Nat.succ_eq_add_one, hshift]

/-- The entries of the partition in the slots of one bucket. -/
def bucketPart (m : Mem) (pt : Nat) (chains : SlotId → List Addr) :
    Option (Nat × Nat) → List IndexValue
  | none => []
  | some (shard, bucket) =>
      (List.range bucketInlineSlotNum).flatMap fun slot =>
        partitionAmong m pt (chains ⟨shard, bucket, slot⟩)

theorem processBucket_eq (h : Chains t.layout t.mem chains) {i : Nat}
    {place : Nat × Nat} (hplace : getBucketAddr t.layout.shards 0 i = some place)
    (s : Sender) :
    processBucket c t i s = untilError (processIndexValue c t)
      (bucketPart t.mem t.taskPtId chains (some place)) s := by
  obtain ⟨shard, bucket⟩ := place
  rw [processBucket, hplace]
  refine untilError_flatMap _ ?_ s
  intro slot _ s
  exact processChain_eq _ rfl (h.threads _)
    (Nat.lt_succ_of_le (h.length_le _)) s

theorem flatMap_bucketPart (L : Layout) (pt : Nat) :
    (List.range L.shards.sum).flatMap
        (fun i => bucketPart m pt chains (getBucketAddr L.shards 0 i)) =
      partitionAmong m pt (L.slotIds.flatMap chains) := by
  have hmap := map_getBucketAddr L.shards 0
  have hleft : (List.range L.shards.sum).flatMap
      (fun i => bucketPart m pt chains (getBucketAddr L.shards 0 i)) =
      ((List.range L.shards.sum).map (getBucketAddr L.shards 0)).flatMap
        (bucketPart m pt chains) := by
    rw [List.flatMap_map]
  rw [hleft, hmap, List.flatMap_map, Layout.slotIds]
  simp only [List.flatMap_assoc, List.flatMap_map, partitionAmong_flatMap,
    bucketPart, Nat.zero_add]

/-- **THE WALK**: a task that is left alone comes to the entries of its
    partition in the order of the slots. -/
theorem backGroundRecoverTask_eq (h : Chains t.layout t.mem chains)
    (hregistered : ∀ i, t.registered i = true) (raw : Bytes) :
    backGroundRecoverTask c t raw = (do
      let buff ← writeAt raw 0 (headBytes t)
      let (ret, s) ← untilError (processIndexValue c t)
        (partitionOf t.layout t.mem t.taskPtId) ⟨buff, ioDataRequestLen, 0, []⟩
      if ret ≠ .ok then some s.sent
      else
        let buff ← closeMessage c s crbPtRecoverFinishFlag
        some (s.sent ++ [buff.take s.buffOffset])) := by
  have hturn : ∀ i ∈ List.range t.layout.shards.sum, ∀ s : Sender,
      (if t.registered i then processBucket c t i s else some (.err, s)) =
        untilError (processIndexValue c t)
          (bucketPart t.mem t.taskPtId chains
            (getBucketAddr t.layout.shards 0 i)) s := by
    intro i hi s
    have hmem := List.mem_map_of_mem (f := getBucketAddr t.layout.shards 0) hi
    rw [map_getBucketAddr] at hmem
    obtain ⟨place, -, hplace⟩ := List.mem_map.mp hmem
    rw [if_pos (hregistered i), ← hplace, processBucket_eq h hplace.symm]
  rw [backGroundRecoverTask, partitionOf_eq h, ← flatMap_bucketPart]
  refine congrArg _ (funext fun buff => ?_)
  rw [untilError_flatMap _ hturn]

/-! ## One entry after another -/

variable {box : List IndexValue}

theorem sized_of_shows {behind : Bytes → Bytes} {rs : List Record}
    (h : List.Forall₂ (Shows behind m) box rs) : ∀ r ∈ rs, r.Sized .put := by
  induction h with
  | nil =>
      intro r hr
      cases hr
  | cons hshows _ ih =>
      intro r hr
      rcases List.mem_cons.mp hr with rfl | hr
      · exact hshows.sized
      · exact ih r hr

/-- An entry with room is added to the records at hand. -/
theorem Filling.encode {rs : List Record} (h : Filling s rs)
    (hv : Sound t.layout t.mem v)
    (hroom : recordsLen rs + needLen v ≤ messageRoom) :
    ∃ buff offset r, encodeKeyValueToBuff t s.msgBuff s.buffOffset v =
        some (.ok, buff, offset) ∧
      Shows t.behind t.mem v r ∧ recordsLen [r] = needLen v ∧
      Filling
        { s with
          msgBuff := buff
          buffOffset := offset
          curItemNum := s.curItemNum + 1 } (rs ++ [r]) := by
  obtain ⟨head, rest, hbuff, hhead⟩ := h.buff
  have hoff : (head ++ rs.flatMap Record.image).length = s.buffOffset := by
    rw [List.length_append, hhead, h.offset]
    rfl
  have hfit : (head ++ rs.flatMap Record.image).length + needLen v ≤
      crbRecoverMessageBuffLen := by
    rw [hoff, h.offset]
    unfold messageRoom at hroom
    unfold crbRecoverMessageBuffLen ioDataRequestLen at *
    omega
  have hwhole := h.length
  rw [hbuff] at hwhole
  obtain ⟨r, rest', hr, himage, hrest, hcall⟩ :=
    encodeKeyValueToBuff_eq hv.filled hv.short hwhole hfit
  have himages : (rs ++ [r]).flatMap Record.image =
      rs.flatMap Record.image ++ r.image := by
    rw [List.flatMap_append, List.flatMap_singleton]
  have hone : recordsLen [r] = needLen v := by
    rw [recordsLen, List.flatMap_singleton, himage]
  rw [hoff, ← hbuff] at hcall
  refine ⟨_, _, r, hcall, hr, hone, ⟨head, rest', ?_, hhead⟩, ?_, ?_, ?_⟩
  · show head ++ rs.flatMap Record.image ++ r.image ++ rest' = _
    rw [himages]
    simp only [List.append_assoc]
  · rw [List.length_append] at hwhole
    show (head ++ rs.flatMap Record.image ++ r.image ++ rest').length = _
    rw [List.length_append, List.length_append, himage]
    omega
  · show s.buffOffset + needLen v = _
    rw [h.offset, recordsLen_append, hone, Nat.add_assoc]
  · show s.curItemNum + 1 = _
    rw [h.curItemNum, List.length_append, List.length_singleton]

/-- The records at hand become a message. -/
theorem Filling.close {rs : List Record} (c : Config) (h : Filling s rs)
    (hsized : ∀ r ∈ rs, r.Sized .put) (ptv : Nat) :
    ∃ buff, closeMessage c s ptv = some buff ∧
      Message c (buff.take s.buffOffset) rs ∧
      ∀ sent, Filling ⟨buff, ioDataRequestLen, 0, sent⟩ [] := by
  obtain ⟨buff, hcall, hlen, hmsg⟩ := closeMessage_eq c h hsized ptv
  refine ⟨buff, hcall, hmsg, fun sent => ?_⟩
  obtain ⟨head, rest, rfl, hhead⟩ := exists_split
    (show ioDataRequestLen ≤ buff.length by rw [hlen]; decide)
  refine ⟨⟨head, rest, ?_, hhead⟩, hlen, rfl, rfl⟩
  rw [List.flatMap_nil, List.append_nil]

theorem Holding.encode (h : Holding t s box)
    (hv : Sound t.layout t.mem v)
    (hroom : boxLen needLen box + needLen v ≤ messageRoom) :
    ∃ buff offset, encodeKeyValueToBuff t s.msgBuff s.buffOffset v =
        some (.ok, buff, offset) ∧
      Holding t
        { s with
          msgBuff := buff
          buffOffset := offset
          curItemNum := s.curItemNum + 1 } (box ++ [v]) := by
  obtain ⟨rs, hfilling, hshows, hlen⟩ := h
  obtain ⟨buff, offset, r, hcall, hr, hone, hfilling'⟩ :=
    hfilling.encode hv (by rw [hlen]; exact hroom)
  refine ⟨buff, offset, hcall, rs ++ [r], hfilling',
    List.rel_append hshows (List.Forall₂.cons hr List.Forall₂.nil), ?_⟩
  rw [recordsLen_append, hone, hlen, boxLen_append, boxLen_singleton]

theorem Holding.close (c : Config) (h : Holding t s box) (ptv : Nat) :
    ∃ buff, closeMessage c s ptv = some buff ∧
      Carries c t (buff.take s.buffOffset) box ∧ ∀ sent,
      Holding t ⟨buff, ioDataRequestLen, 0, sent⟩ [] := by
  obtain ⟨rs, hfilling, hshows, -⟩ := h
  obtain ⟨buff, hcall, hmsg, hempty⟩ :=
    hfilling.close c (sized_of_shows hshows) ptv
  exact ⟨buff, hcall, ⟨rs, hmsg, hshows⟩,
    fun sent => ⟨[], hempty sent, List.Forall₂.nil, rfl⟩⟩

theorem processIndexValue_large (hlarge : messageRoom < needLen v) :
    processIndexValue c t v s = some (.invalidParam, s) := by
  have hlarge' : needLen v > crbRecoverMessageBuffLen - ioDataRequestLen :=
    hlarge
  rw [processIndexValue, if_pos hlarge']

theorem processIndexValue_room (h : Holding t s box)
    (hv : Sound t.layout t.mem v)
    (hroom : boxLen needLen box + needLen v ≤ messageRoom) :
    ∃ s', processIndexValue c t v s = some (.ok, s') ∧
      Holding t s' (box ++ [v]) ∧ s'.sent = s.sent := by
  obtain ⟨buff, offset, hcall, hholding⟩ := h.encode hv hroom
  obtain ⟨rs, hfilling, -, hlen⟩ := h
  have hsmall : ¬ needLen v > crbRecoverMessageBuffLen - ioDataRequestLen := by
    unfold messageRoom at hroom
    omega
  have hstays : ¬ needLen v > crbRecoverMessageBuffLen - s.buffOffset := by
    rw [hfilling.offset, hlen]
    unfold messageRoom at hroom
    omega
  refine ⟨_, ?_, hholding, rfl⟩
  rw [processIndexValue, if_neg hsmall, if_neg hstays]
  simp [hcall]

/-- An entry without room begins the next message. -/
theorem processIndexValue_over (h : Holding t s box)
    (hsend : ∀ msg, t.send msg = .ok) (hv : Sound t.layout t.mem v)
    (hsmall : needLen v ≤ messageRoom)
    (hover : messageRoom < boxLen needLen box + needLen v) :
    ∃ s' msg, processIndexValue c t v s = some (.ok, s') ∧
      Holding t s' [v] ∧ s'.sent = s.sent ++ [msg] ∧
      Carries c t msg box := by
  obtain ⟨buff, hclose, hcarries, hempty⟩ := h.close c 0
  obtain ⟨rs, hfilling, -, hlen⟩ := h
  obtain ⟨buff', offset, hcall, hholding⟩ :=
    (hempty (s.sent ++ [buff.take s.buffOffset])).encode hv
      (by rw [boxLen_nil, Nat.zero_add]; exact hsmall)
  have hle := hfilling.le
  have hsmall' : ¬ needLen v > crbRecoverMessageBuffLen - ioDataRequestLen :=
    Nat.not_lt.mpr hsmall
  have hfull : needLen v > crbRecoverMessageBuffLen - s.buffOffset := by
    rw [hfilling.offset, hlen] at hle ⊢
    unfold messageRoom at hover
    omega
  refine ⟨_, _, ?_, hholding, rfl, hcarries⟩
  rw [processIndexValue, if_neg hsmall', if_pos hfull]
  simp [hclose, hsend, hcall]

/-- **ALL ENTRIES**: they go into messages as they fit, or one of them is too
    large and those before it are what has been sent. -/
theorem processAll_spec (hsend : ∀ msg, t.send msg = .ok) :
    ∀ (vs : List IndexValue) {s : Sender} {box : List IndexValue}
      {boxes : List (List IndexValue)}, Holding t s box →
      List.Forall₂ (Carries c t) s.sent boxes →
      (∀ v ∈ vs, Sound t.layout t.mem v) →
      ∃ ret s', untilError (processIndexValue c t) vs s = some (ret, s') ∧
        ((∀ v ∈ vs, needLen v ≤ messageRoom) ∧ ret = .ok ∧
            (∃ boxes' box', Holding t s' box' ∧
              List.Forall₂ (Carries c t) s'.sent (boxes ++ boxes') ∧
              boxes' ++ [box'] = packFrom needLen messageRoom box vs) ∨
          (∃ v ∈ vs, messageRoom < needLen v) ∧ ret ≠ .ok ∧
            ∃ boxes', List.Forall₂ (Carries c t) s'.sent (boxes ++ boxes') ∧
              boxes'.flatten.length < box.length + vs.length) := by
  intro vs
  induction vs with
  | nil =>
      intro s box boxes h hsent _
      refine ⟨.ok, s, rfl, Or.inl ⟨?_, rfl, [], box, h, ?_, rfl⟩⟩
      · intro v hv
        cases hv
      · rw [List.append_nil]
        exact hsent
  | cons v vs ih =>
      intro s box boxes h hsent hsound
      have hv := hsound v (List.mem_cons_self ..)
      have hvs := fun x hx => hsound x (List.mem_cons_of_mem _ hx)
      by_cases hlarge : messageRoom < needLen v
      · refine ⟨.invalidParam, s, ?_, Or.inr
          ⟨⟨v, List.mem_cons_self .., hlarge⟩, by decide, [], ?_, ?_⟩⟩
        · rw [untilError, processIndexValue_large hlarge]
          rfl
        · rw [List.append_nil]
          exact hsent
        · rw [List.flatten_nil, List.length_cons]
          exact Nat.lt_of_lt_of_le (Nat.succ_pos _) (Nat.le_add_left ..)
      have hsmall := Nat.not_lt.mp hlarge
      by_cases hover : messageRoom < boxLen needLen box + needLen v
      · obtain ⟨s₁, msg, hcall, hholding, hsent₁, hcarries⟩ :=
          processIndexValue_over h hsend hv hsmall hover
        have hboxes : List.Forall₂ (Carries c t) s₁.sent (boxes ++ [box]) := by
          rw [hsent₁]
          exact List.rel_append hsent
            (List.Forall₂.cons hcarries List.Forall₂.nil)
        obtain ⟨ret, s', hrun, hcases⟩ := ih hholding hboxes hvs
        refine ⟨ret, s', by rw [untilError, hcall]; exact hrun, ?_⟩
        rcases hcases with ⟨hall, hret, boxes', box', hend, hsent', hpack⟩ |
          ⟨⟨x, hx, hxlarge⟩, hret, boxes', hsent', hfew⟩
        · refine Or.inl ⟨List.forall_mem_cons.mpr ⟨hsmall, hall⟩, hret,
            box :: boxes', box', hend, ?_, ?_⟩
          · rw [List.append_assoc] at hsent'
            exact hsent'
          · rw [packFrom, if_pos hover, ← hpack]
            rfl
        · refine Or.inr ⟨⟨x, List.mem_cons_of_mem _ hx, hxlarge⟩, hret,
            box :: boxes', ?_, ?_⟩
          · rw [List.append_assoc] at hsent'
            exact hsent'
          · rw [List.length_singleton] at hfew
            rw [List.flatten_cons, List.length_append, List.length_cons]
            omega
      · obtain ⟨s₁, hcall, hholding, hsent₁⟩ :=
          processIndexValue_room h hv (Nat.not_lt.mp hover)
        obtain ⟨ret, s', hrun, hcases⟩ := ih hholding (hsent₁ ▸ hsent) hvs
        refine ⟨ret, s', by rw [untilError, hcall]; exact hrun, ?_⟩
        rcases hcases with ⟨hall, hret, boxes', box', hend, hsent', hpack⟩ |
          ⟨⟨x, hx, hxlarge⟩, hret, boxes', hsent', hfew⟩
        · refine Or.inl ⟨List.forall_mem_cons.mpr ⟨hsmall, hall⟩, hret,
            boxes', box', hend, hsent', ?_⟩
          rw [packFrom, if_neg hover, hpack]
        · refine Or.inr ⟨⟨x, List.mem_cons_of_mem _ hx, hxlarge⟩, hret,
            boxes', hsent', ?_⟩
          rw [List.length_append, List.length_singleton] at hfew
          rw [List.length_cons]
          omega

end UbsIo.Crb
