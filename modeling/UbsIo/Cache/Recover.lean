import UbsIo.Cache.Refine

/-! # A recovering cache

    While a cache is recovering, `Delete` marks an entry instead of taking it
    out, and leaves a mark for a key it does not know.  `ClearDeletedData`
    later takes out what is marked. -/

namespace UbsIo.Cache

open UbsIo.Lib

variable {L : Layout} {m m' : Mem} {c : SlotId → List Addr} {g : Grants}
  {a b : Addr} {v : IndexValue} {k : Key}

/-! ## Delete -/

/-- The tombstone for a key that was not there. -/
theorem insertTombEntry_cases (h : Inv L m c) (g : Grants)
    (version : UInt32)
    (hno : ∀ x u, m.index.lookup x = some u → u.key ≠ k.bytes) :
    (indexGrant m g = none ∧
      insertTombEntry L m g k version = some (.allocFail, m)) ∨
    ∃ m' ptId, insertTombEntry L m g k version = some (.ok, m') ∧
      (∃ c', Inv L m' c') ∧ m'.mIsRecovering = m.mIsRecovering ∧
      contents L m' = Function.update (contents L m) k
        (some ⟨[], version, true, ptId⟩) := by
  cases hg : g.index with
  | none =>
      refine Or.inl ⟨?_, ?_⟩
      · simp [indexGrant, hg]
      · simp [insertTombEntry, Mem.allocIndex, hg]
  | some p =>
      obtain ⟨a, raw⟩ := p
      by_cases ha : a ∈ m.index
      · refine Or.inl ⟨?_, ?_⟩
        · simp [indexGrant, hg, Option.filter, ha]
        · simp [insertTombEntry, Mem.allocIndex, hg, ha]
      · right
        obtain ⟨u, hu⟩ : ∃ u : IndexValue, u =
            { raw with
              totalDataLen := 0
              version
              isDelete := true
              blockOffset := none
              key := k.bytes
              next := m.slots (homeOf L k.bytes) } := ⟨_, rfl⟩
        obtain ⟨m', hm⟩ : ∃ m' : Mem, m' =
            { m with
              slots := Function.update m.slots (homeOf L k.bytes)
                ⟨hashKey k.bytes, true, a⟩
              index := m.index.insert a u } := ⟨_, rfl⟩
        have hblock : u.blockOffset = none := by rw [hu]
        have hself : m'.index.lookup a = some u := by
          rw [hm]
          exact AList.lookup_insert _
        have hnew : blockAt m' a = none :=
          (blockAt_eq_some hself).trans hblock
        have hold : blockAt m a = none := by
          simp [blockAt, lookup_of_notMem ha]
        have ht : Touches m m' a := by
          refine ⟨?_, ?_, ?_⟩
          · intro x _ _
            rw [hm]
          · intro x hx
            rw [hnew] at hx
            cases hx
          · intro x hx
            rw [hold] at hx
            cases hx
        have hholds : Holds L m' u := by
          simp only [Holds, hblock]
          rw [hu]
          exact ⟨rfl, rfl⟩
        obtain ⟨hinv, hcon⟩ := h.link ha (by rw [hu]) hno (by rw [hu])
          (by rw [hm]) (by rw [hm]) ht hholds
        have hkey := copyIndexKey_eq (L := L) (a := a) k
          (m := { m with
            index := m.index.insert a
              { raw with
                totalDataLen := 0
                version
                isDelete := true
                blockOffset := none } })
          (AList.lookup_insert _)
        simp only [AList.insert_insert] at hkey
        refine ⟨m', u.ptId, ?_, hinv, by rw [hm], ?_⟩
        · rw [hm, hu]
          simp [insertTombEntry, Mem.allocIndex, hg, ha, Mem.modifyIndex,
            hkey, insertPutIndexValue, Mem.writeNode, AList.insert_insert,
            homeOf]
        · have hentry : entryOf m' u = ⟨[], version, true, u.ptId⟩ := by
            simp only [entryOf, blockData, hblock, List.take_nil]
            rw [hu]
          rw [hcon, hentry]

/-- `Delete` of a recovering cache: afterwards the key has a tombstone, with
    the bytes it had. -/
theorem delete_recovering_cases (h : Inv L m c) (g : Grants) (k : Key)
    (version : UInt32) (hrec : m.mIsRecovering = true) :
    (∃ e m', contents L m k = some e ∧
      delete L m g k version = some ({ ret := .ok }, m') ∧
      (∃ c', Inv L m' c') ∧ m'.mIsRecovering = m.mIsRecovering ∧
      contents L m' = Function.update (contents L m) k
        (some { e with isDelete := true, version })) ∨
    (contents L m k = none ∧
      (indexGrant m g = none ∧
        delete L m g k version = some ({ ret := .allocFail }, m) ∨
      ∃ m' ptId, delete L m g k version =
          some ({ ret := .keyNotExists }, m') ∧
        (∃ c', Inv L m' c') ∧ m'.mIsRecovering = m.mIsRecovering ∧
        contents L m' = Function.update (contents L m) k
          (some ⟨[], version, true, ptId⟩))) := by
  rcases h.chains.cases k with
    ⟨hno, hfind, hcon⟩ | ⟨a, u, pre, post, n, hl, hk, hc, hfind, hn, rfl, hcon⟩
  · refine Or.inr ⟨hcon, ?_⟩
    rcases insertTombEntry_cases h g version hno with
      ⟨hgrant, hcall⟩ | ⟨m', ptId, hcall, hinv, hrec', hnew⟩
    · refine Or.inl ⟨hgrant, ?_⟩
      simp [delete, hfind, handleDeleteMissingNode, hrec, hcall]
    · refine Or.inr ⟨m', ptId, ?_, hinv, hrec', hnew⟩
      simp [delete, hfind, handleDeleteMissingNode, hrec, hcall]
  · left
    obtain ⟨m', hm⟩ : ∃ m' : Mem, m' =
        { m with
          index := m.index.insert n.indexValueAddr
            { u with isDelete := true, version } } := ⟨_, rfl⟩
    have hindex : m'.index = m.index.insert n.indexValueAddr
        { u with isDelete := true, version } := by rw [hm]
    have hvalue : m'.value = m.value := by rw [hm]
    have hself : m'.index.lookup n.indexValueAddr =
        some { u with isDelete := true, version } := by
      rw [hindex, AList.lookup_insert]
    have ht : Touches m m' n.indexValueAddr :=
      touches_stay hl hself rfl fun x _ => by rw [hvalue]
    have hholds : Holds L m' { u with isDelete := true, version } := by
      have hheld := h.blocks.own _ u hl
      cases hb : u.blockOffset with
      | none =>
          simp only [Holds, hb] at hheld ⊢
          exact ⟨hheld.1, trivial⟩
      | some x =>
          simp only [Holds, hb] at hheld ⊢
          rw [hvalue]
          exact hheld
    have hkey : ({ u with isDelete := true, version } : IndexValue).key =
        u.key := rfl
    have hnext : ({ u with isDelete := true, version } : IndexValue).next =
        u.next := rfl
    obtain ⟨hinv, hnew⟩ := h.modify hl hk hkey hnext (by rw [hm]) hindex ht
      hholds
    refine ⟨entryOf m u, m', hcon, ?_, ⟨c, hinv⟩, by rw [hm], ?_⟩
    · rw [hm]
      simp [delete, hfind, handleDeleteExistingNode, hn, hl, hrec,
        Mem.modifyIndex]
    · rw [hnew]
      simp [entryOf, blockData, hvalue]

/-! ## ClearDeletedData -/

/-- The contents without the tombstones of some slots. -/
def clearSlots (L : Layout) (slots : List SlotId)
    (f : Key → Option Entry) (k : Key) : Option Entry :=
  if homeOf L k.bytes ∈ slots then (f k).filter (fun e => !e.isDelete)
  else f k

theorem clearSlots_update {i : SlotId} {f : Key → Option Entry} {e : Entry}
    (hk : homeOf L k.bytes = i) (he : f k = some e)
    (hdel : e.isDelete = true) :
    clearSlots L [i] (Function.update f k none) = clearSlots L [i] f := by
  funext j
  by_cases hj : j = k
  · subst hj
    simp [clearSlots, hk, he, Option.filter, hdel]
  · simp [clearSlots, Function.update_of_ne hj]

/-- The loop over one chain, from the node behind `pre` on, where no entry is a
    tombstone before it. -/
theorem clearChain_eq {i : SlotId} : ∀ (post pre : List Addr) {m : Mem}
    {c : SlotId → List Addr} {f : Nat}, Inv L m c →
    c i = pre ++ post → post.length < f →
    (∀ x ∈ pre, ∀ u, m.index.lookup x = some u → u.isDelete = false) →
    ∃ m', clearChain m f (ptrAfter (.slot i) pre) = some m' ∧
      (∃ c', Inv L m' c') ∧ m'.mIsRecovering = m.mIsRecovering ∧
      contents L m' = clearSlots L [i] (contents L m) := by
  intro post
  induction post with
  | nil =>
      intro pre m c f h hc hf halive
      rw [List.append_nil] at hc
      obtain ⟨f, rfl⟩ := Nat.exists_eq_succ_of_ne_zero (Nat.ne_of_gt hf)
      have hthr := h.chains.threads i
      rw [hc, ← List.append_nil pre] at hthr
      obtain ⟨n, hn, ht⟩ := threads_append hthr
      rw [← readNode_ptrAfter] at hn
      rw [threads_nil_iff] at ht
      refine ⟨m, by simp [clearChain, hn, ht], ⟨c, h⟩, rfl, ?_⟩
      funext k
      unfold clearSlots
      split
      · rename_i hk
        rw [List.mem_singleton] at hk
        rcases h.chains.cases k with
          ⟨-, -, hcon⟩ | ⟨a, u, -, -, -, hl, hku, -, -, -, -, hcon⟩
        · rw [hcon]
          rfl
        · have hmem := h.chains.mem a u hl
          rw [hku, hk, hc] at hmem
          have hdel : (entryOf m u).isDelete = false := halive a hmem u hl
          rw [hcon]
          simp [Option.filter, hdel]
      · rfl
  | cons a post ih =>
      intro pre m c f h hc hf halive
      obtain ⟨f, rfl⟩ := Nat.exists_eq_succ_of_ne_zero
        (Nat.ne_of_gt (Nat.zero_lt_of_lt hf))
      have hthr := h.chains.threads i
      rw [hc] at hthr
      obtain ⟨n, hn, ht⟩ := threads_append hthr
      rw [← readNode_ptrAfter] at hn
      obtain ⟨hvalid, rfl, u, hl, -, -⟩ := threads_cons_iff.mp ht
      have hmem : n.indexValueAddr ∈ c i := by
        rw [hc]
        simp
      have hhome : homeOf L u.key = i := by
        obtain ⟨w, hw, hi⟩ := h.chains.home i _ hmem
        cases hl.symm.trans hw
        exact hi
      obtain ⟨k, hk⟩ := h.chains.isKey _ u hl
      cases hdel : u.isDelete with
      | true =>
          -- the entry goes, and the same node is looked at again
          have hc' := hc
          rw [← hhome, hk] at hc'
          obtain ⟨m₁, hcall, hinv, hcon, hrec, hagree⟩ := h.remove hl hk hc'
          rw [← hk, hhome] at hcall hinv
          have hnd := h.chains.nodup i
          rw [hc] at hnd
          have halive₁ : ∀ x ∈ pre, ∀ w, m₁.index.lookup x = some w →
              w.isDelete = false := by
            intro x hx w hw
            have hxa : x ≠ n.indexValueAddr := by
              rintro rfl
              exact (List.nodup_append.mp hnd).2.2 _ hx _
                (List.mem_cons_self ..) rfl
            obtain ⟨z, hz, hs⟩ := hagree.lookup hxa hw
            have hzw : z.isDelete = w.isDelete := congrArg (·.isDelete) hs
            exact hzw.symm.trans (halive x hx z hz)
          obtain ⟨m', hrun, hinv', hrec', hcon'⟩ := ih pre hinv
            (Function.update_self ..) (Nat.lt_of_succ_lt_succ hf) halive₁
          refine ⟨m', ?_, hinv', hrec'.trans hrec, ?_⟩
          · simp [clearChain, hn, hvalid, hl, hdel, hcall, hrun]
          · have hold : contents L m k = some (entryOf m u) :=
              h.chains.contents_some hl hk
            have hk' : homeOf L k.bytes = i := by rw [← hk, hhome]
            rw [hcon', hcon]
            exact clearSlots_update hk' hold hdel
      | false =>
          have hptr : ptrAfter (.slot i) (pre ++ [n.indexValueAddr]) =
              .next n.indexValueAddr := by simp [ptrAfter]
          have hc' : c i = (pre ++ [n.indexValueAddr]) ++ post := by
            rw [hc]
            simp
          have halive' : ∀ x ∈ pre ++ [n.indexValueAddr], ∀ w,
              m.index.lookup x = some w → w.isDelete = false := by
            intro x hx w hw
            rcases List.mem_append.mp hx with hx | hx
            · exact halive x hx w hw
            · rw [List.mem_singleton] at hx
              subst hx
              cases hl.symm.trans hw
              exact hdel
          obtain ⟨m', hrun, hrest⟩ := ih _ h hc' (Nat.lt_of_succ_lt_succ hf)
            halive'
          rw [hptr] at hrun
          refine ⟨m', ?_, hrest⟩
          simp [clearChain, hn, hvalid, hl, hdel, hrun]

theorem clearSlots_cons (f : Key → Option Entry) (i : SlotId)
    (slots : List SlotId) :
    clearSlots L slots (clearSlots L [i] f) = clearSlots L (i :: slots) f := by
  funext k
  by_cases hi : homeOf L k.bytes = i
  · by_cases hs : homeOf L k.bytes ∈ slots
    · simp [clearSlots, hi ▸ hs, hi]
    · simp [clearSlots, hi ▸ hs, hi]
  · by_cases hs : homeOf L k.bytes ∈ slots
    · simp [clearSlots, hs, hi]
    · simp [clearSlots, hs, hi]

/-- The loop over the slots. -/
theorem clearSlots_run : ∀ (slots : List SlotId) {m : Mem}
    {c : SlotId → List Addr}, Inv L m c →
    ∃ m', slots.foldlM
        (fun m i => clearChain m (m.index.keys.length + 1) (.slot i)) m =
        some m' ∧
      (∃ c', Inv L m' c') ∧ m'.mIsRecovering = m.mIsRecovering ∧
      contents L m' = clearSlots L slots (contents L m) := by
  intro slots
  induction slots with
  | nil =>
      intro m c h
      refine ⟨m, rfl, ⟨c, h⟩, rfl, ?_⟩
      funext k
      simp [clearSlots]
  | cons i slots ih =>
      intro m c h
      obtain ⟨m₁, hcall, ⟨c₁, h₁⟩, hrec₁, hcon₁⟩ := clearChain_eq (L := L)
        (c i) [] h rfl (Nat.lt_succ_of_le (h.chains.length_le i))
        (by simp)
      obtain ⟨m', hrun, hinv, hrec, hcon⟩ := ih h₁
      refine ⟨m', ?_, hinv, hrec.trans hrec₁, ?_⟩
      · rw [List.foldlM_cons]
        simp only [ptrAfter, List.getLast?_nil] at hcall
        rw [hcall]
        exact hrun
      · rw [hcon, hcon₁, clearSlots_cons]

/-- **CLEAR**: `ClearDeletedData` takes out the tombstones and nothing
    else. -/
theorem clearDeletedData_eq (h : Inv L m c) :
    ∃ m', clearDeletedData L m = some m' ∧ (∃ c', Inv L m' c') ∧
      m'.mIsRecovering = m.mIsRecovering ∧
      ∀ k, contents L m' k =
        (contents L m k).filter (fun e => !e.isDelete) := by
  obtain ⟨m', hrun, hinv, hrec, hcon⟩ := clearSlots_run L.slotIds h
  refine ⟨m', hrun, hinv, hrec, fun k => ?_⟩
  rw [hcon, clearSlots, homeOf, if_pos (slotOf_mem L _)]

/-! ## SetRecoverStatus -/

theorem Inv.setRecoverStatus (h : Inv L m c) (isRecovering : Bool) :
    Inv L (setRecoverStatus m isRecovering) c :=
  ⟨⟨h.chains.threads, h.chains.nodup, h.chains.home, h.chains.mem,
    h.chains.once, h.chains.isKey⟩, h.blocks.own, h.blocks.inj, h.blocks.used⟩

theorem Inv.contents_setRecoverStatus (h : Inv L m c) (isRecovering : Bool) :
    contents L (Cache.setRecoverStatus m isRecovering) = contents L m := by
  funext k
  have h' := h.setRecoverStatus isRecovering
  rcases h.chains.cases k with
    ⟨hno, -, hcon⟩ | ⟨a, u, -, -, -, hl, hk, -, -, -, -, hcon⟩
  · rw [hcon]
    exact h'.chains.contents_none hno
  · rw [hcon]
    exact h'.chains.contents_some hl hk

end UbsIo.Cache
