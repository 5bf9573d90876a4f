import UbsIo.Cache.Calls
import UbsIo.Lib.Run

/-! # The cache refines a map

    Each call, from any state that is in order, does what the same call does to
    a map from keys to bytes and versions, and leaves the state in order.  A
    call that fails leaves the memory as it was. -/

namespace UbsIo.Cache

open UbsIo.Lib

variable {L : Layout} {m m' : Mem} {c : SlotId → List Addr} {g : Grants}
  {a b : Addr} {v : IndexValue} {k : Key}

/-! ## Put -/

theorem readNode_withEntry {p : NodePtr} {n : IndexNode} (ha : a ∉ m.index)
    (v : IndexValue) (d : DataBlock) (h : m.readNode p = some n) :
    (withEntry m a b v d).readNode p = some n := by
  cases p with
  | slot i => exact h
  | next x =>
      have hx : x ≠ a := by
        rintro rfl
        simp [Mem.readNode, lookup_of_notMem ha] at h
      simpa [Mem.readNode, withEntry, AList.lookup_insert_ne hx] using h

theorem freeIndexValue_withEntry {d : DataBlock} (ha : a ∉ m.index)
    (hb : b ∉ m.value) (hv : v.blockOffset = some b) :
    freeIndexValue (withEntry m a b v d) a = some m := by
  simp [freeIndexValue, withEntry, freeValueBlock, hv, Mem.freeValue,
    Mem.freeIndex, erase_insert ha, erase_insert hb]

theorem leadsTo_of_filled (h : Holds L m v) :
    LeadsTo m v.blockOffset (entryOf m v).bytes := by
  intro b hb
  obtain ⟨b', d, hb', hd, -⟩ := h.filled hb
  cases hb.symm.trans hb'
  refine ⟨d, hd, ?_⟩
  rw [length_bytes h]
  simp [entryOf, blockData, hb, hd]

/-- What `Put` does. -/
theorem put_cases (h : Inv L m c) (g : Grants) (para : PutPara)
    (hpos : 0 < para.value.length) :
    (∃ e, e.fails = true ∧ put L m g para = some ({ ret := e }, m) ∧
      Refused L m g para.value) ∨
    (contents L m para.key = none ∧ ¬ Refused L m g para.value ∧
      ∃ m' valueAddr, put L m g para = some ({ ret := .ok, valueAddr }, m') ∧
        (∃ c', Inv L m' c') ∧ m'.mIsRecovering = m.mIsRecovering ∧
        LeadsTo m' valueAddr para.value ∧
        contents L m' = Function.update (contents L m) para.key
          (some ⟨para.value, para.version, false, para.ptId⟩)) ∨
    ∃ e reply, contents L m para.key = some e ∧
      ¬ Refused L m g para.value ∧ put L m g para = some (reply, m) ∧
      (e.bytes = para.value ∧ g.scratch = true ∧ reply.ret = .putRepeat ∧
        LeadsTo m reply.valueAddr para.value ∨
      ¬ (e.bytes = para.value ∧ g.scratch = true) ∧
        reply.ret.fails = true) := by
  rcases newIndexValue_cases (L := L) m g
      (fun v =>
        { v with
          totalDataLen := 0
          version := para.version
          ptId := para.ptId
          isDelete := false
          blockOffset := none })
      para.key hpos (fun _ => rfl) with
    ⟨e, he, hcall, href⟩ | ⟨a, raw, b, data, hi, hv, hcall⟩
  · exact Or.inl ⟨e, he, by simp [put, createPutIndexValue, hcall], href⟩
  have ha := indexGrant_fresh hi
  obtain ⟨hb, -, -⟩ := valueGrant_spec hv
  have hnot : ¬ Refused L m g para.value := by
    rintro (href | href)
    · rw [hi] at href
      cases href
    · rw [hv] at href
      cases href
  right
  generalize hent : newEntry _ raw para.key b para.value = ent at hcall
  have hblock : ent.blockOffset = some b := by rw [← hent]; rfl
  have hframe := findNode_frame h.chains ha
    (withEntry m a b ent ⟨data.length, overlay data 0 para.value⟩)
    rfl rfl para.key
  rcases h.chains.cases para.key with
    ⟨hno, hfind, hcon⟩ | ⟨a', u, pre, post, n, hl, hk, hc, hfind, hn, rfl, hcon⟩
  · -- a key that is not stored
    left
    refine ⟨hcon, hnot, ?_⟩
    obtain ⟨hins, hinv, hnew⟩ := h.link_entry (u := ent) hpos hi hv hno
      (by rw [← hent]; rfl) hblock (by rw [← hent]; rfl)
    simp only [homeOf] at hins
    refine ⟨_, if para.wantAddr then some b else none, ?_, hinv, rfl, ?_, ?_⟩
    · rw [hfind] at hframe
      cases hw : para.wantAddr with
      | false =>
          simp only [put, createPutIndexValue, hcall, hframe,
            fillPutValueAddr, hw, hins, Bool.false_eq_true, if_false,
            Option.bind_eq_bind, Option.bind_some]
      | true =>
          have hla : (withEntry m a b ent
              ⟨data.length, overlay data 0 para.value⟩).index.lookup a =
              some ent := AList.lookup_insert _
          simp only [put, createPutIndexValue, hcall, hframe,
            fillPutValueAddr, hw, hla, hblock, hins, if_true,
            Option.bind_eq_bind, Option.bind_some]
    · intro x hx
      split at hx
      · cases hx
        exact ⟨_, AList.lookup_insert _, take_overlay_zero ..⟩
      · cases hx
    · rw [hnew, ← hent]
      rfl
  · -- a key that is stored: the new blocks are given back
    right
    have hread := readNode_withEntry (b := b) ha ent
      ⟨data.length, overlay data 0 para.value⟩ hn
    have hna : n.indexValueAddr ≠ a := by
      intro hna
      rw [hna] at hl
      exact ha (mem_index hl)
    have hl' : (withEntry m a b ent
        ⟨data.length, overlay data 0 para.value⟩).index.lookup
        n.indexValueAddr = some u :=
      (AList.lookup_insert_ne hna).trans hl
    have hheld := h.blocks.own _ u hl
    have hsame : ∀ x, u.blockOffset = some x → (withEntry m a b ent
        ⟨data.length, overlay data 0 para.value⟩).value.lookup x =
        m.value.lookup x := by
      intro x hx
      obtain ⟨x', d, hx', hd, -⟩ := hheld.filled hx
      cases hx.symm.trans hx'
      refine AList.lookup_insert_ne ?_
      rintro rfl
      exact hb (mem_value hd)
    have hheld' := hheld.congr rfl hsame
    have hentry := entryOf_congr (v := u) rfl hsame
    obtain ⟨reply, hreply, hcases⟩ := handlePutExistingNode_cases (g := g)
      hl' hheld' hpos
    rw [hentry] at hcases
    refine ⟨entryOf m u, reply, hcon, hnot, ?_, ?_⟩
    · rw [hfind] at hframe
      simp only [put, createPutIndexValue, hcall, hframe, hread, hreply,
        Option.bind_eq_bind, Option.bind_some,
        freeIndexValue_withEntry ha hb hblock]
    · rcases hcases with ⟨heq, hs, hrep, haddr⟩ | hfail
      · refine Or.inl ⟨heq, hs, hrep, ?_⟩
        intro x hx
        rw [← heq]
        exact leadsTo_of_filled hheld x (haddr x hx)
      · exact Or.inr hfail

/-! ## Get -/

/-- What `Get` answers for a key with these bytes. -/
theorem get_cases (h : Inv L m c) (para : GetPara) (hpos : 0 < para.length) :
    (contents L m para.key = none ∧
      get L m para = some { ret := .notExists, realLength := some 0 }) ∨
    ∃ e, contents L m para.key = some e ∧
      (e.bytes = [] ∨ para.wantAddr = true ∧
        (∃ b, get L m para = some
            { ret := .ok
              valueAddr := some b
              realLength := some e.bytes.length } ∧
          LeadsTo m (some b) e.bytes) ∨
      para.wantAddr = false ∧ e.bytes.length ≤ para.offset ∧
        get L m para = some { ret := .err } ∨
      para.wantAddr = false ∧ para.offset < e.bytes.length ∧
        get L m para = some
          { ret := .ok
            realLength :=
              some ((e.bytes.drop para.offset).take para.length).length
            data := (e.bytes.drop para.offset).take para.length }) := by
  rcases h.chains.cases para.key with
    ⟨hno, hfind, hcon⟩ | ⟨a, u, pre, post, n, hl, hk, hc, hfind, hn, rfl, hcon⟩
  · exact Or.inl ⟨hcon, by simp [get, hfind]⟩
  right
  refine ⟨entryOf m u, hcon, ?_⟩
  have hheld := h.blocks.own _ u hl
  have hlen := length_bytes hheld
  cases hb : u.blockOffset with
  | none =>
      left
      simp [entryOf, blockData, hb]
  | some b =>
      right
      have hfilled := hheld.filled hb
      cases hw : para.wantAddr with
      | true =>
          left
          obtain ⟨b', d, hb', hd, hbytes, haddr⟩ :=
            getDataAddrFromBlock_eq hfilled
          refine ⟨rfl, b', ?_, hb' ▸ leadsTo_of_filled hheld⟩
          have hne : u.totalDataLen ≠ 0 := by
            obtain ⟨-, -, -, -, -, hp, -⟩ := hfilled
            exact Nat.ne_of_gt hp
          simp [get, hfind, hn, hl, hw, haddr, hne, hlen]
      | false =>
          right
          by_cases hoff : (entryOf m u).bytes.length ≤ para.offset
          · refine Or.inl ⟨rfl, hoff, ?_⟩
            rw [hlen] at hoff
            simp [get, hfind, hn, hl, hw, hoff]
          · have hoff' := Nat.lt_of_not_le hoff
            refine Or.inr ⟨rfl, hoff', ?_⟩
            have hmax : u.totalDataLen ≤ L.memMaxLen := by
              obtain ⟨x, d, -, -, -, -, hfit, hlimit⟩ := hfilled
              exact hfit.trans hlimit
            rw [hlen] at hoff hoff'
            have hread := getDataFromBlock_eq hfilled para.offset
              (min (u.totalDataLen - para.offset) para.length) hoff'
              (by omega) (by omega)
            have hslice : ((entryOf m u).bytes.drop para.offset).take
                (min (u.totalDataLen - para.offset) para.length) =
                ((entryOf m u).bytes.drop para.offset).take para.length := by
              rw [Nat.min_comm, ← List.take_take, ← hlen,
                ← List.length_drop, List.take_length]
            rw [hslice] at hread
            have hne : (((entryOf m u).bytes.drop para.offset).take
                para.length).length ≠ 0 := by
              rw [List.length_take, List.length_drop]
              omega
            simp only [get, hfind, hn, hl, hw, hoff, hread, hne, if_false,
              Bool.false_eq_true, Option.bind_eq_bind, Option.bind_some]

/-! ## Update -/

/-- The entry of the key has no room for the data, and no larger block can be
    had. -/
def NoRoomFor (L : Layout) (m : Mem) (g : Grants) (k : Key) (offset : Nat)
    (data : Bytes) : Prop :=
  ∃ a v, m.index.lookup a = some v ∧ v.key = k.bytes ∧
    NoRoom L m g v offset data

theorem noRoomFor_iff (h : Inv L m c) {offset : Nat} {data : Bytes}
    (hl : m.index.lookup a = some v) (hk : v.key = k.bytes) :
    NoRoomFor L m g k offset data ↔ NoRoom L m g v offset data := by
  constructor
  · rintro ⟨x, u, hu, hku, hroom⟩
    cases h.chains.once a x v u hl hu (hk.trans hku.symm)
    cases hl.symm.trans hu
    exact hroom
  · exact fun hroom => ⟨a, v, hl, hk, hroom⟩

/-- The last write of a call that has rewritten an entry's data. -/
theorem Inv.rewrite (h : Inv L m c) {u u' : IndexValue}
    (hl : m.index.lookup a = some u) (hk : u.key = k.bytes)
    (hr : Rewrites L m m' a u u') (f : IndexValue → IndexValue)
    (hf : ∀ w, (f w).key = w.key ∧ (f w).next = w.next ∧
      (f w).blockOffset = w.blockOffset ∧
      (f w).totalDataLen = w.totalDataLen) :
    ∃ m'', m'.modifyIndex a f = some m'' ∧ Inv L m'' c ∧
      m''.mIsRecovering = m.mIsRecovering ∧
      contents L m'' = Function.update (contents L m) k
        (some ⟨(entryOf m' u').bytes, (f u').version, (f u').isDelete,
          (f u').ptId⟩) := by
  obtain ⟨hfk, hfn, hfb, hfl⟩ := hf u'
  have hself : m'.index.lookup a = some u' := by
    rw [hr.index, AList.lookup_insert]
  obtain ⟨n, o, hsame⟩ := hr.same
  have hkey : (f u').key = u.key := by rw [hfk, hsame]
  have hnext : (f u').next = u.next := by rw [hfn, hsame]
  obtain ⟨m'', hm⟩ : ∃ m'' : Mem,
      m'' = { m' with index := m'.index.insert a (f u') } := ⟨_, rfl⟩
  have hvalue : m''.value = m'.value := by rw [hm]
  have hindex : m''.index = m.index.insert a (f u') := by
    rw [hm, ← AList.insert_insert (b := u') m.index, ← hr.index]
  have hself' : m''.index.lookup a = some (f u') := by
    rw [hindex, AList.lookup_insert]
  have hblock : blockAt m'' a = blockAt m' a := by
    rw [blockAt_eq_some hself', blockAt_eq_some hself, hfb]
  have ht : Touches m m'' a := by
    refine ⟨?_, ?_, ?_⟩
    · rw [hblock, hvalue]
      exact hr.touches.other
    · rw [hblock]
      exact hr.touches.fresh
    · rw [hblock, hvalue]
      exact hr.touches.gone
  have hfilled : Filled L m'' (f u') := by
    obtain ⟨b, d, hb, hd⟩ := hr.filled
    refine ⟨b, d, hfb.trans hb, ?_⟩
    rw [hfl, hvalue]
    exact hd
  have hslots : m''.slots = m.slots := by rw [hm]; exact hr.slots
  obtain ⟨hinv, hcon⟩ := h.modify hl hk hkey hnext hslots hindex ht
    hfilled.holds
  refine ⟨m'', ?_, hinv, ?_, ?_⟩
  · rw [hm]
    exact modifyIndex_eq f hself
  · rw [hm]
    exact hr.recovering
  · have hdata : blockData m'' (f u') = blockData m' u' := by
      unfold blockData
      rw [hfb, hvalue]
    rw [hcon]
    unfold entryOf
    rw [hdata, hfl]

theorem update_cases (h : Inv L m c) (g : Grants) (para : UpdatePara)
    (hpos : 0 < para.value.length) :
    (contents L m para.key = none ∧
      update L m g para = some ({ ret := .notExists }, m)) ∨
    ∃ e, contents L m para.key = some e ∧
      ((e.bytes.length < para.offset ∨
          NoRoomFor L m g para.key para.offset para.value) ∧
        update L m g para = some ({ ret := .err }, m) ∨
      ¬ (e.bytes.length < para.offset ∨
          NoRoomFor L m g para.key para.offset para.value) ∧
        ∃ m', update L m g para = some ({ ret := .ok }, m') ∧ Inv L m' c ∧
          m'.mIsRecovering = m.mIsRecovering ∧
          contents L m' = Function.update (contents L m) para.key
            (some { e with
              bytes := overlay e.bytes para.offset para.value
              version := para.version })) := by
  rcases h.chains.cases para.key with
    ⟨hno, hfind, hcon⟩ | ⟨a, u, pre, post, n, hl, hk, hc, hfind, hn, rfl, hcon⟩
  · exact Or.inl ⟨hcon, by simp [update, hfind]⟩
  right
  refine ⟨entryOf m u, hcon, ?_⟩
  rw [length_bytes (h.blocks.own _ u hl), noRoomFor_iff h hl hk]
  rcases updateDataBlock_overlays h g hl para.offset hpos with
    ⟨e, he, hcall, hwhy⟩ | ⟨m', u', hcall, hoff, hroom, hr, hbytes⟩
  · refine Or.inl ⟨hwhy, ?_⟩
    simp [update, hfind, hn, hcall, BResult.ne_ok_of_fails he]
  · refine Or.inr ⟨?_, ?_⟩
    · rintro (hlt | hno)
      · omega
      · exact hroom hno
    · obtain ⟨m'', hmod, hinv, hrec, hnew⟩ := h.rewrite hl hk hr
        (fun w => { w with version := para.version })
        (fun _ => ⟨rfl, rfl, rfl, rfl⟩)
      refine ⟨m'', ?_, hinv, hrec, ?_⟩
      · simp [update, hfind, hn, hcall, hmod]
      · obtain ⟨l, o, hsame⟩ := hr.same
        rw [hnew, hbytes, hsame]
        rfl

/-! ## Delete -/

/-- `Delete` of a cache that is not recovering. -/
theorem delete_cases (h : Inv L m c) (g : Grants) (k : Key)
    (version : UInt32) (hrec : m.mIsRecovering = false) :
    (contents L m k = none ∧
      delete L m g k version = some ({ ret := .keyNotExists }, m)) ∨
    ∃ e m', contents L m k = some e ∧
      delete L m g k version = some ({ ret := .ok }, m') ∧
      (∃ c', Inv L m' c') ∧ m'.mIsRecovering = m.mIsRecovering ∧
      contents L m' = Function.update (contents L m) k none := by
  rcases h.chains.cases k with
    ⟨hno, hfind, hcon⟩ | ⟨a, u, pre, post, n, hl, hk, hc, hfind, hn, rfl, hcon⟩
  · refine Or.inl ⟨hcon, ?_⟩
    simp [delete, hfind, handleDeleteMissingNode, hrec]
  · obtain ⟨m', hcall, hinv, hnew, hrec', -⟩ := h.remove hl hk hc
    refine Or.inr ⟨entryOf m u, m', hcon, ?_, ⟨_, hinv⟩, hrec', hnew⟩
    simp [delete, hfind, handleDeleteExistingNode, hn, hl, hrec, hcall]

/-! ## Replace -/

theorem replace_cases (h : Inv L m c) (g : Grants) (para : ReplacePara)
    (hpos : 0 < para.value.length) :
    (contents L m para.key = none ∧
      (Refused L m g para.value ∧ (∃ e, e.fails = true ∧
          replace L m g para = some ({ ret := e }, m)) ∨
        ¬ Refused L m g para.value ∧
        ∃ m', replace L m g para = some ({ ret := .ok }, m') ∧
          (∃ c', Inv L m' c') ∧ m'.mIsRecovering = m.mIsRecovering ∧
          contents L m' = Function.update (contents L m) para.key
            (some ⟨para.value, para.version, false, para.ptId⟩))) ∨
    ∃ e, contents L m para.key = some e ∧
      (para.version < e.version ∧
        replace L m g para = some ({ ret := .ok }, m) ∨
      ¬ para.version < e.version ∧ (e.bytes.length < para.offset ∨
          NoRoomFor L m g para.key para.offset para.value) ∧
        replace L m g para = some ({ ret := .err }, m) ∨
      ¬ para.version < e.version ∧ ¬ (e.bytes.length < para.offset ∨
          NoRoomFor L m g para.key para.offset para.value) ∧
        ∃ m', replace L m g para = some ({ ret := .ok }, m') ∧
          (∃ c', Inv L m' c') ∧ m'.mIsRecovering = m.mIsRecovering ∧
          contents L m' = Function.update (contents L m) para.key
            (some ⟨overlay e.bytes para.offset para.value, para.version,
              false, e.ptId⟩)) := by
  rcases h.chains.cases para.key with
    ⟨hno, hfind, hcon⟩ | ⟨a, u, pre, post, n, hl, hk, hc, hfind, hn, rfl, hcon⟩
  · left
    refine ⟨hcon, ?_⟩
    rcases newIndexValue_cases (L := L) m g
        (fun v => { v with totalDataLen := 0, blockOffset := none })
        para.key hpos (fun _ => rfl) with
      ⟨e, he, hcall, href⟩ | ⟨a, raw, b, data, hi, hv, hcall⟩
    · refine Or.inl ⟨href, e, he, ?_⟩
      simp [replace, hfind, insertReplaceNode, handleReplacePut, hcall]
    · have hnot : ¬ Refused L m g para.value := by
        rintro (href | href)
        · rw [hi] at href
          cases href
        · rw [hv] at href
          cases href
      right
      refine ⟨hnot, ?_⟩
      generalize hent : newEntry _ raw para.key b para.value = ent at hcall
      obtain ⟨hins, hinv, hnew⟩ := h.link_entry
        (u := { ent with
          ptId := para.ptId
          isDelete := false
          version := para.version })
        hpos hi hv hno (by rw [← hent]; rfl) (by rw [← hent]; rfl)
        (by rw [← hent]; rfl)
      simp only [homeOf] at hins
      refine ⟨_, ?_, hinv, rfl, hnew⟩
      have hset : (withEntry m a b ent
          ⟨data.length, overlay data 0 para.value⟩).modifyIndex a (fun v =>
            { v with
              ptId := para.ptId
              isDelete := false
              version := para.version }) =
          some (withEntry m a b
            { ent with
              ptId := para.ptId
              isDelete := false
              version := para.version }
            ⟨data.length, overlay data 0 para.value⟩) := by
        simp [Mem.modifyIndex, withEntry, AList.insert_insert]
      simp only [replace, hfind, insertReplaceNode, handleReplacePut, hcall,
        hset, hins, Option.bind_eq_bind, Option.bind_some]
  · right
    refine ⟨entryOf m u, hcon, ?_⟩
    by_cases hver : para.version < (entryOf m u).version
    · refine Or.inl ⟨hver, ?_⟩
      have hver' : para.version < u.version := hver
      simp [replace, hfind, hn, replaceExistingNode, hl, hver']
    right
    have hver' : ¬ para.version < u.version := hver
    rw [length_bytes (h.blocks.own _ u hl), noRoomFor_iff h hl hk]
    rcases updateDataBlock_overlays h g hl para.offset hpos with
      ⟨e, he, hcall, hwhy⟩ | ⟨m', u', hcall, hoff, hroom, hr, hbytes⟩
    · refine Or.inl ⟨hver, hwhy, ?_⟩
      simp only [replace, hfind, hn, replaceExistingNode, hl, hver', hcall,
        BResult.ne_ok_of_fails he, ne_eq, not_false_eq_true, if_true,
        if_false, Option.bind_eq_bind, Option.bind_some]
    · refine Or.inr ⟨hver, ?_, ?_⟩
      · rintro (hlt | hno)
        · omega
        · exact hroom hno
      · obtain ⟨m'', hmod, hinv, hrec, hnew⟩ := h.rewrite hl hk hr
          (fun w => { w with version := para.version, isDelete := false })
          (fun _ => ⟨rfl, rfl, rfl, rfl⟩)
        refine ⟨m'', ?_, ⟨c, hinv⟩, hrec, ?_⟩
        · simp only [replace, hfind, hn, replaceExistingNode, hl, hver',
            hcall, hmod, ne_eq, not_true_eq_false, if_false,
            Option.bind_eq_bind, Option.bind_some]
        · obtain ⟨l, o, hsame⟩ := hr.same
          rw [hnew, hbytes, hsame]
          rfl

/-! ## Runs -/

/-- The calls, each with the answers its allocations get. -/
inductive Op where
  | put (para : PutPara) (g : Grants)
  | get (para : GetPara)
  | update (para : UpdatePara) (g : Grants)
  | delete (key : Key) (version : UInt32) (g : Grants)
  | replace (para : ReplacePara) (g : Grants)

/-- No call is about zero bytes, and `Replace` starts at offset 0. -/
def Op.Allowed : Op → Prop
  | .put para _ => 0 < para.value.length
  | .get para => 0 < para.length
  | .update para _ => 0 < para.value.length
  | .delete _ _ _ => True
  | .replace para _ => 0 < para.value.length ∧ para.offset = 0

instance : DecidablePred Op.Allowed
  | .put para _ => inferInstanceAs (Decidable (0 < para.value.length))
  | .get para => inferInstanceAs (Decidable (0 < para.length))
  | .update para _ => inferInstanceAs (Decidable (0 < para.value.length))
  | .delete _ _ _ => inferInstanceAs (Decidable True)
  | .replace para _ =>
      inferInstanceAs (Decidable (0 < para.value.length ∧ para.offset = 0))

def step (L : Layout) (m : Mem) : Op → Option (Reply × Mem)
  | .put para g => put L m g para
  | .get para => (get L m para).map fun reply => (reply, m)
  | .update para g => update L m g para
  | .delete key version g => delete L m g key version
  | .replace para g => replace L m g para

/-- The map that the cache stands for. -/
def store (L : Layout) (m : Mem) (k : Key) : Option (Bytes × UInt32) :=
  (contents L m k).map fun e => (e.bytes, e.version)

/-- What a call says and does, in terms of the map before and after it. -/
def Agrees (L : Layout) (m : Mem) : Op → Reply → Mem → Prop
  | .put para g, r, m' =>
      (r.ret = .ok ↔
        store L m para.key = none ∧ ¬ Refused L m g para.value) ∧
      (r.ret = .putRepeat ↔
        (∃ ver, store L m para.key = some (para.value, ver)) ∧
          ¬ Refused L m g para.value ∧ g.scratch = true) ∧
      (r.ret = .ok → store L m' = Function.update (store L m) para.key
        (some (para.value, para.version))) ∧
      (r.ret = .ok ∨ r.ret = .putRepeat →
        LeadsTo m' r.valueAddr para.value)
  | .get para, r, m' =>
      m' = m ∧
      match store L m para.key with
      | none => r = { ret := .notExists, realLength := some 0 }
      | some (bytes, _) =>
          if para.wantAddr then
            ∃ b, LeadsTo m (some b) bytes ∧ r =
              { ret := .ok
                valueAddr := some b
                realLength := some bytes.length }
          else if bytes.length ≤ para.offset then r = { ret := .err }
          else r =
            { ret := .ok
              realLength :=
                some ((bytes.drop para.offset).take para.length).length
              data := (bytes.drop para.offset).take para.length }
  | .update para g, r, m' =>
      (r.ret = .ok ↔ ∃ bytes ver, store L m para.key = some (bytes, ver) ∧
        para.offset ≤ bytes.length ∧
        ¬ NoRoomFor L m g para.key para.offset para.value) ∧
      ∀ bytes ver, store L m para.key = some (bytes, ver) → r.ret = .ok →
        store L m' = Function.update (store L m) para.key
          (some (overlay bytes para.offset para.value, para.version))
  | .delete key _ _, r, m' =>
      (r.ret = .ok ↔ store L m key ≠ none) ∧
      store L m' = Function.update (store L m) key none
  | .replace para g, r, m' =>
      match store L m para.key with
      | none =>
          (r.ret = .ok ↔ ¬ Refused L m g para.value) ∧
          (r.ret = .ok → store L m' = Function.update (store L m) para.key
            (some (para.value, para.version)))
      | some (bytes, ver) =>
          if para.version < ver then r.ret = .ok ∧ store L m' = store L m
          else
            (r.ret = .ok ↔
              ¬ NoRoomFor L m g para.key para.offset para.value) ∧
            (r.ret = .ok → store L m' =
              Function.update (store L m) para.key
                (some (overlay bytes 0 para.value, para.version)))

/-- A state in order of a cache that is not recovering: no entry is a
    tombstone. -/
structure Serving (L : Layout) (m : Mem) : Prop where
  inv : ∃ c, Inv L m c
  notRecovering : m.mIsRecovering = false
  alive : ∀ k e, contents L m k = some e → e.isDelete = false

theorem store_eq_none : store L m k = none ↔ contents L m k = none := by
  simp [store]

theorem store_of_contents {e : Entry} (h : contents L m k = some e) :
    store L m k = some (e.bytes, e.version) := by
  simp [store, h]

/-- One key of the map changes when one key of the contents does. -/
theorem store_update {o : Option Entry}
    (h : contents L m' = Function.update (contents L m) k o) :
    store L m' = Function.update (store L m) k
      (o.map fun e => (e.bytes, e.version)) := by
  funext j
  unfold store
  rw [h]
  by_cases hj : j = k
  · rw [hj, Function.update_self, Function.update_self]
  · rw [Function.update_of_ne hj, Function.update_of_ne hj]

/-- An entry that is no tombstone has bytes. -/
theorem bytes_ne_nil (h : Inv L m c) {e : Entry}
    (hcon : contents L m k = some e) (he : e.isDelete = false) :
    e.bytes ≠ [] := by
  rcases h.chains.cases k with
    ⟨-, -, hnone⟩ | ⟨a, u, -, -, -, hl, -, -, -, -, -, hsome⟩
  · rw [hnone] at hcon
    cases hcon
  · rw [hsome] at hcon
    cases hcon
    have hheld := h.blocks.own a u hl
    have hdel : u.isDelete = false := he
    cases hb : u.blockOffset with
    | none =>
        simp only [Holds, hb, hdel] at hheld
        exact absurd hheld.2 (by decide)
    | some b =>
        obtain ⟨-, -, -, -, -, hpos, -⟩ := hheld.filled hb
        refine List.ne_nil_of_length_pos ?_
        rw [length_bytes hheld]
        exact hpos

/-- No tombstone comes in when one entry is set that is none. -/
theorem alive_update {o : Option Entry}
    (h : ∀ k e, contents L m k = some e → e.isDelete = false)
    (hcon : contents L m' = Function.update (contents L m) k o)
    (ho : ∀ e, o = some e → e.isDelete = false) :
    ∀ k e, contents L m' k = some e → e.isDelete = false := by
  intro j e he
  rw [hcon] at he
  by_cases hj : j = k
  · rw [hj, Function.update_self] at he
    exact ho e he
  · rw [Function.update_of_ne hj] at he
    exact h j e he

/-- **ONE CALL**: from a state in order every allowed call returns, agrees with
    the map and leaves a state in order; a call that does not answer `MMS_OK`
    leaves the map as it was. -/
theorem step_agrees (h : Serving L m) {op : Op} (hop : op.Allowed) :
    ∃ r m', step L m op = some (r, m') ∧ Serving L m' ∧
      Agrees L m op r m' ∧ (r.ret ≠ .ok → store L m' = store L m) := by
  obtain ⟨c, hinv⟩ := h.inv
  cases op with
  | put para g =>
      rcases put_cases hinv g para hop with
        ⟨e, he, hcall, href⟩ |
        ⟨hnone, hnot, m', x, hcall, hinv', hrec, hlead, hcon⟩ |
        ⟨e, r, hsome, hnot, hcall, hwhat⟩
      · refine ⟨_, m, hcall, h, ⟨?_, ?_, ?_, ?_⟩, fun _ => rfl⟩
        · exact ⟨fun hok => absurd hok (BResult.ne_ok_of_fails he),
            fun hok => absurd href hok.2⟩
        · exact ⟨fun hrep => absurd hrep (BResult.ne_putRepeat_of_fails he),
            fun hrep => absurd href hrep.2.1⟩
        · exact fun hok => absurd hok (BResult.ne_ok_of_fails he)
        · rintro (hok | hrep)
          · exact absurd hok (BResult.ne_ok_of_fails he)
          · exact absurd hrep (BResult.ne_putRepeat_of_fails he)
      · have hstore := store_update hcon
        refine ⟨_, m', hcall, ⟨hinv', hrec.trans h.notRecovering, ?_⟩,
          ⟨?_, ?_, ?_, ?_⟩, fun hne => absurd rfl hne⟩
        · exact alive_update h.alive hcon fun e he => by cases he; rfl
        · exact ⟨fun _ => ⟨store_eq_none.mpr hnone, hnot⟩, fun _ => rfl⟩
        · constructor
          · intro hrep
            cases hrep
          · rintro ⟨⟨ver, hver⟩, -⟩
            rw [store_eq_none.mpr hnone] at hver
            cases hver
        · exact fun _ => hstore
        · exact fun _ => hlead
      · have hst := store_of_contents hsome
        have hok : r.ret ≠ .ok := by
          rcases hwhat with ⟨-, -, hrep, -⟩ | ⟨-, hfail⟩
          · rw [hrep]
            decide
          · exact BResult.ne_ok_of_fails hfail
        refine ⟨r, m, hcall, h, ⟨?_, ?_, ?_, ?_⟩, fun _ => rfl⟩
        · constructor
          · exact fun hr => absurd hr hok
          · rintro ⟨hnone, -⟩
            rw [hst] at hnone
            cases hnone
        · constructor
          · intro hrep
            rcases hwhat with ⟨heq, hs, -, -⟩ | ⟨-, hfail⟩
            · exact ⟨⟨e.version, by rw [hst, heq]⟩, hnot, hs⟩
            · exact absurd hrep (BResult.ne_putRepeat_of_fails hfail)
          · rintro ⟨⟨ver, hver⟩, -, hs⟩
            have heq : e.bytes = para.value :=
              congrArg Prod.fst (Option.some.inj (hst.symm.trans hver))
            rcases hwhat with ⟨-, -, hrep, -⟩ | ⟨hne, -⟩
            · exact hrep
            · exact absurd ⟨heq, hs⟩ hne
        · exact fun hr => absurd hr hok
        · rintro (hr | hr)
          · exact absurd hr hok
          · rcases hwhat with ⟨-, -, -, hlead⟩ | ⟨-, hfail⟩
            · exact hlead
            · exact absurd hr (BResult.ne_putRepeat_of_fails hfail)
  | get para =>
      have hstep : ∀ r, get L m para = some r →
          step L m (.get para) = some (r, m) := by
        intro r hr
        simp only [step, hr, Option.map_some]
      rcases get_cases hinv para hop with ⟨hnone, hcall⟩ | ⟨e, hsome, hwhat⟩
      · refine ⟨_, m, hstep _ hcall, h,
          ⟨rfl, ?_⟩, fun _ => rfl⟩
        rw [store_eq_none.mpr hnone]
      · have hne := bytes_ne_nil hinv hsome (h.alive _ _ hsome)
        have hst := store_of_contents hsome
        rcases hwhat with hnil | ⟨hw, b, hcall, hlead⟩ | ⟨hw, hoff, hcall⟩ |
          ⟨hw, hoff, hcall⟩
        · exact absurd hnil hne
        · refine ⟨_, m, hstep _ hcall, h,
            ⟨rfl, ?_⟩, fun _ => rfl⟩
          simp only [hst, hw, if_true]
          exact ⟨b, hlead, rfl⟩
        · refine ⟨_, m, hstep _ hcall, h,
            ⟨rfl, ?_⟩, fun _ => rfl⟩
          simp only [hst, hw, Bool.false_eq_true, if_false, hoff, if_true]
        · refine ⟨_, m, hstep _ hcall, h,
            ⟨rfl, ?_⟩, fun _ => rfl⟩
          simp only [hst, hw, Bool.false_eq_true, if_false,
            Nat.not_le.mpr hoff]
  | update para g =>
      rcases update_cases hinv g para hop with
        ⟨hnone, hcall⟩ | ⟨e, hsome, ⟨hwhy, hcall⟩ |
          ⟨hnot, m', hcall, hinv', hrec, hcon⟩⟩
      · have hst := store_eq_none.mpr hnone
        refine ⟨_, m, hcall, h, ⟨⟨?_, ?_⟩, ?_⟩, fun _ => rfl⟩
        · intro hok
          cases hok
        · rintro ⟨bytes, ver, hver, -⟩
          rw [hst] at hver
          cases hver
        · intro bytes ver hver
          rw [hst] at hver
          cases hver
      · have hst := store_of_contents hsome
        refine ⟨_, m, hcall, h, ⟨⟨?_, ?_⟩, ?_⟩, fun _ => rfl⟩
        · intro hok
          cases hok
        · rintro ⟨bytes, ver, hver, hoff, hroom⟩
          rw [hst] at hver
          cases hver
          rcases hwhy with hlt | hno
          · exact absurd hlt (Nat.not_lt.mpr hoff)
          · exact absurd hno hroom
        · intro bytes ver _ hok
          cases hok
      · have hst := store_of_contents hsome
        have hstore := store_update hcon
        push Not at hnot
        refine ⟨_, m', hcall, ⟨⟨c, hinv'⟩, hrec.trans h.notRecovering, ?_⟩,
          ⟨⟨?_, fun _ => rfl⟩, ?_⟩, fun hne => absurd rfl hne⟩
        · refine alive_update h.alive hcon ?_
          intro e' he'
          cases he'
          exact h.alive _ e hsome
        · exact fun _ => ⟨e.bytes, e.version, hst, hnot.1, hnot.2⟩
        · intro bytes ver hver _
          rw [hst] at hver
          cases hver
          exact hstore
  | delete key version g =>
      rcases delete_cases hinv g key version h.notRecovering with
        ⟨hnone, hcall⟩ | ⟨e, m', hsome, hcall, hinv', hrec, hcon⟩
      · have hst := store_eq_none.mpr hnone
        refine ⟨_, m, hcall, h, ⟨⟨?_, ?_⟩, ?_⟩, fun _ => rfl⟩
        · intro hok
          cases hok
        · exact fun hne => absurd hst hne
        · rw [Function.update_eq_self_iff.mpr hst.symm]
      · have hst := store_of_contents hsome
        refine ⟨_, m', hcall, ⟨hinv', hrec.trans h.notRecovering, ?_⟩,
          ⟨⟨?_, fun _ => rfl⟩, store_update hcon⟩, fun hne => absurd rfl hne⟩
        · exact alive_update h.alive hcon fun e he => by cases he
        · intro _ hnone
          rw [hst] at hnone
          cases hnone
  | replace para g =>
      rcases replace_cases hinv g para hop.1 with
        ⟨hnone, ⟨href, e, he, hcall⟩ |
          ⟨hnot, m', hcall, hinv', hrec, hcon⟩⟩ |
        ⟨e, hsome, ⟨hver, hcall⟩ | ⟨hver, hwhy, hcall⟩ |
          ⟨hver, hnot, m', hcall, hinv', hrec, hcon⟩⟩
      · refine ⟨_, m, hcall, h, ?_, fun _ => rfl⟩
        simp only [Agrees, store_eq_none.mpr hnone]
        have hne := BResult.ne_ok_of_fails he
        exact ⟨⟨fun hok => absurd hok hne, fun hno => absurd href hno⟩,
          fun hok => absurd hok hne⟩
      · refine ⟨_, m', hcall, ⟨hinv', hrec.trans h.notRecovering, ?_⟩, ?_,
          fun hne => absurd rfl hne⟩
        · exact alive_update h.alive hcon fun e he => by cases he; rfl
        · simp only [Agrees, store_eq_none.mpr hnone]
          exact ⟨⟨fun _ => hnot, fun _ => trivial⟩, fun _ => store_update hcon⟩
      · refine ⟨_, m, hcall, h, ?_, fun _ => rfl⟩
        simp only [Agrees, store_of_contents hsome, hver, if_true]
        exact ⟨trivial, trivial⟩
      · refine ⟨_, m, hcall, h, ?_, fun _ => rfl⟩
        simp only [Agrees, store_of_contents hsome, hver, if_false]
        refine ⟨⟨?_, ?_⟩, ?_⟩
        · intro hok
          cases hok
        · intro hroom
          rcases hwhy with hlt | hno
          · rw [hop.2] at hlt
            exact absurd hlt (Nat.not_lt_zero _)
          · exact absurd hno hroom
        · intro hok
          cases hok
      · refine ⟨_, m', hcall, ⟨hinv', hrec.trans h.notRecovering, ?_⟩, ?_,
          fun hne => absurd rfl hne⟩
        · exact alive_update h.alive hcon fun e he => by cases he; rfl
        · simp only [Agrees, store_of_contents hsome, hver, if_false]
          have hstore := store_update hcon
          rw [hop.2] at hstore
          push Not at hnot
          exact ⟨⟨fun _ => hnot.2, fun _ => trivial⟩, fun _ => hstore⟩

/-! ## What is in the buckets -/

/-- The index blocks on the way from a node to the end of its chain. -/
def chainFrom (m : Mem) : Nat → NodePtr → Option (List Addr)
  | 0, _ => none
  | fuel + 1, p => do
      let node ← m.readNode p
      if node.valid then
        let rest ← chainFrom m fuel (.next node.indexValueAddr)
        some (node.indexValueAddr :: rest)
      else some []

/-- The index blocks in all slots of all buckets of all shards. -/
def entriesOf (L : Layout) (m : Mem) : Option (List Addr) :=
  (L.slotIds.mapM fun i =>
    chainFrom m (m.index.keys.length + 1) (.slot i)).map List.flatten

/-- The key of the entry at an address. -/
def keyAt (m : Mem) (a : Addr) : Option Bytes :=
  (m.index.lookup a).map (·.key)

/-- No key occurs twice in the buckets, the live index blocks are those of the
    entries there, the live value blocks are one for each of them, and the keys
    are those of the map. -/
def Tidy (L : Layout) (m : Mem) : Prop :=
  ∃ es, entriesOf L m = some es ∧ (es.map (keyAt m)).Nodup ∧
    es.Perm m.index.keys ∧
    (es.map (blockAt m)).Perm (m.value.keys.map some) ∧
    ∀ k : Key, store L m k ≠ none ↔ some k.bytes ∈ es.map (keyAt m)

theorem chainFrom_eq : ∀ (l : List Addr) {p : NodePtr} {n : IndexNode}
    {f : Nat}, m.readNode p = some n → Threads (nodes m) n l →
    l.length < f → chainFrom m f p = some l := by
  intro l
  induction l with
  | nil =>
      intro p n f hr ht hf
      obtain ⟨f, rfl⟩ := Nat.exists_eq_succ_of_ne_zero (Nat.ne_of_gt hf)
      rw [threads_nil_iff] at ht
      simp [chainFrom, hr, ht]
  | cons x l ih =>
      intro p n f hr ht hf
      obtain ⟨f, rfl⟩ := Nat.exists_eq_succ_of_ne_zero
        (Nat.ne_of_gt (Nat.zero_lt_of_lt hf))
      obtain ⟨hvalid, rfl, v, hv, -, ht⟩ := threads_cons_iff.mp ht
      have hread : m.readNode (.next n.indexValueAddr) = some v.next := by
        simp [Mem.readNode, hv]
      have hrest := ih hread ht (Nat.lt_of_succ_lt_succ hf)
      simp [chainFrom, hr, hvalid, hrest]

/-- A hash code leads to a slot that exists. -/
theorem slotOf_mem (L : Layout) (hashCode : UInt32) :
    slotOf L hashCode ∈ L.slotIds := by
  have hlen : 0 < L.shards.length := List.length_pos_of_ne_nil L.shards_ne
  have hshard := Nat.mod_lt hashCode.toNat hlen
  have hcount : 0 < L.shards.getD (hashCode.toNat % L.shards.length) 1 := by
    rw [List.getD_eq_getElem _ _ hshard]
    exact L.bucketCount_pos _ (List.getElem_mem hshard)
  have hbucket := Nat.mod_lt hashCode.toNat hcount
  have hslot : (mixBucketSlotHash hashCode).toNat &&&
      (bucketInlineSlotNum - 1) < bucketInlineSlotNum := by
    refine Nat.lt_of_le_of_lt Nat.and_le_right ?_
    decide
  simp only [Layout.slotIds, List.mem_flatMap, List.mem_map, List.mem_range]
  exact ⟨_, hshard, _, hbucket, _, hslot, rfl⟩

theorem slotIds_nodup (L : Layout) : L.slotIds.Nodup := by
  simp only [Layout.slotIds, List.nodup_flatMap]
  refine ⟨?_, ?_⟩
  · intro shard _
    refine ⟨?_, ?_⟩
    · intro bucket _
      exact List.nodup_range.map (fun x y hxy => by cases hxy; rfl)
    · refine List.nodup_range.imp ?_
      intro x y hxy i hi hj
      simp only [List.mem_map] at hi hj
      obtain ⟨u, -, rfl⟩ := hi
      obtain ⟨w, -, hw⟩ := hj
      cases hw
      exact hxy rfl
  · refine List.nodup_range.imp ?_
    intro x y hxy i hi hj
    simp only [List.mem_flatMap, List.mem_map] at hi hj
    obtain ⟨u, -, s, -, rfl⟩ := hi
    obtain ⟨w, -, t, -, hw⟩ := hj
    cases hw
    exact hxy rfl

theorem entriesOf_eq (h : Chains L m c) :
    entriesOf L m = some (L.slotIds.flatMap c) := by
  have hall : (fun i => chainFrom m (m.index.keys.length + 1) (.slot i)) =
      fun i => pure (c i) := by
    funext i
    exact chainFrom_eq (c i) rfl (h.threads i)
      (Nat.lt_succ_of_le (h.length_le i))
  unfold entriesOf
  rw [hall, List.mapM_pure]
  rfl

theorem Chains.mem_entries (h : Chains L m c) :
    a ∈ L.slotIds.flatMap c ↔ a ∈ m.index := by
  rw [List.mem_flatMap, ← AList.lookup_isSome, Option.isSome_iff_exists]
  constructor
  · rintro ⟨i, -, ha⟩
    obtain ⟨u, hu, -⟩ := h.home i a ha
    exact ⟨u, hu⟩
  · rintro ⟨u, hu⟩
    exact ⟨homeOf L u.key, slotOf_mem L _, h.mem a u hu⟩

theorem Chains.entries_nodup (h : Chains L m c) :
    (L.slotIds.flatMap c).Nodup := by
  rw [List.nodup_flatMap]
  refine ⟨fun i _ => h.nodup i, ?_⟩
  refine (slotIds_nodup L).imp ?_
  intro i j hij x hx hy
  obtain ⟨u, hu, hi⟩ := h.home i x hx
  obtain ⟨w, hw, hj⟩ := h.home j x hy
  cases hu.symm.trans hw
  exact hij (hi.symm.trans hj)

/-- **ONE OF EACH**: in a state in order no key occurs twice and no block is
    lost or shared. -/
theorem tidy_of_serving (h : Serving L m) : Tidy L m := by
  obtain ⟨c, hinv⟩ := h.inv
  have hc := hinv.chains
  have hnd := hc.entries_nodup
  refine ⟨_, entriesOf_eq hc, ?_, ?_, ?_, ?_⟩
  · refine hnd.map_on ?_
    intro x hx y hy hxy
    obtain ⟨u, hu⟩ := Option.isSome_iff_exists.mp
      (AList.lookup_isSome.mpr (hc.mem_entries.mp hx))
    obtain ⟨w, hw⟩ := Option.isSome_iff_exists.mp
      (AList.lookup_isSome.mpr (hc.mem_entries.mp hy))
    simp only [keyAt, hu, hw, Option.map_some, Option.some.injEq] at hxy
    exact hc.once x y u w hu hw hxy
  · rw [List.perm_ext_iff_of_nodup hnd m.index.keys_nodup]
    intro x
    rw [hc.mem_entries, AList.mem_keys]
  · -- every entry has a block, since none of them is a tombstone
    have hblock : ∀ x ∈ L.slotIds.flatMap c, ∃ b ∈ m.value,
        blockAt m x = some b := by
      intro x hx
      obtain ⟨u, hu⟩ := Option.isSome_iff_exists.mp
        (AList.lookup_isSome.mpr (hc.mem_entries.mp hx))
      obtain ⟨k, hk⟩ := hc.isKey x u hu
      have halive := h.alive k _ (hc.contents_some hu hk)
      have hdel : u.isDelete = false := halive
      have hheld := hinv.blocks.own x u hu
      cases hb : u.blockOffset with
      | none =>
          simp only [Holds, hb, hdel] at hheld
          exact absurd hheld.2 (by decide)
      | some b =>
          obtain ⟨b', d, hb', hd, -⟩ := hheld.filled hb
          cases hb.symm.trans hb'
          exact ⟨b, mem_value hd, (blockAt_eq_some hu).trans hb⟩
    have hnd' : ((L.slotIds.flatMap c).map (blockAt m)).Nodup := by
      refine hnd.map_on ?_
      intro x hx y hy hxy
      obtain ⟨b, -, hb⟩ := hblock x hx
      exact hinv.blocks.inj x y b hb (hxy ▸ hb)
    rw [List.perm_ext_iff_of_nodup hnd'
      (m.value.keys_nodup.map (Option.some_injective _))]
    intro o
    simp only [List.mem_map]
    constructor
    · rintro ⟨x, hx, rfl⟩
      obtain ⟨b, hb, hxb⟩ := hblock x hx
      exact ⟨b, AList.mem_keys.mp hb, hxb.symm⟩
    · rintro ⟨b, hb, rfl⟩
      obtain ⟨x, hx⟩ := hinv.blocks.used b (AList.mem_keys.mpr hb)
      refine ⟨x, hc.mem_entries.mpr ?_, hx⟩
      cases hl : m.index.lookup x with
      | none => simp [blockAt, hl] at hx
      | some u => exact mem_index hl
  · intro k
    rw [ne_eq, store_eq_none]
    simp only [List.mem_map]
    rcases hc.cases k with
      ⟨hno, -, hcon⟩ | ⟨x, u, -, -, -, hu, hk, -, -, -, -, hcon⟩
    · rw [hcon]
      constructor
      · exact fun hne => absurd rfl hne
      · rintro ⟨y, -, hy⟩
        obtain ⟨w, hw, hkw⟩ := Option.map_eq_some_iff.mp hy
        exact absurd hkw (hno y w hw)
    · rw [hcon]
      refine ⟨fun _ => ⟨x, hc.mem_entries.mpr (mem_index hu), ?_⟩, ?_⟩
      · simp [keyAt, hu, hk]
      · intro _ hnone
        cases hnone

/-- What `Init` leaves is in order. -/
theorem serving_init (L : Layout) : Serving L init := by
  have hnone : ∀ a, init.index.lookup a = none := fun a =>
    AList.lookup_empty a
  have hchains : Chains L init fun _ => [] := by
    refine ⟨?_, ?_, ?_, ?_, ?_, ?_⟩
    · exact fun i => threads_nil_iff.mpr rfl
    · exact fun i => List.nodup_nil
    · intro i a ha
      cases ha
    · intro a v hv
      rw [hnone] at hv
      cases hv
    · intro a a' v v' hv
      rw [hnone] at hv
      cases hv
    · intro a v hv
      rw [hnone] at hv
      cases hv
  refine ⟨⟨_, hchains, ?_, ?_, ?_⟩, rfl, ?_⟩
  · intro a v hv
    rw [hnone] at hv
    cases hv
  · intro a a' b hb
    simp [blockAt, hnone] at hb
  · intro b hb
    exact absurd hb (AList.notMem_empty b)
  · intro k e he
    rw [hchains.contents_none fun x v hv => by rw [hnone] at hv; cases hv] at he
    cases he

theorem contents_init (L : Layout) (k : Key) : contents L init k = none := by
  obtain ⟨c, hinv⟩ := (serving_init L).inv
  refine hinv.chains.contents_none ?_
  intro x v hv
  cases (AList.lookup_empty x).symm.trans hv

/-- No call is about zero bytes; `Replace` starts where it likes. -/
def NotEmpty : Op → Prop
  | .put para _ => 0 < para.value.length
  | .get para => 0 < para.length
  | .update para _ => 0 < para.value.length
  | .delete _ _ _ => True
  | .replace para _ => 0 < para.value.length

instance : DecidablePred NotEmpty
  | .put para _ => inferInstanceAs (Decidable (0 < para.value.length))
  | .get para => inferInstanceAs (Decidable (0 < para.length))
  | .update para _ => inferInstanceAs (Decidable (0 < para.value.length))
  | .delete _ _ _ => inferInstanceAs (Decidable True)
  | .replace para _ => inferInstanceAs (Decidable (0 < para.value.length))

/-- Every such call returns and leaves a state in order. -/
theorem serving_step (h : Serving L m) {op : Op} (hop : NotEmpty op) :
    ∃ r m', step L m op = some (r, m') ∧ Serving L m' ∧
      (r.ret ≠ .ok → store L m' = store L m) := by
  obtain ⟨chains, hinv⟩ := h.inv
  have hallowed : op.Allowed → ∃ r m', step L m op = some (r, m') ∧
      Serving L m' ∧ (r.ret ≠ .ok → store L m' = store L m) := by
    intro hop
    obtain ⟨r, m', hcall, hserving, -, hfail⟩ := step_agrees h hop
    exact ⟨r, m', hcall, hserving, hfail⟩
  cases op with
  | put para g => exact hallowed hop
  | get para => exact hallowed hop
  | update para g => exact hallowed hop
  | delete key version g => exact hallowed hop
  | replace para g =>
      rcases replace_cases hinv g para hop with
        ⟨-, ⟨-, e, -, hcall⟩ | ⟨-, m', hcall, hinv', hrec, hcon⟩⟩ |
        ⟨e, -, ⟨-, hcall⟩ | ⟨-, -, hcall⟩ | ⟨-, -, m', hcall, hinv', hrec, hcon⟩⟩
      · exact ⟨_, m, hcall, h, fun _ => rfl⟩
      · refine ⟨_, m', hcall, ⟨hinv', hrec.trans h.notRecovering, ?_⟩,
          fun hne => absurd rfl hne⟩
        exact alive_update h.alive hcon fun e he => by cases he; rfl
      · exact ⟨_, m, hcall, h, fun _ => rfl⟩
      · exact ⟨_, m, hcall, h, fun _ => rfl⟩
      · refine ⟨_, m', hcall, ⟨hinv', hrec.trans h.notRecovering, ?_⟩,
          fun hne => absurd rfl hne⟩
        exact alive_update h.alive hcon fun e he => by cases he; rfl

theorem serving_run (L : Layout) : ∀ (ops : List Op) {m : Mem},
    Serving L m → (∀ op ∈ ops, NotEmpty op) →
    ∃ m', runFrom (fun m op => (step L m op).map Prod.snd) m ops = some m' ∧
      Serving L m' := by
  intro ops
  induction ops with
  | nil => exact fun {m} h _ => ⟨m, rfl, h⟩
  | cons op ops ih =>
      intro m h hops
      obtain ⟨r, m₁, hstep, hserving, -⟩ :=
        serving_step h (hops op (List.mem_cons_self ..))
      obtain ⟨m', hrun, hserving'⟩ :=
        ih hserving fun o ho => hops o (List.mem_cons_of_mem _ ho)
      refine ⟨m', runFrom_cons.mpr ⟨m₁, ?_, hrun⟩, hserving'⟩
      rw [hstep]
      rfl

theorem Op.Allowed.notEmpty {op : Op} (h : op.Allowed) : NotEmpty op := by
  cases op with
  | replace para g => exact h.1
  | _ => exact h

/-- **THE CACHE REFINES A MAP**: every sequence of allowed calls, with every
    allocation answered as it likes, runs to its end; then no key occurs twice,
    the live blocks are one index and one value block for each key, and
    whatever allowed call comes next agrees with the map. -/
theorem reachable_refines (L : Layout) (ops : List Op)
    (hops : ∀ op ∈ ops, op.Allowed) :
    ∃ m, runFrom (fun m op => (step L m op).map Prod.snd) init ops = some m ∧
      Tidy L m ∧ ∀ op : Op, op.Allowed → ∃ r m',
        step L m op = some (r, m') ∧ Agrees L m op r m' ∧
        (r.ret ≠ .ok → store L m' = store L m) := by
  obtain ⟨m, hm, hserving⟩ := serving_run L ops (serving_init L)
    fun op hop => (hops op hop).notEmpty
  refine ⟨m, hm, tidy_of_serving hserving, ?_⟩
  intro op hop
  obtain ⟨r, m', hstep, -, hagrees, hfail⟩ := step_agrees hserving hop
  exact ⟨r, m', hstep, hagrees, hfail⟩

/-- One shard of two buckets. -/
def twoBuckets : Layout where
  shards := [2]
  memMaxLen := 2 ^ 31 - 1
  shards_ne := by decide
  bucketCount_pos := by decide
  maxKeySize_le := by decide
  memMaxLen_lt := by decide

/-- Allocations that succeed, with the index block `a` and the value block
    `b`. -/
def granted (a b : Addr) : Grants where
  index := some (a, ⟨⟨0, false, 0⟩, [], 0, false, 0, 0, none⟩)
  value n := some (b, List.replicate n 0)
  scratch := true

/-- Allocations that all fail. -/
def refused : Grants := ⟨none, fun _ => none, false⟩

def keyA : Key := ⟨[97], by decide, by decide⟩

def putA : PutPara := ⟨keyA, [1, 2], 5, 0, true⟩

theorem reachable_refines_put_twice :
    (∀ op ∈ [Op.put putA (granted 16 32), Op.put putA refused], op.Allowed) ∧
    ∃ m, runFrom (fun m op => (step twoBuckets m op).map Prod.snd) init
        [Op.put putA (granted 16 32), Op.put putA refused] = some m ∧
      Tidy twoBuckets m ∧ ∀ op : Op, op.Allowed → ∃ r m',
        step twoBuckets m op = some (r, m') ∧ Agrees twoBuckets m op r m' ∧
        (r.ret ≠ .ok → store twoBuckets m' = store twoBuckets m) :=
  ⟨by decide, reachable_refines twoBuckets _ (by decide)⟩

/-- A `Put` of the very bytes that are stored answers `MMS_ALLOC_FAIL` when
    memory has run out, since the blocks come before the search; and a `Get`
    for the address gives the whole value, whatever slice is asked for. -/
theorem put_repeat_out_of_memory :
    ∃ m, (step twoBuckets init (.put putA (granted 16 32))).map Prod.snd =
        some m ∧
      store twoBuckets m keyA = some ([1, 2], 5) ∧
      (step twoBuckets m (.put putA refused)).map Prod.fst =
        some { ret := .allocFail } ∧
      (step twoBuckets m (.get ⟨keyA, 1, 1, true⟩)).map Prod.fst =
        some
          { ret := .ok
            valueAddr := some 32
            realLength := some 2 } := by
  have hrun : ((step twoBuckets init (.put putA (granted 16 32))).map
      Prod.snd).any (fun m =>
        decide (store twoBuckets m keyA = some ([1, 2], 5) ∧
          (step twoBuckets m (.put putA refused)).map Prod.fst =
            some { ret := .allocFail } ∧
          (step twoBuckets m (.get ⟨keyA, 1, 1, true⟩)).map Prod.fst =
            some
              { ret := .ok
                valueAddr := some 32
                realLength := some 2 })) = true := by
    decide +kernel
  obtain ⟨m, hm, hall⟩ := (Option.any_eq_true _ _).mp hrun
  exact ⟨m, hm, of_decide_eq_true hall⟩

end UbsIo.Cache
