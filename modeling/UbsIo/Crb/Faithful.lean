import UbsIo.Crb.Walk
import UbsIo.Message.RoundTrip

/-! # When the stream is faithful

    The receiver has every entry of the partition if each of them fits a
    message, no message has more records than the receiver takes, and
    `strncpy_s` copies the keys whole.  Nothing less is enough for every
    leftover that the buffer and `strncpy_s` may show. -/

namespace UbsIo.Crb

open UbsIo.Lib UbsIo.Cache UbsIo.Message

/-- The key, the value and the version of an item. -/
def itemData (d : DecodePutItem) : Bytes × Bytes × UInt64 :=
  (d.key, d.value, d.version)

/-- A key, a value and a version of the partition. -/
def Stored (L : Layout) (m : Mem) (pt : Nat) (x : Bytes × Bytes × UInt64) :
    Prop :=
  ∃ k e, contents L m k = some e ∧ e.ptId = pt ∧
    x = (k.bytes, e.bytes, e.version.toUInt64)

/-- The receiver takes a message, and these are its items. -/
def Accepts (c : Config) (msg : Bytes) (items : List DecodePutItem) : Prop :=
  deCodePutRequest c c.maxPutItemNum msg msg.length = some (.ok items)

/-- Every message is accepted, and together they bring what the partition has,
    once each and nothing else. -/
def Faithful (c : Config) (L : Layout) (m : Mem) (pt : Nat)
    (msgs : List Bytes) : Prop :=
  ∃ items : List (List DecodePutItem), List.Forall₂ (Accepts c) msgs items ∧
    (items.flatten.map (·.key)).Nodup ∧
    ∀ x, x ∈ items.flatten.map itemData ↔ Stored L m pt x

/-- A task over this partition that is left alone, and whose messages are
    answered with `MMS_OK`. -/
structure Undisturbed (L : Layout) (m : Mem) (pt : Nat) (t : Task) : Prop where
  layout : t.layout = L
  mem : t.mem = m
  taskPtId : t.taskPtId = pt
  send : ∀ msg, t.send msg = .ok
  registered : ∀ i, t.registered i = true

variable {c : Config} {t : Task} {L : Layout} {m : Mem} {v : IndexValue}
  {pt : Nat} {box : List IndexValue} {raw : Bytes}

/-! ## The entries of the partition -/

/-- The same of an entry. -/
def entryData (m : Mem) (v : IndexValue) : Bytes × Bytes × UInt64 :=
  (v.key, (entryOf m v).bytes, v.version.toUInt64)

theorem mem_partitionOf {chains : SlotId → List Addr}
    (h : Chains L m chains) :
    v ∈ partitionOf L m pt ↔
      (∃ a, m.index.lookup a = some v) ∧ v.ptId = pt := by
  rw [partitionOf_eq h, partitionAmong, List.mem_filter, decide_eq_true_eq]
  refine and_congr_left fun _ => ?_
  rw [List.mem_filterMap]
  constructor
  · rintro ⟨a, -, ha⟩
    exact ⟨a, ha⟩
  · rintro ⟨a, ha⟩
    exact ⟨a, h.mem_entries.mpr (mem_index ha), ha⟩

theorem stored_iff {chains : SlotId → List Addr} (h : Chains L m chains)
    (x : Bytes × Bytes × UInt64) :
    x ∈ (partitionOf L m pt).map (entryData m) ↔
      Stored L m pt x := by
  rw [List.mem_map]
  constructor
  · rintro ⟨v, hv, rfl⟩
    obtain ⟨⟨a, ha⟩, hpt⟩ := (mem_partitionOf h).mp hv
    obtain ⟨k, hk⟩ := h.isKey a v ha
    refine ⟨k, _, h.contents_some ha hk, hpt, ?_⟩
    rw [← hk]
    rfl
  · rintro ⟨k, e, hcon, hpt, rfl⟩
    rcases h.cases k with
      ⟨-, -, hnone⟩ | ⟨a, v, -, -, -, ha, hk, -, -, -, -, hsome⟩
    · rw [hnone] at hcon
      cases hcon
    · rw [hsome] at hcon
      cases hcon
      refine ⟨v, (mem_partitionOf h).mpr ⟨⟨a, ha⟩, hpt⟩, ?_⟩
      rw [← hk]
      rfl

/-- Entries at different addresses have different keys. -/
theorem nodup_keys_among {chains : SlotId → List Addr}
    (h : Chains L m chains) {as : List Addr} (has : as.Nodup) :
    ((partitionAmong m pt as).map (·.key)).Nodup := by
  rw [partitionAmong]
  refine (List.Nodup.map_on ?_ ?_)
  · intro v hv w hw hkey
    obtain ⟨a, -, ha⟩ := List.mem_filterMap.mp (List.mem_of_mem_filter hv)
    obtain ⟨b, -, hb⟩ := List.mem_filterMap.mp (List.mem_of_mem_filter hw)
    cases h.once a b v w ha hb hkey
    exact Option.some.inj (ha.symm.trans hb)
  · refine List.Nodup.filter _ (has.filterMap ?_)
    intro a b v ha hb
    exact h.once a b v v ha hb rfl

theorem nodup_keys {chains : SlotId → List Addr} (h : Chains L m chains) :
    ((partitionOf L m pt).map (·.key)).Nodup := by
  rw [partitionOf_eq h]
  exact nodup_keys_among h h.entries_nodup

theorem sound_of_serving (h : Serving L m) :
    ∀ v ∈ partitionOf L m pt, Sound L m v := by
  obtain ⟨chains, hinv⟩ := h.inv
  intro v hv
  obtain ⟨⟨a, ha⟩, -⟩ := (mem_partitionOf hinv.chains).mp hv
  obtain ⟨k, hk⟩ := hinv.chains.isKey a v ha
  have halive : v.isDelete = false :=
    h.alive k _ (hinv.chains.contents_some ha hk)
  have hholds := hinv.blocks.own a v ha
  refine ⟨?_, by rw [hk]; exact k.short⟩
  cases hb : v.blockOffset with
  | none =>
      simp only [Holds, hb, halive] at hholds
      exact absurd hholds.2 (by decide)
  | some b => exact hholds.filled hb

/-! ## What comes out of the messages -/

/-- The same of a record. -/
def recordData (r : Record) : Bytes × Bytes × UInt64 :=
  (r.key, r.value, r.desc.version)

theorem map_readOff : ∀ (rs : List Record) (offset : Nat),
    ((readOff offset rs).map DecodeItem.toPut).map itemData =
      rs.map recordData := by
  intro rs
  induction rs with
  | nil => exact fun _ => rfl
  | cons r rs ih =>
      intro offset
      rw [readOff, List.map_cons, List.map_cons, ih]
      rfl

theorem Carries.accepted_iff {msg : Bytes} (h : Carries c t msg box) :
    (∃ items, Accepts c msg items) ↔ box.length ≤ c.maxPutItemNum := by
  obtain ⟨rs, hmsg, hshows⟩ := h
  rw [hshows.length_eq]
  simp only [Accepts, hmsg.decode]
  constructor
  · rintro ⟨items, hitems⟩
    by_contra hmany
    rw [if_neg hmany] at hitems
    cases hitems
  · intro hfew
    exact ⟨_, by rw [if_pos hfew]⟩

theorem Carries.data {msg : Bytes} (h : Carries c t msg box)
    {items : List DecodePutItem} (hitems : Accepts c msg items) :
    ∃ rs, List.Forall₂ (Shows t.behind t.mem) box rs ∧
      items.map itemData = rs.map recordData := by
  obtain ⟨rs, hmsg, hshows⟩ := h
  rw [Accepts, hmsg.decode] at hitems
  split at hitems
  · cases hitems
    exact ⟨rs, hshows, map_readOff rs _⟩
  · cases hitems

/-- All messages are accepted just when none of them has too many records. -/
theorem accepted_iff {msgs : List Bytes} {boxes : List (List IndexValue)}
    (h : List.Forall₂ (Carries c t) msgs boxes) :
    (∃ items, List.Forall₂ (Accepts c) msgs items) ↔
      ∀ box ∈ boxes, box.length ≤ c.maxPutItemNum := by
  induction h with
  | nil =>
      refine ⟨fun _ box hbox => ?_, fun _ => ⟨[], .nil⟩⟩
      cases hbox
  | cons hcarries _ ih =>
      rw [List.forall_mem_cons, ← ih, ← hcarries.accepted_iff]
      constructor
      · rintro ⟨items, hall⟩
        cases hall with
        | cons hone hrest => exact ⟨⟨_, hone⟩, ⟨_, hrest⟩⟩
      · rintro ⟨⟨one, hone⟩, rest, hrest⟩
        exact ⟨one :: rest, .cons hone hrest⟩

/-- What the accepted messages bring are the records of the entries. -/
theorem data_of_accepted {msgs : List Bytes}
    {boxes : List (List IndexValue)}
    (h : List.Forall₂ (Carries c t) msgs boxes) :
    ∀ {items : List (List DecodePutItem)},
      List.Forall₂ (Accepts c) msgs items →
      ∃ rs, List.Forall₂ (Shows t.behind t.mem) boxes.flatten rs ∧
        items.flatten.map itemData = rs.map recordData := by
  induction h with
  | nil =>
      intro items hitems
      cases hitems
      exact ⟨[], .nil, rfl⟩
  | cons hcarries _ ih =>
      intro items hitems
      cases hitems with
      | cons hone hrest =>
          obtain ⟨rs, hshows, hdata⟩ := hcarries.data hone
          obtain ⟨rs', hshows', hdata'⟩ := ih hrest
          refine ⟨rs ++ rs', List.rel_append hshows hshows', ?_⟩
          rw [List.flatten_cons, List.map_append, hdata, hdata',
            List.map_append]

/-! ## The keys -/

/-- Where `strncpy_s` writes the key whole, the record has it. -/
theorem Shows.key_eq {behind : Bytes → Bytes} {r : Record}
    (h : Shows behind m v r) (hwhole : v.key <+: copiedKey behind v.key) :
    r.key = v.key := by
  have hprefix := h.key
  rw [← List.prefix_iff_eq_take.mp hwhole] at hprefix
  have hlength := h.length
  exact (List.IsPrefix.eq_of_length hprefix hlength.symm).symm

/-- A zero can only be the last byte: the key is copied whole. -/
theorem whole_of_plain {key : Bytes} (behind : Bytes → Bytes)
    (h : (0 : UInt8) ∉ key.dropLast) : key <+: copiedKey behind key := by
  rcases List.eq_nil_or_concat' key with rfl | ⟨init, last, rfl⟩
  · exact List.nil_prefix
  rw [List.dropLast_concat] at h
  have hinit : ∀ b ∈ init, (decide (b ≠ 0)) = true := by
    intro b hb
    rw [decide_eq_true_eq]
    rintro rfl
    exact h hb
  rw [copiedKey, List.takeWhile_append_of_pos hinit]
  by_cases hlast : last = 0
  · rw [hlast, List.takeWhile_cons_of_neg (by decide), List.append_nil]
    exact List.prefix_append ..
  · rw [List.takeWhile_cons_of_pos (by simpa using hlast), List.takeWhile_nil,
      List.append_assoc]
    exact List.prefix_append ..

/-- The header is written into a buffer without records. -/
theorem filling_start (t : Task)
    (hraw : raw.length = crbRecoverMessageBuffLen) :
    ∃ buff, writeAt raw 0 (headBytes t) = some buff ∧
      Filling ⟨buff, ioDataRequestLen, 0, []⟩ [] := by
  have hheadLen : (headBytes t).length = 16 := by
    simp only [headBytes, List.length_append, length_leBytes]
  obtain ⟨old, rest, rfl, hold⟩ := exists_split
    (show 16 ≤ raw.length by rw [hraw]; decide)
  have hlen : (headBytes t ++ rest).length = crbRecoverMessageBuffLen := by
    rw [← hraw, List.length_append, List.length_append, hold, hheadLen]
  obtain ⟨head, more, hcut, hhead⟩ := exists_split
    (show ioDataRequestLen ≤ (headBytes t ++ rest).length by
      rw [hlen]; decide)
  refine ⟨headBytes t ++ rest,
    writeAt_eq [] rest rfl rfl (hold.trans hheadLen.symm),
    ⟨head, more, ?_, hhead⟩, hlen, rfl, rfl⟩
  rw [List.flatMap_nil, List.append_nil]
  exact hcut

/-- **WHAT IS SENT**: the messages carry all entries, divided as they fit; or
    an entry is too large for any message, and entries are missing. -/
theorem task_spec (hserving : Serving L m) (h : Undisturbed L m pt t)
    (hraw : raw.length = crbRecoverMessageBuffLen) :
    ∃ msgs boxes, backGroundRecoverTask c t raw = some msgs ∧
      List.Forall₂ (Carries c t) msgs boxes ∧
      ((∀ v ∈ partitionOf L m pt, needLen v ≤ messageRoom) ∧
          boxes = packFrom needLen messageRoom [] (partitionOf L m pt) ∨
        (∃ v ∈ partitionOf L m pt, messageRoom < needLen v) ∧
          boxes.flatten.length < (partitionOf L m pt).length) := by
  obtain ⟨rfl, rfl, rfl, hsend, hregistered⟩ := h
  obtain ⟨chains, hinv⟩ := hserving.inv
  obtain ⟨buff, hwrite, hfilling⟩ := filling_start t hraw
  have hstart : Holding t ⟨buff, ioDataRequestLen, 0, []⟩ [] :=
    ⟨[], hfilling, .nil, rfl⟩
  obtain ⟨ret, s, hrun, hcases⟩ := processAll_spec (c := c) hsend
    (partitionOf t.layout t.mem t.taskPtId) hstart .nil
    (sound_of_serving hserving)
  have htask := backGroundRecoverTask_eq (c := c) hinv.chains hregistered
    raw
  simp only [hwrite, hrun, Option.bind_eq_bind, Option.bind_some] at htask
  rcases hcases with ⟨hall, rfl, boxes, box, hholding, hsent, hpack⟩ |
    ⟨hlarge, hret, boxes, hsent, hfew⟩
  · obtain ⟨buff, hclose, hcarries, -⟩ :=
      hholding.close c crbPtRecoverFinishFlag
    refine ⟨s.sent ++ [buff.take s.buffOffset], boxes ++ [box], ?_,
      List.rel_append hsent (.cons hcarries .nil), Or.inl ⟨hall, hpack⟩⟩
    rw [htask]
    simp [hclose]
  · refine ⟨s.sent, boxes, ?_, hsent, Or.inr ⟨hlarge, ?_⟩⟩
    · rw [htask, if_pos hret]
    · rw [List.length_nil, Nat.zero_add] at hfew
      exact hfew

/-- Records that show their keys whole are the data of the entries. -/
theorem map_recordData {behind : Bytes → Bytes} {vs : List IndexValue}
    {rs : List Record} (h : List.Forall₂ (Shows behind m) vs rs)
    (hwhole : ∀ v ∈ vs, v.key <+: copiedKey behind v.key) :
    rs.map recordData = vs.map (entryData m) := by
  induction h with
  | nil => rfl
  | cons hshows _ ih =>
      rw [List.map_cons, List.map_cons,
        ih fun v hv => hwhole v (List.mem_cons_of_mem _ hv)]
      rw [recordData, hshows.key_eq (hwhole _ (List.mem_cons_self ..)),
        hshows.value, hshows.version]
      rfl

theorem map_itemKey (items : List DecodePutItem) :
    items.map (·.key) = (items.map itemData).map Prod.fst := by
  rw [List.map_map]
  rfl

theorem map_entryKey (vs : List IndexValue) :
    vs.map (·.key) = (vs.map (entryData m)).map Prod.fst := by
  rw [List.map_map]
  rfl

/-- What a task has done whose messages are received: every entry fits, no
    message has too many, and the records are the data of the entries. -/
theorem Faithful.entries {msgs : List Bytes} (hserving : Serving L m)
    (h : Undisturbed L m pt t) (hraw : raw.length = crbRecoverMessageBuffLen)
    (htask : backGroundRecoverTask c t raw = some msgs)
    (hfaithful : Faithful c L m pt msgs) :
    (∀ v ∈ partitionOf L m pt, needLen v ≤ messageRoom) ∧
      (∀ box ∈ packFrom needLen messageRoom [] (partitionOf L m pt),
        box.length ≤ c.maxPutItemNum) ∧
      ∃ rs, List.Forall₂ (Shows t.behind m) (partitionOf L m pt) rs ∧
        ∀ x, x ∈ rs.map recordData ↔ Stored L m pt x := by
  obtain ⟨chains, hinv⟩ := hserving.inv
  obtain ⟨msgs', boxes, htask', hcarries, hcases⟩ := task_spec hserving h hraw
  cases htask.symm.trans htask'
  obtain ⟨items, hitems, hnodup, hstored⟩ := hfaithful
  obtain ⟨rs, hshows, hdata⟩ := data_of_accepted hcarries hitems
  rw [h.mem] at hshows
  rw [hdata] at hstored
  rw [map_itemKey, hdata] at hnodup
  rcases hcases with ⟨hfits, hboxes⟩ | ⟨-, hmissing⟩
  · have hflat : boxes.flatten = partitionOf L m pt := by
      rw [hboxes, flatten_packFrom, List.nil_append]
    rw [hflat] at hshows
    exact ⟨hfits, hboxes ▸ (accepted_iff hcarries).mp ⟨items, hitems⟩, rs,
      hshows, hstored⟩
  · -- there are as many records as entries
    have hperm : (rs.map recordData).Perm
        ((partitionOf L m pt).map (entryData m)) := by
      refine (List.perm_ext_iff_of_nodup (List.Nodup.of_map _ hnodup)
        (List.Nodup.of_map Prod.fst ?_)).mpr fun x => ?_
      · rw [← map_entryKey]
        exact nodup_keys hinv.chains
      · rw [hstored, stored_iff hinv.chains]
    have hlen := hperm.length_eq
    rw [List.length_map, List.length_map, ← hshows.length_eq] at hlen
    exact absurd hlen (Nat.ne_of_lt hmissing)

end UbsIo.Crb
