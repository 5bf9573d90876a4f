import UbsIo.Crb.Faithful
import UbsIo.Server.Replay

/-! # From one cache to another

    `BackGroundRecoverTask` bucket by bucket, on a cache that may change
    between the buckets, and `HandleCrbReceiveData` on the other node.  The
    messages in `Sender.sent` are on their way: they arrive in order and as
    late as they like.  A message that is refused or lost ends the task.

    What the task has read and the other node has not got yet is a list of
    items (`Carried`).  A bucket adds its entries at the end, a message that is
    received takes items from the front. -/

namespace UbsIo.Crb

open UbsIo.Lib UbsIo.Cache UbsIo.Message UbsIo.Server

/-! ## The task -/

/-- What stays the same during a transfer: the coding, the two caches, and what
    the task was started with. -/
structure Route where
  config : Config
  source : Layout
  target : Layout
  taskPtId : Nat
  localNid : Nat
  groupIndex : Nat

/-- The task on a cache; the messages count as taken for now. -/
def Route.task (r : Route) (behind : Bytes → Bytes) (m : Mem) : Task where
  layout := r.source
  mem := m
  taskPtId := r.taskPtId
  localNid := r.localNid
  groupIndex := r.groupIndex
  behind := behind
  send := fun _ => .ok
  registered := fun _ => true

inductive TaskState where
  | running
  /-- All buckets have been read, and the last message is on its way. -/
  | finished
  /-- The task has come back early. -/
  | stopped
deriving DecidableEq, Repr

structure Transfer where
  /-- The bucket that is next. -/
  bucketIndex : Nat
  sender : Sender
  state : TaskState

/-- The task before its first bucket, on a buffer with whatever it contains. -/
def Transfer.start (r : Route) (raw : Bytes) : Option Transfer := do
  let buff ← writeAt raw 0 (headBytes (r.task id init))
  some ⟨0, ⟨buff, ioDataRequestLen, 0, []⟩, .running⟩

/-- A turn of the loop over the buckets. -/
def Transfer.scan (r : Route) (behind : Bytes → Bytes) (m : Mem)
    (t : Transfer) : Option Transfer :=
  if t.state = .running ∧ t.bucketIndex < r.source.shards.sum then do
    let (ret, sender) ←
      processBucket r.config (r.task behind m) t.bucketIndex t.sender
    if ret = .ok then
      some { t with bucketIndex := t.bucketIndex + 1, sender }
    else some { t with sender, state := .stopped }
  else none

/-- What comes behind the loop. -/
def Transfer.finish (r : Route) (t : Transfer) : Option Transfer :=
  if t.state = .running ∧ t.bucketIndex = r.source.shards.sum then do
    let buff ← closeMessage r.config t.sender crbPtRecoverFinishFlag
    let msg := buff.take t.sender.buffOffset
    some
      { t with
        sender :=
          { t.sender with msgBuff := buff, sent := t.sender.sent ++ [msg] }
        state := .finished }
  else none

/-- The task is not registered any more, or a message does not get through. -/
def Transfer.stop (t : Transfer) : Transfer :=
  { t with sender := { t.sender with sent := [] }, state := .stopped }

/-! ## The other node -/

/-- What the cache needs of an item that has been decoded. -/
structure Fits (d : DecodePutItem) : Prop where
  nonempty : 0 < d.key.length
  short : d.key.length < maxKeySize
  filled : 0 < d.value.length

instance (d : DecodePutItem) : Decidable (Fits d) :=
  decidable_of_iff (0 < d.key.length ∧ d.key.length < maxKeySize ∧
      0 < d.value.length)
    ⟨fun h => ⟨h.1, h.2.1, h.2.2⟩, fun h => ⟨h.nonempty, h.short, h.filled⟩⟩

def putItemOf (d : DecodePutItem) : Option PutItem :=
  if h : Fits d then
    some ⟨⟨d.key, h.nonempty, h.short⟩, d.value, d.version, h.filled⟩
  else none

/-- `PutLocal` on a message of the task. -/
def receive (r : Route) (mServiceable : Bool) (m : Mem) (msg : Bytes)
    (grants : PutItem → Grants) : Option (BResult × Mem) := do
  match ← deCodePutRequest r.config r.config.maxPutItemNum msg msg.length with
  | .error ret => some (ret, m)
  | .ok decoded =>
      let items ← decoded.mapM putItemOf
      let (ret, _, m) ← putLocal r.target mServiceable r.taskPtId m
        (items.map fun item => (item, grants item))
      some (ret, m)

/-- The first message arrives. -/
def Transfer.deliver (r : Route) (mServiceable : Bool) (m : Mem)
    (grants : PutItem → Grants) (t : Transfer) : Option (Transfer × Mem) :=
  match t.sender.sent with
  | [] => none
  | msg :: rest => do
      let (ret, m) ← receive r mServiceable m msg grants
      if ret = .ok then
        some ({ t with sender := { t.sender with sent := rest } }, m)
      else some (t.stop, m)

/-! ## What is on its way -/

/-- The key, the value and the version of an item. -/
def putData (item : PutItem) : Bytes × Bytes × UInt64 :=
  (item.key.bytes, item.value, item.version)

/-- The task has read these items, and the other node has not got them yet. -/
def Carried (r : Route) (t : Transfer) (items : List PutItem) : Prop :=
  ∃ boxes rs, List.Forall₂ (Message r.config) t.sender.sent boxes ∧
    (t.state = .running → Filling t.sender rs) ∧
    (t.state ≠ .running → rs = []) ∧ (∀ q ∈ rs, q.Sized .put) ∧
    (boxes.flatten ++ rs).map recordData = items.map putData

variable {r : Route} {t t' : Transfer} {m m' : Mem} {s : Sender}
  {items : List PutItem} {c : Config} {v : IndexValue}

/-- When nothing is at hand or on its way, there are no items. -/
theorem Carried.eq_nil (h : Carried r t items) (hstate : t.state ≠ .running)
    (hsent : t.sender.sent = []) : items = [] := by
  obtain ⟨boxes, rs, hboxes, -, hrs, -, hdata⟩ := h
  rw [hsent, List.forall₂_nil_left_iff] at hboxes
  rw [hboxes, hrs hstate] at hdata
  exact List.map_eq_nil_iff.mp hdata.symm

/-- One entry goes behind the records at hand, or the task ends. -/
theorem processIndexValue_records {task : Task} {rs : List Record}
    (h : Filling s rs) (hsized : ∀ q ∈ rs, q.Sized .put)
    (hsend : ∀ msg, task.send msg = .ok)
    (hv : Sound task.layout task.mem v) :
    (messageRoom < needLen v ∧
      processIndexValue c task v s = some (.invalidParam, s)) ∨
    ∃ s' msgs boxes rs' q, processIndexValue c task v s = some (.ok, s') ∧
      s'.sent = s.sent ++ msgs ∧ List.Forall₂ (Message c) msgs boxes ∧
      Filling s' rs' ∧ (∀ q ∈ rs', q.Sized .put) ∧
      Shows task.behind task.mem v q ∧ boxes.flatten ++ rs' = rs ++ [q] ∧
      (recordsLen rs + needLen v ≤ messageRoom →
        s'.sent = s.sent ∧ recordsLen rs' = recordsLen rs + needLen v) := by
  by_cases hlarge : messageRoom < needLen v
  · exact Or.inl ⟨hlarge, processIndexValue_large hlarge⟩
  right
  have hsmall : ¬ needLen v > crbRecoverMessageBuffLen - ioDataRequestLen :=
    hlarge
  have hle := h.le
  rw [h.offset] at hle
  by_cases hroom : recordsLen rs + needLen v ≤ messageRoom
  · obtain ⟨buff, offset, q, hcall, hq, hone, hfilling⟩ := h.encode hv hroom
    have hstays : ¬ needLen v > crbRecoverMessageBuffLen - s.buffOffset := by
      rw [h.offset]
      unfold messageRoom at hroom
      omega
    refine ⟨⟨buff, offset, s.curItemNum + 1, s.sent⟩, [], [], rs ++ [q], q, ?_,
      (List.append_nil _).symm, .nil, hfilling, ?_, hq, rfl,
      fun _ => ⟨rfl, ?_⟩⟩
    · rw [processIndexValue, if_neg hsmall, if_neg hstays]
      simp [hcall]
    · intro x hx
      rcases List.mem_append.mp hx with hx | hx
      · exact hsized x hx
      · rw [List.mem_singleton.mp hx]
        exact hq.sized
    · rw [recordsLen_append, hone]
  · obtain ⟨buff, hclose, hmsg, hempty⟩ := h.close c hsized 0
    obtain ⟨buff', offset, q, hcall, hq, -, hfilling⟩ :=
      (hempty (s.sent ++ [buff.take s.buffOffset])).encode hv
        (show 0 + needLen v ≤ messageRoom by omega)
    have hfull : needLen v > crbRecoverMessageBuffLen - s.buffOffset := by
      rw [h.offset]
      unfold messageRoom at hroom
      omega
    refine ⟨_, _, [rs], [q], q, ?_, rfl, .cons hmsg .nil, hfilling, ?_, hq, ?_,
      fun hroom' => absurd hroom' hroom⟩
    · rw [processIndexValue, if_neg hsmall, if_pos hfull]
      simp [hclose, hsend, hcall]
    · intro x hx
      rw [List.mem_singleton.mp hx]
      exact hq.sized
    · rw [List.flatten_singleton]

/-- All entries of a bucket, by induction. -/
theorem processAll_records {task : Task} (hsend : ∀ msg, task.send msg = .ok) :
    ∀ (vs : List IndexValue) {s : Sender} {rs : List Record}, Filling s rs →
      (∀ q ∈ rs, q.Sized .put) → (∀ v ∈ vs, Sound task.layout task.mem v) →
      ∃ ret s', untilError (processIndexValue c task) vs s = some (ret, s') ∧
        (ret ≠ .ok → ∃ v ∈ vs, messageRoom < needLen v) ∧
        (ret = .ok → ∃ msgs boxes rs' qs, s'.sent = s.sent ++ msgs ∧
          List.Forall₂ (Message c) msgs boxes ∧ Filling s' rs' ∧
          (∀ q ∈ rs', q.Sized .put) ∧
          List.Forall₂ (Shows task.behind task.mem) vs qs ∧
          boxes.flatten ++ rs' = rs ++ qs ∧
          (recordsLen rs + boxLen needLen vs ≤ messageRoom →
            s'.sent = s.sent ∧
              recordsLen rs' = recordsLen rs + boxLen needLen vs)) := by
  intro vs
  induction vs with
  | nil =>
      intro s rs h hsized _
      refine ⟨.ok, s, rfl, fun hne => absurd rfl hne, fun _ => ?_⟩
      exact ⟨[], [], rs, [], (List.append_nil _).symm, .nil, h, hsized, .nil,
        (List.append_nil _).symm, fun _ => ⟨rfl, rfl⟩⟩
  | cons v vs ih =>
      intro s rs h hsized hsound
      rcases processIndexValue_records (c := c) h hsized hsend
          (hsound v (List.mem_cons_self ..)) with
        ⟨hlarge, hcall⟩ |
        ⟨s₁, msgs, boxes, rs₁, q, hcall, hsent, hboxes, hfilling, hsized₁, hq,
          hflat, hquiet⟩
      · refine ⟨.invalidParam, s, ?_,
          fun _ => ⟨v, List.mem_cons_self .., hlarge⟩, fun hok => ?_⟩
        · rw [untilError, hcall]
          rfl
        · cases hok
      obtain ⟨ret, s', hrun, hbad, hgood⟩ := ih hfilling hsized₁
        fun x hx => hsound x (List.mem_cons_of_mem _ hx)
      refine ⟨ret, s', by rw [untilError, hcall]; exact hrun, ?_, ?_⟩
      · intro hne
        obtain ⟨x, hx, hlarge⟩ := hbad hne
        exact ⟨x, List.mem_cons_of_mem _ hx, hlarge⟩
      · intro hok
        obtain ⟨msgs', boxes', rs', qs, hsent', hboxes', hfilling', hsized',
          hqs, hflat', hquiet'⟩ := hgood hok
        refine ⟨msgs ++ msgs', boxes ++ boxes', rs', q :: qs, ?_,
          List.rel_append hboxes hboxes', hfilling', hsized', .cons hq hqs, ?_,
          fun hroom => ?_⟩
        · rw [hsent', hsent, List.append_assoc]
        · rw [List.flatten_append, List.append_assoc, hflat',
            ← List.append_assoc, hflat, List.append_assoc]
          rfl
        · rw [← List.singleton_append, boxLen_append, boxLen_singleton] at hroom
          obtain ⟨hs₁, hlen⟩ := hquiet (by omega)
          obtain ⟨hs', hlen'⟩ := hquiet' (by omega)
          refine ⟨hs'.trans hs₁, ?_⟩
          rw [hlen', hlen, ← List.singleton_append, boxLen_append,
            boxLen_singleton, Nat.add_assoc]

/-! ## Buckets -/

/-- The key lies in this bucket. -/
def InBucket (L : Layout) (i : Nat) (k : Key) : Prop :=
  getBucketAddr L.shards 0 i =
    some ((homeOf L k.bytes).shard, (homeOf L k.bytes).bucket)

instance (L : Layout) (i : Nat) (k : Key) : Decidable (InBucket L i k) :=
  inferInstanceAs (Decidable (_ = _))

/-- The bucket of the key is among the first ones. -/
def Scanned (L : Layout) (n : Nat) (k : Key) : Prop := ∃ i < n, InBucket L i k

instance (L : Layout) (n : Nat) (k : Key) : Decidable (Scanned L n k) :=
  inferInstanceAs (Decidable (∃ i < n, InBucket L i k))

theorem scanned_succ {L : Layout} {n : Nat} {k : Key} :
    Scanned L (n + 1) k ↔ Scanned L n k ∨ InBucket L n k := by
  constructor
  · rintro ⟨i, hi, hk⟩
    rcases Nat.lt_succ_iff_lt_or_eq.mp hi with hi | rfl
    · exact Or.inl ⟨i, hi, hk⟩
    · exact Or.inr hk
  · rintro (⟨i, hi, hk⟩ | hk)
    · exact ⟨i, Nat.lt_succ_of_lt hi, hk⟩
    · exact ⟨n, Nat.lt_succ_self n, hk⟩

/-- The places of the buckets, in the order of their numbers. -/
theorem mem_bucketPlaces {L : Layout} {shard bucket : Nat} :
    (shard, bucket) ∈ (List.range L.shards.length).flatMap (fun shard =>
        (List.range (L.shards.getD shard 1)).map fun bucket =>
          (0 + shard, bucket)) ↔
      shard < L.shards.length ∧ bucket < L.shards.getD shard 1 := by
  simp only [List.mem_flatMap, List.mem_range, List.mem_map, Prod.mk.injEq,
    Nat.zero_add]
  constructor
  · rintro ⟨x, hx, y, hy, rfl, rfl⟩
    exact ⟨hx, hy⟩
  · rintro ⟨hshard, hbucket⟩
    exact ⟨shard, hshard, bucket, hbucket, rfl, rfl⟩

/-- When all buckets have been read, all keys have. -/
theorem scanned_all (L : Layout) (k : Key) : Scanned L L.shards.sum k := by
  have hslot := slotOf_mem L (hashKey k.bytes)
  simp only [Layout.slotIds, List.mem_flatMap, List.mem_map,
    List.mem_range] at hslot
  obtain ⟨shard, hshard, bucket, hbucket, slot, -, heq⟩ := hslot
  have hplace := List.mem_map_of_mem (f := some)
    (mem_bucketPlaces.mpr ⟨hshard, hbucket⟩)
  rw [← map_getBucketAddr] at hplace
  obtain ⟨i, hi, haddr⟩ := List.mem_map.mp hplace
  refine ⟨i, List.mem_range.mp hi, ?_⟩
  rw [InBucket, haddr, homeOf, ← heq]

/-- A key lies in one bucket. -/
theorem inBucket_unique {L : Layout} {i j : Nat} {k : Key}
    (hi : i < L.shards.sum) (hj : j < L.shards.sum) (hik : InBucket L i k)
    (hjk : InBucket L j k) : i = j := by
  have hnodup : ((List.range L.shards.sum).map
      (getBucketAddr L.shards 0)).Nodup := by
    rw [map_getBucketAddr]
    refine List.Nodup.map (Option.some_injective _) ?_
    rw [List.nodup_flatMap]
    refine ⟨fun shard _ => ?_, ?_⟩
    · exact List.nodup_range.map fun x y hxy => congrArg Prod.snd hxy
    · refine List.nodup_range.imp ?_
      intro x y hxy p hp hq
      obtain ⟨a, -, rfl⟩ := List.mem_map.mp hp
      obtain ⟨b, -, hb⟩ := List.mem_map.mp hq
      have hshard := congrArg Prod.fst hb
      omega
  exact List.inj_on_of_nodup_map hnodup (List.mem_range.mpr hi)
    (List.mem_range.mpr hj) (hik.trans hjk.symm)

/-! ## One bucket -/

/-- What an item takes in a message. -/
def itemLen (item : PutItem) : Nat :=
  ioDescriptionLen + item.key.bytes.length + 1 + item.value.length

/-- These are the entries of the partition whose keys have the property. -/
structure Reads (L : Layout) (m : Mem) (pt : Nat) (P : Key → Prop)
    (items : List PutItem) : Prop where
  nodup : (items.map (·.key)).Nodup
  mem : ∀ item, item ∈ items ↔ ∃ e, contents L m item.key = some e ∧
    e.ptId = pt ∧ P item.key ∧ item.value = e.bytes ∧
    item.version = e.version.toUInt64

theorem Reads.append {L : Layout} {pt : Nat} {P Q R : Key → Prop}
    {more : List PutItem} (h : Reads L m pt P items)
    (hmore : Reads L m pt Q more) (hapart : ∀ k, P k → ¬ Q k)
    (hR : ∀ k, R k ↔ P k ∨ Q k) : Reads L m pt R (items ++ more) := by
  constructor
  · rw [List.map_append, List.nodup_append]
    refine ⟨h.nodup, hmore.nodup, ?_⟩
    intro k hk k' hk' heq
    obtain ⟨item, hitem, rfl⟩ := List.mem_map.mp hk
    obtain ⟨item', hitem', rfl⟩ := List.mem_map.mp hk'
    obtain ⟨-, -, -, hP, -⟩ := (h.mem item).mp hitem
    obtain ⟨-, -, -, hQ, -⟩ := (hmore.mem item').mp hitem'
    exact hapart _ hP (heq ▸ hQ)
  · intro item
    rw [List.mem_append, h.mem, hmore.mem, hR]
    constructor
    · rintro (⟨e, hcon, hpt, hP, hdata⟩ | ⟨e, hcon, hpt, hQ, hdata⟩)
      · exact ⟨e, hcon, hpt, Or.inl hP, hdata⟩
      · exact ⟨e, hcon, hpt, Or.inr hQ, hdata⟩
    · rintro ⟨e, hcon, hpt, hP | hQ, hdata⟩
      · exact Or.inl ⟨e, hcon, hpt, hP, hdata⟩
      · exact Or.inr ⟨e, hcon, hpt, hQ, hdata⟩

theorem putData_injective : Function.Injective putData := by
  rintro ⟨⟨key, hpos, hshort⟩, value, version, hvalue⟩
    ⟨⟨key', hpos', hshort'⟩, value', version', hvalue'⟩ h
  simp only [putData, Prod.mk.injEq] at h
  obtain ⟨rfl, rfl, rfl⟩ := h
  rfl

section

variable {L : Layout} {chains : SlotId → List Addr} {pt i : Nat}
  {place : Nat × Nat} {vs : List IndexValue}

theorem mem_bucketPart (h : Chains L m chains)
    (hplace : getBucketAddr L.shards 0 i = some place) :
    v ∈ bucketPart m pt chains (some place) ↔
      (∃ a, m.index.lookup a = some v) ∧ v.ptId = pt ∧
        getBucketAddr L.shards 0 i =
          some ((homeOf L v.key).shard, (homeOf L v.key).bucket) := by
  obtain ⟨shard, bucket⟩ := place
  rw [hplace]
  simp only [bucketPart, partitionAmong, List.mem_flatMap, List.mem_range,
    List.mem_filter, List.mem_filterMap, decide_eq_true_eq]
  constructor
  · rintro ⟨slot, -, ⟨a, ha, hv⟩, hpt⟩
    obtain ⟨u, hu, hhome⟩ := h.home _ a ha
    cases hv.symm.trans hu
    exact ⟨⟨a, hv⟩, hpt, by rw [hhome]⟩
  · rintro ⟨⟨a, hv⟩, hpt, hhere⟩
    have hslot := slotOf_mem L (hashKey v.key)
    simp only [Layout.slotIds, List.mem_flatMap, List.mem_map,
      List.mem_range] at hslot
    obtain ⟨shard', -, bucket', -, slot, hlt, heq⟩ := hslot
    rw [homeOf, ← heq] at hhere
    cases hhere
    refine ⟨slot, hlt, ⟨a, ?_, hv⟩, hpt⟩
    have hmem := h.mem a v hv
    rw [homeOf, ← heq] at hmem
    exact hmem

theorem nodup_bucketPart (h : Chains L m chains) :
    ((bucketPart m pt chains (some place)).map (·.key)).Nodup := by
  obtain ⟨shard, bucket⟩ := place
  rw [bucketPart, ← partitionAmong_flatMap]
  refine nodup_keys_among h ?_
  rw [List.nodup_flatMap]
  refine ⟨fun slot _ => h.nodup _, List.nodup_range.imp ?_⟩
  intro x y hxy a hx hy
  obtain ⟨u, hu, hhome⟩ := h.home _ a hx
  obtain ⟨w, hw, hhome'⟩ := h.home _ a hy
  cases hu.symm.trans hw
  cases hhome.symm.trans hhome'
  exact hxy rfl

/-- An entry as an item. -/
theorem exists_item (hserving : Serving L m) {a : Addr}
    (ha : m.index.lookup a = some v) :
    ∃ item : PutItem, putData item = entryData m v := by
  obtain ⟨chains, hinv⟩ := hserving.inv
  obtain ⟨k, hk⟩ := hinv.chains.isKey a v ha
  have hcon := hinv.chains.contents_some ha hk
  have hbytes := bytes_ne_nil hinv hcon (hserving.alive k _ hcon)
  refine ⟨⟨k, (entryOf m v).bytes, v.version.toUInt64,
    List.length_pos_of_ne_nil hbytes⟩, ?_⟩
  rw [putData, entryData, hk]

theorem exists_items (h : ∀ v ∈ vs, ∃ item : PutItem,
    putData item = entryData m v) :
    ∃ items : List PutItem, items.map putData = vs.map (entryData m) := by
  induction vs with
  | nil => exact ⟨[], rfl⟩
  | cons v vs ih =>
      obtain ⟨item, hitem⟩ := h v (List.mem_cons_self ..)
      obtain ⟨items, hitems⟩ := ih fun x hx => h x (List.mem_cons_of_mem _ hx)
      exact ⟨item :: items, by rw [List.map_cons, hitem, hitems, List.map_cons]⟩

/-- The items of a bucket are its entries. -/
theorem reads_of_data (h : Chains L m chains)
    (hplace : getBucketAddr L.shards 0 i = some place)
    (hdata : items.map putData =
      (bucketPart m pt chains (some place)).map (entryData m)) :
    Reads L m pt (InBucket L i) items := by
  constructor
  · refine List.Nodup.of_map Key.bytes ?_
    have hkeys : (items.map (·.key)).map Key.bytes =
        (bucketPart m pt chains (some place)).map (·.key) := by
      rw [map_entryKey (m := m), ← hdata, List.map_map, List.map_map]
      rfl
    rw [hkeys]
    exact nodup_bucketPart h
  · intro item
    rw [← List.mem_map_of_injective putData_injective, hdata, List.mem_map]
    constructor
    · rintro ⟨v, hv, hentry⟩
      obtain ⟨⟨a, ha⟩, hpt, hhere⟩ := (mem_bucketPart h hplace).mp hv
      simp only [entryData, putData, Prod.mk.injEq] at hentry
      obtain ⟨hkey, hvalue, hversion⟩ := hentry
      refine ⟨entryOf m v, h.contents_some ha hkey, hpt, ?_, hvalue.symm,
        hversion.symm⟩
      rw [InBucket, ← hkey]
      exact hhere
    · rintro ⟨e, hcon, hpt, hhere, hvalue, hversion⟩
      rcases h.cases item.key with
        ⟨-, -, hnone⟩ | ⟨a, v, -, -, -, ha, hk, -, -, -, -, hsome⟩
      · rw [hnone] at hcon
        cases hcon
      · rw [hsome] at hcon
        cases hcon
        refine ⟨v, (mem_bucketPart h hplace).mpr ⟨⟨a, ha⟩, hpt, ?_⟩, ?_⟩
        · rw [hk]
          exact hhere
        · rw [entryData, putData, hk, hvalue, hversion]
          rfl

end

/-- No key of the partition in this bucket has a zero before its last byte. -/
def PlainBucket (r : Route) (m : Mem) (i : Nat) : Prop :=
  ∀ k e, contents r.source m k = some e → e.ptId = r.taskPtId →
    InBucket r.source i k → (0 : UInt8) ∉ k.bytes.dropLast

/-- **A BUCKET IS READ**: its entries go behind what is on its way, or one of
    them is too large for a message and the task ends. -/
theorem Transfer.scan_spec (hserving : Serving r.source m)
    (h : Carried r t items) (hstate : t.state = .running)
    (hlt : t.bucketIndex < r.source.shards.sum) (behind : Bytes → Bytes)
    (hplain : PlainBucket r m t.bucketIndex) :
    ∃ t' more, t.scan r behind m = some t' ∧
      Reads r.source m r.taskPtId (InBucket r.source t.bucketIndex) more ∧
      (t'.state = .stopped ∧ (∃ item ∈ more, messageRoom < itemLen item) ∨
        t'.state = .running ∧ t'.bucketIndex = t.bucketIndex + 1 ∧
        Carried r t' (items ++ more) ∧
        (t.sender.buffOffset + boxLen itemLen more ≤
            crbRecoverMessageBuffLen →
          t'.sender.sent = t.sender.sent ∧ t'.sender.buffOffset =
            t.sender.buffOffset + boxLen itemLen more)) := by
  obtain ⟨chains, hinv⟩ := hserving.inv
  obtain ⟨boxes, rs, hboxes, hfilling, -, hsized, hdata⟩ := h
  have hfilling := hfilling hstate
  -- the bucket
  have hplace := List.mem_map_of_mem (f := getBucketAddr r.source.shards 0)
    (List.mem_range.mpr hlt)
  rw [map_getBucketAddr] at hplace
  obtain ⟨place, -, hplace⟩ := List.mem_map.mp hplace
  obtain ⟨vs, hvs⟩ : ∃ vs, vs =
      bucketPart m r.taskPtId chains (some place) := ⟨_, rfl⟩
  have hmem : ∀ v ∈ vs, (∃ a, m.index.lookup a = some v) ∧
      v.ptId = r.taskPtId ∧ getBucketAddr r.source.shards 0 t.bucketIndex =
        some ((homeOf r.source v.key).shard,
          (homeOf r.source v.key).bucket) := by
    intro v hv
    rw [hvs] at hv
    exact (mem_bucketPart hinv.chains hplace.symm).mp hv
  have hsound : ∀ v ∈ vs, Sound r.source m v := by
    intro v hv
    obtain ⟨ha, hpt, -⟩ := hmem v hv
    exact sound_of_serving hserving v
      ((mem_partitionOf hinv.chains).mpr ⟨ha, hpt⟩)
  have hitem : ∀ v ∈ vs, ∃ item : PutItem, putData item = entryData m v := by
    intro v hv
    obtain ⟨⟨a, ha⟩, -⟩ := hmem v hv
    exact exists_item hserving ha
  obtain ⟨more, hmore⟩ := exists_items hitem
  have hread : Reads r.source m r.taskPtId
      (InBucket r.source t.bucketIndex) more :=
    reads_of_data hinv.chains hplace.symm (hvs ▸ hmore)
  have hneed : vs.map needLen = more.map itemLen := by
    have hone : ∀ v ∈ vs, needLen v = ioDescriptionLen +
        (entryData m v).1.length + 1 + (entryData m v).2.1.length := by
      intro v hv
      exact needLen_eq (t := r.task behind m) (hsound v hv).filled
    rw [List.map_congr_left hone]
    have hcongr := congrArg (List.map fun x : Bytes × Bytes × UInt64 =>
      ioDescriptionLen + x.1.length + 1 + x.2.1.length) hmore
    rw [List.map_map, List.map_map] at hcongr
    exact hcongr.symm
  have hboxLen : boxLen needLen vs = boxLen itemLen more := by
    rw [boxLen, boxLen, hneed]
  -- the loop
  have hbucket := processBucket_eq (c := r.config) (t := r.task behind m)
    hinv.chains hplace.symm t.sender
  rw [show bucketPart (r.task behind m).mem (r.task behind m).taskPtId chains
    (some place) = vs from hvs.symm] at hbucket
  obtain ⟨ret, s', hrun, hbad, hgood⟩ := processAll_records (c := r.config)
    (show ∀ msg, (r.task behind m).send msg = .ok from fun _ => rfl) vs
    hfilling hsized hsound
  rw [hrun] at hbucket
  by_cases hret : ret = .ok
  · obtain ⟨msgs, boxes', rs', qs, hsent, hboxes', hfilling', hsized', hqs,
      hflat, hquiet⟩ := hgood hret
    refine ⟨{ t with bucketIndex := t.bucketIndex + 1, sender := s' }, more,
      ?_, hread, Or.inr ⟨hstate, rfl, ?_, ?_⟩⟩
    · rw [scan, if_pos ⟨hstate, hlt⟩, hbucket]
      simp [hret]
    · refine ⟨boxes ++ boxes', rs', ?_, fun _ => hfilling', ?_, hsized', ?_⟩
      · show List.Forall₂ _ s'.sent _
        rw [hsent]
        exact List.rel_append hboxes hboxes'
      · intro hne
        exact absurd hstate hne
      · have hwhole : ∀ v ∈ vs, v.key <+: copiedKey behind v.key := by
          intro v hv
          obtain ⟨⟨a, ha⟩, hpt, hhere⟩ := hmem v hv
          obtain ⟨k, hk⟩ := hinv.chains.isKey a v ha
          refine whole_of_plain behind ?_
          rw [hk] at hhere ⊢
          exact hplain k _ (hinv.chains.contents_some ha hk) hpt hhere
        rw [List.flatten_append, List.append_assoc, hflat,
          ← List.append_assoc, List.map_append, hdata,
          map_recordData hqs hwhole, List.map_append, hmore]
        rfl
    · intro hroom
      rw [hfilling.offset] at hroom ⊢
      have hfits : recordsLen rs + boxLen needLen vs ≤ messageRoom := by
        rw [hboxLen]
        unfold messageRoom
        omega
      obtain ⟨hs, hlen⟩ := hquiet hfits
      refine ⟨hs, ?_⟩
      show s'.buffOffset = _
      rw [hfilling'.offset, hlen, hboxLen, Nat.add_assoc]
  · refine ⟨{ t with sender := s', state := .stopped }, more, ?_, hread,
      Or.inl ⟨rfl, ?_⟩⟩
    · rw [scan, if_pos ⟨hstate, hlt⟩, hbucket]
      simp [hret]
    · obtain ⟨v, hv, hlarge⟩ := hbad hret
      have hin := List.mem_map_of_mem (f := needLen) hv
      rw [hneed] at hin
      obtain ⟨item, hitem, hlen⟩ := List.mem_map.mp hin
      exact ⟨item, hitem, hlen ▸ hlarge⟩

/-! ## The two ends -/

/-- Nothing is on its way before the first bucket. -/
theorem Transfer.start_spec (r : Route) {raw : Bytes}
    (hraw : raw.length = crbRecoverMessageBuffLen) :
    ∃ t, Transfer.start r raw = some t ∧ t.state = .running ∧
      t.bucketIndex = 0 ∧ t.sender.sent = [] ∧
      t.sender.buffOffset = ioDataRequestLen ∧ Carried r t [] := by
  obtain ⟨buff, hwrite, hfilling⟩ := filling_start (r.task id init) hraw
  refine ⟨⟨0, ⟨buff, ioDataRequestLen, 0, []⟩, .running⟩, ?_, rfl, rfl, rfl,
    rfl, [], [], .nil, fun _ => hfilling, fun _ => rfl, ?_, rfl⟩
  · simp [start, hwrite]
  · intro q hq
    cases hq

/-- The last message takes what is at hand. -/
theorem Transfer.finish_spec (h : Carried r t items)
    (hstate : t.state = .running)
    (hall : t.bucketIndex = r.source.shards.sum) :
    ∃ t' msg, t.finish r = some t' ∧ t'.state = .finished ∧
      t'.bucketIndex = t.bucketIndex ∧
      t'.sender.sent = t.sender.sent ++ [msg] ∧ Carried r t' items := by
  obtain ⟨boxes, rs, hboxes, hfilling, -, hsized, hdata⟩ := h
  obtain ⟨buff, hclose, hmsg, -⟩ :=
    (hfilling hstate).close r.config hsized crbPtRecoverFinishFlag
  obtain ⟨msg, hmsgEq⟩ : ∃ msg, msg = buff.take t.sender.buffOffset := ⟨_, rfl⟩
  rw [← hmsgEq] at hmsg
  refine ⟨{ t with
      sender :=
        { t.sender with msgBuff := buff, sent := t.sender.sent ++ [msg] }
      state := .finished }, msg, ?_, rfl, rfl, rfl, boxes ++ [rs], [],
    List.rel_append hboxes (.cons hmsg .nil), ?_, fun _ => rfl, ?_, ?_⟩
  · rw [finish, if_pos ⟨hstate, hall⟩, hclose, hmsgEq]
    rfl
  · intro hrun
    cases hrun
  · intro q hq
    cases hq
  · rw [List.flatten_append, List.flatten_singleton, List.append_nil]
    exact hdata

/-- What an item leaves at a node that does not serve. -/
def putReplaced (pt : Nat) (f : Key → Option Entry) (item : PutItem) :
    Key → Option Entry :=
  Function.update f item.key
    (replaceEntry 0 item.value item.version.toUInt32 pt (f item.key))

/-- One item: it is overlaid, or a block is refused. -/
theorem putItem_replaced {chains : SlotId → List Addr}
    (h : Inv r.target m chains) (item : PutItem) (g : Grants) :
    ∃ reply m', putItem r.target false r.taskPtId m item g =
        some (reply, m') ∧ (∃ c', Inv r.target m' c') ∧
      m'.mIsRecovering = m.mIsRecovering ∧
      (reply.ret = .ok → contents r.target m' =
        putReplaced r.taskPtId (contents r.target m) item) := by
  have hcall : ∀ {ret : BResult} {m' : Mem}, ret ≠ .putRepeat →
      replace r.target m g ⟨item.key, item.value, 0, item.version.toUInt32,
        r.taskPtId⟩ = some ({ ret := ret }, m') →
      putItem r.target false r.taskPtId m item g =
        some ({ ret := ret }, m') := by
    intro ret m' hret hreplace
    simp [putItem, hreplace, hret]
  rcases replace_cases h g
      ⟨item.key, item.value, 0, item.version.toUInt32, r.taskPtId⟩
      item.nonempty with
    ⟨hnone, ⟨-, e, he, hrep⟩ | ⟨-, m', hrep, hinv, hrec, hcon⟩⟩ |
    ⟨e, hsome, ⟨hver, hrep⟩ | ⟨-, -, hrep⟩ |
      ⟨hver, -, m', hrep, hinv, hrec, hcon⟩⟩
  · have hne : e ≠ .putRepeat := by
      rintro rfl
      cases he
    refine ⟨_, m, hcall hne hrep, ⟨chains, h⟩, rfl, fun hok => ?_⟩
    exact absurd hok (BResult.ne_ok_of_fails he)
  · refine ⟨_, m', hcall (by decide) hrep, hinv, hrec, fun _ => ?_⟩
    rw [hcon, putReplaced, hnone]
    rfl
  · refine ⟨_, m, hcall (by decide) hrep, ⟨chains, h⟩, rfl, fun _ => ?_⟩
    rw [putReplaced, hsome, replaceEntry, if_pos (Or.inl hver), ← hsome,
      Function.update_eq_self]
  · refine ⟨_, m, hcall (by decide) hrep, ⟨chains, h⟩, rfl, fun hok => ?_⟩
    cases hok
  · refine ⟨_, m', hcall (by decide) hrep, hinv, hrec, fun _ => ?_⟩
    have hneither : ¬ (item.version.toUInt32 < e.version ∨
        e.bytes.length < 0) := by
      rintro (hlt | hlt)
      · exact hver hlt
      · exact Nat.not_lt_zero _ hlt
    rw [hcon, putReplaced, hsome, replaceEntry, if_neg hneither]

/-- All items of a message, by induction. -/
theorem putLocal_replaced (grants : PutItem → Grants) :
    ∀ (items : List PutItem) (result : BResult) {m : Mem}
      {chains : SlotId → List Addr}, Inv r.target m chains →
      ∃ ret replies m', forItems (putItem r.target false r.taskPtId)
          (fun ret => ret == .ok) result m
          (items.map fun item => (item, grants item)) =
            some (ret, replies, m') ∧ (∃ c', Inv r.target m' c') ∧
        m'.mIsRecovering = m.mIsRecovering ∧
        (ret = .ok → result = .ok ∧ contents r.target m' =
          items.foldl (putReplaced r.taskPtId) (contents r.target m)) := by
  intro items
  induction items with
  | nil =>
      intro result m chains h
      exact ⟨result, [], m, rfl, ⟨chains, h⟩, rfl, fun hok => ⟨hok, rfl⟩⟩
  | cons item items ih =>
      intro result m chains h
      obtain ⟨reply, m₁, hcall, ⟨chains₁, hinv₁⟩, hrec₁, hgood⟩ :=
        putItem_replaced h item (grants item)
      obtain ⟨ret, replies, m', hrun, hinv, hrec, hend⟩ := ih
        (if (reply.ret == .ok) = true then result else reply.ret) hinv₁
      refine ⟨ret, reply :: replies, m', ?_, hinv, hrec.trans hrec₁, ?_⟩
      · rw [List.map_cons, forItems]
        simp only [hcall, hrun, Option.bind_eq_bind, Option.bind_some]
      · intro hok
        obtain ⟨hres, hcon⟩ := hend hok
        by_cases hret : reply.ret = .ok
        · rw [if_pos (beq_iff_eq.mpr hret)] at hres
          rw [hgood hret] at hcon
          exact ⟨hres, hcon⟩
        · rw [if_neg (fun hb => hret (beq_iff_eq.mp hb))] at hres
          exact absurd hres hret

/-- What the decoder reads off are the items. -/
theorem mapM_putItemOf : ∀ (items : List PutItem) {ds : List DecodePutItem},
    ds.map itemData = items.map putData →
      ds.mapM putItemOf = some items := by
  intro items
  induction items with
  | nil =>
      intro ds h
      rw [List.map_nil, List.map_eq_nil_iff] at h
      rw [h]
      rfl
  | cons item items ih =>
      intro ds h
      cases ds with
      | nil => cases h
      | cons d ds =>
          rw [List.map_cons, List.map_cons, List.cons.injEq] at h
          have hd := h.1
          simp only [itemData, putData, Prod.mk.injEq] at hd
          obtain ⟨hkey, hvalue, hversion⟩ := hd
          have hfits : Fits d := by
            refine ⟨?_, ?_, ?_⟩
            · rw [hkey]
              exact item.key.nonempty
            · rw [hkey]
              exact item.key.short
            · rw [hvalue]
              exact item.nonempty
          have hone : putItemOf d = some item := by
            rw [putItemOf, dif_pos hfits]
            refine congrArg some (putData_injective ?_)
            exact Prod.ext hkey (Prod.ext hvalue hversion)
          rw [List.mapM_cons, hone, ih h.2]
          rfl

/-- What the first message is: the first of the items on their way, and the
    other node refuses it when they are too many. -/
theorem Carried.deliver_eq (h : Carried r t items)
    (hsent : t.sender.sent ≠ []) :
    ∃ front back, items = front ++ back ∧
      Carried r
        { t with sender := { t.sender with sent := t.sender.sent.tail } }
        back ∧
      ∀ mServiceable m grants, t.deliver r mServiceable m grants =
        if front.length ≤ r.config.maxPutItemNum then
          (putLocal r.target mServiceable r.taskPtId m
            (front.map fun item => (item, grants item))).map fun out =>
              if out.1 = .ok then
                ({ t with
                    sender :=
                      { t.sender with sent := t.sender.sent.tail } },
                  out.2.2)
              else (t.stop, out.2.2)
        else some (t.stop, m) := by
  obtain ⟨boxes, rs, hboxes, hfilling, hend, hsized, hdata⟩ := h
  cases hmsgs : t.sender.sent with
  | nil => exact absurd hmsgs hsent
  | cons msg rest =>
  rw [hmsgs] at hboxes
  obtain ⟨box, boxes', hmsg, hrest, rfl⟩ := List.forall₂_cons_left_iff.mp hboxes
  rw [List.flatten_cons, List.append_assoc, List.map_append] at hdata
  obtain ⟨front, back, rfl, hfront, hback⟩ := List.append_eq_map_iff.mp hdata
  have hlen : box.length = front.length := by
    have hcount := congrArg List.length hfront
    rw [List.length_map, List.length_map] at hcount
    exact hcount.symm
  refine ⟨front, back, rfl, ⟨boxes', rs, hrest, fun hrun => ?_, hend, hsized,
    hback.symm⟩, fun mServiceable m grants => ?_⟩
  · obtain ⟨hbuff, hlength, hoffset, hnum⟩ := hfilling hrun
    exact ⟨hbuff, hlength, hoffset, hnum⟩
  have hdecode := hmsg.decode r.config.maxPutItemNum
  rw [hlen] at hdecode
  by_cases hfew : front.length ≤ r.config.maxPutItemNum
  · rw [if_pos hfew] at hdecode
    have hitems := mapM_putItemOf front
      ((map_readOff box ioDataRequestLen).trans hfront.symm)
    have hreceive : receive r mServiceable m msg grants =
        (putLocal r.target mServiceable r.taskPtId m
          (front.map fun item => (item, grants item))).map
            fun out => (out.1, out.2.2) := by
      rw [receive, hdecode]
      show (_ >>= _) = _
      simp only [hitems, Option.bind_eq_bind, Option.bind_some]
      cases putLocal r.target mServiceable r.taskPtId m
        (front.map fun item => (item, grants item)) with
      | none => rfl
      | some out => rfl
    rw [if_pos hfew, Transfer.deliver, hmsgs]
    show (receive r mServiceable m msg grants).bind _ = _
    rw [hreceive]
    cases putLocal r.target mServiceable r.taskPtId m
        (front.map fun item => (item, grants item)) with
    | none => rfl
    | some out =>
        show (if out.1 = .ok then some _ else some _) =
          some (if _ then _ else _)
        by_cases hret : out.1 = .ok
        · rw [if_pos hret, if_pos hret]
          rfl
        · rw [if_neg hret, if_neg hret]
  · rw [if_neg hfew] at hdecode
    have hreceive : receive r mServiceable m msg grants =
        some (.invalidParam, m) := by
      rw [receive, hdecode]
      rfl
    rw [if_neg hfew, Transfer.deliver, hmsgs]
    show (receive r mServiceable m msg grants).bind _ = _
    rw [hreceive]
    rfl

/-- **A MESSAGE ARRIVES**: the other node overlays its items, which are the
    first of those on their way, or the task ends. -/
theorem Transfer.deliver_spec {chains : SlotId → List Addr}
    (hinv : Inv r.target m chains) (h : Carried r t items)
    (hsent : t.sender.sent ≠ []) (grants : PutItem → Grants) :
    ∃ t' m' front back, t.deliver r false m grants = some (t', m') ∧
      (∃ c', Inv r.target m' c') ∧ m'.mIsRecovering = m.mIsRecovering ∧
      items = front ++ back ∧
      (t'.state = .stopped ∨
        t'.state = t.state ∧ t'.bucketIndex = t.bucketIndex ∧
        t'.sender.sent = t.sender.sent.tail ∧ Carried r t' back ∧
        contents r.target m' =
          front.foldl (putReplaced r.taskPtId) (contents r.target m)) := by
  obtain ⟨front, back, rfl, hback, hdeliver⟩ := h.deliver_eq hsent
  rw [hdeliver]
  by_cases hfew : front.length ≤ r.config.maxPutItemNum
  · obtain ⟨ret, replies, m', hrun, hinv', hrec, hend⟩ :=
      putLocal_replaced grants front .ok hinv
    rw [if_pos hfew, putLocal, hrun, Option.map_some]
    by_cases hret : ret = .ok
    · rw [if_pos hret]
      exact ⟨_, m', front, back, rfl, hinv', hrec, rfl,
        Or.inr ⟨rfl, rfl, rfl, hback, (hend hret).2⟩⟩
    · rw [if_neg hret]
      exact ⟨_, m', front, back, rfl, hinv', hrec, rfl, Or.inl rfl⟩
  · rw [if_neg hfew]
    exact ⟨_, m, front, back, rfl, ⟨chains, hinv⟩, rfl, rfl, Or.inl rfl⟩

/-- Different keys: each has what its own item leaves. -/
theorem foldl_putReplaced (pt : Nat) : ∀ (items : List PutItem)
    (f : Key → Option Entry), (items.map (·.key)).Nodup →
    (∀ item ∈ items, items.foldl (putReplaced pt) f item.key =
      replaceEntry 0 item.value item.version.toUInt32 pt (f item.key)) ∧
    ∀ k, (∀ item ∈ items, item.key ≠ k) →
      items.foldl (putReplaced pt) f k = f k := by
  intro items
  induction items with
  | nil =>
      intro f _
      refine ⟨fun item hitem => ?_, fun _ _ => rfl⟩
      cases hitem
  | cons item items ih =>
      intro f hnodup
      rw [List.map_cons, List.nodup_cons] at hnodup
      obtain ⟨hhere, hothers⟩ := ih (putReplaced pt f item) hnodup.2
      have hfresh : ∀ x ∈ items, x.key ≠ item.key := by
        intro x hx heq
        exact hnodup.1 (heq ▸ List.mem_map_of_mem hx)
      constructor
      · intro x hx
        rcases List.mem_cons.mp hx with rfl | hx
        · rw [List.foldl_cons, hothers x.key hfresh, putReplaced,
            Function.update_self]
        · rw [List.foldl_cons, hhere x hx, putReplaced,
            Function.update_of_ne (hfresh x hx)]
      · intro k hk
        rw [List.foldl_cons, hothers k
          fun x hx => hk x (List.mem_cons_of_mem _ hx), putReplaced,
          Function.update_of_ne fun heq =>
            hk item (List.mem_cons_self ..) heq.symm]

/-! ## A single key -/

end UbsIo.Crb
