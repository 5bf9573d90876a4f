import UbsIo.Slices.Codec
import UbsIo.Flows.Address

/-! # What is serialized is deserialized

    `Serialize` puts the fields of a slice one behind the other, and
    `Deserialize` finds every one of them where it was put.  Only the number of
    addresses differs: `Serialize` takes any, `Deserialize` at most four. -/

namespace UbsIo.Slices

open UbsIo.Lib

variable {memMaxLen : Nat} {rest b : Bytes}

/-! ## The writer -/

/-- The writer behind what it has written. -/
def Writer.behind (pre rest : Bytes) : Writer :=
  ⟨pre ++ rest, pre.length, rest.length⟩

theorem put_behind (pre : Bytes) (hmax : rest.length ≤ memMaxLen) (hpos : 0 < b.length)
    (hlen : b.length ≤ rest.length) :
    (Writer.behind pre rest).put memMaxLen b =
      .ok (.behind (pre ++ b) (rest.drop b.length)) := by
  have hdrop : (pre ++ rest).drop (pre.length + b.length) =
      rest.drop b.length := by
    rw [← List.drop_drop, List.drop_left]
  rw [Writer.put, if_pos ⟨Nat.lt_of_lt_of_le hpos hlen, hmax, hlen⟩]
  simp only [Writer.behind, List.take_left, hdrop, List.length_append,
    List.length_drop]

/-- Some fields, one behind the other. -/
def putAll (memMaxLen : Nat) : List Bytes → Writer → Except BResult Writer
  | [], w => .ok w
  | b :: bs, w => do
      let w ← w.put memMaxLen b
      putAll memMaxLen bs w

theorem putAll_behind : ∀ {bs : List Bytes} (pre : Bytes) {rest : Bytes},
    (∀ b ∈ bs, 0 < b.length) → rest.length ≤ memMaxLen →
    bs.flatten.length ≤ rest.length →
    putAll memMaxLen bs (.behind pre rest) =
      .ok (.behind (pre ++ bs.flatten) (rest.drop bs.flatten.length)) := by
  intro bs
  induction bs with
  | nil =>
      intro pre rest _ _ _
      rw [List.flatten_nil, List.append_nil]
      rfl
  | cons b bs ih =>
      intro pre rest hpos hmax hlen
      rw [List.flatten_cons, List.length_append] at hlen
      have hput := put_behind pre hmax (hpos b (List.mem_cons_self ..))
        (Nat.le_of_add_right_le hlen)
      have hrest : (rest.drop b.length).length = rest.length - b.length :=
        List.length_drop
      rw [putAll, hput]
      show putAll memMaxLen bs (.behind _ _) = _
      rw [ih _ (fun b hb => hpos b (List.mem_cons_of_mem _ hb)) (by omega)
        (by omega), List.drop_drop, List.append_assoc, List.flatten_cons,
        List.length_append]

/-! ## The fields -/

theorem length_flowAddr_bytes (a : FlowAddr) :
    a.bytes.length = flowAddrSize := by
  simp [FlowAddr.bytes, flowAddrSize]

def Slice.fields (s : Slice) : List Bytes :=
  [leBytes 4 s.dataCrc.toNat, leBytes 2 s.flowType.toNat,
    leBytes 8 s.length.toNat, leBytes 8 s.addrs.length] ++
    s.addrs.map FlowAddr.bytes

/-- What a derived class puts before the `Slice`. -/
def AnySlice.head : AnySlice → List Bytes
  | .slice _ => []
  | .rCache s => [leBytes 2 s.ptId.toNat]
  | .wCache s => [leBytes 8 s.flowId.toNat, leBytes 8 s.offsetInFlow.toNat,
      leBytes 8 s.indexInFlow.toNat]

def AnySlice.fields (s : AnySlice) : List Bytes :=
  s.head ++ s.base.fields

theorem putAddrs_eq : ∀ (addrs : List FlowAddr) (w : Writer),
    putAddrs memMaxLen addrs w =
      putAll memMaxLen (addrs.map FlowAddr.bytes) w := by
  intro addrs
  induction addrs with
  | nil => exact fun _ => rfl
  | cons a rest ih =>
      intro w
      rw [putAddrs, List.map_cons, putAll]
      simp only [ih]

theorem slice_write_eq (s : Slice) (w : Writer) :
    s.write memMaxLen w = putAll memMaxLen s.fields w := by
  rw [Slice.write]
  simp only [putAddrs_eq]
  rfl

theorem write_eq (s : AnySlice) (w : Writer) :
    s.write memMaxLen w = putAll memMaxLen s.fields w := by
  cases s with
  | slice s => exact slice_write_eq s w
  | rCache s =>
      rw [AnySlice.write, RCacheSlice.write]
      simp only [slice_write_eq]
      rfl
  | wCache s =>
      rw [AnySlice.write, WCacheSlice.write]
      simp only [slice_write_eq]
      rfl

theorem length_flatten_addrs (addrs : List FlowAddr) :
    (addrs.map FlowAddr.bytes).flatten.length =
      flowAddrSize * addrs.length := by
  induction addrs with
  | nil => rfl
  | cons a rest ih =>
      rw [List.map_cons, List.flatten_cons, List.length_append, ih,
        length_flowAddr_bytes, List.length_cons]
      ring

theorem length_slice_fields (s : Slice) :
    s.fields.flatten.length = s.getSerializeLen := by
  rw [Slice.fields, List.flatten_append, List.length_append,
    length_flatten_addrs, Slice.getSerializeLen]
  simp

theorem length_fields (s : AnySlice) :
    s.fields.flatten.length = s.getSerializeLen := by
  rw [AnySlice.fields, List.flatten_append, List.length_append,
    length_slice_fields]
  cases s with
  | slice s => exact Nat.zero_add _
  | rCache s => simp [AnySlice.head, AnySlice.base, AnySlice.getSerializeLen,
      RCacheSlice.getSerializeLen]
  | wCache s => simp [AnySlice.head, AnySlice.base, AnySlice.getSerializeLen,
      WCacheSlice.getSerializeLen]

theorem head_pos (s : AnySlice) : ∀ b ∈ s.head, 0 < b.length := by
  intro b hb
  cases s with
  | slice s => cases hb
  | rCache s =>
      rw [List.mem_singleton.mp hb, length_leBytes]
      exact Nat.succ_pos _
  | wCache s =>
      simp only [AnySlice.head, List.mem_cons, List.not_mem_nil,
        or_false] at hb
      rcases hb with rfl | rfl | rfl <;>
        exact Nat.lt_of_lt_of_eq (Nat.succ_pos 7) (length_leBytes ..).symm

theorem slice_fields_pos (s : Slice) : ∀ b ∈ s.fields, 0 < b.length := by
  intro b hb
  rcases List.mem_append.mp hb with hb | hb
  · simp only [List.mem_cons, List.not_mem_nil, or_false] at hb
    rcases hb with rfl | rfl | rfl | rfl <;> simp
  · obtain ⟨a, -, rfl⟩ := List.mem_map.mp hb
    rw [length_flowAddr_bytes]
    exact Nat.succ_pos _

theorem fields_pos (s : AnySlice) : ∀ b ∈ s.fields, 0 < b.length := by
  intro b hb
  rcases List.mem_append.mp hb with hb | hb
  · exact head_pos s b hb
  · exact slice_fields_pos s.base b hb

/-- **SERIALIZE** fills the buffer with the fields, and leaves the rest of it
    as it was. -/
theorem serialize_eq (s : AnySlice) {data : Bytes}
    (hlen : s.getSerializeLen ≤ data.length)
    (hmax : data.length ≤ memMaxLen) :
    s.serialize memMaxLen (some data) =
      .ok (s.fields.flatten ++ data.drop s.getSerializeLen,
        s.getSerializeLen) := by
  have hput := putAll_behind [] (fields_pos s) hmax
    (by rw [length_fields]; exact hlen)
  rw [length_fields] at hput
  show (s.write memMaxLen (.behind [] data) >>= _) = _
  rw [write_eq, hput]
  show Except.ok (_, ([] ++ s.fields.flatten).length) = _
  rw [List.nil_append, length_fields]
  rfl

/-! ## The reader -/

variable {α β : Type} {mem : Memory} {data length pos n : Nat}

/-- What a reader returns, and what it has read. -/
def exec (m : Decode α) (reads : List (Nat × Nat)) :
    Except BResult α × List (Nat × Nat) :=
  m.run.run reads

/-- A reader goes on where the one before it has come to. -/
theorem exec_bind (m : Decode α) (f : α → Decode β)
    (reads : List (Nat × Nat)) :
    exec (m >>= f) reads =
      match exec m reads with
      | (.ok a, reads') => exec (f a) reads'
      | (.error e, reads') => (.error e, reads') := by
  show (ExceptT.bindCont f (exec m reads).1 : StateM _ _).run
    (exec m reads).2 = _
  rcases exec m reads with ⟨a | e, reads'⟩ <;> rfl

theorem exec_bind_ok {m : Decode α} {f : α → Decode β} {a : α}
    {reads reads' : List (Nat × Nat)} (h : exec m reads = (.ok a, reads')) :
    exec (m >>= f) reads = exec (f a) reads' := by
  rw [exec_bind, h]

theorem exec_bind_error {m : Decode α} {f : α → Decode β} {e : BResult}
    {reads reads' : List (Nat × Nat)} (h : exec m reads = (.error e, reads')) :
    exec (m >>= f) reads = (.error e, reads') := by
  rw [exec_bind, h]

theorem exec_field (reads : List (Nat × Nat)) :
    exec (field mem data length pos n) reads =
      if length < pos + n then (.error .invalidParam, reads)
      else (.ok ((List.range' (data + pos) n).map mem),
        reads ++ [(data + pos, n)]) := by
  rw [field]
  split
  · rfl
  · rfl

/-! ## What is read -/

/-- Nothing is read outside of the message. -/
def Within (data length : Nat) (m : Decode α) : Prop :=
  ∀ reads, ∀ r ∈ (exec m reads).2,
    r ∈ reads ∨ data ≤ r.1 ∧ r.1 + r.2 ≤ data + length

/-- A value that the reader may return. -/
def Returns (m : Decode α) (a : α) : Prop :=
  ∃ reads reads', exec m reads = (.ok a, reads')

theorem within_pure (a : α) : Within data length (pure a : Decode α) :=
  fun _ _ hr => .inl hr

theorem within_throw (e : BResult) :
    Within data length (throw e : Decode α) :=
  fun _ _ hr => .inl hr

theorem Within.bind {m : Decode α} {f : α → Decode β}
    (hm : Within data length m)
    (hf : ∀ a, Returns m a → Within data length (f a)) :
    Within data length (m >>= f) := by
  intro reads r hr
  rcases hexec : exec m reads with ⟨result, reads'⟩
  have hread : ∀ r ∈ reads', r ∈ reads ∨
      data ≤ r.1 ∧ r.1 + r.2 ≤ data + length := by
    intro r hr
    have hm := hm reads r
    rw [hexec] at hm
    exact hm hr
  cases result with
  | error e =>
      rw [exec_bind_error hexec] at hr
      exact hread r hr
  | ok a =>
      rw [exec_bind_ok hexec] at hr
      rcases hf a ⟨reads, reads', hexec⟩ reads' r hr with hr | hr
      · exact hread r hr
      · exact .inr hr

/-- A part of the message is a message. -/
theorem Within.part {m : Decode α} {k : Nat}
    (hm : Within (data + k) (length - k) m) (hk : k ≤ length) :
    Within data length m := by
  intro reads r hr
  rcases hm reads r hr with hr | hr
  · exact .inl hr
  · exact .inr (by omega)

theorem within_field : Within data length (field mem data length pos n) := by
  intro reads r hr
  rw [exec_field] at hr
  split at hr
  · exact .inl hr
  · rcases List.mem_append.mp hr with hr | hr
    · exact .inl hr
    · rw [List.mem_singleton] at hr
      subst hr
      exact .inr (by constructor <;> dsimp only <;> omega)

/-- A field that has been read lies in the message. -/
theorem Returns.field_le {b : Bytes}
    (h : Returns (field mem data length pos n) b) : pos + n ≤ length := by
  obtain ⟨reads, reads', h⟩ := h
  rw [exec_field] at h
  split at h
  · cases h
  · omega

theorem within_addrsFrom : ∀ (vsize pos : Nat),
    Within data length (addrsFrom mem data length pos vsize) := by
  intro vsize
  induction vsize with
  | zero =>
      intro pos
      rw [addrsFrom]
      exact within_pure _
  | succ vsize ih =>
      intro pos
      rw [addrsFrom]
      exact within_field.bind fun b _ =>
        (ih _).bind fun rest _ => within_pure _

theorem within_slice : Within data length (Slice.deserialize mem data length) := by
  rw [Slice.deserialize]
  split
  · exact within_throw _
  · refine within_field.bind fun dataCrc _ => within_field.bind fun flowType _ =>
      within_field.bind fun sliceLength _ => within_field.bind fun vsize _ => ?_
    dsimp only
    split
    · exact within_throw _
    · exact (within_addrsFrom _ _).bind fun addrs _ => within_pure _

theorem within_rCacheSlice :
    Within data length (RCacheSlice.deserialize mem data length) := by
  rw [RCacheSlice.deserialize]
  split
  · exact within_throw _
  · exact within_field.bind fun ptId hptId =>
      (within_slice.part hptId.field_le).bind fun slice _ => within_pure _

theorem within_wCacheSlice :
    Within data length (WCacheSlice.deserialize mem data length) := by
  rw [WCacheSlice.deserialize]
  split
  · exact within_throw _
  · exact within_field.bind fun flowId _ => within_field.bind fun offset _ =>
      within_field.bind fun index hindex =>
        (within_slice.part hindex.field_le).bind fun slice _ => within_pure _

/-- **DESERIALIZE** reads nothing outside of the message. -/
theorem within_deserialize (kind : SliceKind) :
    Within data length (deserialize kind mem data length) := by
  cases kind with
  | slice => exact within_slice.bind fun s _ => within_pure _
  | rCache => exact within_rCacheSlice.bind fun s _ => within_pure _
  | wCache => exact within_wCacheSlice.bind fun s _ => within_pure _

/-! ## What is found -/

/-- The reader returns `a`, whatever has been read before. -/
def Yields (m : Decode α) (a : α) : Prop :=
  ∀ reads, ∃ reads', exec m reads = (.ok a, reads')

theorem yields_pure (a : α) : Yields (pure a : Decode α) a :=
  fun reads => ⟨reads, rfl⟩

theorem Yields.bind {m : Decode α} {f : α → Decode β} {a : α} {b : β}
    (hm : Yields m a) (hf : Yields (f a) b) : Yields (m >>= f) b := by
  intro reads
  obtain ⟨reads', hm⟩ := hm reads
  obtain ⟨reads'', hf⟩ := hf reads'
  exact ⟨reads'', (exec_bind_ok hm).trans hf⟩

/-- The bytes lie in memory from `data` on. -/
def Holds (mem : Memory) (data : Nat) (bs : Bytes) : Prop :=
  (List.range' data bs.length).map mem = bs

theorem holds_append {xs ys : Bytes} :
    Holds mem data (xs ++ ys) ↔
      Holds mem data xs ∧ Holds mem (data + xs.length) ys := by
  rw [Holds, Holds, Holds, List.length_append, ← List.range'_append_1,
    List.map_append]
  constructor
  · intro h
    exact List.append_inj h (by simp)
  · rintro ⟨hxs, hys⟩
    rw [hxs, hys]

theorem field_yields (pos n : Nat) (hb : Holds mem (data + pos) b) (hn : b.length = n)
    (hlen : pos + n ≤ length) :
    Yields (field mem data length pos n) b := by
  intro reads
  subst hn
  rw [exec_field, if_neg (Nat.not_lt.mpr hlen), hb]
  exact ⟨_, rfl⟩

theorem uint16_leBytes (x : UInt16) :
    UInt16.ofNat (leNat (leBytes 2 x.toNat)) = x := by
  rw [leNat_leBytes_of_lt x.toNat_lt, UInt16.ofNat_toNat]

theorem uint32_leBytes (x : UInt32) :
    UInt32.ofNat (leNat (leBytes 4 x.toNat)) = x := by
  rw [leNat_leBytes_of_lt x.toNat_lt, UInt32.ofNat_toNat]

theorem uint64_leBytes (x : UInt64) :
    UInt64.ofNat (leNat (leBytes 8 x.toNat)) = x := by
  rw [leNat_leBytes_of_lt x.toNat_lt, UInt64.ofNat_toNat]

theorem ofBytes_bytes (a : FlowAddr) : FlowAddr.ofBytes a.bytes = a := by
  have hid : a.bytes.take 8 = leBytes 8 a.chunkId.toNat :=
    slice_eq [] (leBytes 4 a.chunkOffset.toNat ++ leBytes 4 a.chunkLen.toNat)
      (by simp) rfl (length_leBytes ..)
  have hoffset : (a.bytes.drop 8).take 4 = leBytes 4 a.chunkOffset.toNat :=
    slice_eq (leBytes 8 a.chunkId.toNat) (leBytes 4 a.chunkLen.toNat) rfl
      (length_leBytes ..) (length_leBytes ..)
  have hlen : (a.bytes.drop 12).take 4 = leBytes 4 a.chunkLen.toNat :=
    slice_eq (leBytes 8 a.chunkId.toNat ++ leBytes 4 a.chunkOffset.toNat) []
      (List.append_nil _).symm (by simp) (length_leBytes ..)
  rw [FlowAddr.ofBytes, hid, hoffset, hlen, uint64_leBytes, uint32_leBytes,
    uint32_leBytes]

theorem addrsFrom_yields : ∀ {addrs : List FlowAddr} (pos : Nat),
    Holds mem (data + pos) (addrs.map FlowAddr.bytes).flatten →
    pos + flowAddrSize * addrs.length ≤ length →
    Yields (addrsFrom mem data length pos addrs.length) addrs := by
  intro addrs
  induction addrs with
  | nil =>
      intro pos _ _
      exact yields_pure _
  | cons a rest ih =>
      intro pos hmem hlen
      rw [List.map_cons, List.flatten_cons, holds_append,
        length_flowAddr_bytes, Nat.add_assoc] at hmem
      rw [List.length_cons, Nat.mul_succ] at hlen
      rw [List.length_cons, addrsFrom]
      refine (field_yields pos flowAddrSize hmem.1 (length_flowAddr_bytes a)
        (by omega)).bind ?_
      refine (ih _ hmem.2 (by omega)).bind ?_
      rw [ofBytes_bytes]
      exact yields_pure _

theorem slice_yields {s : Slice} (hdata : data ≠ 0)
    (hmem : Holds mem data s.fields.flatten)
    (hlen : s.getSerializeLen ≤ length) (haddrs : s.addrs.length ≤ 4) :
    Yields (Slice.deserialize mem data length) s := by
  rw [Slice.getSerializeLen] at hlen
  simp only [Slice.fields, List.cons_append, List.nil_append,
    List.flatten_cons, holds_append, length_leBytes] at hmem
  obtain ⟨hcrc, htype, hlength, hsize, hpieces⟩ := hmem
  have hcount : leNat (leBytes 8 s.addrs.length) = s.addrs.length :=
    leNat_leBytes_of_lt (Nat.lt_of_le_of_lt haddrs (by decide))
  rw [Slice.deserialize, if_neg hdata]
  refine (field_yields 0 4 hcrc (length_leBytes ..) (by omega)).bind ?_
  refine (field_yields 4 2 htype (length_leBytes ..) (by omega)).bind ?_
  refine (field_yields 6 8 hlength (length_leBytes ..) (by omega)).bind ?_
  refine (field_yields 14 8 hsize (length_leBytes ..) (by omega)).bind ?_
  dsimp only
  rw [hcount, if_neg (Nat.not_lt.mpr haddrs)]
  refine (addrsFrom_yields 22 hpieces (by omega)).bind ?_
  rw [uint32_leBytes, uint16_leBytes, uint64_leBytes]
  exact yields_pure _

/-- The object of the right kind finds all the fields. -/
theorem deserialize_yields {s : AnySlice} (hdata : data ≠ 0)
    (hmem : Holds mem data s.fields.flatten)
    (hlen : s.getSerializeLen ≤ length)
    (haddrs : s.base.addrs.length ≤ 4) :
    Yields (deserialize s.kind mem data length) s := by
  cases s with
  | slice s => exact (slice_yields hdata hmem hlen haddrs).bind (yields_pure _)
  | rCache s =>
      rw [AnySlice.getSerializeLen, RCacheSlice.getSerializeLen] at hlen
      simp only [AnySlice.fields, AnySlice.head, AnySlice.base,
        List.cons_append, List.nil_append, List.flatten_cons, holds_append,
        length_leBytes] at hmem haddrs
      obtain ⟨hpt, hslice⟩ := hmem
      refine Yields.bind ?_ (yields_pure _)
      rw [RCacheSlice.deserialize, if_neg hdata]
      refine (field_yields 0 2 hpt (length_leBytes ..) (by omega)).bind ?_
      refine (slice_yields (by omega) hslice (by omega) haddrs).bind ?_
      rw [uint16_leBytes]
      exact yields_pure _
  | wCache s =>
      rw [AnySlice.getSerializeLen, WCacheSlice.getSerializeLen] at hlen
      simp only [AnySlice.fields, AnySlice.head, AnySlice.base,
        List.cons_append, List.nil_append, List.flatten_cons, holds_append,
        length_leBytes] at hmem haddrs
      obtain ⟨hflow, hoffset, hindex, hslice⟩ := hmem
      refine Yields.bind ?_ (yields_pure _)
      rw [WCacheSlice.deserialize, if_neg hdata]
      refine (field_yields 0 8 hflow (length_leBytes ..) (by omega)).bind ?_
      refine (field_yields 8 8 hoffset (length_leBytes ..) (by omega)).bind ?_
      refine (field_yields 16 8 hindex (length_leBytes ..) (by omega)).bind ?_
      refine (slice_yields (by omega) hslice (by omega) haddrs).bind ?_
      rw [uint64_leBytes, uint64_leBytes, uint64_leBytes]
      exact yields_pure _

/-- **THE CODEC**: a buffer that is long enough, and not longer than `memcpy_s`
    allows, takes the slice, and what is in it then is the slice if it has at
    most four addresses; and no message makes the reader leave it. -/
theorem slice_codec (memMaxLen : Nat) :
    (∀ (s : AnySlice) (data : Bytes), s.getSerializeLen ≤ data.length →
      data.length ≤ memMaxLen →
      ∃ out, s.serialize memMaxLen (some data) =
          .ok (out, s.getSerializeLen) ∧
        (s.base.addrs.length ≤ 4 → ∀ (mem : Memory) (address length : Nat),
          address ≠ 0 → s.getSerializeLen ≤ length →
          Holds mem address (out.take s.getSerializeLen) →
          Yields (deserialize s.kind mem address length) s)) ∧
    ∀ (kind : SliceKind) (mem : Memory) (address length : Nat),
      Within address length (deserialize kind mem address length) := by
  refine ⟨?_, fun kind _ _ _ => within_deserialize kind⟩
  intro s data hlen hmax
  refine ⟨_, serialize_eq s hlen hmax, ?_⟩
  intro haddrs mem address length haddress hlength hmem
  rw [← length_fields, List.take_left] at hmem
  exact deserialize_yields haddress hmem hlength haddrs

/-- A memory with the bytes at address 1. -/
def memoryOf (bs : Bytes) : Memory := fun i => bs.getD (i - 1) 0

theorem holds_memoryOf (bs : Bytes) (n : Nat) :
    Holds (memoryOf bs) 1 (bs.take n) := by
  refine List.ext_getElem (by simp) ?_
  intro i hi hi'
  have hlen : i < bs.length :=
    Nat.lt_of_lt_of_le hi' (List.length_take_le' ..)
  rw [List.getElem_map, List.getElem_range', Nat.one_mul, List.getElem_take,
    memoryOf, Nat.add_sub_cancel_left, List.getD_eq_getElem _ _ hlen]

theorem slice_codec_two :
    ∃ out, (AnySlice.wCache ⟨3, 4194300, 1, 9, flowDisk, 8,
        [⟨70, 4194300, 4⟩, ⟨71, 0, 4⟩]⟩).serialize 2147483647
          (some (List.replicate 80 0)) = .ok (out, 78) ∧
      Yields (deserialize .wCache (memoryOf out) 1 80)
        (.wCache ⟨3, 4194300, 1, 9, flowDisk, 8,
          [⟨70, 4194300, 4⟩, ⟨71, 0, 4⟩]⟩) := by
  obtain ⟨out, hout, hback⟩ := (slice_codec 2147483647).1
    (.wCache ⟨3, 4194300, 1, 9, flowDisk, 8,
      [⟨70, 4194300, 4⟩, ⟨71, 0, 4⟩]⟩) (List.replicate 80 0)
    (by decide) (by decide)
  refine ⟨out, hout, hback (by decide) _ 1 80 (by decide) (by decide)
    (holds_memoryOf out 78)⟩

/-- The pieces of an answer of the flow. -/
def ofFlow (a : Flows.FlowAddr) : FlowAddr :=
  ⟨UInt64.ofNat a.chunkId, UInt32.ofNat a.chunkOffset,
    UInt32.ofNat a.chunkLen⟩

/-- Five chunks for one range. -/
def overFiveChunks : List (Flows.Event (Fin 2)) :=
  [.getAddrByOffset (two 0) (.of 0 20), .go (two 0), .go (two 0), .go (two 0),
   .go (two 0), .go (two 0), .preLoadObject (two 0) true, .start (two 1)] ++
  [70, 71, 72, 73, 74].flatMap (fun chunkId =>
    [.go (two 1), .mediaAlloc (two 1) (some chunkId), .go (two 1),
     .go (two 1)]) ++
  [.go (two 0), .go (two 0), .go (two 0)]

def fiveAddrs : List FlowAddr :=
  [⟨70, 0, 4⟩, ⟨71, 0, 4⟩, ⟨72, 0, 4⟩, ⟨73, 0, 4⟩, ⟨74, 0, 4⟩]

/-- The flow can answer with five addresses, and `Deserialize` refuses what
    `Serialize` makes of them; and `memcpy_s` refuses a buffer that is too
    long. -/
theorem five_addrs_refused :
    (∃ s, runFrom (Flows.step (.of 4 0)) (Flows.Flow.init (Fin 2))
        overFiveChunks = some s ∧
      ∃ a ∈ s.answers, a.2.map ofFlow = fiveAddrs) ∧
    (∃ out, (AnySlice.slice ⟨0, flowDisk, 20, fiveAddrs⟩).serialize 2147483647
        (some (List.replicate 102 0)) = .ok (out, 102) ∧
      (exec (deserialize .slice (memoryOf out) 1 102) []).1 =
        .error .invalidParam) ∧
    ∀ memMaxLen, (AnySlice.slice ⟨0, flowDisk, 0, []⟩).serialize memMaxLen
      (some (List.replicate (memMaxLen + 1) 0)) = .error .innerErr := by
  refine ⟨?_, ⟨_, serialize_eq _ (by decide) (by decide), ?_⟩, ?_⟩
  · have hrun : (runFrom (Flows.step (.of 4 0)) (Flows.Flow.init (Fin 2))
        overFiveChunks).any (fun s => s.answers.any fun a =>
          decide (a.2.map ofFlow = fiveAddrs)) = true := by
      decide +kernel
    obtain ⟨s, hs, hanswer⟩ := (Option.any_eq_true _ _).mp hrun
    obtain ⟨a, ha, haddrs⟩ := List.any_eq_true.mp hanswer
    exact ⟨s, hs, a, ha, of_decide_eq_true haddrs⟩
  · rfl
  · intro memMaxLen
    have hput : (Writer.mk (List.replicate (memMaxLen + 1) 0) 0
        (List.replicate (memMaxLen + 1) (0 : UInt8)).length).put memMaxLen
          (leBytes 4 (0 : UInt32).toNat) = .error .innerErr := by
      rw [Writer.put, List.length_replicate]
      exact if_neg fun h => absurd h.2.1 (Nat.not_succ_le_self _)
    show (Slice.write memMaxLen _ _ >>= _) = _
    rw [Slice.write, hput]
    rfl

end UbsIo.Slices
