import UbsIo.Message.Codec

/-! # Blocks of a request

    A block in the making is a header, the images of the items so far and what
    the allocator left behind them.  The decoders and `FillResults` walk over
    the images; a stored result changes one image. -/

namespace UbsIo.Message

open UbsIo.Lib UbsIo.Cache

variable {c : Config} {kind : Kind}

/-! ## Descriptors -/

theorem length_lenWord (k : BitVec 16) (v o : BitVec 24) :
    (lenWord k v o).length = 8 := length_leBytes 8 _

theorem leNat_lenWord (k : BitVec 16) (v o : BitVec 24) :
    leNat (lenWord k v o) =
      k.toNat + 2 ^ 16 * v.toNat + 2 ^ 40 * o.toNat := by
  refine leNat_leBytes_of_lt ?_
  have hk := k.isLt
  have hv := v.isLt
  have ho := o.isLt
  omega

theorem IoLocDesc.length_bytes (d : IoLocDesc) : d.bytes.length = 32 := by
  simp [IoLocDesc.bytes, length_lenWord]

/-- A descriptor is read back as it was written. -/
theorem IoLocDesc.ofBytes_bytes (d : IoLocDesc) :
    IoLocDesc.ofBytes d.bytes = d := by
  obtain ⟨w, hw⟩ : ∃ w, w = lenWord d.keyLen d.valueLen d.offset := ⟨_, rfl⟩
  obtain ⟨v, hv⟩ : ∃ v, v = leBytes 8 d.version.toNat := ⟨_, rfl⟩
  obtain ⟨r, hr⟩ : ∃ r, r = leBytes 4 d.result.toNat := ⟨_, rfl⟩
  obtain ⟨z, hz⟩ : ∃ z, z = leBytes 4 d.reserved.toNat := ⟨_, rfl⟩
  obtain ⟨a, ha⟩ : ∃ a, a = leBytes 8 d.valueAddr.toNat := ⟨_, rfl⟩
  have hbytes : d.bytes = w ++ v ++ r ++ z ++ a := by
    rw [hw, hv, hr, hz, ha]
    rfl
  have hwl : w.length = 8 := by rw [hw, length_lenWord]
  have hvl : v.length = 8 := by rw [hv, length_leBytes]
  have hrl : r.length = 4 := by rw [hr, length_leBytes]
  have hzl : z.length = 4 := by rw [hz, length_leBytes]
  have hal : a.length = 8 := by rw [ha, length_leBytes]
  -- each field is a piece of the 32 bytes
  have hword : leNat (d.bytes.take 8) = d.keyLen.toNat +
      2 ^ 16 * d.valueLen.toNat + 2 ^ 40 * d.offset.toNat := by
    rw [← leNat_lenWord, ← hw]
    have hpiece : (d.bytes.drop 0).take 8 = w := by
      refine slice_eq [] (v ++ r ++ z ++ a) ?_ rfl hwl
      simp only [hbytes, List.append_assoc, List.nil_append]
    rw [List.drop_zero] at hpiece
    rw [hpiece]
  have hversion : (d.bytes.drop 8).take 8 = v := by
    refine slice_eq w (r ++ z ++ a) ?_ hwl hvl
    simp only [hbytes, List.append_assoc]
  have hresult : (d.bytes.drop 16).take 4 = r := by
    refine slice_eq (w ++ v) (z ++ a) ?_ (by simp [hwl, hvl]) hrl
    simp only [hbytes, List.append_assoc]
  have hreserved : (d.bytes.drop 20).take 4 = z := by
    refine slice_eq (w ++ v ++ r) a ?_ (by simp [hwl, hvl, hrl]) hzl
    simp only [hbytes, List.append_assoc]
  have haddr : (d.bytes.drop 24).take 8 = a := by
    refine slice_eq (w ++ v ++ r ++ z) [] ?_
      (by simp [hwl, hvl, hrl, hzl]) hal
    simp only [hbytes, List.append_nil]
  have hkl := d.keyLen.isLt
  have hvl := d.valueLen.isLt
  have hol := d.offset.isLt
  have hkey : BitVec.ofNat 16 (leNat (d.bytes.take 8)) = d.keyLen := by
    rw [hword]
    refine BitVec.eq_of_toNat_eq ?_
    rw [BitVec.toNat_ofNat]
    omega
  have hvalue : BitVec.ofNat 24 (leNat (d.bytes.take 8) / 2 ^ 16) =
      d.valueLen := by
    rw [hword]
    refine BitVec.eq_of_toNat_eq ?_
    rw [BitVec.toNat_ofNat]
    omega
  have hoffset : BitVec.ofNat 24 (leNat (d.bytes.take 8) / 2 ^ 40) =
      d.offset := by
    rw [hword]
    refine BitVec.eq_of_toNat_eq ?_
    rw [BitVec.toNat_ofNat]
    omega
  simp only [IoLocDesc.ofBytes, hkey, hvalue, hoffset, hversion, hresult,
    hreserved, haddr, hv, hr, hz, ha]
  rw [leNat_leBytes_of_lt d.version.toNat_lt,
    leNat_leBytes_of_lt d.result.toNat_lt,
    leNat_leBytes_of_lt d.reserved.toNat_lt,
    leNat_leBytes_of_lt d.valueAddr.toNat_lt]
  simp

/-! ## Images -/

/-- An item in a block, with what stands in its `result` and `valueAddr`. -/
structure Slot where
  fields : Fields
  result : UInt32
  valueAddr : UInt64

def Slot.desc (s : Slot) : IoLocDesc where
  keyLen := BitVec.ofNat 16 (s.fields.key.bytes.length + 1)
  valueLen := BitVec.ofNat 24 s.fields.value.length
  offset := s.fields.offset
  version := s.fields.version
  result := s.result
  reserved := 0
  valueAddr := s.valueAddr

def Slot.image (s : Slot) : Bytes :=
  s.desc.bytes ++ s.fields.key.bytes ++ [0] ++ s.fields.value

def images (l : List Slot) : Bytes := l.flatMap Slot.image

theorem Slot.length_image (s : Slot) : s.image.length = s.fields.len := by
  simp only [Slot.image, List.length_append, IoLocDesc.length_bytes,
    List.length_singleton, Fields.len, ioDescriptionLen]

theorem images_cons (s : Slot) (l : List Slot) :
    images (s :: l) = s.image ++ images l := rfl

theorem images_append (l l' : List Slot) :
    images (l ++ l') = images l ++ images l' := List.flatMap_append

theorem length_images_ge {n : Nat} : ∀ l : List Slot,
    (∀ s ∈ l, n ≤ s.fields.len) → n * l.length ≤ (images l).length := by
  intro l
  induction l with
  | nil => exact fun _ => Nat.le_refl _
  | cons s l ih =>
      intro h
      have hs := h s (List.mem_cons_self ..)
      have hl := ih fun x hx => h x (List.mem_cons_of_mem _ hx)
      rw [images_cons, List.length_append, s.length_image, List.length_cons,
        Nat.mul_succ]
      omega

/-- What the interface lets through: deletes have no value, the others have
    one. -/
structure Fields.Sound (kind : Kind) (f : Fields) : Prop where
  empty : kind = .delete → f.value = []
  nonempty : kind ≠ .delete → 0 < f.value.length

/-- The value is short enough for its field. -/
structure Slot.Ok (kind : Kind) (s : Slot) : Prop extends
    s.fields.Sound kind where
  short : s.fields.value.length < 2 ^ 24

theorem Slot.keyLen_toNat (s : Slot) :
    s.desc.keyLen.toNat = s.fields.key.bytes.length + 1 := by
  have hk := s.fields.key.short
  simp only [Slot.desc, BitVec.toNat_ofNat]
  unfold maxKeySize at hk
  omega

theorem Slot.valueLen_toNat {s : Slot} (h : s.Ok kind) :
    s.desc.valueLen.toNat = s.fields.value.length := by
  simp only [Slot.desc, BitVec.toNat_ofNat]
  exact Nat.mod_eq_of_lt h.short

/-- A read that finds a known descriptor. -/
theorem readDesc_eq {buff : Bytes} {d : IoLocDesc} {offset : Nat}
    (pre post : Bytes) (hbuff : buff = pre ++ d.bytes ++ post)
    (hoff : pre.length = offset) : readDesc buff offset = some d := by
  have hread : readAt buff offset ioDescriptionLen = some d.bytes :=
    readAt_eq pre post hbuff hoff (IoLocDesc.length_bytes d)
  rw [readDesc, hread, Option.map_some, IoLocDesc.ofBytes_bytes]

theorem readDesc_image {buff pre post : Bytes} {s : Slot} {offset : Nat}
    (hbuff : buff = pre ++ s.image ++ post) (hoff : pre.length = offset) :
    readDesc buff offset = some s.desc := by
  refine readDesc_eq pre
    (s.fields.key.bytes ++ [0] ++ s.fields.value ++ post) ?_ hoff
  rw [hbuff, Slot.image]
  simp only [List.append_assoc]

/-! ## Walking over the images -/

/-- What stands in a block for an item: a descriptor, the key with a byte
    behind it, and the value. -/
structure Record where
  desc : IoLocDesc
  key : Bytes
  behind : UInt8
  value : Bytes

def Record.image (r : Record) : Bytes :=
  r.desc.bytes ++ r.key ++ [r.behind] ++ r.value

/-- The lengths in the descriptor are those of the key and of the value. -/
structure Record.Sized (kind : Kind) (r : Record) : Prop where
  keyLen : r.desc.keyLen.toNat = r.key.length + 1
  valueLen : r.desc.valueLen.toNat = r.value.length
  empty : kind = .delete → r.value = []

theorem Record.length_image (r : Record) :
    r.image.length = ioDescriptionLen + r.key.length + 1 + r.value.length := by
  simp only [Record.image, List.length_append, IoLocDesc.length_bytes,
    List.length_singleton, ioDescriptionLen]

theorem Record.Sized.keyLen_sub_one {r : Record} (h : r.Sized kind) :
    (r.desc.keyLen - 1).toNat = r.key.length := by
  have hlt := r.desc.keyLen.isLt
  have hlen := h.keyLen
  rw [BitVec.toNat_sub, hlen]
  rw [hlen] at hlt
  simp
  omega

/-- What the decoders make of the records from `offset` on. -/
def readOff : Nat → List Record → List DecodeItem
  | _, [] => []
  | offset, r :: l =>
      { key := r.key
        value := r.value
        offset := r.desc.offset
        version := r.desc.version
        resultAt := offset + 16
        valueAddrAt := offset + 24 } :: readOff (offset + r.image.length) l

/-- The decoders read the records off. -/
theorem decodeLoop_records {buff post : Bytes} {realLen : Nat} :
    ∀ (l : List Record) (pre : Bytes),
      buff = pre ++ l.flatMap Record.image ++ post →
      (∀ r ∈ l, r.Sized kind) →
      pre.length + (l.flatMap Record.image).length ≤ realLen →
      decodeLoop kind buff realLen l.length pre.length =
        some (.ok (readOff pre.length l)) := by
  intro l
  induction l with
  | nil => exact fun _ _ _ _ => rfl
  | cons r l ih =>
      intro pre hbuff hok hlen
      have hr := hok r (List.mem_cons_self ..)
      have hcut : buff = pre ++ r.image ++ (l.flatMap Record.image ++ post) := by
        rw [hbuff, List.flatMap_cons]
        simp only [List.append_assoc]
      have hdesc : readDesc buff pre.length = some r.desc := by
        refine readDesc_eq pre (r.key ++ [r.behind] ++ r.value ++
          (l.flatMap Record.image ++ post)) ?_ rfl
        rw [hcut, Record.image]
        simp only [List.append_assoc]
      have hkey : (buff.drop (pre.length + ioDescriptionLen)).take
          (r.desc.keyLen - 1).toNat = r.key := by
        refine slice_eq (pre ++ r.desc.bytes)
          ([r.behind] ++ r.value ++ (l.flatMap Record.image ++ post)) ?_ ?_
          hr.keyLen_sub_one.symm
        · rw [hcut, Record.image]
          simp only [List.append_assoc]
        · rw [List.length_append, IoLocDesc.length_bytes]
          rfl
      have hvalue : (buff.drop (pre.length + ioDescriptionLen +
          r.desc.keyLen.toNat)).take r.desc.valueLen.toNat = r.value := by
        refine slice_eq (pre ++ r.desc.bytes ++ r.key ++ [r.behind])
          (l.flatMap Record.image ++ post) ?_ ?_ hr.valueLen.symm
        · rw [hcut, Record.image]
          simp only [List.append_assoc]
        · simp only [List.length_append, IoLocDesc.length_bytes,
            List.length_singleton, hr.keyLen, ioDescriptionLen]
          omega
      have hvalue' : (if kind = .delete then [] else
          (buff.drop (pre.length + ioDescriptionLen +
            r.desc.keyLen.toNat)).take r.desc.valueLen.toNat) = r.value := by
        split
        · rename_i hkind
          exact (hr.empty hkind).symm
        · exact hvalue
      have hnext : (if kind = .delete then
          pre.length + ioDescriptionLen + r.desc.keyLen.toNat
          else pre.length + ioDescriptionLen + r.desc.keyLen.toNat +
            r.desc.valueLen.toNat) = (pre ++ r.image).length := by
        rw [hr.valueLen, hr.keyLen, List.length_append, r.length_image]
        split
        · rename_i hkind
          rw [hr.empty hkind, List.length_nil]
          omega
        · omega
      rw [List.flatMap_cons, List.length_append, ← Nat.add_assoc,
        ← List.length_append] at hlen
      have hrest := ih (pre ++ r.image)
        (by rw [hcut]; simp only [List.append_assoc])
        (fun x hx => hok x (List.mem_cons_of_mem _ hx)) hlen
      have hfits : ¬ (pre ++ r.image).length > realLen := by omega
      rw [List.length_cons, decodeLoop, hdesc]
      simp only [Option.bind_eq_bind, Option.bind_some, hkey, hvalue', hnext,
        if_neg hfits, hrest]
      rw [readOff, List.length_append]

/-- What the decoders make of the items from `offset` on. -/
def decoded : Nat → List Slot → List DecodeItem
  | _, [] => []
  | offset, s :: l =>
      { key := s.fields.key.bytes
        value := s.fields.value
        offset := s.fields.offset
        version := s.fields.version
        resultAt := offset + 16
        valueAddrAt := offset + 24 } :: decoded (offset + s.fields.len) l

def Slot.record (s : Slot) : Record :=
  ⟨s.desc, s.fields.key.bytes, 0, s.fields.value⟩

theorem Slot.sized {s : Slot} (h : s.Ok kind) : s.record.Sized kind :=
  ⟨s.keyLen_toNat, Slot.valueLen_toNat h, h.empty⟩

theorem images_eq (l : List Slot) :
    images l = (l.map Slot.record).flatMap Record.image := by
  rw [List.flatMap_map]
  rfl

theorem decoded_eq : ∀ (l : List Slot) (offset : Nat),
    decoded offset l = readOff offset (l.map Slot.record) := by
  intro l
  induction l with
  | nil => exact fun _ => rfl
  | cons s l ih =>
      intro offset
      have hlen : s.fields.len = s.record.image.length :=
        s.length_image.symm
      rw [decoded, ih, hlen]
      rfl

/-- The decoders read the items off their images. -/
theorem decodeLoop_images {buff post : Bytes} {realLen : Nat} (l : List Slot)
    (pre : Bytes) (hbuff : buff = pre ++ images l ++ post)
    (hok : ∀ s ∈ l, s.Ok kind)
    (hlen : pre.length + (images l).length ≤ realLen) :
    decodeLoop kind buff realLen l.length pre.length =
      some (.ok (decoded pre.length l)) := by
  rw [images_eq] at hbuff hlen
  have hsized : ∀ r ∈ l.map Slot.record, r.Sized kind := by
    intro r hr
    obtain ⟨s, hs, rfl⟩ := List.mem_map.mp hr
    exact Slot.sized (hok s hs)
  have hread := decodeLoop_records (l.map Slot.record) pre hbuff hsized hlen
  rw [List.length_map] at hread
  rw [hread, decoded_eq]

/-- The calls of `FillResults` for the items of a block. -/
def fillAll {σ : Type} (fillFunc : σ → Nat → IoLocDesc → σ) :
    Nat → List Slot → σ → σ
  | _, [], t => t
  | curIndex, s :: l, t =>
      fillAll fillFunc (curIndex + 1) l (fillFunc t curIndex s.desc)

theorem fillAll_append {σ : Type} {fillFunc : σ → Nat → IoLocDesc → σ} :
    ∀ (l l' : List Slot) (curIndex : Nat) (t : σ),
      fillAll fillFunc curIndex (l ++ l') t =
        fillAll fillFunc (curIndex + l.length) l'
          (fillAll fillFunc curIndex l t) := by
  intro l
  induction l with
  | nil => exact fun _ _ _ => rfl
  | cons s l ih =>
      intro l' curIndex t
      rw [List.cons_append, fillAll, ih, List.length_cons, fillAll,
        Nat.add_assoc, Nat.add_comm 1]

theorem fillBlock_images {σ : Type} (fillFunc : σ → Nat → IoLocDesc → σ)
    {buff post : Bytes} : ∀ (l : List Slot) (pre : Bytes) (curIndex : Nat)
    (t : σ), buff = pre ++ images l ++ post → (∀ s ∈ l, s.Ok kind) →
    fillBlock fillFunc (kind ≠ .delete) buff l.length pre.length curIndex t =
      some (curIndex + l.length, fillAll fillFunc curIndex l t) := by
  intro l
  induction l with
  | nil => exact fun _ _ _ _ _ => rfl
  | cons s l ih =>
      intro pre curIndex t hbuff hok
      have hs := hok s (List.mem_cons_self ..)
      have hcut : buff = pre ++ s.image ++ (images l ++ post) := by
        rw [hbuff, images_cons]
        simp only [List.append_assoc]
      have hdesc := readDesc_image hcut rfl
      have hnext : (if decide (kind ≠ .delete) = true then
          pre.length + (ioDescriptionLen + s.desc.keyLen.toNat) +
            s.desc.valueLen.toNat
          else pre.length + (ioDescriptionLen + s.desc.keyLen.toNat)) =
          (pre ++ s.image).length := by
        rw [Slot.valueLen_toNat hs, s.keyLen_toNat, List.length_append,
          s.length_image, Fields.len]
        by_cases hkind : kind = .delete
        · rw [hs.empty hkind, hkind]
          rfl
        · rw [if_pos (by simpa using hkind)]
          omega
      have hrest := ih (pre ++ s.image) (curIndex + 1)
        (fillFunc t curIndex s.desc)
        (by rw [hcut]; simp only [List.append_assoc])
        (fun x hx => hok x (List.mem_cons_of_mem _ hx))
      rw [List.length_cons, fillBlock, hdesc]
      simp only [Option.bind_eq_bind, Option.bind_some, hnext, hrest]
      rw [Nat.add_assoc, Nat.add_comm 1, fillAll]

/-- Stores through the result pointers of a block, one for each item. -/
def storeResults : Bytes → List Nat → List UInt32 → Option Bytes
  | buff, resultAt :: ats, result :: results => do
      let buff ← storeResult buff resultAt result
      storeResults buff ats results
  | buff, _, _ => some buff

def Slot.withResult (s : Slot) (result : UInt32) : Slot := { s with result }

theorem storeResult_image {buff pre post : Bytes} {s : Slot}
    (result : UInt32) (hbuff : buff = pre ++ s.image ++ post) :
    storeResult buff (pre.length + 16) result =
      some (pre ++ (s.withResult result).image ++ post) := by
  have hcut : buff =
      (pre ++ lenWord s.desc.keyLen s.desc.valueLen s.desc.offset ++
        leBytes 8 s.desc.version.toNat) ++ leBytes 4 s.desc.result.toNat ++
      (leBytes 4 s.desc.reserved.toNat ++ leBytes 8 s.desc.valueAddr.toNat ++
        s.fields.key.bytes ++ [0] ++ s.fields.value ++ post) := by
    rw [hbuff, Slot.image, IoLocDesc.bytes]
    simp only [List.append_assoc]
  have hwidth : (leBytes 4 s.desc.result.toNat).length =
      (leBytes 4 result.toNat).length := by
    rw [length_leBytes, length_leBytes]
  have hstore := writeAt_eq _ _ hcut rfl hwidth
  have hat : (pre ++ lenWord s.desc.keyLen s.desc.valueLen s.desc.offset ++
      leBytes 8 s.desc.version.toNat).length = pre.length + 16 := by
    simp only [List.length_append, length_lenWord, length_leBytes]
  rw [hat] at hstore
  rw [storeResult, hstore, Slot.image, IoLocDesc.bytes]
  simp only [List.append_assoc]
  rfl

/-- Storing results changes the images only there. -/
theorem storeResults_images {post : Bytes} :
    ∀ (l : List Slot) (results : List UInt32) (pre buff : Bytes),
      buff = pre ++ images l ++ post → results.length = l.length →
      storeResults buff ((decoded pre.length l).map (·.resultAt)) results =
        some (pre ++ images (l.zipWith Slot.withResult results) ++ post) := by
  intro l
  induction l with
  | nil =>
      intro results pre buff hbuff hlen
      rw [hbuff]
      rfl
  | cons s l ih =>
      intro results pre buff hbuff hlen
      cases results with
      | nil => cases hlen
      | cons r results =>
          have hcut : buff = pre ++ s.image ++ (images l ++ post) := by
            rw [hbuff, images_cons]
            simp only [List.append_assoc]
          have hstore := storeResult_image r hcut
          have hlength : (pre ++ (s.withResult r).image).length =
              pre.length + s.fields.len := by
            rw [List.length_append, Slot.length_image]
            rfl
          have hrest := ih results (pre ++ (s.withResult r).image)
            (pre ++ (s.withResult r).image ++ (images l ++ post))
            (by simp only [List.append_assoc]) (Nat.succ.inj hlen)
          rw [hlength] at hrest
          rw [decoded, List.map_cons, storeResults, hstore]
          simp only [Option.bind_eq_bind, Option.bind_some]
          rw [hrest, List.zipWith_cons_cons, images_cons]
          simp only [List.append_assoc]

/-! ## Encoding one item -/

/-- The descriptor of a new item; its address is 0 for a put and whatever was
    there otherwise. -/
theorem encodeDesc_eq {buff pre d a rest : Bytes} (kind : Kind) (f : Fields)
    (hbuff : buff = pre ++ d ++ (a ++ rest)) (hd : d.length = 24)
    (ha : a.length = 8) :
    ∃ addr, encodeDesc kind buff pre.length f =
      some (pre ++ (Slot.mk f (code .max) addr).desc.bytes ++ rest) := by
  obtain ⟨head, hhead⟩ : ∃ head, head =
      lenWord (BitVec.ofNat 16 (f.key.bytes.length + 1))
          (BitVec.ofNat 24 f.value.length) f.offset ++
        leBytes 8 f.version.toNat ++ leBytes 4 (code .max).toNat ++
        leBytes 4 0 := ⟨_, rfl⟩
  have hlength : head.length = 24 := by
    rw [hhead]
    simp only [List.length_append, length_lenWord, length_leBytes]
  have hfirst := writeAt_eq pre (a ++ rest) hbuff rfl (hd.trans hlength.symm)
  have hdesc : ∀ addr : UInt64, (Slot.mk f (code .max) addr).desc.bytes =
      head ++ leBytes 8 addr.toNat := by
    intro addr
    rw [hhead]
    rfl
  simp only [encodeDesc, ← hhead, hfirst, Option.bind_eq_bind,
    Option.bind_some]
  by_cases hput : kind = .put
  · refine ⟨0, ?_⟩
    rw [if_pos hput]
    have hsecond := writeAt_eq (pre ++ head) rest
      (show pre ++ head ++ (a ++ rest) = pre ++ head ++ a ++ rest by
        simp only [List.append_assoc])
      (show (pre ++ head).length = pre.length + 24 by
        rw [List.length_append, hlength])
      (ha.trans (length_leBytes 8 0).symm)
    rw [hsecond, hdesc]
    simp only [List.append_assoc]
    rfl
  · refine ⟨UInt64.ofNat (leNat a), ?_⟩
    have hstale : leBytes 8 (UInt64.ofNat (leNat a)).toNat = a := by
      have hback := leBytes_leNat a
      rw [ha] at hback
      have hlt : leNat a < 2 ^ 64 := by
        rw [← hback, leNat_leBytes]
        exact Nat.mod_lt _ (by decide)
      rw [UInt64.toNat_ofNat', Nat.mod_eq_of_lt hlt, hback]
    rw [if_neg hput, hdesc, hstale]
    simp only [List.append_assoc]

theorem copyKey_eq {buff pre k z rest key : Bytes}
    (hbuff : buff = pre ++ k ++ z ++ rest) (hk : k.length = key.length)
    (hz : z.length = 1) (hfit : pre.length + key.length < c.ioCtxBuffLen) :
    copyKey c buff pre.length key =
      some (true, pre ++ key ++ [0] ++ rest) := by
  have hcopy : memcpyS c (c.ioCtxBuffLen - pre.length) key.length = true := by
    have hmax := c.buffLen_le.trans c.memMaxLen_ge
    simp only [memcpyS, decide_eq_true_eq]
    omega
  have hfirst := writeAt_eq pre (z ++ rest)
    (show buff = pre ++ k ++ (z ++ rest) by
      rw [hbuff]; simp only [List.append_assoc]) rfl hk
  have hsecond := writeAt_eq (pre ++ key) rest
    (show pre ++ key ++ (z ++ rest) = pre ++ key ++ z ++ rest by
      simp only [List.append_assoc])
    (List.length_append) (hz.trans (List.length_singleton (a := 0)).symm)
  rw [copyKey, if_pos hcopy]
  simp only [Option.bind_eq_bind, hfirst, hsecond, Option.bind_some]

/-- One item is encoded as its image. -/
theorem encodeSingleKV_eq {buff pre rest : Bytes} {f : Fields}
    (hbuff : buff = pre ++ rest) (hlen : buff.length = c.ioCtxBuffLen)
    (hfit : pre.length + f.len ≤ c.ioCtxBuffLen)
    (hempty : kind = .delete → f.value = [])
    (hne : kind ≠ .delete → 0 < f.value.length) :
    ∃ addr, encodeSingleKV c kind buff pre.length f =
      some (.ok, pre ++ (Slot.mk f (code .max) addr).image ++ rest.drop f.len,
        pre.length + f.len) := by
  have hrest : f.len ≤ rest.length := by
    rw [hbuff, List.length_append] at hlen
    omega
  rw [Fields.len, ioDescriptionLen] at hrest hfit
  obtain ⟨d, r₁, rfl, hd⟩ := exists_split
    (show 24 ≤ rest.length by omega)
  rw [List.length_append, hd] at hrest
  obtain ⟨a, r₂, rfl, ha⟩ := exists_split (show 8 ≤ r₁.length by omega)
  rw [List.length_append, ha] at hrest
  obtain ⟨k, r₃, rfl, hk⟩ := exists_split
    (show f.key.bytes.length ≤ r₂.length by omega)
  rw [List.length_append, hk] at hrest
  obtain ⟨z, r₄, rfl, hz⟩ := exists_split (show 1 ≤ r₃.length by omega)
  rw [List.length_append, hz] at hrest
  obtain ⟨v, post, rfl, hv⟩ := exists_split
    (show f.value.length ≤ r₄.length by omega)
  have hdrop : (d ++ (a ++ (k ++ (z ++ (v ++ post))))).drop f.len = post := by
    have hsum : f.len = (d ++ a ++ k ++ z ++ v).length := by
      simp only [List.length_append, hd, ha, hk, hz, hv, Fields.len,
        ioDescriptionLen]
    have hassoc : d ++ (a ++ (k ++ (z ++ (v ++ post)))) =
        (d ++ a ++ k ++ z ++ v) ++ post := by
      simp only [List.append_assoc]
    rw [hsum, hassoc, List.drop_left]
  obtain ⟨addr, hdesc⟩ := encodeDesc_eq kind f
    (show buff = pre ++ d ++ (a ++ (k ++ (z ++ (v ++ post)))) by
      rw [hbuff]; simp only [List.append_assoc]) hd ha
  refine ⟨addr, ?_⟩
  rw [hdrop]
  generalize hslot : (Slot.mk f (code .max) addr) = s at hdesc ⊢
  have hsf : s.fields = f := by rw [← hslot]
  have hsd : s.desc.bytes.length = ioDescriptionLen := IoLocDesc.length_bytes _
  have hmax := c.buffLen_le.trans c.memMaxLen_ge
  -- the key and the zero behind it
  have hkey := copyKey_eq
    (show pre ++ s.desc.bytes ++ (k ++ (z ++ (v ++ post))) =
      pre ++ s.desc.bytes ++ k ++ z ++ (v ++ post) by
        simp only [List.append_assoc]) hk hz
    (show (pre ++ s.desc.bytes).length + f.key.bytes.length <
      c.ioCtxBuffLen by rw [List.length_append, hsd, ioDescriptionLen]; omega)
  rw [List.length_append, hsd] at hkey
  have himage : s.image = s.desc.bytes ++ f.key.bytes ++ [0] ++ f.value := by
    rw [Slot.image, hsf]
  simp only [encodeSingleKV, hdesc, Option.bind_eq_bind, Option.bind_some,
    hkey]
  by_cases hdel : kind = .delete
  · have hnil := hempty hdel
    have hvnil : v = [] := List.eq_nil_of_length_eq_zero (by rw [hv, hnil]; rfl)
    rw [if_pos hdel, himage, hvnil, hnil, Fields.len, hnil]
    simp only [List.append_assoc, List.append_nil, List.nil_append,
      List.length_nil, Nat.add_zero, Nat.add_assoc]
  · have hcopy : memcpyS c (c.ioCtxBuffLen -
        (pre.length + ioDescriptionLen + (f.key.bytes.length + 1)))
        f.value.length = true := by
      have hpos := hne hdel
      have hdescLen : ioDescriptionLen = 32 := rfl
      rw [memcpyS, decide_eq_true_eq]
      omega
    have hvalue := writeAt_eq (pre ++ s.desc.bytes ++ f.key.bytes ++ [0]) post
      (show pre ++ s.desc.bytes ++ f.key.bytes ++ [0] ++ (v ++ post) =
        pre ++ s.desc.bytes ++ f.key.bytes ++ [0] ++ v ++ post by
          simp only [List.append_assoc])
      (show (pre ++ s.desc.bytes ++ f.key.bytes ++ [0]).length =
        pre.length + ioDescriptionLen + (f.key.bytes.length + 1) by
          simp only [List.length_append, hsd, List.length_singleton]
          omega)
      hv
    rw [if_neg hdel, if_pos hcopy, hvalue, Option.bind_some, himage,
      Fields.len]
    simp only [List.append_assoc, Nat.add_assoc]

/-! ## Blocks -/

/-- A block in the making, with its items. -/
structure Building (c : Config) (kind : Kind) (s : EncodeBufferState)
    (l : List Slot) : Prop where
  buff : ∃ head rest, s.buff = head ++ images l ++ rest ∧
    head.length = ioDataRequestLen
  length : s.buff.length = c.ioCtxBuffLen
  offset : s.offset = ioDataRequestLen + (images l).length
  curItemNum : s.curItemNum = l.length
  ok : ∀ x ∈ l, x.Ok kind

/-- A block that holds these items. -/
structure Carries (kind : Kind) (item : IOCtxItem) (l : List Slot) :
    Prop where
  buff : ∃ head rest, item.buff = head ++ images l ++ rest ∧
    head.length = ioDataRequestLen
  num : readNum item.buff = some l.length
  ok : ∀ x ∈ l, x.Ok kind

/-- A block that is handed over, with its items. -/
structure Finished (c : Config) (kind : Kind) (item : IOCtxItem)
    (l : List Slot) : Prop extends Carries kind item l where
  crc : ∃ crc, readCrc item.buff = some crc ∧
    (c.gCrcSwitch = true → crc = c.crc32 (crcRange item.buff item.reqLen))
  reqLen : item.reqLen = ioDataRequestLen + (images l).length
  fits : item.reqLen ≤ c.ioCtxBuffLen

theorem startBlock_eq (kind : Kind) (b : RawBlock c) :
    ∃ s, startBlock b = some s ∧ s.addr = b.addr ∧ Building c kind s [] := by
  have hge := c.buffLen_ge
  have hlen := b.length_eq
  obtain ⟨h, r₁, hb, hh⟩ := exists_split
    (show 32 ≤ b.bytes.length by omega)
  rw [hb, List.length_append] at hlen
  obtain ⟨x, r₂, rfl, hx⟩ := exists_split (show 4 ≤ r₁.length by omega)
  rw [List.length_append] at hlen
  obtain ⟨n, r₃, rfl, hn⟩ := exists_split (show 4 ≤ r₂.length by omega)
  rw [List.length_append] at hlen
  have hwrite := writeAt_eq h (n ++ r₃)
    (show b.bytes = h ++ x ++ (n ++ r₃) by
      rw [hb]; simp only [List.append_assoc])
    hh (hx.trans (length_leBytes 4 0).symm)
  refine ⟨_, by simp only [startBlock, crcAt, hwrite, Option.bind_eq_bind,
    Option.bind_some]; rfl, rfl, ⟨h ++ leBytes 4 0 ++ n, r₃, ?_, ?_⟩, ?_, rfl,
    rfl, ?_⟩
  · simp only [images, List.flatMap_nil, List.append_nil, List.append_assoc]
  · simp only [List.length_append, hh, length_leBytes, hn, ioDataRequestLen]
  · simp only [List.length_append, hh, length_leBytes]
    omega
  · intro y hy
    cases hy

/-- The bytes under the CRC begin behind it. -/
theorem crcRange_eq {buff h tail : Bytes} (hbuff : buff = h ++ tail)
    (hh : h.length = numAt) (len : Nat) :
    crcRange buff len = tail.take (len - numAt) := by
  rw [crcRange, hbuff, List.take_append, hh, List.drop_append, List.length_take,
    hh]
  rcases Nat.le_total len numAt with hle | hle
  · rw [Nat.sub_eq_zero_of_le hle, List.take_zero, List.drop_nil,
      List.drop_eq_nil_of_le (by rw [List.length_take]; omega),
      List.append_nil]
  · rw [Nat.min_eq_right hle, Nat.sub_self, List.drop_zero,
      List.drop_eq_nil_of_le (by rw [List.length_take, hh]; omega),
      List.nil_append]

theorem finishRequestBlock_eq {s : EncodeBufferState} {l : List Slot}
    (h : Building c kind s l) (hfit : s.offset ≤ c.ioCtxBuffLen) :
    ∃ item, finishRequestBlock c s = some item ∧ item.addr = s.addr ∧
      Finished c kind item l := by
  obtain ⟨head, rest, hbuff, hhead⟩ := h.buff
  have hmany : l.length < 256 ^ 4 := by
    have hle := c.buffLen_le
    have himages := length_images_ge (n := 1) l fun x _ => by
      rw [Fields.len, ioDescriptionLen]
      omega
    have hoff := h.offset
    omega
  obtain ⟨p, r₁, rfl, hp⟩ := exists_split
    (show 32 ≤ head.length by rw [hhead]; decide)
  rw [List.length_append, hp, ioDataRequestLen] at hhead
  obtain ⟨x, n, rfl, hx⟩ := exists_split (show 4 ≤ r₁.length by omega)
  rw [List.length_append, hx] at hhead
  have hn : n.length = 4 := by omega
  have hnum := writeAt_eq (p ++ x) (images l ++ rest)
    (show s.buff = p ++ x ++ n ++ (images l ++ rest) by
      rw [hbuff]; simp only [List.append_assoc])
    (show (p ++ x).length = numAt by rw [List.length_append, hp, hx]; rfl)
    (hn.trans (length_leBytes 4 s.curItemNum).symm)
  -- whatever stands in the CRC field, the rest of the block is the same
  have hdone : ∀ y : Bytes, y.length = 4 →
      (c.gCrcSwitch = true → UInt32.ofNat (leNat y) = c.crc32
        ((leBytes 4 l.length ++ (images l ++ rest)).take
          (s.offset - numAt))) →
      Finished c kind ⟨s.addr, p ++ y ++ leBytes 4 l.length ++
        (images l ++ rest), s.offset⟩ l := by
    intro y hy hcrc
    refine ⟨⟨⟨p ++ y ++ leBytes 4 l.length, rest, ?_, ?_⟩, ?_, h.ok⟩, ?_,
      h.offset, hfit⟩
    · simp only [List.append_assoc]
    · simp only [List.length_append, hp, hy, length_leBytes, ioDataRequestLen]
    · rw [readNum, readAt_eq (p ++ y) (images l ++ rest) rfl
        (by rw [List.length_append, hp, hy]; rfl) (length_leBytes ..),
        Option.map_some, leNat_leBytes_of_lt hmany]
    · refine ⟨UInt32.ofNat (leNat y), ?_, ?_⟩
      · have hread := readAt_eq p (leBytes 4 l.length ++ (images l ++ rest))
          (List.append_assoc (p ++ y) (leBytes 4 l.length)
            (images l ++ rest)) (show p.length = crcAt from hp) hy
        rw [readCrc, hread, Option.map_some]
      · intro hon
        rw [hcrc hon, crcRange_eq (List.append_assoc (p ++ y) _ _)
          (by rw [List.length_append, hp, hy]; rfl)]
  rw [h.curItemNum] at hnum
  cases hon : c.gCrcSwitch with
  | false =>
      refine ⟨_, ?_, rfl, hdone x hx (fun hc => by rw [hon] at hc; cases hc)⟩
      simp only [finishRequestBlock, h.curItemNum, hnum, hon,
        Option.bind_eq_bind, Option.bind_some, Bool.false_eq_true, if_false]
  | true =>
      obtain ⟨crc, hcrc⟩ : ∃ crc, crc = c.crc32
          ((leBytes 4 l.length ++ (images l ++ rest)).take
            (s.offset - numAt)) := ⟨_, rfl⟩
      have hrange := crcRange_eq (List.append_assoc (p ++ x)
        (leBytes 4 l.length) (images l ++ rest))
        (by rw [List.length_append, hp, hx]; rfl) s.offset
      have hwrite := writeAt_eq p (leBytes 4 l.length ++ (images l ++ rest))
        (show p ++ x ++ leBytes 4 l.length ++ (images l ++ rest) =
          p ++ x ++ (leBytes 4 l.length ++ (images l ++ rest)) by
            simp only [List.append_assoc])
        hp (hx.trans (length_leBytes 4 crc.toNat).symm)
      refine ⟨⟨s.addr, p ++ leBytes 4 crc.toNat ++ leBytes 4 l.length ++
        (images l ++ rest), s.offset⟩, ?_, rfl,
        hdone _ (length_leBytes ..) fun _ => ?_⟩
      · simp only [finishRequestBlock, h.curItemNum, hnum, hon,
          Option.bind_eq_bind, Option.bind_some, if_true, hrange, ← hcrc,
          crcAt, hwrite]
        simp only [List.append_assoc]
      · rw [leNat_leBytes_of_lt crc.toNat_lt, UInt32.ofNat_toNat, hcrc]

end UbsIo.Message
