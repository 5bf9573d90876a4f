import UbsIo.Crb.Stream
import UbsIo.Lib.Packing

/-! # What a message of the stream is

    Each entry becomes a record behind those before it.  The descriptor keeps
    what the buffer had where the encoder writes nothing, and the key is what
    `strncpy_s` makes of it.  A message that is closed is read off by the
    decoder of puts, if the decoder has room for its records. -/

namespace UbsIo.Crb

open UbsIo.Lib UbsIo.Cache UbsIo.Message

variable {c : Config} {t : Task} {L : Layout} {m : Mem} {v : IndexValue}
  {s : Sender} {rs : List Record}

/-! ## One entry -/

/-- What `strncpy_s` writes for a key. -/
def copiedKey (behind : Bytes → Bytes) (key : Bytes) : Bytes :=
  key.takeWhile (· ≠ 0) ++ [0] ++ behind key

/-- The record of an entry: its data and its version, and the key as far as
    `strncpy_s` writes it. -/
structure Shows (behind : Bytes → Bytes) (m : Mem) (v : IndexValue)
    (r : Record) : Prop where
  sized : r.Sized .put
  length : r.key.length = v.key.length
  key : (copiedKey behind v.key).take v.key.length <+: r.key
  value : r.value = (entryOf m v).bytes
  version : r.desc.version = v.version.toUInt64

/-- What `strncpy_s` leaves of the buffer, with the place of the key and the
    byte behind it set apart. -/
theorem strncpyS_eq (behind : Bytes → Bytes) (pre : Bytes) {key tail : Bytes}
    (hfits : key.length < tail.length) :
    ∃ shown b post, shown.length = key.length ∧
      (copiedKey behind key).take key.length <+: shown ∧
      key.length + 1 + post.length = tail.length ∧
      strncpyS (behind key) (pre ++ tail) pre.length tail.length key =
        some (true, pre ++ shown ++ [b] ++ post) := by
  obtain ⟨w, hw⟩ : ∃ w, w = (copiedKey behind key).take tail.length := ⟨_, rfl⟩
  have hwlen : w.length ≤ tail.length := by
    rw [hw, List.length_take]
    exact Nat.min_le_left ..
  obtain ⟨old, rest, htail, hold⟩ := exists_split hwlen
  have hwrite : writeAt (pre ++ tail) pre.length w =
      some (pre ++ w ++ rest) :=
    writeAt_eq pre rest (by rw [htail, List.append_assoc]) rfl hold
  -- the new tail, cut where the key ends
  have hlen : (w ++ rest).length = tail.length := by
    rw [htail, List.length_append, List.length_append, hold]
  obtain ⟨shown, more, hcut, hshown⟩ := exists_split
    (show key.length ≤ (w ++ rest).length by omega)
  have hmore : 0 < more.length := by
    rw [hcut, List.length_append, hshown] at hlen
    omega
  obtain ⟨b, post, rfl⟩ := List.exists_cons_of_length_pos hmore
  refine ⟨shown, b, post, hshown, ?_, ?_, ?_⟩
  · have hprefix : w.take key.length <+: (w ++ rest).take key.length :=
      (List.prefix_append w rest).take key.length
    rw [hcut, ← hshown, List.take_left, hshown, hw, List.take_take,
      Nat.min_eq_left (Nat.le_of_lt hfits)] at hprefix
    exact hprefix
  · rw [← hlen, hcut, List.length_append, List.length_cons, hshown]
    omega
  · have hcopied : (key.takeWhile (· ≠ 0)).length < tail.length :=
      Nat.lt_of_le_of_lt (List.takeWhile_sublist _).length_le hfits
    have hresult : pre ++ w ++ rest = pre ++ shown ++ [b] ++ post := by
      rw [List.append_assoc, hcut]
      simp only [List.append_assoc, List.singleton_append]
    rw [strncpyS, if_pos hcopied]
    show (writeAt (pre ++ tail) pre.length
      ((copiedKey behind key).take tail.length)).bind _ = _
    rw [← hw, hwrite, Option.bind_some, hresult]

theorem Filled.len_pos (h : Filled L m v) : 0 < v.totalDataLen := by
  obtain ⟨-, -, -, -, -, hpos, -⟩ := h
  exact hpos

theorem Filled.len_le (h : Filled L m v) : v.totalDataLen ≤ L.memMaxLen := by
  obtain ⟨-, d, -, -, -, -, hle, hmax⟩ := h
  exact hle.trans hmax

theorem needLen_eq (hfilled : Filled t.layout t.mem v) :
    needLen v = ioDescriptionLen + v.key.length + 1 +
      (entryOf t.mem v).bytes.length := by
  rw [needLen, length_bytes hfilled.holds]

/-- **ONE ENTRY**: it is encoded as its record, behind what is there. -/
theorem encodeKeyValueToBuff_eq {pre rest : Bytes}
    (hfilled : Filled t.layout t.mem v) (hkey : v.key.length < maxKeySize)
    (hlen : (pre ++ rest).length = crbRecoverMessageBuffLen)
    (hfit : pre.length + needLen v ≤ crbRecoverMessageBuffLen) :
    ∃ r rest', Shows t.behind t.mem v r ∧ r.image.length = needLen v ∧
      rest'.length + needLen v = rest.length ∧
      encodeKeyValueToBuff t (pre ++ rest) pre.length v =
        some (.ok, pre ++ r.image ++ rest', pre.length + needLen v) := by
  have hneed := needLen_eq hfilled
  obtain ⟨data, hdata⟩ : ∃ data, data = (entryOf t.mem v).bytes := ⟨_, rfl⟩
  rw [← hdata, ioDescriptionLen] at hneed
  rw [List.length_append] at hlen
  have hread : getDataFromBlock t.layout t.mem v 0 v.totalDataLen =
      some data := by
    rw [getDataFromBlock_eq hfilled 0 v.totalDataLen (Filled.len_pos hfilled)
      (Filled.len_pos hfilled) (Filled.len_le hfilled), List.drop_zero,
      ← hdata, List.take_of_length_le]
    rw [hdata, length_bytes hfilled.holds]
  have hpos : data.length ≠ 0 := by
    rw [hdata, length_bytes hfilled.holds]
    exact Nat.ne_of_gt (Filled.len_pos hfilled)
  obtain ⟨old, tail, rfl, hold⟩ := exists_split
    (show 32 ≤ rest.length by omega)
  rw [List.length_append, hold] at hlen
  obtain ⟨d, hd⟩ : ∃ d : IoLocDesc, d =
      { IoLocDesc.ofBytes old with
        offset := 0
        keyLen := BitVec.ofNat 16 (v.key.length + 1)
        version := v.version.toUInt64 } := ⟨_, rfl⟩
  have hdlen : d.bytes.length = 32 := IoLocDesc.length_bytes d
  -- the descriptor, with the length of the value still open
  have hold' : readDesc (pre ++ (old ++ tail)) pre.length =
      some (IoLocDesc.ofBytes old) := by
    have hbytes : readAt (pre ++ (old ++ tail)) pre.length ioDescriptionLen =
        some old :=
      readAt_eq pre tail (List.append_assoc ..).symm rfl hold
    rw [readDesc, hbytes, Option.map_some]
  have hfirst : writeDesc (pre ++ (old ++ tail)) pre.length d =
      some (pre ++ d.bytes ++ tail) :=
    writeAt_eq pre tail (List.append_assoc ..).symm rfl (hold.trans hdlen.symm)
  -- the key
  obtain ⟨shown, b, post, hshown, hprefix, hpost, hcopy⟩ := strncpyS_eq
    t.behind (pre ++ d.bytes)
    (show v.key.length < tail.length by omega)
  have hat : (pre ++ d.bytes).length = pre.length + ioDescriptionLen := by
    rw [List.length_append, hdlen, ioDescriptionLen]
  have hmax : crbRecoverMessageBuffLen - (pre.length + ioDescriptionLen) =
      tail.length := by
    rw [ioDescriptionLen]
    omega
  rw [hat] at hcopy
  -- the value
  obtain ⟨gone, rest', rfl, hgone⟩ := exists_split
    (show data.length ≤ post.length by omega)
  rw [List.length_append, hgone] at hpost
  have hvalue : writeAt (pre ++ d.bytes ++ shown ++ [b] ++ (gone ++ rest'))
      (pre.length + ioDescriptionLen + (v.key.length + 1)) data =
      some (pre ++ d.bytes ++ shown ++ [b] ++ data ++ rest') := by
    refine writeAt_eq (pre ++ d.bytes ++ shown ++ [b]) rest'
      (List.append_assoc ..).symm ?_ hgone
    rw [List.length_append, List.length_append, hat, hshown,
      List.length_singleton, Nat.add_assoc]
  -- the descriptor once more
  obtain ⟨r, hr⟩ : ∃ r : Record, r =
      ⟨{ d with valueLen := BitVec.ofNat 24 data.length }, shown, b, data⟩ :=
    ⟨_, rfl⟩
  have hagain : readDesc (pre ++ d.bytes ++ shown ++ [b] ++ data ++ rest')
      pre.length = some d := by
    refine readDesc_eq pre (shown ++ [b] ++ data ++ rest') ?_ rfl
    simp only [List.append_assoc]
  have hlast : writeDesc (pre ++ d.bytes ++ shown ++ [b] ++ data ++ rest')
      pre.length { d with valueLen := BitVec.ofNat 24 data.length } =
      some (pre ++ r.image ++ rest') := by
    rw [writeDesc, writeAt_eq pre (shown ++ [b] ++ data ++ rest')
      (show _ = pre ++ d.bytes ++ (shown ++ [b] ++ data ++ rest') by
        simp only [List.append_assoc]) rfl
      (hdlen.trans (IoLocDesc.length_bytes _).symm), Record.image, hr]
    simp only [List.append_assoc]
  refine ⟨r, rest', ?_, ?_, ?_, ?_⟩
  · refine ⟨⟨?_, ?_, fun h => by cases h⟩, ?_, ?_, ?_, ?_⟩
    · rw [hr, hd]
      show (BitVec.ofNat 16 (v.key.length + 1)).toNat = shown.length + 1
      rw [BitVec.toNat_ofNat, hshown]
      unfold maxKeySize at hkey
      omega
    · rw [hr]
      show (BitVec.ofNat 24 data.length).toNat = data.length
      rw [BitVec.toNat_ofNat]
      unfold crbRecoverMessageBuffLen at hfit
      omega
    · rw [hr]
      exact hshown
    · rw [hr]
      exact hprefix
    · rw [hr]
      exact hdata
    · rw [hr, hd]
  · rw [r.length_image, hr, ioDescriptionLen, hshown, hneed]
  · rw [List.length_append, hold, hneed]
    omega
  · simp only [encodeKeyValueToBuff, hold', ← hd, hfirst, hmax, hcopy, hread,
      if_neg hpos, hvalue, hagain, hlast, Option.bind_eq_bind,
      Option.bind_some]
    rw [hneed, ioDescriptionLen]
    simp only [Nat.add_assoc]

/-! ## A message -/

/-- What the records of a message need. -/
def recordsLen (rs : List Record) : Nat := (rs.flatMap Record.image).length

theorem recordsLen_append (rs rs' : List Record) :
    recordsLen (rs ++ rs') = recordsLen rs + recordsLen rs' := by
  rw [recordsLen, List.flatMap_append, List.length_append]
  rfl

/-- The buffer with the records of the message at hand. -/
structure Filling (s : Sender) (rs : List Record) : Prop where
  buff : ∃ head rest, s.msgBuff =
      head ++ rs.flatMap Record.image ++ rest ∧
    head.length = ioDataRequestLen
  length : s.msgBuff.length = crbRecoverMessageBuffLen
  offset : s.buffOffset = ioDataRequestLen + recordsLen rs
  curItemNum : s.curItemNum = rs.length

/-- A message that is handed over, with its records. -/
structure Message (c : Config) (msg : Bytes) (rs : List Record) : Prop where
  image : ∃ head, msg = head ++ rs.flatMap Record.image ∧
    head.length = ioDataRequestLen
  num : readNum msg = some rs.length
  crc : ∃ crc, readCrc msg = some crc ∧
    (c.gCrcSwitch = true → crc = c.crc32 (crcRange msg msg.length))
  sized : ∀ r ∈ rs, r.Sized .put

theorem Filling.le (h : Filling s rs) :
    s.buffOffset ≤ crbRecoverMessageBuffLen := by
  obtain ⟨head, rest, hbuff, hhead⟩ := h.buff
  rw [h.offset, recordsLen, ← h.length, hbuff, List.length_append,
    List.length_append, hhead]
  exact Nat.le_add_right ..

theorem Filling.many (h : Filling s rs) : rs.length < 256 ^ 4 := by
  have hle := h.le
  have hone : ∀ rs : List Record, rs.length ≤ recordsLen rs := by
    intro rs
    induction rs with
    | nil => exact Nat.zero_le _
    | cons r rs ih =>
        rw [← List.singleton_append, recordsLen_append, List.length_append]
        refine Nat.add_le_add ?_ ih
        rw [recordsLen, List.flatMap_singleton, r.length_image]
        show 1 ≤ _
        omega
  have hlen := hone rs
  rw [h.offset, crbRecoverMessageBuffLen] at hle
  omega

theorem message_of {p crc : Bytes} (hp : p.length = crcAt)
    (hcrc : crc.length = 4) (hmany : rs.length < 256 ^ 4)
    (hsum : c.gCrcSwitch = true → UInt32.ofNat (leNat crc) =
      c.crc32 (leBytes 4 rs.length ++ rs.flatMap Record.image))
    (hsized : ∀ r ∈ rs, r.Sized .put) :
    Message c (p ++ crc ++ leBytes 4 rs.length ++ rs.flatMap Record.image)
      rs := by
  have hhead : (p ++ crc).length = numAt := by
    rw [List.length_append, hp, hcrc]
    rfl
  refine ⟨⟨p ++ crc ++ leBytes 4 rs.length, rfl, ?_⟩, ?_, ?_, hsized⟩
  · rw [List.length_append, hhead, length_leBytes]
    rfl
  · rw [readNum, readAt_eq (p ++ crc) _ rfl hhead (length_leBytes ..),
      Option.map_some, leNat_leBytes_of_lt hmany]
  · refine ⟨UInt32.ofNat (leNat crc), ?_, ?_⟩
    · rw [readCrc, readAt_eq p (leBytes 4 rs.length ++ rs.flatMap Record.image)
        (by simp only [List.append_assoc]) hp hcrc, Option.map_some]
    · intro hon
      rw [hsum hon, crcRange, List.take_length, List.append_assoc, ← hhead,
        List.drop_left]

/-- **CLOSED**: the header is completed, and the message is what has been
    used of the buffer. -/
theorem closeMessage_eq (c : Config) (h : Filling s rs)
    (hsized : ∀ r ∈ rs, r.Sized .put) (ptv : Nat) :
    ∃ buff, closeMessage c s ptv = some buff ∧
      buff.length = crbRecoverMessageBuffLen ∧
      Message c (buff.take s.buffOffset) rs := by
  obtain ⟨head, rest, hbuff, hhead⟩ := h.buff
  obtain ⟨body, hbody⟩ : ∃ body, body = rs.flatMap Record.image := ⟨_, rfl⟩
  have hoff : s.buffOffset = ioDataRequestLen + body.length := by
    rw [h.offset, hbody]
    rfl
  rw [← hbody] at hbuff
  -- the fields of the header
  obtain ⟨p, q, rfl, hp⟩ := exists_split
    (show ptvAt ≤ head.length by rw [hhead]; decide)
  rw [List.length_append, hp, ioDataRequestLen, ptvAt] at hhead
  obtain ⟨old, r, rfl, hold⟩ := exists_split (show 8 ≤ q.length by omega)
  rw [List.length_append, hold] at hhead
  obtain ⟨mid, u, rfl, hmid⟩ := exists_split (show 16 ≤ r.length by omega)
  rw [List.length_append, hmid] at hhead
  obtain ⟨x, n, rfl, hx⟩ := exists_split (show 4 ≤ u.length by omega)
  rw [List.length_append, hx] at hhead
  have hn : n.length = 4 := by omega
  rw [ptvAt] at hp
  obtain ⟨num, hnum⟩ : ∃ num, num = leBytes 4 rs.length := ⟨_, rfl⟩
  have hnumlen : num.length = 4 := by rw [hnum, length_leBytes]
  have hfirst : writeAt s.msgBuff numAt num =
      some (p ++ old ++ mid ++ x ++ num ++ (body ++ rest)) := by
    refine writeAt_eq (p ++ old ++ mid ++ x) (body ++ rest) ?_ ?_
      (hn.trans hnumlen.symm)
    · rw [hbuff]
      simp only [List.append_assoc]
    · simp only [List.length_append, hp, hold, hmid, hx, numAt]
  have hsecond : writeAt (p ++ old ++ mid ++ x ++ num ++ (body ++ rest)) ptvAt
      (leBytes 8 ptv) =
      some (p ++ leBytes 8 ptv ++ mid ++ x ++ num ++ (body ++ rest)) := by
    have hwrite := writeAt_eq p (mid ++ x ++ num ++ (body ++ rest))
      (show p ++ old ++ mid ++ x ++ num ++ (body ++ rest) =
        p ++ old ++ (mid ++ x ++ num ++ (body ++ rest)) by
          simp only [List.append_assoc])
      (show p.length = ptvAt from hp) (hold.trans (length_leBytes 8 ptv).symm)
    rw [hwrite]
    simp only [List.append_assoc]
  -- whatever stands in the CRC field, the rest is the same
  obtain ⟨front, hfront⟩ : ∃ front, front = p ++ leBytes 8 ptv ++ mid :=
    ⟨_, rfl⟩
  have hfrontlen : front.length = crcAt := by
    simp only [hfront, List.length_append, hp, hmid, length_leBytes, crcAt]
  rw [← hfront] at hsecond
  have htake : ∀ y : Bytes, y.length = 4 →
      (front ++ y ++ num ++ (body ++ rest)).take s.buffOffset =
        front ++ y ++ num ++ body := by
    intro y hy
    have hused : s.buffOffset = (front ++ y ++ num ++ body).length := by
      simp only [List.length_append, hfrontlen, hy, hnumlen, hoff, crcAt,
        ioDataRequestLen]
    rw [← List.append_assoc, hused, List.take_left]
  have hwhole : ∀ y : Bytes, y.length = 4 →
      (front ++ y ++ num ++ (body ++ rest)).length =
        crbRecoverMessageBuffLen := by
    intro y hy
    rw [← h.length, hbuff]
    simp only [List.length_append, hfrontlen, hy, hnumlen, hp, hold, hmid, hx,
      hn, crcAt]
    omega
  have hdone : ∀ y : Bytes, y.length = 4 →
      (c.gCrcSwitch = true → UInt32.ofNat (leNat y) =
        c.crc32 (num ++ body)) →
      Message c ((front ++ y ++ num ++ (body ++ rest)).take s.buffOffset)
        rs := by
    intro y hy hsum
    rw [htake y hy, hnum, hbody]
    rw [hnum, hbody] at hsum
    exact message_of hfrontlen hy h.many hsum hsized
  cases hon : c.gCrcSwitch with
  | false =>
      refine ⟨front ++ x ++ num ++ (body ++ rest), ?_, hwhole x hx,
        hdone x hx fun hc => by rw [hon] at hc; cases hc⟩
      simp only [closeMessage, h.curItemNum, ← hnum, hfirst, hsecond, hon,
        Option.bind_eq_bind, Option.bind_some, Bool.false_eq_true, if_false]
  | true =>
      obtain ⟨crc, hcrc⟩ : ∃ crc, crc = c.crc32 (num ++ body) := ⟨_, rfl⟩
      have hrange : crcRange (front ++ x ++ num ++ (body ++ rest))
          s.buffOffset = num ++ body := by
        rw [crcRange, htake x hx, List.append_assoc (front ++ x)]
        have hat : numAt = (front ++ x).length := by
          rw [List.length_append, hfrontlen, hx]
          rfl
        rw [hat, List.drop_left]
      have hwrite := writeAt_eq front (num ++ (body ++ rest))
        (show front ++ x ++ num ++ (body ++ rest) =
          front ++ x ++ (num ++ (body ++ rest)) by
            simp only [List.append_assoc])
        hfrontlen (hx.trans (length_leBytes 4 crc.toNat).symm)
      refine ⟨front ++ leBytes 4 crc.toNat ++ num ++ (body ++ rest), ?_,
        hwhole _ (length_leBytes ..), hdone _ (length_leBytes ..) fun _ => ?_⟩
      · simp only [closeMessage, h.curItemNum, ← hnum, hfirst, hsecond, hon,
          Option.bind_eq_bind, Option.bind_some, if_true, hrange, ← hcrc,
          hwrite]
        simp only [List.append_assoc]
      · rw [leNat_leBytes_of_lt crc.toNat_lt, UInt32.ofNat_toNat, hcrc]

/-- The decoder reads a message off unless it has too many records. -/
theorem Message.decode {msg : Bytes} (h : Message c msg rs) (maxSize : Nat) :
    deCodePutRequest c maxSize msg msg.length =
      if rs.length ≤ maxSize then
        some (.ok ((readOff ioDataRequestLen rs).map DecodeItem.toPut))
      else some (.error .invalidParam) := by
  obtain ⟨head, himage, hhead⟩ := h.image
  obtain ⟨crc, hcrc, hsum⟩ := h.crc
  have hsame : ¬ (c.gCrcSwitch = true ∧
      crc ≠ c.crc32 (crcRange msg msg.length)) :=
    fun hbad => hbad.2 (hsum hbad.1)
  have hlen : head.length + (rs.flatMap Record.image).length ≤ msg.length := by
    rw [himage, List.length_append]
  have hloop := decodeLoop_records rs head
    (show msg = head ++ rs.flatMap Record.image ++ [] by
      rw [himage, List.append_nil]) h.sized hlen
  rw [hhead] at hloop
  simp only [deCodePutRequest, decodeRequest, h.num, hcrc, hsame,
    Option.bind_eq_bind, Option.bind_some, if_false]
  split
  · rename_i hmany
    rw [if_neg (Nat.not_le.mpr hmany)]
    rfl
  · rename_i hfew
    rw [if_pos (Nat.not_lt.mp hfew), hloop]
    rfl

end UbsIo.Crb
