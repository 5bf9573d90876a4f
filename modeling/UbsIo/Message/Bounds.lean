import UbsIo.Message.RoundTrip

/-! # What the decoders read and point to

    A message is any bytes.  The decoders read the header of a record before
    they compare the offset with the length, and hand out pointers whose
    lengths come from the message.  A message is decoded safely if nothing at
    or behind its end is read and, where `MMS_OK` is returned, every key and
    value lies inside of it. -/

namespace UbsIo.Message

open UbsIo.Lib UbsIo.Cache

variable {kind : Kind} {buff : Bytes}

/-! ## Pointers -/

/-- The pointers and lengths that the decoders hand out for a record. -/
structure Pointers where
  descAt : Nat
  keyAt : Nat
  keyLen : Nat
  valueAt : Nat
  valueLen : Nat
  offset : BitVec 24
  version : UInt64
deriving DecidableEq

/-- What the decoders read of an `IoLocDesc`: its first 16 bytes, which are the
    lengths, the offset and the version. -/
def readHead (buff : Bytes) (offset : Nat) : Option IoLocDesc :=
  (readAt buff offset 16).map IoLocDesc.ofBytes

/-- The pointers into the record at `offset`; a delete has no value. -/
def IoLocDesc.pointers (kind : Kind) (desc : IoLocDesc) (offset : Nat) :
    Pointers where
  descAt := offset
  keyAt := offset + ioDescriptionLen
  keyLen := (desc.keyLen - 1).toNat
  valueAt := offset + ioDescriptionLen + desc.keyLen.toNat
  valueLen := if kind = .delete then 0 else desc.valueLen.toNat
  offset := desc.offset
  version := desc.version

/-- Where the next record begins. -/
def Pointers.next (p : Pointers) : Nat := p.valueAt + p.valueLen

/-- The loop of the decoders, as to the pointers. -/
def decodePointers (kind : Kind) (buff : Bytes) (realLen : Nat) :
    Nat → Nat → Option (Except BResult (List Pointers))
  | 0, _ => some (.ok [])
  | n + 1, offset => do
      let desc ← readHead buff offset
      let p := desc.pointers kind offset
      if p.next > realLen then some (.error .err)
      else
        match ← decodePointers kind buff realLen n p.next with
        | .error e => some (.error e)
        | .ok ps => some (.ok (p :: ps))

/-- The decoders, as to the pointers. -/
def decodeRequestPointers (c : Config) (kind : Kind) (maxSize : Nat)
    (buff : Bytes) (realLen : Nat) :
    Option (Except BResult (List Pointers)) := do
  let itemNum ← readNum buff
  if itemNum > maxSize then some (.error .invalidParam)
  else
    let crc ← readCrc buff
    if c.gCrcSwitch ∧ crc ≠ c.crc32 (crcRange buff realLen) then
      some (.error .crcErr)
    else decodePointers kind buff realLen itemNum ioDataRequestLen

/-- What the pointers lead to. -/
def Pointers.item (buff : Bytes) (p : Pointers) : DecodeItem where
  key := (buff.drop p.keyAt).take p.keyLen
  value := (buff.drop p.valueAt).take p.valueLen
  offset := p.offset
  version := p.version
  resultAt := p.descAt + 16
  valueAddrAt := p.descAt + 24

theorem readHead_of_readDesc (kind : Kind) {offset : Nat} {desc : IoLocDesc}
    (h : readDesc buff offset = some desc) :
    ∃ head, readHead buff offset = some head ∧
      head.pointers kind offset = desc.pointers kind offset := by
  obtain ⟨b, hb, rfl⟩ := Option.map_eq_some_iff.mp h
  rw [readAt] at hb
  split at hb
  · rename_i hin
    have hin' : offset + 16 ≤ buff.length :=
      (Nat.add_le_add_left (by decide) offset).trans hin
    rw [← Option.some.inj hb]
    refine ⟨_, by rw [readHead, readAt, if_pos hin']; rfl, ?_⟩
    simp only [IoLocDesc.pointers, IoLocDesc.ofBytes, List.take_take,
      List.drop_take, ioDescriptionLen]
    rfl
  · cases hb

theorem decodeLoop_pointers (realLen : Nat) : ∀ (n offset : Nat)
    {r : Except BResult (List DecodeItem)},
    decodeLoop kind buff realLen n offset = some r →
      (decodePointers kind buff realLen n offset).map
        (Except.map (List.map (Pointers.item buff))) = some r := by
  intro n
  induction n with
  | zero => exact fun _ _ h => h
  | succ n ih =>
      intro offset r h
      rw [decodeLoop] at h
      obtain ⟨desc, hdesc, h⟩ := Option.bind_eq_some_iff.mp h
      obtain ⟨head, hhead, hsame⟩ :=
        readHead_of_readDesc kind hdesc
      have hnext : (if kind = .delete then
          offset + ioDescriptionLen + desc.keyLen.toNat
          else offset + ioDescriptionLen + desc.keyLen.toNat +
            desc.valueLen.toNat) = (desc.pointers kind offset).next := by
        simp only [Pointers.next, IoLocDesc.pointers]
        split
        · rfl
        · rfl
      have hvalue : (if kind = .delete then [] else
          (buff.drop (offset + ioDescriptionLen +
            desc.keyLen.toNat)).take desc.valueLen.toNat) =
          ((desc.pointers kind offset).item buff).value := by
        simp only [Pointers.item, IoLocDesc.pointers]
        split
        · rw [List.take_zero]
        · rfl
      simp only [hnext, hvalue] at h
      simp only [decodePointers, hhead, hsame, Option.bind_eq_bind,
        Option.bind_some]
      split at h
      · rename_i hout
        rw [if_pos hout]
        exact h
      · rename_i hin
        rw [if_neg hin]
        obtain ⟨r', hr', h⟩ := Option.bind_eq_some_iff.mp h
        obtain ⟨q, hq, hqr⟩ := Option.map_eq_some_iff.mp (ih _ hr')
        rw [hq, ← h, ← hqr]
        cases q with
        | error e => rfl
        | ok ps => rfl

/-- **THE SAME DECODER**: where the codec's decoder has an answer, its items
    are what the pointers lead to. -/
theorem decodeRequest_pointers (c : Config) (maxSize realLen : Nat)
    {r : Except BResult (List DecodeItem)}
    (h : decodeRequest c kind maxSize buff realLen = some r) :
    (decodeRequestPointers c kind maxSize buff realLen).map
      (Except.map (List.map (Pointers.item buff))) = some r := by
  rw [decodeRequest] at h
  obtain ⟨itemNum, hnum, h⟩ := Option.bind_eq_some_iff.mp h
  simp only [decodeRequestPointers, hnum, Option.bind_eq_bind,
    Option.bind_some]
  split at h
  · rename_i hmax
    rw [if_pos hmax]
    exact h
  · rename_i hmax
    rw [if_neg hmax]
    obtain ⟨crc, hcrc, h⟩ := Option.bind_eq_some_iff.mp h
    simp only [hcrc, Option.bind_some]
    split at h
    · rename_i hbad
      rw [if_pos hbad]
      exact h
    · rename_i hgood
      rw [if_neg hgood]
      exact decodeLoop_pointers realLen _ _ h

/-! ## Messages -/

/-- A key and a value inside the message. -/
def Pointers.Inside (p : Pointers) (realLen : Nat) : Prop :=
  p.keyAt + p.keyLen ≤ realLen ∧ p.valueAt + p.valueLen ≤ realLen

/-- A header that announces one record. -/
def oneAnnounced : Bytes := List.replicate 36 0 ++ leBytes 4 1

/-- One record, with a key and a value of one byte each. -/
def oneRecord : Bytes :=
  oneAnnounced ++ lenWord 2 1 0 ++ List.replicate 24 0 ++ [97, 0, 1]

end UbsIo.Message
