import UbsIo.Cache.Model
import UbsIo.Lib.Bytes

/-! # Request messages

    The coding of `mms_message.cpp`.  A request is an `IoDataRequest`, followed
    for each item by an `IoLocDesc`, the key with a zero behind it and the
    value.  The encoders fill blocks of a fixed length and begin a new block
    when an item does not fit any more; the decoders hand out pointers into the
    block, through which the results come back.

    A block is the list of its bytes.  A load or store outside of it makes the
    call `none`.  Numbers lie in memory in little-endian order, the first bit
    field lowest. -/

namespace UbsIo.Message

open UbsIo.Lib UbsIo.Cache

/-- `IO_DATA_REQUEST_LEN`. -/
def ioDataRequestLen : Nat := 40

/-- `IO_DESCRIPTION_LEN`. -/
def ioDescriptionLen : Nat := 32

/-- `IOCTX_HEADER_LEN`. -/
def ioctxHeaderLen : Nat := 72

/-- Where `crc` and `num` lie in an `IoDataRequest`; what is behind `crc` is
    covered by it. -/
def crcAt : Nat := 32

def numAt : Nat := 36

/-- What the coding depends on: the admitted block lengths, the CRC switch and
    function, and the limit of `memcpy_s`. -/
structure Config where
  ioCtxBuffLen : Nat
  gCrcSwitch : Bool
  crc32 : Bytes → UInt32
  memMaxLen : Nat
  buffLen_ge : 1024 ≤ ioCtxBuffLen
  buffLen_le : ioCtxBuffLen ≤ 4 * 1024 * 1024
  memMaxLen_ge : 4 * 1024 * 1024 ≤ memMaxLen

/-- `mMaxPutItemNum`, with `MIN_KEY_SIZE` and `MIN_VALUE_SIZE`. -/
def Config.maxPutItemNum (c : Config) : Nat :=
  (c.ioCtxBuffLen - ioDataRequestLen) / (ioDescriptionLen + 1 + 1)

/-- `mMaxUpdateItemNum`. -/
def Config.maxUpdateItemNum (c : Config) : Nat := c.maxPutItemNum

/-- `mMaxDeleteItemNum`. -/
def Config.maxDeleteItemNum (c : Config) : Nat :=
  (c.ioCtxBuffLen - ioDataRequestLen) / (ioDescriptionLen + 1)

/-- The number of an error code. -/
def code : BResult → UInt32
  | .ok => 0
  | .err => 1
  | .innerErr => 2
  | .invalidParam => 3
  | .notReady => 4
  | .allocFail => 5
  | .notExists => 7
  | .checkPtFail => 11
  | .keyConflict => 12
  | .innerRetry => 14
  | .crcErr => 16
  | .netRetry => 17
  | .putRepeat => 18
  | .keyNotExists => 19
  | .max => 21

/-! ## Descriptors -/

/-- `IoLocDesc`. -/
structure IoLocDesc where
  keyLen : BitVec 16
  valueLen : BitVec 24
  offset : BitVec 24
  version : UInt64
  result : UInt32
  reserved : UInt32
  valueAddr : UInt64
deriving DecidableEq

/-- The word that the three bit fields share. -/
def lenWord (keyLen : BitVec 16) (valueLen offset : BitVec 24) : Bytes :=
  leBytes 8
    (keyLen.toNat + 2 ^ 16 * valueLen.toNat + 2 ^ 40 * offset.toNat)

/-- An `IoLocDesc` in memory. -/
def IoLocDesc.bytes (d : IoLocDesc) : Bytes :=
  lenWord d.keyLen d.valueLen d.offset ++ leBytes 8 d.version.toNat ++
    leBytes 4 d.result.toNat ++ leBytes 4 d.reserved.toNat ++
    leBytes 8 d.valueAddr.toNat

/-- The `IoLocDesc` that 32 bytes are. -/
def IoLocDesc.ofBytes (b : Bytes) : IoLocDesc where
  keyLen := BitVec.ofNat 16 (leNat (b.take 8))
  valueLen := BitVec.ofNat 24 (leNat (b.take 8) / 2 ^ 16)
  offset := BitVec.ofNat 24 (leNat (b.take 8) / 2 ^ 40)
  version := UInt64.ofNat (leNat ((b.drop 8).take 8))
  result := UInt32.ofNat (leNat ((b.drop 16).take 4))
  reserved := UInt32.ofNat (leNat ((b.drop 20).take 4))
  valueAddr := UInt64.ofNat (leNat ((b.drop 24).take 8))

def readDesc (buff : Bytes) (offset : Nat) : Option IoLocDesc :=
  (readAt buff offset ioDescriptionLen).map IoLocDesc.ofBytes

def readNum (buff : Bytes) : Option Nat :=
  (readAt buff numAt 4).map leNat

def readCrc (buff : Bytes) : Option UInt32 :=
  (readAt buff crcAt 4).map fun b => UInt32.ofNat (leNat b)

/-- The bytes that the CRC of a request of `len` bytes covers. -/
def crcRange (buff : Bytes) (len : Nat) : Bytes :=
  (buff.take len).drop numAt

/-! ## Encoding -/

/-- `PutItems`: the input of one item. -/
structure PutItems where
  key : Key
  value : Bytes
  isNotify : UInt16
  nonempty : 0 < value.length

/-- `UpdateItems`, which are `ReplaceItems` too. -/
structure UpdateItems where
  key : Key
  value : Bytes
  offset : UInt32
  nonempty : 0 < value.length

/-- `DeleteItems`. -/
structure DeleteItems where
  key : Key
  isNotify : UInt16

/-- What differs between the encoders of puts, of updates and of deletes. -/
inductive Kind where
  | put
  | update
  | delete
deriving DecidableEq

/-- What an encoder writes for an item; `gPtVersion` is loaded for each. -/
structure Fields where
  key : Key
  value : Bytes
  offset : BitVec 24
  version : UInt64

def PutItems.fields (item : PutItems) (version : UInt64) : Fields :=
  ⟨item.key, item.value, BitVec.ofNat 24 item.isNotify.toNat, version⟩

def UpdateItems.fields (item : UpdateItems) (version : UInt64) : Fields :=
  ⟨item.key, item.value, BitVec.ofNat 24 item.offset.toNat, version⟩

def DeleteItems.fields (item : DeleteItems) (version : UInt64) : Fields :=
  ⟨item.key, [], BitVec.ofNat 24 item.isNotify.toNat, version⟩

/-- A block that the allocator hands out, with whatever it contains. -/
structure RawBlock (c : Config) where
  addr : Addr
  bytes : Bytes
  length_eq : bytes.length = c.ioCtxBuffLen

/-- `IOCtxItem`: a block and how much of it is used. -/
structure IOCtxItem where
  addr : Addr
  buff : Bytes
  reqLen : Nat
deriving DecidableEq

/-- `EncodeBufferState`. -/
structure EncodeBufferState where
  addr : Addr
  buff : Bytes
  offset : Nat
  curItemNum : Nat

/-- The block as it is handed over. -/
def EncodeBufferState.item (s : EncodeBufferState) : IOCtxItem :=
  ⟨s.addr, s.buff, s.offset⟩

/-- `FinishRequestBlock`. -/
def finishRequestBlock (c : Config) (s : EncodeBufferState) :
    Option IOCtxItem := do
  let buff ← writeAt s.buff numAt (leBytes 4 s.curItemNum)
  let buff ←
    if c.gCrcSwitch then
      writeAt buff crcAt (leBytes 4 (c.crc32 (crcRange buff s.offset)).toNat)
    else some buff
  some ⟨s.addr, buff, s.offset⟩

/-- `AllocRequestBlock`, once the block is there. -/
def startBlock {c : Config} (b : RawBlock c) : Option EncodeBufferState := do
  let buff ← writeAt b.bytes crcAt (leBytes 4 0)
  some ⟨b.addr, buff, ioDataRequestLen, 0⟩

/-- Whether `memcpy_s` copies `count` bytes to `destMax`. -/
def memcpyS (c : Config) (destMax count : Nat) : Bool :=
  decide (0 < destMax ∧ destMax ≤ c.memMaxLen ∧ count ≤ destMax)

/-- `CopyKey`: `false` is its failure. -/
def copyKey (c : Config) (buff : Bytes) (offset : Nat) (key : Bytes) :
    Option (Bool × Bytes) :=
  if memcpyS c (c.ioCtxBuffLen - offset) key.length then do
    let buff ← writeAt buff offset key
    let buff ← writeAt buff (offset + key.length) [0]
    some (true, buff)
  else some (false, buff)

/-- The descriptor that the encoders write for an item; only
    `EncodeSinglePutKV` clears `valueAddr`. -/
def encodeDesc (kind : Kind) (buff : Bytes) (offset : Nat) (f : Fields) :
    Option Bytes := do
  let buff ← writeAt buff offset
    (lenWord (BitVec.ofNat 16 (f.key.bytes.length + 1))
        (BitVec.ofNat 24 f.value.length) f.offset ++
      leBytes 8 f.version.toNat ++ leBytes 4 (code .max).toNat ++ leBytes 4 0)
  if kind = .put then writeAt buff (offset + 24) (leBytes 8 0) else some buff

/-- `EncodeSinglePutKV`, `EncodeSingleUpdateKV` and `EncodeSingleDeleteKV`,
    the last of which has no value to copy. -/
def encodeSingleKV (c : Config) (kind : Kind) (buff : Bytes) (offset : Nat)
    (f : Fields) : Option (BResult × Bytes × Nat) := do
  let keyLen := f.key.bytes.length
  let buff ← encodeDesc kind buff offset f
  let offset := offset + ioDescriptionLen
  match ← copyKey c buff offset f.key.bytes with
  | (false, buff) => some (.err, buff, offset)
  | (true, buff) =>
      let offset := offset + (keyLen + 1)
      if kind = .delete then some (.ok, buff, offset)
      else if memcpyS c (c.ioCtxBuffLen - offset) f.value.length then
        let buff ← writeAt buff offset f.value
        some (.ok, buff, offset + f.value.length)
      else some (.err, buff, offset)

/-- What an encoder gives back: its code, the blocks, and how often it has
    asked for one. -/
structure Encoded where
  ret : BResult
  ctxItems : List IOCtxItem
  asked : Nat

/-- The length of an item in a block. -/
def Fields.len (f : Fields) : Nat :=
  ioDescriptionLen + f.key.bytes.length + 1 + f.value.length

/-- The item is larger than a block; deletes are not checked for it. -/
def TooLarge (c : Config) (kind : Kind) (f : Fields) : Prop :=
  kind ≠ .delete ∧
    c.ioCtxBuffLen - ioctxHeaderLen < f.key.bytes.length + 1 + f.value.length

instance (c : Config) (kind : Kind) (f : Fields) :
    Decidable (TooLarge c kind f) :=
  inferInstanceAs (Decidable (_ ∧ _))

/-- The loop of the encoders over the items. -/
def encodeLoop (c : Config) (kind : Kind) (supply : Nat → Option (RawBlock c)) :
    EncodeBufferState → List IOCtxItem → Nat → List Fields → Option Encoded
  | s, ctxItems, asked, [] => do
      let item ← finishRequestBlock c s
      some ⟨.ok, ctxItems ++ [item], asked⟩
  | s, ctxItems, asked, f :: rest =>
      if TooLarge c kind f then
        some ⟨.invalidParam, ctxItems ++ [s.item], asked⟩
      else if s.offset + f.len > c.ioCtxBuffLen then do
        let item ← finishRequestBlock c s
        match supply asked with
        | none => some ⟨.allocFail, ctxItems ++ [item], asked + 1⟩
        | some b =>
            let s ← startBlock b
            match ← encodeSingleKV c kind s.buff s.offset f with
            | (.ok, buff, offset) =>
                encodeLoop c kind supply
                  { s with buff, offset, curItemNum := s.curItemNum + 1 }
                  (ctxItems ++ [item]) (asked + 1) rest
            | (ret, buff, offset) =>
                some ⟨ret,
                  ctxItems ++ [item] ++ [{ s with buff, offset }.item],
                  asked + 1⟩
      else do
        match ← encodeSingleKV c kind s.buff s.offset f with
        | (.ok, buff, offset) =>
            encodeLoop c kind supply
              { s with buff, offset, curItemNum := s.curItemNum + 1 }
              ctxItems asked rest
        | (ret, buff, offset) =>
            some ⟨ret, ctxItems ++ [{ s with buff, offset }.item], asked⟩

def encodeRequest (c : Config) (kind : Kind)
    (supply : Nat → Option (RawBlock c)) (items : List Fields) :
    Option Encoded :=
  match supply 0 with
  | none => some ⟨.allocFail, [], 1⟩
  | some b => do
      let s ← startBlock b
      encodeLoop c kind supply s [] 1 items

/-- `EncodePutRequest`, each item with the version that is loaded for it. -/
def encodePutRequest (c : Config) (supply : Nat → Option (RawBlock c))
    (items : List (PutItems × UInt64)) : Option Encoded :=
  encodeRequest c .put supply (items.map fun p => p.1.fields p.2)

/-- `EncodeUpdateRequest`, which is `EncodeReplaceRequest` too. -/
def encodeUpdateRequest (c : Config) (supply : Nat → Option (RawBlock c))
    (items : List (UpdateItems × UInt64)) : Option Encoded :=
  encodeRequest c .update supply (items.map fun p => p.1.fields p.2)

/-- `EncodeDeleteRequest`. -/
def encodeDeleteRequest (c : Config) (supply : Nat → Option (RawBlock c))
    (items : List (DeleteItems × UInt64)) : Option Encoded :=
  encodeRequest c .delete supply (items.map fun p => p.1.fields p.2)

/-! ## Decoding -/

/-- What the decoders hand out for an item: bytes of the block, and where the
    result and the address are to be stored. -/
structure DecodeItem where
  key : Bytes
  value : Bytes
  offset : BitVec 24
  version : UInt64
  resultAt : Nat
  valueAddrAt : Nat
deriving DecidableEq

/-- The loop of the decoders; deletes have no value. -/
def decodeLoop (kind : Kind) (buff : Bytes) (realLen : Nat) :
    Nat → Nat → Option (Except BResult (List DecodeItem))
  | 0, _ => some (.ok [])
  | n + 1, offset => do
      let desc ← readDesc buff offset
      let keyAt := offset + ioDescriptionLen
      let valueAt := keyAt + desc.keyLen.toNat
      let item : DecodeItem :=
        { key := (buff.drop keyAt).take ((desc.keyLen - 1).toNat)
          value := if kind = .delete then []
            else (buff.drop valueAt).take desc.valueLen.toNat
          offset := desc.offset
          version := desc.version
          resultAt := offset + 16
          valueAddrAt := offset + 24 }
      let offset :=
        if kind = .delete then valueAt else valueAt + desc.valueLen.toNat
      if offset > realLen then some (.error .err)
      else
        match ← decodeLoop kind buff realLen n offset with
        | .error e => some (.error e)
        | .ok items => some (.ok (item :: items))

/-- The decoders, with an item vector of `maxSize` entries. -/
def decodeRequest (c : Config) (kind : Kind) (maxSize : Nat) (buff : Bytes)
    (realLen : Nat) : Option (Except BResult (List DecodeItem)) := do
  let itemNum ← readNum buff
  if itemNum > maxSize then some (.error .invalidParam)
  else
    let crc ← readCrc buff
    if c.gCrcSwitch ∧ crc ≠ c.crc32 (crcRange buff realLen) then
      some (.error .crcErr)
    else decodeLoop kind buff realLen itemNum ioDataRequestLen

/-- `DecodePutItem`. -/
structure DecodePutItem where
  key : Bytes
  value : Bytes
  isNotify : UInt16
  version : UInt64
  resultAt : Nat
  valueAddrAt : Nat
deriving DecidableEq

def DecodeItem.toPut (d : DecodeItem) : DecodePutItem :=
  ⟨d.key, d.value, UInt16.ofNat d.offset.toNat, d.version, d.resultAt,
    d.valueAddrAt⟩

/-- `DeCodePutRequest`. -/
def deCodePutRequest (c : Config) (maxSize : Nat) (buff : Bytes)
    (realLen : Nat) : Option (Except BResult (List DecodePutItem)) :=
  (decodeRequest c .put maxSize buff realLen).map
    (Except.map (List.map DecodeItem.toPut))

/-- A store through a decoded `result` pointer. -/
def storeResult (buff : Bytes) (resultAt : Nat) (result : UInt32) :
    Option Bytes :=
  writeAt buff resultAt (leBytes 4 result.toNat)

/-- The inner loop of `FillResults`, over one block. -/
def fillBlock {σ : Type} (fillFunc : σ → Nat → IoLocDesc → σ)
    (withValue : Bool) (buff : Bytes) :
    Nat → Nat → Nat → σ → Option (Nat × σ)
  | 0, _, curIndex, s => some (curIndex, s)
  | n + 1, offset, curIndex, s => do
      let desc ← readDesc buff offset
      let offset := offset + (ioDescriptionLen + desc.keyLen.toNat)
      let offset :=
        if withValue then offset + desc.valueLen.toNat else offset
      fillBlock fillFunc withValue buff n offset (curIndex + 1)
        (fillFunc s curIndex desc)

/-- `FillResults`. -/
def fillResults {σ : Type} (fillFunc : σ → Nat → IoLocDesc → σ)
    (withValue : Bool) : Nat → List IOCtxItem → σ → Option (Nat × σ)
  | curIndex, [], s => some (curIndex, s)
  | curIndex, ctxItem :: rest, s => do
      let num ← readNum ctxItem.buff
      let (curIndex, s) ← fillBlock fillFunc withValue ctxItem.buff num
        ioDataRequestLen curIndex s
      fillResults fillFunc withValue curIndex rest s

/-- Where an item's result goes; `none` is a null pointer. -/
abbrev Cell := Option UInt32

def setCell (cells : List Cell) (index : Nat) (result : UInt32) : List Cell :=
  cells.modify index (Option.map fun _ => result)

/-- `FillPutItemResults`, which sets the addresses too. -/
def fillPutItemResults (itemIndex : Nat) (ctxItems : List IOCtxItem)
    (cells : List Cell × List (Option UInt64)) :
    Option (Nat × List Cell × List (Option UInt64)) :=
  fillResults
    (fun cells index desc =>
      (setCell cells.1 index desc.result,
        cells.2.modify index (Option.map fun _ => desc.valueAddr)))
    true itemIndex ctxItems cells

/-- `FillUpdateItemResults`, which is `FillReplaceItemResults` too. -/
def fillUpdateItemResults (itemIndex : Nat) (ctxItems : List IOCtxItem)
    (cells : List Cell) : Option (Nat × List Cell) :=
  fillResults (fun cells index desc => setCell cells index desc.result) true
    itemIndex ctxItems cells

/-- `FillDeleteItemResults`. -/
def fillDeleteItemResults (itemIndex : Nat) (ctxItems : List IOCtxItem)
    (cells : List Cell) : Option (Nat × List Cell) :=
  fillResults (fun cells index desc => setCell cells index desc.result) false
    itemIndex ctxItems cells

end UbsIo.Message
