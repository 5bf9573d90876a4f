import Mathlib

/-! # The memstore cache

    `Cache` of `mms_cache.cpp`: a hash table in shared memory.  A key's hash
    selects a shard, a bucket of the shard and one of the bucket's eight
    slots.  A slot is an `IndexNode` that points to an `IndexValue` block; the
    node of the next entry of the slot is EMBEDDED in that block.  The bytes
    of an entry lie in a value block of their own.

    Index blocks and value blocks are two heaps of live blocks; a read, a
    write or a free of a block that is not live makes the call `none`, and so
    does a chain of nodes that does not end.  The allocators answer as they
    like: a call carries the answers its allocations get, and an answer that
    names a live block or a block that is too small counts as a refusal.

    `Trans2Offset` and `Trans2Addr` are inverse to each other, so offsets into
    an area are addresses here.  NUMA preferences only tell an allocator where
    to look first.  Every call holds the lock of its bucket while it touches
    the chain. -/

namespace UbsIo.Cache

abbrev Addr := Nat
abbrev Bytes := List UInt8

/-- `MAX_KEY_SIZE`. -/
def maxKeySize : Nat := 32

/-- `DATA_HEADER_SIZE`. -/
def dataHeaderSize : Nat := 8

/-- `BUCKET_INLINE_SLOT_NUM`. -/
def bucketInlineSlotNum : Nat := 8

/-- `UINT64_MAX`. -/
def uint64Max : Nat := 2 ^ 64 - 1

/-- The keys that the interface lets through. -/
structure Key where
  bytes : Bytes
  nonempty : 0 < bytes.length
  short : bytes.length < maxKeySize
deriving DecidableEq

/-- The codes of `mms_err.h` that the modelled functions answer with;
    `max` marks an item that has not been tried. -/
inductive BResult where
  | ok
  | err
  | innerErr
  | invalidParam
  | notReady
  | allocFail
  | notExists
  | checkPtFail
  | keyConflict
  | innerRetry
  | crcErr
  | netRetry
  | putRepeat
  | keyNotExists
  | max
deriving DecidableEq, Repr

structure IndexNode where
  hashCode : UInt32
  valid : Bool
  indexValueAddr : Addr
deriving DecidableEq, Repr

structure IndexValue where
  next : IndexNode
  /-- The first `keyLen` bytes of the array. -/
  key : Bytes
  ptId : Nat
  isDelete : Bool
  version : UInt32
  totalDataLen : Nat
  /-- `none` is `INVALID_BLOCK_OFFSET`. -/
  blockOffset : Option Addr
deriving DecidableEq, Repr

/-- A `DataHeader` with the bytes behind it. -/
structure DataBlock where
  blockSize : Nat
  data : Bytes
deriving DecidableEq, Repr

/-- What `Init` sets up, and the limit of `memcpy_s`
    (`SECUREC_MEM_MAX_LEN`). -/
structure Layout where
  /-- The bucket counts of the shards. -/
  shards : List Nat
  memMaxLen : Nat
  shards_ne : shards ≠ []
  bucketCount_pos : ∀ n ∈ shards, 0 < n
  maxKeySize_le : maxKeySize ≤ memMaxLen
  memMaxLen_lt : memMaxLen < uint64Max - dataHeaderSize

/-- A slot of a bucket of a shard. -/
structure SlotId where
  shard : Nat
  bucket : Nat
  slot : Nat
deriving DecidableEq, Repr

/-- An `IndexNode *`: a node lies in a slot, or in the index block before
    it. -/
inductive NodePtr where
  | slot (i : SlotId)
  | next (a : Addr)
deriving DecidableEq, Repr

structure Mem where
  slots : SlotId → IndexNode
  index : AList fun _ : Addr => IndexValue
  value : AList fun _ : Addr => DataBlock
  mIsRecovering : Bool

/-- The answers to the allocations of one call: an index block with whatever
    it contains, a value block for each size that may be asked for, and whether
    the buffer for a comparison can be had. -/
structure Grants where
  index : Option (Addr × IndexValue)
  value : Nat → Option (Addr × Bytes)
  scratch : Bool

/-- What a call gives back: its code, the address it hands out, the length it
    reports and the bytes it copies into the caller's buffer. -/
structure Reply where
  ret : BResult
  valueAddr : Option Addr := none
  realLength : Option Nat := none
  data : Bytes := []
deriving DecidableEq, Repr

/-- The bytes of `buf` with `data` written over them from `offset` on. -/
def overlay (buf : Bytes) (offset : Nat) (data : Bytes) : Bytes :=
  buf.take offset ++ data ++ buf.drop (offset + data.length)

/-! ## Hashing -/

/-- `HashKey`. -/
def hashKey (key : Bytes) : UInt32 :=
  key.foldl (fun h b => (h ^^^ b.toUInt32) * 16777619) 2166136261

/-- `MixBucketSlotHash`. -/
def mixBucketSlotHash (hashCode : UInt32) : UInt32 :=
  let h := hashCode ^^^ (hashCode >>> 16)
  let h := h * 0x7FEB352D
  let h := h ^^^ (h >>> 15)
  let h := h * 0x846CA68B
  h ^^^ (h >>> 16)

/-- The place `SelectShard`, `GetBucketAddr` and `GetBucketSlot` give to a
    hash code. -/
def slotOf (L : Layout) (hashCode : UInt32) : SlotId where
  shard := hashCode.toNat % L.shards.length
  bucket := hashCode.toNat %
    L.shards.getD (hashCode.toNat % L.shards.length) 1
  slot := (mixBucketSlotHash hashCode).toNat &&& (bucketInlineSlotNum - 1)

/-! ## Memory -/

namespace Mem

def readNode (m : Mem) : NodePtr → Option IndexNode
  | .slot i => some (m.slots i)
  | .next a => (m.index.lookup a).map (·.next)

def modifyIndex (m : Mem) (a : Addr) (f : IndexValue → IndexValue) :
    Option Mem :=
  (m.index.lookup a).map fun v => { m with index := m.index.insert a (f v) }

def modifyBlock (m : Mem) (b : Addr) (f : DataBlock → DataBlock) :
    Option Mem :=
  (m.value.lookup b).map fun v => { m with value := m.value.insert b (f v) }

def writeNode (m : Mem) (p : NodePtr) (n : IndexNode) : Option Mem :=
  match p with
  | .slot i => some { m with slots := Function.update m.slots i n }
  | .next a => m.modifyIndex a fun v => { v with next := n }

/-- `MmsFree` of the index allocator. -/
def freeIndex (m : Mem) (a : Addr) : Option Mem :=
  if a ∈ m.index then some { m with index := m.index.erase a } else none

/-- `MmsFree` of the value allocator. -/
def freeValue (m : Mem) (b : Addr) : Option Mem :=
  if b ∈ m.value then some { m with value := m.value.erase b } else none

/-- `MmsAllocPreferNuma` of the index allocator. -/
def allocIndex (m : Mem) (g : Grants) : Option (Addr × Mem) :=
  match g.index with
  | none => none
  | some (a, raw) =>
      if a ∈ m.index then none
      else some (a, { m with index := m.index.insert a raw })

/-- `MmsAllocPreferNuma` of the value allocator, with `GetBlockSize`. -/
def allocValue (m : Mem) (g : Grants) (size : Nat) :
    Option (Addr × Nat × Mem) :=
  match g.value size with
  | none => none
  | some (b, raw) =>
      if b ∈ m.value ∨ raw.length < size then none
      else some (b, raw.length,
        { m with value := m.value.insert b ⟨0, raw.drop dataHeaderSize⟩ })

end Mem

/-- Whether `memcpy_s` copies `count` bytes to a buffer of `destMax`. -/
def memcpyS (L : Layout) (destMax count : Nat) : Bool :=
  decide (0 < destMax ∧ destMax ≤ L.memMaxLen ∧ count ≤ destMax)

/-- `FreeValueBlock`. -/
def freeValueBlock (m : Mem) (v : IndexValue) : Option Mem :=
  match v.blockOffset with
  | none => some m
  | some b => m.freeValue b

/-- `CopyIndexKey`. -/
def copyIndexKey (L : Layout) (m : Mem) (a : Addr) (key : Key) :
    Option (BResult × Mem) :=
  if memcpyS L maxKeySize key.bytes.length then do
    let m ← m.modifyIndex a fun v => { v with key := key.bytes }
    some (.ok, m)
  else some (.err, m)

/-- `AllocDataBlock`: the block and the size of its data. -/
def allocDataBlock (m : Mem) (g : Grants) (remainLen : Nat) :
    Option (Except BResult (Addr × Nat) × Mem) :=
  if remainLen > uint64Max - dataHeaderSize then
    some (.error .invalidParam, m)
  else
    match m.allocValue g (remainLen + dataHeaderSize) with
    | none => some (.error .allocFail, m)
    | some (b, blockSize, m) =>
        if blockSize ≤ dataHeaderSize then do
          let m ← m.freeValue b
          some (.error .allocFail, m)
        else some (.ok (b, blockSize - dataHeaderSize), m)

/-- `PutDataIntoBlock`. -/
def putDataIntoBlock (L : Layout) (m : Mem) (g : Grants) (a : Addr)
    (data : Bytes) : Option (BResult × Mem) :=
  if data.length = 0 then some (.invalidParam, m)
  else do
    match ← allocDataBlock m g data.length with
    | (.error e, m) => some (e, m)
    | (.ok (b, buffSize), m) =>
        let m ← m.modifyBlock b fun d => { d with blockSize := buffSize }
        if memcpyS L buffSize data.length then
          let m ← m.modifyBlock b fun d =>
            { d with data := overlay d.data 0 data }
          let m ← m.modifyIndex a fun v =>
            { v with
              blockOffset := some b
              totalDataLen := v.totalDataLen + data.length }
          some (.ok, m)
        else
          let m ← m.freeValue b
          some (.innerErr, m)

/-- The block `GetDataFromBlock` and `GetDataAddrFromBlock` read, with the
    number of bytes they may read there; 0 is their failure. -/
def blockRange (m : Mem) (v : IndexValue) (offset dataLen : Nat) :
    Option (Option (Addr × DataBlock × Nat)) :=
  if dataLen = 0 ∨ v.totalDataLen ≤ offset then some none
  else do
    let b ← v.blockOffset
    let header ← m.value.lookup b
    let realLen := min (v.totalDataLen - offset) dataLen
    if offset > header.blockSize ∨ realLen > header.blockSize - offset then
      some none
    else some (some (b, header, realLen))

/-- `GetDataFromBlock`: the bytes it copies, none of them when it fails. -/
def getDataFromBlock (L : Layout) (m : Mem) (v : IndexValue)
    (offset dataLen : Nat) : Option Bytes := do
  match ← blockRange m v offset dataLen with
  | none => some []
  | some (_, header, realLen) =>
      if memcpyS L dataLen realLen then
        some ((header.data.drop offset).take realLen)
      else some []

/-- `GetDataAddrFromBlock` from the start of the data on: the block it points
    into and the length. -/
def getDataAddrFromBlock (m : Mem) (v : IndexValue) (dataLen : Nat) :
    Option (Option Addr × Nat) := do
  match ← blockRange m v 0 dataLen with
  | none => some (none, 0)
  | some (b, _, realLen) => some (some b, realLen)

/-- `FindExistingNode`, from a node on.  `Get`, `Update` and `Delete` spell
    the same loop out. -/
def findExistingNode (m : Mem) (key : Bytes) (hashCode : UInt32) :
    Nat → NodePtr → Option (Option NodePtr)
  | 0, _ => none
  | fuel + 1, p => do
      let node ← m.readNode p
      if node.valid then
        let v ← m.index.lookup node.indexValueAddr
        if node.hashCode = hashCode ∧ v.key = key then some (some p)
        else findExistingNode m key hashCode fuel (.next node.indexValueAddr)
      else some none

/-- The search of a call: from the key's slot, through a chain that is no
    longer than the number of live index blocks. -/
def findNode (L : Layout) (m : Mem) (key : Key) : Option (Option NodePtr) :=
  findExistingNode m key.bytes (hashKey key.bytes) (m.index.keys.length + 1)
    (.slot (slotOf L (hashKey key.bytes)))

/-! ## Put -/

structure PutPara where
  key : Key
  value : Bytes
  version : UInt32
  ptId : Nat
  /-- `valueAddr` is not null. -/
  wantAddr : Bool
deriving DecidableEq

/-- `HandlePutExistingNode`. -/
def handlePutExistingNode (L : Layout) (m : Mem) (g : Grants)
    (node : IndexNode) (para : PutPara) : Option Reply := do
  let v ← m.index.lookup node.indexValueAddr
  if v.totalDataLen ≠ para.value.length then some { ret := .innerErr }
  else if g.scratch = false then some { ret := .allocFail }
  else
    let cacheValue ← getDataFromBlock L m v 0 para.value.length
    if cacheValue.length = 0 ∨ cacheValue.length ≠ para.value.length then
      some { ret := .innerErr }
    else if cacheValue = para.value then
      if para.wantAddr then
        let (valueAddr, realLen) ← getDataAddrFromBlock m v para.value.length
        if realLen ≠ para.value.length then some { ret := .innerErr }
        else some { ret := .putRepeat, valueAddr }
      else some { ret := .putRepeat }
    else some { ret := .innerErr }

/-- What `CreatePutIndexValue` and `HandleReplacePut` do: an index block, set
    up by `setup`, with the key and the data. -/
def newIndexValue (L : Layout) (m : Mem) (g : Grants)
    (setup : IndexValue → IndexValue) (key : Key) (value : Bytes) :
    Option (Except BResult Addr × Mem) :=
  match m.allocIndex g with
  | none => some (.error .allocFail, m)
  | some (a, m) => do
      let m ← m.modifyIndex a setup
      let (ret, m) ← copyIndexKey L m a key
      if ret ≠ .ok then
        let m ← m.freeIndex a
        some (.error ret, m)
      else
        let (ret, m) ← putDataIntoBlock L m g a value
        if ret ≠ .ok then
          let m ← m.freeIndex a
          some (.error ret, m)
        else some (.ok a, m)

/-- `CreatePutIndexValue`. -/
def createPutIndexValue (L : Layout) (m : Mem) (g : Grants)
    (para : PutPara) : Option (Except BResult Addr × Mem) :=
  newIndexValue L m g
    (fun v =>
      { v with
        totalDataLen := 0
        version := para.version
        ptId := para.ptId
        isDelete := false
        blockOffset := none })
    para.key para.value

/-- `FreeIndexValue`. -/
def freeIndexValue (m : Mem) (a : Addr) : Option Mem := do
  let v ← m.index.lookup a
  let m ← freeValueBlock m v
  m.freeIndex a

/-- `FillPutValueAddr`: the address of the entry's data. -/
def fillPutValueAddr (m : Mem) (a : Addr) (wantAddr : Bool) :
    Option (Option Addr) :=
  if wantAddr then do
    let v ← m.index.lookup a
    let b ← v.blockOffset
    some (some b)
  else some none

/-- `InsertPutIndexValue`; `InsertTombEntry` and `InsertReplaceNode` link
    their block in the same way. -/
def insertPutIndexValue (m : Mem) (i : SlotId) (hashCode : UInt32)
    (a : Addr) : Option Mem := do
  let m ← m.modifyIndex a fun v => { v with next := m.slots i }
  m.writeNode (.slot i) ⟨hashCode, true, a⟩

/-- `Cache::Put`. -/
def put (L : Layout) (m : Mem) (g : Grants) (para : PutPara) :
    Option (Reply × Mem) := do
  match ← createPutIndexValue L m g para with
  | (.error e, m) => some ({ ret := e }, m)
  | (.ok a, m) =>
      match ← findNode L m para.key with
      | some p =>
          let node ← m.readNode p
          let reply ← handlePutExistingNode L m g node para
          let m ← freeIndexValue m a
          some (reply, m)
      | none =>
          let hashCode := hashKey para.key.bytes
          let valueAddr ← fillPutValueAddr m a para.wantAddr
          let m ← insertPutIndexValue m (slotOf L hashCode) hashCode a
          some ({ ret := .ok, valueAddr }, m)

/-! ## Get -/

structure GetPara where
  key : Key
  offset : Nat
  length : Nat
  /-- `*value` is null: the caller wants the address. -/
  wantAddr : Bool
deriving DecidableEq

/-- `Cache::Get`. -/
def get (L : Layout) (m : Mem) (para : GetPara) : Option Reply := do
  match ← findNode L m para.key with
  | none => some { ret := .notExists, realLength := some 0 }
  | some p =>
      let node ← m.readNode p
      let v ← m.index.lookup node.indexValueAddr
      if para.wantAddr then
        let (valueAddr, realLen) ← getDataAddrFromBlock m v v.totalDataLen
        if realLen = 0 then some { ret := .innerErr, valueAddr }
        else some { ret := .ok, valueAddr, realLength := some realLen }
      else if v.totalDataLen ≤ para.offset then some { ret := .err }
      else
        let data ← getDataFromBlock L m v para.offset
          (min (v.totalDataLen - para.offset) para.length)
        if data.length = 0 then some { ret := .innerErr }
        else some { ret := .ok, realLength := some data.length, data }

/-! ## Update -/

/-- `ReviveDataBlock`. -/
def reviveDataBlock (L : Layout) (m : Mem) (g : Grants) (a : Addr)
    (offset : Nat) (data : Bytes) : Option (BResult × Mem) :=
  if offset ≠ 0 then some (.innerErr, m) else putDataIntoBlock L m g a data

/-- `UpdateDataInCurrentBlock`. -/
def updateDataInCurrentBlock (L : Layout) (m : Mem) (a b : Addr)
    (blockSize offset : Nat) (data : Bytes) : Option (BResult × Mem) :=
  if memcpyS L (blockSize - offset) data.length then do
    let m ← m.modifyBlock b fun d =>
      { d with data := overlay d.data offset data }
    let m ← m.modifyIndex a fun v =>
      { v with totalDataLen := max v.totalDataLen (offset + data.length) }
    some (.ok, m)
  else some (.innerErr, m)

/-- `ExpandAndUpdateDataBlock`. -/
def expandAndUpdateDataBlock (L : Layout) (m : Mem) (g : Grants)
    (a : Addr) (v : IndexValue) (b : Addr) (header : DataBlock)
    (offset : Nat) (data : Bytes) : Option (BResult × Mem) := do
  let newDataLen := max v.totalDataLen (offset + data.length)
  match ← allocDataBlock m g newDataLen with
  | (.error e, m) => some (e, m)
  | (.ok (b', newBuffSize), m) =>
      let m ← m.modifyBlock b' fun d => { d with blockSize := newBuffSize }
      if memcpyS L newBuffSize v.totalDataLen then
        let m ← m.modifyBlock b' fun d =>
          { d with data := overlay d.data 0 (header.data.take v.totalDataLen) }
        if memcpyS L (newBuffSize - offset) data.length then
          let m ← m.modifyBlock b' fun d =>
            { d with data := overlay d.data offset data }
          let m ← m.modifyIndex a fun v =>
            { v with blockOffset := some b', totalDataLen := newDataLen }
          let m ← m.freeValue b
          some (.ok, m)
        else
          let m ← m.freeValue b'
          some (.innerErr, m)
      else
        let m ← m.freeValue b'
        some (.innerErr, m)

/-- `UpdateDataBlock`. -/
def updateDataBlock (L : Layout) (m : Mem) (g : Grants) (a : Addr)
    (offset : Nat) (data : Bytes) : Option (BResult × Mem) := do
  let v ← m.index.lookup a
  if offset > v.totalDataLen then some (.innerErr, m)
  else
    match v.blockOffset with
    | none => reviveDataBlock L m g a offset data
    | some b =>
        if data.length > uint64Max - offset then some (.invalidParam, m)
        else
          let header ← m.value.lookup b
          if max v.totalDataLen (offset + data.length) ≤ header.blockSize then
            updateDataInCurrentBlock L m a b header.blockSize offset data
          else expandAndUpdateDataBlock L m g a v b header offset data

structure UpdatePara where
  key : Key
  value : Bytes
  offset : Nat
  version : UInt32
deriving DecidableEq

/-- `Cache::Update`. -/
def update (L : Layout) (m : Mem) (g : Grants) (para : UpdatePara) :
    Option (Reply × Mem) := do
  match ← findNode L m para.key with
  | none => some ({ ret := .notExists }, m)
  | some p =>
      let node ← m.readNode p
      let (ret, m) ← updateDataBlock L m g node.indexValueAddr para.offset
        para.value
      if ret ≠ .ok then some ({ ret := .err }, m)
      else
        let m ← m.modifyIndex node.indexValueAddr fun v =>
          { v with version := para.version }
        some ({ ret := .ok }, m)

/-! ## Delete -/

/-- How `HandleDeleteExistingNode` and `ClearDeletedData` take out the entry
    that the node at `p` points to: free its value block, overwrite the node
    with the one stored in the entry, free the entry. -/
def removeNode (m : Mem) (p : NodePtr) (a : Addr) (v : IndexValue) :
    Option Mem := do
  let m ← freeValueBlock m v
  let m ← m.writeNode p v.next
  m.freeIndex a

/-- `HandleDeleteExistingNode`. -/
def handleDeleteExistingNode (m : Mem) (p : NodePtr) (version : UInt32) :
    Option (BResult × Mem) := do
  let node ← m.readNode p
  let v ← m.index.lookup node.indexValueAddr
  if m.mIsRecovering then
    let m ← m.modifyIndex node.indexValueAddr fun v =>
      { v with isDelete := true, version }
    some (.ok, m)
  else
    let m ← removeNode m p node.indexValueAddr v
    some (.ok, m)

/-- `InsertTombEntry`. -/
def insertTombEntry (L : Layout) (m : Mem) (g : Grants) (key : Key)
    (version : UInt32) : Option (BResult × Mem) :=
  match m.allocIndex g with
  | none => some (.allocFail, m)
  | some (a, m) => do
      let m ← m.modifyIndex a fun v =>
        { v with
          totalDataLen := 0
          version
          isDelete := true
          blockOffset := none }
      let (ret, m) ← copyIndexKey L m a key
      if ret ≠ .ok then
        let m ← m.freeIndex a
        some (ret, m)
      else
        let hashCode := hashKey key.bytes
        let m ← insertPutIndexValue m (slotOf L hashCode) hashCode a
        some (.ok, m)

/-- `HandleDeleteMissingNode`. -/
def handleDeleteMissingNode (L : Layout) (m : Mem) (g : Grants) (key : Key)
    (version : UInt32) : Option (BResult × Mem) :=
  if m.mIsRecovering = false then some (.keyNotExists, m)
  else do
    let (ret, m) ← insertTombEntry L m g key version
    if ret ≠ .ok then some (ret, m) else some (.keyNotExists, m)

/-- `Cache::Delete`. -/
def delete (L : Layout) (m : Mem) (g : Grants) (key : Key)
    (version : UInt32) : Option (Reply × Mem) := do
  match ← findNode L m key with
  | some p =>
      let (ret, m) ← handleDeleteExistingNode m p version
      some ({ ret }, m)
  | none =>
      let (ret, m) ← handleDeleteMissingNode L m g key version
      some ({ ret }, m)

/-! ## Replace -/

structure ReplacePara where
  key : Key
  value : Bytes
  offset : Nat
  version : UInt32
  ptId : Nat
deriving DecidableEq

/-- `HandleReplacePut`. -/
def handleReplacePut (L : Layout) (m : Mem) (g : Grants) (key : Key)
    (value : Bytes) : Option (Except BResult Addr × Mem) :=
  newIndexValue L m g
    (fun v => { v with totalDataLen := 0, blockOffset := none }) key value

/-- `ReplaceExistingNode`. -/
def replaceExistingNode (L : Layout) (m : Mem) (g : Grants)
    (node : IndexNode) (para : ReplacePara) : Option (BResult × Mem) := do
  let v ← m.index.lookup node.indexValueAddr
  if para.version < v.version then some (.ok, m)
  else
    let (ret, m) ← updateDataBlock L m g node.indexValueAddr para.offset
      para.value
    if ret ≠ .ok then some (.err, m)
    else
      let m ← m.modifyIndex node.indexValueAddr fun v =>
        { v with version := para.version, isDelete := false }
      some (.ok, m)

/-- `InsertReplaceNode`: the offset of the request is not looked at. -/
def insertReplaceNode (L : Layout) (m : Mem) (g : Grants)
    (para : ReplacePara) : Option (BResult × Mem) := do
  match ← handleReplacePut L m g para.key para.value with
  | (.error e, m) => some (e, m)
  | (.ok a, m) =>
      let m ← m.modifyIndex a fun v =>
        { v with
          ptId := para.ptId
          isDelete := false
          version := para.version }
      let hashCode := hashKey para.key.bytes
      let m ← insertPutIndexValue m (slotOf L hashCode) hashCode a
      some (.ok, m)

/-- `Cache::Replace`. -/
def replace (L : Layout) (m : Mem) (g : Grants) (para : ReplacePara) :
    Option (Reply × Mem) := do
  match ← findNode L m para.key with
  | none =>
      let (ret, m) ← insertReplaceNode L m g para
      some ({ ret }, m)
  | some p =>
      let node ← m.readNode p
      let (ret, m) ← replaceExistingNode L m g node para
      some ({ ret }, m)

/-! ## ClearDeletedData and Init -/

/-- The loop of `ClearDeletedData` over the chain of one slot. -/
def clearChain (m : Mem) : Nat → NodePtr → Option Mem
  | 0, _ => none
  | fuel + 1, p => do
      let node ← m.readNode p
      if node.valid then
        let v ← m.index.lookup node.indexValueAddr
        if v.isDelete then
          let m ← removeNode m p node.indexValueAddr v
          clearChain m fuel p
        else clearChain m fuel (.next node.indexValueAddr)
      else some m

/-- The slots in the order `ClearDeletedData` goes through them. -/
def Layout.slotIds (L : Layout) : List SlotId :=
  (List.range L.shards.length).flatMap fun shard =>
    (List.range (L.shards.getD shard 1)).flatMap fun bucket =>
      (List.range bucketInlineSlotNum).map fun slot => ⟨shard, bucket, slot⟩

/-- `ClearDeletedData`. -/
def clearDeletedData (L : Layout) (m : Mem) : Option Mem :=
  L.slotIds.foldlM
    (fun m i => clearChain m (m.index.keys.length + 1) (.slot i)) m

/-- `SetRecoverStatus`. -/
def setRecoverStatus (m : Mem) (isRecovering : Bool) : Mem :=
  { m with mIsRecovering := isRecovering }

/-- The table `Init` leaves: every slot is invalid, no block is in use. -/
def init : Mem where
  slots _ := ⟨0, false, 0⟩
  index := ∅
  value := ∅
  mIsRecovering := false

end UbsIo.Cache
