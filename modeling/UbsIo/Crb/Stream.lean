import UbsIo.Cache.Refine
import UbsIo.Message.Blocks

/-! # The catch-up stream

    `BackGroundRecoverTask` of `mms_crb_scheduler.cpp`: all entries of a
    partition, bucket after bucket, in messages that the decoder of puts takes
    apart on the other node.  The messages are built in one buffer of 128 KiB
    by an encoder of their own; the buffer is never cleared, so what an earlier
    message left in it stays where nothing is written.

    `strncpy_s` copies up to the first zero and writes a zero behind; what the
    destination holds behind that zero is up to the library and a parameter
    here.  `CrbBatchSend` is known by the code it comes back with. -/

namespace UbsIo.Crb

open UbsIo.Lib UbsIo.Cache UbsIo.Message

/-- `CRB_RECOVER_MESSAGE_BUFF_LEN`. -/
def crbRecoverMessageBuffLen : Nat := 128 * 1024

/-- `CRB_PT_RECOVER_FINISH_FLAG`. -/
def crbPtRecoverFinishFlag : Nat := 1

/-- `MMS_OP_S_CRB_RECEIVE_DATA`. -/
def mmsOpSCrbReceiveData : Nat := 12

/-- Where `ptv` lies in an `IoDataRequest`. -/
def ptvAt : Nat := 8

/-- What a task is given: the cache it reads, the partition, the local node,
    the group, what `strncpy_s` leaves behind the zero for each key, what
    `CrbBatchSend` answers to each message, and whether the task is still
    registered when it comes to a bucket. -/
structure Task where
  layout : Layout
  mem : Mem
  taskPtId : Nat
  localNid : Nat
  groupIndex : Nat
  behind : Bytes → Bytes
  send : Bytes → BResult
  registered : Nat → Bool

/-- The buffer and the two counters, with the messages that have been sent. -/
structure Sender where
  msgBuff : Bytes
  buffOffset : Nat
  curItemNum : Nat
  sent : List Bytes

/-- `strncpy_s`: `false` is its failure. -/
def strncpyS (behind buff : Bytes) (offset destMax : Nat) (src : Bytes) :
    Option (Bool × Bytes) :=
  let copied := src.takeWhile (· ≠ 0)
  if copied.length < destMax then do
    let buff ← writeAt buff offset ((copied ++ [0] ++ behind).take destMax)
    some (true, buff)
  else some (false, buff)

/-- A store of an `IoLocDesc`. -/
def writeDesc (buff : Bytes) (offset : Nat) (desc : IoLocDesc) : Option Bytes :=
  writeAt buff offset desc.bytes

/-- `EncodeKeyValueToBuff`. -/
def encodeKeyValueToBuff (t : Task) (buff : Bytes) (buffOffset : Nat)
    (v : IndexValue) : Option (BResult × Bytes × Nat) := do
  let descAt := buffOffset
  let desc ← readDesc buff descAt
  let buff ← writeDesc buff descAt
    { desc with
      offset := 0
      keyLen := BitVec.ofNat 16 (v.key.length + 1)
      version := v.version.toUInt64 }
  let buffOffset := buffOffset + ioDescriptionLen
  match ← strncpyS (t.behind v.key) buff buffOffset
      (crbRecoverMessageBuffLen - buffOffset) v.key with
  | (false, buff) => some (.innerErr, buff, buffOffset)
  | (true, buff) =>
      let buffOffset := buffOffset + (v.key.length + 1)
      let data ← getDataFromBlock t.layout t.mem v 0 v.totalDataLen
      if data.length = 0 then some (.innerErr, buff, buffOffset)
      else
        let buff ← writeAt buff buffOffset data
        let buffOffset := buffOffset + data.length
        let desc ← readDesc buff descAt
        let buff ← writeDesc buff descAt
          { desc with valueLen := BitVec.ofNat 24 data.length }
        some (.ok, buff, buffOffset)

/-- The header of a message, and the message as it is handed to
    `CrbBatchSend`; `c` has the CRC switch. -/
def closeMessage (c : Config) (s : Sender) (ptv : Nat) : Option Bytes := do
  let buff ← writeAt s.msgBuff numAt (leBytes 4 s.curItemNum)
  let buff ← writeAt buff ptvAt (leBytes 8 ptv)
  if c.gCrcSwitch then
    writeAt buff crcAt (leBytes 4 (c.crc32 (crcRange buff s.buffOffset)).toNat)
  else some buff

/-- The length of an entry in a message. -/
def needLen (v : IndexValue) : Nat :=
  ioDescriptionLen + v.key.length + 1 + v.totalDataLen

/-- `ProcessIndexValue`. -/
def processIndexValue (c : Config) (t : Task) (v : IndexValue) (s : Sender) :
    Option (BResult × Sender) := do
  if needLen v > crbRecoverMessageBuffLen - ioDataRequestLen then
    some (.invalidParam, s)
  else
    let (ret, s) ←
      if needLen v > crbRecoverMessageBuffLen - s.buffOffset then do
        let buff ← closeMessage c s 0
        let msg := buff.take s.buffOffset
        let sent := s.sent ++ [msg]
        if t.send msg ≠ .ok then
          some (t.send msg, { s with msgBuff := buff, sent })
        else some (BResult.ok, ⟨buff, ioDataRequestLen, 0, sent⟩)
      else some (BResult.ok, s)
    if ret ≠ .ok then some (ret, s)
    else
      match ← encodeKeyValueToBuff t s.msgBuff s.buffOffset v with
      | (.ok, msgBuff, buffOffset) =>
          some (.ok,
            { s with msgBuff, buffOffset, curItemNum := s.curItemNum + 1 })
      | (ret, msgBuff, buffOffset) => some (ret, { s with msgBuff, buffOffset })

/-- The inner loop of `ProcessBucket`, from a node on. -/
def processChain (c : Config) (t : Task) :
    Nat → NodePtr → Sender → Option (BResult × Sender)
  | 0, _, _ => none
  | fuel + 1, p, s => do
      let node ← t.mem.readNode p
      if node.valid then
        let v ← t.mem.index.lookup node.indexValueAddr
        if v.ptId ≠ t.taskPtId then
          processChain c t fuel (.next node.indexValueAddr) s
        else
          match ← processIndexValue c t v s with
          | (.ok, s) => processChain c t fuel (.next node.indexValueAddr) s
          | (ret, s) => some (ret, s)
      else some (.ok, s)

/-- A loop that ends at the first code other than `MMS_OK`. -/
def untilError {α σ : Type} (body : α → σ → Option (BResult × σ)) :
    List α → σ → Option (BResult × σ)
  | [], s => some (.ok, s)
  | a :: l, s => do
      match ← body a s with
      | (.ok, s) => untilError body l s
      | (ret, s) => some (ret, s)

/-- `GetBucketAddr` with the index of a bucket among those of all shards; its
    answer 0 is `none`. -/
def getBucketAddr : List Nat → Nat → Nat → Option (Nat × Nat)
  | [], _, _ => none
  | bucketCount :: shards, shard, remainIndex =>
      if remainIndex < bucketCount then some (shard, remainIndex)
      else getBucketAddr shards (shard + 1) (remainIndex - bucketCount)

/-- `ProcessBucket`. -/
def processBucket (c : Config) (t : Task) (bucketIndex : Nat) (s : Sender) :
    Option (BResult × Sender) := do
  let (shard, bucket) ← getBucketAddr t.layout.shards 0 bucketIndex
  untilError
    (fun slot => processChain c t (t.mem.index.keys.length + 1)
      (.slot ⟨shard, bucket, slot⟩))
    (List.range bucketInlineSlotNum) s

/-- The header that a task begins with. -/
def headBytes (t : Task) : Bytes :=
  leBytes 2 t.localNid ++ leBytes 2 mmsOpSCrbReceiveData ++
    leBytes 2 t.groupIndex ++ leBytes 2 t.taskPtId ++ leBytes 8 0

/-- `BackGroundRecoverTask`, on a buffer with whatever it contains: the
    messages that are sent. -/
def backGroundRecoverTask (c : Config) (t : Task) (raw : Bytes) :
    Option (List Bytes) := do
  let buff ← writeAt raw 0 (headBytes t)
  let (ret, s) ← untilError
    (fun bucketIndex s =>
      -- a task that is not registered any more returns
      if t.registered bucketIndex then processBucket c t bucketIndex s
      else some (.err, s))
    (List.range t.layout.shards.sum) ⟨buff, ioDataRequestLen, 0, []⟩
  if ret ≠ .ok then some s.sent
  else
    let buff ← closeMessage c s crbPtRecoverFinishFlag
    some (s.sent ++ [buff.take s.buffOffset])

end UbsIo.Crb
