import UbsIo.Message.Codec

/-! # The client

    `MmsPut`, `MmsUpdate`, `MmsReplace` and `MmsDelete` of `mms_kv_client.cpp`.
    The items go into blocks, each block is one request (`SendSingleReq`), and
    a request that fails is sent again (`FailHandle`) until it does not fail in
    a way that passes, or until the time is over.

    The network is what it answers: an `Attempt` is one `SyncCall` of a request,
    with its own result and the code in the response, a `Call` is what the
    network does for one block.  A function takes the answers one after the
    other and is `none` if they are too few or too many.  A code is the 32 bits
    of a `BResult`. -/

namespace UbsIo.Client

open UbsIo.Lib UbsIo.Cache UbsIo.Message

abbrev Code := UInt32

/-- `MMS_NEED_UPDATE_PT_VERSION`. -/
def needUpdatePtVersion : Code := 20

/-- `IO_RETRY_INTERAL`, in seconds. -/
def ioRetryInteral : Nat := 2

/-- `RETRY_COUNT` and `RETRY_SLEEP`. -/
def retryCountMax : Nat := 5

def retrySleep : Nat := 2

/-! ## The network -/

/-- A `SyncCall` for the PT version: its result, the version in the response,
    and how long it takes. -/
structure Update where
  ret : Code
  ptVersion : UInt64
  seconds : Nat
deriving DecidableEq, Repr

/-- A `SyncCall` of a request: its result, the code in the response, how long
    it takes, and the updates of the PT version after it. -/
structure Attempt where
  ret : Code
  rsp : Code
  seconds : Nat
  updates : List Update
deriving DecidableEq, Repr

/-- The attempts for one block. -/
structure Call where
  first : Attempt
  retries : List Attempt
deriving DecidableEq, Repr

/-- The last exchange of the block. -/
def Call.last (call : Call) : Attempt :=
  call.retries.getLastD call.first

inductive MmsOpCode where
  | put | update | replace | delete
deriving DecidableEq, Repr

/-- `IoCtrlRequest`. -/
structure IoCtrlRequest where
  opcode : MmsOpCode
  ptv : UInt64
  numaId : UInt16
  block : Addr
  ioLength : Nat

/-- A block, the requests for it, what the network has answered, and what
    `SendSingleReq` has returned. -/
structure Sent where
  item : IOCtxItem
  requests : List IoCtrlRequest
  call : Call
  ret : Code

/-- The client: its PT version, the clock, the blocks that were to be sent, and
    those that have been. -/
structure KvClient where
  ptVersion : UInt64
  time : Nat
  blocks : List IOCtxItem
  history : List Sent

def KvClient.elapse (c : KvClient) (seconds : Nat) : KvClient :=
  { c with time := c.time + seconds }

/-! ## One block -/

/-- What `UpdateClientPtVersion` tries again. -/
def updateContinues (ret : Code) : Prop :=
  ret = code .allocFail ∨ ret = code .innerRetry ∨ ret = code .netRetry ∨
    ret = code .checkPtFail

instance (ret : Code) : Decidable (updateContinues ret) :=
  inferInstanceAs (Decidable (_ ∨ _))

/-- What `FailHandle` tries again. -/
def isContinue (ret : Code) : Prop :=
  updateContinues ret ∨ ret = needUpdatePtVersion

instance (ret : Code) : Decidable (isContinue ret) :=
  inferInstanceAs (Decidable (_ ∨ _))

/-- A result at the end of the answers. -/
def done {α β : Type} (rest : List α) (b : β) : Option β :=
  if rest.isEmpty then some b else none

/-- `UpdateClientPtVersion`, with the retries so far. -/
def updateClientPtVersion : Nat → List Update → KvClient →
    Option (Code × KvClient)
  | _, [], _ => none
  | retryCount, u :: rest, c =>
      let c := c.elapse u.seconds
      if u.ret = code .ok then
        done rest (code .ok, { c with ptVersion := u.ptVersion })
      else if retryCountMax < retryCount + 1 then done rest (u.ret, c)
      else
        let c := c.elapse retrySleep
        if updateContinues u.ret then
          updateClientPtVersion (retryCount + 1) rest c
        else done rest (u.ret, c)

/-- The version part of an iteration of `FailHandle`; `inr` goes on. -/
def refreshPtVersion (ret : Code) (updates : List Update) (c : KvClient)
    (req : IoCtrlRequest) :
    Option (Code × KvClient ⊕ KvClient × IoCtrlRequest) :=
  if ret = needUpdatePtVersion then do
    let (updateRet, c) ← updateClientPtVersion 0 updates c
    if updateRet ≠ code .ok then some (.inl (updateRet, c))
    else some (.inr (c, { req with ptv := c.ptVersion }))
  else done updates (.inr (c, req))

/-- The loop of `FailHandle`: the last result, and the updates after it.  What
    it returns is the result, the client, and the requests that it has sent. -/
def failHandle (mIoTimeOut startTime : Nat) :
    Code → List Update → List Attempt → KvClient → IoCtrlRequest →
      List IoCtrlRequest → Option (Code × KvClient × List IoCtrlRequest)
  | ret, updates, retries, c, req, requests =>
      match refreshPtVersion ret updates c req with
      | none => none
      | some (.inl (updateRet, c)) => done retries (updateRet, c, requests)
      | some (.inr (c, req)) =>
          if isContinue ret then
            let c := c.elapse ioRetryInteral
            if mIoTimeOut ≤ c.time - startTime then
              done retries (ret, c, requests)
            else
              match retries with
              | [] => none
              | a :: rest =>
                  failHandle mIoTimeOut startTime a.ret a.updates rest
                    (c.elapse a.seconds) req (requests ++ [req])
          else done retries (ret, c, requests)

/-- `SendSingleReq`: the result, the client, and the requests sent. -/
def sendSingleReq (mIoTimeOut : Nat) (req : IoCtrlRequest) (call : Call)
    (c : KvClient) : Option (Code × KvClient × List IoCtrlRequest) :=
  let a := call.first
  let c := c.elapse a.seconds
  if a.ret = code .ok ∧ a.rsp = code .ok then
    if a.updates.isEmpty then done call.retries (code .ok, c, [req]) else none
  else
    failHandle mIoTimeOut c.time (if a.ret = code .ok then a.rsp else a.ret)
      a.updates call.retries c req [req]

/-! ## All blocks -/

/-- `HandleSendReqs`, with the calls for the blocks. -/
def handleSendReqs (mIoTimeOut : Nat) (numaId : UInt16) (opCode : MmsOpCode) :
    List IOCtxItem → List Call → KvClient → Option (Code × KvClient)
  | [], calls, c => done calls (code .ok, c)
  | _ :: _, [], _ => none
  | item :: items, call :: calls, c => do
      let req : IoCtrlRequest :=
        ⟨opCode, c.ptVersion, numaId, item.addr, item.reqLen⟩
      let (ret, c, requests) ← sendSingleReq mIoTimeOut req call c
      let c := { c with history := c.history ++ [⟨item, requests, call, ret⟩] }
      if ret ≠ code .ok then done calls (ret, c)
      else handleSendReqs mIoTimeOut numaId opCode items calls c

/-- What happens in one round of the loop over the items: the blocks that the
    allocator has, the calls for the blocks that are sent, and what the blocks
    contain when their results are read. -/
structure Batch (cfg : Config) where
  supply : Nat → Option (RawBlock cfg)
  calls : List Call
  back : List IOCtxItem → List IOCtxItem

/-- What differs between the four operations; `σ` is what the caller's items
    point to. -/
structure Operation (cfg : Config) (σ : Type) where
  opCode : MmsOpCode
  itemNum : Nat
  encode : (Nat → Option (RawBlock cfg)) → UInt64 → Nat → Option Encoded
  fill : Nat → List IOCtxItem → σ → Option (Nat × σ)
  fillAfterSend : Nat → Code → List IOCtxItem → σ → Option (Nat × σ)
  fail : Nat → Code → σ → Option σ

variable {cfg : Config} {σ : Type}

/-- The loop over the items. -/
def sendItems (op : Operation cfg σ) (mIoTimeOut : Nat) (numaId : UInt16) :
    List (Batch cfg) → Nat → Code → σ → KvClient →
      Option (Code × σ × KvClient)
  | [], curItemIndex, result, s, c =>
      if curItemIndex < op.itemNum then none else some (result, s, c)
  | batch :: rest, curItemIndex, result, s, c =>
      if curItemIndex < op.itemNum then do
        let out ← op.encode batch.supply c.ptVersion curItemIndex
        if out.ret = .ok ∨ out.ret = .allocFail ∧ ¬ out.ctxItems.isEmpty then
          let c := { c with blocks := c.blocks ++ out.ctxItems }
          let (ret, c) ← handleSendReqs mIoTimeOut numaId op.opCode
            out.ctxItems batch.calls c
          let (curItemIndex, s) ←
            if ret = code .ok then
              op.fill curItemIndex (batch.back out.ctxItems) s
            else op.fillAfterSend curItemIndex ret (batch.back out.ctxItems) s
          sendItems op mIoTimeOut numaId rest curItemIndex
            (if ret = code .ok then result else ret) s c
        else do
          let s ← op.fail curItemIndex (code out.ret) s
          let c ← done batch.calls c
          sendItems op mIoTimeOut numaId rest (curItemIndex + 1)
            (code out.ret) s c
      else none

/-! ## The results -/

/-- A store through the pointer of an item. -/
def storeCell {α : Type} (cells : List (Option α)) (index : Nat) (a : α) :
    Option (List (Option α)) :=
  match cells[index]? with
  | some (some _) => some (cells.set index (some a))
  | _ => none

/-- What `Fill…ItemResultsAfterSend` stores for an item. -/
def resultAfterSend (failedRet : Code) (desc : IoLocDesc) : Code :=
  if desc.result = code .max then failedRet else desc.result

/-- `FillNoValueItemResultsAfterSend`. -/
def fillNoValueItemResultsAfterSend (withValue : Bool) (itemIndex : Nat)
    (failedRet : Code) (ctxItems : List IOCtxItem) (cells : List Cell) :
    Option (Nat × List Cell) := do
  let (itemIndex, cells) ← fillResults
    (fun cells index desc => cells.bind fun cells =>
      storeCell cells index (resultAfterSend failedRet desc))
    withValue itemIndex ctxItems (some cells)
  let cells ← cells
  some (itemIndex, cells)

/-- `FillPutItemResultsAfterSend`. -/
def fillPutItemResultsAfterSend (itemIndex : Nat) (failedRet : Code)
    (ctxItems : List IOCtxItem) (cells : List Cell × List (Option UInt64)) :
    Option (Nat × List Cell × List (Option UInt64)) := do
  let (itemIndex, cells) ← fillResults
    (fun cells index desc => cells.bind fun cells => do
      let results ← storeCell cells.1 index (resultAfterSend failedRet desc)
      let addrs ← storeCell cells.2 index
        (if desc.result = code .max then 0 else desc.valueAddr)
      some (results, addrs))
    true itemIndex ctxItems (some cells)
  let cells ← cells
  some (itemIndex, cells)

/-- `FillPutValueAddr`, with what the local cache answers for each item. -/
def fillPutValueAddr (get : Nat → Code × UInt64) :
    Nat → Nat → Code → List Cell × List (Option UInt64) →
      Option (Code × List Cell × List (Option UInt64))
  | 0, _, result, cells => some (result, cells)
  | n + 1, index, result, cells =>
      match cells.1[index]? with
      | some (some r) =>
          if r ≠ code .ok then fillPutValueAddr get n (index + 1) r cells
          else do
            let addrs ← storeCell cells.2 index (get index).2
            if (get index).1 ≠ code .ok then
              let results ← storeCell cells.1 index (get index).1
              fillPutValueAddr get n (index + 1) (get index).1 (results, addrs)
            else fillPutValueAddr get n (index + 1) result (cells.1, addrs)
      | _ => none

/-! ## The operations -/

/-- What a call is made with, and what there is around it. -/
structure Setting where
  mIoTimeOut : Nat
  numaId : UInt16

/-- `MmsPut`. -/
def mmsPut (w : Setting) (itemList : List PutItems)
    (get : Nat → Code × UInt64) (batches : List (Batch cfg))
    (cells : List Cell × List (Option UInt64)) (c : KvClient) :
    Option (Code × (List Cell × List (Option UInt64)) × KvClient) := do
  let op : Operation cfg (List Cell × List (Option UInt64)) :=
    { opCode := .put
      itemNum := itemList.length
      encode := fun supply version curItemIndex =>
        encodePutRequest cfg supply
          ((itemList.drop curItemIndex).map fun item => (item, version))
      fill := fillPutItemResults
      fillAfterSend := fillPutItemResultsAfterSend
      fail := fun index ret cells => do
        let results ← storeCell cells.1 index ret
        some (results, cells.2) }
  let (result, cells, c) ←
    sendItems op w.mIoTimeOut w.numaId batches 0 (code .ok) cells c
  let (ret, cells) ←
    fillPutValueAddr get itemList.length 0 (code .ok) cells
  some (if ret = code .ok then result else ret, cells, c)

/-- `MmsUpdate` and `MmsReplace`, which differ in the code of the operation
    only. -/
def mmsUpdateAs (opCode : MmsOpCode) (w : Setting)
    (itemList : List UpdateItems) (batches : List (Batch cfg))
    (cells : List Cell) (c : KvClient) :
    Option (Code × List Cell × KvClient) :=
  let op : Operation cfg (List Cell) :=
    { opCode
      itemNum := itemList.length
      encode := fun supply version curItemIndex =>
        encodeUpdateRequest cfg supply
          ((itemList.drop curItemIndex).map fun item => (item, version))
      fill := fillUpdateItemResults
      fillAfterSend := fillNoValueItemResultsAfterSend true
      fail := fun index ret cells => storeCell cells index ret }
  sendItems op w.mIoTimeOut w.numaId batches 0 (code .ok) cells c

def mmsUpdate (w : Setting) (itemList : List UpdateItems)
    (batches : List (Batch cfg)) (cells : List Cell) (c : KvClient) :
    Option (Code × List Cell × KvClient) :=
  mmsUpdateAs .update w itemList batches cells c

def mmsReplace (w : Setting) (itemList : List UpdateItems)
    (batches : List (Batch cfg)) (cells : List Cell) (c : KvClient) :
    Option (Code × List Cell × KvClient) :=
  mmsUpdateAs .replace w itemList batches cells c

/-- `MmsDelete`. -/
def mmsDelete (w : Setting) (itemList : List DeleteItems)
    (batches : List (Batch cfg)) (cells : List Cell) (c : KvClient) :
    Option (Code × List Cell × KvClient) :=
  let op : Operation cfg (List Cell) :=
    { opCode := .delete
      itemNum := itemList.length
      encode := fun supply version curItemIndex =>
        encodeDeleteRequest cfg supply
          ((itemList.drop curItemIndex).map fun item => (item, version))
      fill := fillDeleteItemResults
      fillAfterSend := fillNoValueItemResultsAfterSend false
      fail := fun index ret cells => storeCell cells index ret }
  sendItems op w.mIoTimeOut w.numaId batches 0 (code .ok) cells c

end UbsIo.Client
