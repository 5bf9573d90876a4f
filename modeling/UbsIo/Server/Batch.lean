import UbsIo.Client.Model
import UbsIo.Message.Used

/-! # Lists of items

    `Put`, `Update`, `Delete` and `Replace` of `mms_kv_server.cpp` and `MmsPut`,
    `MmsUpdate`, `MmsDelete` and `MmsReplace` of `mms_kv_client.cpp` are copies
    of one loop: what is left of the list is encoded into blocks, the blocks
    are sent one after another until one fails, the results are read back from
    the blocks, which moves on in the list, and the blocks are freed.  Where
    nothing can be encoded, the first item gets the code. -/

namespace UbsIo.Server

open UbsIo.Lib UbsIo.Cache UbsIo.Message
open UbsIo.Client (Code storeCell fillNoValueItemResultsAfterSend
  fillPutItemResultsAfterSend fillPutValueAddr resultAfterSend
  ioRetryInteral)

/-! ## The loop -/

/-- What one round of the loop meets: the blocks that the allocator has, and
    `gPtVersion` when the items are encoded. -/
structure Round (c : Config) where
  supply : Nat → Option (RawBlock c)
  version : Nat → UInt64

/-- The calls of the allocator. -/
inductive BlockEvent where
  | mmsAlloc (addr : Addr)
  | mmsFree (addr : Addr)
deriving DecidableEq

/-- What `result` and `valueAddr` of the caller's items point to. -/
abbrev Cells := List Cell × List (Option UInt64)

/-- What differs between the copies. -/
structure Driver (c : Config) where
  kind : Kind
  itemNum : Nat
  encode : Round c → Nat → Option Encoded
  fill : Nat → List IOCtxItem → Cells → Option (Nat × Cells)
  fillAfterSend : Nat → Code → List IOCtxItem → Cells → Option (Nat × Cells)

/-- The local variables of the loop, the state of what it calls, and the calls
    of the allocator so far. -/
structure Progress (W : Type) where
  curItemIndex : Nat
  result : Code
  world : W
  blocks : List BlockEvent

/-- `SendSingleReq`: the code, and the block as it is afterwards. -/
abbrev Send (W : Type) := W → IOCtxItem → Option (Code × IOCtxItem × W)

variable {c : Config} {W : Type}

/-- `HandleSendReqs` without `freeBlocks`. -/
def handleSendReqs (send : Send W) :
    List IOCtxItem → W → Option (Code × List IOCtxItem × W)
  | [], w => some (code .ok, [], w)
  | item :: rest, w => do
      let (ret, item, w) ← send w item
      if ret ≠ code .ok then some (ret, item :: rest, w)
      else do
        let (ret, rest, w) ← handleSendReqs send rest w
        some (ret, item :: rest, w)

/-- `*itemList[curItemIndex].result = ret`. -/
def storeFailure (index : Nat) (ret : Code) (cells : Cells) : Option Cells := do
  let results ← storeCell cells.1 index ret
  some (results, cells.2)

/-- The body of the loop. -/
def round (d : Driver c) (send : Send W) (r : Round c) (p : Progress W)
    (cells : Cells) : Option (Progress W × Cells) := do
  let out ← d.encode r p.curItemIndex
  let blocks := p.blocks ++ (allocated r.supply out.asked).map .mmsAlloc
  if out.ret = .ok ∨ out.ret = .allocFail ∧ ¬ out.ctxItems.isEmpty then do
    let (ret, ctxItems, world) ← handleSendReqs send out.ctxItems p.world
    let (curItemIndex, cells) ←
      if ret = code .ok then d.fill p.curItemIndex ctxItems cells
      else d.fillAfterSend p.curItemIndex ret ctxItems cells
    let result := if ret = code .ok then p.result else ret
    some (⟨curItemIndex, result, world,
      blocks ++ ctxItems.map (.mmsFree ·.addr)⟩, cells)
  else do
    let cells ← storeFailure p.curItemIndex (code out.ret) cells
    some (⟨p.curItemIndex + 1, code out.ret, p.world,
      blocks ++ out.ctxItems.map (.mmsFree ·.addr)⟩, cells)

/-- The loop, with what each round meets; `none` when the fuel does not last. -/
def loop (d : Driver c) (send : Send W) :
    Nat → (Nat → Round c) → Progress W → Cells → Option (Progress W × Cells)
  | 0, _, p, cells =>
      if p.curItemIndex < d.itemNum then none else some (p, cells)
  | fuel + 1, rounds, p, cells =>
      if p.curItemIndex < d.itemNum then do
        let (p, cells) ← round d send (rounds 0) p cells
        loop d send fuel (fun n => rounds (n + 1)) p cells
      else some (p, cells)

/-- A round for each item is enough. -/
def drive (d : Driver c) (send : Send W) (rounds : Nat → Round c) (w : W)
    (cells : Cells) : Option (Progress W × Cells) :=
  loop d send d.itemNum rounds ⟨0, code .ok, w, []⟩ cells

/-! ## The operations -/

/-- Items with the versions they are encoded with. -/
def stamp {α : Type} (version : Nat → UInt64) (items : List α) :
    List (α × UInt64) :=
  items.mapIdx fun i item => (item, version i)

/-- Results without addresses. -/
def onResults (fill : List Cell → Option (Nat × List Cell)) (cells : Cells) :
    Option (Nat × Cells) :=
  (fill cells.1).map fun p => (p.1, p.2, cells.2)

/-- `Put` and `MmsPut`. -/
def putDriver (c : Config) (itemList : List PutItems) : Driver c where
  kind := .put
  itemNum := itemList.length
  encode r cur :=
    encodePutRequest c r.supply (stamp r.version (itemList.drop cur))
  fill := fillPutItemResults
  fillAfterSend := fillPutItemResultsAfterSend

/-- `Update` and `MmsUpdate`. -/
def updateDriver (c : Config) (itemList : List UpdateItems) : Driver c where
  kind := .update
  itemNum := itemList.length
  encode r cur :=
    encodeUpdateRequest c r.supply (stamp r.version (itemList.drop cur))
  fill cur items := onResults (fillUpdateItemResults cur items)
  fillAfterSend cur ret items :=
    onResults (fillNoValueItemResultsAfterSend true cur ret items)

/-- `Delete` and `MmsDelete`. -/
def deleteDriver (c : Config) (itemList : List DeleteItems) : Driver c where
  kind := .delete
  itemNum := itemList.length
  encode r cur :=
    encodeDeleteRequest c r.supply (stamp r.version (itemList.drop cur))
  fill cur items := onResults (fillDeleteItemResults cur items)
  fillAfterSend cur ret items :=
    onResults (fillNoValueItemResultsAfterSend false cur ret items)

/-- `Replace` and `MmsReplace`, whose encoder and walkers are those of
    updates. -/
def replaceDriver (c : Config) (itemList : List UpdateItems) : Driver c :=
  updateDriver c itemList

/-- A call of one of the four functions. -/
inductive ListCall where
  | put (itemList : List PutItems)
  | update (itemList : List UpdateItems)
  | delete (itemList : List DeleteItems)
  | replace (itemList : List UpdateItems)

def ListCall.driver (c : Config) : ListCall → Driver c
  | .put itemList => putDriver c itemList
  | .update itemList => updateDriver c itemList
  | .delete itemList => deleteDriver c itemList
  | .replace itemList => replaceDriver c itemList

def ListCall.itemNum : ListCall → Nat
  | .put itemList => itemList.length
  | .update itemList => itemList.length
  | .delete itemList => itemList.length
  | .replace itemList => itemList.length

/-! ## At the server -/

/-- `isContinue` of the server. -/
def isContinue (ret : Code) : Prop :=
  ret = code .allocFail ∨ ret = code .innerRetry ∨ ret = code .netRetry ∨
    ret = code .checkPtFail

instance (ret : Code) : Decidable (isContinue ret) :=
  inferInstanceAs (Decidable (_ ∨ _))

/-- A handler: its code, the block afterwards, and the seconds it takes. -/
abbrev Handle (W : Type) :=
  W → IOCtxItem → Option (Code × IOCtxItem × Nat × W)

/-- `SendSingleReq` of the server, from the time it has taken so far; `none`
    when the fuel does not last. -/
def sendSingleReq (handle : Handle W) (mIoTimeOut : Nat) :
    Nat → Nat → Send W
  | 0, _, _, _ => none
  | fuel + 1, costTime, w, item => do
      let (ret, item, seconds, w) ← handle w item
      if ret = code .ok then some (code .ok, item, w)
      else
        let costTime := costTime + seconds
        if mIoTimeOut ≤ costTime then some (ret, item, w)
        else if ¬ isContinue ret then some (ret, item, w)
        else
          sendSingleReq handle mIoTimeOut fuel (costTime + ioRetryInteral) w
            item

/-- Each retry takes time, so this fuel is enough. -/
def serverSend (handle : Handle W) (mIoTimeOut : Nat) : Send W :=
  sendSingleReq handle mIoTimeOut (mIoTimeOut + 1) 0

/-- `MmsKvServer::Put`, `Update`, `Delete` and `Replace`. -/
def serverCall (c : Config) (mServiceable : Bool) (handle : Handle W)
    (mIoTimeOut : Nat) (r : ListCall) (rounds : Nat → Round c) (w : W)
    (cells : Cells) : Option (Progress W × Cells) :=
  if mServiceable then
    drive (r.driver c) (serverSend handle mIoTimeOut) rounds w cells
  else some (⟨0, code .notReady, w, []⟩, cells)

/-! ## At the client -/

/-- `MmsKvClient::MmsPut`, `MmsUpdate`, `MmsDelete` and `MmsReplace`; a put
    goes through the items once more for their addresses. -/
def clientCall (c : Config) (send : Send W) (get : Nat → Code × UInt64)
    (r : ListCall) (rounds : Nat → Round c) (w : W) (cells : Cells) :
    Option (Progress W × Cells) := do
  let (p, cells) ← drive (r.driver c) send rounds w cells
  match r with
  | .put itemList => do
      let (ret, cells) ←
        fillPutValueAddr get itemList.length 0 (code .ok) cells
      some ({ p with result := if ret = code .ok then p.result else ret },
        cells)
  | _ => some (p, cells)

end UbsIo.Server
