import UbsIo.Lib.Run

/-! # The write cache

    A slice of a `Put` is written to the memory tier of its flow, and goes from
    there to the disk tier and on to UnderFs; workers do this in the background,
    and a `Put` that writes through does it in front.  `WCacheIndex` maps keys
    to references of slices.  A reference (`SliceRef`) counts its readers: a
    slice under readers is replaced when the last one releases it.

    The model has the caches of one node for one partition, with any number of
    threads.  Every locked section, every load of an atomic and every access to
    a tier is one step; a section that can fail has a second step for that. -/

namespace UbsIo.Wcache

open UbsIo.Lib

inductive Tier where
  | memory | disk
deriving DecidableEq, Repr

/-- A slice: its flow, and its index in the flow. -/
structure Slot where
  flowId : Nat
  indexInFlow : Nat
deriving DecidableEq, Repr

/-- The offsets that `AllocOffset` hands out: the slices of a flow follow one
    another, and none is empty. -/
structure Layout where
  start : Nat → Nat → Nat
  start_lt : ∀ flowId i, start flowId i < start flowId (i + 1)

def Layout.offset (L : Layout) (s : Slot) : Nat :=
  L.start s.flowId s.indexInFlow

def Layout.length (L : Layout) (s : Slot) : Nat :=
  L.start s.flowId (s.indexInFlow + 1) - L.start s.flowId s.indexInFlow

inductive RealIoStrategy where
  | default | memBack | diskBack | underFsBack
deriving DecidableEq, Repr

/-- The strategy that `PutSetIoStrategy` leaves for this call; what it finds
    out about memory and disks is for the next ones. -/
def putSetIoStrategy (ioStrategy : RealIoStrategy) (writeBack : Bool) :
    RealIoStrategy :=
  match ioStrategy with
  | .default => if writeBack then .memBack else .diskBack
  | io => io

/-- `WFlowSliceMeta`. -/
structure SliceMeta (κ : Type) where
  key : κ
  offset : Nat
  length : Nat
  magic : Nat
  hasEvict : Bool
deriving DecidableEq, Repr

/-- The callbacks that are given to `SetSlice`: that of
    `EvictFromMemToDiskImpl`, and that of `EvictFromDiskToUnderFsImpl`, which
    has the record of the slice. -/
inductive Callback (κ : Type) where
  | toDisk
  | toUnderFs (key : κ)
deriving DecidableEq, Repr

/-- The tier that the slice leaves. -/
def Callback.tier {κ : Type} : Callback κ → Tier
  | .toDisk => .memory
  | .toUnderFs _ => .disk

/-- The slice that `SetSlice` is given with it. -/
def Callback.newSlice {κ : Type} : Callback κ → Option Tier
  | .toDisk => some .disk
  | .toUnderFs _ => none

/-- `SliceRef`.  A slice is told by its tier, and `none` is `nullptr`;
    `setSliceCallback` is there while it waits for the readers. -/
structure SliceRef (κ : Type) where
  slice : Option Tier
  setSliceCallback : Option (Callback κ)
  ref : Nat
  opLock : Bool
  valid : Bool
deriving DecidableEq, Repr

/-- The arguments of `Put`. -/
structure PutArgs (κ β : Type) where
  slot : Slot
  key : κ
  value : β
  ioStrategy : RealIoStrategy
  writeBack : Bool

def PutArgs.strategy {κ β : Type} (p : PutArgs κ β) : RealIoStrategy :=
  putSetIoStrategy p.ioStrategy p.writeBack

/-- Who evicts a slice: a `Put` in front, or a task with the offset that
    `mGlobEvictOffset` has answered (`none` for no bound). -/
inductive Job (κ β : Type) where
  | front (p : PutArgs κ β)
  | background (globEvictOffset : Option Nat)

/-- Who runs a callback: `SetSlice`, or the last `Release`.  A `Delete` comes
    with what was known when it was called, and with its result. -/
inductive Ret (κ β : Type) where
  | evict (tier : Tier) (j : Job κ β)
  | get
  | delete (key : κ) (stamp : Option Nat) (ok : Bool)

/-- Where a thread is. -/
inductive Phase (κ β : Type) where
  | idle
  -- `Put`
  | write (p : PutArgs κ β)
  | negotiate (p : PutArgs κ β)
  | frontMemory (p : PutArgs κ β)
  | frontDisk (p : PutArgs κ β)
  | insert (p : PutArgs κ β)
  -- `EvictAllMemSliceToDisk`, `EvictAllDiskSliceToUnderFs`
  | evictAll (tier : Tier) (flowId : Nat) (globEvictOffset : Option Nat)
  -- eviction of a slice from a tier
  | lock (tier : Tier) (j : Job κ β) (s : Slot)
  | copy (j : Job κ β) (s : Slot)
  | underFs (j : Job κ β) (s : Slot)
  | mark (j : Job κ β) (s : Slot)
  | setSlice (c : Callback κ) (j : Job κ β) (s : Slot)
  | unlock (tier : Tier) (j : Job κ β) (s : Slot) (ok : Bool)
  | requeue (tier : Tier) (j : Job κ β) (s : Slot)
  -- the callback of a slice that has left its tier
  | cursor (c : Callback κ) (r : Ret κ β) (s : Slot)
  | truncate (c : Callback κ) (r : Ret κ β) (s : Slot) (index : Nat)
  | finish (c : Callback κ) (r : Ret κ β) (s : Slot)
  | back (r : Ret κ β) (s : Slot)
  -- `Get`
  | read (key : κ) (s : Slot)
  | release (r : Ret κ β) (s : Slot)
  -- `Delete`
  | opLock (key : κ) (s : Slot) (stamp : Option Nat)
  | deleteMark (key : κ) (s : Slot) (stamp : Option Nat)
  | deleteIndex (key : κ) (s : Slot) (stamp : Option Nat)
  | setState (key : κ) (s : Slot) (stamp : Option Nat)
  | deleteUnlock (key : κ) (s : Slot) (stamp : Option Nat) (ok : Bool)

/-- What the callers know of a key: how many `Put`s have been called, and the
    threads that are in one; the last one that returned `BIO_OK`; whether a
    `Delete` has returned `BIO_OK` since then; and for every such `Delete` that
    was called while no `Put` ran the number of `Put`s before it. -/
structure History (ι κ β : Type) where
  called : κ → Nat
  running : κ → List ι
  lastPut : κ → Option (Slot × β)
  erased : κ → Bool
  deleted : κ → List Nat

/-- A node.  `records` and `contents` are what has been written to the meta
    and data flows of a tier; the slices before `truncateIndex` have been given
    back.  `used` has the slices that have come in, `flushed` those that have
    been put into UnderFs. -/
structure Node (ι κ β : Type) where
  refs : Slot → Option (SliceRef κ)
  records : Tier → Slot → Option (SliceMeta κ)
  contents : Tier → Slot → Option β
  evictNegotiateMap : List Slot
  evictSliceQueue : Tier → Nat → List Slot
  evictedSlices : Tier → Nat → List Nat
  preTruncateSliceIndex : Tier → Nat → Nat
  truncateIndex : Tier → Nat → Nat
  index : κ → Option Slot
  threads : ι → Phase κ β
  used : List Slot
  flushed : List Slot
  history : History ι κ β

def Node.init (ι κ β : Type) : Node ι κ β where
  refs := fun _ => none
  records := fun _ _ => none
  contents := fun _ _ => none
  evictNegotiateMap := []
  evictSliceQueue := fun _ _ => []
  evictedSlices := fun _ _ => []
  preTruncateSliceIndex := fun _ _ => 0
  truncateIndex := fun _ _ => 0
  index := fun _ => none
  threads := fun _ => .idle
  used := []
  flushed := []
  history :=
    ⟨fun _ => 0, fun _ => [], fun _ => none, fun _ => false, fun _ => []⟩

inductive Event (ι κ β : Type) where
  | put (t : ι) (p : PutArgs κ β)
  | get (t : ι) (key : κ)
  | delete (t : ι) (key : κ)
  /-- A task of a tier starts. -/
  | evictAll (t : ι) (tier : Tier) (flowId : Nat)
      (globEvictOffset : Option Nat)
  /-- The next section of thread `t`. -/
  | go (t : ι)
  /-- It fails, or a task stops. -/
  | fail (t : ι)
  /-- The copies have agreed on the eviction of a slice. -/
  | negotiated (s : Slot)
  /-- Another copy has put the slice into UnderFs. -/
  | flushed (s : Slot)

variable {ι κ β : Type}

/-! ## Parts of a step -/

section

variable [DecidableEq ι]

/-- Thread `t` goes on to another place. -/
def Node.goto (n : Node ι κ β) (t : ι) (p : Phase κ β) : Node ι κ β :=
  { n with threads := Function.update n.threads t p }

end

/-- Replace the reference of a slice. -/
def Node.setRef (n : Node ι κ β) (s : Slot) (r : SliceRef κ) : Node ι κ β :=
  { n with refs := Function.update n.refs s (some r) }

/-- The flow of a tier has this queue now. -/
def Node.setQueue (n : Node ι κ β) (tier : Tier) (flowId : Nat)
    (queue : List Slot) : Node ι κ β :=
  { n with
    evictSliceQueue := Function.update n.evictSliceQueue tier
      (Function.update (n.evictSliceQueue tier) flowId queue) }

/-- The record of a slice in a tier. -/
def Node.setRecord (n : Node ι κ β) (tier : Tier) (s : Slot)
    (m : SliceMeta κ) : Node ι κ β :=
  { n with
    records := Function.update n.records tier
      (Function.update (n.records tier) s (some m)) }

def Node.setContent (n : Node ι κ β) (tier : Tier) (s : Slot) (b : β) :
    Node ι κ β :=
  { n with
    contents := Function.update n.contents tier
      (Function.update (n.contents tier) s (some b)) }

/-- The loop of `GetTruncateSlice`: the slices that come next are taken from
    the front of the ordered set. -/
def advance : Nat → List Nat → Nat × List Nat
  | index, [] => (index, [])
  | index, i :: rest =>
      if i = index then advance (index + 1) rest else (index, i :: rest)

/-- `TruncateOffset` of the flows of a tier, up to the slice `index`. -/
def Node.truncate (n : Node ι κ β) (tier : Tier) (flowId index : Nat) :
    Node ι κ β :=
  { n with
    truncateIndex := Function.update n.truncateIndex tier
      (Function.update (n.truncateIndex tier) flowId
        (max (n.truncateIndex tier flowId) index)) }

/-- `GetMetaSlice`, with the record that is read. -/
def Node.getMeta (n : Node ι κ β) (tier : Tier) (s : Slot) :
    Option (SliceMeta κ) :=
  if s.indexInFlow < n.truncateIndex tier s.flowId then none
  else n.records tier s

/-- The value of a slice in a tier, as long as it has its chunks. -/
def Node.getData (n : Node ι κ β) (tier : Tier) (s : Slot) : Option β :=
  if s.indexInFlow < n.truncateIndex tier s.flowId then none
  else n.contents tier s

/-- `GetDataEvictOffset`. -/
def Node.evictOffset (L : Layout) (n : Node ι κ β) (flowId : Nat) : Nat :=
  L.start flowId (n.truncateIndex .disk flowId)

/-- The slice ends behind the offset that `mGlobEvictOffset` has answered. -/
def isBehind (L : Layout) (s : Slot) : Option Nat → Bool
  | none => false
  | some globEvictOffset =>
      decide (globEvictOffset < L.offset s + L.length s)

/-- `WCacheIndex::Aquire`: the reference, if it is found and valid. -/
def Node.aquire (n : Node ι κ β) (key : κ) :
    Option (Slot × SliceRef κ) :=
  match n.index key with
  | none => none
  | some s =>
      match n.refs s with
      | none => none
      | some r =>
          if r.slice ≠ none ∧ r.valid = true then
            some (s, { r with ref := r.ref + 1 })
          else none

variable [DecidableEq ι] [DecidableEq κ]

/-- A `Put` has been called, or returns. -/
def History.call (h : History ι κ β) (t : ι) (key : κ) : History ι κ β :=
  { h with
    called := Function.update h.called key (h.called key + 1)
    running := Function.update h.running key (t :: h.running key) }

def History.failed (h : History ι κ β) (t : ι) (key : κ) : History ι κ β :=
  { h with
    running := Function.update h.running key ((h.running key).erase t) }

def History.done (h : History ι κ β) (t : ι) (key : κ) (s : Slot) (b : β) :
    History ι κ β :=
  { h.failed t key with
    lastPut := Function.update h.lastPut key (some (s, b))
    erased := Function.update h.erased key false }

/-- A `Delete` returns `BIO_OK`. -/
def History.delete (h : History ι κ β) (key : κ) (stamp : Option Nat) :
    History ι κ β :=
  { h with
    erased := Function.update h.erased key true
    deleted := Function.update h.deleted key
      (h.deleted key ++ stamp.toList) }

/-- What is known when a `Delete` is called. -/
def History.stamp (h : History ι κ β) (key : κ) : Option Nat :=
  if h.running key = [] then some (h.called key) else none

/-- A `Put` returns an error. -/
def Node.putFailed (n : Node ι κ β) (t : ι) (p : PutArgs κ β) :
    Node ι κ β :=
  Node.goto { n with history := n.history.failed t p.key } t .idle

/-- What follows the eviction of a slice. -/
def afterEvict (tier : Tier) (s : Slot) : Job κ β → Phase κ β
  | .front p =>
      if tier = .memory ∧ p.strategy = .underFsBack then .frontDisk p
      else .insert p
  | .background glob => .evictAll tier s.flowId glob

/-- The first section of an eviction. -/
def evictFrom (tier : Tier) (j : Job κ β) (s : Slot) : Phase κ β :=
  match tier with
  | .memory => .copy j s
  | .disk => .underFs j s

/-! ## Steps -/

/-- The next section of a thread that is in phase `p`. -/
def resume (L : Layout) (isMaster : Bool) (n : Node ι κ β) (t : ι) :
    Phase κ β → Option (Node ι κ β)
  | .write p =>
      let n := n.setRecord .memory p.slot
        ⟨p.key, L.offset p.slot, L.length p.slot, p.slot.flowId, false⟩
      let n := n.setContent .memory p.slot p.value
      some ((n.setRef p.slot ⟨some .memory, none, 0, false, true⟩).goto t
        (.negotiate p))
  | .negotiate p =>
      some (Node.goto
        { n with evictNegotiateMap := n.evictNegotiateMap ++ [p.slot] } t
        (if p.strategy = .memBack then .insert p else .frontMemory p))
  | .frontMemory p =>
      match n.evictSliceQueue .memory p.slot.flowId with
      | [] =>
          some (n.goto t
            (if p.strategy = .diskBack then .insert p else .frontDisk p))
      | s :: rest =>
          some ((n.setQueue .memory p.slot.flowId rest).goto t
            (.copy (.front p) s))
  | .frontDisk p =>
      match n.evictSliceQueue .disk p.slot.flowId with
      | [] => some (n.goto t (.insert p))
      | s :: rest =>
          some ((n.setQueue .disk p.slot.flowId rest).goto t
            (.underFs (.front p) s))
  | .insert p =>
      some (Node.goto
        { n with
          index := Function.update n.index p.key
            (some ((n.index p.key).getD p.slot))
          history := n.history.done t p.key p.slot p.value }
        t .idle)
  | .evictAll tier flowId glob =>
      match n.evictSliceQueue tier flowId with
      | [] => some (n.goto t .idle)
      | s :: rest =>
          let n := n.setQueue tier flowId rest
          match tier, n.refs s with
          | .memory, _ => some (n.goto t (.lock .memory (.background glob) s))
          | .disk, none => none
          | .disk, some r =>
              if r.slice = none then some (n.goto t .idle)
              else if isBehind L s glob then
                some (n.goto t (.requeue .disk (.background glob) s))
              else some (n.goto t (.lock .disk (.background glob) s))
  | .lock tier j s =>
      match n.refs s with
      | none => none
      | some r =>
          if r.opLock then some (n.goto t (.requeue tier j s))
          else
            some ((n.setRef s { r with opLock := true }).goto t
              (evictFrom tier j s))
  | .copy j s =>
      match n.refs s, n.getMeta .memory s, n.getData .memory s with
      | some r, some m, some b =>
          if r.slice = none then some (n.goto t (.unlock .memory j s false))
          else
            some (((n.setContent .disk s b).setRecord .disk s m).goto t
              (.setSlice .toDisk j s))
      | _, _, _ => some (n.goto t (.unlock .memory j s false))
  | .underFs j s =>
      match n.refs s, n.getMeta .disk s with
      | some r, some _ =>
          if r.slice = none then some (n.goto t (.unlock .disk j s false))
          else if r.valid && isMaster then
            some (Node.goto { n with flushed := n.flushed ++ [s] } t
              (.mark j s))
          else some (n.goto t (.mark j s))
      | _, _ => some (n.goto t (.unlock .disk j s false))
  | .mark j s =>
      match n.getMeta .disk s with
      | some m =>
          some ((n.setRecord .disk s { m with hasEvict := true }).goto t
            (.setSlice (.toUnderFs m.key) j s))
      | none => some (n.goto t (.unlock .disk j s false))
  | .setSlice c j s =>
      match n.refs s with
      | none => none
      | some r =>
          if r.ref = 0 then
            some ((n.setRef s { r with slice := c.newSlice }).goto t
              (.cursor c (.evict c.tier j) s))
          else
            some ((n.setRef s { r with setSliceCallback := some c }).goto t
              (.unlock c.tier j s true))
  | .unlock tier j s ok =>
      match n.refs s with
      | none => none
      | some r =>
          some ((n.setRef s { r with opLock := false }).goto t
            (if ok then afterEvict tier s j else .requeue tier j s))
  | .requeue tier j s =>
      let n := n.setQueue tier s.flowId
        (s :: n.evictSliceQueue tier s.flowId)
      match j with
      | .front p => some (n.putFailed t p)
      | .background _ => some (n.goto t .idle)
  | .cursor c r s =>
      let a := advance (n.preTruncateSliceIndex c.tier s.flowId)
        ((n.evictedSlices c.tier s.flowId).orderedInsert (· ≤ ·)
          s.indexInFlow)
      let n' := { n with
        evictedSlices := Function.update n.evictedSlices c.tier
          (Function.update (n.evictedSlices c.tier) s.flowId a.2)
        preTruncateSliceIndex :=
          Function.update n.preTruncateSliceIndex c.tier
            (Function.update (n.preTruncateSliceIndex c.tier) s.flowId a.1) }
      if a.1 = n.preTruncateSliceIndex c.tier s.flowId then
        some (n'.goto t (.finish c r s))
      else some (n'.goto t (.truncate c r s a.1))
  | .truncate c r s index =>
      some ((n.truncate c.tier s.flowId index).goto t (.finish c r s))
  | .finish .toDisk r s =>
      some ((n.setQueue .disk s.flowId
        (n.evictSliceQueue .disk s.flowId ++ [s])).goto t (.back r s))
  | .finish (.toUnderFs key) r s =>
      match n.refs s with
      | none => none
      | some ref =>
          if ref.valid = true ∧ n.index key = some s then
            some (Node.goto
              { n with index := Function.update n.index key none } t
              (.back r s))
          else some (n.goto t (.back r s))
  | .back (.evict tier j) s => some (n.goto t (.unlock tier j s true))
  | .back .get _ => some (n.goto t .idle)
  | .back (.delete key stamp ok) _ =>
      if ok then
        some (Node.goto { n with history := n.history.delete key stamp } t
          .idle)
      else some (n.goto t .idle)
  | .read _ s => some (n.goto t (.release .get s))
  | .release r s =>
      match n.refs s with
      | none => none
      | some ref =>
          match ref.setSliceCallback with
          | some c =>
              if ref.ref - 1 = 0 then
                some ((n.setRef s
                  { ref with
                    ref := 0
                    slice := c.newSlice
                    setSliceCallback := none }).goto t (.cursor c r s))
              else
                some ((n.setRef s { ref with ref := ref.ref - 1 }).goto t
                  (.back r s))
          | none =>
              some ((n.setRef s { ref with ref := ref.ref - 1 }).goto t
                (.back r s))
  | .opLock key s stamp =>
      match n.refs s with
      | none => none
      | some r =>
          if r.opLock then
            some (n.goto t (.release (.delete key stamp false) s))
          else
            some ((n.setRef s { r with opLock := true }).goto t
              (.deleteMark key s stamp))
  | .deleteMark key s stamp =>
      match n.refs s with
      | none => none
      | some r =>
          match r.slice with
          | none => some (n.goto t (.deleteIndex key s stamp))
          | some tier =>
              match n.getMeta tier s with
              | none => some (n.goto t (.deleteUnlock key s stamp false))
              | some m =>
                  some ((n.setRecord tier s { m with hasEvict := true }).goto t
                    (.deleteIndex key s stamp))
  | .deleteIndex key s stamp =>
      match n.index key with
      | none => some (n.goto t (.deleteUnlock key s stamp false))
      | some s' =>
          if s' = s then
            some (Node.goto
              { n with index := Function.update n.index key none } t
              (.setState key s stamp))
          else some (n.goto t (.setState key s stamp))
  | .setState key s stamp =>
      match n.refs s with
      | none => none
      | some r =>
          some ((n.setRef s { r with valid := false }).goto t
            (.deleteUnlock key s stamp true))
  | .deleteUnlock key s stamp ok =>
      match n.refs s with
      | none => none
      | some r =>
          some ((n.setRef s { r with opLock := false }).goto t
            (.release (.delete key stamp ok) s))
  | .idle => none

/-- A section fails. -/
def interrupt (n : Node ι κ β) (t : ι) : Phase κ β → Option (Node ι κ β)
  | .write p => some (n.putFailed t p)
  | .insert p => some (n.putFailed t p)
  | .evictAll _ _ _ => some (n.goto t .idle)
  | .copy j s => some (n.goto t (.unlock .memory j s false))
  | .underFs j s => some (n.goto t (.unlock .disk j s false))
  | .mark j s => some (n.goto t (.unlock .disk j s false))
  | .truncate .toDisk r s _ => some (n.goto t (.finish .toDisk r s))
  | .truncate (.toUnderFs _) r s _ => some (n.goto t (.back r s))
  | .read _ s => some (n.goto t (.release .get s))
  | .deleteMark key s stamp =>
      some (n.goto t (.deleteUnlock key s stamp false))
  | _ => none

/-- One step. -/
def step (L : Layout) (isMaster : Bool) (n : Node ι κ β) :
    Event ι κ β → Option (Node ι κ β)
  | .put t p =>
      match n.threads t with
      | .idle =>
          if p.slot ∈ n.used then none
          else
            some (Node.goto
              { n with
                used := n.used ++ [p.slot]
                history := n.history.call t p.key }
              t (.write p))
      | _ => none
  | .get t key =>
      match n.threads t with
      | .idle =>
          match n.aquire key with
          | none => some n
          | some (s, r) => some ((n.setRef s r).goto t (.read key s))
      | _ => none
  | .delete t key =>
      match n.threads t with
      | .idle =>
          match n.aquire key with
          | none => some n
          | some (s, r) =>
              some ((n.setRef s r).goto t
                (.opLock key s (n.history.stamp key)))
      | _ => none
  | .evictAll t tier flowId glob =>
      match n.threads t with
      | .idle => some (n.goto t (.evictAll tier flowId glob))
      | _ => none
  | .go t => resume L isMaster n t (n.threads t)
  | .fail t => interrupt n t (n.threads t)
  | .negotiated s =>
      if s ∈ n.evictNegotiateMap then
        some ((({ n with
          evictNegotiateMap :=
            n.evictNegotiateMap.filter fun s' => decide (s' ≠ s) } :
            Node ι κ β).setQueue .memory s.flowId
              (n.evictSliceQueue .memory s.flowId ++ [s])))
      else none
  | .flushed s => some { n with flushed := n.flushed ++ [s] }

end UbsIo.Wcache
