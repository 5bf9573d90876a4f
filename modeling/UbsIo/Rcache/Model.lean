import UbsIo.Lib.Run
import UbsIo.Lib.Overlay

/-! # The read cache

    An `RCache` keeps values in two tiers.  A value comes into memory: a range
    of the memory flow is taken (`AllocOffset`), the caller fills it, and `Put`
    makes a chunk of it, under its key in the index and in the lists of the
    memory tier.  `EvictMemData` takes the oldest chunk of the truncate list,
    copies it to the disk flow and moves it to the lists there;
    `EvictDiskData` drops the oldest chunk of the disk tier.  Either ends with
    the truncation of the flow it has taken chunks from.

    Any number of threads work on a cache.  Every section under a lock of the
    cache is one step; the lock of a chunk is held over several of them.
    Offsets grow without bound: a run that hands out 2^64 bytes is left out.  A
    range is shorter than 2^32, the lengths that `GetAddrByOffset` can take. -/

namespace UbsIo.Rcache

open UbsIo.Lib

inductive Tier where
  | mem | disk
deriving DecidableEq, Repr

/-- `RCacheValue`.  Nobody asks for a range of no bytes. -/
structure Value where
  indexInFlow : Nat
  flowOffset : Nat
  length : Nat
  length_pos : 0 < length
deriving DecidableEq, Repr

/-- The offset behind the range. -/
def Value.reach (v : Value) : Nat := v.flowOffset + v.length

/-- `RCacheChunk`: `state` is set for a chunk that is deleted, `lock` has the
    thread that has locked it.  `data` is what the caller has put. -/
structure Chunk (ι κ β : Type) where
  key : κ
  value : Value
  tier : Tier
  dataCrc : Nat
  state : Bool
  lock : Option ι
  data : List β

/-- `RCacheFlow` with the data flow under it: `index` and `offset` are those of
    its `FlowInstance`, the next three those of the `Flow`.  A byte has its
    place from its offset on until the flow is truncated behind it. -/
structure RCacheFlow (β : Type) where
  index : Nat
  offset : Nat
  dataTruncOffset : Nat
  truncateOffset : Nat
  writenOffset : Nat
  preLoadOffset : Nat
  bytes : Nat → β

/-- How a `Get` ends. -/
inductive Result (β : Type) where
  | ok (bytes : List β)
  | notExists
  | readExceed
  | addrFailed
  | crcFailed
  | writerFailed
deriving DecidableEq, Repr

/-- What a `Get` was asked for, and how many chunks the index had got when it
    was searched. -/
structure Query (κ : Type) where
  key : κ
  offset : Nat
  len : Nat
  seen : Nat
deriving DecidableEq, Repr

/-- Where a thread is.  `needEvict` and `haveEvict` are those of an
    eviction. -/
inductive Phase (κ β : Type) where
  | idle
  -- `AllocResources` and `Put`, or `Load`
  | reserved (v : Value)
  | written (v : Value) (data : List β)
  | indexed (c : Nat) (v : Value)
  | listed (c : Nat) (v : Value)
  -- `Get`
  | found (q : Query κ) (c : Nat)
  | addressed (q : Query κ) (c : Nat) (realLen : Nat)
  | verified (q : Query κ) (c : Nat) (realLen : Nat)
  | served (c : Nat) (tier : Tier)
  -- `Delete`
  | deleting (c : Nat)
  -- `EvictMemData`, `EvictDiskData`
  | evict (tier : Tier) (needEvict haveEvict : Nat)
  | victim (tier : Tier) (needEvict haveEvict : Nat) (c : Nat)
  | allocated (needEvict haveEvict : Nat) (c : Nat) (v : Value)
  | copied (needEvict haveEvict : Nat) (c : Nat) (v : Value)
  | unqueued (needEvict haveEvict : Nat) (c : Nat) (v : Value)
  | unlisted (needEvict haveEvict : Nat) (c : Nat) (v : Value)
  | moved (needEvict haveEvict : Nat) (c : Nat) (v : Value)
  | erased (needEvict haveEvict : Nat) (c : Nat)
  | dropped (needEvict haveEvict : Nat) (c : Nat)
  | truncate (tier : Tier) (haveEvict : Nat)
deriving DecidableEq

/-- A read cache and the threads on it.  `lost` has the ranges of a flow that
    were taken and have come to nothing, `answers` all results of `Get`. -/
structure Cache (ι κ β : Type) where
  chunks : Nat → Option (Chunk ι κ β)
  count : Nat
  index : κ → Option Nat
  flow : Tier → RCacheFlow β
  evictMq : Tier → List Nat
  truncateQ : Tier → List Nat
  evicting : Tier → Bool
  isNormal : Bool
  threads : ι → Phase κ β
  lost : Tier → List Value
  answers : List (Query κ × Result β)

inductive Event (ι κ β : Type) where
  /-- `AllocOffset` for `len` bytes; the worker preloads up to `loaded`. -/
  | reserve (t : ι) (len loaded : Nat)
  /-- The caller fills the range it has got. -/
  | write (t : ι) (data : List β)
  | insert (t : ι) (key : κ) (dataCrc : Nat)
  | get (t : ι) (key : κ) (offset len : Nat)
  | delete (t : ι) (key : κ)
  | evict (t : ι) (tier : Tier) (need : Nat)
  /-- The next section of thread `t`.  The worker preloads up to `loaded`;
      `stale` is what a read finds where the flow has been truncated. -/
  | go (t : ι) (loaded : Nat) (stale : List β)
  /-- It fails. -/
  | fail (t : ι)
  /-- The worker of a flow preloads. -/
  | preLoad (tier : Tier) (offset : Nat)
  /-- `SetDelete`. -/
  | setDelete

variable {ι κ β : Type}

/-! ## Flows -/

namespace RCacheFlow

def init (blank : β) : RCacheFlow β := ⟨0, 0, 0, 0, 0, 0, fun _ => blank⟩

/-- `GetAddrByOffset`, with the end of its range. -/
def getAddrByOffset (f : RCacheFlow β) (offset reach loaded : Nat) :
    RCacheFlow β × Bool :=
  if offset < f.truncateOffset then (f, false)
  else
    -- `HoldWait` notes the range before it waits for the worker
    let f := { f with writenOffset := max f.writenOffset reach }
    if reach ≤ f.preLoadOffset then (f, true)
    else
      let f := { f with preLoadOffset := max f.preLoadOffset loaded }
      (f, decide (reach ≤ f.preLoadOffset))

/-- `AllocOffset`: a range that the flow has no place for is rolled back. -/
def allocOffset (f : RCacheFlow β) (len : Nat) (hlen : 0 < len)
    (loaded : Nat) : RCacheFlow β × Option Value :=
  let g := { f with index := f.index + 1, offset := f.offset + len }
  match g.getAddrByOffset f.offset (f.offset + len) loaded with
  | (g, true) => (g, some ⟨f.index, f.offset, len, hlen⟩)
  | (g, false) =>
      ({ g with index := g.index - 1, offset := g.offset - len }, none)

/-- `UpdateDataTruncOffset`. -/
def updateDataTruncOffset (f : RCacheFlow β) (v : Value) : RCacheFlow β :=
  { f with dataTruncOffset := v.reach }

/-- `TruncateOffset` of the data flow. -/
def truncate (f : RCacheFlow β) (offset : Nat) : RCacheFlow β :=
  if f.preLoadOffset < offset ∨ f.writenOffset < offset then f
  else { f with truncateOffset := max f.truncateOffset offset }

/-- The bytes of a range. -/
def read (f : RCacheFlow β) (offset len : Nat) : List β :=
  (List.range len).map fun i => f.bytes (offset + i)

/-- Bytes go where the flow still has a place for them. -/
def write (f : RCacheFlow β) (offset : Nat) (data : List β) : RCacheFlow β :=
  { f with
    bytes := fun p =>
      if p < f.truncateOffset then f.bytes p
      else ((Write.mk offset data).gives p).getD (f.bytes p) }

end RCacheFlow

/-! ## Parts of a step -/

namespace Cache

def init (blank : β) : Cache ι κ β where
  chunks := fun _ => none
  count := 0
  index := fun _ => none
  flow := fun _ => .init blank
  evictMq := fun _ => []
  truncateQ := fun _ => []
  evicting := fun _ => false
  isNormal := true
  threads := fun _ => .idle
  lost := fun _ => []
  answers := []

/-- Thread `t` goes on to another place. -/
def goto [DecidableEq ι] (n : Cache ι κ β) (t : ι) (p : Phase κ β) :
    Cache ι κ β :=
  { n with threads := Function.update n.threads t p }

def setChunk (n : Cache ι κ β) (c : Nat) (k : Chunk ι κ β) : Cache ι κ β :=
  { n with chunks := Function.update n.chunks c (some k) }

def setFlow (n : Cache ι κ β) (tier : Tier) (f : RCacheFlow β) :
    Cache ι κ β :=
  { n with flow := Function.update n.flow tier f }

def setEvictMq (n : Cache ι κ β) (tier : Tier) (l : List Nat) :
    Cache ι κ β :=
  { n with evictMq := Function.update n.evictMq tier l }

def setTruncateQ (n : Cache ι κ β) (tier : Tier) (l : List Nat) :
    Cache ι κ β :=
  { n with truncateQ := Function.update n.truncateQ tier l }

def setEvicting (n : Cache ι κ β) (tier : Tier) (b : Bool) : Cache ι κ β :=
  { n with evicting := Function.update n.evicting tier b }

/-- A range has come to nothing. -/
def lose (n : Cache ι κ β) (tier : Tier) (v : Value) : Cache ι κ β :=
  { n with lost := Function.update n.lost tier (n.lost tier ++ [v]) }

/-- A `Get` returns. -/
def answer (n : Cache ι κ β) (q : Query κ) (r : Result β) : Cache ι κ β :=
  { n with answers := n.answers ++ [(q, r)] }

/-- The place of a chunk in the memory or the disk flow, by its number. -/
def indexInFlow (n : Cache ι κ β) (c : Nat) : Nat :=
  (n.chunks c).elim 0 fun k => k.value.indexInFlow

/-- The list that `next[tierType]` follows: that is the truncate list in the
    memory tier, and the evict list in the disk tier. -/
def lane (n : Cache ι κ β) : Tier → List Nat
  | .mem => n.truncateQ .mem
  | .disk => n.evictMq .disk

end Cache

/-- `InsertAt` before a node of the list. -/
def insertAt (position node : Nat) : List Nat → List Nat
  | [] => []
  | c :: l =>
      if c = position then node :: c :: l else c :: insertAt position node l

/-- `AddToTruncateList`. -/
def Cache.addToTruncateList (n : Cache ι κ β) (tier : Tier) (c : Nat) :
    List Nat :=
  match n.truncateQ tier with
  | [] => [c]
  | head :: l =>
      let behind := ((n.lane tier).dropWhile (· ≠ head)).tail
      match (head :: behind).find?
          fun i => decide (n.indexInFlow i ≤ n.indexInFlow c) with
      | some position => insertAt position c (head :: l)
      | none => head :: l ++ [c]

/-- `EvictMemData` or `EvictDiskData` returns. -/
def Cache.evictReturn [DecidableEq ι] (n : Cache ι κ β) (t : ι)
    (tier : Tier) : Cache ι κ β :=
  (n.setEvicting tier false).goto t .idle

/-- The loop of an eviction is left. -/
def Cache.evictBreak [DecidableEq ι] (n : Cache ι κ β) (t : ι) (tier : Tier)
    (haveEvict : Nat) : Cache ι κ β :=
  if haveEvict = 0 then n.evictReturn t tier
  else n.goto t (.truncate tier haveEvict)

/-- `DeleteFromIndex`: the entry stays when another chunk is found there. -/
def Cache.deleteFromIndex [DecidableEq κ] (n : Cache ι κ β)
    (k : Chunk ι κ β) : κ → Option Nat :=
  match (n.index k.key).bind n.chunks with
  | none => n.index
  | some i =>
      if i.value = k.value then Function.update n.index k.key none
      else n.index

/-! ## Steps -/

section

variable [DecidableEq ι] [DecidableEq κ]

/-- The next section of thread `t`. -/
def resume (crc : Option (List β → Nat)) (n : Cache ι κ β) (t : ι)
    (loaded : Nat) (stale : List β) : Phase κ β → Option (Cache ι κ β)
  | .indexed c v =>
      some ((n.setEvictMq .mem (n.evictMq .mem ++ [c])).goto t (.listed c v))
  | .listed c _ => do
      let k ← n.chunks c
      let n := n.setTruncateQ .mem (n.addToTruncateList .mem c)
      some ((n.setChunk c { k with lock := none }).goto t .idle)
  | .found q c => do
      let k ← n.chunks c
      if k.lock ≠ none then none
      else if k.state = true then
        some ((n.answer q .notExists).goto t .idle)
      else if k.value.length ≤ q.offset then
        some ((n.answer q .readExceed).goto t .idle)
      else
        let realLen := min (k.value.length - q.offset) q.len
        let offset := k.value.flowOffset + q.offset
        match (n.flow k.tier).getAddrByOffset offset (offset + realLen)
            loaded with
        | (f, true) =>
            some (((n.setFlow k.tier f).setChunk c
              { k with lock := some t }).goto t (.addressed q c realLen))
        | (f, false) =>
            some (((n.setFlow k.tier f).answer q .addrFailed).goto t
              .idle)
  | .addressed q c realLen => do
      let k ← n.chunks c
      match crc with
      | none => some (n.goto t (.verified q c realLen))
      | some crc =>
          -- the chunk stays locked when its value is not found right
          match (n.flow k.tier).getAddrByOffset k.value.flowOffset
              k.value.reach loaded with
          | (f, false) =>
              some (((n.setFlow k.tier f).answer q .crcFailed).goto t
                .idle)
          | (f, true) =>
              if crc (f.read k.value.flowOffset k.value.length) = k.dataCrc then
                some ((n.setFlow k.tier f).goto t (.verified q c realLen))
              else
                some (((n.setFlow k.tier f).answer q
                  .crcFailed).goto t .idle)
  | .verified q c realLen => do
      let k ← n.chunks c
      let offset := k.value.flowOffset + q.offset
      let bytes := if (n.flow k.tier).truncateOffset ≤ offset then
        (n.flow k.tier).read offset realLen else stale
      some ((n.answer q (.ok bytes)).goto t (.served c k.tier))
  | .served c tier => do
      let k ← n.chunks c
      let n := n.setEvictMq tier ((n.evictMq tier).erase c ++ [c])
      some ((n.setChunk c { k with lock := none }).goto t .idle)
  | .deleting c => do
      let k ← n.chunks c
      if k.lock ≠ none then none
      else some ((n.setChunk c { k with state := true }).goto t .idle)
  | .evict tier needEvict haveEvict =>
      if needEvict ≤ haveEvict then some (n.evictBreak t tier haveEvict)
      else if n.isNormal = false then some (n.evictReturn t tier)
      else
        match (n.truncateQ tier).getLast? with
        | none => some (n.evictBreak t tier haveEvict)
        | some c => do
            let k ← n.chunks c
            if k.value.flowOffset ≠ (n.flow tier).dataTruncOffset ∨
                needEvict < k.value.length + haveEvict then
              some (n.evictBreak t tier haveEvict)
            else some (n.goto t (.victim tier needEvict haveEvict c))
  | .victim .mem needEvict haveEvict c => do
      let k ← n.chunks c
      if k.lock ≠ none then none
      else
        match (n.flow .disk).allocOffset k.value.length k.value.length_pos
            loaded with
        | (f, none) => some ((n.setFlow .disk f).evictReturn t .mem)
        | (f, some v) =>
            some (((n.setFlow .disk f).setChunk c
              { k with lock := some t }).goto t
                (.allocated needEvict haveEvict c v))
  | .allocated needEvict haveEvict c v => do
      let k ← n.chunks c
      let unlocked := (n.lose .disk v).setChunk c { k with lock := none }
      match (n.flow .mem).getAddrByOffset k.value.flowOffset k.value.reach
          loaded with
      | (f, false) => some ((unlocked.setFlow .mem f).evictReturn t .mem)
      | (f, true) =>
          match (n.flow .disk).getAddrByOffset v.flowOffset v.reach
              loaded with
          | (g, false) =>
              some (((unlocked.setFlow .mem f).setFlow .disk g).evictReturn t
                .mem)
          | (g, true) =>
              let data := f.read k.value.flowOffset k.value.length
              some (((n.setFlow .mem f).setFlow .disk
                (g.write v.flowOffset data)).goto t
                  (.copied needEvict haveEvict c v))
  | .copied needEvict haveEvict c v =>
      some ((n.setTruncateQ .mem ((n.truncateQ .mem).erase c)).goto t
        (.unqueued needEvict haveEvict c v))
  | .unqueued needEvict haveEvict c v =>
      some ((n.setEvictMq .mem ((n.evictMq .mem).erase c)).goto t
        (.unlisted needEvict haveEvict c v))
  | .unlisted needEvict haveEvict c v => do
      let k ← n.chunks c
      let n := n.setChunk c { k with value := v, tier := .disk }
      some ((n.setEvictMq .disk (n.evictMq .disk ++ [c])).goto t
        (.moved needEvict haveEvict c v))
  | .moved needEvict haveEvict c v => do
      let k ← n.chunks c
      let n := n.setTruncateQ .disk (n.addToTruncateList .disk c)
      -- the memory flow gets the offset that the chunk has on disk
      let n := n.setFlow .mem ((n.flow .mem).updateDataTruncOffset k.value)
      some ((n.setChunk c { k with lock := none }).goto t
        (.evict .mem needEvict (haveEvict + v.length)))
  | .victim .disk needEvict haveEvict c => do
      let k ← n.chunks c
      if k.lock ≠ none then none
      else
        let n := { n with index := n.deleteFromIndex k }
        some ((n.setChunk c { k with state := true, lock := some t }).goto t
          (.erased needEvict haveEvict c))
  | .erased needEvict haveEvict c =>
      some ((n.setTruncateQ .disk ((n.truncateQ .disk).erase c)).goto t
        (.dropped needEvict haveEvict c))
  | .dropped needEvict haveEvict c => do
      let k ← n.chunks c
      let n := n.setEvictMq .disk ((n.evictMq .disk).erase c)
      let n := n.setFlow .disk ((n.flow .disk).updateDataTruncOffset k.value)
      some ((n.setChunk c { k with lock := none }).goto t
        (.evict .disk needEvict (haveEvict + k.value.length)))
  | .truncate tier _ =>
      let f := n.flow tier
      some ((n.setFlow tier (f.truncate f.dataTruncOffset)).evictReturn t tier)
  | .idle => none
  | .reserved _ => none
  | .written _ _ => none

/-- The section of thread `t` fails. -/
def interrupt (crc : Option (List β → Nat)) (n : Cache ι κ β) (t : ι) :
    Phase κ β → Option (Cache ι κ β)
  -- `AllocResources` behind its `AllocOffset`, the caller, or `AllocChunk`
  | .reserved v => some ((n.lose .mem v).goto t .idle)
  | .written v _ => some ((n.lose .mem v).goto t .idle)
  | .addressed q _ _ =>
      if crc.isSome then some ((n.answer q .crcFailed).goto t .idle) else none
  | .verified q c _ => do
      let k ← n.chunks c
      some (((n.answer q .writerFailed).setChunk c
        { k with lock := none }).goto t .idle)
  -- the range on disk is not given back
  | .allocated _ _ c v => do
      let k ← n.chunks c
      some (((n.lose .disk v).setChunk c
        { k with lock := none }).evictReturn t .mem)
  | _ => none

def step (crc : Option (List β → Nat)) (n : Cache ι κ β) :
    Event ι κ β → Option (Cache ι κ β)
  | .reserve t len loaded =>
      match n.threads t with
      | .idle =>
          if hlen : 0 < len ∧ len < 2 ^ 32 then
            match (n.flow .mem).allocOffset len hlen.1 loaded with
            | (f, none) => some (n.setFlow .mem f)
            | (f, some v) => some ((n.setFlow .mem f).goto t (.reserved v))
          else none
      | _ => none
  | .write t data =>
      match n.threads t with
      | .reserved v =>
          if data.length = v.length then
            some ((n.setFlow .mem
              ((n.flow .mem).write v.flowOffset data)).goto t
                (.written v data))
          else none
      | _ => none
  | .insert t key dataCrc =>
      match n.threads t with
      | .written v data =>
          let n := n.setChunk n.count
            ⟨key, v, .mem, dataCrc, false, some t, data⟩
          some (Cache.goto { n with
            index := Function.update n.index key (some n.count)
            count := n.count + 1 } t (.indexed n.count v))
      | _ => none
  | .get t key offset len =>
      match n.threads t with
      | .idle =>
          match n.index key with
          | none =>
              some (n.answer ⟨key, offset, len, n.count⟩ .notExists)
          | some c => some (n.goto t (.found ⟨key, offset, len, n.count⟩ c))
      | _ => none
  | .delete t key =>
      match n.threads t with
      | .idle =>
          match n.index key with
          | none => some n
          | some c => some (n.goto t (.deleting c))
      | _ => none
  | .evict t tier needEvict =>
      match n.threads t with
      | .idle =>
          if n.isNormal = false ∨ n.evicting tier = true then some n
          else
            some ((n.setEvicting tier true).goto t (.evict tier needEvict 0))
      | _ => none
  | .go t loaded stale => resume crc n t loaded stale (n.threads t)
  | .fail t => interrupt crc n t (n.threads t)
  | .preLoad tier offset =>
      let f := n.flow tier
      some (n.setFlow tier
        { f with preLoadOffset := max f.preLoadOffset offset })
  | .setDelete => some { n with isNormal := false }

end

end UbsIo.Rcache
