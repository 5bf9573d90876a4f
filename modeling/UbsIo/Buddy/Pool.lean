import UbsIo.Lib.Run
import UbsIo.Lib.DList
import UbsIo.Lib.Dyadic

/-! # The buddy pool

    `BuddyNumaMemoryPool` of `mms_mem_allocator.cpp`: a memory area is cut
    into `mUnitCount` units, and blocks of `2 ^ order` units are handed out.
    The free chunks of an order form a doubly linked list whose nodes lie in
    the chunks themselves; `mOrders` and `mFreeStates` repeat for the first
    unit of a chunk what the lists say.

    A chunk address is `mBaseAddr + unit * mUnitSize`, a block address one
    header behind it, a node pointer the address of a chunk's node; all three
    are the unit here.  Every unit is large enough for a header and a node.
    The locks are held for the whole of every call. -/

namespace UbsIo.Buddy

open UbsIo.Lib

/-- `sizeof(BlockHeader)`. -/
def sizeofBlockHeader : Nat := 16

/-- `sizeof(BuddyBlockNode)`. -/
def sizeofBuddyBlockNode : Nat := 16

/-- `BUDDY_MAX_ORDER`. -/
def buddyMaxOrder : Nat := 63

structure BlockHeader where
  numaId : Nat
  order : Nat
  blockSize : Nat
deriving DecidableEq, Repr

structure BuddyNumaMemoryPool where
  mNumaId : Nat
  mUnitSize : Nat
  mUnitCount : Nat
  mMaxOrder : Nat
  mFreeHeads : Nat → Option Nat
  mOrders : Nat → Nat
  mFreeStates : Nat → Bool
  /-- The header at the start of each unit. -/
  header : Nat → BlockHeader
  /-- The node behind the header of each unit. -/
  node : Links Nat

/-- The error codes of the pool. -/
inductive BResult where
  | invalidParam
  | allocFail
  | err
deriving DecidableEq, Repr

def orderUnits (order : Nat) : Nat := 1 <<< order

def payloadSize (p : BuddyNumaMemoryPool) (order : Nat) : Nat :=
  p.mUnitSize * orderUnits order - sizeofBlockHeader

/-- The header the pool writes at the start of a chunk or block. -/
def headerOf (p : BuddyNumaMemoryPool) (order : Nat) : BlockHeader :=
  ⟨p.mNumaId, order, payloadSize p order⟩

/-! ## The free lists -/

/-- `AddFreeChunkUnlocked`. -/
def addFreeChunkUnlocked (p : BuddyNumaMemoryPool) (unitIndex order : Nat) :
    BuddyNumaMemoryPool :=
  { p with
    header := Function.update p.header unitIndex (headerOf p order)
    node := p.node.pushFront (p.mFreeHeads order) unitIndex
    mOrders := Function.update p.mOrders unitIndex order
    mFreeStates := Function.update p.mFreeStates unitIndex true
    mFreeHeads := Function.update p.mFreeHeads order (some unitIndex) }

/-- `PopFreeChunkUnlocked`. -/
def popFreeChunkUnlocked (p : BuddyNumaMemoryPool) (order : Nat) :
    Option (BuddyNumaMemoryPool × Nat) :=
  (p.mFreeHeads order).map fun unitIndex =>
    ({ p with
      mFreeHeads := Function.update p.mFreeHeads order (p.node.next unitIndex)
      node := p.node.popFront unitIndex
      mFreeStates := Function.update p.mFreeStates unitIndex false },
     unitIndex)

/-- `RemoveFreeChunkUnlocked`; `none` is the answer `false`. -/
def removeFreeChunkUnlocked (p : BuddyNumaMemoryPool)
    (unitIndex order : Nat) : Option BuddyNumaMemoryPool :=
  if p.mFreeStates unitIndex = false ∨ p.mOrders unitIndex ≠ order then none
  else some
    { p with
      mFreeHeads :=
        if p.node.prev unitIndex = none then
          Function.update p.mFreeHeads order (p.node.next unitIndex)
        else p.mFreeHeads
      node := p.node.remove unitIndex
      mFreeStates := Function.update p.mFreeStates unitIndex false }

/-! ## Start -/

/-- The loop that computes `mMaxOrder`; a count of 64 bits is halved at most 63
    times. -/
def maxOrderLoop : Nat → Nat → Nat
  | 0, _ => 0
  | fuel + 1, units =>
      if units > 1 then maxOrderLoop fuel (units >>> 1) + 1 else 0

/-- The inner loop of `Start`: the order of the next chunk, grown from `order`
    while `mMaxOrder` allows it. -/
def chunkOrderLoop (unitIndex remainUnits : Nat) : Nat → Nat → Nat
  | 0, order => order
  | fuel + 1, order =>
      if orderUnits order <<< 1 ≤ remainUnits ∧
          unitIndex &&& (orderUnits order <<< 1 - 1) = 0 then
        chunkOrderLoop unitIndex remainUnits fuel (order + 1)
      else order

/-- The outer loop of `Start`; `none` when the fuel runs out. -/
def startLoop : Nat → BuddyNumaMemoryPool → Nat → Nat →
    Option BuddyNumaMemoryPool
  | 0, _, _, _ => none
  | fuel + 1, p, unitIndex, remainUnits =>
      if remainUnits > 0 then
        let order := chunkOrderLoop unitIndex remainUnits p.mMaxOrder 0
        startLoop fuel (addFreeChunkUnlocked p unitIndex order)
          (unitIndex + orderUnits order) (remainUnits - orderUnits order)
      else some p

/-- `Start`, on a memory that holds anything. -/
def start (numaId size baseBlockSize : Nat) (header : Nat → BlockHeader)
    (node : Links Nat) : Except BResult BuddyNumaMemoryPool :=
  if baseBlockSize < sizeofBuddyBlockNode ∨ size ≤ sizeofBlockHeader then
    .error .invalidParam
  else
    let unitSize := baseBlockSize + sizeofBlockHeader
    let unitCount := size / unitSize
    if unitCount = 0 then .error .invalidParam
    else
      let p : BuddyNumaMemoryPool :=
        { mNumaId := numaId
          mUnitSize := unitSize
          mUnitCount := unitCount
          mMaxOrder := maxOrderLoop 64 unitCount
          mFreeHeads := fun _ => none
          mOrders := fun _ => 0
          mFreeStates := fun _ => false
          header := header
          node := node }
      match startLoop (unitCount + 1) p 0 unitCount with
      | some p => .ok p
      | none => .error .err

/-! ## Alloc -/

/-- The search of `AllocUnlocked`: the first free chunk of order `curOrder` or
    more, with its order. -/
def popLoop (p : BuddyNumaMemoryPool) : Nat → Nat →
    Option (BuddyNumaMemoryPool × Nat × Nat)
  | 0, _ => none
  | fuel + 1, curOrder =>
      match popFreeChunkUnlocked p curOrder with
      | some (p, unitIndex) => some (p, unitIndex, curOrder)
      | none => popLoop p fuel (curOrder + 1)

/-- The splitting of `AllocUnlocked`, from `order + d` down to `order`. -/
def splitLoop (unitIndex order : Nat) : Nat → BuddyNumaMemoryPool →
    BuddyNumaMemoryPool
  | 0, p => p
  | d + 1, p =>
      splitLoop unitIndex order d (addFreeChunkUnlocked p
        (unitIndex + orderUnits (order + d)) (order + d))

/-- `AllocUnlocked`; `none` is `MMS_ALLOC_FAIL`. -/
def allocUnlocked (p : BuddyNumaMemoryPool) (order : Nat) :
    Option (BuddyNumaMemoryPool × Nat) :=
  (popLoop p (p.mMaxOrder + 1 - order) order).map fun r =>
    let p := splitLoop r.2.1 order (r.2.2 - order) r.1
    ({ p with header := Function.update p.header r.2.1 (headerOf p order) },
     r.2.1)

/-- `Alloc`. -/
def alloc (p : BuddyNumaMemoryPool) (order : Nat) :
    Except BResult (BuddyNumaMemoryPool × Nat) :=
  if order > p.mMaxOrder ∨ order > buddyMaxOrder then .error .allocFail
  else
    match allocUnlocked p order with
    | some r => .ok r
    | none => .error .allocFail

/-- The loop of `AllocBatch`: the blocks it gets, at most so many. -/
def allocBatchLoop (order : Nat) : Nat → BuddyNumaMemoryPool →
    BuddyNumaMemoryPool × List Nat
  | 0, p => (p, [])
  | count + 1, p =>
      match allocUnlocked p order with
      | none => (p, [])
      | some (p, unitIndex) =>
          let r := allocBatchLoop order count p
          (r.1, unitIndex :: r.2)

/-- `AllocBatch`. -/
def allocBatch (p : BuddyNumaMemoryPool) (order requestCount : Nat) :
    Except BResult (BuddyNumaMemoryPool × List Nat) :=
  if requestCount = 0 then .error .invalidParam
  else if order > p.mMaxOrder ∨ order > buddyMaxOrder then .error .allocFail
  else
    let r := allocBatchLoop order requestCount p
    if r.2 = [] then .error .allocFail else .ok r

/-! ## Free -/

/-- The merging of `FreeUnlocked`: the unit and the order of the chunk it ends
    with. -/
def mergeLoop : Nat → BuddyNumaMemoryPool → Nat → Nat →
    BuddyNumaMemoryPool × Nat × Nat
  | 0, p, unitIndex, order => (p, unitIndex, order)
  | fuel + 1, p, unitIndex, order =>
      let buddyUnitIndex := unitIndex ^^^ orderUnits order
      if buddyUnitIndex + orderUnits order > p.mUnitCount then
        (p, unitIndex, order)
      else
        match removeFreeChunkUnlocked p buddyUnitIndex order with
        | none => (p, unitIndex, order)
        | some p => mergeLoop fuel p (min unitIndex buddyUnitIndex) (order + 1)

/-- `FreeUnlocked`. -/
def freeUnlocked (p : BuddyNumaMemoryPool) (unitIndex : Nat) :
    BuddyNumaMemoryPool :=
  let order := (p.header unitIndex).order
  let r := mergeLoop (p.mMaxOrder - order) p unitIndex order
  addFreeChunkUnlocked r.1 r.2.1 r.2.2

/-- `Free`. -/
def free (p : BuddyNumaMemoryPool) (unitIndex : Nat) :
    Except BResult BuddyNumaMemoryPool :=
  let order := (p.header unitIndex).order
  if order > p.mMaxOrder ∨ order > buddyMaxOrder then .error .err
  else .ok (freeUnlocked p unitIndex)

/-- `FreeBatch`. -/
def freeBatch (p : BuddyNumaMemoryPool) (order : Nat) (blocks : List Nat) :
    Except BResult BuddyNumaMemoryPool :=
  if order > p.mMaxOrder ∨ order > buddyMaxOrder ∨ blocks = [] then
    .error .invalidParam
  else if blocks.any fun u => (p.header u).order != order ||
      (p.header u).numaId != p.mNumaId then
    .error .invalidParam
  else .ok (blocks.foldl freeUnlocked p)

/-! ## The pool as a state machine -/

/-- The pool and the blocks its users hold. -/
structure Sys where
  pool : BuddyNumaMemoryPool
  live : List Block

inductive Op where
  | alloc (order : Nat)
  | allocBatch (order requestCount : Nat)
  | free (unitIndex : Nat)
  | freeBatch (order : Nat) (blocks : List Nat)
  /-- A user stores into a block it holds: into the node of one of its units,
      and into the header there unless it is the block's own. -/
  | store (unitIndex : Nat) (prev next : Option Nat) (header : BlockHeader)
deriving DecidableEq, Repr

/-- What the users promise: they free and write only blocks they hold. -/
def Allowed (s : Sys) : Op → Prop
  | .alloc _ => True
  | .allocBatch _ _ => True
  | .free unitIndex => unitIndex ∈ s.live.map (·.unit)
  | .freeBatch _ blocks => blocks.Nodup ∧ ∀ u ∈ blocks, u ∈ s.live.map (·.unit)
  | .store unitIndex _ _ _ => ∃ b ∈ s.live, b.seg.Has unitIndex

instance (s : Sys) : (op : Op) → Decidable (Allowed s op)
  | .alloc _ => inferInstanceAs (Decidable True)
  | .allocBatch _ _ => inferInstanceAs (Decidable True)
  | .free unitIndex =>
      inferInstanceAs (Decidable (unitIndex ∈ s.live.map (·.unit)))
  | .freeBatch _ blocks =>
      inferInstanceAs (Decidable
        (blocks.Nodup ∧ ∀ u ∈ blocks, u ∈ s.live.map (·.unit)))
  | .store unitIndex _ _ _ =>
      inferInstanceAs (Decidable (∃ b ∈ s.live, b.seg.Has unitIndex))

/-- The memory after a user's store. -/
def storeAt (s : Sys) (unitIndex : Nat) (prev next : Option Nat)
    (header : BlockHeader) : BuddyNumaMemoryPool :=
  { s.pool with
    node := ⟨Function.update s.pool.node.prev unitIndex prev,
      Function.update s.pool.node.next unitIndex next⟩
    header :=
      if unitIndex ∈ s.live.map (·.unit) then s.pool.header
      else Function.update s.pool.header unitIndex header }

/-- One call; a call that returns an error changes nothing. -/
def step (s : Sys) (op : Op) : Option Sys :=
  if Allowed s op then
    match op with
    | .alloc order =>
        match alloc s.pool order with
        | .ok (p, u) => some ⟨p, ⟨u, order⟩ :: s.live⟩
        | .error _ => some s
    | .allocBatch order requestCount =>
        match allocBatch s.pool order requestCount with
        | .ok (p, us) => some ⟨p, us.map (⟨·, order⟩) ++ s.live⟩
        | .error _ => some s
    | .free unitIndex =>
        match free s.pool unitIndex with
        | .ok p => some ⟨p, s.live.filter (·.unit != unitIndex)⟩
        | .error _ => some s
    | .freeBatch order blocks =>
        match freeBatch s.pool order blocks with
        | .ok p => some ⟨p, s.live.filter (·.unit ∉ blocks)⟩
        | .error _ => some s
    | .store unitIndex prev next header =>
        some ⟨storeAt s unitIndex prev next header, s.live⟩
  else none

end UbsIo.Buddy
