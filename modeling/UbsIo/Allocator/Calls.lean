import UbsIo.Allocator.Model

/-! # The calls of the allocator

    `Initialize`, `MmsAlloc`, `MmsAllocPreferNuma` and `MmsFree` in buddy mode,
    for a program of one thread.  A call that fails may have changed the state:
    it comes with the state it leaves. -/

namespace UbsIo.Allocator

open UbsIo.Lib UbsIo.Buddy

structure MmsMemAllocator where
  /-- `mNumaId` up to `mNumaNum`. -/
  mNumaId : List Nat
  mNumaIndex : Nat
  mBuddyUnitSize : Nat
  mBuddyMaxAllocSize : Nat
  mBuddyNumaPool : BuddyNumaPoolManager
  /-- `threadCache[mArea]` of the thread. -/
  threadCache : ThreadCache

/-- `UpdateNumaId`: an area that the allocator does not have is replaced by
    one it has, in turn. -/
def updateNumaId (a : MmsMemAllocator) (numaId : Nat) :
    MmsMemAllocator × Nat :=
  if numaId ∈ a.mNumaId then (a, numaId)
  else
    ({ a with mNumaIndex := (a.mNumaIndex + 1) % 2 ^ 16 },
      a.mNumaId.getD (a.mNumaIndex % a.mNumaId.length) 0)

/-! ## Initialize -/

structure MemAllocOptions where
  /-- `numaId` and `numaSize`. -/
  numas : List (Nat × Nat)
  blockSize : List Nat

/-- The loop that doubles `orderUnits`; 64 bits are doubled at most 63
    times. -/
def orderUnitsLoop (unitCount : Nat) : Nat → Nat → Nat
  | 0, orderUnits => orderUnits
  | fuel + 1, orderUnits =>
      if orderUnits ≤ uint64Max >>> 1 ∧ orderUnits <<< 1 ≤ unitCount then
        orderUnitsLoop unitCount fuel (orderUnits <<< 1)
      else orderUnits

/-- The loop of `CalculateBuddyMaxAllocSize` over the areas. -/
def maxAllocSizeLoop (unitSize : Nat) : List (Nat × Nat) → Nat → Nat
  | [], maxSize => maxSize
  | (_, numaSize) :: numas, maxSize =>
      if numaSize / unitSize = 0 then maxAllocSizeLoop unitSize numas maxSize
      else
        maxAllocSizeLoop unitSize numas (max maxSize
          (unitSize * orderUnitsLoop (numaSize / unitSize) 64 1 -
            sizeofBlockHeader))

/-- `CreatNumaMemPool`, on a memory that holds anything; an error is
    `nullptr`. -/
def creatNumaMemPool (m : BuddyNumaPoolManager)
    (numaId size baseBlockSize : Nat) (header : Nat → BlockHeader)
    (node : Links Nat) : Except BResult BuddyNumaPoolManager :=
  match m.mNumaPools numaId with
  | some _ => .error .err
  | none =>
      match Buddy.start numaId size baseBlockSize header node with
      | .error _ => .error .err
      | .ok p => .ok { setPool m numaId p with order := m.order ++ [numaId] }

/-- The loop of `InitBuddyMemPools`. -/
def initPoolsLoop (baseBlockSize : Nat) (header : Nat → Nat → BlockHeader)
    (node : Nat → Links Nat) : List (Nat × Nat) → BuddyNumaPoolManager →
    Except BResult BuddyNumaPoolManager
  | [], m => .ok m
  | (numaId, size) :: numas, m =>
      match creatNumaMemPool m numaId size baseBlockSize (header numaId)
        (node numaId) with
      | .ok m => initPoolsLoop baseBlockSize header node numas m
      | .error e => .error e

/-- A thread cache as the constructor makes it, for a thread that starts on
    the NUMA node. -/
def newThreadCache (numaId : Nat) : ThreadCache :=
  { mBuddyCaches := fun _ => []
    mNumaId := numaId
    mHomeNumaId := numaId
    mNumaFallbackCount := 0
    mNumaFallbackId := invalidNumaPoolId
    mNumaReprobeCount := 0 }

/-- `Initialize`, in buddy mode, and the construction of the thread's cache:
    `order` is how the map will visit the pools, `cpuNumaNode` the node the
    thread runs on. -/
def initializeBuddy (options : MemAllocOptions) (header : Nat → Nat → BlockHeader)
    (node : Nat → Links Nat) (order : List Nat) (cpuNumaNode : Nat) :
    Except BResult MmsMemAllocator :=
  match options.blockSize with
  | [] => .error .invalidParam
  | baseBlockSize :: _ =>
      let unitSize := baseBlockSize + sizeofBlockHeader
      let maxSize := maxAllocSizeLoop unitSize options.numas 0
      if baseBlockSize = 0 ∨ maxSize = 0 then .error .invalidParam
      else
        match initPoolsLoop baseBlockSize header node options.numas
          ⟨fun _ => none, []⟩ with
        | .error e => .error e
        | .ok m =>
            let a : MmsMemAllocator :=
              { mNumaId := options.numas.map (·.1)
                mNumaIndex := 0
                mBuddyUnitSize := unitSize
                mBuddyMaxAllocSize := maxSize
                mBuddyNumaPool := { m with order := order }
                threadCache := newThreadCache 0 }
            let r := updateNumaId a cpuNumaNode
            .ok { r.1 with threadCache := newThreadCache r.2 }

/-! ## Blocks go back to the pools -/

/-- The second loop of `ReturnBatchBuddyBlocksToPool`; the blocks of an area
    are chosen by the headers the call found (`m₀`), and `CreatNumaMemPool`
    sees to it that no area is listed twice. -/
def returnLoop (m₀ : BuddyNumaPoolManager) (order : Nat)
    (blockAddrs : List Addr) : List Nat → BuddyNumaPoolManager →
    BuddyNumaPoolManager × BResult
  | [], m => (m, .ok)
  | numaId :: ids, m =>
      let numaBlocks :=
        blockAddrs.filter fun a => (headerAt m₀ a).numaId == numaId
      if numaBlocks = [] then returnLoop m₀ order blockAddrs ids m
      else
        match freeBatchToPool m numaId order numaBlocks with
        | .ok m => returnLoop m₀ order blockAddrs ids m
        | .error e => (m, e)

/-- `ReturnBatchBuddyBlocksToPool`. -/
def returnBatchBuddyBlocksToPool (a : MmsMemAllocator)
    (blockAddrs : List Addr) : MmsMemAllocator × BResult :=
  match blockAddrs with
  | [] => (a, .ok)
  | first :: _ =>
      if blockAddrs.length > buddyCacheLimitPerThread then (a, .invalidParam)
      else
        let m := a.mBuddyNumaPool
        let order := (headerAt m first).order
        if blockAddrs.any fun b => (headerAt m b).numaId ∉ a.mNumaId ||
            (headerAt m b).order != order then (a, .invalidParam)
        else
          let r := returnLoop m order blockAddrs a.mNumaId m
          ({ a with mBuddyNumaPool := r.1 }, r.2)

/-- The innermost loop of `FlushBuddyCaches`, on the list of one place. -/
def flushPlace (place : Nat × Nat) : Nat → MmsMemAllocator →
    MmsMemAllocator × BResult
  | 0, a => (a, .ok)
  | fuel + 1, a =>
      if a.threadCache.mBuddyCaches place = [] then (a, .ok)
      else
        let r := getBatchBuddyBlocksFromCachePreferNuma a.threadCache place.2
          place.1 buddyCacheLimitPerThread
        let q := returnBatchBuddyBlocksToPool { a with threadCache := r.1 } r.2
        if q.2 ≠ .ok then q else flushPlace place fuel q.1

/-- The outer loops of `FlushBuddyCaches`; every round empties a list by at
    least one block. -/
def flushLoop : List (Nat × Nat) → MmsMemAllocator →
    MmsMemAllocator × BResult
  | [], a => (a, .ok)
  | place :: places, a =>
      let r := flushPlace place
        ((a.threadCache.mBuddyCaches place).length + 1) a
      if r.2 ≠ .ok then r else flushLoop places r.1

/-- `FlushBuddyCaches`. -/
def flushBuddyCaches (a : MmsMemAllocator) : MmsMemAllocator × BResult :=
  flushLoop cachePlaces a

/-! ## MmsAlloc -/

/-- `__builtin_clzll` of a number that is not 0. -/
def clzll (value : Nat) : Nat := 63 - Nat.log2 value

def ceilLog2 (value : Nat) : Nat :=
  if value ≤ 1 then 0 else 64 - clzll (value - 1)

/-- The order of a block for a size: the smallest one whose units hold the
    size and a header. -/
def orderFor (a : MmsMemAllocator) (size : Nat) : Nat :=
  ceilLog2 ((size + sizeofBlockHeader - 1) / a.mBuddyUnitSize + 1)

/-- `GetBuddyAllocOrder`. -/
def getBuddyAllocOrder (a : MmsMemAllocator) (size : Nat) :
    Except BResult Nat :=
  if size > a.mBuddyMaxAllocSize then .error .allocFail
  else if a.mBuddyUnitSize = 0 ∨ size > uint64Max - sizeofBlockHeader then
    .error .allocFail
  else .ok (orderFor a size)

/-- `BuddyAllocFromPool`, with the area the block is from. -/
def buddyAllocFromPool (m : BuddyNumaPoolManager) (preferNumaId order : Nat) :
    Except BResult (BuddyNumaPoolManager × Nat × Addr) :=
  match allocFromPool m preferNumaId order with
  | .ok (m, b) => .ok (m, preferNumaId, b)
  | .error _ => allocFromOtherPool m preferNumaId order

/-- What `BuddyAllocFromPool` leaves of the allocator. -/
def directAlloc (a : MmsMemAllocator) (preferNumaId order : Nat) :
    MmsMemAllocator × Except BResult (Nat × Addr) :=
  match buddyAllocFromPool a.mBuddyNumaPool preferNumaId order with
  | .ok (m, r) => ({ a with mBuddyNumaPool := m }, .ok r)
  | .error e => (a, .error e)

/-- `BuddyAllocFromPool` followed by `RecordAllocNumaId` when it succeeds. -/
def recordedAlloc (a : MmsMemAllocator) (preferNumaId order : Nat) :
    MmsMemAllocator × Except BResult (Nat × Addr) :=
  match buddyAllocFromPool a.mBuddyNumaPool preferNumaId order with
  | .ok (m, r) =>
      ({ a with
        mBuddyNumaPool := m
        threadCache := recordAllocNumaId a.threadCache preferNumaId r.1 },
        .ok r)
  | .error e => (a, .error e)

/-- `FlushBuddyCaches`, and the allocation after it. -/
def flushAndAlloc (a : MmsMemAllocator) (preferNumaId order : Nat) :
    MmsMemAllocator × Except BResult (Nat × Addr) :=
  let r := flushBuddyCaches a
  if r.2 ≠ .ok then (r.1, .error r.2)
  else recordedAlloc r.1 preferNumaId order

/-- `BuddyAllocFromThreadCacheMiss`. -/
def buddyAllocFromThreadCacheMiss (a : MmsMemAllocator)
    (order numaId : Nat) : MmsMemAllocator × Except BResult (Nat × Addr) :=
  let r := buddyAllocBatchFromPool a.mBuddyNumaPool numaId order
    buddyCacheRefillCount
  let a := { a with mBuddyNumaPool := r.1 }
  match r.2.getLast? with
  | some b =>
      let blocks := r.2.dropLast
      let allocNumaId := (headerAt r.1 b).numaId
      match addBatchBuddyBlocksToCache r.1 a.threadCache order blocks with
      | .ok c =>
          ({ a with threadCache := recordAllocNumaId c numaId allocNumaId },
            .ok (allocNumaId, b))
      | .error _ =>
          let q := returnBatchBuddyBlocksToPool a blocks
          if q.2 ≠ .ok then (q.1, .error q.2) else (q.1, .ok (allocNumaId, b))
  | none => flushAndAlloc a numaId order

/-- `BuddyAllocDirect`. -/
def buddyAllocDirect (a : MmsMemAllocator) (order numaId : Nat) :
    MmsMemAllocator × Except BResult (Nat × Addr) :=
  match recordedAlloc a numaId order with
  | (a, .ok r) => (a, .ok r)
  | (a, .error _) => flushAndAlloc a numaId order

/-- A block of the cache is handed out. -/
def takeCached (a : MmsMemAllocator) (c : ThreadCache) (b : Addr) :
    MmsMemAllocator × Except BResult (Nat × Addr) :=
  ({ a with threadCache := c },
    .ok ((headerAt a.mBuddyNumaPool b).numaId, b))

/-- `MmsAlloc` and `BuddyAlloc`. -/
def mmsAlloc (a : MmsMemAllocator) (size : Nat) :
    MmsMemAllocator × Except BResult (Nat × Addr) :=
  match getBuddyAllocOrder a size with
  | .error e => (a, .error e)
  | .ok order =>
      match (if order ≤ buddyThreadCacheMaxOrder then
        getOneBuddyBlockFromCache a.threadCache order else none) with
      | some (c, b) => takeCached a c b
      | none =>
          let r := getAllocNumaId a.threadCache
          let a := { a with threadCache := r.1 }
          if order ≤ buddyThreadCacheMaxOrder then
            buddyAllocFromThreadCacheMiss a order r.2
          else buddyAllocDirect a order r.2

/-- `BuddyAllocPreferNuma`. -/
def buddyAllocPreferNuma (a : MmsMemAllocator) (size preferNumaId : Nat) :
    MmsMemAllocator × Except BResult (Nat × Addr) :=
  match getBuddyAllocOrder a size with
  | .error e => (a, .error e)
  | .ok order =>
      match (if order ≤ buddyThreadCacheMaxOrder then
        getOneBuddyBlockFromCachePreferNuma a.threadCache order preferNumaId
          else none) with
      | some (c, b) => takeCached a c b
      | none =>
          if order ≤ buddyThreadCacheMaxOrder then
            buddyAllocFromThreadCacheMiss a order preferNumaId
          else directAlloc a preferNumaId order

/-- `MmsAllocPreferNuma`. -/
def mmsAllocPreferNuma (a : MmsMemAllocator) (size preferNumaId : Nat) :
    MmsMemAllocator × Except BResult (Nat × Addr) :=
  let r := updateNumaId a preferNumaId
  buddyAllocPreferNuma r.1 size r.2

/-! ## MmsFree -/

/-- `BuddyFree`. -/
def buddyFree (a : MmsMemAllocator) (b : Addr) : MmsMemAllocator × BResult :=
  match freeToPool a.mBuddyNumaPool (headerAt a.mBuddyNumaPool b).numaId b with
  | .ok m => ({ a with mBuddyNumaPool := m }, .ok)
  | .error e => (a, e)

/-- `MmsFree` and `BuddyFreeToThreadCache`. -/
def mmsFree (a : MmsMemAllocator) (b : Addr) : MmsMemAllocator × BResult :=
  let header := headerAt a.mBuddyNumaPool b
  if header.order > buddyThreadCacheMaxOrder then buddyFree a b
  else
    match addOneBuddyBlockToCache a.mBuddyNumaPool a.threadCache header.order b
      with
    | .ok c => ({ a with threadCache := c }, .ok)
    | .error _ =>
        let r := getBatchBuddyBlocksFromCachePreferNuma a.threadCache
          header.order header.numaId buddyCacheDrainCount
        let q := returnBatchBuddyBlocksToPool { a with threadCache := r.1 } r.2
        if q.2 ≠ .ok then q
        else
          match addOneBuddyBlockToCache q.1.mBuddyNumaPool q.1.threadCache
            header.order b with
          | .ok c => ({ q.1 with threadCache := c }, .ok)
          | .error _ => buddyFree q.1 b

/-! ## The program's thread -/

/-- A block of an area that is not free in its pool. -/
structure Held where
  addr : Addr
  order : Nat
deriving DecidableEq, Repr

def Held.block (h : Held) : Block := ⟨h.addr.unit, h.order⟩

/-- The blocks of an area. -/
def blocksOf (numaId : Nat) (held : List Held) : List Block :=
  (held.filter fun h => h.addr.area == numaId).map Held.block

/-- The blocks in the lists of the cache. -/
def cached (c : ThreadCache) : List Held :=
  cachePlaces.flatMap fun place =>
    (c.mBuddyCaches place).map fun b => ⟨b, place.2⟩

/-- The allocator and the blocks the thread has been given. -/
structure Sys where
  mem : MmsMemAllocator
  live : List Held

inductive Op where
  | alloc (size : Nat)
  | allocPreferNuma (size preferNumaId : Nat)
  | free (b : Addr)
  /-- The thread stores into a block it has been given: into the node of one of
      its units, and into the header there unless it is a block's own. -/
  | store (area unit : Nat) (prev next : Option Nat) (header : BlockHeader)
deriving DecidableEq, Repr

/-- The blocks that are not free in the pools. -/
def heldBlocks (s : Sys) : List Held := s.live ++ cached s.mem.threadCache

/-- What the thread promises: it frees and writes only blocks it has. -/
def Allowed (s : Sys) : Op → Prop
  | .alloc _ => True
  | .allocPreferNuma _ _ => True
  | .free b => b ∈ s.live.map (·.addr)
  | .store area unit _ _ _ => ∃ b ∈ blocksOf area s.live, b.seg.Has unit

instance (s : Sys) : (op : Op) → Decidable (Allowed s op)
  | .alloc _ => inferInstanceAs (Decidable True)
  | .allocPreferNuma _ _ => inferInstanceAs (Decidable True)
  | .free b => inferInstanceAs (Decidable (b ∈ s.live.map (·.addr)))
  | .store area unit _ _ _ =>
      inferInstanceAs (Decidable (∃ b ∈ blocksOf area s.live, b.seg.Has unit))

/-- The block of a successful allocation is the thread's. -/
def given (s : Sys) (size : Nat)
    (r : MmsMemAllocator × Except BResult (Nat × Addr)) : Sys :=
  match r.2 with
  | .ok (_, b) => ⟨r.1, ⟨b, orderFor s.mem size⟩ :: s.live⟩
  | .error _ => ⟨r.1, s.live⟩

/-- The memory after a store of the thread. -/
def storeAt (s : Sys) (area unit : Nat) (prev next : Option Nat)
    (header : BlockHeader) : Sys :=
  match s.mem.mBuddyNumaPool.mNumaPools area with
  | none => s
  | some p =>
      let p := Buddy.storeAt ⟨p, blocksOf area (heldBlocks s)⟩ unit prev next
        header
      { s with
        mem := { s.mem with mBuddyNumaPool := setPool s.mem.mBuddyNumaPool area p } }

/-- One call of the thread, or one of its stores. -/
def step (s : Sys) (op : Op) : Option Sys :=
  if Allowed s op then
    match op with
    | .alloc size => some (given s size (mmsAlloc s.mem size))
    | .allocPreferNuma size preferNumaId =>
        some (given s size (mmsAllocPreferNuma s.mem size preferNumaId))
    | .free b =>
        let r := mmsFree s.mem b
        some ⟨r.1, if r.2 = .ok then s.live.filter (·.addr != b) else s.live⟩
    | .store area unit prev next header =>
        some (storeAt s area unit prev next header)
  else none

end UbsIo.Allocator
