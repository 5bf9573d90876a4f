import UbsIo.Buddy.Reachable

/-! # The allocator in buddy mode

    `MmsMemAllocator` of `mms_mem_allocator.cpp` with the one `ThreadCache` of
    the calling thread: a buddy pool for every NUMA area, and for each NUMA
    area and small order a list of freed blocks that the thread keeps for
    itself.  A block is cached when it is freed, and taken from the cache, from
    a batch of a pool, or from a pool alone when it is allocated.

    An address is an area and a unit of it.  Every area belongs to one pool,
    and the headers read here are the ones the pool of the area wrote.
    `std::unordered_map` visits the pools in an order of its own, `order`
    here. -/

namespace UbsIo.Allocator

open UbsIo.Lib UbsIo.Buddy

/-- `MAX_NUMAS_NUM`. -/
def maxNumasNum : Nat := 4

/-- `BUDDY_CACHE_LIMIT_PER_THREAD`. -/
def buddyCacheLimitPerThread : Nat := 64

/-- `BUDDY_CACHE_REFILL_COUNT`. -/
def buddyCacheRefillCount : Nat := 64

/-- `BUDDY_CACHE_DRAIN_COUNT`. -/
def buddyCacheDrainCount : Nat := 32

/-- `BUDDY_THREAD_CACHE_MAX_ORDER`. -/
def buddyThreadCacheMaxOrder : Nat := 4

/-- `NUMA_POOL_SWITCH_THRESHOLD`. -/
def numaPoolSwitchThreshold : Nat := 3

/-- `NUMA_POOL_REPROBE_INTERVAL`. -/
def numaPoolReprobeInterval : Nat := 256

/-- `INVALID_NUMA_POOL_ID`. -/
def invalidNumaPoolId : Nat := 65535

/-- `UINT64_MAX`. -/
def uint64Max : Nat := 2 ^ 64 - 1

/-- The results of the allocator. -/
inductive BResult where
  | ok
  | invalidParam
  | allocFail
  | err
  | notExists
  | innerRetry
deriving DecidableEq, Repr

/-- What a pool answers when it refuses a call. -/
def poolError : Buddy.BResult → BResult
  | .invalidParam => .invalidParam
  | .allocFail => .allocFail
  | .err => .err

/-- A block address: the NUMA area and the unit the block starts at. -/
structure Addr where
  area : Nat
  unit : Nat
deriving DecidableEq, Repr

/-! ## The pools -/

/-- `BuddyNumaPoolManager`. -/
structure BuddyNumaPoolManager where
  mNumaPools : Nat → Option BuddyNumaMemoryPool
  /-- The order in which the map visits its keys. -/
  order : List Nat

/-- The pool of an area is changed. -/
def setPool (m : BuddyNumaPoolManager) (numaId : Nat)
    (p : BuddyNumaMemoryPool) : BuddyNumaPoolManager :=
  { m with mNumaPools := Function.update m.mNumaPools numaId (some p) }

/-- `reinterpret_cast<BlockHeader *>(blockAddr - sizeof(BlockHeader))`. -/
def headerAt (m : BuddyNumaPoolManager) (a : Addr) : BlockHeader :=
  match m.mNumaPools a.area with
  | some p => p.header a.unit
  | none => ⟨a.area, 0, 0⟩

/-- `AllocFromPool`. -/
def allocFromPool (m : BuddyNumaPoolManager) (numaId order : Nat) :
    Except BResult (BuddyNumaPoolManager × Addr) :=
  match m.mNumaPools numaId with
  | none => .error .notExists
  | some p =>
      match Buddy.alloc p order with
      | .ok (p, u) => .ok (setPool m numaId p, ⟨numaId, u⟩)
      | .error e => .error (poolError e)

/-- The loop of `AllocFromOtherPool`, with the area the block is from. -/
def otherPoolLoop (m : BuddyNumaPoolManager) (numaId order : Nat) :
    List Nat → Except BResult (BuddyNumaPoolManager × Nat × Addr)
  | [] => .error .allocFail
  | n :: ns =>
      if n = numaId then otherPoolLoop m numaId order ns
      else
        match allocFromPool m n order with
        | .ok (m, a) => .ok (m, n, a)
        | .error _ => otherPoolLoop m numaId order ns

/-- `AllocFromOtherPool`. -/
def allocFromOtherPool (m : BuddyNumaPoolManager) (numaId order : Nat) :
    Except BResult (BuddyNumaPoolManager × Nat × Addr) :=
  otherPoolLoop m numaId order m.order

/-- `AllocBatchFromPool`; an error comes with no block. -/
def allocBatchFromPool (m : BuddyNumaPoolManager)
    (numaId order requestCount : Nat) :
    Except BResult (BuddyNumaPoolManager × List Addr) :=
  match m.mNumaPools numaId with
  | none => .error .notExists
  | some p =>
      match Buddy.allocBatch p order requestCount with
      | .ok (p, us) => .ok (setPool m numaId p, us.map (⟨numaId, ·⟩))
      | .error e => .error (poolError e)

/-- The loop of `AllocBatchFromOtherPool`: the blocks it gets, with
    `requestCount` still wanted. -/
def otherBatchLoop (numaId order : Nat) : List Nat → Nat →
    BuddyNumaPoolManager → BuddyNumaPoolManager × List Addr
  | [], _, m => (m, [])
  | n :: ns, requestCount, m =>
      if requestCount = 0 then (m, [])
      else if n = numaId then otherBatchLoop numaId order ns requestCount m
      else
        match allocBatchFromPool m n order requestCount with
        | .ok (m, as) =>
            let r := otherBatchLoop numaId order ns (requestCount - as.length) m
            (r.1, as ++ r.2)
        | .error .allocFail =>
            otherBatchLoop numaId order ns requestCount m
        | .error _ => (m, [])

/-- `BuddyAllocBatchFromPool`: its caller reads the blocks only. -/
def buddyAllocBatchFromPool (m : BuddyNumaPoolManager)
    (preferNumaId order requestCount : Nat) :
    BuddyNumaPoolManager × List Addr :=
  match allocBatchFromPool m preferNumaId order requestCount with
  | .ok (m, as) =>
      if as.length = requestCount then (m, as)
      else
        let r := otherBatchLoop preferNumaId order m.order
          (requestCount - as.length) m
        (r.1, as ++ r.2)
  | .error .allocFail =>
      otherBatchLoop preferNumaId order m.order requestCount m
  | .error .notExists =>
      otherBatchLoop preferNumaId order m.order requestCount m
  | .error _ => (m, [])

/-- `FreeToPool`. -/
def freeToPool (m : BuddyNumaPoolManager) (numaId : Nat) (a : Addr) :
    Except BResult BuddyNumaPoolManager :=
  match m.mNumaPools numaId with
  | none => .error .notExists
  | some p =>
      match Buddy.free p a.unit with
      | .ok p => .ok (setPool m numaId p)
      | .error e => .error (poolError e)

/-- `FreeBatchToPool`. -/
def freeBatchToPool (m : BuddyNumaPoolManager) (numaId order : Nat)
    (blockAddrs : List Addr) : Except BResult BuddyNumaPoolManager :=
  match m.mNumaPools numaId with
  | none => .error .notExists
  | some p =>
      match Buddy.freeBatch p order (blockAddrs.map (·.unit)) with
      | .ok p => .ok (setPool m numaId p)
      | .error e => .error (poolError e)

/-! ## The thread cache -/

/-- `ThreadCache`, with the lists by area and order; the back of a vector is
    the end of its list. -/
structure ThreadCache where
  mBuddyCaches : Nat × Nat → List Addr
  mNumaId : Nat
  mHomeNumaId : Nat
  mNumaFallbackCount : Nat
  mNumaFallbackId : Nat
  mNumaReprobeCount : Nat

/-- The places of `mBuddyCaches` in the order `FlushBuddyCaches` visits
    them. -/
def cachePlaces : List (Nat × Nat) :=
  (List.range (buddyThreadCacheMaxOrder + 1)).flatMap fun order =>
    (List.range maxNumasNum).map fun numaId => (numaId, order)

def setCache (c : ThreadCache) (place : Nat × Nat) (blocks : List Addr) :
    ThreadCache :=
  { c with mBuddyCaches := Function.update c.mBuddyCaches place blocks }

def getCacheNumaId (c : ThreadCache) (numaId : Nat) : Nat :=
  if numaId < maxNumasNum then numaId else c.mNumaId

/-- `PopBlock` on the list of a place. -/
def popBlock (c : ThreadCache) (place : Nat × Nat) :
    Option (ThreadCache × Addr) :=
  (c.mBuddyCaches place).getLast?.map fun a =>
    (setCache c place (c.mBuddyCaches place).dropLast, a)

/-- `GetOneBuddyBlockFromCache`. -/
def getOneBuddyBlockFromCache (c : ThreadCache) (order : Nat) :
    Option (ThreadCache × Addr) :=
  if order > buddyThreadCacheMaxOrder then none
  else
    match popBlock c (getCacheNumaId c c.mNumaId, order) with
    | some r => some r
    | none =>
        (List.range maxNumasNum).findSome? fun numaId =>
          if numaId = c.mNumaId then none else popBlock c (numaId, order)

/-- `GetOneBuddyBlockFromCachePreferNuma`. -/
def getOneBuddyBlockFromCachePreferNuma (c : ThreadCache)
    (order preferNumaId : Nat) : Option (ThreadCache × Addr) :=
  if order > buddyThreadCacheMaxOrder then none
  else popBlock c (getCacheNumaId c preferNumaId, order)

/-- The place of a block of an order. -/
def placeOf (m : BuddyNumaPoolManager) (c : ThreadCache) (order : Nat)
    (a : Addr) : Nat × Nat :=
  (getCacheNumaId c (headerAt m a).numaId, order)

/-- `emplace_back` to the list of the block's place. -/
def pushBlock (m : BuddyNumaPoolManager) (order : Nat) (c : ThreadCache)
    (a : Addr) : ThreadCache :=
  setCache c (placeOf m c order a)
    (c.mBuddyCaches (placeOf m c order a) ++ [a])

/-- `AddOneBuddyBlockToCache`. -/
def addOneBuddyBlockToCache (m : BuddyNumaPoolManager) (c : ThreadCache)
    (order : Nat) (a : Addr) : Except BResult ThreadCache :=
  if order > buddyThreadCacheMaxOrder then .error .invalidParam
  else if (c.mBuddyCaches (placeOf m c order a)).length ≥
      buddyCacheLimitPerThread then .error .innerRetry
  else .ok (pushBlock m order c a)

/-- `AddBatchBuddyBlocksToCache`. -/
def addBatchBuddyBlocksToCache (m : BuddyNumaPoolManager) (c : ThreadCache)
    (order : Nat) (blockAddrs : List Addr) : Except BResult ThreadCache :=
  if order > buddyThreadCacheMaxOrder then .error .invalidParam
  else
    let numaCounts := fun numaId => blockAddrs.countP fun a =>
      getCacheNumaId c (headerAt m a).numaId == numaId
    if (List.range maxNumasNum).any fun numaId => numaCounts numaId != 0 &&
        decide ((c.mBuddyCaches (numaId, order)).length + numaCounts numaId >
          buddyCacheLimitPerThread) then .error .innerRetry
    else .ok (blockAddrs.foldl (pushBlock m order) c)

/-- `GetBatchBuddyBlocksFromCachePreferNuma`: the last blocks of a list. -/
def getBatchBuddyBlocksFromCachePreferNuma (c : ThreadCache)
    (order preferNumaId count : Nat) : ThreadCache × List Addr :=
  if order > buddyThreadCacheMaxOrder then (c, [])
  else
    let place := (getCacheNumaId c preferNumaId, order)
    let blocks := c.mBuddyCaches place
    let realCount := min count blocks.length
    (setCache c place (blocks.take (blocks.length - realCount)),
      blocks.drop (blocks.length - realCount))

def getAllocNumaId (c : ThreadCache) : ThreadCache × Nat :=
  if c.mNumaId = c.mHomeNumaId then (c, c.mNumaId)
  else if c.mNumaReprobeCount + 1 < numaPoolReprobeInterval then
    ({ c with mNumaReprobeCount := c.mNumaReprobeCount + 1 }, c.mNumaId)
  else ({ c with mNumaReprobeCount := 0 }, c.mHomeNumaId)

def recordAllocNumaId (c : ThreadCache) (preferNumaId allocNumaId : Nat) :
    ThreadCache :=
  if c.mNumaId ≠ c.mHomeNumaId ∧ preferNumaId = c.mHomeNumaId then
    if allocNumaId = c.mHomeNumaId then
      { c with
        mNumaId := c.mHomeNumaId
        mNumaFallbackCount := 0
        mNumaFallbackId := invalidNumaPoolId }
    else c
  else if allocNumaId = c.mNumaId then
    { c with mNumaFallbackCount := 0, mNumaFallbackId := invalidNumaPoolId }
  else
    let count :=
      (if c.mNumaFallbackId ≠ allocNumaId then 0 else c.mNumaFallbackCount) + 1
    if count < numaPoolSwitchThreshold then
      { c with mNumaFallbackCount := count, mNumaFallbackId := allocNumaId }
    else
      { c with
        mNumaId := allocNumaId
        mNumaFallbackCount := 0
        mNumaFallbackId := invalidNumaPoolId
        mNumaReprobeCount := 0 }

end UbsIo.Allocator
