import UbsIo.Allocator.Model
import UbsIo.Lib.FreeList
import UbsIo.Lib.Run

/-! # The allocator in fixed mode

    `MmsMemAllocator` of `mms_mem_allocator.cpp` with `ALLOC_MODE_FIXED`: every
    NUMA area is carved into blocks of a few sizes when the allocator starts,
    and the blocks of a size wait in a free list of the area's pool, whose
    links are in the blocks.  A thread keeps lists of blocks of its own, fills
    them half from a pool, and gives half of them back when they are full.

    Any number of threads call the allocator.  A list of a pool is locked for
    one `PopBatchBlocks` or `PushBatchBlocks`, so these are the steps of a
    call; all else a call does is the thread's own.  Blocks are known by their
    address, which is where their payload starts. -/

namespace UbsIo.Fixed

open UbsIo.Lib
open UbsIo.Buddy (BlockHeader sizeofBlockHeader)
open UbsIo.Allocator (maxNumasNum invalidNumaPoolId getCacheNumaId
  getAllocNumaId recordAllocNumaId)

/-- `MAX_BLOCK_NUM`. -/
def maxBlockNum : Nat := 4

/-- `CACHE_LIMIT_PER_THREAD`. -/
def cacheLimitPerThread : Nat := 128

/-- `FIXED_CACHE_BATCH_COUNT`. -/
def fixedCacheBatchCount : Nat := cacheLimitPerThread / 2

/-- `FIXED_BLOCK_ORDER`. -/
def fixedBlockOrder : Nat := 65535

/-- `sizeof(BlockNode)`. -/
def sizeofBlockNode : Nat := 8

/-- The failures of the allocator. -/
inductive BResult where
  | invalidParam
  | allocFail
  | err
  | notExists
  | innerRetry
  | innerErr
deriving DecidableEq, Repr

/-- What the blocks say: the header before an address and the node at it. -/
structure Memory where
  header : Nat → BlockHeader
  next : Nat → Option Nat

/-- `mNumaId`, `mNumaSize` and `mNumaAddress` of an area. -/
structure Numa where
  id : Nat
  size : Nat
  address : Nat
deriving DecidableEq, Repr

structure MemAllocOptions where
  numas : List Numa
  /-- `blockRate` and `blockSize`. -/
  blocks : List (Nat × Nat)

/-! ## The pools -/

/-- `NumaMemoryPool`: `mHead` of every list. -/
abbrev NumaMemoryPool := Nat → Option Nat

/-- `NumaPoolManager`. -/
structure NumaPoolManager where
  mNumaPools : Nat → Option NumaMemoryPool
  /-- The order in which the map visits its keys. -/
  order : List Nat

/-- The parts of the allocator that the threads share. -/
structure MmsMemAllocator where
  mNumaId : List Nat
  mBlockSize : List Nat
  mNumaIndex : Nat
  mNumaPool : NumaPoolManager
  mem : Memory

/-- The pointer to the first block of a list changes. -/
def setHead (m : NumaPoolManager) (numaId blockIndex : Nat)
    (pool : NumaMemoryPool) (head : Option Nat) : NumaPoolManager :=
  { m with
    mNumaPools := Function.update m.mNumaPools numaId
      (some (Function.update pool blockIndex head)) }

/-- `PopBatchBlocks` on a list of a pool, or nothing without the pool. -/
def getBatchBlocks (a : MmsMemAllocator) (numaId blockIndex : Nat) :
    MmsMemAllocator × List Nat :=
  match a.mNumaPool.mNumaPools numaId with
  | none => (a, [])
  | some pool =>
      let r := popMany a.mem.next fixedCacheBatchCount (pool blockIndex)
      ({ a with mNumaPool := setHead a.mNumaPool numaId blockIndex pool r.2 },
        r.1)

/-- `AddBatchBlocksToPool`. -/
def addBatchBlocksToPool (a : MmsMemAllocator) (numaId blockIndex : Nat)
    (blocks : List Nat) : Except BResult MmsMemAllocator :=
  match a.mNumaPool.mNumaPools numaId with
  | none => .error .notExists
  | some pool =>
      let r := pushMany (a.mem.next, pool blockIndex) blocks
      .ok { a with
        mem := { a.mem with next := r.1 }
        mNumaPool := setHead a.mNumaPool numaId blockIndex pool r.2 }

/-! ## Initialize -/

/-- A block of an area gets its header and is put into its list. -/
def addBlock (numaId blockSize : Nat) (r : Memory × Option Nat)
    (block : Nat) : Memory × Option Nat :=
  let p := pushOne (r.1.next, r.2) block
  (⟨Function.update r.1.header block ⟨numaId, fixedBlockOrder, blockSize⟩,
    p.1⟩, p.2)

/-- The addresses of `blockCount` blocks that lie one after another. -/
def blocksFrom (current blockSize blockCount : Nat) : List Nat :=
  (List.range blockCount).map fun i =>
    current + i * (blockSize + sizeofBlockHeader) + sizeofBlockHeader

/-- `blockSizeRate` of an area: 64 bits hold the product. -/
def blockSizeRate (numa : Numa) (rate : Nat) : Nat :=
  numa.size * rate % 2 ^ 64 / 10

/-- The blocks of one size that an area is carved into. -/
def classBlocks (numa : Numa) (offset : Nat) (b : Nat × Nat) : List Nat :=
  blocksFrom (numa.address + offset) b.2
    (blockSizeRate numa b.1 / (b.2 + sizeofBlockHeader))

/-- The loop of `InitMemNumaPool` over the sizes, from `index` and `offset`
    on. -/
def initMemNumaPoolLoop (numa : Numa) : List (Nat × Nat) → Nat → Nat →
    Memory × NumaMemoryPool → Memory × NumaMemoryPool
  | [], _, _, r => r
  | b :: bs, index, offset, (mem, pool) =>
      let r := (classBlocks numa offset b).foldl (addBlock numa.id b.2)
        (mem, pool index)
      initMemNumaPoolLoop numa bs (index + 1) (offset + blockSizeRate numa b.1)
        (r.1, Function.update pool index r.2)

/-- `InitMemNumaPool`: `CreatNumaMemPool` refuses an area that has a pool. -/
def initMemNumaPool (blocks : List (Nat × Nat)) (numa : Numa)
    (r : Memory × NumaPoolManager) :
    Except BResult (Memory × NumaPoolManager) :=
  match r.2.mNumaPools numa.id with
  | some _ => .error .err
  | none =>
      let p := initMemNumaPoolLoop numa blocks 0 0 (r.1, fun _ => none)
      .ok (p.1, { r.2 with
        mNumaPools := Function.update r.2.mNumaPools numa.id (some p.2) })

/-- `InitFixedMemPools`. -/
def initFixedMemPools (blocks : List (Nat × Nat)) : List Numa →
    Memory × NumaPoolManager → Except BResult (Memory × NumaPoolManager)
  | [], r => .ok r
  | numa :: numas, r =>
      match initMemNumaPool blocks numa r with
      | .error e => .error e
      | .ok r => initFixedMemPools blocks numas r

/-- `Initialize` in fixed mode, over a memory as it is found: `order` is how
    the map will visit the pools. -/
def initializeFixed (options : MemAllocOptions) (mem : Memory)
    (order : List Nat) : Except BResult MmsMemAllocator :=
  match initFixedMemPools options.blocks options.numas
      (mem, ⟨fun _ => none, order⟩) with
  | .error e => .error e
  | .ok (mem, m) => .ok
      { mNumaId := options.numas.map (·.id)
        mBlockSize := options.blocks.map (·.2)
        mNumaIndex := 0
        mNumaPool := m
        mem := mem }

/-- `UpdateNumaId`: an area that the allocator does not have is replaced by
    one it has, in turn. -/
def updateNumaId (a : MmsMemAllocator) (numaId : Nat) : MmsMemAllocator × Nat :=
  if numaId ∈ a.mNumaId then (a, numaId)
  else
    ({ a with mNumaIndex := (a.mNumaIndex + 1) % 2 ^ 16 },
      a.mNumaId.getD (a.mNumaIndex % a.mNumaId.length) 0)

/-- The loop over `mBlockSize` for the first size that is large enough. -/
def classFor (a : MmsMemAllocator) (size : Nat) : Option Nat :=
  a.mBlockSize.findIdx? fun blockSize => decide (size ≤ blockSize)

/-! ## The cache of a thread -/

/-- `ThreadCache` with the lists of fixed mode; the back of a vector is the
    end of its list. -/
structure ThreadCache extends Allocator.ThreadCache where
  mMemCaches : Nat × Nat → List Nat

def newThreadCache (numaId : Nat) : ThreadCache :=
  { mBuddyCaches := fun _ => []
    mMemCaches := fun _ => []
    mNumaId := numaId
    mHomeNumaId := numaId
    mNumaFallbackCount := 0
    mNumaFallbackId := invalidNumaPoolId
    mNumaReprobeCount := 0 }

def setCache (c : ThreadCache) (place : Nat × Nat) (blocks : List Nat) :
    ThreadCache :=
  { c with mMemCaches := Function.update c.mMemCaches place blocks }

/-- `PopBlock` on the list of a place. -/
def popBlock (c : ThreadCache) (place : Nat × Nat) :
    Option (ThreadCache × Nat) :=
  (c.mMemCaches place).getLast?.map fun b =>
    (setCache c place (c.mMemCaches place).dropLast, b)

/-- `GetOneBlockFromCache`. -/
def getOneBlockFromCache (c : ThreadCache) (blockIndex : Nat) :
    Option (ThreadCache × Nat) :=
  match popBlock c (getCacheNumaId c.toThreadCache c.mNumaId, blockIndex) with
  | some r => some r
  | none =>
      (List.range maxNumasNum).findSome? fun numaId =>
        if numaId = c.mNumaId then none else popBlock c (numaId, blockIndex)

/-- `GetOneBlockFromCachePreferNuma`. -/
def getOneBlockFromCachePreferNuma (c : ThreadCache)
    (blockIndex preferNumaId : Nat) : Option (ThreadCache × Nat) :=
  popBlock c (getCacheNumaId c.toThreadCache preferNumaId, blockIndex)

/-- The place of a block in the cache. -/
def placeOf (mem : Memory) (c : ThreadCache) (blockIndex b : Nat) : Nat × Nat :=
  (getCacheNumaId c.toThreadCache (mem.header b).numaId, blockIndex)

/-- `emplace_back` to the list of the block's place. -/
def pushBlock (mem : Memory) (blockIndex : Nat) (c : ThreadCache) (b : Nat) :
    ThreadCache :=
  setCache c (placeOf mem c blockIndex b)
    (c.mMemCaches (placeOf mem c blockIndex b) ++ [b])

/-- `AddOneBlockToCache`. -/
def addOneBlockToCache (mem : Memory) (c : ThreadCache) (blockIndex b : Nat) :
    Except BResult ThreadCache :=
  if (c.mMemCaches (placeOf mem c blockIndex b)).length =
      cacheLimitPerThread then .error .innerRetry
  else .ok (pushBlock mem blockIndex c b)

/-- `AddBatchBlocksToCache`. -/
def addBatchBlocksToCache (mem : Memory) (c : ThreadCache) (blockIndex : Nat)
    (blockAddrs : List Nat) : Except BResult ThreadCache :=
  let numaCounts := fun numaId => blockAddrs.countP fun b =>
    getCacheNumaId c.toThreadCache (mem.header b).numaId == numaId
  if (List.range maxNumasNum).any fun numaId => numaCounts numaId != 0 &&
      decide ((c.mMemCaches (numaId, blockIndex)).length + numaCounts numaId ≥
        cacheLimitPerThread) then .error .innerRetry
  else .ok (blockAddrs.foldl (pushBlock mem blockIndex) c)

/-- `GetBatchBlocksFromCachePreferNuma`: the last blocks of a list. -/
def getBatchBlocksFromCachePreferNuma (c : ThreadCache)
    (blockIndex preferNumaId count : Nat) : ThreadCache × List Nat :=
  let place := (getCacheNumaId c.toThreadCache preferNumaId, blockIndex)
  let blocks := c.mMemCaches place
  (setCache c place (blocks.take (blocks.length - count)),
    blocks.drop (blocks.length - count))

/-- The places of `mMemCaches` in the order the destructor visits them. -/
def cachePlaces : List (Nat × Nat) :=
  (List.range maxNumasNum).flatMap fun numaId =>
    (List.range maxBlockNum).map fun blockIndex => (numaId, blockIndex)

/-- `ReturnBatchBlocksToPool` up to its first push: the blocks by area, or
    nothing if a header names an area there is not. -/
def numaBlocks (a : MmsMemAllocator) (blockAddrs : List Nat) :
    Option (List (Nat × List Nat)) :=
  if blockAddrs.all fun b => decide ((a.mem.header b).numaId ∈ a.mNumaId) then
    some ((a.mNumaId.map fun numaId => (numaId,
        blockAddrs.filter fun b => (a.mem.header b).numaId == numaId)).filter
      fun group => !group.2.isEmpty)
  else none

/-! ## Threads and their calls -/

/-- The calls that allocate. -/
inductive Call where
  | alloc (size : Nat)
  | allocPreferNuma (size : Nat)
deriving DecidableEq, Repr

def Call.size : Call → Nat
  | .alloc size => size
  | .allocPreferNuma size => size

/-- What a thread does once its blocks are back in the pools. -/
inductive After where
  /-- `MmsFree` puts its block into the cache. -/
  | free (blockIndex block : Nat)
  /-- `FixedAllocPreferNuma` returns its block. -/
  | give (block size : Nat)
  /-- The destructor of the cache goes on with the next lists. -/
  | leave (places : List (Nat × Nat))
deriving DecidableEq, Repr

/-- Where a thread is in its call. -/
inductive Pc where
  | idle
  /-- Before `GetBatchBlocksFromPool`. -/
  | first (call : Call) (blockIndex preferNumaId : Nat)
  /-- In the loop of `GetBatchBlocksFromOtherPool`. -/
  | other (call : Call) (blockIndex preferNumaId : Nat) (rest : List Nat)
  /-- In the second loop of `ReturnBatchBlocksToPool`. -/
  | back (blockIndex : Nat) (groups : List (Nat × List Nat)) (next : After)
  /-- In the loops of `~ThreadCache`. -/
  | leaving (places : List (Nat × Nat))
deriving DecidableEq, Repr

/-- What a call answered. -/
inductive Answer where
  | given (numaId block : Nat)
  | done
  | failed (e : BResult)
deriving DecidableEq, Repr

structure Thread where
  cache : ThreadCache
  pc : Pc
  /-- The answer of the last call, until the next one starts. -/
  answer : Option Answer

structure Sys where
  mem : MmsMemAllocator
  threads : Nat → Option Thread
  /-- The blocks that are handed out, with the sizes asked for. -/
  live : List (Nat × Nat)

inductive Event where
  /-- A thread makes its cache, on a CPU of a NUMA node. -/
  | start (t cpuNumaNode : Nat)
  | alloc (t size : Nat)
  | allocPreferNuma (t size preferNumaId : Nat)
  | free (t block : Nat)
  /-- The call of a thread goes on to its next access of a pool. -/
  | advance (t : Nat)
  /-- A thread ends. -/
  | leave (t : Nat)
  /-- The bytes of a block that is handed out are overwritten: what headers
      and nodes say that have a byte there may be anything then. -/
  | store (block : Nat) (mem : Memory)

def Sys.set (s : Sys) (t : Nat) (th : Thread) : Sys :=
  { s with threads := Function.update s.threads t (some th) }

/-- A call ends with a failure. -/
def Sys.fail (s : Sys) (t : Nat) (c : ThreadCache) (e : BResult) : Sys :=
  s.set t ⟨c, .idle, some (.failed e)⟩

/-- A call ends and its block is handed out, with the area its header
    names. -/
def Sys.give (s : Sys) (t : Nat) (c : ThreadCache) (block size : Nat) : Sys :=
  { s.set t ⟨c, .idle, some (.given (s.mem.mem.header block).numaId block)⟩ with
    live := (block, size) :: s.live }

/-- `AddOneBlockToCache` at the end of `MmsFree`. -/
def Sys.cacheFreed (s : Sys) (t : Nat) (c : ThreadCache)
    (blockIndex block : Nat) : Sys :=
  match addOneBlockToCache s.mem.mem c blockIndex block with
  | .ok c => s.set t ⟨c, .idle, some .done⟩
  | .error e => s.fail t c e

/-- After the blocks of a list are back in the pools. -/
def Sys.resume (s : Sys) (t : Nat) (c : ThreadCache) : After → Sys
  | .free blockIndex block => s.cacheFreed t c blockIndex block
  | .give block size => s.give t c block size
  | .leave places => s.set t ⟨c, .leaving places, none⟩

/-- The second loop of `ReturnBatchBlocksToPool`: on to its next push. -/
def Sys.goBack (s : Sys) (t : Nat) (c : ThreadCache) (blockIndex : Nat)
    (groups : List (Nat × List Nat)) (next : After) : Sys :=
  if groups.isEmpty then s.resume t c next
  else s.set t ⟨c, .back blockIndex groups next, none⟩

/-- A call that does not get its blocks back into the pools: the destructor
    only reports it. -/
def Sys.notBack (s : Sys) (t : Nat) (c : ThreadCache) (e : BResult) :
    After → Sys
  | .leave places => s.set t ⟨c, .leaving places, none⟩
  | _ => s.fail t c e

/-- `ReturnBatchBlocksToPool`. -/
def Sys.returnBatch (s : Sys) (t : Nat) (c : ThreadCache) (blockIndex : Nat)
    (blockAddrs : List Nat) (next : After) : Sys :=
  match numaBlocks s.mem blockAddrs with
  | none => s.notBack t c .invalidParam next
  | some groups => s.goBack t c blockIndex groups next

/-- The rest of an allocation that got `block` and `rest` from a pool. -/
def Sys.fill (s : Sys) (t : Nat) (c : ThreadCache) (blockIndex preferNumaId
    block : Nat) (rest : List Nat) : Call → Sys
  | .alloc size =>
      match addBatchBlocksToCache s.mem.mem c blockIndex rest with
      | .error _ => s.fail t c .innerErr
      | .ok c => s.give t
          { c with
            toThreadCache := recordAllocNumaId c.toThreadCache preferNumaId
              (s.mem.mem.header block).numaId } block size
  | .allocPreferNuma size =>
      if rest.isEmpty then s.give t c block size
      else
        match addBatchBlocksToCache s.mem.mem c blockIndex rest with
        | .error _ => s.returnBatch t c blockIndex rest (.give block size)
        | .ok c => s.give t c block size

/-- An allocation looks for blocks in the other pools. -/
def Sys.toOther (s : Sys) (t : Nat) (c : ThreadCache) (call : Call)
    (blockIndex preferNumaId : Nat) : Sys :=
  s.set t ⟨c, .other call blockIndex preferNumaId s.mem.mNumaPool.order, none⟩

/-- The pool of `preferNumaId` was empty: `FixedAllocPreferNuma` looks into
    the other lists of the cache first. -/
def Sys.missFirst (s : Sys) (t : Nat) (c : ThreadCache)
    (blockIndex preferNumaId : Nat) : Call → Sys
  | .alloc size => s.toOther t c (.alloc size) blockIndex preferNumaId
  | .allocPreferNuma size =>
      match getOneBlockFromCache c blockIndex with
      | some (c, block) => s.give t c block size
      | none => s.toOther t c (.allocPreferNuma size) blockIndex preferNumaId

/-- The call of a thread goes on. -/
def Sys.advance (s : Sys) (t : Nat) (c : ThreadCache) : Pc → Option Sys
  | .idle => none
  | .first call blockIndex preferNumaId =>
      let r := getBatchBlocks s.mem preferNumaId blockIndex
      let s := { s with mem := r.1 }
      match r.2.getLast? with
      | none => some (s.missFirst t c blockIndex preferNumaId call)
      | some block =>
          some (s.fill t c blockIndex preferNumaId block r.2.dropLast call)
  | .other _ _ _ [] => some (s.fail t c .allocFail)
  | .other call blockIndex preferNumaId (numaId :: rest) =>
      if numaId = preferNumaId then
        some (s.set t ⟨c, .other call blockIndex preferNumaId rest, none⟩)
      else
        let r := getBatchBlocks s.mem numaId blockIndex
        let s := { s with mem := r.1 }
        match r.2.getLast? with
        | none =>
            some (s.set t ⟨c, .other call blockIndex preferNumaId rest, none⟩)
        | some block =>
            some (s.fill t c blockIndex preferNumaId block r.2.dropLast call)
  | .back _ [] _ => none
  | .back blockIndex ((numaId, blocks) :: groups) next =>
      match addBatchBlocksToPool s.mem numaId blockIndex blocks with
      | .error e => some (s.notBack t c e next)
      | .ok a =>
          some (Sys.goBack { s with mem := a } t c blockIndex groups next)
  | .leaving [] =>
      some { s with threads := Function.update s.threads t none }
  | .leaving (place :: places) =>
      let blocks := c.mMemCaches place
      if blocks.isEmpty then some (s.set t ⟨c, .leaving places, none⟩)
      else some (s.returnBatch t (setCache c place []) place.2 blocks
        (.leave places))

/-- `MmsAlloc`, up to its first access of a pool. -/
def Sys.mmsAlloc (s : Sys) (t : Nat) (c : ThreadCache) (size : Nat) : Sys :=
  match classFor s.mem size with
  | none => s.fail t c .err
  | some blockIndex =>
      match getOneBlockFromCache c blockIndex with
      | some (c, block) => s.give t c block size
      | none =>
          let r := getAllocNumaId c.toThreadCache
          s.set t ⟨{ c with toThreadCache := r.1 },
            .first (.alloc size) blockIndex r.2, none⟩

/-- `FixedAllocPreferNuma`, up to its first access of a pool. -/
def Sys.fixedAllocPreferNuma (s : Sys) (t : Nat) (c : ThreadCache)
    (size preferNumaId : Nat) : Sys :=
  match classFor s.mem size with
  | none => s.fail t c .err
  | some blockIndex =>
      match getOneBlockFromCachePreferNuma c blockIndex preferNumaId with
      | some (c, block) => s.give t c block size
      | none => s.set t
          ⟨c, .first (.allocPreferNuma size) blockIndex preferNumaId, none⟩

/-- `MmsFree`, up to its first access of a pool. -/
def Sys.mmsFree (s : Sys) (t : Nat) (c : ThreadCache) (block : Nat) : Sys :=
  let header := s.mem.mem.header block
  match classFor s.mem header.blockSize with
  | none => s.fail t c .err
  | some blockIndex =>
      match addOneBlockToCache s.mem.mem c blockIndex block with
      | .ok c => s.set t ⟨c, .idle, some .done⟩
      | .error _ =>
          let r := getBatchBlocksFromCachePreferNuma c blockIndex header.numaId
            fixedCacheBatchCount
          s.returnBatch t r.1 blockIndex r.2 (.free blockIndex block)

/-- The memory after the `size` bytes of a block are overwritten. -/
def Memory.overwrite (m : Memory) (block size : Nat) (new : Memory) : Memory :=
  { header := fun b =>
      if b - sizeofBlockHeader < block + size ∧ block < b then new.header b
      else m.header b
    next := fun b =>
      if b < block + size ∧ block < b + sizeofBlockNode then new.next b
      else m.next b }

/-- A thread between two calls. -/
def Sys.idle (s : Sys) (t : Nat) : Option ThreadCache :=
  (s.threads t).bind fun th =>
    match th.pc with
    | .idle => some th.cache
    | _ => none

/-- One step of a thread. -/
def step (s : Sys) : Event → Option Sys
  | .start t cpuNumaNode =>
      if (s.threads t).isNone then
        let r := updateNumaId s.mem cpuNumaNode
        some (Sys.set { s with mem := r.1 } t
          ⟨newThreadCache r.2, .idle, none⟩)
      else none
  | .alloc t size => (s.idle t).map fun c => s.mmsAlloc t c size
  | .allocPreferNuma t size preferNumaId =>
      (s.idle t).map fun c =>
        let r := updateNumaId s.mem preferNumaId
        Sys.fixedAllocPreferNuma { s with mem := r.1 } t c size r.2
  | .free t block =>
      (s.idle t).bind fun c =>
        (s.live.find? fun x => x.1 == block).map fun x =>
          Sys.mmsFree { s with live := s.live.erase x } t c block
  | .advance t =>
      (s.threads t).bind fun th => s.advance t th.cache th.pc
  | .leave t =>
      (s.idle t).map fun c => s.set t ⟨c, .leaving cachePlaces, none⟩
  | .store block new =>
      (s.live.find? fun x => x.1 == block).map fun x =>
        { s with
          mem := { s.mem with mem := s.mem.mem.overwrite block x.2 new } }

/-- No thread has called the allocator. -/
def Sys.start (a : MmsMemAllocator) : Sys := ⟨a, fun _ => none, []⟩

end UbsIo.Fixed
