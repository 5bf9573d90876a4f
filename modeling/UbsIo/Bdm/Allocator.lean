import UbsIo.Lib.Run
import UbsIo.Lib.RbTree

/-! # The disk chunk allocator

    `bdm_allocator.c`: a disk of `chunkNum` minimal chunks is divided into
    areas.  Free areas are kept three times: in a red-black tree ordered by
    position, in one of 1024 lists by length, and in the cell of `chunkList`
    at the area's first chunk.  Every change writes a record of the area to
    the disk (`metaOps.writeMeta`); here the writes are also kept in order, so
    that a crash between two of them can be stated.

    A cell is its position in `chunkList`; a tree node or list link of the
    source is embedded in its cell, so trees and lists hold cells.  Lengths and
    positions are natural numbers: they are bounded by `chunkNum`. -/

namespace UbsIo.Bdm

open UbsIo.Lib

/-- `BDM_FREE_LIST_NUM`. -/
def bdmFreeListNum : Nat := 1024

structure BdmChunkMeta where
  head : Bool
  free : Bool
  restore : Bool
  /-- A field of 21 bits. -/
  length : Nat
  bucketId : Nat
  bucketOffset : Nat
deriving DecidableEq, Repr

structure BdmChunkIndex where
  index : Nat
  length : Nat
deriving DecidableEq, Repr

structure BdmAllocatorRealize where
  root : RbTree Nat
  /-- The cells linked into each free list. -/
  freeHead : Nat → List Nat
  freeCount : Nat → Nat
  metaAddr : Nat → BdmChunkMeta
  minChunkSize : Nat
  usedSize : Nat
  scanIndex : Nat
  chunkNum : Nat
  chunkList : Nat → BdmChunkIndex
  /-- The calls of `writeMeta` so far, oldest first. -/
  writes : List (Nat × BdmChunkMeta)

namespace BdmAllocatorRealize

variable (a : BdmAllocatorRealize)

/-- The length of a cell. -/
def len (c : Nat) : Nat := (a.chunkList c).length

def setCell (c : Nat) (x : BdmChunkIndex) : BdmAllocatorRealize :=
  { a with chunkList := Function.update a.chunkList c x }

def setLength (c length : Nat) : BdmAllocatorRealize :=
  a.setCell c { a.chunkList c with length := length }

end BdmAllocatorRealize

/-- `MIN(length, BDM_FREE_LIST_NUM) - 1`, for a positive length. -/
def freeIndexOf (length : Nat) : Nat := min length bdmFreeListNum - 1

/-- `DListDel` of a cell, and the decrement of a list's counter. -/
def unlink (a : BdmAllocatorRealize) (c freeIndex : Nat) :
    BdmAllocatorRealize :=
  { a with
    freeHead := fun k => (a.freeHead k).erase c
    freeCount := Function.update a.freeCount freeIndex
      (a.freeCount freeIndex - 1) }

/-- `DListAddTail` of a cell to the list for its length, and the increment of
    its counter. -/
def link (a : BdmAllocatorRealize) (c : Nat) : BdmAllocatorRealize :=
  { a with
    freeHead := Function.update a.freeHead (freeIndexOf (a.len c))
      (a.freeHead (freeIndexOf (a.len c)) ++ [c])
    freeCount := Function.update a.freeCount (freeIndexOf (a.len c))
      (a.freeCount (freeIndexOf (a.len c)) + 1) }

/-- The record `BdmAllocatorUpdateMeta` writes. -/
def metaOf (bucketId bucketOffset length : Nat) (isFree : Bool) :
    BdmChunkMeta where
  head := true
  free := isFree
  restore := true
  length := length % 2 ^ 21
  bucketId := bucketId
  bucketOffset := bucketOffset

/-- `BdmAllocatorUpdateMeta` with a successful write. -/
def bdmAllocatorUpdateMeta (a : BdmAllocatorRealize)
    (bucketId bucketOffset c : Nat) (isFree : Bool) : BdmAllocatorRealize :=
  let m := metaOf bucketId bucketOffset (a.len c) isFree
  { a with
    metaAddr := Function.update a.metaAddr (a.chunkList c).index m
    writes := a.writes ++ [((a.chunkList c).index, m)] }

/-! ## Insertion -/

/-- `ngx_rbtree_replace`: `target` takes the place of `source`. -/
def rbtreeReplace (t : RbTree Nat) (target source : Nat) : RbTree Nat :=
  t.map fun x => if x = source then target else x

/-- `ngx_rbtree_delete` of a node of the tree. -/
def rbtreeDelete (t : RbTree Nat) (c : Nat) : Option (RbTree Nat) :=
  (locate c t []).bind fun z =>
    match z.1 with
    | .leaf => none
    | .node color l _ r => deleteNode color l r z.2

/-- `BdmAllocatorInsertPre`: merge the area after the chunk into it.  `none` is
    an error code. -/
def bdmAllocatorInsertPre (a : BdmAllocatorRealize) (chunk next : Nat) :
    Option BdmAllocatorRealize :=
  if a.len next = 0 then none
  else
    let a := unlink a next (freeIndexOf (a.len next))
    let a := a.setLength chunk (a.len chunk + a.len next)
    if a.len chunk = 0 then none
    else
      let a := bdmAllocatorUpdateMeta (link a chunk) 0 0 chunk true
      some { a with root := rbtreeReplace a.root chunk next }

/-- `BdmAllocatorInsertNext`: merge the chunk into the area before it, and the
    area after the chunk too if there is one.  `neigh` is what
    `ngx_rbtree_next` finds after `prev`; the second component is
    `eraseNode`. -/
def bdmAllocatorInsertNext (a : BdmAllocatorRealize) (chunk prev : Nat)
    (neigh : Option Nat) : Option (BdmAllocatorRealize × Option Nat) :=
  if a.len prev = 0 then none
  else
    let a := unlink a prev (freeIndexOf (a.len prev))
    let a := a.setLength prev (a.len prev + a.len chunk)
    let adjacent := neigh.filter fun n =>
      (a.chunkList chunk).index + a.len chunk == (a.chunkList n).index
    match adjacent with
    | some n =>
        if a.len n = 0 then none
        else
          let a := unlink a n (freeIndexOf (a.len n))
          let a := a.setLength prev (a.len prev + a.len n)
          if a.len prev = 0 then none
          else some (bdmAllocatorUpdateMeta (link a prev) 0 0 prev true, some n)
    | none =>
        if a.len prev = 0 then none
        else some (bdmAllocatorUpdateMeta (link a prev) 0 0 chunk true, none)

/-- The comparisons of `BdmAllocatorInsertCallback` at one node of the tree;
    an overlap stops the walk like a neighbour does. -/
def insertTurn (a : BdmAllocatorRealize) (chunk temp : Nat) : Turn :=
  let x := a.chunkList chunk
  let y := a.chunkList temp
  if x.index = y.index + y.length then .here
  else if x.index + x.length = y.index then .here
  else if x.index + x.length < y.index then .left
  else if y.index + y.length < x.index then .right
  else .here

/-- `BdmAllocatorRestoreInsert`: `ngx_rbtree_insert` with the callback
    `BdmAllocatorInsertCallback`, and the deletion of an absorbed neighbour.
    An empty tree is the walk that ends at the root. -/
def bdmAllocatorRestoreInsert (a : BdmAllocatorRealize) (chunk : Nat) :
    Option BdmAllocatorRealize :=
  match descend (insertTurn a chunk) a.root [] with
  | (.leaf, p) =>
      -- a zero length would make the list index wrap around
      if a.len chunk = 0 then none
      else (insertFix (.node .red .leaf chunk .leaf) p).map fun t =>
        { link a chunk with root := t }
  | (.node _ _ temp r, p) =>
      if (a.chunkList chunk).index = (a.chunkList temp).index + a.len temp then
        (bdmAllocatorInsertNext a chunk temp (next r p)).bind fun s =>
          match s.2 with
          | none => some s.1
          | some n => (rbtreeDelete s.1.root n).map fun t =>
              { s.1 with root := t }
      else if (a.chunkList chunk).index + a.len chunk
          = (a.chunkList temp).index then
        bdmAllocatorInsertPre a chunk temp
      else none

/-- `BdmAllocatorInsert`. -/
def bdmAllocatorInsert (a : BdmAllocatorRealize) (chunk : Nat) :
    Option BdmAllocatorRealize :=
  (bdmAllocatorRestoreInsert a chunk).map fun a =>
    bdmAllocatorUpdateMeta a 0 0 chunk true

/-! ## Removal -/

/-- `BdmAllocatorRemoveSameLen`. -/
def bdmAllocatorRemoveSameLen (a : BdmAllocatorRealize)
    (chunk bucketId bucketOffset freeIndex : Nat) :
    Option (BdmAllocatorRealize × Nat) :=
  let a := bdmAllocatorUpdateMeta (unlink a chunk freeIndex) bucketId
    bucketOffset chunk false
  (rbtreeDelete a.root chunk).map fun t =>
    ({ a with root := t }, (a.chunkList chunk).index)

/-- `BdmAllocatorRemoveDiffLen`: the rest of the area starts `length` cells
    after the chunk. -/
def bdmAllocatorRemoveDiffLen (a : BdmAllocatorRealize)
    (chunk bucketId bucketOffset length : Nat) : BdmAllocatorRealize × Nat :=
  let neigh := chunk + length
  let a := a.setCell neigh
    ⟨(a.chunkList chunk).index + length, a.len chunk - length⟩
  let a := bdmAllocatorUpdateMeta (link a neigh) 0 0 neigh true
  let a := unlink a chunk (freeIndexOf (a.len chunk))
  let a := a.setLength chunk (a.len chunk - a.len neigh)
  let a := bdmAllocatorUpdateMeta a bucketId bucketOffset chunk false
  ({ a with root := rbtreeReplace a.root neigh chunk },
   (a.chunkList chunk).index)

/-- The search of `BdmAllocatorRemove`: the first list from the length's own on
    with an area that is long enough. -/
def findArea (a : BdmAllocatorRealize) (length : Nat) : Option (Nat × Nat) :=
  (List.range' (freeIndexOf length)
    (bdmFreeListNum - freeIndexOf length)).findSome? fun k =>
      ((a.freeHead k).find? fun c => length ≤ a.len c).map fun c => (k, c)

/-- How a call ends: it is done, it is refused and nothing has changed, or it
    fails after it has changed something. -/
inductive Outcome (β : Type) where
  | done (b : β)
  | refused
  | broken
deriving DecidableEq, Repr

/-- An error code from inside an operation. -/
def Outcome.ofOption {β : Type} : Option β → Outcome β
  | some b => .done b
  | none => .broken

/-- `BdmAllocatorRemove`. -/
def bdmAllocatorRemove (a : BdmAllocatorRealize)
    (bucketId bucketOffset chunkSize : Nat) :
    Outcome (BdmAllocatorRealize × Nat) :=
  if a.minChunkSize = 0 then .refused
  else
    let length := chunkSize / a.minChunkSize
    if length = 0 then .refused
    else
      match findArea a length with
      | none => .refused
      | some (k, c) =>
          if a.len c = length then
            .ofOption (bdmAllocatorRemoveSameLen a c bucketId bucketOffset k)
          else .done (bdmAllocatorRemoveDiffLen a c bucketId bucketOffset length)

/-- `BdmAllocatorAllocChunk`: the allocator and the chunk id. -/
def bdmAllocatorAllocChunk (a : BdmAllocatorRealize)
    (bucketId bucketOffset chunkSize : Nat) :
    Outcome (BdmAllocatorRealize × Nat) :=
  match bdmAllocatorRemove a bucketId bucketOffset chunkSize with
  | .done (a', id) =>
      .done ({ a' with usedSize := a'.usedSize + chunkSize }, id)
  | .refused => .refused
  | .broken => .broken

/-- `BdmAllocatorFreeChunk`. -/
def bdmAllocatorFreeChunk (a : BdmAllocatorRealize)
    (chunkSize chunkId : Nat) : Outcome BdmAllocatorRealize :=
  if chunkId ≥ a.chunkNum then .refused
  else if chunkSize ≠ a.len chunkId * a.minChunkSize then .refused
  else
    .ofOption ((bdmAllocatorInsert a chunkId).map fun a =>
      { a with usedSize := a.usedSize - chunkSize })

/-! ## Creation and restoration -/

/-- What the first part of `BdmAllocatorCreate` sets up.  The arrays are not
    initialised: `cells` and `records` are whatever the memory held. -/
def emptyAllocator (minChunkSize totalSize : Nat)
    (cells : Nat → BdmChunkIndex) (records : Nat → BdmChunkMeta) :
    BdmAllocatorRealize where
  root := .leaf
  freeHead := fun _ => []
  freeCount := fun _ => 0
  metaAddr := records
  minChunkSize := minChunkSize
  usedSize := 0
  scanIndex := 0
  chunkNum := totalSize / minChunkSize
  chunkList := cells
  writes := []

/-- `BdmAllocatorCreate` with `isRestore = 0`, through
    `BdmAllocatorCreateImpl`; `none` when no allocator results. -/
def bdmAllocatorCreate (minChunkSize totalSize : Nat)
    (cells : Nat → BdmChunkIndex) (records : Nat → BdmChunkMeta) :
    Option BdmAllocatorRealize :=
  if minChunkSize = 0 then none
  else
    let a := emptyAllocator minChunkSize totalSize cells records
    bdmAllocatorInsert (a.setCell 0 ⟨0, a.chunkNum⟩) 0

/-- The loop of `BdmAllocatorRestoreImpl` from a position on; `none` also when
    the fuel runs out. -/
def restoreFrom : Nat → BdmAllocatorRealize → Nat → Option BdmAllocatorRealize
  | 0, _, _ => none
  | fuel + 1, a, pos =>
      if a.chunkNum ≤ pos then some a
      else
        let m := a.metaAddr pos
        let a := a.setCell pos ⟨pos, m.length⟩
        if m.head = false then none
        else if m.free = true ∨ m.restore = false then
          (bdmAllocatorRestoreInsert a pos).bind fun a =>
            restoreFrom fuel a (pos + m.length)
        else
          restoreFrom fuel
            { a with usedSize := a.usedSize + a.minChunkSize * m.length }
            (pos + m.length)

/-- `BdmAllocatorCreate` with `isRestore = 1`, through
    `BdmAllocatorRestoreImpl`, on the records the disk holds. -/
def bdmAllocatorRestore (minChunkSize totalSize : Nat)
    (cells : Nat → BdmChunkIndex) (disk : Nat → BdmChunkMeta) :
    Option BdmAllocatorRealize :=
  if minChunkSize = 0 then none
  else
    let a := emptyAllocator minChunkSize totalSize cells disk
    restoreFrom (a.chunkNum + 1) a 0

/-! ## Scanning -/

/-- A chunk as `BdmAllocatorGetNextChunk` hands it out. -/
structure Chunk where
  id : Nat
  length : Nat
  bucketId : Nat
  bucketOffset : Nat
deriving DecidableEq, Repr

/-- The loop of `BdmAllocatorGetNextChunk`: the next record that is not free.
    The outer `none` is the error of a broken chain, the inner one
    `BDM_CODE_SCAN_OFF`. -/
def nextChunkFrom (a : BdmAllocatorRealize) : Nat → Nat → Option (Option Chunk)
  | 0, _ => none
  | fuel + 1, pos =>
      if pos < a.chunkNum then
        let m := a.metaAddr pos
        if m.head = false then none
        else if m.free = false then
          some (some ⟨pos, m.length, m.bucketId, m.bucketOffset⟩)
        else nextChunkFrom a fuel (pos + m.length)
      else some none

/-- `BdmAllocatorGetNextChunk`. -/
def bdmAllocatorGetNextChunk (a : BdmAllocatorRealize) :
    Option (Option Chunk × BdmAllocatorRealize) :=
  (nextChunkFrom a (a.chunkNum + 1) a.scanIndex).map fun r =>
    match r with
    | some c => (some c, { a with scanIndex := c.id + c.length })
    | none => (none, { a with scanIndex := a.chunkNum })

/-- A whole scan: `BdmAllocatorGetNextChunk` until it is off the end. -/
def scanAll : Nat → BdmAllocatorRealize → Option (List Chunk)
  | 0, _ => none
  | fuel + 1, a =>
      (bdmAllocatorGetNextChunk a).bind fun r =>
        match r.1 with
        | none => some []
        | some c => (scanAll fuel r.2).map fun cs => c :: cs

/-- `BdmAllocatorResetChunk` and a whole scan. -/
def liveChunks (a : BdmAllocatorRealize) : Option (List Chunk) :=
  scanAll (a.chunkNum + 1) { a with scanIndex := 0 }

/-! ## The allocator as a state machine -/

/-- The allocator and the chunks its users hold. -/
structure Sys where
  alloc : BdmAllocatorRealize
  live : List Chunk

inductive Op where
  | alloc (bucketId bucketOffset chunkSize : Nat)
  | free (chunkSize chunkId : Nat)
deriving DecidableEq, Repr

/-- What the users promise: sizes are positive multiples of the minimal chunk
    (`BdmDiskAlloc` checks it), and only chunks that are held are freed. -/
def Allowed (s : Sys) : Op → Prop
  | .alloc _ _ chunkSize =>
      0 < chunkSize ∧ s.alloc.minChunkSize ∣ chunkSize
  | .free _ chunkId => chunkId ∈ s.live.map (·.id)

instance (s : Sys) : (op : Op) → Decidable (Allowed s op)
  | .alloc _ _ chunkSize =>
      inferInstanceAs (Decidable
        (0 < chunkSize ∧ s.alloc.minChunkSize ∣ chunkSize))
  | .free _ chunkId =>
      inferInstanceAs (Decidable (chunkId ∈ s.live.map (·.id)))

/-- One call; `none` when it is not allowed or breaks the allocator. -/
def step (s : Sys) (op : Op) : Option Sys :=
  if Allowed s op then
    match op with
    | .alloc bucketId bucketOffset chunkSize =>
        match bdmAllocatorAllocChunk s.alloc bucketId bucketOffset chunkSize with
        | .done (a, id) =>
            some ⟨a, ⟨id, chunkSize / s.alloc.minChunkSize, bucketId,
              bucketOffset⟩ :: s.live⟩
        | .refused => some s
        | .broken => none
    | .free chunkSize chunkId =>
        match bdmAllocatorFreeChunk s.alloc chunkSize chunkId with
        | .done a => some ⟨a, s.live.filter (·.id != chunkId)⟩
        | .refused => some s
        | .broken => none
  else none

end UbsIo.Bdm
