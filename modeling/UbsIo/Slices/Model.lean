import UbsIo.Lib.Scatter

/-! # Slices

    A `Slice` is a range of bytes on pieces of chunks (`FlowAddr`), in memory or
    on disk.  `Split` and `GetSliceFromSliceIO` both cut a part out of a slice;
    `CacheSliceOperator` copies between slices whose pieces need not match.

    A slice denotes a list of places (`Slice.places`), its bytes one after the
    other; a `Store` has a byte at every place.  All numbers have the width that
    they have in the source. -/

namespace UbsIo.Slices

open UbsIo.Lib

/-- The enumeration has 16 bits, and a message may carry any of them. -/
abbrev FlowType := UInt16

def flowMemory : FlowType := 0

def flowDisk : FlowType := 1

structure FlowAddr where
  chunkId : UInt64
  chunkOffset : UInt32
  chunkLen : UInt32
deriving DecidableEq, Repr

structure Slice where
  dataCrc : UInt32
  flowType : FlowType
  length : UInt64
  addrs : List FlowAddr
deriving DecidableEq, Repr

inductive BResult where
  | ok | err | innerErr | invalidParam | diskIoErr
  -- an error that `memcpy_s` returns
  | securec (code : Nat)
deriving DecidableEq, Repr

/-! ## Places -/

/-- A byte in memory, or in a chunk on disk. -/
inductive Place where
  | memory (address : UInt64)
  | disk (chunkId : UInt64) (offset : Nat)
deriving DecidableEq, Repr

abbrev Store := Place → UInt8

/-- The chunk of a memory flow is its address. -/
def place (flowType : FlowType) (chunkId : UInt64) (offset : Nat) : Place :=
  if flowType = flowDisk then .disk chunkId offset
  else .memory (chunkId + UInt64.ofNat offset)

/-- `len` bytes of a piece, from `offset` on. -/
def FlowAddr.part (a : FlowAddr) (flowType : FlowType) (offset len : Nat) :
    List Place :=
  (List.range' (a.chunkOffset.toNat + offset) len).map
    (place flowType a.chunkId)

def FlowAddr.places (a : FlowAddr) (flowType : FlowType) : List Place :=
  a.part flowType 0 a.chunkLen.toNat

/-- The bytes of a list of pieces. -/
def places (flowType : FlowType) (addrs : List FlowAddr) : List Place :=
  addrs.flatMap fun a => a.places flowType

def Slice.places (s : Slice) : List Place :=
  Slices.places s.flowType s.addrs

/-- How long a list of pieces is. -/
def total (addrs : List FlowAddr) : Nat :=
  (addrs.map fun a => a.chunkLen.toNat).sum

/-! ## Parts of a slice -/

/-- The loop of `Slice::Split`. -/
def splitFrom (offset length : UInt64) :
    List FlowAddr → UInt64 → UInt64 → List FlowAddr
  | [], _, _ => []
  | addr :: rest, rangeStart, splitStart =>
      let rangeEnd := rangeStart + addr.chunkLen.toUInt64
      if rangeStart ≤ splitStart ∧ splitStart < rangeEnd then
        let splitOffset := splitStart - rangeStart
        let splitLen := rangeEnd - splitStart
        let chunkOffset := (addr.chunkOffset.toUInt64 + splitOffset).toUInt32
        if length - (splitStart - offset) ≤ splitLen then
          [⟨addr.chunkId, chunkOffset,
            (length - (splitStart - offset)).toUInt32⟩]
        else
          ⟨addr.chunkId, chunkOffset, splitLen.toUInt32⟩ ::
            splitFrom offset length rest rangeEnd (splitStart + splitLen)
      else splitFrom offset length rest rangeEnd splitStart

/-- `Slice::Split`, with a sum of 64 bits; `none` is `nullptr`. -/
def split (s : Slice) (offset length : UInt64) : Option Slice :=
  if s.length ≤ offset ∨ s.length < length ∨ s.length < offset + length then
    none
  else if offset = 0 ∧ length = s.length then some s
  else some ⟨0, s.flowType, length, splitFrom offset length s.addrs 0 offset⟩

/-- The piece of an address in `GetSliceFromSliceIO`; `chunkOffset` and
    `chunkLen` have 32 bits there. -/
def sliceIOPiece (addr : FlowAddr) (offset length : UInt64) : FlowAddr :=
  if offset ≠ 0 then
    ⟨addr.chunkId, (addr.chunkOffset.toUInt64 + offset).toUInt32,
      (if addr.chunkLen.toUInt64 - offset < length then
        addr.chunkLen.toUInt64 - offset else length).toUInt32⟩
  else
    ⟨addr.chunkId, addr.chunkOffset,
      (if addr.chunkLen.toUInt64 < length then addr.chunkLen.toUInt64
        else length).toUInt32⟩

/-- The loop of `GetSliceFromSliceIO`. -/
def sliceIOFrom : List FlowAddr → UInt64 → UInt64 → List FlowAddr
  | [], _, _ => []
  | addr :: rest, offset, length =>
      if addr.chunkLen.toUInt64 ≤ offset then
        sliceIOFrom rest (offset - addr.chunkLen.toUInt64) length
      else
        let piece := sliceIOPiece addr offset length
        let length := length - piece.chunkLen.toUInt64
        if length = 0 then [piece] else piece :: sliceIOFrom rest 0 length

/-- `CacheSliceOperator::GetSliceFromSliceIO`. -/
def getSliceFromSliceIo (wholeSlice : Slice) (offset length : UInt64) : Slice :=
  ⟨0, wholeSlice.flowType, length,
    sliceIOFrom wholeSlice.addrs offset length⟩

/-! ## Copies -/

/-- How the transfers of a call end, one after the other. -/
abbrev Outcomes := Nat → BResult

/-- What the callers make of a result of `BdmRead` or `BdmWrite`. -/
def ofBdm (ret : BResult) : BResult :=
  if ret = .ok then .ok else .diskIoErr

/-- Where an iterator and its offset are after `len` bytes of the address. -/
def nextAddr (addr : FlowAddr) (rest : List FlowAddr) (offset len : Nat) :
    List FlowAddr × Nat :=
  if offset + len = addr.chunkLen.toNat then (rest, 0)
  else (addr :: rest, offset + len)

/-- The loop of the three copies.  Every iteration is done with one of the
    pieces, so their number is enough fuel. -/
def copyFrom (fromType toType : FlowType) (outcomes : Outcomes) :
    Nat → Nat → List FlowAddr → Nat → List FlowAddr → Nat → Store →
      Option (Except BResult Store)
  | _, _, [], _, _, _, m => some (.ok m)
  | _, _, _ :: _, _, [], _, m => some (.ok m)
  | 0, _, _ :: _, _, _ :: _, _, _ => none
  | fuel + 1, k, fromAddr :: fromRest, fromOffset, toAddr :: toRest, toOffset,
      m =>
      let len := min (fromAddr.chunkLen.toNat - fromOffset)
        (toAddr.chunkLen.toNat - toOffset)
      if outcomes k = .ok then
        let m := transfer m (toAddr.part toType toOffset len)
          (fromAddr.part fromType fromOffset len)
        let fromNext := nextAddr fromAddr fromRest fromOffset len
        let toNext := nextAddr toAddr toRest toOffset len
        copyFrom fromType toType outcomes fuel (k + 1) fromNext.1 fromNext.2
          toNext.1 toNext.2 m
      else some (.error (outcomes k))

def copyFromMemoryToMemory (outcomes : Outcomes) (fromSlice toSlice : Slice)
    (m : Store) : Option (Except BResult Store) :=
  copyFrom flowMemory flowMemory outcomes
    (fromSlice.addrs.length + toSlice.addrs.length) 0 fromSlice.addrs 0
    toSlice.addrs 0 m

def copyFromMemoryToDisk (outcomes : Outcomes) (fromSlice toSlice : Slice)
    (m : Store) : Option (Except BResult Store) :=
  copyFrom flowMemory flowDisk (fun k => ofBdm (outcomes k))
    (fromSlice.addrs.length + toSlice.addrs.length) 0 fromSlice.addrs 0
    toSlice.addrs 0 m

def copyFromDiskToMemory (outcomes : Outcomes) (fromSlice toSlice : Slice)
    (m : Store) : Option (Except BResult Store) :=
  copyFrom flowDisk flowMemory (fun k => ofBdm (outcomes k))
    (fromSlice.addrs.length + toSlice.addrs.length) 0 fromSlice.addrs 0
    toSlice.addrs 0 m

/-- `CacheSliceOperator::Copy` between slices. -/
def copy (outcomes : Outcomes) (fromSlice toSlice : Slice) (m : Store) :
    Option (Except BResult Store) :=
  if fromSlice.length ≠ toSlice.length then some (.error .invalidParam)
  else if fromSlice.flowType = toSlice.flowType ∧
      fromSlice.addrs = toSlice.addrs then some (.ok m)
  else if fromSlice.flowType = flowDisk then
    if toSlice.flowType = flowDisk then some (.error .err)
    else copyFromDiskToMemory outcomes fromSlice toSlice m
  else if toSlice.flowType = flowDisk then
    copyFromMemoryToDisk outcomes fromSlice toSlice m
  else copyFromMemoryToMemory outcomes fromSlice toSlice m

/-- The bytes of a buffer, from `offset` on. -/
def buffer (buff : UInt64) (offset len : Nat) : List Place :=
  (List.range' offset len).map (place flowMemory buff)

/-- The loop of `Copy(from, start, len, to)`: the running offsets are 64-bit
    sums, `len1` has 32 bits. -/
def copyRangeFrom (buff : UInt64) (outcomes : Outcomes) :
    Nat → List FlowAddr → UInt64 → UInt64 → UInt64 → UInt32 → Store →
      Except BResult Store
  | _, [], _, _, _, _, m => .ok m
  | k, toAddr :: rest, offset, offset1, offset2, len1, m =>
      let ends := offset + toAddr.chunkLen.toUInt64
      if ends ≤ offset1 then
        copyRangeFrom buff outcomes k rest ends offset1 offset2 len1 m
      else
        let boff := offset1 - offset
        let left := toAddr.chunkLen.toUInt64 - boff
        let blen := if left < len1.toUInt64 then left else len1.toUInt64
        if blen = 0 then .ok m
        else if outcomes k = .ok then
          copyRangeFrom buff outcomes (k + 1) rest ends ends (offset2 + blen)
            (len1.toUInt64 - blen).toUInt32
            (transfer m (toAddr.part flowMemory boff.toNat blen.toNat)
              (buffer buff offset2.toNat blen.toNat))
        else .error (outcomes k)

/-- `CacheSliceOperator::Copy(from, start, len, to)`. -/
def copyRange (outcomes : Outcomes) (buff start : UInt64) (len : UInt32)
    (toSlice : Slice) (m : Store) : Except BResult Store :=
  if buff = 0 then .error .invalidParam
  else if toSlice.flowType ≠ flowMemory then .error .invalidParam
  else copyRangeFrom buff outcomes 0 toSlice.addrs 0 start 0 len m

end UbsIo.Slices
