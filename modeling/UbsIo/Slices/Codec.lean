import UbsIo.Slices.Model
import UbsIo.Lib.Bytes

/-! # Slices in messages

    `Serialize` writes the fields of a slice one after the other into a buffer,
    `Deserialize` reads them back from a message.  An `RCacheSlice` and a
    `WCacheSlice` put their own fields before those of the `Slice`.

    The reader keeps a list of what it has read: a place in the memory of the
    message and a number of bytes.  Numbers lie in memory in little-endian
    order.  The null pointer is address 0. -/

namespace UbsIo.Slices

open UbsIo.Lib

abbrev Bytes := List UInt8

structure RCacheSlice where
  ptId : UInt16
  slice : Slice
deriving DecidableEq, Repr

structure WCacheSlice where
  flowId : UInt64
  offsetInFlow : UInt64
  indexInFlow : UInt64
  slice : Slice
deriving DecidableEq, Repr

/-- `sizeof(FlowAddr)`. -/
def flowAddrSize : Nat := 16

/-- A `FlowAddr` in memory. -/
def FlowAddr.bytes (a : FlowAddr) : Bytes :=
  leBytes 8 a.chunkId.toNat ++ leBytes 4 a.chunkOffset.toNat ++
    leBytes 4 a.chunkLen.toNat

def FlowAddr.ofBytes (b : Bytes) : FlowAddr where
  chunkId := UInt64.ofNat (leNat (b.take 8))
  chunkOffset := UInt32.ofNat (leNat ((b.drop 8).take 4))
  chunkLen := UInt32.ofNat (leNat ((b.drop 12).take 4))

def Slice.getSerializeLen (s : Slice) : Nat :=
  4 + 2 + 8 + 8 + flowAddrSize * s.addrs.length

def RCacheSlice.getSerializeLen (s : RCacheSlice) : Nat :=
  2 + s.slice.getSerializeLen

def WCacheSlice.getSerializeLen (s : WCacheSlice) : Nat :=
  8 + 8 + 8 + s.slice.getSerializeLen

/-! ## Serialize -/

/-- A buffer that is being filled: `pos` bytes have been written, `cpyLen` are
    left. -/
structure Writer where
  data : Bytes
  pos : Nat
  cpyLen : Nat

/-- A `memcpy_s` to the buffer.  It refuses a destination that is empty, longer
    than it allows at all, or too short. -/
def Writer.put (memMaxLen : Nat) (b : Bytes) (w : Writer) :
    Except BResult Writer :=
  if 0 < w.cpyLen ∧ w.cpyLen ≤ memMaxLen ∧ b.length ≤ w.cpyLen then
    .ok ⟨w.data.take w.pos ++ b ++ w.data.drop (w.pos + b.length),
      w.pos + b.length, w.cpyLen - b.length⟩
  else .error .innerErr

/-- The addresses, one after the other. -/
def putAddrs (memMaxLen : Nat) : List FlowAddr → Writer → Except BResult Writer
  | [], w => .ok w
  | a :: rest, w => do
      let w ← w.put memMaxLen a.bytes
      putAddrs memMaxLen rest w

def Slice.write (memMaxLen : Nat) (s : Slice) (w : Writer) :
    Except BResult Writer := do
  let w ← w.put memMaxLen (leBytes 4 s.dataCrc.toNat)
  let w ← w.put memMaxLen (leBytes 2 s.flowType.toNat)
  let w ← w.put memMaxLen (leBytes 8 s.length.toNat)
  let w ← w.put memMaxLen (leBytes 8 s.addrs.length)
  putAddrs memMaxLen s.addrs w

def RCacheSlice.write (memMaxLen : Nat) (s : RCacheSlice) (w : Writer) :
    Except BResult Writer := do
  let w ← w.put memMaxLen (leBytes 2 s.ptId.toNat)
  s.slice.write memMaxLen w

def WCacheSlice.write (memMaxLen : Nat) (s : WCacheSlice) (w : Writer) :
    Except BResult Writer := do
  let w ← w.put memMaxLen (leBytes 8 s.flowId.toNat)
  let w ← w.put memMaxLen (leBytes 8 s.offsetInFlow.toNat)
  let w ← w.put memMaxLen (leBytes 8 s.indexInFlow.toNat)
  s.slice.write memMaxLen w

/-- An object of one of the three kinds. -/
inductive AnySlice where
  | slice (s : Slice)
  | rCache (s : RCacheSlice)
  | wCache (s : WCacheSlice)
deriving DecidableEq, Repr

inductive SliceKind where
  | slice | rCache | wCache
deriving DecidableEq, Repr

def AnySlice.kind : AnySlice → SliceKind
  | .slice _ => .slice
  | .rCache _ => .rCache
  | .wCache _ => .wCache

def AnySlice.base : AnySlice → Slice
  | .slice s => s
  | .rCache s => s.slice
  | .wCache s => s.slice

def AnySlice.getSerializeLen : AnySlice → Nat
  | .slice s => s.getSerializeLen
  | .rCache s => s.getSerializeLen
  | .wCache s => s.getSerializeLen

def AnySlice.write (memMaxLen : Nat) : AnySlice → Writer →
    Except BResult Writer
  | .slice s => s.write memMaxLen
  | .rCache s => s.write memMaxLen
  | .wCache s => s.write memMaxLen

/-- `Serialize`: what is in the buffer, and the length; no buffer is
    `nullptr`. -/
def AnySlice.serialize (memMaxLen : Nat) (s : AnySlice) :
    Option Bytes → Except BResult (Bytes × Nat)
  | none => .error .invalidParam
  | some data => do
      let w ← s.write memMaxLen ⟨data, 0, data.length⟩
      return (w.data, w.pos)

/-! ## Deserialize -/

/-- A reader has a list of what it has read. -/
abbrev Decode := ExceptT BResult (StateM (List (Nat × Nat)))

/-- The memory from which a message is read. -/
abbrev Memory := Nat → UInt8

/-- `n` bytes from `address` on. -/
def load (mem : Memory) (address n : Nat) : Decode Bytes := do
  modify fun reads => reads ++ [(address, n)]
  return (List.range' address n).map mem

/-- A field of `n` bytes at `pos`, if the message is long enough. -/
def field (mem : Memory) (data length pos n : Nat) : Decode Bytes :=
  if length < pos + n then throw .invalidParam else load mem (data + pos) n

def addrsFrom (mem : Memory) (data length : Nat) :
    Nat → Nat → Decode (List FlowAddr)
  | _, 0 => return []
  | pos, vsize + 1 => do
      let b ← field mem data length pos flowAddrSize
      let rest ← addrsFrom mem data length (pos + flowAddrSize) vsize
      return FlowAddr.ofBytes b :: rest

def Slice.deserialize (mem : Memory) (data length : Nat) : Decode Slice := do
  if data = 0 then throw .invalidParam
  let dataCrc ← field mem data length 0 4
  let flowType ← field mem data length 4 2
  let sliceLength ← field mem data length 6 8
  let vsize ← field mem data length 14 8
  if 4 < leNat vsize then throw .invalidParam
  let addrs ← addrsFrom mem data length 22 (leNat vsize)
  return ⟨UInt32.ofNat (leNat dataCrc), UInt16.ofNat (leNat flowType),
    UInt64.ofNat (leNat sliceLength), addrs⟩

def RCacheSlice.deserialize (mem : Memory) (data length : Nat) :
    Decode RCacheSlice := do
  if data = 0 then throw .invalidParam
  let ptId ← field mem data length 0 2
  let slice ← Slice.deserialize mem (data + 2) (length - 2)
  return ⟨UInt16.ofNat (leNat ptId), slice⟩

def WCacheSlice.deserialize (mem : Memory) (data length : Nat) :
    Decode WCacheSlice := do
  if data = 0 then throw .invalidParam
  let flowId ← field mem data length 0 8
  let offsetInFlow ← field mem data length 8 8
  let indexInFlow ← field mem data length 16 8
  let slice ← Slice.deserialize mem (data + 24) (length - 24)
  return ⟨UInt64.ofNat (leNat flowId), UInt64.ofNat (leNat offsetInFlow),
    UInt64.ofNat (leNat indexInFlow), slice⟩

/-- `Deserialize` into a new object. -/
def deserialize (kind : SliceKind) (mem : Memory) (data length : Nat) :
    Decode AnySlice :=
  match kind with
  | .slice => do
      let s ← Slice.deserialize mem data length
      return .slice s
  | .rCache => do
      let s ← RCacheSlice.deserialize mem data length
      return .rCache s
  | .wCache => do
      let s ← WCacheSlice.deserialize mem data length
      return .wCache s

end UbsIo.Slices
