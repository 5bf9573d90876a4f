import UbsIo.Message.Retry
import UbsIo.Server.Local

/-! # Offsets of updates

    `UpdateItems` and `ReplaceItems` have offsets of 32 bits, an `IoLocDesc`
    one of 24 bits.  What the nodes apply is the item with its offset cut to
    24 bits (`decoded_received`).  The write lands where the caller wants it,
    or is refused, under a condition on the offset and on the entry before. -/

namespace UbsIo.Server

open UbsIo.Lib UbsIo.Cache UbsIo.Message

variable {L : Layout} {m : Mem} {c : SlotId → List Addr}

/-! ## What arrives -/

/-- The call that a node makes for an item. -/
inductive Op where
  | update
  | replace
deriving DecidableEq

def Op.apply (op : Op) (L : Layout) (mServiceable : Bool) (ptId : Nat)
    (m : Mem) (item : UpdateItem) (g : Grants) : Option (Reply × Mem) :=
  match op with
  | .update => updateItem L mServiceable ptId m item g
  | .replace => replaceItem L ptId m item g

/-- `Cache::Update` is called; otherwise it is `Cache::Replace`. -/
def Op.updates (op : Op) (mServiceable : Bool) : Prop :=
  op = .update ∧ mServiceable = true

instance (op : Op) (mServiceable : Bool) :
    Decidable (op.updates mServiceable) :=
  inferInstanceAs (Decidable (op = .update ∧ mServiceable = true))

/-- The bytes at `[offset, offset + value.length)` are the value, and all
    others are as before. -/
def WrittenAt (old : Bytes) (offset : Nat) (value new : Bytes) : Prop :=
  offset ≤ old.length ∧ new = overlay old offset value

/-- The bytes stored for a key. -/
def storedBytes (L : Layout) (m : Mem) (k : Key) : Option Bytes :=
  (contents L m k).map Entry.bytes

/-- A call is refused and the value is unchanged, or exactly the bytes of the
    caller are written. -/
def Faithful (L : Layout) (m : Mem) (item : UpdateItems)
    (res : Option (Reply × Mem)) : Prop :=
  ∃ r m', res = some (r, m') ∧
    (r.ret ≠ .ok ∧ storedBytes L m' item.key = storedBytes L m item.key ∨
      r.ret = .ok ∧ ∃ new, storedBytes L m' item.key = some new ∧
        WrittenAt ((storedBytes L m item.key).getD []) item.offset.toNat
          item.value new)

end UbsIo.Server
