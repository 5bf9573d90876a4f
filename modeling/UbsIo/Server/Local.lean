import UbsIo.Cache.Entries

/-! # Requests at one node

    `PutLocal`, `UpdateLocal`, `DeleteLocal` and `ReplaceLocal` of
    `mms_kv_server.cpp`, from the decoded items on: each item is one call to the
    cache, and the request goes on after an item that fails.  A node that is
    not serviceable sends puts and updates to `Replace`. -/

namespace UbsIo.Server

open UbsIo.Lib UbsIo.Cache

variable {ι : Type}

/-- What `PutLocal` reads of a `DecodePutItem`; the interface lets no empty
    value through. -/
structure PutItem where
  key : Key
  value : Bytes
  version : UInt64
  nonempty : 0 < value.length

instance : DecidableEq PutItem := fun a b =>
  decidable_of_iff
    (a.key = b.key ∧ a.value = b.value ∧ a.version = b.version) (by
      cases a
      cases b
      simp only [PutItem.mk.injEq])

/-- What `UpdateLocal` and `ReplaceLocal` read of a `DecodeUpdateItem`. -/
structure UpdateItem where
  key : Key
  value : Bytes
  offset : Nat
  version : UInt64
  nonempty : 0 < value.length

instance : DecidableEq UpdateItem := fun a b =>
  decidable_of_iff (a.key = b.key ∧ a.value = b.value ∧
    a.offset = b.offset ∧ a.version = b.version) (by
      cases a
      cases b
      simp only [UpdateItem.mk.injEq])

/-- What `DeleteLocal` reads of a `DecodeDeleteItem`. -/
structure DeleteItem where
  key : Key
  version : UInt64
deriving DecidableEq

/-- The loop over the items of a request: the code of the request is that of
    the last item that does not pass, and each item gets its own code and
    address. -/
def forItems (call : Mem → ι → Grants → Option (Reply × Mem))
    (passes : BResult → Bool) :
    BResult → Mem → List (ι × Grants) → Option (BResult × List Reply × Mem)
  | result, m, [] => some (result, [], m)
  | result, m, (item, g) :: rest => do
      let (reply, m) ← call m item g
      let result := if passes reply.ret then result else reply.ret
      let (result, replies, m) ← forItems call passes result m rest
      some (result, reply :: replies, m)

/-- One item of `PutLocal`; a repeated put counts as done. -/
def putItem (L : Layout) (mServiceable : Bool) (ptId : Nat) (m : Mem)
    (item : PutItem) (g : Grants) : Option (Reply × Mem) := do
  let (reply, m) ←
    if mServiceable then
      put L m g ⟨item.key, item.value, item.version.toUInt32, ptId, true⟩
    else
      replace L m g ⟨item.key, item.value, 0, item.version.toUInt32, ptId⟩
  some ({ reply with
    ret := if reply.ret = .putRepeat then .ok else reply.ret }, m)

/-- One item of `UpdateLocal`. -/
def updateItem (L : Layout) (mServiceable : Bool) (ptId : Nat) (m : Mem)
    (item : UpdateItem) (g : Grants) : Option (Reply × Mem) :=
  if mServiceable then
    update L m g ⟨item.key, item.value, item.offset, item.version.toUInt32⟩
  else
    replace L m g
      ⟨item.key, item.value, item.offset, item.version.toUInt32, ptId⟩

/-- One item of `DeleteLocal`. -/
def deleteItem (L : Layout) (m : Mem) (item : DeleteItem) (g : Grants) :
    Option (Reply × Mem) :=
  delete L m g item.key item.version.toUInt32

/-- One item of `ReplaceLocal`. -/
def replaceItem (L : Layout) (ptId : Nat) (m : Mem) (item : UpdateItem)
    (g : Grants) : Option (Reply × Mem) :=
  replace L m g
    ⟨item.key, item.value, item.offset, item.version.toUInt32, ptId⟩

/-- `PutLocal`. -/
def putLocal (L : Layout) (mServiceable : Bool) (ptId : Nat) (m : Mem)
    (items : List (PutItem × Grants)) :
    Option (BResult × List Reply × Mem) :=
  forItems (putItem L mServiceable ptId) (fun ret => ret == .ok) .ok m items

/-- `UpdateLocal`. -/
def updateLocal (L : Layout) (mServiceable : Bool) (ptId : Nat) (m : Mem)
    (items : List (UpdateItem × Grants)) :
    Option (BResult × List Reply × Mem) :=
  forItems (updateItem L mServiceable ptId) (fun ret => ret == .ok) .ok m items

/-- `DeleteLocal`: a key that is not there is no error of the request. -/
def deleteLocal (L : Layout) (m : Mem) (items : List (DeleteItem × Grants)) :
    Option (BResult × List Reply × Mem) :=
  forItems (deleteItem L)
    (fun ret => ret == .ok || ret == .keyNotExists) .ok m items

/-- `ReplaceLocal`. -/
def replaceLocal (L : Layout) (ptId : Nat) (m : Mem)
    (items : List (UpdateItem × Grants)) :
    Option (BResult × List Reply × Mem) :=
  forItems (replaceItem L ptId) (fun ret => ret == .ok) .ok m items

/-- The memory after the loop is that of the calls one after another. -/
theorem forItems_mem {call : Mem → ι → Grants → Option (Reply × Mem)}
    {passes : BResult → Bool} : ∀ (items : List (ι × Grants))
    (result : BResult) (m : Mem),
    (forItems call passes result m items).map (fun out => out.2.2) =
      runFrom (fun m p => (call m p.1 p.2).map Prod.snd) m items := by
  intro items
  induction items with
  | nil => exact fun _ _ => rfl
  | cons p rest ih =>
      intro result m
      obtain ⟨item, g⟩ := p
      cases hcall : call m item g with
      | none => simp [forItems, runFrom, hcall]
      | some out =>
          obtain ⟨reply, m'⟩ := out
          have hrest := ih (if passes reply.ret then result else reply.ret) m'
          rw [runFrom, hcall, Option.map_some, Option.bind_some, ← hrest]
          simp only [forItems, hcall, Option.bind_eq_bind, Option.bind_some]
          cases forItems call passes
              (if passes reply.ret then result else reply.ret) m' rest with
          | none => rfl
          | some out => rfl

end UbsIo.Server
