import UbsIo.Cache.Refine

/-! # The two loops of Get

    `MmsGet` of `mms_kv_client.cpp` and `Get` of `mms_kv_server.cpp` ask the
    cache for one item after the other and store what it answers.  They are the
    same loop with counters of different widths: 16 bits in the client, 32 bits
    in the server. -/

namespace UbsIo.Client

open UbsIo.Cache

/-- What `*value` is: null, a buffer of the caller, or a block of the cache
    that `Get` has handed out. -/
inductive Value where
  | null
  | buffer (bytes : Bytes)
  | block (b : Addr)
deriving DecidableEq, Repr

/-- A `GetItems` with the cells it points to. -/
structure GetItem where
  key : Key
  offset : UInt32
  length : UInt32
  value : Value
  realLength : UInt32
  result : BResult
deriving DecidableEq

/-- The caller's items: none has a block of the cache as its buffer. -/
def GetItem.Own (item : GetItem) : Prop := ∀ b, item.value ≠ .block b

/-- `*value` after a call: bytes go into the caller's buffer, an address
    replaces a null pointer.  There is none for a copy into the cache itself. -/
def storeValue (reply : Reply) : Value → Option Value
  | .null => some (reply.valueAddr.elim .null .block)
  | .buffer bytes => some (.buffer (overlay bytes 0 reply.data))
  | .block _ => none

/-- The body of both loops. -/
def getItem (L : Layout) (m : Mem) (item : GetItem) : Option GetItem := do
  let reply ← Cache.get L m ⟨item.key, item.offset.toNat, item.length.toNat,
    decide (item.value = .null)⟩
  let value ← storeValue reply item.value
  some { item with
    value
    realLength := UInt32.ofNat (reply.realLength.getD 0)
    result := reply.ret }

/-- The loop with a counter of `w` bits: it returns as soon as the counter is
    not below `itemNum`.  Without fuel it has not returned. -/
def getLoop {w : Nat} (L : Layout) (m : Mem) (itemNum : UInt32) :
    Nat → BitVec w → BResult → List GetItem →
      Option (BResult × List GetItem)
  | 0, _, _, _ => none
  | fuel + 1, index, result, itemList =>
      if index.toNat < itemNum.toNat then do
        let item ← itemList[index.toNat]?
        let item ← getItem L m item
        getLoop L m itemNum fuel (index + 1)
          (if item.result = .ok then result else item.result)
          (itemList.set index.toNat item)
      else some (result, itemList)

/-- `MmsKvClient::MmsGet`. -/
def mmsGet (L : Layout) (m : Mem) (itemList : List GetItem)
    (itemNum : UInt32) (fuel : Nat) : Option (BResult × List GetItem) :=
  getLoop L m itemNum fuel (0 : BitVec 16) .ok itemList

/-- `MmsKvServer::Get`. -/
def serverGet (L : Layout) (mServiceable : Bool) (m : Mem)
    (itemList : List GetItem) (itemNum : UInt32) (fuel : Nat) :
    Option (BResult × List GetItem) :=
  if mServiceable then
    getLoop L m itemNum fuel (0 : BitVec 32) .ok itemList
  else some (.notReady, itemList)

/-- A call returns this. -/
def Returns {α : Type} (call : Nat → Option α) (a : α) : Prop :=
  ∃ fuel, call fuel = some a

/-! ## One item -/

variable {L : Layout} {m : Mem} {c : SlotId → List Addr}

theorem getDataFromBlock_returns {v : IndexValue} (h : Filled L m v)
    (offset n : Nat) : ∃ data, getDataFromBlock L m v offset n = some data := by
  obtain ⟨b, d, hb, hd, -⟩ := h
  unfold getDataFromBlock blockRange
  rw [hb]
  simp only [Option.bind_eq_bind, Option.bind_some, hd]
  split
  · exact ⟨_, rfl⟩
  · split
    · exact ⟨_, rfl⟩
    · simp only [Option.bind_some]
      split
      · exact ⟨_, rfl⟩
      · exact ⟨_, rfl⟩

/-- A cache in order answers every `Get`. -/
theorem get_returns (h : Inv L m c) (para : GetPara) :
    ∃ reply, Cache.get L m para = some reply := by
  rcases h.chains.cases para.key with
    ⟨-, hfind, -⟩ | ⟨a, u, pre, post, n, hl, -, -, hfind, hn, rfl, -⟩
  · refine ⟨{ ret := .notExists, realLength := some 0 }, ?_⟩
    simp only [Cache.get, hfind, Option.bind_eq_bind, Option.bind_some]
  have hheld := h.blocks.own _ u hl
  simp only [Cache.get, hfind, hn, hl, Option.bind_eq_bind, Option.bind_some]
  cases hb : u.blockOffset with
  | none =>
      -- a tombstone has no bytes
      have hlen : u.totalDataLen = 0 := by
        rw [Holds, hb] at hheld
        exact hheld.1
      cases para.wantAddr with
      | true =>
          rw [getDataAddrFromBlock, blockRange, hlen]
          exact ⟨_, rfl⟩
      | false =>
          rw [hlen, if_neg Bool.false_ne_true, if_pos (Nat.zero_le _)]
          exact ⟨_, rfl⟩
  | some b =>
      have hfilled := hheld.filled hb
      cases para.wantAddr with
      | true =>
          obtain ⟨b', d, -, -, -, haddr⟩ := getDataAddrFromBlock_eq hfilled
          rw [if_pos rfl, haddr]
          simp only [Option.bind_some]
          split
          · exact ⟨_, rfl⟩
          · exact ⟨_, rfl⟩
      | false =>
          rw [if_neg Bool.false_ne_true]
          split
          · exact ⟨_, rfl⟩
          · obtain ⟨data, hdata⟩ := getDataFromBlock_returns hfilled
              para.offset (min (u.totalDataLen - para.offset) para.length)
            rw [hdata, Option.bind_some]
            split
            · exact ⟨_, rfl⟩
            · exact ⟨_, rfl⟩

/-- An item of the caller gets its answer. -/
theorem getItem_returns (h : Inv L m c) {item : GetItem} (hown : item.Own) :
    ∃ item', getItem L m item = some item' := by
  obtain ⟨reply, hreply⟩ := get_returns h ⟨item.key, item.offset.toNat,
    item.length.toNat, decide (item.value = .null)⟩
  simp only [getItem, hreply, Option.bind_eq_bind, Option.bind_some]
  cases hvalue : item.value with
  | null => exact ⟨_, rfl⟩
  | buffer bytes => exact ⟨_, rfl⟩
  | block b => exact absurd hvalue (hown b)

/-! ## The loop -/

/-- The code of a request: that of the last item that fails. -/
def lastFailure (result : BResult) (itemList : List GetItem) : BResult :=
  itemList.foldl (fun result item =>
    if item.result = .ok then result else item.result) result

/-- **THE LOOP ENDS** if its counter can count the items: each item has been
    answered once, whatever the width. -/
theorem getLoop_spec {w : Nat} {itemNum : UInt32}
    (hnum : itemNum.toNat < 2 ^ w) {done answered : List GetItem} :
    ∀ {todo : List GetItem} {index : BitVec w} {result : BResult},
      List.Forall₂ (fun item item' => getItem L m item = some item')
        todo answered →
      index.toNat = done.length →
      itemNum.toNat = done.length + todo.length →
      getLoop L m itemNum (todo.length + 1) index result (done ++ todo)
        = some (lastFailure result answered, done ++ answered) := by
  intro todo
  induction todo generalizing done answered with
  | nil =>
      intro index result hall hindex hlen
      cases hall
      have hout : ¬ index.toNat < itemNum.toNat := by
        rw [hindex, hlen]
        exact lt_irrefl _
      rw [getLoop, if_neg hout]
      rfl
  | cons item todo ih =>
      intro index result hall hindex hlen
      cases hall with
      | @cons _ item' _ answered hitem hrest =>
          have hin : index.toNat < itemNum.toNat := by
            rw [hindex, hlen, List.length_cons]
            omega
          have hget : (done ++ item :: todo)[index.toNat]? = some item := by
            rw [hindex, List.getElem?_append_right (le_refl _), Nat.sub_self]
            rfl
          have hset : (done ++ item :: todo).set index.toNat item'
              = (done ++ [item']) ++ todo := by
            rw [hindex, List.set_append_right _ _ (le_refl _), Nat.sub_self,
              List.append_assoc]
            rfl
          have hnext : (index + 1).toNat = (done ++ [item']).length := by
            have hlt : done.length + 1 < 2 ^ w := by
              rw [List.length_cons] at hlen
              omega
            rw [BitVec.toNat_add, hindex, List.length_append,
              List.length_singleton]
            show (done.length + (BitVec.ofNat w 1).toNat) % 2 ^ w = _
            rw [BitVec.toNat_ofNat, Nat.add_mod_mod, Nat.mod_eq_of_lt hlt]
          rw [List.length_cons, getLoop, if_pos hin]
          simp only [hget, hitem, hset, Option.bind_eq_bind, Option.bind_some]
          have hlen' : itemNum.toNat
              = (done ++ [item']).length + todo.length := by
            rw [hlen, List.length_append, List.length_singleton,
              List.length_cons]
            omega
          rw [ih hrest hnext hlen', List.append_assoc]
          rfl

/-- A counter that is too narrow is always below `itemNum`. -/
theorem getLoop_endless {w : Nat} {itemNum : UInt32}
    (hnum : 2 ^ w ≤ itemNum.toNat) :
    ∀ (fuel : Nat) (index : BitVec w) (result : BResult)
      (itemList : List GetItem),
      getLoop L m itemNum fuel index result itemList = none := by
  intro fuel
  induction fuel with
  | zero => exact fun _ _ _ => rfl
  | succ fuel ih =>
      intro index result itemList
      have hin : index.toNat < itemNum.toNat := index.isLt.trans_le hnum
      rw [getLoop, if_pos hin]
      simp only [ih, Option.bind_eq_bind, Option.bind_fun_none]

/-- Every item of the caller's list has an answer. -/
theorem answers_of_own (h : Inv L m c) {itemList : List GetItem}
    (hown : ∀ item ∈ itemList, item.Own) :
    ∃ answered, List.Forall₂ (fun item item' => getItem L m item = some item')
      itemList answered := by
  induction itemList with
  | nil => exact ⟨[], .nil⟩
  | cons item itemList ih =>
      obtain ⟨item', hitem⟩ :=
        getItem_returns h (hown item (List.mem_cons_self ..))
      obtain ⟨answered, hrest⟩ :=
        ih fun x hx => hown x (List.mem_cons_of_mem _ hx)
      exact ⟨item' :: answered, .cons hitem hrest⟩

/-- **SEPARATED AND EMBEDDED GET**: over a cache in order, the client's loop
    returns what the server's loop returns exactly if the items can be counted
    with 16 bits. -/
theorem mmsGet_agrees_iff (h : Inv L m c) (itemList : List GetItem)
    (itemNum : UInt32) (hlen : itemList.length = itemNum.toNat)
    (hown : ∀ item ∈ itemList, item.Own) :
    (∃ r, Returns (mmsGet L m itemList itemNum) r ∧
        Returns (serverGet L true m itemList itemNum) r) ↔
      itemNum.toNat < 2 ^ 16 := by
  constructor
  · rintro ⟨r, ⟨fuel, hclient⟩, -⟩
    by_contra hnum
    rw [mmsGet, getLoop_endless (not_lt.mp hnum)] at hclient
    cases hclient
  · intro hnum
    obtain ⟨answered, hall⟩ := answers_of_own h hown
    have hall32 : itemNum.toNat < 2 ^ 32 := itemNum.toNat_lt
    have hfirst : itemNum.toNat = ([] : List GetItem).length
        + itemList.length := by
      rw [hlen, List.length_nil, Nat.zero_add]
    exact ⟨(lastFailure .ok answered, answered),
      ⟨itemList.length + 1, getLoop_spec hnum hall rfl hfirst⟩,
      ⟨itemList.length + 1, getLoop_spec hall32 hall rfl hfirst⟩⟩

/-- A caller that asks for one key. -/
def oneItem : GetItem :=
  ⟨keyA, 0, 1, .buffer [0], 0, .ok⟩

theorem mmsGet_agrees_once : ∃ r,
    Returns (mmsGet twoBuckets init [oneItem] 1) r ∧
      Returns (serverGet twoBuckets true init [oneItem] 1) r := by
  obtain ⟨c, hinv⟩ := (serving_init twoBuckets).inv
  refine (mmsGet_agrees_iff hinv [oneItem] 1 rfl ?_).mpr (by decide)
  intro item hitem b
  rw [List.mem_singleton.mp hitem]
  exact Value.noConfusion

/-- The key 65536 times: the client never returns. -/
theorem mmsGet_endless :
    (∃ r, Returns (serverGet twoBuckets true init
        (List.replicate 65536 oneItem) 65536) r) ∧
      ∀ r, ¬ Returns (mmsGet twoBuckets init
        (List.replicate 65536 oneItem) 65536) r := by
  obtain ⟨c, hinv⟩ := (serving_init twoBuckets).inv
  have hown : ∀ item ∈ List.replicate 65536 oneItem, item.Own := by
    intro item hitem b
    rw [List.eq_of_mem_replicate hitem]
    exact Value.noConfusion
  have hlen : (65536 : UInt32).toNat
      = ([] : List GetItem).length + (List.replicate 65536 oneItem).length := by
    rw [List.length_replicate]
    rfl
  generalize List.replicate 65536 oneItem = itemList at hown hlen ⊢
  obtain ⟨answered, hall⟩ := answers_of_own hinv hown
  have hserver : (65536 : UInt32).toNat < 2 ^ 32 := UInt32.toNat_lt _
  have hclient : 2 ^ 16 ≤ (65536 : UInt32).toNat := by decide
  have hrun : getLoop twoBuckets init 65536 (itemList.length + 1)
      (0 : BitVec 32) .ok itemList
      = some (lastFailure .ok answered, answered) :=
    getLoop_spec hserver hall rfl hlen
  refine ⟨⟨_, itemList.length + 1, hrun⟩, ?_⟩
  rintro r ⟨fuel, hreturn⟩
  rw [mmsGet, getLoop_endless hclient] at hreturn
  cases hreturn

end UbsIo.Client
