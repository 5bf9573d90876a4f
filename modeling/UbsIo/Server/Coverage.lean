import UbsIo.Server.Batch

/-! # What the loop covers

    A round of the loop fills the results of the items it has sent, or of the
    first item, and frees the blocks it has got; so a call ends after a round
    for each item at most, with a result in each of them. -/

namespace UbsIo.Server

open UbsIo.Lib UbsIo.Cache UbsIo.Message
open UbsIo.Client (Code storeCell fillNoValueItemResultsAfterSend
  fillPutItemResultsAfterSend fillPutValueAddr resultAfterSend
  ioRetryInteral)

variable {c : Config} {W : Type}

/-! ## Results behind results -/

/-- The pointers of the first `n` items are set. -/
def PointersSet {α : Type} (n : Nat) (cells : List (Option α)) : Prop :=
  ∀ i, i < n → ∃ x, cells[i]? = some (some x)

/-- The first cells hold these results. -/
def after (cells : List Cell) (rs : List Code) : List Cell :=
  rs.map some ++ cells.drop rs.length

theorem after_nil (cells : List Cell) : after cells [] = cells := rfl

section Store

variable {cells : List Cell} {rs : List Code} {n : Nat}

/-- The next cell. -/
theorem after_next (hset : PointersSet n cells) (hlt : rs.length < n) :
    ∃ x, after cells rs
      = rs.map some ++ some x :: cells.drop (rs.length + 1) := by
  obtain ⟨x, hx⟩ := hset rs.length hlt
  obtain ⟨hlen, hget⟩ := List.getElem?_eq_some_iff.mp hx
  refine ⟨x, ?_⟩
  rw [after, List.drop_eq_getElem_cons hlen, hget]

theorem after_append (r : Code) :
    after cells (rs ++ [r])
      = rs.map some ++ some r :: cells.drop (rs.length + 1) := by
  rw [after, List.map_append, List.length_append, List.append_assoc]
  rfl

theorem setCell_after (hset : PointersSet n cells) (hlt : rs.length < n)
    (r : Code) :
    setCell (after cells rs) rs.length r = after cells (rs ++ [r]) := by
  obtain ⟨x, hx⟩ := after_next hset hlt
  have hmid := modify_middle (Option.map fun _ => r) (some x)
    (cells.drop (rs.length + 1)) (rs.map some)
  rw [List.length_map] at hmid
  rw [setCell, hx, hmid, after_append]
  rfl

theorem storeCell_after (hset : PointersSet n cells) (hlt : rs.length < n)
    (r : Code) :
    storeCell (after cells rs) rs.length r
      = some (after cells (rs ++ [r])) := by
  obtain ⟨x, hx⟩ := after_next hset hlt
  have hlen : (rs.map some).length = rs.length := List.length_map _
  have hget : (after cells rs)[rs.length]? = some (some x) := by
    rw [hx, List.getElem?_append_right (le_of_eq hlen), hlen, Nat.sub_self]
    rfl
  have hput : (after cells rs).set rs.length (some r)
      = after cells (rs ++ [r]) := by
    rw [hx, List.set_append_right _ _ (le_of_eq hlen), hlen, Nat.sub_self,
      after_append]
    rfl
  rw [storeCell, hget]
  exact congrArg some hput

end Store

/-- A store through a pointer that is set leaves the pointers set, and changes
    one place. -/
theorem storeCell_set {α : Type} {cells : List (Option α)} {n i : Nat}
    (hset : PointersSet n cells) (hi : i < n) (a : α) :
    ∃ cells', storeCell cells i a = some cells' ∧ PointersSet n cells' ∧
      ∀ j, j ≠ i → cells'[j]? = cells[j]? := by
  obtain ⟨x, hx⟩ := hset i hi
  have hlen := (List.getElem?_eq_some_iff.mp hx).1
  refine ⟨cells.set i (some a), ?_, ?_, ?_⟩
  · rw [storeCell, hx]
  · intro j hj
    by_cases hij : j = i
    · rw [hij]
      exact ⟨a, List.getElem?_set_self hlen⟩
    · rw [List.getElem?_set_ne (Ne.symm hij)]
      exact hset j hj
  · intro j hj
    exact List.getElem?_set_ne (Ne.symm hj)

theorem modify_set {α : Type} {cells : List (Option α)} {n i : Nat}
    (hset : PointersSet n cells) (a : α) :
    PointersSet n (cells.modify i (Option.map fun _ => a)) := by
  intro j hj
  obtain ⟨x, hx⟩ := hset j hj
  rw [List.getElem?_modify, hx]
  by_cases hij : i = j
  · exact ⟨a, by simp [hij]⟩
  · exact ⟨x, by simp [hij]⟩

/-- What the items point to, once the first of them have these results. -/
structure Filled (d : Driver c) (first : Cells) (rs : List Code)
    (cells : Cells) : Prop where
  results : cells.1 = after first.1 rs
  others : ∀ i, d.itemNum ≤ i → cells.2[i]? = first.2[i]?
  addrs : d.kind = .put → PointersSet d.itemNum cells.2

/-- The pointers of the caller's items are set. -/
structure Ready (d : Driver c) (cells : Cells) : Prop where
  results : PointersSet d.itemNum cells.1
  addrs : d.kind = .put → PointersSet d.itemNum cells.2

theorem Ready.filled {d : Driver c} {cells : Cells} (h : Ready d cells) :
    Filled d cells [] cells :=
  ⟨rfl, fun _ _ => rfl, h.addrs⟩

/-- The walkers go through the items one by one. -/
theorem fillAll_rule {σ : Type} {f : σ → Nat → IoLocDesc → σ}
    {g : Slot → Code} {P : List Code → σ → Prop} {n : Nat}
    (hstep : ∀ rs t s, P rs t → rs.length < n →
      P (rs ++ [g s]) (f t rs.length s.desc)) :
    ∀ (l : List Slot) (rs : List Code) (t : σ), P rs t →
      rs.length + l.length ≤ n →
      P (rs ++ l.map g) (fillAll f rs.length l t) := by
  intro l
  induction l with
  | nil =>
      intro rs t h _
      rw [List.map_nil, List.append_nil]
      exact h
  | cons s l ih =>
      intro rs t h hle
      rw [List.length_cons] at hle
      have hnext := ih (rs ++ [g s]) (f t rs.length s.desc)
        (hstep rs t s h (by omega))
        (by rw [List.length_append, List.length_singleton]; omega)
      rw [List.length_append, List.length_singleton, List.append_assoc] at hnext
      exact hnext

/-! ## The copies -/

/-- What the loop needs of a copy. -/
structure Driver.Good (d : Driver c) : Prop where
  encode : ∀ r cur, cur < d.itemNum → ∃ fs,
    d.encode r cur = encodeRequest c d.kind r.supply fs ∧
      fs.length = d.itemNum - cur ∧ ∀ f ∈ fs, f.Sound d.kind
  fill : ∀ {first cells rs items ls}, Ready d first →
    Filled d first rs cells → List.Forall₂ (Carries d.kind) items ls →
    rs.length + ls.flatten.length ≤ d.itemNum →
    ∃ cells', d.fill rs.length items cells
        = some (rs.length + ls.flatten.length, cells') ∧
      Filled d first (rs ++ ls.flatten.map Slot.result) cells'
  fillAfterSend : ∀ {first cells rs items ls} (ret : Code), Ready d first →
    Filled d first rs cells → List.Forall₂ (Carries d.kind) items ls →
    rs.length + ls.flatten.length ≤ d.itemNum →
    ∃ cells', d.fillAfterSend rs.length ret items cells
        = some (rs.length + ls.flatten.length, cells') ∧
      Filled d first
        (rs ++ ls.flatten.map fun s => resultAfterSend ret s.desc) cells'

theorem stamp_drop {α : Type} (version : Nat → UInt64) (items : List α)
    (cur : Nat) : (stamp version (items.drop cur)).length
      = items.length - cur := by
  rw [stamp, List.length_mapIdx, List.length_drop]

/-- The walkers of the operations without addresses. -/
theorem onResults_filled {d : Driver c} (hkind : d.kind ≠ .put)
    {first cells : Cells} {rs new : List Code}
    {fill : List Cell → Option (Nat × List Cell)} {next : Nat}
    (h : Filled d first rs cells)
    (hfill : fill (after first.1 rs) = some (next, after first.1 (rs ++ new))) :
    ∃ cells', onResults fill cells = some (next, cells') ∧
      Filled d first (rs ++ new) cells' := by
  refine ⟨(after first.1 (rs ++ new), cells.2), ?_, rfl, h.others, ?_⟩
  · rw [onResults, h.results, hfill]
    rfl
  · intro hput
    exact absurd hput hkind

/-- `FillResults` with the stores of updates and deletes. -/
theorem fillResults_results {kind : Kind} {cells : List Cell} {n : Nat}
    (hset : PointersSet n cells) {items : List IOCtxItem}
    {ls : List (List Slot)} (hitems : List.Forall₂ (Carries kind) items ls)
    {rs : List Code} (hle : rs.length + ls.flatten.length ≤ n) :
    fillResults (fun cells index desc => setCell cells index desc.result)
        (kind ≠ .delete) rs.length items (after cells rs)
      = some (rs.length + ls.flatten.length,
        after cells (rs ++ ls.flatten.map Slot.result)) := by
  rw [fillResults_carries hitems]
  have hall := fillAll_rule (g := Slot.result) (n := n)
    (P := fun rs t => t = after cells rs)
    (f := fun cells index desc => setCell cells index desc.result)
    (by
      rintro rs t s rfl hlt
      exact setCell_after hset hlt s.result)
    ls.flatten rs _ rfl hle
  rw [hall]

/-- And those of a request that failed. -/
theorem fillResults_afterSend {kind : Kind} {cells : List Cell} {n : Nat}
    (hset : PointersSet n cells) (ret : Code) {items : List IOCtxItem}
    {ls : List (List Slot)} (hitems : List.Forall₂ (Carries kind) items ls)
    {rs : List Code} (hle : rs.length + ls.flatten.length ≤ n) :
    fillNoValueItemResultsAfterSend (kind ≠ .delete) rs.length ret items
        (after cells rs)
      = some (rs.length + ls.flatten.length, after cells
        (rs ++ ls.flatten.map fun s => resultAfterSend ret s.desc)) := by
  have hall := fillAll_rule
    (g := fun s => resultAfterSend ret s.desc) (n := n)
    (P := fun rs t => t = some (after cells rs))
    (f := fun cells index desc => cells.bind fun cells =>
      storeCell cells index (resultAfterSend ret desc))
    (by
      rintro rs t s rfl hlt
      exact storeCell_after hset hlt (resultAfterSend ret s.desc))
    ls.flatten rs _ rfl hle
  simp only [fillNoValueItemResultsAfterSend, fillResults_carries hitems, hall,
    Option.bind_eq_bind, Option.bind_some]

theorem updateDriver_good (itemList : List UpdateItems) :
    (updateDriver c itemList).Good := by
  have hkind : (updateDriver c itemList).kind ≠ .put := by
    intro h
    cases h
  refine ⟨?_, ?_, ?_⟩
  · intro r cur _
    refine ⟨_, rfl, ?_, ?_⟩
    · rw [List.length_map]
      exact stamp_drop r.version itemList cur
    · intro f hf
      obtain ⟨p, -, rfl⟩ := List.mem_map.mp hf
      refine ⟨?_, fun _ => p.1.nonempty⟩
      intro h
      cases h
  · intro first cells rs items ls hready hfilled hitems hle
    exact onResults_filled hkind hfilled
      (fillResults_results hready.results hitems hle)
  · intro first cells rs items ls ret hready hfilled hitems hle
    exact onResults_filled hkind hfilled
      (fillResults_afterSend hready.results ret hitems hle)

theorem deleteDriver_good (itemList : List DeleteItems) :
    (deleteDriver c itemList).Good := by
  have hkind : (deleteDriver c itemList).kind ≠ .put := by
    intro h
    cases h
  refine ⟨?_, ?_, ?_⟩
  · intro r cur _
    refine ⟨_, rfl, ?_, ?_⟩
    · rw [List.length_map]
      exact stamp_drop r.version itemList cur
    · intro f hf
      obtain ⟨p, -, rfl⟩ := List.mem_map.mp hf
      exact ⟨fun _ => rfl, fun h => absurd rfl h⟩
  · intro first cells rs items ls hready hfilled hitems hle
    exact onResults_filled hkind hfilled
      (fillResults_results hready.results hitems hle)
  · intro first cells rs items ls ret hready hfilled hitems hle
    exact onResults_filled hkind hfilled
      (fillResults_afterSend hready.results ret hitems hle)

/-- The stores of `FillPutItemResultsAfterSend` for an item. -/
def storeAfterSend (ret : Code) (cells : Option Cells) (index : Nat)
    (desc : IoLocDesc) : Option Cells :=
  cells.bind fun cells => do
    let results ← storeCell cells.1 index (resultAfterSend ret desc)
    let addrs ← storeCell cells.2 index
      (if desc.result = code .max then 0 else desc.valueAddr)
    some (results, addrs)

theorem putDriver_good (itemList : List PutItems) :
    (putDriver c itemList).Good := by
  refine ⟨?_, ?_, ?_⟩
  · intro r cur _
    refine ⟨_, rfl, ?_, ?_⟩
    · rw [List.length_map]
      exact stamp_drop r.version itemList cur
    · intro f hf
      obtain ⟨p, -, rfl⟩ := List.mem_map.mp hf
      refine ⟨?_, fun _ => p.1.nonempty⟩
      intro h
      cases h
  · intro first cells rs items ls hready hfilled hitems hle
    have hall := fillAll_rule (g := Slot.result)
      (n := (putDriver c itemList).itemNum)
      (P := Filled (putDriver c itemList) first)
      (f := fun cells index desc =>
        (setCell cells.1 index desc.result,
          cells.2.modify index (Option.map fun _ => desc.valueAddr)))
      (by
        intro rs t s h hlt
        refine ⟨?_, ?_, ?_⟩
        · rw [h.results]
          exact setCell_after hready.results hlt s.result
        · intro i hi
          have hne : rs.length ≠ i := by omega
          show (t.2.modify rs.length _)[i]? = _
          rw [← h.others i hi, List.getElem?_modify_ne _ _ hne]
        · exact fun hput => modify_set (h.addrs hput) _)
      ls.flatten rs cells hfilled hle
    exact ⟨_, fillResults_carries hitems rs.length cells, hall⟩
  · intro first cells rs items ls ret hready hfilled hitems hle
    have hall := fillAll_rule
      (g := fun s => resultAfterSend ret s.desc)
      (n := (putDriver c itemList).itemNum)
      (P := fun rs t => ∃ cells, t = some cells ∧
        Filled (putDriver c itemList) first rs cells)
      (f := storeAfterSend ret)
      (by
        rintro rs t s ⟨cells, rfl, h⟩ hlt
        have hresults := storeCell_after hready.results hlt
          (resultAfterSend ret s.desc)
        rw [← h.results] at hresults
        obtain ⟨addrs, haddrs, hset, hother⟩ := storeCell_set (h.addrs rfl)
          hlt (if s.desc.result = code .max then 0 else s.desc.valueAddr)
        refine ⟨(after first.1 (rs ++ [resultAfterSend ret s.desc]), addrs),
          ?_, rfl, ?_, fun _ => hset⟩
        · simp only [storeAfterSend, Option.bind_some, hresults, haddrs,
            Option.bind_eq_bind]
        · intro i hi
          exact (hother i (by omega)).trans (h.others i hi))
      ls.flatten rs _ ⟨cells, rfl, hfilled⟩ hle
    obtain ⟨cells', hcells', hfilled'⟩ := hall
    refine ⟨cells', ?_, hfilled'⟩
    have hwalk : fillResults (storeAfterSend ret) true rs.length items
        (some cells) = some (rs.length + ls.flatten.length, some cells') :=
      (fillResults_carries hitems rs.length (some cells)).trans
        (congrArg (fun t => some (rs.length + ls.flatten.length, t)) hcells')
    show (fillResults (storeAfterSend ret) true rs.length items
      (some cells)).bind _ = _
    rw [hwalk]
    rfl

/-- Every copy is good. -/
theorem driver_good (c : Config) (r : ListCall) : (r.driver c).Good := by
  cases r with
  | put itemList => exact putDriver_good itemList
  | update itemList => exact updateDriver_good itemList
  | delete itemList => exact deleteDriver_good itemList
  | replace itemList => exact updateDriver_good itemList

theorem driver_itemNum (c : Config) (r : ListCall) :
    (r.driver c).itemNum = r.itemNum := by
  cases r with
  | put itemList => rfl
  | update itemList => rfl
  | delete itemList => rfl
  | replace itemList => rfl

/-! ## Sending -/

/-- What a sender keeps and gives: `I` is an invariant of its state, `Q` what
    is known of the results of a block before it is sent and after it has
    failed, `A` what is known when it has not failed, `F` what is known of the
    codes it fails with. -/
def Sends (c : Config) (kind : Kind) (I : W → Prop)
    (Q A : List Slot → Prop) (F : Code → Prop) (send : Send W) : Prop :=
  ∀ w item l, I w → InUse c kind item l → Q l →
    ∃ ret item' l' w', send w item = some (ret, item', w') ∧
      item'.addr = item.addr ∧ InUse c kind item' l' ∧
      l'.length = l.length ∧ I w' ∧
      (ret = code .ok → A l') ∧ (ret ≠ code .ok → F ret ∧ Q l')

section Sending

variable {kind : Kind} {I : W → Prop} {Q A : List Slot → Prop}
  {F : Code → Prop} {send : Send W}

/-- All blocks are sent, or one fails and those behind it are not sent. -/
theorem handleSendReqs_spec (hsend : Sends c kind I Q A F send) :
    ∀ {items : List IOCtxItem} {ls : List (List Slot)} {w : W}, I w →
      List.Forall₂ (InUse c kind) items ls → (∀ l ∈ ls, Q l) →
      ∃ ret items' ls' w', handleSendReqs send items w
          = some (ret, items', w') ∧
        items'.map (·.addr) = items.map (·.addr) ∧
        List.Forall₂ (InUse c kind) items' ls' ∧
        ls'.flatten.length = ls.flatten.length ∧ I w' ∧
        (ret = code .ok → ∀ l ∈ ls', A l) ∧
        (ret ≠ code .ok → F ret ∧ ∃ l ∈ ls', Q l) := by
  intro items
  induction items with
  | nil =>
      intro ls w hI hitems _
      cases hitems
      refine ⟨_, _, [], w, rfl, rfl, .nil, rfl, hI, ?_, ?_⟩
      · intro _ l hl
        cases hl
      · intro hret
        exact absurd rfl hret
  | cons item items ih =>
      intro ls w hI hitems hQ
      cases hitems with
      | @cons _ l _ ls hitem hitems =>
          obtain ⟨ret, item', l', w', hcall, haddr, huse, hlen, hI', hok,
            hfail⟩ := hsend w item l hI hitem (hQ l (List.mem_cons_self ..))
          by_cases hret : ret = code .ok
          · obtain ⟨ret₂, items', ls', w₂, hrest, haddrs, huses, hlens, hI₂,
              hoks, hfails⟩ := ih hI' hitems
                fun x hx => hQ x (List.mem_cons_of_mem _ hx)
            refine ⟨ret₂, item' :: items', l' :: ls', w₂, ?_, ?_,
              .cons huse huses, ?_, hI₂, ?_, ?_⟩
            · have hpass : ¬ ret ≠ code .ok := not_not.mpr hret
              simp only [handleSendReqs, hcall, hrest, Option.bind_eq_bind,
                Option.bind_some, if_neg hpass]
            · rw [List.map_cons, List.map_cons, haddr, haddrs]
            · rw [List.flatten_cons, List.flatten_cons, List.length_append,
                List.length_append, hlen, hlens]
            · intro hret₂
              exact List.forall_mem_cons.mpr ⟨hok hret, hoks hret₂⟩
            · intro hret₂
              obtain ⟨hF, x, hx, hxQ⟩ := hfails hret₂
              exact ⟨hF, x, List.mem_cons_of_mem _ hx, hxQ⟩
          · refine ⟨ret, item' :: items, l' :: ls, w', ?_, ?_,
              .cons huse hitems, ?_, hI', ?_, ?_⟩
            · simp only [handleSendReqs, hcall, Option.bind_eq_bind,
                Option.bind_some, if_pos hret]
            · rw [List.map_cons, List.map_cons, haddr]
            · rw [List.flatten_cons, List.flatten_cons, List.length_append,
                List.length_append, hlen]
            · intro h
              exact absurd h hret
            · intro _
              exact ⟨(hfail hret).1, l', List.mem_cons_self ..,
                (hfail hret).2⟩

end Sending

/-! ## Blocks -/

/-- What is held after these calls, if only held blocks are freed. -/
def heldAfter : List BlockEvent → Multiset Addr → Option (Multiset Addr)
  | [], held => some held
  | .mmsAlloc a :: es, held => heldAfter es (a ::ₘ held)
  | .mmsFree a :: es, held =>
      if a ∈ held then heldAfter es (held.erase a) else none

/-- Every block that was allocated has been freed once, after it. -/
def FreedOnce (es : List BlockEvent) : Prop := heldAfter es 0 = some 0

theorem heldAfter_append : ∀ (es fs : List BlockEvent)
    (held : Multiset Addr),
    heldAfter (es ++ fs) held = (heldAfter es held).bind (heldAfter fs) := by
  intro es
  induction es with
  | nil => exact fun _ _ => rfl
  | cons e es ih =>
      intro fs held
      cases e with
      | mmsAlloc a => exact ih fs (a ::ₘ held)
      | mmsFree a =>
          show (if _ then _ else _) = Option.bind (if _ then _ else _) _
          split
          · exact ih fs (held.erase a)
          · rfl

theorem heldAfter_alloc : ∀ (as : List Addr) (held : Multiset Addr),
    heldAfter (as.map .mmsAlloc) held = some ((as : Multiset Addr) + held) := by
  intro as
  induction as with
  | nil =>
      intro held
      exact congrArg some (zero_add held).symm
  | cons a as ih =>
      intro held
      have hnext := ih (a ::ₘ held)
      rw [Multiset.add_cons, ← Multiset.cons_add] at hnext
      exact hnext

theorem heldAfter_free : ∀ (as : List Addr) (held : Multiset Addr),
    heldAfter (as.map .mmsFree) ((as : Multiset Addr) + held)
      = some held := by
  intro as
  induction as with
  | nil =>
      intro held
      exact congrArg some (zero_add held)
  | cons a as ih =>
      intro held
      have hmem : a ∈ ((a :: as : List Addr) : Multiset Addr) + held :=
        Multiset.mem_add.mpr (.inl (List.mem_cons_self ..))
      have herase : (((a :: as : List Addr) : Multiset Addr) + held).erase a
          = (as : Multiset Addr) + held := by
        rw [← Multiset.cons_coe, Multiset.cons_add, Multiset.erase_cons_head]
      show (if _ then _ else _) = _
      rw [if_pos hmem, herase]
      exact ih held

/-- A round that frees what it has got. -/
theorem FreedOnce.round {es : List BlockEvent} (h : FreedOnce es)
    (as : List Addr) :
    FreedOnce (es ++ as.map .mmsAlloc ++ as.map .mmsFree) := by
  rw [FreedOnce, heldAfter_append, heldAfter_append, h, Option.bind_some,
    heldAfter_alloc, Option.bind_some]
  exact heldAfter_free as 0

/-! ## Rounds -/

/-- What a round adds to the results, and its effect on the code of the call:
    the results of blocks that did not fail, the results of blocks one of which
    failed, or the code of the encoder. -/
inductive Adds (Q A : List Slot → Prop) (F : Code → Prop) (result : Code) :
    Code → List Code → Prop
  | sent (ls : List (List Slot)) (hls : ∀ l ∈ ls, A l) :
      Adds Q A F result result (ls.flatten.map Slot.result)
  | failed (ret : Code) (hret : ret ≠ code .ok) (hF : F ret)
      (ls : List (List Slot)) (hls : ∃ l ∈ ls, Q l) :
      Adds Q A F result ret
        (ls.flatten.map fun s => resultAfterSend ret s.desc)
  | refused (ret : Code)
      (hret : ret = code .invalidParam ∨ ret = code .allocFail) :
      Adds Q A F result ret [ret]

theorem free_addrs (items : List IOCtxItem) :
    items.map (fun item => BlockEvent.mmsFree item.addr)
      = (items.map (·.addr)).map .mmsFree := by
  rw [List.map_map]
  rfl

section Rounds

variable {d : Driver c} {I : W → Prop} {Q A : List Slot → Prop}
  {F : Code → Prop} {send : Send W}

/-- The result of the first item, when nothing could be encoded. -/
theorem storeFailure_filled {first cells : Cells} {done : List Code}
    (hready : Ready d first) (hfilled : Filled d first done cells)
    (hlt : done.length < d.itemNum) (ret : Code) :
    ∃ cells', storeFailure done.length ret cells = some cells' ∧
      Filled d first (done ++ [ret]) cells' := by
  have hstore := storeCell_after hready.results hlt ret
  rw [← hfilled.results] at hstore
  refine ⟨(after first.1 (done ++ [ret]), cells.2), ?_, rfl, hfilled.others,
    hfilled.addrs⟩
  simp only [storeFailure, hstore, Option.bind_eq_bind, Option.bind_some]

/-- Whatever the caller's items point to, a round goes from `p` to `p'` and
    stores the results `rs`. -/
def Rounds (d : Driver c) (p : Progress W) (rs : List Code)
    (run : Cells → Option (Progress W × Cells)) (p' : Progress W) : Prop :=
  ∀ first cells done, done.length = p.curItemIndex → Ready d first →
    Filled d first done cells → ∃ cells', run cells = some (p', cells') ∧
      Filled d first (done ++ rs) cells'

/-- A round with blocks. -/
theorem round_sent (hd : d.Good) (hsend : Sends c d.kind I Q A F send)
    {r : Round c} {p : Progress W} {fs : List Fields} {out : Encoded}
    {ls : List (List Slot)} (hI : I p.world)
    (hencode : d.encode r p.curItemIndex = some out)
    (hgo : out.ret = .ok ∨ out.ret = .allocFail ∧ ¬ out.ctxItems.isEmpty)
    (hhanded : Handed c d.kind fs out ls) (hQ : ∀ l ∈ ls, Q l)
    (haddr : out.ctxItems.map (·.addr) = allocated r.supply out.asked)
    (hfs : fs.length = d.itemNum - p.curItemIndex)
    (hcur : p.curItemIndex < d.itemNum) (hfree : FreedOnce p.blocks) :
    ∃ p' rs, p'.curItemIndex = p.curItemIndex + rs.length ∧
      rs.length = ls.flatten.length ∧ I p'.world ∧ FreedOnce p'.blocks ∧
      Adds Q A F p.result p'.result rs ∧ Rounds d p rs (round d send r p) p' := by
  have huses : List.Forall₂ (InUse c d.kind) out.ctxItems ls :=
    hhanded.blocks.imp fun _ _ h => h.used
  have hle : p.curItemIndex + ls.flatten.length ≤ d.itemNum := by
    have hprefix := hhanded.first.length_le
    rw [List.length_map, hfs] at hprefix
    omega
  obtain ⟨ret, items, ls', w', hcall, haddrs, huses', hlen, hI', hok, hfail⟩ :=
    handleSendReqs_spec hsend hI huses hQ
  have hcarries : List.Forall₂ (Carries d.kind) items ls' :=
    huses'.imp fun _ _ h => h.carries
  have hfreed : FreedOnce (p.blocks ++
      (allocated r.supply out.asked).map .mmsAlloc ++
      items.map fun item => .mmsFree item.addr) := by
    rw [free_addrs, haddrs, haddr]
    exact hfree.round _
  by_cases hret : ret = code .ok
  · refine ⟨⟨p.curItemIndex + ls'.flatten.length, p.result, w', _⟩,
      ls'.flatten.map Slot.result, ?_, ?_, hI', hfreed, .sent ls' (hok hret),
      ?_⟩
    · rw [List.length_map]
    · rw [List.length_map, hlen]
    · intro first cells done hdone hready hfilled
      rw [← hdone, ← hlen] at hle
      obtain ⟨cells', hfill, hfilled'⟩ :=
        hd.fill hready hfilled hcarries hle
      rw [hdone] at hfill
      refine ⟨cells', ?_, hfilled'⟩
      simp only [round, hencode, Option.bind_eq_bind, Option.bind_some,
        if_pos hgo, hcall, if_pos hret, hfill]
  · refine ⟨⟨p.curItemIndex + ls'.flatten.length, ret, w', _⟩,
      ls'.flatten.map fun s => resultAfterSend ret s.desc, ?_, ?_, hI',
      hfreed, .failed ret hret (hfail hret).1 ls' (hfail hret).2, ?_⟩
    · rw [List.length_map]
    · rw [List.length_map, hlen]
    · intro first cells done hdone hready hfilled
      rw [← hdone, ← hlen] at hle
      obtain ⟨cells', hfill, hfilled'⟩ :=
        hd.fillAfterSend ret hready hfilled hcarries hle
      rw [hdone] at hfill
      refine ⟨cells', ?_, hfilled'⟩
      simp only [round, hencode, Option.bind_eq_bind, Option.bind_some,
        if_pos hgo, hcall, if_neg hret, hfill]

/-- **ROUND**: it gives at least one item its result and frees the blocks it
    has got. -/
theorem round_spec (hd : d.Good) (hsend : Sends c d.kind I Q A F send)
    (hfresh : ∀ l, l ≠ [] → (∀ s ∈ l, s.Fresh) → Q l) (r : Round c)
    {p : Progress W} (hI : I p.world) (hcur : p.curItemIndex < d.itemNum)
    (hfree : FreedOnce p.blocks) :
    ∃ p' rs, p'.curItemIndex = p.curItemIndex + rs.length ∧ rs ≠ [] ∧
      p'.curItemIndex ≤ d.itemNum ∧ I p'.world ∧ FreedOnce p'.blocks ∧
      Adds Q A F p.result p'.result rs ∧ Rounds d p rs (round d send r p) p' := by
  obtain ⟨fs, hencode, hfs, hsound⟩ := hd.encode r p.curItemIndex hcur
  have hne : fs ≠ [] := by
    rintro rfl
    rw [List.length_nil] at hfs
    omega
  obtain ⟨out, hout, haddr, hcases⟩ := encodeRequest_spec r.supply fs hsound
  have hcall : d.encode r p.curItemIndex = some out := hencode.trans hout
  by_cases hgo : out.ret = .ok ∨ out.ret = .allocFail ∧ ¬ out.ctxItems.isEmpty
  · have hret : out.ret ≠ .invalidParam := by
      intro h
      rw [h] at hgo
      rcases hgo with hgo | ⟨hgo, -⟩ <;> cases hgo
    obtain ⟨ls, hhanded, hresults⟩ :=
      encodeRequest_fresh hsound hne hout hret
    have hQ : ∀ l ∈ ls, Q l := fun l hl =>
      hfresh l (hhanded.nonempty l hl) fun s hs =>
        hresults s (List.mem_flatten.mpr ⟨l, hl, hs⟩)
    -- there is an item in the blocks
    have hsome : ls.flatten ≠ [] := by
      rcases hgo with hok | ⟨-, hitems⟩
      · intro hnil
        have hall := hhanded.all hok
        rw [hnil] at hall
        exact hne hall.symm
      · intro hnil
        have hblocks := hhanded.blocks
        cases ls with
        | nil =>
            generalize out.ctxItems = items at hblocks hitems
            cases hblocks
            exact hitems rfl
        | cons l ls =>
            rw [List.flatten_cons, List.append_eq_nil_iff] at hnil
            exact hhanded.nonempty l (List.mem_cons_self ..) hnil.1
    obtain ⟨p', rs, hcur', hlen, hI', hfree', hadds, hrounds⟩ :=
      round_sent hd hsend hI hcall hgo hhanded hQ haddr hfs hcur hfree
    have hprefix := hhanded.first.length_le
    rw [List.length_map, hfs] at hprefix
    refine ⟨p', rs, hcur', ?_, by omega, hI', hfree', hadds, hrounds⟩
    rintro rfl
    exact hsome (List.eq_nil_of_length_eq_zero hlen.symm)
  · have hret : code out.ret = code .invalidParam ∨
        code out.ret = code .allocFail := by
      rcases hcases with ⟨hok, -⟩ | ⟨hbad, -⟩ | ⟨hnone, -⟩
      · exact absurd (.inl hok) hgo
      · exact .inl (congrArg code hbad)
      · exact .inr (congrArg code hnone)
    have hfreed : FreedOnce (p.blocks ++
        (allocated r.supply out.asked).map .mmsAlloc ++
        out.ctxItems.map fun item => .mmsFree item.addr) := by
      rw [free_addrs, haddr]
      exact hfree.round _
    refine ⟨⟨p.curItemIndex + 1, code out.ret, p.world, _⟩, [code out.ret],
      rfl, List.cons_ne_nil _ _, hcur, hI, hfreed, .refused _ hret, ?_⟩
    intro first cells done hdone hready hfilled
    rw [← hdone] at hcur
    obtain ⟨cells', hstore, hfilled'⟩ :=
      storeFailure_filled hready hfilled hcur (code out.ret)
    rw [hdone] at hstore
    refine ⟨cells', ?_, hfilled'⟩
    simp only [round, hcall, Option.bind_eq_bind, Option.bind_some,
      if_neg hgo, hstore]

/-- **LOOP**: with a round for each item that is left it ends at the end of the
    list; what each round keeps of the code and the results is kept. -/
theorem loop_spec (hd : d.Good) (hsend : Sends c d.kind I Q A F send)
    (hfresh : ∀ l, l ≠ [] → (∀ s ∈ l, s.Fresh) → Q l)
    {R : Code → List Code → Prop}
    (hR : ∀ {result rs result' new}, R result rs →
      Adds Q A F result result' new → R result' (rs ++ new)) :
    ∀ (fuel : Nat) (rounds : Nat → Round c) {p : Progress W}, I p.world →
      p.curItemIndex ≤ d.itemNum → d.itemNum ≤ p.curItemIndex + fuel →
      FreedOnce p.blocks →
      ∃ p' rs, p.curItemIndex + rs.length = d.itemNum ∧ I p'.world ∧
        FreedOnce p'.blocks ∧
        (∀ done, R p.result done → R p'.result (done ++ rs)) ∧
        Rounds d p rs (loop d send fuel rounds p) p' := by
  intro fuel
  induction fuel with
  | zero =>
      intro rounds p hI hle hfuel hfree
      have hend : ¬ p.curItemIndex < d.itemNum := by omega
      refine ⟨p, [], ?_, hI, hfree, ?_, ?_⟩
      · rw [List.length_nil]
        omega
      · intro done h
        rw [List.append_nil]
        exact h
      · intro first cells done _ _ hfilled
        rw [List.append_nil]
        exact ⟨cells, if_neg hend, hfilled⟩
  | succ fuel ih =>
      intro rounds p hI hle hfuel hfree
      by_cases hlt : p.curItemIndex < d.itemNum
      · obtain ⟨p₁, rs₁, hcur₁, hne, hle₁, hI₁, hfree₁, hadds, hround⟩ :=
          round_spec hd hsend hfresh (rounds 0) hI hlt hfree
        have hpos := List.length_pos_of_ne_nil hne
        obtain ⟨p₂, rs₂, hcur₂, hI₂, hfree₂, hR₂, hloop⟩ :=
          ih (fun n => rounds (n + 1)) hI₁ hle₁ (by omega) hfree₁
        refine ⟨p₂, rs₁ ++ rs₂, ?_, hI₂, hfree₂, ?_, ?_⟩
        · rw [List.length_append]
          omega
        · intro done h
          rw [← List.append_assoc]
          exact hR₂ _ (hR h hadds)
        · intro first cells done hdone hready hfilled
          obtain ⟨cells₁, hrun₁, hfilled₁⟩ :=
            hround first cells done hdone hready hfilled
          have hdone₁ : (done ++ rs₁).length = p₁.curItemIndex := by
            rw [List.length_append, hdone, hcur₁]
          obtain ⟨cells₂, hrun₂, hfilled₂⟩ :=
            hloop first cells₁ (done ++ rs₁) hdone₁ hready hfilled₁
          rw [List.append_assoc] at hfilled₂
          refine ⟨cells₂, ?_, hfilled₂⟩
          simp only [loop, if_pos hlt, hrun₁, Option.bind_eq_bind,
            Option.bind_some, hrun₂]
      · refine ⟨p, [], ?_, hI, hfree, ?_, ?_⟩
        · rw [List.length_nil]
          omega
        · intro done h
          rw [List.append_nil]
          exact h
        · intro first cells done _ _ hfilled
          rw [List.append_nil]
          exact ⟨cells, if_neg hlt, hfilled⟩

/-- A whole call. -/
theorem drive_spec (hd : d.Good) (hsend : Sends c d.kind I Q A F send)
    (hfresh : ∀ l, l ≠ [] → (∀ s ∈ l, s.Fresh) → Q l)
    {R : Code → List Code → Prop}
    (hR : ∀ {result rs result' new}, R result rs →
      Adds Q A F result result' new → R result' (rs ++ new))
    (hstart : R (code .ok) []) (rounds : Nat → Round c) {w : W} (hI : I w) :
    ∃ p rs, rs.length = d.itemNum ∧ I p.world ∧ FreedOnce p.blocks ∧
      R p.result rs ∧ ∀ first, Ready d first →
        ∃ cells, drive d send rounds w first = some (p, cells) ∧
          Filled d first rs cells := by
  obtain ⟨p, rs, hlen, hI', hfree, hR', hloop⟩ :=
    loop_spec (R := R) hd hsend hfresh hR d.itemNum rounds
      (p := ⟨0, code .ok, w, []⟩) hI (Nat.zero_le _) (by omega) rfl
  have hall : rs.length = d.itemNum := by
    rw [← hlen]
    exact (Nat.zero_add _).symm
  refine ⟨p, rs, hall, hI', hfree, ?_, ?_⟩
  · exact hR' [] hstart
  · intro first hready
    exact hloop first first [] rfl hready hready.filled

end Rounds

/-! ## Senders -/

/-- What a handler keeps and gives, in the words of `Sends`. -/
def Handles (c : Config) (kind : Kind) (I : W → Prop)
    (Q A : List Slot → Prop) (F : Code → Prop) (handle : Handle W) : Prop :=
  ∀ w item l, I w → InUse c kind item l → Q l →
    ∃ ret item' seconds l' w', handle w item = some (ret, item', seconds, w') ∧
      item'.addr = item.addr ∧ InUse c kind item' l' ∧
      l'.length = l.length ∧ I w' ∧
      (ret = code .ok → A l') ∧ (ret ≠ code .ok → F ret ∧ Q l')

/-- **RETRIES END**: each of them takes two seconds at least, until the time
    is over. -/
theorem sendSingleReq_sends {kind : Kind} {I : W → Prop}
    {Q A : List Slot → Prop} {F : Code → Prop} {handle : Handle W}
    {mIoTimeOut : Nat} (hhandle : Handles c kind I Q A F handle) : ∀ (fuel costTime : Nat),
      mIoTimeOut ≤ costTime + ioRetryInteral * fuel →
      Sends c kind I Q A F
        (sendSingleReq handle mIoTimeOut (fuel + 1) costTime) := by
  intro fuel
  induction fuel with
  | zero =>
      intro costTime hfuel w item l hI huse hQ
      obtain ⟨ret, item', seconds, l', w', hcall, haddr, huse', hlen, hI', hok,
        hfail⟩ := hhandle w item l hI huse hQ
      refine ⟨ret, item', l', w', ?_, haddr, huse', hlen, hI', hok, hfail⟩
      have hover : mIoTimeOut ≤ costTime + seconds := by omega
      simp only [sendSingleReq, hcall, Option.bind_eq_bind, Option.bind_some,
        if_pos hover]
      split
      · rename_i hret
        rw [hret]
      · rfl
  | succ fuel ih =>
      intro costTime hfuel w item l hI huse hQ
      obtain ⟨ret, item', seconds, l', w', hcall, haddr, huse', hlen, hI', hok,
        hfail⟩ := hhandle w item l hI huse hQ
      rw [sendSingleReq, hcall]
      simp only [Option.bind_eq_bind, Option.bind_some]
      by_cases hret : ret = code .ok
      · rw [if_pos hret]
        exact ⟨_, item', l', w', rfl, haddr, huse', hlen, hI',
          fun _ => hok hret, fun h => absurd rfl h⟩
      rw [if_neg hret]
      by_cases hover : mIoTimeOut ≤ costTime + seconds
      · rw [if_pos hover]
        exact ⟨ret, item', l', w', rfl, haddr, huse', hlen, hI', hok, hfail⟩
      rw [if_neg hover]
      by_cases hend : ¬ isContinue ret
      · rw [if_pos hend]
        exact ⟨ret, item', l', w', rfl, haddr, huse', hlen, hI', hok, hfail⟩
      rw [if_neg hend]
      -- the block is sent again as it is now
      have hfuel' : mIoTimeOut ≤
          costTime + seconds + ioRetryInteral + ioRetryInteral * fuel := by
        rw [Nat.mul_succ] at hfuel
        omega
      obtain ⟨ret₂, item₂, l₂, w₂, hagain, haddr₂, huse₂, hlen₂, hrest⟩ :=
        ih _ hfuel' w' item' l' hI' huse' (hfail hret).2
      exact ⟨ret₂, item₂, l₂, w₂, hagain, haddr₂.trans haddr, huse₂,
        hlen₂.trans hlen, hrest⟩

theorem serverSend_sends {kind : Kind} {I : W → Prop}
    {Q A : List Slot → Prop} {F : Code → Prop} {handle : Handle W}
    (mIoTimeOut : Nat) (hhandle : Handles c kind I Q A F handle) :
    Sends c kind I Q A F (serverSend handle mIoTimeOut) := by
  refine sendSingleReq_sends hhandle mIoTimeOut 0 ?_
  rw [ioRetryInteral]
  omega

/-! ## Whatever the network does -/

/-- What becomes of one call of a handler, or of one block at the client: the
    executions that store answers in it, the code, and the time it takes. -/
structure Handling where
  stores : List (Nat → Answer)
  ret : Code
  seconds : Nat

/-- A handler of which nothing is known; its state counts the calls. -/
def anyHandle (c : Config) (kind : Kind) (handlings : Nat → Handling) :
    Handle Nat := fun n item => do
  let item ← (handlings n).stores.foldlM (execute c kind) item
  some ((handlings n).ret, item, (handlings n).seconds, n + 1)

/-- A block of the client, taken as one step. -/
def anySend (c : Config) (kind : Kind) (handlings : Nat → Handling) :
    Send Nat := fun n item => do
  let (ret, item, _, n) ← anyHandle c kind handlings n item
  some (ret, item, n)

theorem anyHandle_handles (c : Config) (kind : Kind)
    (handlings : Nat → Handling) :
    Handles c kind (fun _ => True) (fun _ => True) (fun _ => True)
      (fun _ => True) (anyHandle c kind handlings) := by
  -- the items stay through all executions
  have hall : ∀ (stores : List (Nat → Answer)) {item : IOCtxItem}
      {l : List Slot}, InUse c kind item l → ∃ item' l',
        stores.foldlM (execute c kind) item = some item' ∧
          item'.addr = item.addr ∧ InUse c kind item' l' ∧
          l'.length = l.length := by
    intro stores
    induction stores with
    | nil => exact fun huse => ⟨_, _, rfl, rfl, huse, rfl⟩
    | cons answer stores ih =>
        intro item l huse
        obtain ⟨item₁, l₁, hrun, haddr, huse₁, hfields⟩ := huse.execute answer
        obtain ⟨item₂, l₂, hrest, haddr₂, huse₂, hlen⟩ := ih huse₁
        refine ⟨item₂, l₂, ?_, haddr₂.trans haddr, huse₂,
          hlen.trans (length_of_fields hfields)⟩
        rw [List.foldlM_cons, hrun]
        exact hrest
  intro n item l _ huse _
  obtain ⟨item', l', hrun, haddr, huse', hlen⟩ :=
    hall (handlings n).stores huse
  refine ⟨(handlings n).ret, item', (handlings n).seconds, l', n + 1, ?_,
    haddr, huse', hlen, trivial, fun _ => trivial, fun _ => ⟨trivial, trivial⟩⟩
  rw [anyHandle, hrun]
  rfl

theorem anySend_sends (c : Config) (kind : Kind)
    (handlings : Nat → Handling) :
    Sends c kind (fun _ => True) (fun _ => True) (fun _ => True)
      (fun _ => True) (anySend c kind handlings) := by
  intro n item l hI huse hQ
  obtain ⟨ret, item', seconds, l', n', hcall, hrest⟩ :=
    anyHandle_handles c kind handlings n item l hI huse hQ
  refine ⟨ret, item', l', n', ?_, hrest⟩
  rw [anySend, hcall]
  rfl

/-- A call ends, each item has a result that does not depend on what was there
    before, nothing behind the items has changed, and every block that was
    allocated has been freed once. -/
def Covers (c : Config) (r : ListCall)
    (call : Cells → Option (Progress Nat × Cells)) : Prop :=
  ∃ (p : Progress Nat) (results : List Code),
    results.length = r.itemNum ∧ FreedOnce p.blocks ∧
      ∀ first, Ready (r.driver c) first → ∃ cells,
        call first = some (p, cells) ∧
          cells.1 = results.map some ++ first.1.drop r.itemNum ∧
          ∀ i, r.itemNum ≤ i → cells.2[i]? = first.2[i]?

theorem covers_of_drive (c : Config) (r : ListCall) {send : Send Nat}
    (hsend : Sends c (r.driver c).kind (fun _ => True) (fun _ => True)
      (fun _ => True) (fun _ => True) send) (rounds : Nat → Round c)
    (w : Nat) : Covers c r (drive (r.driver c) send rounds w) := by
  obtain ⟨p, rs, hlen, -, hfree, -, hdrive⟩ := drive_spec
    (R := fun _ _ => True) (driver_good c r) hsend
    (fun _ _ _ => trivial) (fun _ _ => trivial) trivial rounds (w := w) trivial
  rw [driver_itemNum] at hlen
  refine ⟨p, rs, hlen, hfree, ?_⟩
  intro first hready
  obtain ⟨cells, hrun, hfilled⟩ := hdrive first hready
  refine ⟨cells, hrun, ?_, ?_⟩
  · rw [hfilled.results, after, hlen]
  · rw [← driver_itemNum c r]
    exact hfilled.others

/-! ## The addresses of a put at the client -/

theorem storeCell_result {rs : List Code} {tail : List Cell} {i : Nat}
    (hi : i < rs.length) (r : Code) :
    storeCell (rs.map some ++ tail) i r
      = some ((rs.set i r).map some ++ tail) := by
  have hlen : i < (rs.map some).length := by
    rw [List.length_map]
    exact hi
  have hget : (rs.map some ++ tail)[i]? = some (some rs[i]) := by
    rw [List.getElem?_append_left hlen, List.getElem?_map,
      List.getElem?_eq_getElem hi]
    rfl
  rw [storeCell, hget]
  show some ((rs.map some ++ tail).set i (some r)) = _
  rw [List.set_append_left _ _ hlen, List.map_set]

/-- The second walk keeps a result in each item. -/
theorem fillPutValueAddr_spec (get : Nat → Code × UInt64) :
    ∀ (n index : Nat) (result : Code) (rs : List Code),
      index + n = rs.length → ∃ (ret : Code) (rs' : List Code),
        rs'.length = rs.length ∧
        ∀ (cells : Cells) (tail : List Cell),
          cells.1 = rs.map some ++ tail → PointersSet rs.length cells.2 →
          ∃ cells', fillPutValueAddr get n index result cells
              = some (ret, cells') ∧ cells'.1 = rs'.map some ++ tail ∧
            ∀ i, rs.length ≤ i → cells'.2[i]? = cells.2[i]? := by
  intro n
  induction n with
  | zero =>
      intro index result rs _
      refine ⟨result, rs, rfl, ?_⟩
      intro cells tail hcells _
      exact ⟨cells, rfl, hcells, fun _ _ => rfl⟩
  | succ n ih =>
      intro index result rs hlen
      have hi : index < rs.length := by omega
      have hget : ∀ tail : List Cell,
          (rs.map some ++ tail)[index]? = some (some rs[index]) := by
        intro tail
        have hlt : index < (rs.map some).length := by
          rw [List.length_map]
          exact hi
        rw [List.getElem?_append_left hlt, List.getElem?_map,
          List.getElem?_eq_getElem hi]
        rfl
      by_cases hr : rs[index] ≠ code .ok
      · obtain ⟨ret, rs', hlen', hrest⟩ :=
          ih (index + 1) rs[index] rs (by omega)
        refine ⟨ret, rs', hlen', ?_⟩
        intro cells tail hcells hset
        obtain ⟨cells', hrun, hother⟩ := hrest cells tail hcells hset
        refine ⟨cells', ?_, hother⟩
        rw [Client.fillPutValueAddr, hcells, hget]
        simp only [if_pos hr, hrun]
      by_cases hg : (get index).1 ≠ code .ok
      · obtain ⟨ret, rs', hlen', hrest⟩ := ih (index + 1) (get index).1
          (rs.set index (get index).1) (by rw [List.length_set]; omega)
        rw [List.length_set] at hlen' hrest
        refine ⟨ret, rs', hlen', ?_⟩
        intro cells tail hcells hset
        obtain ⟨addrs, haddrs, hset', hsame⟩ :=
          storeCell_set hset hi (get index).2
        obtain ⟨cells', hrun, hcells', hother⟩ := hrest
          ((rs.set index (get index).1).map some ++ tail, addrs) tail rfl hset'
        refine ⟨cells', ?_, hcells', ?_⟩
        · rw [Client.fillPutValueAddr, hcells, hget]
          simp only [if_neg hr, haddrs, if_pos hg, storeCell_result hi,
            Option.bind_eq_bind, Option.bind_some, hrun]
        · intro i hle
          exact (hother i hle).trans (hsame i (by omega))
      · obtain ⟨ret, rs', hlen', hrest⟩ := ih (index + 1) result rs (by omega)
        refine ⟨ret, rs', hlen', ?_⟩
        intro cells tail hcells hset
        obtain ⟨addrs, haddrs, hset', hsame⟩ :=
          storeCell_set hset hi (get index).2
        obtain ⟨cells', hrun, hcells', hother⟩ :=
          hrest (cells.1, addrs) tail hcells hset'
        refine ⟨cells', ?_, hcells', ?_⟩
        · rw [Client.fillPutValueAddr, hcells, hget]
          rw [hcells] at hrun
          simp only [if_neg hr, haddrs, if_neg hg, Option.bind_eq_bind,
            Option.bind_some, hrun]
        · intro i hle
          exact (hother i hle).trans (hsame i (by omega))

/-- Other calls of the client are the loop alone. -/
theorem clientCall_eq (c : Config) {r : ListCall} (send : Send W)
    (get : Nat → Code × UInt64) (rounds : Nat → Round c) (w : W)
    (hput : ∀ itemList, r ≠ .put itemList) :
    clientCall c send get r rounds w = drive (r.driver c) send rounds w := by
  funext cells
  cases r with
  | put itemList => exact absurd rfl (hput itemList)
  | update itemList => exact Option.bind_fun_some _
  | delete itemList => exact Option.bind_fun_some _
  | replace itemList => exact Option.bind_fun_some _

/-- The calls of the client. -/
theorem covers_clientCall (c : Config) (r : ListCall) {send : Send Nat}
    (hsend : Sends c (r.driver c).kind (fun _ => True) (fun _ => True)
      (fun _ => True) (fun _ => True) send) (get : Nat → Code × UInt64)
    (rounds : Nat → Round c) (w : Nat) :
    Covers c r (clientCall c send get r rounds w) := by
  cases r with
  | put itemList =>
      obtain ⟨p, rs, hlen, -, hfree, -, hdrive⟩ := drive_spec
        (R := fun _ _ => True) (putDriver_good itemList) hsend
        (fun _ _ _ => trivial) (fun _ _ => trivial) trivial rounds
        (w := w) trivial
      change rs.length = itemList.length at hlen
      obtain ⟨ret, rs', hlen', hwalk⟩ := fillPutValueAddr_spec get
        itemList.length 0 (code .ok) rs (by rw [hlen, Nat.zero_add])
      refine ⟨{ p with result := if ret = code .ok then p.result else ret },
        rs', hlen'.trans hlen, hfree, ?_⟩
      intro first hready
      obtain ⟨cells, hrun, hfilled⟩ := hdrive first hready
      have haddrs := hfilled.addrs rfl
      change PointersSet itemList.length cells.2 at haddrs
      rw [← hlen] at haddrs
      obtain ⟨cells', hwalked, hresults, hother⟩ :=
        hwalk cells _ hfilled.results haddrs
      rw [hlen] at hresults hother
      refine ⟨cells', ?_, hresults, ?_⟩
      · show (drive (putDriver c itemList) send rounds w first).bind _ = _
        rw [hrun]
        show (fillPutValueAddr get itemList.length 0 (code .ok) cells).bind _
          = _
        rw [hwalked]
        rfl
      · intro i hi
        exact (hother i hi).trans (hfilled.others i hi)
  | _ =>
      rw [clientCall_eq]
      · exact covers_of_drive c _ hsend rounds w
      · intro itemList h
        cases h

/-- **EVERY CALL** of the eight functions ends, gives every item a result and
    frees every block once, whatever the allocator, the handlers and the
    network do. -/
theorem calls_cover (c : Config) (r : ListCall) (rounds : Nat → Round c)
    (handlings : Nat → Handling) (mIoTimeOut : Nat)
    (get : Nat → Code × UInt64) :
    Covers c r (serverCall c true
        (anyHandle c (r.driver c).kind handlings) mIoTimeOut r rounds 0) ∧
      Covers c r (clientCall c (anySend c (r.driver c).kind handlings) get r
        rounds 0) :=
  ⟨covers_of_drive c r
      (serverSend_sends mIoTimeOut (anyHandle_handles c _ handlings)) rounds 0,
    covers_clientCall c r (anySend_sends c _ handlings) get rounds 0⟩

end UbsIo.Server
