import UbsIo.Server.Local

/-! # Replay on a recovering node

    The same requests go to a node that serves and to one that recovers.  The
    first inserts, updates in place and deletes; the second overlays and leaves
    tombstones.  The two keep the same map as long as no put meets bytes that
    shine through and no update meets a key that the first does not have. -/

namespace UbsIo.Server

open UbsIo.Lib UbsIo.Cache

variable {L L₁ L₂ : Layout} {γ δ : Type}

/-- A request, with something attached to each of its items. -/
inductive Request (γ : Type) where
  | put (ptId : Nat) (items : List (PutItem × γ))
  | update (ptId : Nat) (items : List (UpdateItem × γ))
  | delete (items : List (DeleteItem × γ))

/-- The request with the attachments replaced. -/
def Request.map (f : γ → δ) : Request γ → Request δ
  | .put ptId items => .put ptId (items.map (Prod.map id f))
  | .update ptId items => .update ptId (items.map (Prod.map id f))
  | .delete items => .delete (items.map (Prod.map id f))

/-- The memory that a request leaves at a node. -/
def Request.serve (L : Layout) (mServiceable : Bool) (m : Mem) :
    Request Grants → Option Mem
  | .put ptId items =>
      (putLocal L mServiceable ptId m items).map fun out => out.2.2
  | .update ptId items =>
      (updateLocal L mServiceable ptId m items).map fun out => out.2.2
  | .delete items => (deleteLocal L m items).map fun out => out.2.2

/-- One item of a request. -/
inductive Item where
  | put (ptId : Nat) (item : PutItem)
  | update (ptId : Nat) (item : UpdateItem)
  | delete (item : DeleteItem)
deriving DecidableEq

namespace Item

def key : Item → Key
  | .put _ item => item.key
  | .update _ item => item.key
  | .delete item => item.key

def version : Item → UInt64
  | .put _ item => item.version
  | .update _ item => item.version
  | .delete item => item.version

/-- The call for one item. -/
def call (L : Layout) (mServiceable : Bool) (m : Mem) (g : Grants) :
    Item → Option (Reply × Mem)
  | .put ptId item => putItem L mServiceable ptId m item g
  | .update ptId item => updateItem L mServiceable ptId m item g
  | .delete item => deleteItem L m item g

/-- The allocations that the item may need succeed. -/
def Supplied (L : Layout) (m : Mem) (g : Grants) : Item → Prop
  | .put _ item =>
      ¬ Refused L m g item.value ∧ ¬ NoRoomFor L m g item.key 0 item.value
  | .update _ item =>
      ¬ Refused L m g item.value ∧
        ¬ NoRoomFor L m g item.key item.offset item.value
  | .delete _ => indexGrant m g ≠ none

end Item

def Request.items : Request γ → List (Item × γ)
  | .put ptId items => items.map fun p => (.put ptId p.1, p.2)
  | .update ptId items => items.map fun p => (.update ptId p.1, p.2)
  | .delete items => items.map fun p => (.delete p.1, p.2)

/-- The memory after one item. -/
def itemStep (L : Layout) (mServiceable : Bool) (m : Mem)
    (p : Item × Grants) : Option Mem :=
  (p.1.call L mServiceable m p.2).map Prod.snd

/-- The memory after all requests. -/
def serveAll (L : Layout) (mServiceable : Bool) (m : Mem)
    (reqs : List (Request Grants)) : Option Mem :=
  runFrom (Request.serve L mServiceable) m reqs

theorem serve_eq (mServiceable : Bool) (m : Mem) (req : Request Grants) :
    req.serve L mServiceable m =
      runFrom (itemStep L mServiceable) m req.items := by
  cases req with
  | put ptId items =>
      rw [Request.items, runFrom_map]
      exact forItems_mem items _ m
  | update ptId items =>
      rw [Request.items, runFrom_map]
      exact forItems_mem items _ m
  | delete items =>
      rw [Request.items, runFrom_map]
      exact forItems_mem items _ m

/-- Requests are their items one after another. -/
theorem serveAll_of_items {mServiceable : Bool} :
    ∀ (reqs : List (Request Grants)) {m t : Mem},
      runFrom (itemStep L mServiceable) m (reqs.flatMap Request.items) =
        some t →
      serveAll L mServiceable m reqs = some t := by
  intro reqs
  induction reqs with
  | nil => exact fun h => h
  | cons req reqs ih =>
      intro m t h
      rw [List.flatMap_cons] at h
      obtain ⟨m', hm, ht⟩ := runFrom_append.mp h
      refine runFrom_cons.mpr ⟨m', ?_, ih ht⟩
      rw [serve_eq, hm]

theorem items_map (f : γ → δ) (req : Request γ) :
    (req.map f).items = req.items.map (Prod.map id f) := by
  cases req with
  | put ptId items => simp [Request.map, Request.items, Function.comp_def]
  | update ptId items => simp [Request.map, Request.items, Function.comp_def]
  | delete items => simp [Request.map, Request.items, Function.comp_def]

theorem items_flatMap_map (f : γ → δ) (reqs : List (Request γ)) :
    (reqs.map (Request.map f)).flatMap Request.items =
      (reqs.flatMap Request.items).map (Prod.map id f) := by
  simp only [List.flatMap_map, List.map_flatMap, items_map]

/-! ## Two nodes -/

/-- The map from keys to bytes that a cache holds. -/
def bytesOf (L : Layout) (m : Mem) (k : Key) : Option Bytes :=
  (contents L m k).map (·.bytes)

/-- The bytes of an entry that is no tombstone. -/
def liveBytes (o : Option Entry) : Option Bytes :=
  (o.filter fun e => !e.isDelete).map (·.bytes)

/-- An item at the node that serves and at the one that recovers. -/
def twoStep (L₁ L₂ : Layout) (s : Mem × Mem)
    (p : Item × Grants × Grants) : Option (Mem × Mem) := do
  let m₁ ← itemStep L₁ true s.1 (p.1, p.2.1)
  let m₂ ← itemStep L₂ false s.2 (p.1, p.2.2)
  some (m₁, m₂)

/-- What the first node has under the key of a put begins with the value; what
    only a tombstone of the second has is covered by it; and an update that the
    first node has no key for reaches behind a tombstone of the second. -/
def Harmless (L₁ L₂ : Layout) (s : Mem × Mem) (item : Item) : Prop :=
  item.version.toNat < 2 ^ 32 ∧
  match item with
  | .put _ item =>
      match bytesOf L₁ s.1 item.key with
      | some bytes => item.value <+: bytes
      | none => ∀ e, contents L₂ s.2 item.key = some e →
          e.bytes.length ≤ item.value.length
  | .update _ item =>
      bytesOf L₁ s.1 item.key = none →
        ∃ e, contents L₂ s.2 item.key = some e ∧ e.bytes.length < item.offset
  | .delete _ => True

/-- The guard of a step: the allocations succeed at both nodes and the item is
    harmless. -/
def Guard (L₁ L₂ : Layout) (s : Mem × Mem) (p : Item × Grants × Grants) :
    Prop :=
  p.1.Supplied L₁ s.1 p.2.1 ∧ p.1.Supplied L₂ s.2 p.2.2 ∧
    Harmless L₁ L₂ s p.1

/-- The second node has the map of the first one, up to tombstones. -/
structure Mirrors (L₁ L₂ : Layout) (s : Mem × Mem) : Prop where
  serving : Serving L₁ s.1
  inv : ∃ c, Inv L₂ s.2 c
  recovering : s.2.mIsRecovering = true
  same : ∀ k, bytesOf L₁ s.1 k = liveBytes (contents L₂ s.2 k)

theorem not_lt_stored {item : Item} {e : Entry}
    (hlt : item.version.toNat < 2 ^ 32)
    (hle : e.version.toNat ≤ item.version.toNat) :
    ¬ item.version.toUInt32 < e.version := by
  rw [UInt32.lt_iff_toNat_lt, UInt64.toNat_toUInt32, Nat.mod_eq_of_lt hlt]
  exact Nat.not_lt.mpr hle

theorem liveBytes_eq_some {e : Entry} {bytes : Bytes} :
    liveBytes (some e) = some bytes ↔ e.bytes = bytes ∧ e.isDelete = false := by
  cases hdel : e.isDelete with
  | true => simp [liveBytes, Option.filter, hdel]
  | false => simp [liveBytes, Option.filter, hdel]

theorem overlay_eq_self {buf data : Bytes} (h : data <+: buf) :
    overlay buf 0 data = buf := by
  obtain ⟨rest, rfl⟩ := h
  simp [overlay]

theorem overlay_eq_data {buf data : Bytes} (h : buf.length ≤ data.length) :
    overlay buf 0 data = data := by
  simp [overlay, List.drop_eq_nil_of_le, h]

/-- What an item leaves at the node that serves. -/
def servedEntry : Item → Option Entry → Option Entry
  | .put ptId item =>
      putEntry item.value item.version.toUInt32 ptId
  | .update _ item =>
      updateEntry item.offset item.value item.version.toUInt32
  | .delete _ => fun _ => none

theorem served_sets {m : Mem} {g : Grants} (h : Serving L m) (item : Item)
    (hg : item.Supplied L m g) :
    ∃ m', itemStep L true m (item, g) = some m' ∧ (∃ c', Inv L m' c') ∧
      m'.mIsRecovering = m.mIsRecovering ∧
      contents L m' = Function.update (contents L m) item.key
        (servedEntry item (contents L m item.key)) := by
  obtain ⟨c, hinv⟩ := h.inv
  cases item with
  | put ptId item =>
      obtain ⟨m', ⟨r, hcall⟩, hrest⟩ := put_sets hinv
        ⟨item.key, item.value, item.version.toUInt32, ptId, true⟩
        item.nonempty hg.1
      refine ⟨m', ?_, hrest⟩
      simp [itemStep, Item.call, putItem, hcall]
  | update ptId item =>
      obtain ⟨m', ⟨r, hcall⟩, hrest⟩ := update_sets hinv
        ⟨item.key, item.value, item.offset, item.version.toUInt32⟩
        item.nonempty hg.2
      refine ⟨m', ?_, hrest⟩
      simp [itemStep, Item.call, updateItem, hcall]
  | delete item =>
      obtain ⟨m', ⟨r, hcall⟩, hrest⟩ := delete_sets hinv g item.key
        item.version.toUInt32 h.notRecovering
      refine ⟨m', ?_, hrest⟩
      simp [itemStep, Item.call, deleteItem, hcall]

/-- What an item leaves at the node that recovers: a tombstone may belong to
    any partition. -/
def Replayed (item : Item) (o o' : Option Entry) : Prop :=
  match item with
  | .put ptId item =>
      o' = replaceEntry 0 item.value item.version.toUInt32 ptId o
  | .update ptId item =>
      o' = replaceEntry item.offset item.value item.version.toUInt32 ptId o
  | .delete item =>
      ∃ ptId, o' = some ⟨deletedBytes o, item.version.toUInt32, true, ptId⟩

theorem replayed_sets {m : Mem} {c : SlotId → List Addr} {g : Grants}
    (h : Inv L m c) (hrec : m.mIsRecovering = true) (item : Item)
    (hg : item.Supplied L m g) :
    ∃ m' o, itemStep L false m (item, g) = some m' ∧ (∃ c', Inv L m' c') ∧
      m'.mIsRecovering = m.mIsRecovering ∧
      contents L m' = Function.update (contents L m) item.key o ∧
      Replayed item (contents L m item.key) o := by
  cases item with
  | put ptId item =>
      obtain ⟨m', ⟨r, hcall⟩, hinv, hrec', hcon⟩ := replace_sets h
        ⟨item.key, item.value, 0, item.version.toUInt32, ptId⟩
        item.nonempty hg.1 hg.2
      refine ⟨m', _, ?_, hinv, hrec', hcon, rfl⟩
      simp [itemStep, Item.call, putItem, hcall]
  | update ptId item =>
      obtain ⟨m', ⟨r, hcall⟩, hinv, hrec', hcon⟩ := replace_sets h
        ⟨item.key, item.value, item.offset, item.version.toUInt32, ptId⟩
        item.nonempty hg.1 hg.2
      refine ⟨m', _, ?_, hinv, hrec', hcon, rfl⟩
      simp [itemStep, Item.call, updateItem, hcall]
  | delete item =>
      obtain ⟨m', ptId, ⟨r, hcall⟩, hinv, hrec', hcon⟩ := delete_sets_mark h
        item.key item.version.toUInt32 hrec hg
      refine ⟨m', _, ?_, hinv, hrec', hcon, ptId, rfl⟩
      simp [itemStep, Item.call, deleteItem, hcall]

/-- One entry at the two nodes: when the two agree before a harmless item,
    they agree after it. -/
theorem entry_agrees {s : Mem × Mem} {item : Item} {o : Option Entry}
    (hharm : Harmless L₁ L₂ s item)
    (hsame : bytesOf L₁ s.1 item.key =
      liveBytes (contents L₂ s.2 item.key))
    (hver : ∀ e, contents L₂ s.2 item.key = some e →
      e.version.toNat ≤ item.version.toNat)
    (ho : Replayed item (contents L₂ s.2 item.key) o) :
    (servedEntry item (contents L₁ s.1 item.key)).map (·.bytes) =
      liveBytes o := by
  obtain ⟨hlt, hharm⟩ := hharm
  have hnew : ∀ e, contents L₂ s.2 item.key = some e →
      ¬ item.version.toUInt32 < e.version :=
    fun e he => not_lt_stored hlt (hver e he)
  cases item with
  | put ptId item =>
      simp only [Item.key, Item.version] at hsame hnew
      simp only [Replayed, Item.key] at ho
      simp only [servedEntry, Item.key, bytesOf] at hharm hsame ⊢
      cases hx : contents L₁ s.1 item.key with
      | none =>
          rw [hx] at hsame hharm
          simp only [Option.map_none] at hsame hharm
          cases hy : contents L₂ s.2 item.key with
          | none =>
              rw [ho, hy]
              rfl
          | some e =>
              rw [ho, hy, replaceEntry, if_neg (by simp [hnew e hy]),
                overlay_eq_data (hharm e hy)]
              rfl
      | some e =>
          rw [hx] at hsame hharm
          simp only [Option.map_some] at hsame hharm
          cases hy : contents L₂ s.2 item.key with
          | none =>
              rw [hy] at hsame
              cases hsame
          | some e' =>
              rw [hy] at hsame
              obtain ⟨hbytes, -⟩ := liveBytes_eq_some.mp hsame.symm
              rw [ho, hy, replaceEntry, if_neg (by simp [hnew e' hy]), hbytes,
                overlay_eq_self hharm]
              rfl
  | update ptId item =>
      simp only [Item.key, Item.version] at hsame hnew
      simp only [Replayed, Item.key] at ho
      simp only [servedEntry, Item.key, bytesOf] at hharm hsame ⊢
      cases hx : contents L₁ s.1 item.key with
      | none =>
          rw [hx] at hsame hharm
          obtain ⟨e, hy, hoff⟩ := hharm rfl
          rw [hy] at hsame
          rw [ho, hy, replaceEntry, if_pos (Or.inr hoff)]
          exact hsame
      | some e =>
          rw [hx] at hsame
          cases hy : contents L₂ s.2 item.key with
          | none =>
              rw [hy] at hsame
              cases hsame
          | some e' =>
              rw [hy] at hsame
              obtain ⟨hbytes, hdel⟩ := liveBytes_eq_some.mp hsame.symm
              rw [ho, hy, replaceEntry, updateEntry, hbytes]
              by_cases hoff : e.bytes.length < item.offset
              · rw [if_pos hoff, if_pos (Or.inr hoff)]
                simp [liveBytes, hbytes, hdel]
              · rw [if_neg hoff, if_neg (by simp [hnew e' hy, hoff])]
                rfl
  | delete item =>
      obtain ⟨ptId, rfl⟩ := ho
      rfl

/-- A version that is stored by a harmless item is the version of the item. -/
theorem replayed_version {item : Item} {o : Option Entry} {o' : Option Entry}
    {e : Entry} (hlt : item.version.toNat < 2 ^ 32)
    (ho : Replayed item o o') (he : o' = some e) :
    e.version.toNat = item.version.toNat ∨ o = some e := by
  have hcast : item.version.toUInt32.toNat = item.version.toNat := by
    rw [UInt64.toNat_toUInt32, Nat.mod_eq_of_lt hlt]
  have hreplace : ∀ {offset : Nat} {value : Bytes} {ptId : Nat},
      o' = replaceEntry offset value item.version.toUInt32 ptId o →
      e.version.toNat = item.version.toNat ∨ o = some e := by
    intro offset value ptId hr
    rw [he] at hr
    cases o with
    | none =>
        cases hr
        exact Or.inl hcast
    | some d =>
        rw [replaceEntry] at hr
        split at hr
        · exact Or.inr hr.symm
        · cases hr
          exact Or.inl hcast
  cases item with
  | put ptId item => exact hreplace ho
  | update ptId item => exact hreplace ho
  | delete item =>
      obtain ⟨ptId, rfl⟩ := ho
      cases he
      exact Or.inl hcast

/-- **ONE ITEM**: both nodes take it and still agree. -/
theorem twoStep_mirrors {s : Mem × Mem} {p : Item × Grants × Grants}
    (h : Mirrors L₁ L₂ s) (hguard : Guard L₁ L₂ s p)
    (hver : ∀ k e, contents L₂ s.2 k = some e →
      e.version.toNat ≤ p.1.version.toNat) :
    ∃ s', twoStep L₁ L₂ s p = some s' ∧ Mirrors L₁ L₂ s' ∧
      ∀ k e, contents L₂ s'.2 k = some e →
        e.version.toNat ≤ p.1.version.toNat := by
  obtain ⟨m₁, m₂⟩ := s
  obtain ⟨item, g₁, g₂⟩ := p
  obtain ⟨hg₁, hg₂, hharm⟩ := hguard
  obtain ⟨m₁', hstep₁, hinv₁, hrec₁, hcon₁⟩ := served_sets h.serving item hg₁
  obtain ⟨c, hinv⟩ := h.inv
  obtain ⟨m₂', o, hstep₂, hinv₂, hrec₂, hcon₂, ho⟩ :=
    replayed_sets hinv h.recovering item hg₂
  refine ⟨(m₁', m₂'), ?_, ⟨⟨hinv₁, ?_, ?_⟩, hinv₂, ?_, ?_⟩, ?_⟩
  · simp [twoStep, hstep₁, hstep₂]
  · exact hrec₁.trans h.serving.notRecovering
  · refine alive_update h.serving.alive hcon₁ ?_
    intro e he
    have halive := h.serving.alive item.key
    cases item with
    | put ptId item =>
        cases hx : contents L₁ m₁ item.key with
        | none =>
            simp only [servedEntry, Item.key, hx] at he
            cases he
            rfl
        | some d =>
            simp only [servedEntry, Item.key, hx, putEntry] at he
            cases he
            exact halive _ hx
    | update ptId item =>
        cases hx : contents L₁ m₁ item.key with
        | none =>
            simp only [servedEntry, Item.key, hx] at he
            cases he
        | some d =>
            simp only [servedEntry, Item.key, hx, updateEntry] at he
            split at he
            · cases he
              exact halive _ hx
            · cases he
              exact halive d hx
    | delete item => cases he
  · exact hrec₂.trans h.recovering
  · intro k
    by_cases hk : k = item.key
    · have hentry := entry_agrees hharm (h.same item.key)
        (fun e he => hver _ e he) ho
      rw [hk, bytesOf, hcon₁, hcon₂, Function.update_self,
        Function.update_self]
      exact hentry
    · rw [bytesOf, hcon₁, hcon₂, Function.update_of_ne hk,
        Function.update_of_ne hk]
      exact h.same k
  · intro k e he
    rw [hcon₂] at he
    by_cases hk : k = item.key
    · rw [hk, Function.update_self] at he
      rcases replayed_version hharm.1 ho he with hv | hold
      · exact Nat.le_of_eq hv
      · exact hver _ e hold
    · rw [Function.update_of_ne hk] at he
      exact hver k e he

/-- **ALL ITEMS**: by induction, with the versions in order. -/
theorem run_mirrors : ∀ (items : List (Item × Grants × Grants))
    (s : Mem × Mem), Mirrors L₁ L₂ s →
    (items.map fun p => p.1.version).Pairwise (· ≤ ·) →
    (∀ p ∈ items, ∀ k e, contents L₂ s.2 k = some e →
      e.version.toNat ≤ p.1.version.toNat) →
    Along (twoStep L₁ L₂) (Guard L₁ L₂) s items →
    ∃ t, runFrom (twoStep L₁ L₂) s items = some t ∧ Mirrors L₁ L₂ t := by
  intro items
  induction items with
  | nil =>
      intro s h _ _ _
      exact ⟨s, rfl, h⟩
  | cons p items ih =>
      intro s h hord hver hguard
      obtain ⟨s', hstep, h', hver'⟩ := twoStep_mirrors h hguard.1
        (hver p (List.mem_cons_self ..))
      rw [List.map_cons, List.pairwise_cons] at hord
      obtain ⟨t, ht, hmir⟩ := ih s' h' hord.2 (fun q hq k e he => by
        have hle := hord.1 _ (List.mem_map_of_mem hq)
        exact (hver' k e he).trans (UInt64.le_iff_toNat_le.mp hle))
        (hguard.2 s' hstep)
      exact ⟨t, runFrom_cons.mpr ⟨s', hstep, ht⟩, hmir⟩

/-- A run of both nodes is a run of each. -/
theorem run_each : ∀ (items : List (Item × Grants × Grants))
    {s t : Mem × Mem}, runFrom (twoStep L₁ L₂) s items = some t →
    runFrom (itemStep L₁ true) s.1 (items.map (Prod.map id Prod.fst)) =
      some t.1 ∧
    runFrom (itemStep L₂ false) s.2 (items.map (Prod.map id Prod.snd)) =
      some t.2 := by
  intro items
  induction items with
  | nil =>
      intro s t h
      rw [runFrom_nil] at h
      cases h
      exact ⟨rfl, rfl⟩
  | cons p items ih =>
      intro s t h
      obtain ⟨s', hs, ht⟩ := runFrom_cons.mp h
      simp only [twoStep, Option.bind_eq_bind, Option.bind_eq_some_iff,
        Option.some.injEq] at hs
      obtain ⟨m₁, h₁, m₂, h₂, rfl⟩ := hs
      obtain ⟨hr₁, hr₂⟩ := ih ht
      exact ⟨runFrom_cons.mpr ⟨m₁, h₁, hr₁⟩, runFrom_cons.mpr ⟨m₂, h₂, hr₂⟩⟩

/-- **REPLAY**: two nodes hold the same map, the second recovers, and the
    requests go to both.  If every item is harmless where it arrives, the two
    hold the same map once the second has dropped its tombstones. -/
theorem replay_agrees {m₁ m₂ : Mem} (h₁ : Serving L₁ m₁) (h₂ : Serving L₂ m₂)
    (hsame : ∀ k, bytesOf L₁ m₁ k = bytesOf L₂ m₂ k)
    (reqs : List (Request (Grants × Grants)))
    (hord : ((reqs.flatMap Request.items).map
      fun p => p.1.version).Pairwise (· ≤ ·))
    (hver : ∀ p ∈ reqs.flatMap Request.items, ∀ k e,
      contents L₂ m₂ k = some e → e.version.toNat ≤ p.1.version.toNat)
    (hguard : Along (twoStep L₁ L₂) (Guard L₁ L₂)
      (m₁, setRecoverStatus m₂ true) (reqs.flatMap Request.items)) :
    ∃ t₁ t₂ t₃, serveAll L₁ true m₁ (reqs.map (Request.map Prod.fst)) =
        some t₁ ∧
      serveAll L₂ false (setRecoverStatus m₂ true)
        (reqs.map (Request.map Prod.snd)) = some t₂ ∧
      clearDeletedData L₂ (setRecoverStatus t₂ false) = some t₃ ∧
      ∀ k, bytesOf L₁ t₁ k = bytesOf L₂ t₃ k := by
  obtain ⟨c, hinv⟩ := h₂.inv
  have hstart : Mirrors L₁ L₂ (m₁, setRecoverStatus m₂ true) := by
    refine ⟨h₁, ⟨c, hinv.setRecoverStatus true⟩, rfl, ?_⟩
    intro k
    rw [hsame, hinv.contents_setRecoverStatus, bytesOf]
    cases hk : contents L₂ m₂ k with
    | none => rfl
    | some e =>
        rw [liveBytes_eq_some.mpr ⟨rfl, h₂.alive k e hk⟩]
        rfl
  obtain ⟨⟨t₁, t₂⟩, hrun, hmir⟩ := run_mirrors _ _ hstart hord
    (fun p hp k e he => by
      rw [hinv.contents_setRecoverStatus] at he
      exact hver p hp k e he)
    hguard
  obtain ⟨hrun₁, hrun₂⟩ := run_each _ hrun
  -- the tombstones go, and with them the difference
  obtain ⟨c', hinv'⟩ := hmir.inv
  obtain ⟨t₃, hclear, -, -, hcon⟩ :=
    clearDeletedData_eq (hinv'.setRecoverStatus false)
  refine ⟨t₁, t₂, t₃, ?_, ?_, hclear, ?_⟩
  · refine serveAll_of_items _ ?_
    rw [items_flatMap_map]
    exact hrun₁
  · refine serveAll_of_items _ ?_
    rw [items_flatMap_map]
    exact hrun₂
  · intro k
    rw [hmir.same, bytesOf, hcon, hinv'.contents_setRecoverStatus]
    rfl

theorem pair_nonempty : 0 < ([1, 2] : Bytes).length := by decide

/-- A put of `keyA` and a delete of it, with what both nodes allocate. -/
def putThenDelete : List (Request (Grants × Grants)) :=
  [.put 0 [(⟨keyA, [1, 2], 5, pair_nonempty⟩, granted 16 32, granted 16 32)],
    .delete [(⟨keyA, 5⟩, granted 48 64, granted 48 64)]]

theorem replay_agrees_put_then_delete :
    Along (twoStep twoBuckets twoBuckets) (Guard twoBuckets twoBuckets)
      (init, setRecoverStatus init true)
      (putThenDelete.flatMap Request.items) ∧
    ∃ t₁ t₂ t₃,
      serveAll twoBuckets true init
        (putThenDelete.map (Request.map Prod.fst)) = some t₁ ∧
      serveAll twoBuckets false (setRecoverStatus init true)
        (putThenDelete.map (Request.map Prod.snd)) = some t₂ ∧
      clearDeletedData twoBuckets (setRecoverStatus t₂ false) = some t₃ ∧
      ∀ k, bytesOf twoBuckets t₁ k = bytesOf twoBuckets t₃ k := by
  have hempty : ∀ (m : Mem) (g : Grants) (k : Key) (offset : Nat)
      (data : Bytes), m.index = ∅ →
      ¬ NoRoomFor twoBuckets m g k offset data := by
    rintro m g k offset data hm ⟨a, v, hl, -⟩
    rw [hm] at hl
    cases hl
  have hguard : Along (twoStep twoBuckets twoBuckets)
      (Guard twoBuckets twoBuckets) (init, setRecoverStatus init true)
      (putThenDelete.flatMap Request.items) := by
    refine ⟨⟨⟨?_, hempty _ _ _ _ _ rfl⟩, ⟨?_, hempty _ _ _ _ _ rfl⟩, ?_, ?_⟩,
      ?_⟩
    · rw [Refused]
      decide
    · rw [Refused]
      decide
    · decide
    · intro e he
      obtain ⟨c, hinv⟩ := (serving_init twoBuckets).inv
      rw [hinv.contents_setRecoverStatus, contents_init] at he
      cases he
    · intro s' hs
      have hall : (twoStep twoBuckets twoBuckets
          (init, setRecoverStatus init true)
          (.put 0 ⟨keyA, [1, 2], 5, by decide⟩, granted 16 32,
            granted 16 32)).all (fun s => decide
              (indexGrant s.1 (granted 48 64) ≠ none ∧
                indexGrant s.2 (granted 48 64) ≠ none)) = true := by
        decide +kernel
      have hg := of_decide_eq_true ((Option.all_eq_true _ _).mp hall s' hs)
      exact ⟨⟨hg.1, hg.2, by decide, trivial⟩, fun _ _ => trivial⟩
  have hserving := serving_init twoBuckets
  refine ⟨hguard, replay_agrees hserving hserving (fun _ => rfl) putThenDelete
    (by decide) ?_ hguard⟩
  intro p _ k e he
  rw [contents_init] at he
  cases he

theorem byte_nonempty : 0 < ([9] : Bytes).length := by decide

/-- A delete of `keyA` and a put of one byte. -/
def deleteThenPut : List (Request Grants) :=
  [.delete [(⟨keyA, 1⟩, granted 48 64)],
    .put 0 [(⟨keyA, [9], 1, byte_nonempty⟩, granted 48 64)]]

/-- Both nodes hold three bytes under a key; it is deleted, and one byte is
    put.  The node that serves has one byte then; at the other one the two last
    bytes of the old value are back. -/
theorem replay_revives_old_bytes :
    ∃ m, step twoBuckets init
        (.put ⟨keyA, [1, 2, 3], 1, 0, true⟩ (granted 16 32)) =
          some ({ ret := .ok, valueAddr := some 32 }, m) ∧
      Serving twoBuckets m ∧
      ∃ t₁ t₂ t₃, serveAll twoBuckets true m deleteThenPut = some t₁ ∧
        serveAll twoBuckets false (setRecoverStatus m true) deleteThenPut =
          some t₂ ∧
        clearDeletedData twoBuckets (setRecoverStatus t₂ false) = some t₃ ∧
        bytesOf twoBuckets t₁ keyA = some [9] ∧
        bytesOf twoBuckets t₃ keyA = some [9, 2, 3] := by
  have hrun : (step twoBuckets init
      (.put ⟨keyA, [1, 2, 3], 1, 0, true⟩ (granted 16 32))).any (fun p =>
        decide (p.1 = { ret := .ok, valueAddr := some 32 }) &&
        (serveAll twoBuckets true p.2 deleteThenPut).any fun t₁ =>
        (serveAll twoBuckets false (setRecoverStatus p.2 true)
          deleteThenPut).any fun t₂ =>
        (clearDeletedData twoBuckets (setRecoverStatus t₂ false)).any fun t₃ =>
        decide (bytesOf twoBuckets t₁ keyA = some [9] ∧
          bytesOf twoBuckets t₃ keyA = some [9, 2, 3])) = true := by
    decide +kernel
  obtain ⟨⟨r, m⟩, hput, hboth⟩ := (Option.any_eq_true _ _).mp hrun
  obtain ⟨hr, hserve⟩ := Bool.and_eq_true_iff.mp hboth
  obtain ⟨t₁, h₁, hreplay⟩ := (Option.any_eq_true _ _).mp hserve
  obtain ⟨t₂, h₂, hclear⟩ := (Option.any_eq_true _ _).mp hreplay
  obtain ⟨t₃, h₃, hbytes⟩ := (Option.any_eq_true _ _).mp hclear
  obtain ⟨r', m', hstep, hserving, -⟩ := step_agrees
    (serving_init twoBuckets)
    (show (Op.put ⟨keyA, [1, 2, 3], 1, 0, true⟩ (granted 16 32)).Allowed by
      decide)
  cases hput.symm.trans hstep
  cases of_decide_eq_true hr
  exact ⟨m, hput, hserving, t₁, t₂, t₃, h₁, h₂, h₃,
    of_decide_eq_true hbytes⟩

end UbsIo.Server
