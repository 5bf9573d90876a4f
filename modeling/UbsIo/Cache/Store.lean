import UbsIo.Cache.Model
import UbsIo.Lib.Threads

/-! # The cache as a map

    `Chains` ties the slots and the index blocks together: every live index
    block lies in the chain of the slot its key hashes to, and no key has two
    blocks.  `Blocks` ties the index blocks to the value blocks: every value
    block belongs to exactly one entry.  Every write of the cache changes ONE
    entry: it links a new one in, rewrites one in place, or takes one out.
    For each of the three there is one theorem here, and the map `contents`
    changes at the entry's key only. -/

namespace UbsIo.Cache

open UbsIo.Lib

/-! ## Contents -/

/-- What the cache stores for a key; a deleted entry stays as a tombstone
    while the cache is recovering. -/
structure Entry where
  bytes : Bytes
  version : UInt32
  isDelete : Bool
  ptId : Nat
deriving DecidableEq, Repr

/-- The data of an entry's value block. -/
def blockData (m : Mem) (v : IndexValue) : Bytes :=
  match v.blockOffset with
  | none => []
  | some b => ((m.value.lookup b).map (·.data)).getD []

def entryOf (m : Mem) (v : IndexValue) : Entry :=
  ⟨(blockData m v).take v.totalDataLen, v.version, v.isDelete, v.ptId⟩

/-- The entry that a search for the key finds. -/
def contents (L : Layout) (m : Mem) (k : Key) : Option Entry := do
  let p ← ← findNode L m k
  let node ← m.readNode p
  let v ← m.index.lookup node.indexValueAddr
  some (entryOf m v)

/-! ## The invariant -/

/-- The chains of the memory, for the library. -/
def nodes (m : Mem) : Nodes IndexNode Addr where
  ptr n := if n.valid then some n.indexValueAddr else none
  fits n a := ∃ v, m.index.lookup a = some v ∧ n.hashCode = hashKey v.key
  next a := (m.index.lookup a).map (·.next)

theorem nodes_ptr (m m' : Mem) : (nodes m').ptr = (nodes m).ptr := rfl

/-- The slot of an entry. -/
def homeOf (L : Layout) (key : Bytes) : SlotId := slotOf L (hashKey key)

structure Chains (L : Layout) (m : Mem) (c : SlotId → List Addr) : Prop where
  threads : ∀ i, Threads (nodes m) (m.slots i) (c i)
  nodup : ∀ i, (c i).Nodup
  home : ∀ i, ∀ a ∈ c i, ∃ v, m.index.lookup a = some v ∧ homeOf L v.key = i
  mem : ∀ a v, m.index.lookup a = some v → a ∈ c (homeOf L v.key)
  once : ∀ a a' v v', m.index.lookup a = some v →
    m.index.lookup a' = some v' → v.key = v'.key → a = a'
  isKey : ∀ a v, m.index.lookup a = some v → ∃ k : Key, v.key = k.bytes

/-- The value block of an entry is there and large enough; only a tombstone is
    without one. -/
def Holds (L : Layout) (m : Mem) (v : IndexValue) : Prop :=
  match v.blockOffset with
  | none => v.totalDataLen = 0 ∧ v.isDelete = true
  | some b => ∃ d, m.value.lookup b = some d ∧ d.data.length = d.blockSize ∧
      0 < v.totalDataLen ∧ v.totalDataLen ≤ d.blockSize ∧
      d.blockSize ≤ L.memMaxLen

/-- The value block of the entry at an address. -/
def blockAt (m : Mem) (a : Addr) : Option Addr :=
  (m.index.lookup a).bind (·.blockOffset)

structure Blocks (L : Layout) (m : Mem) : Prop where
  own : ∀ a v, m.index.lookup a = some v → Holds L m v
  inj : ∀ a a' b, blockAt m a = some b → blockAt m a' = some b → a = a'
  used : ∀ b ∈ m.value, ∃ a, blockAt m a = some b

/-- The cache is in order, with these chains. -/
structure Inv (L : Layout) (m : Mem) (c : SlotId → List Addr) : Prop where
  chains : Chains L m c
  blocks : Blocks L m

variable {L : Layout} {m m' : Mem} {c : SlotId → List Addr} {a b : Addr}
  {v v' : IndexValue} {k : Key}

theorem mem_index (h : m.index.lookup a = some v) : a ∈ m.index := by
  rw [← AList.lookup_isSome, h]
  rfl

theorem mem_value {d : DataBlock} (h : m.value.lookup b = some d) :
    b ∈ m.value := by
  rw [← AList.lookup_isSome, h]
  rfl

theorem lookup_of_notMem (h : a ∉ m.index) : m.index.lookup a = none :=
  AList.lookup_eq_none.mpr h

/-! ## Searching -/

/-- The pointer to the node behind `pre`, in a chain that starts at `p`. -/
def ptrAfter (p : NodePtr) (pre : List Addr) : NodePtr :=
  match pre.getLast? with
  | none => p
  | some b => .next b

@[simp] theorem ptrAfter_nil (p : NodePtr) : ptrAfter p [] = p := rfl

theorem ptrAfter_cons (p : NodePtr) (a : Addr) (pre : List Addr) :
    ptrAfter p (a :: pre) = ptrAfter (.next a) pre := by
  cases pre with
  | nil => rfl
  | cons b l => simp [ptrAfter, List.getLast?_cons]

/-- The pointer leads to the node the library speaks of. -/
theorem readNode_ptrAfter (i : SlotId) (pre : List Addr) :
    m.readNode (ptrAfter (.slot i) pre) =
      nodeAfter (nodes m) (m.slots i) pre := by
  unfold ptrAfter nodeAfter
  cases pre.getLast? with
  | none => rfl
  | some b => rfl

/-- The node at the head of a chain that is not empty. -/
theorem threads_cons_iff {n : IndexNode} {l : List Addr} :
    Threads (nodes m) n (a :: l) ↔ n.valid = true ∧ n.indexValueAddr = a ∧
      ∃ v, m.index.lookup a = some v ∧ n.hashCode = hashKey v.key ∧
        Threads (nodes m) v.next l := by
  constructor
  · rintro ⟨hp, ⟨v, hv, hh⟩, n', hn', hl⟩
    have hn : v.next = n' := by
      simp only [nodes, hv, Option.map_some, Option.some.injEq] at hn'
      exact hn'
    cases hvalid : n.valid with
    | false => simp [nodes, hvalid] at hp
    | true =>
        simp only [nodes, hvalid, if_true, Option.some.injEq] at hp
        exact ⟨rfl, hp, v, hv, hh, hn ▸ hl⟩
  · rintro ⟨hvalid, rfl, v, hv, hh, hl⟩
    exact ⟨by simp [nodes, hvalid], ⟨v, hv, hh⟩, v.next,
      by simp [nodes, hv], hl⟩

theorem threads_nil_iff {n : IndexNode} :
    Threads (nodes m) n [] ↔ n.valid = false := by
  show (if n.valid then some n.indexValueAddr else none) = none ↔ _
  cases n.valid <;> simp

/-- A search goes past entries with other keys. -/
theorem findExistingNode_skip (key : Bytes) (l : List Addr) (fuel : Nat) :
    ∀ (pre : List Addr) {p : NodePtr} {n : IndexNode},
    m.readNode p = some n → Threads (nodes m) n (pre ++ l) →
    (∀ x ∈ pre, ∀ v, m.index.lookup x = some v → v.key ≠ key) →
    ∃ n', m.readNode (ptrAfter p pre) = some n' ∧ Threads (nodes m) n' l ∧
      findExistingNode m key (hashKey key) (pre.length + fuel) p =
        findExistingNode m key (hashKey key) fuel (ptrAfter p pre) := by
  intro pre
  induction pre with
  | nil =>
      intro p n hr ht _
      refine ⟨n, hr, ht, ?_⟩
      simp
  | cons x pre ih =>
      intro p n hr ht hne
      rw [List.cons_append, threads_cons_iff] at ht
      obtain ⟨hvalid, rfl, v, hv, hh, ht⟩ := ht
      have hread : m.readNode (.next n.indexValueAddr) = some v.next := by
        simp [Mem.readNode, hv]
      obtain ⟨n', hn', ht', hf⟩ := ih hread ht
        fun y hy => hne y (List.mem_cons_of_mem _ hy)
      rw [ptrAfter_cons]
      refine ⟨n', hn', ht', ?_⟩
      have hkey := hne _ (List.mem_cons_self ..) v hv
      rw [List.length_cons, Nat.add_right_comm, ← hf]
      simp [findExistingNode, hr, hvalid, hv, hkey]

/-- The chain of a slot is no longer than the number of live index blocks. -/
theorem Chains.length_le (h : Chains L m c) (i : SlotId) :
    (c i).length ≤ m.index.keys.length := by
  refine ((h.nodup i).subperm ?_).length_le
  intro x hx
  obtain ⟨v, hv, -⟩ := h.home i x hx
  exact AList.mem_keys.mp (mem_index hv)

theorem Chains.find_none (h : Chains L m c)
    (hno : ∀ x v, m.index.lookup x = some v → v.key ≠ k.bytes) :
    findNode L m k = some none := by
  have hle := h.length_le (homeOf L k.bytes)
  obtain ⟨fuel, hfuel⟩ := Nat.exists_eq_add_of_le hle
  obtain ⟨n, hn, ht, hf⟩ := findExistingNode_skip k.bytes [] (fuel + 1)
    (c (homeOf L k.bytes)) (p := .slot (homeOf L k.bytes)) rfl
    (by rw [List.append_nil]; exact h.threads _)
    (fun x _ v hv => hno x v hv)
  unfold findNode
  rw [hfuel, Nat.add_assoc]
  refine hf.trans ?_
  rw [threads_nil_iff] at ht
  simp [findExistingNode, hn, ht]

/-- The search finds the node that points to the key's entry. -/
theorem Chains.find_some (h : Chains L m c)
    (hl : m.index.lookup a = some v) (hk : v.key = k.bytes) :
    ∃ pre post n, c (homeOf L k.bytes) = pre ++ a :: post ∧
      findNode L m k =
        some (some (ptrAfter (.slot (homeOf L k.bytes)) pre)) ∧
      m.readNode (ptrAfter (.slot (homeOf L k.bytes)) pre) = some n ∧
      n.indexValueAddr = a := by
  have hmem := h.mem a v hl
  rw [hk] at hmem
  obtain ⟨pre, post, hc⟩ := List.append_of_mem hmem
  have ht := h.threads (homeOf L k.bytes)
  have hnd := h.nodup (homeOf L k.bytes)
  have hle := h.length_le (homeOf L k.bytes)
  rw [hc] at ht hnd hle
  have hpre : ∀ x ∈ pre, ∀ u, m.index.lookup x = some u →
      u.key ≠ k.bytes := by
    intro x hx u hu hku
    have hxa := h.once x a u v hu hl (hku.trans hk.symm)
    exact (List.nodup_append.mp hnd).2.2 x hx a (List.mem_cons_self ..) hxa
  rw [List.length_append, List.length_cons] at hle
  obtain ⟨fuel, hfuel⟩ := Nat.exists_eq_add_of_le hle
  obtain ⟨n, hn, ht', hf⟩ := findExistingNode_skip k.bytes (a :: post)
    (post.length + 1 + fuel + 1) pre (p := .slot (homeOf L k.bytes))
    rfl ht hpre
  obtain ⟨hvalid, rfl, u, hu, hh, -⟩ := threads_cons_iff.mp ht'
  have huv : u = v := Option.some.inj (hu.symm.trans hl)
  rw [huv, hk] at hh
  refine ⟨pre, post, n, hc, ?_, hn, rfl⟩
  have hsum : m.index.keys.length + 1 =
      pre.length + (post.length + 1 + fuel + 1) := by omega
  unfold findNode
  rw [hsum]
  refine hf.trans ?_
  simp [findExistingNode, hn, hvalid, hl, hk, hh]

theorem Chains.contents_none (h : Chains L m c)
    (hno : ∀ x v, m.index.lookup x = some v → v.key ≠ k.bytes) :
    contents L m k = none := by
  simp [contents, h.find_none hno]

theorem Chains.contents_some (h : Chains L m c)
    (hl : m.index.lookup a = some v) (hk : v.key = k.bytes) :
    contents L m k = some (entryOf m v) := by
  obtain ⟨pre, post, n, -, hf, hn, rfl⟩ := h.find_some hl hk
  simp [contents, hf, hn, hl]

/-- A key is stored or not, and the search tells. -/
theorem Chains.cases (h : Chains L m c) (k : Key) :
    ((∀ x v, m.index.lookup x = some v → v.key ≠ k.bytes) ∧
      findNode L m k = some none ∧ contents L m k = none) ∨
    ∃ a v pre post n, m.index.lookup a = some v ∧ v.key = k.bytes ∧
      c (homeOf L k.bytes) = pre ++ a :: post ∧
      findNode L m k =
        some (some (ptrAfter (.slot (homeOf L k.bytes)) pre)) ∧
      m.readNode (ptrAfter (.slot (homeOf L k.bytes)) pre) = some n ∧
      n.indexValueAddr = a ∧ contents L m k = some (entryOf m v) := by
  by_cases hno : ∀ x v, m.index.lookup x = some v → v.key ≠ k.bytes
  · exact Or.inl ⟨hno, h.find_none hno, h.contents_none hno⟩
  · push Not at hno
    obtain ⟨a, v, hl, hk⟩ := hno
    obtain ⟨pre, post, n, hc, hf, hn, ha⟩ := h.find_some hl hk
    exact Or.inr ⟨a, v, pre, post, n, hl, hk, hc, hf, hn, ha,
      h.contents_some hl hk⟩

/-! ## One entry changes -/

/-- An index block without its node. -/
def strip (v : IndexValue) : IndexValue := { v with next := ⟨0, false, 0⟩ }

/-- The two memories agree on all entries but the one at `a`. -/
def Agree (m m' : Mem) (a : Addr) : Prop :=
  ∀ x, x ≠ a → (m'.index.lookup x).map strip = (m.index.lookup x).map strip

theorem Agree.symm (h : Agree m m' a) : Agree m' m a :=
  fun x hx => (h x hx).symm

/-- An entry elsewhere is the same up to its node. -/
theorem Agree.lookup (h : Agree m m' a) {x : Addr} (hx : x ≠ a)
    (hl : m'.index.lookup x = some v') :
    ∃ v, m.index.lookup x = some v ∧ strip v = strip v' := by
  have he := h x hx
  rw [hl, Option.map_some, eq_comm, Option.map_eq_some_iff] at he
  exact he

theorem strip_key (h : strip v = strip v') : v.key = v'.key :=
  congrArg (·.key) h

theorem strip_blockOffset (h : strip v = strip v') :
    v.blockOffset = v'.blockOffset :=
  congrArg (·.blockOffset) h

theorem blockAt_eq_some (hl : m.index.lookup a = some v) :
    blockAt m a = v.blockOffset := by
  simp [blockAt, hl]

theorem Agree.blockAt (h : Agree m m' a) {x : Addr} (hx : x ≠ a) :
    Cache.blockAt m' x = Cache.blockAt m x := by
  have he := congrArg (fun o => o.bind (·.blockOffset)) (h x hx)
  simpa [Cache.blockAt, Option.bind_map, Function.comp_def, strip] using he

/-- A value block that has been touched only for the entry at `a`: the block
    of that entry may be new, may be gone, and all others are as before. -/
structure Touches (m m' : Mem) (a : Addr) : Prop where
  other : ∀ b, blockAt m a ≠ some b → blockAt m' a ≠ some b →
    m'.value.lookup b = m.value.lookup b
  fresh : ∀ b, blockAt m' a = some b → blockAt m a = some b ∨ b ∉ m.value
  gone : ∀ b, blockAt m a = some b → blockAt m' a ≠ some b → b ∉ m'.value

/-- The block of an entry elsewhere is untouched. -/
theorem Touches.lookup_eq (ht : Touches m m' a) (h : Blocks L m) {x : Addr}
    (hx : x ≠ a) (hl : m.index.lookup x = some v)
    (hb : v.blockOffset = some b) :
    m'.value.lookup b = m.value.lookup b := by
  have hxb : blockAt m x = some b := (blockAt_eq_some hl).trans hb
  have hold : blockAt m a ≠ some b := fun hab => hx (h.inj x a b hxb hab)
  refine ht.other b hold fun hnew => ?_
  rcases ht.fresh b hnew with hab | hfree
  · exact hold hab
  · have hheld := h.own x v hl
    simp only [Holds, hb] at hheld
    obtain ⟨d, hd, -⟩ := hheld
    exact hfree (mem_value hd)

theorem Holds.congr (h : Holds L m v) (hs : strip v = strip v')
    (hb : ∀ b, v.blockOffset = some b →
      m'.value.lookup b = m.value.lookup b) : Holds L m' v' := by
  have hoff := strip_blockOffset hs
  have hlen : v.totalDataLen = v'.totalDataLen :=
    congrArg (·.totalDataLen) hs
  have hdel : v.isDelete = v'.isDelete := congrArg (·.isDelete) hs
  unfold Holds at h ⊢
  rw [← hoff, ← hlen, ← hdel]
  cases ho : v.blockOffset with
  | none => simpa only [ho] using h
  | some b =>
      simp only [ho] at h ⊢
      rw [hb b ho]
      exact h

theorem entryOf_congr (hs : strip v = strip v')
    (hb : ∀ b, v.blockOffset = some b →
      m'.value.lookup b = m.value.lookup b) : entryOf m' v' = entryOf m v := by
  have hoff := strip_blockOffset hs
  have hdata : blockData m' v' = blockData m v := by
    unfold blockData
    rw [← hoff]
    cases ho : v.blockOffset with
    | none => rfl
    | some b => simp only [hb b ho]
  unfold entryOf
  rw [hdata]
  have hlen : v.totalDataLen = v'.totalDataLen :=
    congrArg (·.totalDataLen) hs
  have hver : v.version = v'.version := congrArg (·.version) hs
  have hdel : v.isDelete = v'.isDelete := congrArg (·.isDelete) hs
  have hpt : v.ptId = v'.ptId := congrArg (·.ptId) hs
  rw [hlen, hver, hdel, hpt]

/-- **BLOCK OWNERSHIP**: what touches the block of one entry only keeps every
    block owned once. -/
theorem Blocks.step (h : Blocks L m) (hagree : Agree m m' a)
    (ht : Touches m m' a)
    (hholds : ∀ v, m'.index.lookup a = some v → Holds L m' v) :
    Blocks L m' := by
  have hblock : ∀ x b, x ≠ a → blockAt m x = some b →
      m'.value.lookup b = m.value.lookup b := by
    intro x b hx hxb
    cases hl : m.index.lookup x with
    | none => simp [blockAt, hl] at hxb
    | some u =>
        rw [blockAt_eq_some hl] at hxb
        exact ht.lookup_eq h hx hl hxb
  refine ⟨?_, ?_, ?_⟩
  · intro x u hu
    by_cases hx : x = a
    · subst hx
      exact hholds u hu
    · obtain ⟨w, hw, hs⟩ := hagree.lookup hx hu
      exact (h.own x w hw).congr hs fun b hb => ht.lookup_eq h hx hw hb
  · -- the new block of `a` was nobody's before
    have hkey : ∀ x b, x ≠ a → blockAt m' x = some b →
        blockAt m' a ≠ some b := by
      intro x b hx hxb hab
      rw [hagree.blockAt hx] at hxb
      rcases ht.fresh b hab with hb | hb
      · exact hx (h.inj x a b hxb hb)
      · cases hl : m.index.lookup x with
        | none => simp [blockAt, hl] at hxb
        | some u =>
            rw [blockAt_eq_some hl] at hxb
            have hheld := h.own x u hl
            simp only [Holds, hxb] at hheld
            obtain ⟨d, hd, -⟩ := hheld
            exact hb (mem_value hd)
    intro x y b hxb hyb
    by_cases hx : x = a
    · by_cases hy : y = a
      · rw [hx, hy]
      · exact absurd (hx ▸ hxb) (hkey y b hy hyb)
    · by_cases hy : y = a
      · exact absurd (hy ▸ hyb) (hkey x b hx hxb)
      · rw [hagree.blockAt hx] at hxb
        rw [hagree.blockAt hy] at hyb
        exact h.inj x y b hxb hyb
  · intro b hb
    by_cases hnew : blockAt m' a = some b
    · exact ⟨a, hnew⟩
    · have hold : blockAt m a ≠ some b := fun hab => ht.gone b hab hnew hb
      have hb' : b ∈ m.value := by
        rw [← AList.lookup_isSome] at hb ⊢
        rwa [ht.other b hold hnew] at hb
      obtain ⟨x, hx⟩ := h.used b hb'
      have hxa : x ≠ a := fun heq => hold (heq ▸ hx)
      exact ⟨x, (hagree.blockAt hxa).trans hx⟩

/-- The map changes at one key. -/
theorem contents_update {c' : SlotId → List Addr} (h : Inv L m c)
    (hc' : Chains L m' c') (hagree : Agree m m' a) (ht : Touches m m' a)
    (hold : ∀ v, m.index.lookup a = some v → v.key = k.bytes)
    (hnew : ∀ v, m'.index.lookup a = some v → v.key = k.bytes)
    (hno : ∀ x v, x ≠ a → m.index.lookup x = some v → v.key ≠ k.bytes) :
    contents L m' = Function.update (contents L m) k
      ((m'.index.lookup a).map (entryOf m')) := by
  have hback := hagree.symm
  funext j
  by_cases hj : j = k
  · subst hj
    rw [Function.update_self]
    cases hl : m'.index.lookup a with
    | some u => exact hc'.contents_some hl (hnew u hl)
    | none =>
        refine hc'.contents_none ?_
        intro x u hu
        by_cases hx : x = a
        · rw [hx, hl] at hu
          cases hu
        · obtain ⟨w, hw, hs⟩ := hagree.lookup hx hu
          rw [← strip_key hs]
          exact hno x w hx hw
  · rw [Function.update_of_ne hj]
    have hbytes : k.bytes ≠ j.bytes := fun he => hj (by cases j; cases k; cases he; rfl)
    rcases h.chains.cases j with ⟨hnone, -, hcon⟩ | ⟨x, u, -, -, -, hu, hk, -, -, -, -, hcon⟩
    · rw [hcon]
      refine hc'.contents_none ?_
      intro x u hu
      by_cases hx : x = a
      · subst hx
        rw [hnew u hu]
        exact hbytes
      · obtain ⟨w, hw, hs⟩ := hagree.lookup hx hu
        rw [← strip_key hs]
        exact hnone x w hw
    · have hx : x ≠ a := by
        intro hxa
        subst hxa
        exact hbytes ((hold u hu).symm.trans hk)
      obtain ⟨w, hw, hs⟩ := hback.lookup hx hu
      rw [hcon, hc'.contents_some hw ((strip_key hs).trans hk)]
      exact congrArg some (entryOf_congr hs.symm
        fun b hb => ht.lookup_eq h.blocks hx hu hb)

/-! ## Linking, rewriting and taking out -/

/-- A new block before the first of its slot. -/
theorem Chains.link (h : Chains L m c) (ha : a ∉ m.index)
    (hk : v.key = k.bytes)
    (hno : ∀ x u, m.index.lookup x = some u → u.key ≠ k.bytes)
    (hnext : v.next = m.slots (homeOf L k.bytes))
    (hslots : m'.slots = Function.update m.slots (homeOf L k.bytes)
      ⟨hashKey k.bytes, true, a⟩)
    (hindex : m'.index = m.index.insert a v) :
    Chains L m' (Function.update c (homeOf L k.bytes)
      (a :: c (homeOf L k.bytes))) := by
  have hself : m'.index.lookup a = some v := by
    rw [hindex, AList.lookup_insert]
  have hother : ∀ x, x ≠ a → m'.index.lookup x = m.index.lookup x := by
    intro x hx
    rw [hindex, AList.lookup_insert_ne hx]
  have hne : ∀ i, ∀ x ∈ c i, x ≠ a := by
    rintro i x hx rfl
    obtain ⟨u, hu, -⟩ := h.home i x hx
    exact ha (mem_index hu)
  have hlive : ∀ x u, m'.index.lookup x = some u →
      x = a ∧ u = v ∨ x ≠ a ∧ m.index.lookup x = some u := by
    intro x u hu
    by_cases hx : x = a
    · subst hx
      exact Or.inl ⟨rfl, Option.some.inj (hu.symm.trans hself)⟩
    · exact Or.inr ⟨hx, (hother x hx).symm.trans hu⟩
  have hcongr : ∀ i, Threads (nodes m') (m.slots i) (c i) := by
    intro i
    refine threads_congr (nodes_ptr m m') ?_ ?_ (h.threads i)
    · intro x hx
      simp only [nodes, hother x (hne i x hx)]
    · rintro x hx n ⟨u, hu, hn⟩
      exact ⟨u, (hother x (hne i x hx)).trans hu, hn⟩
  refine ⟨?_, ?_, ?_, ?_, ?_, ?_⟩
  · intro i
    by_cases hi : i = homeOf L k.bytes
    · subst hi
      rw [hslots, Function.update_self, Function.update_self,
        threads_cons_iff]
      exact ⟨rfl, rfl, v, hself, by rw [hk], hnext ▸ hcongr _⟩
    · rw [hslots, Function.update_of_ne hi, Function.update_of_ne hi]
      exact hcongr i
  · intro i
    by_cases hi : i = homeOf L k.bytes
    · subst hi
      rw [Function.update_self, List.nodup_cons]
      exact ⟨fun hmem => hne _ a hmem rfl, h.nodup _⟩
    · rw [Function.update_of_ne hi]
      exact h.nodup i
  · intro i x hx
    by_cases hi : i = homeOf L k.bytes
    · subst hi
      rw [Function.update_self] at hx
      rcases List.mem_cons.mp hx with rfl | hx
      · exact ⟨v, hself, by rw [hk]⟩
      · obtain ⟨u, hu, hhome⟩ := h.home _ x hx
        exact ⟨u, (hother x (hne _ x hx)).trans hu, hhome⟩
    · rw [Function.update_of_ne hi] at hx
      obtain ⟨u, hu, hhome⟩ := h.home _ x hx
      exact ⟨u, (hother x (hne _ x hx)).trans hu, hhome⟩
  · intro x u hu
    rcases hlive x u hu with ⟨rfl, rfl⟩ | ⟨-, hu⟩
    · rw [hk, Function.update_self]
      exact List.mem_cons_self ..
    · have hmem := h.mem x u hu
      by_cases hi : homeOf L u.key = homeOf L k.bytes
      · rw [hi] at hmem ⊢
        rw [Function.update_self]
        exact List.mem_cons_of_mem _ hmem
      · rw [Function.update_of_ne hi]
        exact hmem
  · intro x y u w hu hw hkey
    rcases hlive x u hu with ⟨rfl, rfl⟩ | ⟨-, hu⟩
    · rcases hlive y w hw with ⟨rfl, -⟩ | ⟨-, hw⟩
      · rfl
      · exact absurd (hkey.symm.trans hk) (hno y w hw)
    · rcases hlive y w hw with ⟨rfl, rfl⟩ | ⟨-, hw⟩
      · exact absurd (hkey.trans hk) (hno x u hu)
      · exact h.once x y u w hu hw hkey
  · intro x u hu
    rcases hlive x u hu with ⟨-, rfl⟩ | ⟨-, hu⟩
    · exact ⟨k, hk⟩
    · exact h.isKey x u hu

/-- An entry rewritten where it is. -/
theorem Chains.modify (h : Chains L m c) (hl : m.index.lookup a = some v)
    (hkey : v'.key = v.key) (hnext : v'.next = v.next)
    (hslots : m'.slots = m.slots)
    (hindex : m'.index = m.index.insert a v') : Chains L m' c := by
  have hback : ∀ x u, m'.index.lookup x = some u →
      ∃ w, m.index.lookup x = some w ∧ w.key = u.key ∧ w.next = u.next := by
    intro x u hu
    rw [hindex] at hu
    by_cases hx : x = a
    · subst hx
      rw [AList.lookup_insert] at hu
      cases hu
      exact ⟨v, hl, hkey.symm, hnext.symm⟩
    · rw [AList.lookup_insert_ne hx] at hu
      exact ⟨u, hu, rfl, rfl⟩
  have hforth : ∀ x w, m.index.lookup x = some w →
      ∃ u, m'.index.lookup x = some u ∧ u.key = w.key ∧ u.next = w.next := by
    intro x w hw
    rw [hindex]
    by_cases hx : x = a
    · subst hx
      rw [AList.lookup_insert]
      cases hl.symm.trans hw
      exact ⟨v', rfl, hkey, hnext⟩
    · rw [AList.lookup_insert_ne hx]
      exact ⟨w, hw, rfl, rfl⟩
  refine ⟨?_, h.nodup, ?_, ?_, ?_, ?_⟩
  · intro i
    rw [hslots]
    refine threads_congr (nodes_ptr m m') ?_ ?_ (h.threads i)
    · intro x hx
      obtain ⟨w, hw, -⟩ := h.home i x hx
      obtain ⟨u, hu, -, hn⟩ := hforth x w hw
      simp only [nodes, hu, hw, Option.map_some, hn]
    · rintro x - n ⟨w, hw, hn⟩
      obtain ⟨u, hu, hk, -⟩ := hforth x w hw
      exact ⟨u, hu, hk ▸ hn⟩
  · intro i x hx
    obtain ⟨w, hw, hi⟩ := h.home i x hx
    obtain ⟨u, hu, hk, -⟩ := hforth x w hw
    exact ⟨u, hu, hk ▸ hi⟩
  · intro x u hu
    obtain ⟨w, hw, hk, -⟩ := hback x u hu
    rw [← hk]
    exact h.mem x w hw
  · intro x y u u' hu hu' hk
    obtain ⟨w, hw, hwk, -⟩ := hback x u hu
    obtain ⟨w', hw', hwk', -⟩ := hback y u' hu'
    exact h.once x y w w' hw hw' (hwk.trans (hk.trans hwk'.symm))
  · intro x u hu
    obtain ⟨w, hw, hk, -⟩ := hback x u hu
    obtain ⟨j, hj⟩ := h.isKey x w hw
    exact ⟨j, hk.symm.trans hj⟩

/-- An entry taken out: the entry before it in the chain, if there is one, has
    its node changed. -/
theorem Chains.unlink (h : Chains L m c) {pre post : List Addr}
    (hl : m.index.lookup a = some v)
    (hc : c (homeOf L v.key) = pre ++ a :: post)
    (hslots : m'.slots = if pre = [] then
      Function.update m.slots (homeOf L v.key) v.next else m.slots)
    (hgone : m'.index.lookup a = none)
    (hlast : ∀ x u, pre.getLast? = some x → m.index.lookup x = some u →
      m'.index.lookup x = some { u with next := v.next })
    (hother : ∀ x, x ≠ a → pre.getLast? ≠ some x →
      m'.index.lookup x = m.index.lookup x) :
    Chains L m' (Function.update c (homeOf L v.key) (pre ++ post)) := by
  have hnd := h.nodup (homeOf L v.key)
  have hthr := h.threads (homeOf L v.key)
  rw [hc] at hnd hthr
  have hapost : a ∉ pre ++ post := by
    intro hmem
    rw [List.nodup_append] at hnd
    rcases List.mem_append.mp hmem with hp | hp
    · exact hnd.2.2 a hp a (List.mem_cons_self ..) rfl
    · exact (List.nodup_cons.mp hnd.2.1).1 hp
  have hnd' : (pre ++ post).Nodup :=
    hnd.sublist ((List.sublist_cons_self a post).append_left pre)
  have hback : ∀ x u, m'.index.lookup x = some u → x ≠ a ∧
      ∃ w, m.index.lookup x = some w ∧ w.key = u.key := by
    intro x u hu
    have hx : x ≠ a := by
      rintro rfl
      rw [hgone] at hu
      cases hu
    refine ⟨hx, ?_⟩
    by_cases hlx : pre.getLast? = some x
    · have hmem : x ∈ c (homeOf L v.key) := by
        rw [hc]
        exact List.mem_append_left _ (List.mem_of_getLast? hlx)
      obtain ⟨w, hw, -⟩ := h.home _ x hmem
      cases (hlast x w hlx hw).symm.trans hu
      exact ⟨w, hw, rfl⟩
    · exact ⟨u, (hother x hx hlx).symm.trans hu, rfl⟩
  have hforth : ∀ x w, x ≠ a → m.index.lookup x = some w →
      ∃ u, m'.index.lookup x = some u ∧ u.key = w.key := by
    intro x w hx hw
    by_cases hlx : pre.getLast? = some x
    · exact ⟨_, hlast x w hlx hw, rfl⟩
    · exact ⟨w, (hother x hx hlx).trans hw, rfl⟩
  have hfits : ∀ x, x ≠ a → ∀ n, (nodes m).fits n x → (nodes m').fits n x := by
    rintro x hx n ⟨w, hw, hn⟩
    obtain ⟨u, hu, hk⟩ := hforth x w hx hw
    exact ⟨u, hu, hk ▸ hn⟩
  have hsame : ∀ x, x ≠ a → pre.getLast? ≠ some x →
      (nodes m').next x = (nodes m).next x := by
    intro x hx hlx
    simp only [nodes, hother x hx hlx]
  refine ⟨?_, ?_, ?_, ?_, ?_, ?_⟩
  · intro i
    by_cases hi : i = homeOf L v.key
    · subst hi
      rw [Function.update_self, hslots]
      rcases List.eq_nil_or_concat pre with rfl | ⟨qs, b, rfl⟩
      · rw [if_pos rfl, Function.update_self, List.nil_append]
        obtain ⟨-, -, u, hu, -, ht⟩ := threads_cons_iff.mp hthr
        cases hl.symm.trans hu
        refine threads_congr (nodes_ptr m m') ?_ ?_ ht
        · exact fun x hx => hsame x (fun hxa => hapost (hxa ▸ hx)) (by simp)
        · exact fun x hx => hfits x fun hxa => hapost (hxa ▸ hx)
      · rw [if_neg (by simp)]
        rw [List.concat_eq_append, List.append_assoc] at hthr hapost hnd' ⊢
        rw [List.concat_eq_append] at hsame hlast
        rw [List.singleton_append] at hthr hapost hnd' ⊢
        have hbmem : b ∈ c (homeOf L v.key) := by
          rw [hc]
          simp
        obtain ⟨w, hw, -⟩ := h.home _ b hbmem
        have hbnot : b ∉ qs ++ post := by
          intro hb
          have hperm : (qs ++ b :: post).Perm (b :: (qs ++ post)) :=
            List.perm_middle
          exact (List.nodup_cons.mp (hperm.nodup_iff.mp hnd')).1 hb
        have hna : (nodes m).next a = some v.next := by
          simp only [nodes, hl, Option.map_some]
        refine threads_bypass (nodes_ptr m m') hthr hna ?_ ?_ ?_
        · simp only [nodes, hlast b w (by simp) hw, Option.map_some]
        · intro x hx
          refine hsame x ?_ ?_
          · rintro rfl
            exact hapost (by
              rcases List.mem_append.mp hx with hx | hx
              · exact List.mem_append_left _ hx
              · exact List.mem_append_right _ (List.mem_cons_of_mem _ hx))
          · rw [List.getLast?_concat]
            rintro ⟨⟩
            exact hbnot hx
        · exact fun x hx => hfits x fun hxa => hapost (hxa ▸ hx)
    · rw [Function.update_of_ne hi]
      have hslot : m'.slots i = m.slots i := by
        rw [hslots]
        split
        · rw [Function.update_of_ne hi]
        · rfl
      rw [hslot]
      have hnot : ∀ x ∈ c i, x ≠ a ∧ pre.getLast? ≠ some x := by
        intro x hx
        obtain ⟨w, hw, hhome⟩ := h.home i x hx
        refine ⟨?_, ?_⟩
        · rintro rfl
          cases hl.symm.trans hw
          exact hi hhome.symm
        · intro hlx
          have hmem : x ∈ c (homeOf L v.key) := by
            rw [hc]
            exact List.mem_append_left _ (List.mem_of_getLast? hlx)
          obtain ⟨w', hw', hhome'⟩ := h.home _ x hmem
          cases hw.symm.trans hw'
          exact hi (hhome.symm.trans hhome')
      refine threads_congr (nodes_ptr m m') ?_ ?_ (h.threads i)
      · exact fun x hx => hsame x (hnot x hx).1 (hnot x hx).2
      · exact fun x hx => hfits x (hnot x hx).1
  · intro i
    by_cases hi : i = homeOf L v.key
    · rw [hi, Function.update_self]
      exact hnd'
    · rw [Function.update_of_ne hi]
      exact h.nodup i
  · intro i x hx
    have hmem : x ∈ c i ∧ x ≠ a := by
      by_cases hi : i = homeOf L v.key
      · rw [hi, Function.update_self] at hx
        rw [hi, hc]
        refine ⟨?_, fun hxa => hapost (hxa ▸ hx)⟩
        rcases List.mem_append.mp hx with hx | hx
        · exact List.mem_append_left _ hx
        · exact List.mem_append_right _ (List.mem_cons_of_mem _ hx)
      · rw [Function.update_of_ne hi] at hx
        refine ⟨hx, ?_⟩
        rintro rfl
        obtain ⟨w, hw, hhome⟩ := h.home i x hx
        cases hl.symm.trans hw
        exact hi hhome.symm
    obtain ⟨w, hw, hhome⟩ := h.home i x hmem.1
    obtain ⟨u, hu, hk⟩ := hforth x w hmem.2 hw
    exact ⟨u, hu, hk ▸ hhome⟩
  · intro x u hu
    obtain ⟨hx, w, hw, hk⟩ := hback x u hu
    have hmem := h.mem x w hw
    rw [← hk]
    by_cases hi : homeOf L w.key = homeOf L v.key
    · rw [hi, hc] at hmem
      rw [hi, Function.update_self]
      rcases List.mem_append.mp hmem with hp | hp
      · exact List.mem_append_left _ hp
      · rcases List.mem_cons.mp hp with hp | hp
        · exact absurd hp hx
        · exact List.mem_append_right _ hp
    · rw [Function.update_of_ne hi]
      exact hmem
  · intro x y u u' hu hu' hk
    obtain ⟨-, w, hw, hwk⟩ := hback x u hu
    obtain ⟨-, w', hw', hwk'⟩ := hback y u' hu'
    exact h.once x y w w' hw hw' (hwk.trans (hk.trans hwk'.symm))
  · intro x u hu
    obtain ⟨-, w, hw, hk⟩ := hback x u hu
    obtain ⟨j, hj⟩ := h.isKey x w hw
    exact ⟨j, hk.symm.trans hj⟩

end UbsIo.Cache
