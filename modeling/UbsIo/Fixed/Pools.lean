import UbsIo.Fixed.Layout

/-! # The pools and their lists

    `Pools options order a free` says what the threads can rely on: every area
    has a pool, the list of a size class holds the blocks `free` names, all of
    that class, and every header still says what its block is.  It holds after
    `Initialize` (`initializeFixed_spec`), and popping and pushing move blocks
    between the lists and the one who calls. -/

namespace UbsIo.Fixed

open UbsIo.Lib
open UbsIo.Buddy (BlockHeader sizeofBlockHeader)

/-- The header of a block. -/
def Block.header (x : Block) : BlockHeader :=
  ⟨x.numaId, fixedBlockOrder, x.size⟩

/-- An address is that of a block of an area and a size class. -/
def Home (options : MemAllocOptions) (p : Nat × Nat) (b : Nat) : Prop :=
  ∃ x ∈ carved options, x.addr = b ∧ x.place = p

structure Pools (options : MemAllocOptions) (order : List Nat)
    (a : MmsMemAllocator) (free : Nat × Nat → List Nat) : Prop where
  ids : a.mNumaId = options.numas.map (·.id)
  sizes : a.mBlockSize = options.blocks.map (·.2)
  order : a.mNumaPool.order = order
  pool : ∀ n, (a.mNumaPool.mNumaPools n).isSome = true ↔
    n ∈ options.numas.map (·.id)
  lists : ∀ n pool, a.mNumaPool.mNumaPools n = some pool → ∀ i,
    OnList a.mem.next (pool i) (free (n, i))
  homes : ∀ p, ∀ b ∈ free p, Home options p b
  header : ∀ x ∈ carved options, a.mem.header x.addr = x.header

variable {options : MemAllocOptions} {order : List Nat} {numa : Numa}
  {x y : Block} {n i b : Nat} {a a' : MmsMemAllocator}
  {free : Nat × Nat → List Nat} {p : Nat × Nat} {bs : List Nat}

/-! ## Initialize -/

/-- The addresses of the blocks of a list, the last one first. -/
def listOf (xs : List Block) (p : Nat × Nat) : List Nat :=
  ((xs.filter fun x => x.place = p).map (·.addr)).reverse

theorem listOf_append (xs ys : List Block) (p : Nat × Nat) :
    listOf (xs ++ ys) p = listOf ys p ++ listOf xs p := by
  simp [listOf]

theorem mem_listOf {xs : List Block} :
    b ∈ listOf xs p ↔ ∃ x ∈ xs, x.place = p ∧ x.addr = b := by
  simp [listOf, and_assoc]

theorem foldl_addBlock (n size : Nat) : ∀ (blocks : List Nat)
    (r : Memory × Option Nat),
    ((blocks.foldl (addBlock n size) r).1.next,
        (blocks.foldl (addBlock n size) r).2) =
      pushMany (r.1.next, r.2) blocks ∧
    ∀ b, (blocks.foldl (addBlock n size) r).1.header b =
      if b ∈ blocks then ⟨n, fixedBlockOrder, size⟩ else r.1.header b := by
  intro blocks
  induction blocks with
  | nil => exact fun r => ⟨rfl, fun b => rfl⟩
  | cons u blocks ih =>
      intro r
      obtain ⟨hnext, hheader⟩ := ih (addBlock n size r u)
      refine ⟨hnext, fun b => ?_⟩
      rw [List.foldl_cons, hheader b]
      show (if b ∈ blocks then _ else Function.update r.1.header u _ b) = _
      by_cases hb : b = u <;> simp [hb]

/-- What the loop over the sizes of one area leaves. -/
structure AreaFilled (numa : Numa) (before new : List Block)
    (mem : Memory) (r : Memory × NumaMemoryPool) : Prop where
  lists : ∀ i, OnList r.1.next (r.2 i) (listOf (before ++ new) (numa.id, i))
  header : ∀ x ∈ new, r.1.header x.addr = x.header
  frame : ∀ b, b ∉ new.map (·.addr) →
    r.1.next b = mem.next b ∧ r.1.header b = mem.header b

/-- **ONE CLASS**: its blocks come to the front of its list. -/
theorem areaFilled_class {mem : Memory} {pool : NumaMemoryPool}
    {before : List Block} {index size : Nat} {blocks : List Nat}
    (hlists : ∀ i, OnList mem.next (pool i) (listOf before (numa.id, i)))
    (hnodup : ((before ++ blocks.map (Block.mk · numa.id index size)).map
      (·.addr)).Nodup) :
    AreaFilled numa before (blocks.map (Block.mk · numa.id index size)) mem
      ((blocks.foldl (addBlock numa.id size) (mem, pool index)).1,
        Function.update pool index
          (blocks.foldl (addBlock numa.id size) (mem, pool index)).2) := by
  obtain ⟨hpush, hheader⟩ :=
    foldl_addBlock numa.id size blocks (mem, pool index)
  have hnew : (blocks.map (Block.mk · numa.id index size)).map (·.addr) =
      blocks := by
    rw [List.map_map]
    exact List.map_id _
  rw [List.map_append, hnew] at hnodup
  obtain ⟨-, hblocks, hdisj⟩ := List.nodup_append.mp hnodup
  have hnot : ∀ p, ∀ b ∈ listOf before p, b ∉ blocks := by
    intro p b hb hmem
    obtain ⟨x, hx, -, rfl⟩ := mem_listOf.mp hb
    exact hdisj _ (List.mem_map_of_mem hx) _ hmem rfl
  have hframe : ∀ b, b ∉ blocks →
      (blocks.foldl (addBlock numa.id size) (mem, pool index)).1.next b =
        mem.next b := fun b hb =>
    (congrFun (congrArg Prod.fst hpush) b).trans (pushMany_frame hb)
  refine ⟨fun i => ?_, fun x hx => ?_, fun b hb => ?_⟩
  · rw [listOf_append]
    show OnList _ (Function.update pool index _ i) _
    by_cases hi : i = index
    · subst hi
      have hlist : listOf (blocks.map (Block.mk · numa.id i size))
          (numa.id, i) = blocks.reverse := by
        rw [listOf, List.filter_eq_self.mpr, hnew]
        intro x hx
        obtain ⟨b, -, rfl⟩ := List.mem_map.mp hx
        simp [Block.place]
      have hgrown := onList_pushMany (hlists i) hblocks
        fun u hu hmem => hnot _ u hmem hu
      rw [← hpush, ← hlist] at hgrown
      rw [Function.update_self]
      exact hgrown
    · have hlist : listOf (blocks.map (Block.mk · numa.id index size))
          (numa.id, i) = [] := by
        refine List.eq_nil_iff_forall_not_mem.mpr fun b hb => ?_
        obtain ⟨x, hx, hplace, -⟩ := mem_listOf.mp hb
        obtain ⟨u, -, rfl⟩ := List.mem_map.mp hx
        exact hi (congrArg Prod.snd hplace).symm
      rw [hlist, Function.update_of_ne hi]
      exact onList_congr (hlists i) fun b hb => hframe b (hnot _ b hb)
  · obtain ⟨b, hb, rfl⟩ := List.mem_map.mp hx
    exact (hheader b).trans (if_pos hb)
  · rw [hnew] at hb
    exact ⟨hframe b hb, (hheader b).trans (if_neg hb)⟩

/-- Classes of other addresses come on top. -/
theorem AreaFilled.append {before xs ys : List Block} {mem : Memory}
    {r r' : Memory × NumaMemoryPool} (h : AreaFilled numa before xs mem r)
    (h' : AreaFilled numa (before ++ xs) ys r.1 r')
    (hdisj : ∀ x ∈ xs, x.addr ∉ ys.map (·.addr)) :
    AreaFilled numa before (xs ++ ys) mem r' where
  lists i := by
    rw [← List.append_assoc]
    exact h'.lists i
  header x hx := by
    rcases List.mem_append.mp hx with hx | hx
    · exact (h'.frame _ (hdisj x hx)).2.trans (h.header x hx)
    · exact h'.header x hx
  frame b hb := by
    rw [List.map_append, List.mem_append, not_or] at hb
    obtain ⟨hnext, hheader⟩ := h.frame b hb.1
    obtain ⟨hnext', hheader'⟩ := h'.frame b hb.2
    exact ⟨hnext'.trans hnext, hheader'.trans hheader⟩

theorem initMemNumaPoolLoop_spec : ∀ (cs : List (Nat × Nat))
    (index offset : Nat) (before : List Block) (mem : Memory)
    (pool : NumaMemoryPool),
    (∀ i, OnList mem.next (pool i) (listOf before (numa.id, i))) →
    ((before ++ areaBlocks numa cs index offset).map (·.addr)).Nodup →
    AreaFilled numa before (areaBlocks numa cs index offset) mem
      (initMemNumaPoolLoop numa cs index offset (mem, pool)) := by
  intro cs
  induction cs with
  | nil =>
      intro index offset before mem pool hlists _
      refine ⟨fun i => ?_, fun x hx => ?_, fun b _ => ⟨rfl, rfl⟩⟩
      · rw [areaBlocks, List.append_nil]
        exact hlists i
      · cases hx
  | cons c cs ih =>
      intro index offset before mem pool hlists hnodup
      rw [areaBlocks, ← List.append_assoc] at hnodup
      have hall := hnodup
      rw [List.map_append] at hall
      obtain ⟨hfirst, -, hdisj⟩ := List.nodup_append.mp hall
      have hclass := areaFilled_class hlists hfirst
      have hrest := ih _ _ _ _ _ hclass.lists hnodup
      refine hclass.append hrest fun x hx hmem => ?_
      exact hdisj _ (List.mem_map_of_mem (List.mem_append_right _ hx)) _ hmem
        rfl

/-- What `InitFixedMemPools` leaves, over the areas it has visited. -/
structure Filled (ids : List Nat) (xs : List Block)
    (r : Memory × NumaPoolManager) : Prop where
  pool : ∀ n, (r.2.mNumaPools n).isSome = true ↔ n ∈ ids
  lists : ∀ n pool, r.2.mNumaPools n = some pool → ∀ i,
    OnList r.1.next (pool i) (listOf xs (n, i))
  header : ∀ x ∈ xs, r.1.header x.addr = x.header
  homes : ∀ x ∈ xs, x.numaId ∈ ids

theorem listOf_elsewhere {xs : List Block} {n i : Nat}
    (h : ∀ x ∈ xs, x.numaId ≠ n) : listOf xs (n, i) = [] := by
  refine List.eq_nil_iff_forall_not_mem.mpr fun b hb => ?_
  obtain ⟨x, hx, hplace, -⟩ := mem_listOf.mp hb
  exact h x hx (congrArg Prod.fst hplace)

/-- **ONE AREA**: the pool of an area is filled, and the others stay. -/
theorem Filled.area {ids : List Nat} {xs new : List Block}
    {r : Memory × NumaPoolManager} {p : Memory × NumaMemoryPool}
    (h : Filled ids xs r) (hfilled : AreaFilled numa xs new r.1 p)
    (hnew : ∀ x ∈ new, x.numaId = numa.id)
    (hother : ∀ x ∈ xs, x.addr ∉ new.map (·.addr)) :
    Filled (ids ++ [numa.id]) (xs ++ new)
      (p.1, { r.2 with
        mNumaPools :=
          Function.update r.2.mNumaPools numa.id (some p.2) }) := by
  refine ⟨fun n => ?_, fun n pool hpool i => ?_, fun x hx => ?_,
    fun x hx => ?_⟩
  · show (Function.update r.2.mNumaPools numa.id _ n).isSome = true ↔ _
    by_cases hn : n = numa.id
    · simp [hn]
    · rw [Function.update_of_ne hn, h.pool]
      simp [hn]
  · replace hpool : Function.update r.2.mNumaPools numa.id _ n =
      some pool := hpool
    by_cases hn : n = numa.id
    · subst hn
      rw [Function.update_self] at hpool
      cases hpool
      exact hfilled.lists i
    · rw [Function.update_of_ne hn] at hpool
      rw [listOf_append, listOf_elsewhere fun x hx =>
        (hnew x hx).trans_ne (Ne.symm hn)]
      refine onList_congr (h.lists n pool hpool i) fun b hb => ?_
      obtain ⟨x, hx, -, rfl⟩ := mem_listOf.mp hb
      exact (hfilled.frame _ (hother x hx)).1
  · rcases List.mem_append.mp hx with hx | hx
    · exact (hfilled.frame _ (hother x hx)).2.trans (h.header x hx)
    · exact hfilled.header x hx
  · rcases List.mem_append.mp hx with hx | hx
    · exact List.mem_append_left _ (h.homes x hx)
    · rw [hnew x hx]
      exact List.mem_append_right _ List.mem_cons_self

theorem initFixedMemPools_spec (cs : List (Nat × Nat)) :
    ∀ (numas : List Numa) (ids : List Nat) (xs : List Block)
      (r : Memory × NumaPoolManager), Filled ids xs r →
      (ids ++ numas.map (·.id)).Nodup →
      ((xs ++ numas.flatMap (areaBlocks · cs 0 0)).map (·.addr)).Nodup →
      ∃ r', initFixedMemPools cs numas r = .ok r' ∧
        r'.2.order = r.2.order ∧
        Filled (ids ++ numas.map (·.id))
          (xs ++ numas.flatMap (areaBlocks · cs 0 0)) r' := by
  intro numas
  induction numas with
  | nil =>
      intro ids xs r h _ _
      refine ⟨r, rfl, rfl, ?_⟩
      rw [List.map_nil, List.flatMap_nil, List.append_nil, List.append_nil]
      exact h
  | cons numa numas ih =>
      intro ids xs r h hids hnodup
      have hfresh : numa.id ∉ ids := fun hmem =>
        (List.nodup_append.mp hids).2.2 _ hmem _ List.mem_cons_self rfl
      have hnone : r.2.mNumaPools numa.id = none := by
        rw [← Option.not_isSome_iff_eq_none, h.pool]
        exact hfresh
      rw [List.flatMap_cons, ← List.append_assoc] at hnodup
      have hall := hnodup
      rw [List.map_append] at hall
      have harea := hall.of_append_left
      have hempty (i : Nat) : listOf xs (numa.id, i) = [] :=
        listOf_elsewhere fun x hx heq => hfresh (heq ▸ h.homes x hx)
      have hfilled := initMemNumaPoolLoop_spec cs 0 0 xs r.1 (fun _ => none)
        (fun i => by rw [hempty]; rfl) harea
      have hnext := h.area hfilled (fun x hx => (mem_areaBlocks hx).1)
        fun x hx hmem => by
          rw [List.map_append] at harea
          exact (List.nodup_append.mp harea).2.2 _ (List.mem_map_of_mem hx) _
            hmem rfl
      obtain ⟨r', hr', horder, hrest⟩ := ih _ _ _ hnext
        (by rw [List.append_assoc]; exact hids) hnodup
      rw [List.append_assoc, List.append_assoc] at hrest
      refine ⟨r', ?_, horder, hrest⟩
      rw [initFixedMemPools, initMemNumaPool, hnone]
      exact hr'

/-- **INITIALIZE**: the lists of the pools are the carved blocks. -/
theorem initializeFixed_spec (h : Admitted options order) (mem : Memory) :
    ∃ a, initializeFixed options mem order = .ok a ∧
      Pools options order a (listOf (carved options)) := by
  obtain ⟨⟨mem', m⟩, hr, horder, hfilled⟩ := initFixedMemPools_spec
    options.blocks options.numas [] [] (mem, ⟨fun _ => none, order⟩)
    ⟨fun n => by simp, fun _ _ hpool => (by cases hpool),
      fun _ hx => absurd hx List.not_mem_nil,
      fun _ hx => absurd hx List.not_mem_nil⟩ h.ids (carved_nodup h)
  refine ⟨_, by rw [initializeFixed, hr], ?_⟩
  exact
    { ids := rfl
      sizes := rfl
      order := horder
      pool := hfilled.pool
      lists := hfilled.lists
      homes := fun p b hb => by
        obtain ⟨x, hx, hplace, haddr⟩ := mem_listOf.mp hb
        exact ⟨x, hx, haddr, hplace⟩
      header := hfilled.header }

/-! ## What the pools are asked -/

theorem Home.area (hb : Home options p b) :
    p.1 ∈ options.numas.map (·.id) := by
  obtain ⟨x, hx, -, rfl⟩ := hb
  obtain ⟨numa, hnuma, hid, -⟩ := mem_carved hx
  show x.numaId ∈ _
  rw [hid]
  exact List.mem_map_of_mem hnuma

theorem Home.class (hb : Home options p b) : p.2 < options.blocks.length := by
  obtain ⟨x, hx, -, rfl⟩ := hb
  obtain ⟨-, -, -, hsize, -⟩ := mem_carved hx
  obtain ⟨c, hc, -⟩ := Option.map_eq_some_iff.mp hsize
  exact (List.getElem?_eq_some_iff.mp hc).1

theorem Pools.numaId (h : Pools options order a free) (hb : Home options p b) :
    (a.mem.header b).numaId = p.1 := by
  obtain ⟨x, hx, rfl, rfl⟩ := hb
  rw [h.header x hx]
  rfl

/-- **ONE LIST**: a list of a pool becomes another one, and the links of the
    others stay. -/
theorem Pools.setList {pool : NumaMemoryPool} {next : Nat → Option Nat}
    {head : Option Nat} (h : Pools options order a free)
    (hpool : a.mNumaPool.mNumaPools n = some pool)
    (hlist : OnList next head bs)
    (hothers : ∀ q, q ≠ (n, i) → ∀ b ∈ free q, next b = a.mem.next b)
    (hhome : ∀ b ∈ bs, Home options (n, i) b) :
    Pools options order
      { a with
        mem := { a.mem with next := next }
        mNumaPool := setHead a.mNumaPool n i pool head }
      (Function.update free (n, i) bs) := by
  refine
    { h with
      pool := fun m => ?_
      lists := fun m pool' hpool' j => ?_
      homes := fun q b hb => ?_ }
  · show (Function.update a.mNumaPool.mNumaPools n _ m).isSome = true ↔ _
    rw [← h.pool m]
    by_cases hm : m = n
    · simp [hm, hpool]
    · rw [Function.update_of_ne hm]
  · replace hpool' : Function.update a.mNumaPool.mNumaPools n _ m =
      some pool' := hpool'
    by_cases hm : m = n
    · subst hm
      rw [Function.update_self] at hpool'
      cases hpool'
      by_cases hj : j = i
      · subst hj
        rw [Function.update_self, Function.update_self]
        exact hlist
      · have hne : (m, j) ≠ (m, i) := by simp [hj]
        rw [Function.update_of_ne hj, Function.update_of_ne hne]
        exact onList_congr (h.lists m pool hpool j) (hothers _ hne)
    · have hne : (m, j) ≠ (n, i) := by simp [hm]
      rw [Function.update_of_ne hm] at hpool'
      rw [Function.update_of_ne hne]
      exact onList_congr (h.lists m pool' hpool' j) (hothers _ hne)
  · by_cases hq : q = (n, i)
    · subst hq
      rw [Function.update_self] at hb
      exact hhome b hb
    · rw [Function.update_of_ne hq] at hb
      exact h.homes q b hb

/-- **POP**: up to a batch of blocks of a list is taken. -/
theorem getBatchBlocks_spec (h : Pools options order a free) (n i : Nat) :
    Pools options order (getBatchBlocks a n i).1
        (Function.update free (n, i)
          ((free (n, i)).drop fixedCacheBatchCount)) ∧
      (getBatchBlocks a n i).2 = (free (n, i)).take fixedCacheBatchCount := by
  rw [getBatchBlocks]
  cases hpool : a.mNumaPool.mNumaPools n with
  | none =>
      have hempty : free (n, i) = [] := by
        refine List.eq_nil_iff_forall_not_mem.mpr fun b hb => ?_
        have hmem := (h.pool n).mpr (h.homes _ b hb).area
        rw [hpool] at hmem
        cases hmem
      rw [hempty]
      refine ⟨?_, rfl⟩
      rw [List.drop_nil, ← hempty, Function.update_eq_self]
      exact h
  | some pool =>
      obtain ⟨htake, hdrop⟩ := onList_popMany (n := fixedCacheBatchCount)
        (h.lists n pool hpool i)
      refine ⟨?_, htake⟩
      exact h.setList hpool hdrop (fun _ _ _ _ => rfl)
        fun b hb => h.homes _ b (List.mem_of_mem_drop hb)

/-- **PUSH**: blocks that are in no list come to the front of theirs. -/
theorem addBatchBlocksToPool_spec (h : Pools options order a free)
    (hn : n ∈ options.numas.map (·.id))
    (hhome : ∀ b ∈ bs, Home options (n, i) b)
    (hnodup : bs.Nodup) (hfree : ∀ q, ∀ b ∈ free q, b ∉ bs) :
    ∃ a', addBatchBlocksToPool a n i bs = .ok a' ∧
      Pools options order a'
        (Function.update free (n, i) (bs.reverse ++ free (n, i))) := by
  obtain ⟨pool, hpool⟩ := Option.isSome_iff_exists.mp ((h.pool n).mpr hn)
  refine ⟨_, by rw [addBatchBlocksToPool, hpool], ?_⟩
  have hpushed := onList_pushMany (h.lists n pool hpool i) hnodup
    fun b hb hmem => hfree _ b hmem hb
  refine h.setList hpool hpushed
    (fun q _ b hb => pushMany_frame (hfree q b hb)) fun b hb => ?_
  rcases List.mem_append.mp hb with hb | hb
  · exact hhome b (List.mem_reverse.mp hb)
  · exact h.homes _ b hb

/-- **STORE**: what is written into a block that is in no list changes no
    header and no list. -/
theorem overwrite_spec (hadm : Admitted options order)
    (h : Pools options order a free) (hx : x ∈ carved options) {size : Nat}
    (hsize : size ≤ x.size) (hfree : ∀ q, x.addr ∉ free q) (new : Memory) :
    Pools options order
      { a with mem := a.mem.overwrite x.addr size new } free := by
  have hroom : ∀ y ∈ carved options, sizeofBlockNode ≤ y.size := by
    intro y hy
    obtain ⟨-, -, -, hclass, -⟩ := mem_carved hy
    obtain ⟨c, hc, hcy⟩ := Option.map_eq_some_iff.mp hclass
    exact hcy ▸ hadm.node c (List.mem_of_getElem? hc)
  refine
    { h with
      lists := fun m pool hpool j => ?_
      header := fun y hy => ?_ }
  · refine onList_congr (h.lists m pool hpool j) fun b hb => ?_
    obtain ⟨y, hy, rfl, -⟩ := h.homes _ b hb
    have hne : x.addr ≠ y.addr := fun heq => hfree _ (heq ▸ hb)
    have hapart := carved_apart_of_ne hadm hx hy hne
    refine if_neg fun hin => ?_
    have hnode := hroom y hy
    rcases hapart with hle | hle <;> omega
  · refine (if_neg fun hin => ?_).trans (h.header y hy)
    have hne : x.addr ≠ y.addr := by omega
    rcases carved_apart_of_ne hadm hx hy hne with hle | hle <;>
      rw [sizeofBlockHeader] at hin hle <;> omega

/-! ## Size classes -/

/-- The first class that is large enough for a size. -/
def classOf (options : MemAllocOptions) (size : Nat) : Option Nat :=
  (options.blocks.map (·.2)).findIdx? fun blockSize => decide (size ≤ blockSize)

theorem Pools.classFor_eq (h : Pools options order a free) (size : Nat) :
    classFor a size = classOf options size := by
  rw [classFor, h.sizes]
  rfl

/-- A class that is found is large enough. -/
theorem classOf_le {size : Nat} (hi : classOf options size = some i)
    (hb : Home options (n, i) b) :
    ∃ x ∈ carved options, x.addr = b ∧ size ≤ x.size := by
  obtain ⟨x, hx, hxb, hplace⟩ := hb
  obtain ⟨-, -, -, hsize, -⟩ := mem_carved hx
  have hindex : x.index = i := congrArg Prod.snd hplace
  rw [classOf, List.findIdx?_eq_some_iff_getElem] at hi
  obtain ⟨hlt, hle, -⟩ := hi
  refine ⟨x, hx, hxb, ?_⟩
  rw [hindex, ← List.getElem?_map, List.getElem?_eq_some_iff] at hsize
  obtain ⟨_, hsize⟩ := hsize
  rw [hsize] at hle
  exact of_decide_eq_true hle

/-- The class of a block's size is the class it was carved for. -/
theorem classOf_block (hadm : Admitted options order)
    (hx : x ∈ carved options) :
    classOf options x.size = some x.index := by
  obtain ⟨-, -, -, hsize, -⟩ := mem_carved hx
  rw [← List.getElem?_map, List.getElem?_eq_some_iff] at hsize
  obtain ⟨hlt, hsize⟩ := hsize
  rw [classOf, List.findIdx?_eq_some_iff_getElem]
  refine ⟨hlt, ?_, fun j hj => ?_⟩
  · rw [hsize]
    exact decide_eq_true le_rfl
  · have hsorted := List.pairwise_map.mpr hadm.sizes
    have hless := List.pairwise_iff_getElem.mp hsorted j x.index
      (hj.trans hlt) hlt hj
    rw [hsize] at hless
    simpa using hless

end UbsIo.Fixed
