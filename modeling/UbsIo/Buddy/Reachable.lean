import UbsIo.Buddy.Calls

/-! # Runs of the buddy pool

    Every call keeps the pool sound, whatever users store into the blocks they
    hold.  Two results about all reachable states follow: the free chunks and
    the held blocks tile the pool, and the free chunks are merged completely,
    so that an allocation succeeds whenever there is room for it and the pool
    returns to what `Start` built when everything is freed. -/

namespace UbsIo.Buddy

open UbsIo.Lib

structure Sound (s : Sys) : Prop where
  inv : ∃ ls, Inv s.pool.mUnitCount s.pool s.live ls
  minCount : 2 ^ s.pool.mMaxOrder ≤ s.pool.mUnitCount
  maxCount : s.pool.mUnitCount < 2 ^ (s.pool.mMaxOrder + 1)
  /-- The header of a held block is as it was handed out. -/
  header : ∀ b ∈ s.live, (s.pool.header b.unit).order = b.order ∧
    (s.pool.header b.unit).numaId = s.pool.mNumaId

variable {s s' : Sys}

/-- A call that keeps the sizes and the headers of the other blocks. -/
theorem Sound.of_inv {p : BuddyNumaMemoryPool} {live : List Block}
    {ls : Nat → List Nat} (h : Sound s)
    (hinv : Inv s.pool.mUnitCount p live ls) (hsame : Same s.pool p)
    (hhead : ∀ b ∈ live, (p.header b.unit).order = b.order ∧
      (p.header b.unit).numaId = s.pool.mNumaId) : Sound ⟨p, live⟩ := by
  refine ⟨⟨ls, ?_⟩, ?_, ?_, ?_⟩
  · rw [← hsame.unitCount] at hinv
    exact hinv
  · show 2 ^ p.mMaxOrder ≤ p.mUnitCount
    rw [hsame.maxOrder, hsame.unitCount]
    exact h.minCount
  · show p.mUnitCount < 2 ^ (p.mMaxOrder + 1)
    rw [hsame.maxOrder, hsame.unitCount]
    exact h.maxCount
  · intro b hb
    rw [hsame.numaId]
    exact hhead b hb

theorem Sound.perm {live : List Block} (h : Sound s)
    (hp : live.Perm s.live) : Sound ⟨s.pool, live⟩ := by
  obtain ⟨ls, hinv⟩ := h.inv
  exact ⟨⟨ls, hinv.perm hp⟩, h.minCount, h.maxCount,
    fun b hb => h.header b (hp.mem_iff.mp hb)⟩

/-- Different blocks start at different units. -/
theorem Sound.nodup (h : Sound s) : (s.live.map (·.unit)).Nodup := by
  obtain ⟨ls, hinv⟩ := h.inv
  have hap := hinv.tiles.apart
  rw [List.map_append] at hap
  obtain ⟨-, hlive, -⟩ := List.pairwise_append.mp hap
  rw [List.nodup_iff_pairwise_ne, List.pairwise_map]
  rw [List.pairwise_map] at hlive
  refine hlive.imp ?_
  intro b c hbc heq
  exact hbc b.unit ⟨b.has_unit, heq ▸ c.has_unit⟩

/-! ## Calls -/

theorem sound_allocUnlocked (h : Sound s) {order : Nat}
    {p : BuddyNumaMemoryPool} {u : Nat}
    (ha : allocUnlocked s.pool order = some (p, u)) :
    Sound ⟨p, ⟨u, order⟩ :: s.live⟩ ∧ Same s.pool p := by
  obtain ⟨ls, hinv⟩ := h.inv
  rcases allocUnlocked_spec hinv order with
    ⟨hnone, -⟩ | ⟨p', u', ls', hsome, hinv', hsame, ho, hn, hkeep⟩
  · rw [hnone] at ha
    exact nomatch ha
  · rw [hsome] at ha
    obtain ⟨rfl, rfl⟩ := Prod.mk.inj (Option.some.inj ha)
    refine ⟨h.of_inv hinv' hsame ?_, hsame⟩
    intro b hb
    rcases List.mem_cons.mp hb with rfl | hb
    · exact ⟨ho, hn⟩
    · rw [hkeep b hb]
      exact h.header b hb

theorem sound_allocBatchLoop (order : Nat) : ∀ (count : Nat) (s : Sys),
    Sound s →
    Sound ⟨(allocBatchLoop order count s.pool).1,
      (allocBatchLoop order count s.pool).2.map (⟨·, order⟩) ++ s.live⟩ ∧
    Same s.pool (allocBatchLoop order count s.pool).1 := by
  intro count
  induction count with
  | zero => intro s h; exact ⟨h, Same.refl _⟩
  | succ count ih =>
      intro s h
      rw [allocBatchLoop]
      cases ha : allocUnlocked s.pool order with
      | none => exact ⟨h, Same.refl _⟩
      | some r =>
          obtain ⟨p, u⟩ := r
          obtain ⟨hs, hsame⟩ := sound_allocUnlocked h ha
          obtain ⟨hrest, hsame'⟩ := ih _ hs
          refine ⟨hrest.perm ?_, hsame.trans hsame'⟩
          rw [List.map_cons, List.cons_append]
          exact List.perm_middle.symm

theorem sound_freeUnlocked (h : Sound s) {u : Nat}
    (hu : u ∈ s.live.map (·.unit)) :
    Sound ⟨freeUnlocked s.pool u, s.live.filter (·.unit != u)⟩ ∧
      Same s.pool (freeUnlocked s.pool u) := by
  obtain ⟨b, hb, rfl⟩ := List.mem_map.mp hu
  obtain ⟨ls, hinv⟩ := h.inv
  have hfilter : s.live.filter (·.unit != b.unit) = s.live.erase b := by
    rw [(List.Nodup.of_map _ h.nodup).erase_eq_filter]
    refine List.filter_congr ?_
    intro c hc
    have hiff : c.unit = b.unit ↔ c = b :=
      ⟨fun heq => List.inj_on_of_nodup_map h.nodup hc hb heq,
        fun heq => heq ▸ rfl⟩
    rw [Bool.eq_iff_iff]
    simp [hiff]
  have hperm := (List.perm_cons_erase hb).symm
  obtain ⟨ls', hinv', hsame, hkeep⟩ := freeUnlocked_spec (hinv.perm hperm)
    h.maxCount (h.header b hb).1
  rw [hfilter]
  refine ⟨h.of_inv hinv' hsame ?_, hsame⟩
  intro c hc
  rw [hkeep c hc]
  exact h.header c (List.mem_of_mem_erase hc)

theorem sound_freeBatch : ∀ (blocks : List Nat) (s : Sys), Sound s →
    blocks.Nodup → (∀ u ∈ blocks, u ∈ s.live.map (·.unit)) →
    Sound ⟨blocks.foldl freeUnlocked s.pool,
      s.live.filter (·.unit ∉ blocks)⟩ ∧
    Same s.pool (blocks.foldl freeUnlocked s.pool) := by
  intro blocks
  induction blocks with
  | nil =>
      intro s h _ _
      refine ⟨?_, Same.refl _⟩
      simpa using h
  | cons u us ih =>
      intro s h hn hmem
      obtain ⟨hu, hus⟩ := List.nodup_cons.mp hn
      obtain ⟨hs, hsame⟩ :=
        sound_freeUnlocked h (hmem u (List.mem_cons_self ..))
      obtain ⟨hrest, hsame'⟩ := ih _ hs hus (by
        intro v hv
        obtain ⟨b, hb, rfl⟩ :=
          List.mem_map.mp (hmem v (List.mem_cons_of_mem _ hv))
        refine List.mem_map_of_mem (List.mem_filter.mpr ⟨hb, ?_⟩)
        rw [bne_iff_ne]
        rintro rfl
        exact hu hv)
      have hlive : (s.live.filter (·.unit != u)).filter (·.unit ∉ us) =
          s.live.filter (·.unit ∉ u :: us) := by
        rw [List.filter_filter]
        refine List.filter_congr ?_
        intro b _
        rw [Bool.eq_iff_iff]
        simp
        tauto
      rw [← hlive]
      exact ⟨hrest, hsame.trans hsame'⟩

theorem sound_store (h : Sound s) {u : Nat} (prev next : Option Nat)
    (header : BlockHeader) (hu : ∃ b ∈ s.live, b.seg.Has u) :
    Sound ⟨storeAt s u prev next header, s.live⟩ := by
  obtain ⟨ls, hinv⟩ := h.inv
  obtain ⟨b, hb, hbu⟩ := hu
  have hfree := hinv.not_free hb hbu
  refine @Sound.of_inv _ _ _ ls h ?_ ⟨rfl, rfl, rfl⟩ ?_
  · refine { hinv with linked := ?_ }
    intro k
    -- the nodes of the lists are in free chunks, not in held blocks
    refine linked_congr (hinv.linked k) ?_
    intro x hx
    have hxu : x ≠ u := by
      rintro rfl
      exact absurd (((hinv.mem k x).mp hx).1.symm.trans hfree) (by decide)
    exact ⟨Function.update_of_ne hxu _ _, Function.update_of_ne hxu _ _⟩
  · intro c hc
    have hkeep : (storeAt s u prev next header).header c.unit =
        s.pool.header c.unit := by
      show (if u ∈ s.live.map (·.unit) then s.pool.header
        else Function.update s.pool.header u header) c.unit = _
      split
      · rfl
      · rename_i hout
        refine Function.update_of_ne ?_ _ _
        rintro rfl
        exact hout (List.mem_map_of_mem hc)
    rw [hkeep]
    exact h.header c hc

/-- Blocks of other units stay when the units of some are taken out. -/
theorem filter_units (front back : List Block)
    (h : ((front ++ back).map (·.unit)).Nodup) :
    (front ++ back).filter (·.unit ∉ front.map (·.unit)) = back := by
  rw [List.map_append] at h
  obtain ⟨-, -, hapart⟩ := List.nodup_append.mp h
  rw [List.filter_append, List.filter_eq_nil_iff.mpr, List.nil_append,
    List.filter_eq_self.mpr]
  · intro c hc
    refine decide_eq_true ?_
    intro hmem
    exact hapart _ hmem _ (List.mem_map_of_mem hc) rfl
  · intro c hc
    rw [decide_eq_true_eq, not_not]
    exact List.mem_map_of_mem hc

theorem length_allocBatchLoop (order : Nat) :
    ∀ (count : Nat) (p : BuddyNumaMemoryPool),
      (allocBatchLoop order count p).2.length ≤ count := by
  intro count
  induction count with
  | zero => intro p; exact le_refl _
  | succ count ih =>
      intro p
      rw [allocBatchLoop]
      cases allocUnlocked p order with
      | none => exact Nat.zero_le _
      | some r => exact Nat.succ_le_succ (ih r.1)

/-- **STEP**: every allowed call is carried out or refused, and keeps the pool
    sound. -/
theorem sound_step (h : Sound s) {op : Op} (hop : Allowed s op) :
    ∃ s', step s op = some s' ∧ Sound s' ∧ Same s.pool s'.pool := by
  have hstay : Sound s ∧ Same s.pool s.pool := ⟨h, Same.refl _⟩
  rw [step.eq_def, if_pos hop]
  cases op with
  | alloc order =>
      dsimp only
      rw [alloc]
      by_cases hbig : order > s.pool.mMaxOrder ∨ order > buddyMaxOrder
      · rw [if_pos hbig]
        exact ⟨s, rfl, hstay⟩
      · rw [if_neg hbig]
        cases ha : allocUnlocked s.pool order with
        | none => exact ⟨s, rfl, hstay⟩
        | some r => exact ⟨_, rfl, sound_allocUnlocked h ha⟩
  | allocBatch order requestCount =>
      dsimp only
      rw [allocBatch]
      by_cases hzero : requestCount = 0
      · rw [if_pos hzero]
        exact ⟨s, rfl, hstay⟩
      rw [if_neg hzero]
      by_cases hbig : order > s.pool.mMaxOrder ∨ order > buddyMaxOrder
      · rw [if_pos hbig]
        exact ⟨s, rfl, hstay⟩
      rw [if_neg hbig]
      dsimp only
      by_cases hnone : (allocBatchLoop order requestCount s.pool).2 = []
      · rw [if_pos hnone]
        exact ⟨s, rfl, hstay⟩
      · rw [if_neg hnone]
        exact ⟨_, rfl, sound_allocBatchLoop order requestCount s h⟩
  | free unitIndex =>
      dsimp only
      rw [free]
      by_cases hbig : (s.pool.header unitIndex).order > s.pool.mMaxOrder ∨
          (s.pool.header unitIndex).order > buddyMaxOrder
      · rw [if_pos hbig]
        exact ⟨s, rfl, hstay⟩
      · rw [if_neg hbig]
        exact ⟨_, rfl, sound_freeUnlocked h hop⟩
  | freeBatch order blocks =>
      dsimp only
      rw [freeBatch]
      by_cases hbig : order > s.pool.mMaxOrder ∨ order > buddyMaxOrder ∨
          blocks = []
      · rw [if_pos hbig]
        exact ⟨s, rfl, hstay⟩
      rw [if_neg hbig]
      by_cases hbad : blocks.any fun u => (s.pool.header u).order != order ||
          (s.pool.header u).numaId != s.pool.mNumaId
      · rw [if_pos hbad]
        exact ⟨s, rfl, hstay⟩
      · rw [if_neg hbad]
        exact ⟨_, rfl, sound_freeBatch blocks s h hop.1 hop.2⟩
  | store unitIndex prev next header =>
      exact ⟨_, rfl, sound_store h prev next header hop, rfl, rfl, rfl⟩

theorem sound_of_step (h : Sound s) {op : Op} (hs : step s op = some s') :
    Sound s' ∧ Same s.pool s'.pool := by
  have hop : Allowed s op := by
    by_contra hno
    rw [step.eq_def, if_neg hno] at hs
    exact nomatch hs
  obtain ⟨t, ht, hsound⟩ := sound_step h hop
  rw [hs] at ht
  rw [Option.some.inj ht]
  exact hsound

/-- A sound pool stays sound, and keeps its size and its orders. -/
theorem Sound.run {p : BuddyNumaMemoryPool} {ops : List Op} (h : Sound ⟨p, []⟩)
    (hrun : runFrom step ⟨p, []⟩ ops = some s) : Sound s ∧ Same p s.pool := by
  refine runFrom_invariant (I := fun s => Sound s ∧ Same p s.pool) ?_
    ⟨h, Same.refl _⟩ hrun
  rintro s op s' ⟨hs, hsame⟩ hstep
  obtain ⟨hs', hsame'⟩ := sound_of_step hs hstep
  exact ⟨hs', hsame.trans hsame'⟩

/-- **REACHABLE**: what `Start` builds is sound, and stays so. -/
theorem reachable_sound {size baseBlockSize : Nat} (numaId : Nat)
    (hbase : sizeofBuddyBlockNode ≤ baseBlockSize) (hsize : size < 2 ^ 64)
    (hcount : 1 ≤ size / (baseBlockSize + sizeofBlockHeader))
    (header : Nat → BlockHeader) (node : Links Nat) :
    ∃ p₀, start numaId size baseBlockSize header node = .ok p₀ ∧
      p₀.mUnitCount = size / (baseBlockSize + sizeofBlockHeader) ∧
      Sound ⟨p₀, []⟩ ∧
      ∀ (ops : List Op) (s : Sys), runFrom step ⟨p₀, []⟩ ops = some s →
        Sound s ∧ Same p₀ s.pool := by
  obtain ⟨p₀, ls, hstart, hn, hinv, hmin, hmax⟩ :=
    start_spec numaId hbase hsize hcount header node
  have hsound : Sound ⟨p₀, []⟩ :=
    ⟨⟨ls, hinv⟩, hmin, hmax, fun b hb => absurd hb List.not_mem_nil⟩
  exact ⟨p₀, hstart, hn, hsound, fun _ _ hrun => hsound.run hrun⟩

/-- Following the pointers of a free list gives its nodes. -/
theorem Sound.walk_eq (h : Sound s) (k : Nat) :
    ∃ l, walk s.pool.node (s.pool.mUnitCount + 1) (s.pool.mFreeHeads k) =
        some l ∧ l.Nodup ∧
      ∀ u, u ∈ l ↔ u < s.pool.mUnitCount ∧ s.pool.mFreeStates u = true ∧
        s.pool.mOrders u = k := by
  obtain ⟨ls, hinv⟩ := h.inv
  have hmem : ∀ u, u ∈ ls k ↔ u < s.pool.mUnitCount ∧
      s.pool.mFreeStates u = true ∧ s.pool.mOrders u = k := by
    intro u
    rw [hinv.mem k u]
    constructor
    · intro hf
      exact ⟨hinv.bound u hf.1, hf⟩
    · exact And.right
  have hlen : (ls k).length ≤ s.pool.mUnitCount := by
    have hsub : ls k ⊆ List.range s.pool.mUnitCount := by
      intro u hu
      exact List.mem_range.mpr ((hmem u).mp hu).1
    simpa using ((hinv.nodup k).subperm hsub).length_le
  exact ⟨ls k, Lib.walk_eq _ (hinv.linked k) (Nat.lt_succ_of_le hlen),
    hinv.nodup k, hmem⟩

/-- **TILING**: a memory of at least one unit makes a pool, and in every state
    it reaches the free chunks and the held blocks are aligned to their own
    sizes and tile the pool, the list of an order has exactly the chunks that
    are marked free with it, no two free chunks are buddies, and every further
    call is carried out or refused. -/
theorem reachable_pool_tiled (numaId size baseBlockSize : Nat)
    (hbase : sizeofBuddyBlockNode ≤ baseBlockSize) (hsize : size < 2 ^ 64)
    (hcount : 1 ≤ size / (baseBlockSize + sizeofBlockHeader))
    (header : Nat → BlockHeader) (node : Links Nat) :
    ∃ p₀, start numaId size baseBlockSize header node = .ok p₀ ∧
      ∀ (ops : List Op) (s : Sys), runFrom step ⟨p₀, []⟩ ops = some s →
        s.pool.mUnitCount = size / (baseBlockSize + sizeofBlockHeader) ∧
        Tiles s.pool.mUnitCount
          ((freeChunks s.pool ++ s.live).map Block.seg) ∧
        (∀ b ∈ freeChunks s.pool ++ s.live, 2 ^ b.order ∣ b.unit) ∧
        (∀ k, ∃ l, walk s.pool.node (s.pool.mUnitCount + 1)
            (s.pool.mFreeHeads k) = some l ∧ l.Nodup ∧
          ∀ u, u ∈ l ↔ u < s.pool.mUnitCount ∧
            s.pool.mFreeStates u = true ∧ s.pool.mOrders u = k) ∧
        (∀ b ∈ freeChunks s.pool,
          ⟨b.unit ^^^ 2 ^ b.order, b.order⟩ ∉ freeChunks s.pool) ∧
        ∀ op, Allowed s op → ∃ s', step s op = some s' := by
  obtain ⟨p₀, hstart, hn, -, hall⟩ :=
    reachable_sound numaId hbase hsize hcount header node
  refine ⟨p₀, hstart, ?_⟩
  intro ops s hrun
  obtain ⟨hs, hsame⟩ := hall ops s hrun
  obtain ⟨ls, hinv⟩ := hs.inv
  refine ⟨hsame.unitCount.trans hn, hinv.tiles, ?_, hs.walk_eq, ?_, ?_⟩
  · intro b hb
    refine (hinv.aligned b ?_).1
    rcases List.mem_append.mp hb with hb | hb
    · exact Or.inl (mem_freeChunks.mp hb).2
    · exact Or.inr hb
  · intro b hb hb'
    exact hinv.lone b (mem_freeChunks.mp hb).2 (mem_freeChunks.mp hb').2
  · intro op hop
    obtain ⟨s', hs', -⟩ := sound_step hs hop
    exact ⟨s', hs'⟩

/-- Memory that was never written. -/
def noHeaders : Nat → BlockHeader := fun _ => ⟨0, 0, 0⟩

def noNodes : Links Nat := ⟨fun _ => none, fun _ => none⟩

/-- Splits, merges and a store into a held block, in a pool of 13 units. -/
def raggedOps : List Op :=
  [.alloc 1, .alloc 0, .allocBatch 2 5, .free 4,
   .store 0 (some 9) (some 12) ⟨7, 7, 7⟩, .alloc 0]

theorem reachable_pool_tiled_ragged :
    (sizeofBuddyBlockNode ≤ 24 ∧ 520 < 2 ^ 64 ∧
      1 ≤ 520 / (24 + sizeofBlockHeader)) ∧
    ∃ p₀ s, start 3 520 24 noHeaders noNodes = .ok p₀ ∧
      runFrom step ⟨p₀, []⟩ raggedOps = some s ∧
      s.live = [⟨10, 0⟩, ⟨0, 2⟩, ⟨12, 0⟩, ⟨8, 1⟩] ∧
      Tiles s.pool.mUnitCount
        ((freeChunks s.pool ++ s.live).map Block.seg) := by
  obtain ⟨p₀, hstart, hall⟩ := reachable_pool_tiled 3 520 24 (by decide)
    (by decide) (by decide) noHeaders noNodes
  have hrun : ((start 3 520 24 noHeaders noNodes).toOption.bind fun p =>
      runFrom step ⟨p, []⟩ raggedOps).any
        (fun s => s.live = [⟨10, 0⟩, ⟨0, 2⟩, ⟨12, 0⟩, ⟨8, 1⟩]) = true := by
    decide +kernel
  rw [hstart] at hrun
  obtain ⟨s, hs, hlive⟩ := (Option.any_eq_true _ _).mp hrun
  exact ⟨by decide, p₀, s, hstart, hs, of_decide_eq_true hlive,
    (hall _ s hs).2.1⟩

/-! ## Complete merging -/

/-- The free chunks are apart and merged. -/
theorem Sound.maximal (h : Sound s) : Maximal (IsFree s.pool) := by
  obtain ⟨ls, hinv⟩ := h.inv
  refine ⟨fun b hb => (hinv.aligned b (Or.inl hb)).1, ?_, hinv.lone⟩
  intro b c x hb hc hbx hcx
  by_contra hne
  have hap := hinv.tiles.apart
  rw [List.map_append] at hap
  obtain ⟨hfree, -, -⟩ := List.pairwise_append.mp hap
  refine hfree.forall (List.mem_map_of_mem (hinv.mem_free hb))
    (List.mem_map_of_mem (hinv.mem_free hc)) ?_ x ⟨hbx, hcx⟩
  intro hseg
  have hunit : b.unit = c.unit := congrArg Seg.start hseg
  refine hne (Block.ext hunit ?_)
  rw [← hb.2, ← hc.2, hunit]

/-- The units of the pool that no held block has are in free chunks. -/
theorem Sound.covers_iff (h : Sound s) (x : Nat) :
    Covers (IsFree s.pool) x ↔
      x < s.pool.mUnitCount ∧ ∀ b ∈ s.live, ¬ b.seg.Has x := by
  obtain ⟨ls, hinv⟩ := h.inv
  have hap := hinv.tiles.apart
  rw [List.map_append] at hap
  obtain ⟨-, -, hcross⟩ := List.pairwise_append.mp hap
  constructor
  · rintro ⟨b, hb, hbx⟩
    have hmem := hinv.mem_free hb
    refine ⟨?_, ?_⟩
    · refine (hinv.tiles.exact x).mpr ⟨b.seg, ?_, hbx⟩
      exact List.mem_map_of_mem (List.mem_append_left _ hmem)
    · intro c hc hcx
      exact hcross _ (List.mem_map_of_mem hmem) _ (List.mem_map_of_mem hc) x
        ⟨hbx, hcx⟩
  · rintro ⟨hlt, hout⟩
    obtain ⟨t, ht, htx⟩ := (hinv.tiles.exact x).mp hlt
    obtain ⟨b, hb, rfl⟩ := List.mem_map.mp ht
    rcases List.mem_append.mp hb with hb | hb
    · exact ⟨b, (mem_freeChunks.mp hb).2, htx⟩
    · exact absurd htx (hout b hb)

/-- There is room for a block of the order. -/
def HasRoom (s : Sys) (order : Nat) : Prop :=
  ∃ u, 2 ^ order ∣ u ∧ u + 2 ^ order ≤ s.pool.mUnitCount ∧
    ∀ x, u ≤ x → x < u + 2 ^ order → ∀ b ∈ s.live,
      ¬ (b.unit ≤ x ∧ x < b.unit + 2 ^ b.order)

/-- **COMPLETENESS** of one allocation. -/
theorem Sound.alloc_iff (h : Sound s) {order : Nat}
    (hmax : order ≤ s.pool.mMaxOrder) (hbits : order ≤ buddyMaxOrder) :
    (∃ r, alloc s.pool order = .ok r) ↔ HasRoom s order := by
  obtain ⟨ls, hinv⟩ := h.inv
  rw [alloc, if_neg (by omega)]
  rcases allocUnlocked_spec hinv order with
    ⟨hnone, hempty⟩ | ⟨p', u, ls', hsome, hinv', hsame, -⟩
  · rw [hnone]
    refine iff_of_false ?_ ?_
    · rintro ⟨r, hr⟩
      exact nomatch hr
    · rintro ⟨u, hal, hle, hroom⟩
      -- the range would lie in a free chunk, and that would be listed
      obtain ⟨b, hb, hin⟩ := exists_member_of_covered h.maximal (t := ⟨u, order⟩)
        hal (by
          intro x hx
          refine (h.covers_iff x).mpr ⟨?_, fun c hc => hroom x hx.1 hx.2 c hc⟩
          exact lt_of_lt_of_le hx.2 hle)
      have hord : order ≤ b.order := by
        have h₁ := hin _ (Block.has_unit ⟨u, order⟩)
        have h₂ := hin _ (Seg.has_last (Block.seg_pos ⟨u, order⟩))
        have hpow : 2 ^ order ≤ 2 ^ b.order := by
          have := Nat.two_pow_pos order
          simp only [Seg.Has, Block.seg] at h₁ h₂
          omega
        exact (Nat.pow_le_pow_iff_right (by omega)).mp hpow
      have hmem := (hinv.mem b.order b.unit).mpr hb
      have hlist := hinv.linked b.order
      rw [hempty b.order hord (hinv.aligned b (Or.inl hb)).2] at hlist
      have hnil := linked_head? hlist
      rw [List.head?_eq_none_iff.mp hnil.symm] at hmem
      exact List.not_mem_nil hmem
  · rw [hsome]
    refine iff_of_true ⟨_, rfl⟩ ?_
    have hself : (⟨u, order⟩ : Block) ∈ (⟨u, order⟩ :: s.live : List Block) :=
      List.mem_cons_self ..
    refine ⟨u, (hinv'.aligned _ (Or.inr hself)).1,
      hinv'.le (Or.inr hself), ?_⟩
    intro x h₁ h₂ b hb hbx
    have hap := hinv'.tiles.apart
    rw [List.map_append, List.map_cons] at hap
    obtain ⟨-, hheld, -⟩ := List.pairwise_append.mp hap
    exact (List.pairwise_cons.mp hheld).1 _ (List.mem_map_of_mem hb) x
      ⟨⟨h₁, h₂⟩, hbx⟩

/-- The orders of a pool of 64 bits are the orders the code knows. -/
theorem Sound.maxOrder_le {s : Sys} (h : Sound s)
    (hbits : s.pool.mUnitCount < 2 ^ 64) :
    s.pool.mMaxOrder ≤ buddyMaxOrder := by
  have hmin := h.minCount
  have hlt : 2 ^ s.pool.mMaxOrder < 2 ^ 64 := by omega
  have := (Nat.pow_lt_pow_iff_right (by omega)).mp hlt
  rw [buddyMaxOrder]
  omega

theorem Sound.order_le {s : Sys} (h : Sound s) {b : Block}
    (hb : b ∈ s.live) : b.order ≤ s.pool.mMaxOrder := by
  obtain ⟨ls, hinv⟩ := h.inv
  exact (hinv.aligned b (Or.inr hb)).2

/-- An allocation of any order succeeds exactly when there is room. -/
theorem Sound.alloc_iff_room {s : Sys} (h : Sound s)
    (hbits : s.pool.mUnitCount < 2 ^ 64) (order : Nat) :
    (∃ r, alloc s.pool order = .ok r) ↔ HasRoom s order := by
  have hmax := h.maxOrder_le hbits
  by_cases hle : order ≤ s.pool.mMaxOrder
  · exact h.alloc_iff hle (hle.trans hmax)
  · refine iff_of_false ?_ ?_
    · rintro ⟨r, hr⟩
      rw [alloc, if_pos (Or.inl (by omega))] at hr
      cases hr
    · rintro ⟨u, -, hfit, -⟩
      -- such a range is longer than the pool
      have hcount := h.maxCount
      have hpow : 2 ^ (s.pool.mMaxOrder + 1) ≤ 2 ^ order :=
        Nat.pow_le_pow_right (by omega) (by omega)
      omega

/-- **COMPLETE MERGING**: in every reachable state an allocation succeeds
    exactly when some aligned range of its size has no unit of a held block,
    and when nothing is held the free chunks are those `Start` created. -/
theorem reachable_pool_complete (numaId size baseBlockSize : Nat)
    (hbase : sizeofBuddyBlockNode ≤ baseBlockSize) (hsize : size < 2 ^ 64)
    (hcount : 1 ≤ size / (baseBlockSize + sizeofBlockHeader))
    (header : Nat → BlockHeader) (node : Links Nat) :
    ∃ p₀, start numaId size baseBlockSize header node = .ok p₀ ∧
      ∀ (ops : List Op) (s : Sys), runFrom step ⟨p₀, []⟩ ops = some s →
        (∀ order ≤ s.pool.mMaxOrder,
          (∃ r, alloc s.pool order = .ok r) ↔
            ∃ u, 2 ^ order ∣ u ∧ u + 2 ^ order ≤ s.pool.mUnitCount ∧
              ∀ x, u ≤ x → x < u + 2 ^ order → ∀ b ∈ s.live,
                ¬ (b.unit ≤ x ∧ x < b.unit + 2 ^ b.order)) ∧
        (s.live = [] → ∀ b, b ∈ freeChunks s.pool ↔ b ∈ freeChunks p₀) := by
  obtain ⟨p₀, hstart, hn, hs₀, hall⟩ :=
    reachable_sound numaId hbase hsize hcount header node
  refine ⟨p₀, hstart, ?_⟩
  intro ops s hrun
  obtain ⟨hs, hsame⟩ := hall ops s hrun
  have hn' := hsame.unitCount.trans hn
  have hdiv := Nat.div_le_self size (baseBlockSize + sizeofBlockHeader)
  refine ⟨?_, ?_⟩
  · intro order hle
    refine hs.alloc_iff hle (hle.trans (hs.maxOrder_le ?_))
    omega
  · intro hnil b
    have hcov : ∀ x, Covers (IsFree s.pool) x ↔ Covers (IsFree p₀) x := by
      intro x
      rw [hs.covers_iff x, hs₀.covers_iff x, hnil, hsame.unitCount]
    rw [mem_freeChunks, mem_freeChunks, hsame.unitCount]
    refine and_congr_right fun _ => ⟨?_, ?_⟩
    · exact maximal_unique hs.maximal hs₀.maximal hcov b
    · exact maximal_unique hs₀.maximal hs.maximal
        (fun x => (hcov x).symm) b

/-- Everything is freed again, in another order. -/
def returnOps : List Op :=
  raggedOps ++ [.freeBatch 0 [12, 10], .free 0, .free 8]

theorem reachable_pool_complete_returned :
    (sizeofBuddyBlockNode ≤ 24 ∧ 520 < 2 ^ 64 ∧
      1 ≤ 520 / (24 + sizeofBlockHeader)) ∧
    ∃ p₀ s, start 3 520 24 noHeaders noNodes = .ok p₀ ∧
      runFrom step ⟨p₀, []⟩ returnOps = some s ∧ s.live = [] ∧
      freeChunks p₀ = [⟨0, 3⟩, ⟨8, 2⟩, ⟨12, 0⟩] ∧
      ∀ b, b ∈ freeChunks s.pool ↔ b ∈ freeChunks p₀ := by
  obtain ⟨p₀, hstart, hall⟩ := reachable_pool_complete 3 520 24 (by decide)
    (by decide) (by decide) noHeaders noNodes
  have hfirst : (start 3 520 24 noHeaders noNodes).toOption.any
      (fun p => freeChunks p = [⟨0, 3⟩, ⟨8, 2⟩, ⟨12, 0⟩]) = true := by
    decide +kernel
  have hrun : ((start 3 520 24 noHeaders noNodes).toOption.bind fun p =>
      runFrom step ⟨p, []⟩ returnOps).any (fun s => s.live = []) = true := by
    decide +kernel
  rw [hstart] at hfirst hrun
  obtain ⟨s, hs, hlive⟩ := (Option.any_eq_true _ _).mp hrun
  have hnil := of_decide_eq_true hlive
  exact ⟨by decide, p₀, s, hstart, hs, hnil, of_decide_eq_true hfirst,
    (hall _ s hs).2 hnil⟩

end UbsIo.Buddy
