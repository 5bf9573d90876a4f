import UbsIo.Lib.Run
import UbsIo.Allocator.Answers

/-! # Allocations that fail

    The run of one thread, from `Initialize` on.  An allocation of an admitted
    size fails only when no pool has room for it beside the blocks the program
    holds, unless it is a preferred allocation of a large order: that one asks
    the pools once and does not flush the thread's cache, as
    `BuddyAllocDirect` does. -/

namespace UbsIo.Allocator

open UbsIo.Lib
open UbsIo.Buddy hiding Sys Op Allowed step storeAt BResult

/-! ## Initialize -/

theorem startLoop_same : ∀ (fuel : Nat) (p : BuddyNumaMemoryPool)
    (unitIndex remainUnits : Nat) {p' : BuddyNumaMemoryPool},
    startLoop fuel p unitIndex remainUnits = some p' → Same p p' := by
  intro fuel
  induction fuel with
  | zero =>
      intro p unitIndex remainUnits p' h
      cases h
  | succ fuel ih =>
      intro p unitIndex remainUnits p' h
      rw [startLoop] at h
      split at h
      · exact (same_addFreeChunk p _ _).trans (ih _ _ _ h)
      · cases h
        exact Same.refl p

variable {header : Nat → BlockHeader} {node : Links Nat}

/-- A pool that starts is sound. -/
theorem start_sound {numaId size base : Nat} {p : BuddyNumaMemoryPool}
    (hsize : size < 2 ^ 64) (h : start numaId size base header node = .ok p) :
    Sound ⟨p, []⟩ ∧ p.mNumaId = numaId ∧ p.mUnitCount < 2 ^ 64 := by
  have hdiv := Nat.div_le_self size (base + sizeofBlockHeader)
  have hok : sizeofBuddyBlockNode ≤ base ∧
      1 ≤ size / (base + sizeofBlockHeader) ∧ p.mNumaId = numaId := by
    rw [start] at h
    split at h
    · cases h
    rename_i hbase
    dsimp only at h
    split at h
    · cases h
    rename_i hcount
    split at h
    · rename_i q hq
      cases h
      exact ⟨by omega, Nat.one_le_iff_ne_zero.mpr hcount,
        (startLoop_same _ _ _ _ hq).numaId⟩
    · cases h
  obtain ⟨hbase, hcount, hid⟩ := hok
  obtain ⟨q, ls, hq, hn, hinv, hmin, hmax⟩ :=
    start_spec numaId hbase hsize hcount header node
  rw [h] at hq
  cases hq
  exact ⟨⟨⟨ls, hinv⟩, hmin, hmax, fun b hb => absurd hb List.not_mem_nil⟩,
    hid, by omega⟩

/-- Every pool is as it was started. -/
def Ready (m : BuddyNumaPoolManager) : Prop :=
  ∀ n p, m.mNumaPools n = some p →
    Sound ⟨p, []⟩ ∧ p.mNumaId = n ∧ p.mUnitCount < 2 ^ 64

theorem creatNumaMemPool_spec {m m' : BuddyNumaPoolManager}
    {numaId size base : Nat} (h : Ready m) (hsize : size < 2 ^ 64)
    (hok : creatNumaMemPool m numaId size base header node = .ok m') :
    Ready m' ∧ m.mNumaPools numaId = none ∧
      ∀ n, m'.mNumaPools n ≠ none ↔ m.mNumaPools n ≠ none ∨ n = numaId := by
  rw [creatNumaMemPool] at hok
  split at hok
  · cases hok
  rename_i hnone
  split at hok
  · cases hok
  rename_i p hstart
  cases hok
  refine ⟨?_, hnone, ?_⟩
  · intro n q hq
    change Function.update m.mNumaPools numaId (some p) n = some q at hq
    rw [Function.update_apply] at hq
    split at hq
    · rename_i hn
      cases hq
      rw [hn]
      exact start_sound hsize hstart
    · exact h n q hq
  · intro n
    show Function.update m.mNumaPools numaId (some p) n ≠ none ↔ _
    rw [Function.update_apply]
    split
    · rename_i hn
      exact iff_of_true (Option.some_ne_none p) (Or.inr hn)
    · rename_i hn
      simp [hn]

/-- The loop refuses an area that is listed twice. -/
theorem initPoolsLoop_spec {base : Nat} {header : Nat → Nat → BlockHeader}
    {node : Nat → Links Nat} : ∀ (numas : List (Nat × Nat))
    (m m' : BuddyNumaPoolManager), Ready m → (∀ x ∈ numas, x.2 < 2 ^ 64) →
    initPoolsLoop base header node numas m = .ok m' →
    Ready m' ∧ (numas.map (·.1)).Nodup ∧
      (∀ n ∈ numas.map (·.1), m.mNumaPools n = none) ∧
      ∀ n, m'.mNumaPools n ≠ none ↔
        m.mNumaPools n ≠ none ∨ n ∈ numas.map (·.1) := by
  intro numas
  induction numas with
  | nil =>
      intro m m' h _ hok
      cases hok
      exact ⟨h, List.nodup_nil, fun n hn => absurd hn List.not_mem_nil,
        fun n => by simp⟩
  | cons x numas ih =>
      intro m m' h hsizes hok
      obtain ⟨numaId, size⟩ := x
      rw [initPoolsLoop] at hok
      split at hok
      · rename_i m₁ hcreate
        obtain ⟨hready, hnone, hpools⟩ := creatNumaMemPool_spec h
          (hsizes _ (List.mem_cons_self ..)) hcreate
        obtain ⟨hready', hnodup, hout, hpools'⟩ := ih m₁ m' hready
          (fun y hy => hsizes y (List.mem_cons_of_mem _ hy)) hok
        -- an area of the rest has no pool yet, this one has
        have hnot : ∀ n ∈ numas.map (·.1),
            ¬ (m.mNumaPools n ≠ none ∨ n = numaId) := by
          intro n hn hpool
          exact (hpools n).mpr hpool (hout n hn)
        refine ⟨hready', ?_, ?_, ?_⟩
        · rw [List.map_cons]
          refine List.nodup_cons.mpr ⟨?_, hnodup⟩
          exact fun hmem => hnot _ hmem (Or.inr rfl)
        · intro n hn
          rcases List.mem_cons.mp hn with rfl | hn
          · exact hnone
          · by_contra hpool
            exact hnot n hn (Or.inl hpool)
        · intro n
          rw [hpools' n, hpools n, List.map_cons, List.mem_cons, or_assoc]
      · cases hok

theorem orderUnitsLoop_le (unitCount : Nat) : ∀ (fuel orderUnits : Nat),
    orderUnits ≤ unitCount →
    orderUnitsLoop unitCount fuel orderUnits ≤ unitCount := by
  intro fuel
  induction fuel with
  | zero => exact fun orderUnits h => h
  | succ fuel ih =>
      intro orderUnits h
      rw [orderUnitsLoop]
      split
      · rename_i hgrow
        exact ih _ hgrow.2
      · exact h

/-- An admitted size and a header fit into 64 bits. -/
theorem maxAllocSizeLoop_le (unitSize : Nat) :
    ∀ (numas : List (Nat × Nat)) (maxSize : Nat),
      (∀ x ∈ numas, x.2 < 2 ^ 64) →
      maxSize + sizeofBlockHeader ≤ uint64Max →
      maxAllocSizeLoop unitSize numas maxSize + sizeofBlockHeader ≤
        uint64Max := by
  intro numas
  induction numas with
  | nil => exact fun maxSize _ h => h
  | cons x numas ih =>
      intro maxSize hsizes h
      obtain ⟨numaId, size⟩ := x
      have hrest := fun y hy => hsizes y (List.mem_cons_of_mem _ hy)
      rw [maxAllocSizeLoop]
      by_cases hzero : size / unitSize = 0
      · rw [if_pos hzero]
        exact ih maxSize hrest h
      · rw [if_neg hzero]
        refine ih _ hrest ?_
        have hle := orderUnitsLoop_le (size / unitSize) 64 1
          (Nat.one_le_iff_ne_zero.mpr hzero)
        have hmul := Nat.mul_le_mul_left unitSize hle
        have hsize : unitSize * (size / unitSize) ≤ size :=
          Nat.mul_div_le size unitSize
        have hbits : size < 2 ^ 64 := hsizes _ (List.mem_cons_self ..)
        have hmax : uint64Max = 2 ^ 64 - 1 := rfl
        have hhead : sizeofBlockHeader = 16 := rfl
        omega

/-- What the configuration and the map have to be like: the areas are places
    of the arrays, the sizes are `uint64_t`, and the map visits every pool
    once. -/
structure Admitted (options : MemAllocOptions) (order : List Nat) : Prop where
  small : ∀ x ∈ options.numas, x.1 < maxNumasNum
  sizes : ∀ x ∈ options.numas, x.2 < 2 ^ 64
  order : order.Perm (options.numas.map (·.1))

variable {options : MemAllocOptions} {header : Nat → Nat → BlockHeader}
  {node : Nat → Links Nat} {order : List Nat} {cpuNumaNode : Nat}
  {a : MmsMemAllocator} {count : Nat → Option Nat} {s s' : Sys} {op : Op}

/-- **INITIALIZE** ends in a state with the invariant. -/
theorem initializeBuddy_spec (h : Admitted options order)
    (hok : initializeBuddy options header node order cpuNumaNode = .ok a) :
    ∃ count, Kept count a [] := by
  rw [initializeBuddy] at hok
  split at hok
  · cases hok
  rename_i baseBlockSize rest _
  dsimp only at hok
  split at hok
  · cases hok
  split at hok
  · cases hok
  rename_i m hinit
  cases hok
  obtain ⟨hready, hnodup, -, hpools⟩ := initPoolsLoop_spec options.numas _ m
    (fun n p hp => by cases hp) h.sizes hinit
  have hmem : ∀ n, n ∈ options.numas.map (·.1) ↔ m.mNumaPools n ≠ none := by
    intro n
    rw [hpools n]
    simp
  have hcount : ∀ n, (m.mNumaPools n).map (·.mUnitCount) ≠ none ↔
      m.mNumaPools n ≠ none := by
    intro n
    rw [ne_eq, Option.map_eq_none_iff]
  have hempty : ∀ numaId, cached (newThreadCache numaId) = [] := by
    intro numaId
    exact List.flatMap_eq_nil_iff.mpr fun place _ => rfl
  have hnew : Kept (fun n => (m.mNumaPools n).map (·.mUnitCount))
      { mNumaId := options.numas.map (·.1)
        mNumaIndex := 0
        mBuddyUnitSize := baseBlockSize + sizeofBlockHeader
        mBuddyMaxAllocSize := maxAllocSizeLoop
          (baseBlockSize + sizeofBlockHeader) options.numas 0
        mBuddyNumaPool := { m with order := order }
        threadCache := newThreadCache 0 } [] := by
    refine ⟨⟨fun n => rfl, ?_, ?_, ?_, ?_⟩, ?_, hnodup, ?_, ?_, ?_, ?_⟩
    · intro n k hk
      obtain ⟨p, hp, rfl⟩ := Option.map_eq_some_iff.mp hk
      exact (hready n p hp).2.2
    · intro n
      rw [hcount n, ← hmem n]
      exact h.order.mem_iff
    · intro n p hp
      obtain ⟨hs, hid, -⟩ := hready n p hp
      refine ⟨?_, hid⟩
      show Sound ⟨p, blocksOf n ([] ++ cached (newThreadCache 0))⟩
      rw [hempty]
      exact hs
    · intro d hd
      change d ∈ [] ++ cached (newThreadCache 0) at hd
      rw [hempty] at hd
      exact absurd hd List.not_mem_nil
    · intro place hp
      exact absurd rfl hp
    · intro n
      rw [hcount n]
      exact hmem n
    · intro n hn
      obtain ⟨x, hx, rfl⟩ := List.mem_map.mp ((hmem n).mpr ((hcount n).mp hn))
      exact h.small x hx
    · exact Nat.succ_ne_zero _
    · exact maxAllocSizeLoop_le _ _ 0 h.sizes (by decide)
  have hkept := hnew.updateNumaId cpuNumaNode
  refine ⟨_, hkept.withCache ?_⟩
  rw [(updateNumaId_pool _ cpuNumaNode 0).2.1]
  rfl

/-! ## Runs -/

/-- Different held blocks have different addresses. -/
theorem PoolsSound.nodup {m : BuddyNumaPoolManager} {held : List Held}
    (h : PoolsSound count m held) : (held.map (·.addr)).Nodup := by
  rw [List.nodup_iff_sublist]
  intro b hb
  obtain ⟨two, hsub, htwo⟩ := List.sublist_map_iff.mp hb
  -- the two would be blocks of one area that start at one unit
  have hmem : b ∈ held.map (·.addr) := hb.subset (List.mem_cons_self ..)
  obtain ⟨d, hd, rfl⟩ := List.mem_map.mp hmem
  obtain ⟨p, hp⟩ := h.pool (h.area d hd)
  obtain ⟨hs, -⟩ := h.sound _ p hp
  have hblocks : ((blocksOf d.addr.area two).map (·.unit)).Sublist
      ((blocksOf d.addr.area held).map (·.unit)) :=
    ((hsub.filter _).map _).map _
  have hnodup := hs.nodup.sublist hblocks
  have hall : ∀ c ∈ two, c.addr = d.addr := by
    intro c hc
    have hin : c.addr ∈ two.map (·.addr) := List.mem_map_of_mem hc
    rw [← htwo] at hin
    simpa using hin
  have hkeep : two.filter (fun c => c.addr.area == d.addr.area) = two := by
    rw [List.filter_eq_self]
    intro c hc
    rw [hall c hc]
    exact beq_self_eq_true _
  rw [blocksOf, hkeep] at hnodup
  have hlen : two.length = 2 := by
    have := congrArg List.length htwo
    simpa using this.symm
  obtain ⟨c, e, rfl⟩ := List.length_eq_two.mp hlen
  have hc := hall c (by simp)
  have he := hall e (by simp)
  simp [Held.block, hc, he] at hnodup

/-- **STEP**: a call or a store keeps the invariant. -/
theorem kept_step (h : Kept count s.mem s.live) (hs : step s op = some s') :
    Kept count s'.mem s'.live := by
  have hallowed : Allowed s op := by
    by_contra hno
    rw [step.eq_def, if_neg hno] at hs
    cases hs
  rw [step.eq_def, if_pos hallowed] at hs
  have hgiven : ∀ (size : Nat)
      (r : MmsMemAllocator × Except BResult (Nat × Addr)),
      Served count s.live (orderFor s.mem size) r ∨ Refused count s.live r →
      Kept count (given s size r).mem (given s size r).live := by
    rintro size r (⟨b, hb, hkept⟩ | ⟨e, he, hkept⟩)
    · rw [given, hb]
      exact hkept
    · rw [given, he]
      exact hkept
  cases op with
  | alloc size =>
      cases hs
      refine hgiven size _ ?_
      by_cases hsize : size ≤ s.mem.mBuddyMaxAllocSize
      · exact (mmsAlloc_spec h hsize).imp_right And.left
      · right
        rw [mmsAlloc, getBuddyAllocOrder, if_pos (by omega)]
        exact ⟨_, rfl, h⟩
  | allocPreferNuma size preferNumaId =>
      cases hs
      refine hgiven size _ ?_
      by_cases hsize : size ≤ s.mem.mBuddyMaxAllocSize
      · rcases mmsAllocPreferNuma_spec h hsize preferNumaId with
          ⟨-, hsmall⟩ | ⟨-, hlarge⟩
        · exact hsmall.imp_right And.left
        · exact hlarge.imp And.left And.left
      · right
        rw [mmsAllocPreferNuma, buddyAllocPreferNuma, getBuddyAllocOrder, if_pos (by
          rw [(updateNumaId_pool s.mem preferNumaId size).2.2.2]
          omega)]
        exact ⟨_, rfl, h.updateNumaId preferNumaId⟩
  | free b =>
      cases hs
      obtain ⟨d, hd, rfl⟩ := List.mem_map.mp hallowed
      have hperm := List.perm_cons_erase hd
      have hfirst : Kept count s.mem (⟨d.addr, d.order⟩ :: s.live.erase d) :=
        h.perm hperm.symm
      obtain ⟨hok, hkept⟩ := mmsFree_spec hfirst
      have hnodup := h.pools.nodup
      rw [List.map_append] at hnodup
      have haddrs := (hperm.map (·.addr)).nodup_iff.mp
        (List.nodup_append.mp hnodup).1
      -- no other block of the program has the address
      have hrest : (s.live.filter (·.addr != d.addr)).Perm (s.live.erase d) := by
        refine (hperm.filter _).trans (.of_eq ?_)
        rw [List.filter_cons_of_neg (by simp), List.filter_eq_self]
        intro c hc
        rw [bne_iff_ne]
        intro heq
        refine (List.nodup_cons.mp haddrs).1 ?_
        show d.addr ∈ _
        rw [← heq]
        exact List.mem_map_of_mem (f := (·.addr)) hc
      dsimp only
      rw [if_pos hok]
      exact hkept.perm hrest
  | store area unit prev next header =>
      cases hs
      obtain ⟨d, hd, hunit⟩ := hallowed
      rw [storeAt]
      split
      · exact h
      · rename_i p hp
        obtain ⟨hsound, -⟩ := h.pools.sound area p hp
        have hstore := sound_store hsound prev next header
          ⟨d, by
            rw [blocksOf_append]
            exact List.mem_append_left _ hd, hunit⟩
        exact h.change (h.pools.set hp hstore ⟨rfl, rfl, rfl⟩
          (fun _ _ => rfl) h.pools.area) h.places

/-! ## Failures -/

/-- An allocation of an admitted size fails only when no pool has an aligned
    range of the required order beside the blocks the program holds: cached
    blocks count as free. -/
def OnlyWhenExhausted (s : Sys) : Op → Prop
  | .alloc size => size ≤ s.mem.mBuddyMaxAllocSize →
      (∃ e, (mmsAlloc s.mem size).2 = .error e) →
        ¬ Room s.mem.mBuddyNumaPool s.live (orderFor s.mem size)
  | .allocPreferNuma size preferNumaId => size ≤ s.mem.mBuddyMaxAllocSize →
      (∃ e, (mmsAllocPreferNuma s.mem size preferNumaId).2 = .error e) →
        ¬ Room s.mem.mBuddyNumaPool s.live (orderFor s.mem size)
  | .free _ => True
  | .store _ _ _ _ _ => True

/-- A preferred allocation of a large order is made only while the room for
    it, if there is any, does not lie in cached blocks alone. -/
def CacheNotNeeded (s : Sys) : Op → Prop
  | .allocPreferNuma size _ => size ≤ s.mem.mBuddyMaxAllocSize →
      buddyThreadCacheMaxOrder < orderFor s.mem size →
        Room s.mem.mBuddyNumaPool s.live (orderFor s.mem size) →
          Room s.mem.mBuddyNumaPool (heldBlocks s) (orderFor s.mem size)
  | .alloc _ => True
  | .free _ => True
  | .store _ _ _ _ _ => True

/-- **ONE CALL** fails only when memory is exhausted, exactly when it does not
    need cached blocks. -/
theorem onlyWhenExhausted_iff (h : Kept count s.mem s.live) :
    OnlyWhenExhausted s op ↔ CacheNotNeeded s op := by
  cases op with
  | alloc size =>
      refine iff_of_true ?_ trivial
      rintro hsize ⟨e, he⟩
      rcases mmsAlloc_spec h hsize with hserved | ⟨-, hno⟩
      · exact absurd he (hserved.not_error e)
      · exact hno
  | allocPreferNuma size preferNumaId =>
      refine forall_congr' fun hsize => ?_
      rcases mmsAllocPreferNuma_spec h hsize preferNumaId with
        ⟨hsmall, hcases⟩ | ⟨hlarge, hcases⟩
      · refine iff_of_true ?_ fun hlarge => absurd hsmall (by omega)
        rintro ⟨e, he⟩
        rcases hcases with hserved | ⟨-, hno⟩
        · exact absurd he (hserved.not_error e)
        · exact hno
      · rcases hcases with ⟨hserved, hroom⟩ | ⟨⟨e, he, -⟩, hno⟩
        · refine iff_of_true ?_ fun _ _ => hroom
          rintro ⟨e, he⟩
          exact absurd he (hserved.not_error e)
        · constructor
          · intro hex _ hroom
            exact absurd hroom (hex ⟨e, he⟩)
          · intro hneed _ hroom
            exact hno (hneed hlarge hroom)
  | free b => exact Iff.rfl
  | store area unit prev next header => exact Iff.rfl

/-- **EXHAUSTION**: in a run from `Initialize`, every allocation of an admitted
    size that fails finds memory exhausted, exactly when no preferred
    allocation of a large order is made while the room for it lies in cached
    blocks. -/
theorem failures_exhausted_iff (options : MemAllocOptions)
    (header : Nat → Nat → BlockHeader) (node : Nat → Links Nat)
    (order : List Nat) (cpuNumaNode : Nat) (a : MmsMemAllocator)
    (h : Admitted options order)
    (hok : initializeBuddy options header node order cpuNumaNode = .ok a)
    (ops : List Op) :
    Along step OnlyWhenExhausted ⟨a, []⟩ ops ↔
      Along step CacheNotNeeded ⟨a, []⟩ ops := by
  obtain ⟨count, hkept⟩ := initializeBuddy_spec h hok
  have hstep : ∀ (s : Sys) (op : Op) (s' : Sys), Kept count s.mem s.live →
      step s op = some s' → Kept count s'.mem s'.live :=
    fun s op s' hs hstep => kept_step hs hstep
  constructor
  · exact along_of_invariant (I := fun s => Kept count s.mem s.live) hstep
      (fun s op hs hex => (onlyWhenExhausted_iff hs).mp hex) ops _ hkept
  · exact along_of_invariant (I := fun s => Kept count s.mem s.live) hstep
      (fun s op hs hex => (onlyWhenExhausted_iff hs).mpr hex) ops _ hkept

/-- One area of 32 units of 32 bytes. -/
def oneArea : MemAllocOptions := ⟨[(0, 1024)], [16]⟩

def bootOneArea : Except BResult MmsMemAllocator :=
  initializeBuddy oneArea (fun _ => noHeaders) (fun _ => noNodes) [0] 0

/-- A block of one unit is allocated and freed: all units are cached then. -/
def cachedOps : List Op := [.alloc 1, .free ⟨0, 31⟩]

/-- After them a preferred allocation of the whole area fails, an `MmsAlloc`
    of it does not. -/
theorem preferred_not_flushed :
    ∃ a s, Admitted oneArea [0] ∧ bootOneArea = .ok a ∧
      runFrom step ⟨a, []⟩ cachedOps = some s ∧ s.live = [] ∧
      1008 ≤ s.mem.mBuddyMaxAllocSize ∧
      (mmsAllocPreferNuma s.mem 1008 0).2 = .error .allocFail ∧
      Room s.mem.mBuddyNumaPool s.live (orderFor s.mem 1008) ∧
      (mmsAlloc s.mem 1008).2 = .ok (0, ⟨0, 0⟩) ∧
      ¬ Along step OnlyWhenExhausted ⟨a, []⟩
        (cachedOps ++ [.allocPreferNuma 1008 0]) := by
  have hrun : (bootOneArea.toOption.bind fun a =>
      runFrom step ⟨a, []⟩ cachedOps).any (fun s => s.live = [] ∧
        1008 ≤ s.mem.mBuddyMaxAllocSize ∧ orderFor s.mem 1008 = 5 ∧
        (s.mem.mBuddyNumaPool.mNumaPools 0).map (·.mUnitCount) = some 32 ∧
        (mmsAllocPreferNuma s.mem 1008 0).2 = .error .allocFail ∧
        (mmsAlloc s.mem 1008).2 = .ok (0, ⟨0, 0⟩)) = true := by
    decide +kernel
  have hadmitted : Admitted oneArea [0] :=
    ⟨by decide, by decide, by decide⟩
  cases hboot : bootOneArea with
  | error e =>
      rw [hboot] at hrun
      cases hrun
  | ok a =>
      rw [hboot] at hrun
      obtain ⟨s, hs, hall⟩ := (Option.any_eq_true _ _).mp hrun
      obtain ⟨hlive, hmax, horder, hcount, hfail, hserved⟩ :=
        of_decide_eq_true hall
      have hroom : Room s.mem.mBuddyNumaPool s.live (orderFor s.mem 1008) := by
        obtain ⟨p, hp, hunits⟩ := Option.map_eq_some_iff.mp hcount
        refine ⟨0, p, hp, 0, dvd_zero _, ?_, ?_⟩
        · rw [horder, hunits]
          decide
        · intro x _ _ b hb
          rw [hlive] at hb
          exact absurd hb List.not_mem_nil
      refine ⟨a, s, hadmitted, rfl, hs, hlive, hmax, hfail, hroom, hserved, ?_⟩
      intro halong
      have hlast := (along_append.mp halong).2 s hs
      exact hlast.1 hmax ⟨_, hfail⟩ hroom

/-- Two areas; the map visits the second one first. -/
def twoAreas : MemAllocOptions := ⟨[(1, 1024), (3, 4096)], [16]⟩

theorem failures_exhausted_iff_two_areas :
    Admitted twoAreas [3, 1] ∧
    ∃ a, initializeBuddy twoAreas (fun _ => noHeaders) (fun _ => noNodes)
        [3, 1] 1 = .ok a ∧
      ∀ ops, Along step OnlyWhenExhausted ⟨a, []⟩ ops ↔
        Along step CacheNotNeeded ⟨a, []⟩ ops := by
  have hadmitted : Admitted twoAreas [3, 1] :=
    ⟨by decide, by decide, by decide⟩
  have hboot : (initializeBuddy twoAreas (fun _ => noHeaders)
      (fun _ => noNodes) [3, 1] 1).toOption.isSome = true := by
    decide +kernel
  cases ha : initializeBuddy twoAreas (fun _ => noHeaders) (fun _ => noNodes)
    [3, 1] 1 with
  | error e =>
      rw [ha] at hboot
      cases hboot
  | ok a =>
      exact ⟨hadmitted, a, rfl, fun ops =>
        failures_exhausted_iff twoAreas _ _ [3, 1] 1 a hadmitted ha ops⟩

end UbsIo.Allocator
