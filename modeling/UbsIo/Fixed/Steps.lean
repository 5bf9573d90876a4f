import UbsIo.Fixed.Kept

/-! # Every step keeps every block

    `Advanced` lists what a call can do when it goes on, with the invariant
    inside the step (`advance_cases`); from it and one lemma for the beginning
    of each call follows `kept_step`, and from that, for every run,
    `fixed_conserves`. -/

namespace UbsIo.Fixed

open UbsIo.Lib

variable {options : MemAllocOptions} {order : List Nat} {s s' : Sys}
  {t n i b size prefer : Nat} {a : MmsMemAllocator}
  {free : Nat × Nat → List Nat}
  {bs hand held rest : List Nat} {c c' : ThreadCache}
  {pc : Pc} {th : Thread} {next : After} {e : Event}

/-- The invariant inside a step, whatever the others have. -/
def InStep (options : MemAllocOptions) (order : List Nat) (s : Sys) (t : Nat)
    (c : ThreadCache) (hand : List Nat) : Prop :=
  ∃ free rest, Running options order s t c hand free rest

/-- The list of a pool is empty. -/
def Empty (s : Sys) (n i : Nat) : Prop :=
  ((s.mem.mNumaPool.mNumaPools n).bind fun pool => pool i) = none

/-- The call waits for a pool to allocate from. -/
def Allocates (pc : Pc) (call : Call) (i prefer : Nat) : Prop :=
  pc = .first call i prefer ∨ ∃ numas, pc = .other call i prefer numas

/-- What a call can do when it goes on. -/
inductive Advanced (options : MemAllocOptions) (order : List Nat) (s : Sys)
    (t : Nat) (c : ThreadCache) : Pc → Sys → Prop where
  /-- A block of a pool or of the cache is handed out. -/
  | given (call : Call) {pc : Pc} {i prefer n b : Nat} {c' : ThreadCache}
      {a : MmsMemAllocator} (hpc : Allocates pc call i prefer)
      (hrun : InStep options order { s with mem := a } t c' [b])
      (hb : Home options (n, i) b) (hfit : Fits options i call.size) :
      Advanced options order s t c pc
        (Sys.give { s with mem := a } t c' b call.size)
  /-- The preferred pool has nothing, and the cache neither. -/
  | missed {call : Call} {i prefer : Nat} {a : MmsMemAllocator}
      (hempty : Empty s prefer i) (hnone : NoneOf c i)
      (hrun : InStep options order { s with mem := a } t c [])
      (hfit : Fits options i call.size) :
      Advanced options order s t c (.first call i prefer)
        (Sys.set { s with mem := a } t ⟨c, .other call i prefer order, none⟩)
  /-- Another pool has nothing, or it is the one that was looked at first. -/
  | passed {call : Call} {i prefer n : Nat} {numas : List Nat}
      {a : MmsMemAllocator} (hempty : n = prefer ∨ Empty s n i)
      (hnone : NoneOf c i)
      (hrun : InStep options order { s with mem := a } t c [])
      (hfit : Fits options i call.size) :
      Advanced options order s t c (.other call i prefer (n :: numas))
        (Sys.set { s with mem := a } t ⟨c, .other call i prefer numas, none⟩)
  /-- No pool is left to look at. -/
  | exhausted {call : Call} {i prefer : Nat} (hnone : NoneOf c i)
      (hrun : InStep options order s t c []) :
      Advanced options order s t c (.other call i prefer [])
        (s.fail t c .allocFail)
  /-- `MmsFree` ends. -/
  | freed {i b : Nat} {groups : List (Nat × List Nat)} {c' : ThreadCache}
      {a : MmsMemAllocator}
      (hrun : InStep options order { s with mem := a } t c' []) :
      Advanced options order s t c (.back i groups (.free i b))
        (Sys.set { s with mem := a } t ⟨c', .idle, some .done⟩)
  /-- A list of the cache is back in its pool. -/
  | flushed {i : Nat} {groups : List (Nat × List Nat)}
      {places : List (Nat × Nat)} {a : MmsMemAllocator}
      (hrun : InStep options order { s with mem := a } t c [])
      (hleft : LeftIn c places) :
      Advanced options order s t c (.back i groups (.leave places))
        (Sys.set { s with mem := a } t ⟨c, .leaving places, none⟩)
  /-- A list of the cache is empty. -/
  | visited {p : Nat × Nat} {places : List (Nat × Nat)}
      (hrun : InStep options order s t c []) (hleft : LeftIn c places) :
      Advanced options order s t c (.leaving (p :: places))
        (s.set t ⟨c, .leaving places, none⟩)
  /-- A list of the cache is not empty. -/
  | flushing {n i : Nat} {places : List (Nat × Nat)} {bs : List Nat}
      {c' : ThreadCache} (hrun : InStep options order s t c' bs)
      (hpc : PcGood options c' (.back i [(n, bs)] (.leave places))) :
      Advanced options order s t c (.leaving ((n, i) :: places))
        (s.set t ⟨c', .back i [(n, bs)] (.leave places), none⟩)
  /-- The thread is gone. -/
  | ended (hrun : InStep options order s t c []) (hleft : LeftIn c []) :
      Advanced options order s t c (.leaving [])
        { s with threads := Function.update s.threads t none }

/-! ## Giving blocks back -/

/-- A batch of one list is one group, which waits to be pushed. -/
theorem Running.returnBatch_eq (hadm : Admitted options order)
    (h : Running options order s t c hand free rest) (hne : bs ≠ [])
    (hhome : ∀ b ∈ bs, Home options (n, i) b) :
    s.returnBatch t c i bs next =
      s.set t ⟨c, .back i [(n, bs)] next, none⟩ := by
  rw [Sys.returnBatch, numaBlocks_spec hadm h.pools hne hhome]
  rfl

/-- The block `MmsFree` has in its hands fits into its list now. -/
theorem Running.cacheFreed_eq (hadm : Admitted options order)
    (h : Running options order s t c [b] free rest)
    (hb : Home options (n, i) b)
    (hlen : (c.mMemCaches (n, i)).length < cacheLimitPerThread) :
    ∃ c', s.cacheFreed t c i b = s.set t ⟨c', .idle, some .done⟩ ∧
      Running options order s t c' [] free rest := by
  obtain ⟨c', hadd, hperm, hgood⟩ :=
    addOneBlockToCache_spec hadm h.pools h.cache hb hlen
  refine ⟨c', by rw [Sys.cacheFreed, hadd], h.withCache ?_ hgood⟩
  rw [List.append_nil]
  exact hperm.trans (List.perm_append_singleton b _).symm

/-! ## Getting blocks -/

/-- **FILL**: an allocation with a batch from a pool gives a block of it and
    keeps the others. -/
theorem Running.fill_eq (hadm : Admitted options order)
    (h : Running options order s t c (b :: bs) free rest)
    (hhome : ∀ d ∈ b :: bs, Home options (n, i) d)
    (hempty : c.mMemCaches (n, i) = []) (hlen : bs.length < cacheLimitPerThread)
    (call : Call) :
    ∃ c', s.fill t c i prefer b bs call = s.give t c' b call.size ∧
      Running options order s t c' [b] free rest := by
  have hb := hhome b List.mem_cons_self
  obtain ⟨c', hadd, hperm, hgood⟩ := addBatchBlocksToCache_spec hadm h.pools
    h.cache (fun d hd => hhome d (List.mem_cons_of_mem _ hd)) hempty hlen
  have hall : (cached c' ++ [b]).Perm (cached c ++ b :: bs) :=
    (List.perm_append_singleton b _).trans
      ((hperm.cons b).trans (@List.perm_append_comm _ (b :: bs) _))
  cases call with
  | alloc size =>
      have hrecorded := recordAllocNumaId_spec hgood prefer hb.area
      rw [← h.pools.numaId hb] at hrecorded
      refine ⟨_, ?_, (h.withCache hall hgood).withNuma hrecorded⟩
      rw [Sys.fill, hadd]
      rfl
  | allocPreferNuma size =>
      rw [Sys.fill]
      cases bs with
      | nil => exact ⟨c, rfl, h⟩
      | cons d bs =>
          refine ⟨c', ?_, h.withCache hall hgood⟩
          rw [if_neg (by simp), hadd]
          rfl

/-- A batch from a pool is its last block and the others. -/
theorem Running.split (h : Running options order s t c bs free rest)
    (hlast : bs.getLast? = some b) :
    Running options order s t c (b :: bs.dropLast) free rest := by
  refine h.withCache (List.Perm.append_left _ ?_) h.cache
  have hsplit := List.dropLast_append_getLast? b hlast
  exact (List.perm_append_singleton b _).symm.trans (.of_eq hsplit)

/-- What an allocation does with the batch of a pool. -/
theorem Running.fillBatch_eq (hadm : Admitted options order)
    (h : Running options order s t c bs free rest)
    (hhome : ∀ d ∈ bs, Home options (n, i) d)
    (hlen : bs.length ≤ fixedCacheBatchCount)
    (hempty : c.mMemCaches (n, i) = []) (hlast : bs.getLast? = some b)
    (call : Call) :
    ∃ c', s.fill t c i prefer b bs.dropLast call = s.give t c' b call.size ∧
      Running options order s t c' [b] free rest := by
  have hb : b ∈ bs := List.mem_of_getLast? hlast
  refine (h.split hlast).fill_eq hadm (fun d hd => ?_) hempty ?_ call
  · rcases List.mem_cons.mp hd with rfl | hd
    · exact hhome _ hb
    · exact hhome d (List.mem_of_mem_dropLast hd)
  · rw [fixedCacheBatchCount, cacheLimitPerThread] at hlen
    rw [List.length_dropLast, cacheLimitPerThread]
    omega

/-- A pool gives nothing only if its list is empty. -/
theorem getBatchBlocks_nil (h : (getBatchBlocks s.mem n i).2 = []) :
    Empty s n i := by
  rw [getBatchBlocks] at h
  rw [Empty]
  cases hpool : s.mem.mNumaPool.mNumaPools n with
  | none => rfl
  | some pool =>
      rw [hpool] at h
      replace h : (popMany s.mem.mem.next fixedCacheBatchCount
        (pool i)).1 = [] := h
      show pool i = none
      cases hhead : pool i with
      | none => rfl
      | some u =>
          rw [hhead] at h
          cases h

theorem PcGood.first {call : Call}
    (h : PcGood options c (.first call i prefer)) :
    Fits options i call.size ∧ c.mMemCaches (prefer, i) = [] := by
  cases call with
  | alloc size => exact ⟨h.2.1, h.2.2 prefer⟩
  | allocPreferNuma size => exact h.2

/-- A block of the cache goes to the caller. -/
theorem Running.popped (h : Running options order s t c [] free rest)
    (hperm : (cached c).Perm (b :: cached c')) (hgood : CacheGood options c') :
    Running options order s t c' [b] free rest := by
  refine h.withCache ?_ hgood
  rw [List.append_nil]
  exact (List.perm_append_singleton b _).trans hperm.symm

/-! ## A call goes on -/

/-- The first pool has nothing: `FixedAllocPreferNuma` looks into the rest of
    its cache before it looks into other pools. -/
theorem advanced_missFirst (hadm : Admitted options order)
    (h : Running options order { s with mem := a } t c [] free rest)
    {call : Call} (hempty : Empty s prefer i)
    (hpc : PcGood options c (.first call i prefer)) :
    Advanced options order s t c (.first call i prefer)
      (Sys.missFirst { s with mem := a } t c i prefer call) := by
  have horder : a.mNumaPool.order = order := h.pools.order
  cases call with
  | alloc size =>
      rw [Sys.missFirst, Sys.toOther, horder]
      exact .missed hempty hpc.2.2 ⟨_, _, h⟩ hpc.2.1
  | allocPreferNuma size =>
      rw [Sys.missFirst]
      cases hget : getOneBlockFromCache c i with
      | some r =>
          obtain ⟨hperm, hgood, n, hb⟩ :=
            getOneBlockFromCache_spec hadm h.cache hget
          exact .given (.allocPreferNuma size) (Or.inl rfl)
            ⟨_, _, h.popped hperm hgood⟩ hb hpc.2.1
      | none =>
          have hnone : NoneOf c i := getOneBlockFromCache_none hadm h.cache hget
          dsimp only
          rw [Sys.toOther, horder]
          exact .missed hempty hnone ⟨_, _, h⟩ hpc.2.1

/-- A thread asks the preferred pool. -/
theorem advanced_first (hadm : Admitted options order)
    (h : Running options order s t c [] free rest)
    (hpc : PcGood options c (.first call i prefer))
    (hs : s.advance t c (.first call i prefer) = some s') :
    Advanced options order s t c (.first call i prefer) s' := by
  obtain ⟨free', hpop, hhome, hlen⟩ := h.getBatchBlocks hadm prefer i
  rw [Sys.advance] at hs
  cases hlast : (getBatchBlocks s.mem prefer i).2.getLast? with
  | none =>
      have hnil := List.getLast?_eq_none_iff.mp hlast
      rw [hlast] at hs
      cases hs
      rw [hnil] at hpop
      exact advanced_missFirst hadm hpop (getBatchBlocks_nil hnil) hpc
  | some b =>
      rw [hlast] at hs
      cases hs
      obtain ⟨hfit, hempty⟩ := hpc.first
      obtain ⟨c', heq, hrun⟩ :=
        hpop.fillBatch_eq hadm hhome hlen hempty hlast call
      rw [heq]
      exact .given _ (Or.inl rfl) ⟨_, _, hrun⟩
        (hhome b (List.mem_of_getLast? hlast)) hfit

/-- A thread asks another pool. -/
theorem advanced_other {numas : List Nat} (hadm : Admitted options order)
    (h : Running options order s t c [] free rest)
    (hpc : PcGood options c (.other call i prefer numas))
    (hs : s.advance t c (.other call i prefer numas) = some s') :
    Advanced options order s t c (.other call i prefer numas) s' := by
  obtain ⟨hfit, hnone⟩ := hpc
  cases numas with
  | nil =>
      cases hs
      exact .exhausted hnone ⟨_, _, h⟩
  | cons m numas =>
      rw [Sys.advance] at hs
      split at hs
      · rename_i hm
        cases hs
        exact .passed (a := s.mem) (Or.inl hm) hnone ⟨_, _, h⟩ hfit
      obtain ⟨free', hpop, hhome, hlen⟩ := h.getBatchBlocks hadm m i
      cases hlast : (getBatchBlocks s.mem m i).2.getLast? with
      | none =>
          have hnil := List.getLast?_eq_none_iff.mp hlast
          simp only [hlast] at hs
          cases hs
          rw [hnil] at hpop
          exact .passed (Or.inr (getBatchBlocks_nil hnil)) hnone
            ⟨_, _, hpop⟩ hfit
      | some b =>
          simp only [hlast] at hs
          cases hs
          obtain ⟨c', heq, hrun⟩ :=
            hpop.fillBatch_eq hadm hhome hlen (hnone m) hlast call
          rw [heq]
          exact .given _ (Or.inr ⟨_, rfl⟩) ⟨_, _, hrun⟩
            (hhome b (List.mem_of_getLast? hlast)) hfit

/-- A thread has blocks for a pool. -/
theorem advanced_back {groups : List (Nat × List Nat)}
    (hadm : Admitted options order)
    (h : Running options order s t c (Pc.blocks (.back i groups next)) free
      rest)
    (hpc : PcGood options c (.back i groups next))
    (hs : s.advance t c (.back i groups next) = some s') :
    Advanced options order s t c (.back i groups next) s' := by
  obtain ⟨n, bs, rfl, hne, hhome, hnext⟩ := hpc
  have hblocks : Pc.blocks (.back i [(n, bs)] next) =
      bs ++ next.blocks := by
    rw [Pc.blocks, List.flatMap_singleton]
  rw [hblocks] at h
  obtain ⟨a, free', hadd, hpush⟩ := h.addBatchBlocksToPool hadm hne hhome
  rw [Sys.advance, hadd] at hs
  cases hs
  cases next with
  | free j b =>
      obtain ⟨rfl, hb, hlen⟩ := hnext
      obtain ⟨c', heq, hrun⟩ := hpush.cacheFreed_eq hadm hb hlen
      show Advanced options order s t c _ (Sys.cacheFreed _ t c j b)
      rw [heq]
      exact .freed ⟨_, _, hrun⟩
  | give b size => exact hnext.elim
  | leave places => exact .flushed ⟨_, _, hpush⟩ hnext

/-- A thread that ends looks at the next list of its cache. -/
theorem advanced_leaving {places : List (Nat × Nat)}
    (hadm : Admitted options order)
    (h : Running options order s t c [] free rest)
    (hpc : PcGood options c (.leaving places))
    (hs : s.advance t c (.leaving places) = some s') :
    Advanced options order s t c (.leaving places) s' := by
  cases places with
  | nil =>
      cases hs
      exact .ended ⟨_, _, h⟩ hpc
  | cons p places =>
      rw [Sys.advance] at hs
      split at hs
      · rename_i hempty
        cases hs
        refine .visited ⟨_, _, h⟩ fun q hq => ?_
        rcases List.mem_cons.mp (hpc q hq) with rfl | hmem
        · exact absurd (List.isEmpty_iff.mp hempty) hq
        · exact hmem
      · rename_i hempty
        cases hs
        have hne : c.mMemCaches p ≠ [] := fun hnil => by
          rw [hnil] at hempty
          exact hempty rfl
        obtain ⟨b, hb⟩ := List.exists_mem_of_ne_nil _ hne
        obtain ⟨rest', hold, hnew⟩ := cached_setCache
          ((h.cache.homes p b hb).place hadm) c
        have hsplit : (cached (setCache c p []) ++
            c.mMemCaches p).Perm (cached c ++ []) := by
          rw [List.append_nil]
          refine ((hnew []).append_right _).trans (.trans ?_ hold.symm)
          exact List.perm_append_comm
        have hrun := h.withCache hsplit
          (h.cache.set (List.forall_mem_nil _) (Nat.zero_le _))
        rw [hrun.returnBatch_eq hadm hne (h.cache.homes p)]
        refine .flushing ⟨_, _, hrun⟩
          ⟨_, _, rfl, hne, h.cache.homes p, fun q hq => ?_⟩
        by_cases hqp : q = p
        · rw [hqp, setCache_self] at hq
          exact absurd rfl hq
        · rw [setCache_of_ne hqp] at hq
          exact (List.mem_cons.mp (hpc q hq)).resolve_left hqp

/-- **ADVANCE**: what a call does is one of the listed things. -/
theorem advance_cases (hadm : Admitted options order)
    (h : Running options order s t c pc.blocks free rest)
    (hpc : PcGood options c pc) (hs : s.advance t c pc = some s') :
    Advanced options order s t c pc s' := by
  cases pc with
  | idle => cases hs
  | first call i prefer => exact advanced_first hadm h hpc hs
  | other call i prefer numas => exact advanced_other hadm h hpc hs
  | back i groups next => exact advanced_back hadm h hpc hs
  | leaving places => exact advanced_leaving hadm h hpc hs

theorem kept_advance (h : Advanced options order s t c pc s') :
    Kept options order s' := by
  cases h with
  | given call hpc hrun hb hfit =>
      obtain ⟨free, rest, hrun⟩ := hrun
      exact hrun.give (hfit _ _ hb)
  | missed hempty hnone hrun hfit =>
      obtain ⟨free, rest, hrun⟩ := hrun
      exact hrun.set _ ⟨hfit, hnone⟩ rfl
  | passed hempty hnone hrun hfit =>
      obtain ⟨free, rest, hrun⟩ := hrun
      exact hrun.set _ ⟨hfit, hnone⟩ rfl
  | exhausted hnone hrun =>
      obtain ⟨free, rest, hrun⟩ := hrun
      exact hrun.fail .allocFail
  | freed hrun =>
      obtain ⟨free, rest, hrun⟩ := hrun
      exact hrun.done
  | flushed hrun hleft =>
      obtain ⟨free, rest, hrun⟩ := hrun
      exact hrun.set _ hleft rfl
  | visited hrun hleft =>
      obtain ⟨free, rest, hrun⟩ := hrun
      exact hrun.set _ hleft rfl
  | flushing hrun hpc =>
      obtain ⟨free, rest, hrun⟩ := hrun
      refine hrun.set _ hpc ?_
      simp [Pc.blocks, After.blocks]
  | ended hrun hleft =>
      obtain ⟨free, rest, hrun⟩ := hrun
      exact hrun.ends hleft

/-! ## A call begins -/

/-- What an allocation can do before it looks at a pool. -/
inductive Begun (options : MemAllocOptions) (order : List Nat) (s : Sys)
    (t : Nat) (call : Call) : Sys → Prop where
  /-- No class is large enough. -/
  | tooLarge {c : ThreadCache} (hclass : classOf options call.size = none)
      (hrun : InStep options order s t c []) :
      Begun options order s t call (s.fail t c .err)
  /-- A block of the cache is handed out. -/
  | given {i n b : Nat} {c' : ThreadCache}
      (hclass : classOf options call.size = some i)
      (hrun : InStep options order s t c' [b]) (hb : Home options (n, i) b) :
      Begun options order s t call (s.give t c' b call.size)
  /-- The call has to look at the pools. -/
  | waits {i prefer : Nat} {c' : ThreadCache}
      (hclass : classOf options call.size = some i)
      (hrun : InStep options order s t c' [])
      (hpc : PcGood options c' (.first call i prefer)) :
      Begun options order s t call
        (s.set t ⟨c', .first call i prefer, none⟩)

theorem classOf_fits (hi : classOf options size = some i) :
    Fits options i size :=
  fun _ _ hb => classOf_le hi hb

theorem mmsAlloc_begun (hadm : Admitted options order)
    (h : Running options order s t c [] free rest) (size : Nat) :
    Begun options order s t (.alloc size) (s.mmsAlloc t c size) := by
  rw [Sys.mmsAlloc, h.pools.classFor_eq]
  cases hi : classOf options size with
  | none => exact .tooLarge hi ⟨_, _, h⟩
  | some i =>
      dsimp only
      cases hget : getOneBlockFromCache c i with
      | some r =>
          obtain ⟨hperm, hgood, n, hb⟩ :=
            getOneBlockFromCache_spec hadm h.cache hget
          exact .given hi ⟨_, _, h.popped hperm hgood⟩ hb
      | none =>
          obtain ⟨hgood, hmem⟩ := getAllocNumaId_spec h.cache
          have hnone : NoneOf c i := getOneBlockFromCache_none hadm h.cache hget
          exact .waits hi ⟨_, _, h.withNuma hgood⟩
            ⟨hmem, classOf_fits hi, hnone⟩

theorem fixedAllocPreferNuma_begun (hadm : Admitted options order)
    (h : Running options order s t c [] free rest) (size : Nat)
    (hn : prefer ∈ options.numas.map (·.id)) :
    Begun options order s t (.allocPreferNuma size)
      (s.fixedAllocPreferNuma t c size prefer) := by
  rw [Sys.fixedAllocPreferNuma, h.pools.classFor_eq]
  cases hi : classOf options size with
  | none => exact .tooLarge hi ⟨_, _, h⟩
  | some i =>
      have hplace := getCacheNumaId_eq hadm hn c.toThreadCache
      dsimp only
      cases hget : getOneBlockFromCachePreferNuma c i prefer with
      | some r =>
          rw [getOneBlockFromCachePreferNuma, hplace] at hget
          obtain ⟨hperm, hgood, hb⟩ := popBlock_spec hadm h.cache hget
          exact .given hi ⟨_, _, h.popped hperm hgood⟩ hb
      | none =>
          rw [getOneBlockFromCachePreferNuma, hplace] at hget
          exact .waits hi ⟨_, _, h⟩
            ⟨hn, classOf_fits hi, popBlock_none hget⟩

theorem kept_begun {call : Call} (h : Begun options order s t call s') :
    Kept options order s' := by
  cases h with
  | tooLarge hclass hrun =>
      obtain ⟨free, rest, hrun⟩ := hrun
      exact hrun.fail .err
  | given hclass hrun hb =>
      obtain ⟨free, rest, hrun⟩ := hrun
      exact hrun.give (classOf_le hclass hb)
  | waits hclass hrun hpc =>
      obtain ⟨free, rest, hrun⟩ := hrun
      exact hrun.set _ hpc rfl

/-- What `MmsFree` makes of a block: it is cached, or half of its list goes
    back to the pool first. -/
theorem Running.mmsFree_eq (hadm : Admitted options order)
    (h : Running options order s t c [b] free rest)
    (hb : Home options (n, i) b) :
    (∃ c', s.mmsFree t c b = s.set t ⟨c', .idle, some .done⟩ ∧
      Running options order s t c' [] free rest) ∨
    ∃ c' bs, s.mmsFree t c b =
        s.set t ⟨c', .back i [(n, bs)] (.free i b), none⟩ ∧
      Running options order s t c' (bs ++ [b]) free rest ∧ bs ≠ [] ∧
      (∀ d ∈ bs, Home options (n, i) d) ∧
      (c'.mMemCaches (n, i)).length < cacheLimitPerThread := by
  obtain ⟨x, hx, hxb, hplace⟩ := hb
  have hb : Home options (n, i) b := ⟨x, hx, hxb, hplace⟩
  have hclass : classFor s.mem (s.mem.mem.header b).blockSize = some i := by
    rw [← hxb, h.pools.header x hx, h.pools.classFor_eq]
    exact (classOf_block hadm hx).trans
      (congrArg some (congrArg Prod.snd hplace))
  rw [Sys.mmsFree]
  simp only [hclass]
  cases hadd : addOneBlockToCache s.mem.mem c i b with
  | ok c' =>
      refine Or.inl ⟨c', rfl, ?_⟩
      have hlen : (c.mMemCaches (n, i)).length < cacheLimitPerThread := by
        refine lt_of_le_of_ne (h.cache.bounded _) fun hfull => ?_
        rw [addOneBlockToCache, placeOf_eq hadm h.pools hb,
          if_pos hfull] at hadd
        cases hadd
      obtain ⟨d, hd, hperm, hgood⟩ :=
        addOneBlockToCache_spec hadm h.pools h.cache hb hlen
      rw [hadd] at hd
      cases hd
      refine h.withCache ?_ hgood
      rw [List.append_nil]
      exact hperm.trans (List.perm_append_singleton b _).symm
  | error e =>
      have hfull := addOneBlockToCache_error hadm h.pools hb hadd
      have hnuma : (s.mem.mem.header b).numaId = n := h.pools.numaId hb
      obtain ⟨hperm, hgood, hhome, hlen, hleft⟩ :=
        getBatchBlocksFromCachePreferNuma_spec hadm h.cache hb
          fixedCacheBatchCount
      rw [hfull, fixedCacheBatchCount, cacheLimitPerThread] at hlen hleft
      have hne : (getBatchBlocksFromCachePreferNuma c i n
          fixedCacheBatchCount).2 ≠ [] := by
        intro hnil
        rw [fixedCacheBatchCount, cacheLimitPerThread] at hnil
        rw [hnil] at hlen
        cases hlen
      have hrun : Running options order s t (getBatchBlocksFromCachePreferNuma
          c i n fixedCacheBatchCount).1 ((getBatchBlocksFromCachePreferNuma c i
          n fixedCacheBatchCount).2 ++ [b]) free rest := by
        refine h.withCache ?_ hgood
        rw [← List.append_assoc]
        exact (List.perm_append_comm.trans hperm.symm).append_right _
      refine Or.inr ⟨_, _, ?_, hrun, hne, hhome, ?_⟩
      · dsimp only
        rw [hnuma]
        exact hrun.returnBatch_eq hadm hne hhome
      · rw [fixedCacheBatchCount, cacheLimitPerThread]
        omega

theorem kept_mmsFree (hadm : Admitted options order)
    (h : Running options order s t c [b] free rest)
    (hb : Home options (n, i) b) : Kept options order (s.mmsFree t c b) := by
  rcases h.mmsFree_eq hadm hb with ⟨c', heq, hdone⟩ |
    ⟨c', bs, heq, hback, hne, hhome, hlen⟩
  · rw [heq]
    exact hdone.done
  · rw [heq]
    refine hback.set _ ⟨n, bs, rfl, hne, hhome, rfl, hb, hlen⟩ ?_
    rw [Pc.blocks, List.flatMap_singleton]
    rfl

/-- A block that is handed out comes into the hands of the thread that frees
    it. -/
theorem Running.taken (h : Running options order s t c [] free rest)
    {x : Nat × Nat} (hx : x ∈ s.live) :
    Running options order { s with live := s.live.erase x } t c [x.1] free
      rest := by
  refine { h with
    live := fun y hy => h.live y (List.mem_of_mem_erase hy)
    whole := .trans (List.Perm.append_left _ ?_) h.whole }
  have hperm := (List.perm_cons_erase hx).map (·.1)
  rw [List.perm_iff_count] at hperm ⊢
  intro d
  have hd := hperm d
  simp only [List.map_cons, List.count_append, List.count_cons,
    List.count_nil] at hd ⊢
  omega

/-! ## Steps and runs -/

theorem updateNumaId_spec (hadm : Admitted options order)
    (h : Pools options order a free) (n : Nat) :
    Pools options order (updateNumaId a n).1 free ∧
      (updateNumaId a n).2 ∈ options.numas.map (·.id) := by
  rw [updateNumaId]
  split
  · rename_i hn
    exact ⟨h, h.ids ▸ hn⟩
  · refine ⟨{ h with ids := h.ids }, ?_⟩
    have hpos : 0 < a.mNumaId.length := by
      rw [h.ids, List.length_map]
      exact List.length_pos_iff.mpr hadm.some
    have hlt := Nat.mod_lt a.mNumaIndex hpos
    rw [← h.ids, List.getD_eq_getElem _ _ hlt]
    exact List.getElem_mem hlt

theorem Sys.idle_eq (h : s.idle t = some c) :
    ∃ th, s.threads t = some th ∧ th.cache = c ∧ th.pc = .idle := by
  obtain ⟨th, hth, hpc⟩ := Option.bind_eq_some_iff.mp h
  split at hpc
  · rename_i hidle
    exact ⟨th, hth, Option.some.inj hpc, hidle⟩
  · cases hpc

theorem KeptWith.runningIdle (h : KeptWith options order s free held)
    (hidle : s.idle t = some c) :
    ∃ rest, Running options order s t c [] free rest := by
  obtain ⟨th, hth, rfl, hpc⟩ := Sys.idle_eq hidle
  have hrun := h.running hth
  rw [hpc] at hrun
  exact hrun

theorem live_of_find {x : Nat × Nat} {block : Nat}
    (h : (s.live.find? fun x => x.1 == block) = some x) :
    x ∈ s.live ∧ x.1 = block := by
  have hb := List.find?_some h
  exact ⟨List.mem_of_find?_eq_some h, beq_iff_eq.mp hb⟩

theorem live_home (h : LiveGood options s.live) {x : Nat × Nat}
    (hx : x ∈ s.live) :
    ∃ y ∈ carved options, y.addr = x.1 ∧ x.2 ≤ y.size ∧
      Home options (y.numaId, y.index) x.1 := by
  obtain ⟨y, hy, haddr, hle⟩ := h x hx
  exact ⟨y, hy, haddr, hle, y, hy, haddr, rfl⟩

/-- **STEP**: whatever a thread does, every block stays in one place. -/
theorem kept_step (hadm : Admitted options order) (h : Kept options order s)
    (hs : step s e = some s') : Kept options order s' := by
  obtain ⟨free, held, h⟩ := h
  cases e with
  | start t cpuNumaNode =>
      rw [step] at hs
      split at hs
      · rename_i hnone
        cases hs
        obtain ⟨hpools, hn⟩ := updateNumaId_spec hadm h.pools cpuNumaNode
        obtain ⟨rest, hrun⟩ :=
          h.starting (Option.isNone_iff_eq_none.mp hnone) hn
        exact (hrun.withPools hpools (.refl _)).set .idle trivial rfl
      · cases hs
  | alloc t size =>
      obtain ⟨c, hidle, rfl⟩ := Option.map_eq_some_iff.mp hs
      obtain ⟨rest, hrun⟩ := h.runningIdle hidle
      exact kept_begun (mmsAlloc_begun hadm hrun size)
  | allocPreferNuma t size prefer =>
      obtain ⟨c, hidle, rfl⟩ := Option.map_eq_some_iff.mp hs
      obtain ⟨rest, hrun⟩ := h.runningIdle hidle
      obtain ⟨hpools, hn⟩ := updateNumaId_spec hadm h.pools prefer
      exact kept_begun (fixedAllocPreferNuma_begun hadm
        (hrun.withPools hpools (.refl _)) size hn)
  | free t block =>
      obtain ⟨c, hidle, hs⟩ := Option.bind_eq_some_iff.mp hs
      obtain ⟨x, hx, rfl⟩ := Option.map_eq_some_iff.mp hs
      obtain ⟨rest, hrun⟩ := h.runningIdle hidle
      obtain ⟨hmem, rfl⟩ := live_of_find hx
      obtain ⟨y, -, -, -, hhome⟩ := live_home h.live hmem
      exact kept_mmsFree hadm (hrun.taken hmem) hhome
  | advance t =>
      obtain ⟨th, hth, hs⟩ := Option.bind_eq_some_iff.mp hs
      obtain ⟨rest, hrun⟩ := h.running hth
      exact kept_advance (advance_cases hadm hrun (h.threads t th hth).pc hs)
  | leave t =>
      obtain ⟨c, hidle, rfl⟩ := Option.map_eq_some_iff.mp hs
      obtain ⟨rest, hrun⟩ := h.runningIdle hidle
      refine hrun.set (.leaving cachePlaces) (fun p hp => ?_) rfl
      obtain ⟨b, hb⟩ := List.exists_mem_of_ne_nil _ hp
      exact (hrun.cache.homes p b hb).place hadm
  | store block new =>
      obtain ⟨x, hx, rfl⟩ := Option.map_eq_some_iff.mp hs
      obtain ⟨hmem, rfl⟩ := live_of_find hx
      obtain ⟨y, hy, haddr, hle, -⟩ := live_home h.live hmem
      -- a block that is handed out is in no list
      have hfree : ∀ q, y.addr ∉ free q := by
        intro q hq
        have hnodup := h.whole.nodup_iff.mpr (carved_nodup hadm)
        refine (List.nodup_append.mp hnodup).2.2 y.addr ?_ y.addr ?_ rfl
        · exact List.mem_flatMap.mpr ⟨q, (h.pools.homes q _ hq).poolPlace, hq⟩
        · rw [haddr]
          exact List.mem_append_right _ (List.mem_map_of_mem hmem)
      have hpools := overwrite_spec hadm h.pools hy hle hfree new
      rw [haddr] at hpools
      exact ⟨free, held, { h with pools := hpools }⟩

theorem kept_start (hadm : Admitted options order)
    (hpools : Pools options order a (listOf (carved options))) :
    Kept options order (Sys.start a) := by
  refine ⟨_, [], hpools, fun _ _ hth => (by cases hth), holdings_nil, ?_,
    List.forall_mem_nil _⟩
  -- the carved blocks, sorted into the lists of the pools
  have hsorted := (perm_flatMap_filter Block.place (poolPlaces options)
    (carved options) (nodup_poolPlaces hadm) fun x hx =>
      Home.poolPlace ⟨x, hx, rfl, rfl⟩).map (·.addr)
  rw [List.map_flatMap] at hsorted
  show (poolBlocks options _ ++ ([] ++ [])).Perm _
  rw [List.append_nil, List.append_nil]
  refine .trans ?_ hsorted.symm
  exact List.Perm.flatMap_left _ fun p _ => List.reverse_perm _

/-- Every block of the areas is in one place: in a list of a pool, with a
    thread, or handed out.  The lists of pools and caches hold blocks of their
    own area and class, no cache list is longer than its limit, no header has
    changed, and what is handed out is large enough. -/
structure Conserved (options : MemAllocOptions) (s : Sys)
    (free : Nat × Nat → List Nat) (held : List Nat) : Prop where
  lists : ∀ n pool, s.mem.mNumaPool.mNumaPools n = some pool → ∀ i,
    OnList s.mem.mem.next (pool i) (free (n, i))
  holdings : Holdings (fun t => heldBy (s.threads t)) held
  whole : (poolBlocks options free ++ (held ++ s.live.map (·.1))).Perm
    ((carved options).map (·.addr))
  classes : ∀ p, ∀ b ∈ free p, Home options p b
  caches : ∀ t th, s.threads t = some th → ∀ p,
    (∀ b ∈ th.cache.mMemCaches p, Home options p b) ∧
      (th.cache.mMemCaches p).length ≤ cacheLimitPerThread
  headers : ∀ x ∈ carved options, s.mem.mem.header x.addr = x.header
  served : LiveGood options s.live

theorem KeptWith.conserved (h : KeptWith options order s free held) :
    Conserved options s free held :=
  { lists := h.pools.lists
    holdings := h.holdings
    whole := h.whole
    classes := h.pools.homes
    caches := fun t th hth p =>
      ⟨(h.threads t th hth).cache.homes p, (h.threads t th hth).cache.bounded p⟩
    headers := h.pools.header
    served := h.live }

variable {mem : Memory} {es : List Event}

/-- Every state of every run has the invariant. -/
theorem kept_run (hadm : Admitted options order)
    (hinit : initializeFixed options mem order = .ok a)
    (hrun : runFrom step (Sys.start a) es = some s) : Kept options order s := by
  obtain ⟨a', ha', hpools⟩ := initializeFixed_spec hadm mem
  cases hinit.symm.trans ha'
  exact runFrom_invariant (fun _ _ _ h hs => kept_step hadm h hs)
    (kept_start hadm hpools) hrun

/-- **CONSERVATION**: in every run of any number of threads, which begin and
    end at any time, free each other's blocks and overwrite the blocks they
    have, every block is in one place, and no two blocks overlap. -/
theorem fixed_conserves (hadm : Admitted options order)
    (hinit : initializeFixed options mem order = .ok a)
    (hrun : runFrom step (Sys.start a) es = some s) :
    (∃ free held, Conserved options s free held) ∧
      (carved options).Pairwise Apart ∧
      ∀ x ∈ carved options, ∃ numa ∈ options.numas, numa.id = x.numaId ∧
        Within numa.address (numa.address + numa.size) x := by
  obtain ⟨free, held, h⟩ := kept_run hadm hinit hrun
  exact ⟨⟨free, held, h.conserved⟩, carved_apart hadm,
    fun x hx => carved_inside hadm hx⟩

/-! ## Two areas of two blocks -/

def twoAreas : MemAllocOptions :=
  ⟨[⟨0, 80, 4096⟩, ⟨2, 80, 8192⟩], [(10, 24)]⟩

theorem admitted_twoAreas : Admitted twoAreas [2, 0] where
  ids := by decide
  some := by decide
  small := by decide
  apart := by decide
  bits := by decide
  few := by decide
  rates := by decide
  sizes := by decide
  node := by decide
  order := by decide

/-- A memory with nothing in it. -/
def blank : Memory := ⟨fun _ => ⟨0, 0, 0⟩, fun _ => none⟩

/-- A thread gets a block, another one overwrites it and frees it, and both
    end. -/
def passedOn : List Event :=
  [.start 7 0, .alloc 7 20, .advance 7, .start 9 1, .store 4112 blank,
    .free 9 4112, .leave 7, .leave 9] ++
    List.replicate 18 (.advance 7) ++ List.replicate 18 (.advance 9)

def bootTwoAreas : MmsMemAllocator :=
  match initializeFixed twoAreas blank [2, 0] with
  | .ok a => a
  | .error _ => ⟨[], [], 0, ⟨fun _ => none, []⟩, blank⟩

theorem fixed_conserves_twoAreas : ∃ s,
    runFrom step (Sys.start bootTwoAreas) passedOn = some s ∧ s.live = [] ∧
      ∃ free held, Conserved twoAreas s free held := by
  have hlive : (runFrom step (Sys.start bootTwoAreas) passedOn).map (·.live) =
      some [] := rfl
  obtain ⟨s, hrun, hs⟩ := Option.map_eq_some_iff.mp hlive
  exact ⟨s, hrun, hs, (fixed_conserves admitted_twoAreas rfl hrun).1⟩

end UbsIo.Fixed
