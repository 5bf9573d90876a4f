import UbsIo.Lib.Holdings
import UbsIo.Fixed.Pools

/-! # The cache of a thread

    `CacheGood options c` says that the lists of a cache hold blocks of their
    own area and size class and no more than `CACHE_LIMIT_PER_THREAD` of them,
    and that the thread prefers areas there are.  Every operation keeps it and
    says what becomes of the blocks; a batch from a pool always fits into a
    list that was empty (`addBatchBlocksToCache_spec`). -/

namespace UbsIo.Fixed

open UbsIo.Lib
open UbsIo.Allocator (maxNumasNum getCacheNumaId getAllocNumaId
  recordAllocNumaId)

/-- The blocks in the lists of a cache. -/
def cached (c : ThreadCache) : List Nat := cachePlaces.flatMap c.mMemCaches

structure CacheGood (options : MemAllocOptions) (c : ThreadCache) : Prop where
  homes : ∀ p, ∀ b ∈ c.mMemCaches p, Home options p b
  bounded : ∀ p, (c.mMemCaches p).length ≤ cacheLimitPerThread
  numaId : c.mNumaId ∈ options.numas.map (·.id)
  home : c.mHomeNumaId ∈ options.numas.map (·.id)

variable {options : MemAllocOptions} {order : List Nat} {n i b : Nat}
  {a : MmsMemAllocator} {free : Nat × Nat → List Nat} {p : Nat × Nat}
  {bs : List Nat} {c c' : ThreadCache}

theorem mem_cachePlaces :
    (n, i) ∈ cachePlaces ↔ n < maxNumasNum ∧ i < maxBlockNum := by
  simp [cachePlaces]

theorem nodup_cachePlaces : cachePlaces.Nodup := by decide

theorem Admitted.area (hadm : Admitted options order)
    (hn : n ∈ options.numas.map (·.id)) : n < maxNumasNum := by
  obtain ⟨x, hx, rfl⟩ := List.mem_map.mp hn
  exact hadm.small x hx

theorem Home.place (hadm : Admitted options order) (hb : Home options p b) :
    p ∈ cachePlaces :=
  mem_cachePlaces.mpr ⟨hadm.area hb.area, hb.class.trans_le hadm.few⟩

theorem getCacheNumaId_eq (hadm : Admitted options order)
    (hn : n ∈ options.numas.map (·.id)) (c : Allocator.ThreadCache) :
    getCacheNumaId c n = n :=
  if_pos (hadm.area hn)

/-! ## One list -/

@[simp] theorem setCache_self (c : ThreadCache) (p : Nat × Nat)
    (bs : List Nat) : (setCache c p bs).mMemCaches p = bs :=
  Function.update_self ..

theorem setCache_of_ne {q : Nat × Nat} (hq : q ≠ p) (c : ThreadCache)
    (bs : List Nat) : (setCache c p bs).mMemCaches q = c.mMemCaches q :=
  Function.update_of_ne hq ..

/-- The list of one place changes. -/
theorem cached_setCache (hp : p ∈ cachePlaces) (c : ThreadCache) :
    ∃ rest, (cached c).Perm (c.mMemCaches p ++ rest) ∧
      ∀ bs, (cached (setCache c p bs)).Perm (bs ++ rest) :=
  flatMap_update nodup_cachePlaces hp c.mMemCaches

theorem CacheGood.set (h : CacheGood options c)
    (hhome : ∀ b ∈ bs, Home options p b)
    (hlen : bs.length ≤ cacheLimitPerThread) :
    CacheGood options (setCache c p bs) := by
  refine
    { h with
      homes := fun q b hb => ?_
      bounded := fun q => ?_ }
  · by_cases hq : q = p
    · subst hq
      rw [setCache_self] at hb
      exact hhome b hb
    · rw [setCache_of_ne hq] at hb
      exact h.homes q b hb
  · by_cases hq : q = p
    · subst hq
      rw [setCache_self]
      exact hlen
    · rw [setCache_of_ne hq]
      exact h.bounded q

theorem popBlock_none (hpop : popBlock c p = none) : c.mMemCaches p = [] := by
  rw [popBlock, Option.map_eq_none_iff] at hpop
  exact List.getLast?_eq_none_iff.mp hpop

theorem popBlock_spec (hadm : Admitted options order) (h : CacheGood options c)
    (hpop : popBlock c p = some (c', b)) :
    (cached c).Perm (b :: cached c') ∧ CacheGood options c' ∧
      Home options p b := by
  rw [popBlock, Option.map_eq_some_iff] at hpop
  obtain ⟨last, hlast, heq⟩ := hpop
  cases heq
  have hsplit := List.dropLast_append_getLast? b hlast
  have hb : Home options p b := h.homes p b (List.mem_of_getLast? hlast)
  obtain ⟨rest, hold, hnew⟩ := cached_setCache (hb.place hadm) c
  refine ⟨?_, h.set (fun d hd => ?_) ?_, hb⟩
  · refine hold.trans ?_
    rw [← hsplit, List.append_assoc, hsplit]
    exact List.perm_middle.trans ((hnew _).symm.cons _)
  · exact h.homes p d (List.mem_of_mem_dropLast hd)
  · have hlen := h.bounded p
    rw [List.length_dropLast]
    omega

/-! ## Taking blocks -/

/-- `GetOneBlockFromCache` takes a block of the class, wherever it is. -/
theorem getOneBlockFromCache_spec (hadm : Admitted options order)
    (h : CacheGood options c)
    (hget : getOneBlockFromCache c i = some (c', b)) :
    (cached c).Perm (b :: cached c') ∧ CacheGood options c' ∧
      ∃ n, Home options (n, i) b := by
  rw [getOneBlockFromCache] at hget
  split at hget
  · rename_i r hr
    rw [hget] at hr
    obtain ⟨hperm, hgood, hb⟩ := popBlock_spec hadm h hr
    exact ⟨hperm, hgood, _, hb⟩
  · obtain ⟨n, -, hpop⟩ := List.exists_of_findSome?_eq_some hget
    split at hpop
    · cases hpop
    · obtain ⟨hperm, hgood, hb⟩ := popBlock_spec hadm h hpop
      exact ⟨hperm, hgood, _, hb⟩

/-- It finds nothing only where there is nothing. -/
theorem getOneBlockFromCache_none (hadm : Admitted options order)
    (h : CacheGood options c) (hget : getOneBlockFromCache c i = none)
    (n : Nat) : c.mMemCaches (n, i) = [] := by
  rw [getOneBlockFromCache] at hget
  split at hget
  · cases hget
  rename_i hfirst
  by_cases hn : n = c.mNumaId
  · rw [getCacheNumaId_eq hadm h.numaId] at hfirst
    rw [hn]
    exact popBlock_none hfirst
  · refine List.eq_nil_iff_forall_not_mem.mpr fun b hb => ?_
    have hlt := hadm.area (h.homes _ b hb).area
    have hother := List.findSome?_eq_none_iff.mp hget n
      (List.mem_range.mpr hlt)
    rw [if_neg hn] at hother
    rw [popBlock_none hother] at hb
    cases hb

/-- `GetBatchBlocksFromCachePreferNuma` takes the last blocks of a list. -/
theorem getBatchBlocksFromCachePreferNuma_spec (hadm : Admitted options order)
    (h : CacheGood options c) (hb : Home options (n, i) b) (count : Nat) :
    (cached c).Perm ((getBatchBlocksFromCachePreferNuma c i n count).2 ++
        cached (getBatchBlocksFromCachePreferNuma c i n count).1) ∧
      CacheGood options (getBatchBlocksFromCachePreferNuma c i n count).1 ∧
      (∀ d ∈ (getBatchBlocksFromCachePreferNuma c i n count).2,
        Home options (n, i) d) ∧
      (getBatchBlocksFromCachePreferNuma c i n count).2.length =
        min count (c.mMemCaches (n, i)).length ∧
      ((getBatchBlocksFromCachePreferNuma c i n count).1.mMemCaches
        (n, i)).length = (c.mMemCaches (n, i)).length - count := by
  have hnuma : getCacheNumaId c.toThreadCache n = n :=
    getCacheNumaId_eq hadm hb.area _
  rw [getBatchBlocksFromCachePreferNuma, hnuma]
  have hlen := h.bounded (n, i)
  obtain ⟨rest, hold, hnew⟩ := cached_setCache (hb.place hadm) c
  refine ⟨?_, h.set (fun d hd => ?_) ?_, fun d hd => ?_, ?_, ?_⟩
  · refine hold.trans (.trans ?_ ((hnew _).symm.append_left _))
    rw [← List.append_assoc]
    refine List.Perm.append_right _ ?_
    have hsplit := List.take_append_drop
      ((c.mMemCaches (n, i)).length - count) (c.mMemCaches (n, i))
    exact (List.Perm.of_eq hsplit.symm).trans List.perm_append_comm
  · exact h.homes _ d (List.mem_of_mem_take hd)
  · rw [List.length_take]
    omega
  · exact h.homes _ d (List.mem_of_mem_drop hd)
  · rw [List.length_drop]
    omega
  · rw [setCache_self, List.length_take]
    omega

/-! ## Adding blocks -/

theorem placeOf_eq (hadm : Admitted options order)
    (h : Pools options order a free) (hb : Home options (n, i) b)
    (c : ThreadCache) : placeOf a.mem c i b = (n, i) := by
  rw [placeOf, h.numaId hb, getCacheNumaId_eq hadm hb.area]

/-- `AddOneBlockToCache` refuses a block only when its list is full. -/
theorem addOneBlockToCache_spec (hadm : Admitted options order)
    (hpools : Pools options order a free) (h : CacheGood options c)
    (hb : Home options (n, i) b)
    (hlen : (c.mMemCaches (n, i)).length < cacheLimitPerThread) :
    ∃ c', addOneBlockToCache a.mem c i b = .ok c' ∧
      (cached c').Perm (b :: cached c) ∧ CacheGood options c' := by
  have hplace := placeOf_eq hadm hpools hb c
  refine ⟨pushBlock a.mem i c b, ?_, ?_, ?_⟩
  · rw [addOneBlockToCache, hplace, if_neg hlen.ne]
  · obtain ⟨rest, hold, hnew⟩ := cached_setCache (hb.place hadm) c
    rw [pushBlock, hplace]
    refine (hnew _).trans ?_
    rw [List.append_assoc]
    exact List.perm_middle.trans (hold.symm.cons _)
  · rw [pushBlock, hplace]
    refine h.set (fun d hd => ?_) ?_
    · rcases List.mem_append.mp hd with hd | hd
      · exact h.homes _ d hd
      · exact List.mem_singleton.mp hd ▸ hb
    · rw [List.length_append, List.length_singleton]
      exact hlen

/-- The list is full otherwise. -/
theorem addOneBlockToCache_error (hadm : Admitted options order)
    (hpools : Pools options order a free) (hb : Home options (n, i) b)
    {e : BResult} (hadd : addOneBlockToCache a.mem c i b = .error e) :
    (c.mMemCaches (n, i)).length = cacheLimitPerThread := by
  rw [addOneBlockToCache, placeOf_eq hadm hpools hb] at hadd
  split at hadd
  · assumption
  · cases hadd

/-- Blocks of one list are put there one after another. -/
theorem foldl_pushBlock (hadm : Admitted options order)
    (hpools : Pools options order a free) :
    ∀ (bs : List Nat) (c : ThreadCache), (∀ b ∈ bs, Home options (n, i) b) →
      bs.foldl (pushBlock a.mem i) c =
        setCache c (n, i) (c.mMemCaches (n, i) ++ bs) := by
  intro bs
  induction bs with
  | nil =>
      intro c _
      rw [List.append_nil, setCache, Function.update_eq_self]
      rfl
  | cons b bs ih =>
      intro c hhome
      rw [List.foldl_cons, ih _ fun d hd => hhome d (List.mem_cons_of_mem _ hd),
        pushBlock, placeOf_eq hadm hpools (hhome b List.mem_cons_self)]
      simp [setCache]

/-- **REFILL**: `AddBatchBlocksToCache` takes what is left of a batch from a
    pool, as the list it goes to was empty. -/
theorem addBatchBlocksToCache_spec (hadm : Admitted options order)
    (hpools : Pools options order a free) (h : CacheGood options c)
    (hhome : ∀ b ∈ bs, Home options (n, i) b)
    (hempty : c.mMemCaches (n, i) = [])
    (hlen : bs.length < cacheLimitPerThread) :
    ∃ c', addBatchBlocksToCache a.mem c i bs = .ok c' ∧
      (cached c').Perm (bs ++ cached c) ∧ CacheGood options c' := by
  have hfold := foldl_pushBlock hadm hpools bs c hhome
  rw [hempty, List.nil_append] at hfold
  refine ⟨setCache c (n, i) bs, ?_, ?_, h.set hhome hlen.le⟩
  · rw [addBatchBlocksToCache, if_neg, hfold]
    simp only [List.any_eq_true, not_exists, not_and, Bool.and_eq_true,
      decide_eq_true_eq, bne_iff_ne]
    intro m _ hcount
    have hm : m = n := by
      obtain ⟨b, hb, heq⟩ := List.countP_pos_iff.mp (Nat.pos_of_ne_zero hcount)
      rw [hpools.numaId (hhome b hb), getCacheNumaId_eq hadm (hhome b hb).area]
        at heq
      exact (beq_iff_eq.mp heq).symm
    subst hm
    have hle := List.countP_le_length (l := bs)
      (p := fun b => getCacheNumaId c.toThreadCache
        (a.mem.header b).numaId == m)
    rw [hempty, List.length_nil]
    omega
  · cases bs with
    | nil =>
        have hsame : setCache c (n, i) [] = c := by
          rw [← hempty, setCache, Function.update_eq_self]
        rw [hsame, List.nil_append]
    | cons b bs =>
        have hp := (hhome b List.mem_cons_self).place hadm
        obtain ⟨rest, hold, hnew⟩ := cached_setCache hp c
        rw [hempty, List.nil_append] at hold
        exact (hnew _).trans (hold.symm.append_left _)

/-- Blocks of one area make one group of `ReturnBatchBlocksToPool`. -/
theorem numaBlocks_spec (hadm : Admitted options order)
    (h : Pools options order a free) (hne : bs ≠ [])
    (hhome : ∀ b ∈ bs, Home options (n, i) b) :
    numaBlocks a bs = some [(n, bs)] := by
  obtain ⟨b, hb⟩ := List.exists_mem_of_ne_nil bs hne
  have hn : n ∈ a.mNumaId := h.ids ▸ (hhome b hb).area
  have hid : ∀ d ∈ bs, (a.mem.header d).numaId = n := fun d hd =>
    h.numaId (hhome d hd)
  rw [numaBlocks, if_pos]
  · rw [List.filter_map]
    have hone : a.mNumaId.filter ((fun group : Nat × List Nat =>
        !group.2.isEmpty) ∘ fun m => (m, bs.filter fun d =>
          (a.mem.header d).numaId == m)) = [n] := by
      rw [List.filter_congr (q := (· == n))]
      · rw [List.filter_beq, List.count_eq_one_of_mem (h.ids ▸ hadm.ids) hn]
        rfl
      · intro m _
        by_cases hm : m = n
        · subst hm
          rw [Function.comp_apply, List.filter_eq_self.mpr fun d hd => by
            rw [hid d hd]; exact beq_self_eq_true m]
          simp [hne]
        · rw [Function.comp_apply, List.filter_eq_nil_iff.mpr fun d hd => by
            rw [hid d hd]; simp [Ne.symm hm]]
          simp [hm]
    rw [hone, List.map_singleton, List.filter_eq_self.mpr fun d hd => by
      rw [hid d hd]; exact beq_self_eq_true n]
  · exact List.all_eq_true.mpr fun d hd => decide_eq_true (hid d hd ▸ hn)

/-! ## The preferred area -/

theorem CacheGood.withNuma (h : CacheGood options c)
    {r : Allocator.ThreadCache} (hnuma : r.mNumaId ∈ options.numas.map (·.id))
    (hhome : r.mHomeNumaId ∈ options.numas.map (·.id)) :
    CacheGood options { c with toThreadCache := r } :=
  { homes := h.homes, bounded := h.bounded, numaId := hnuma, home := hhome }

theorem getAllocNumaId_spec (h : CacheGood options c) :
    CacheGood options
        { c with toThreadCache := (getAllocNumaId c.toThreadCache).1 } ∧
      (getAllocNumaId c.toThreadCache).2 ∈ options.numas.map (·.id) := by
  rw [getAllocNumaId]
  split
  · exact ⟨h, h.numaId⟩
  split
  · exact ⟨h.withNuma h.numaId h.home, h.numaId⟩
  · exact ⟨h.withNuma h.numaId h.home, h.home⟩

theorem recordAllocNumaId_spec (h : CacheGood options c) (prefer : Nat)
    (hn : n ∈ options.numas.map (·.id)) :
    CacheGood options { c with
      toThreadCache := recordAllocNumaId c.toThreadCache prefer n } := by
  rw [recordAllocNumaId]
  split
  · split
    · exact h.withNuma h.home h.home
    · exact h
  split
  · exact h.withNuma h.numaId h.home
  dsimp only
  split_ifs
  · exact h.withNuma h.numaId h.home
  · exact h.withNuma hn h.home
  · exact h.withNuma h.numaId h.home
  · exact h.withNuma hn h.home

end UbsIo.Fixed
