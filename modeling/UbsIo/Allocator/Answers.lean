import UbsIo.Allocator.Kept

/-! # What the calls answer

    One lemma for every route of an allocation.  `Served` is a call that
    returns a block, `Refused` one that does not; both keep the invariant.
    The routes that flush the cache refuse only when there is no room beside
    the blocks of the program; `BuddyAllocFromPool` alone refuses when there
    is no room beside these and the cached blocks. -/

namespace UbsIo.Allocator

open UbsIo.Lib UbsIo.Buddy

variable {count : Nat → Option Nat} {a : MmsMemAllocator}
  {live : List Held} {c : ThreadCache} {n order size : Nat} {b : Addr}

/-- The call returns a block of the order, and the area it is from. -/
def Served (count : Nat → Option Nat) (live : List Held) (order : Nat)
    (r : MmsMemAllocator × Except BResult (Nat × Addr)) : Prop :=
  ∃ b, r.2 = .ok (b.area, b) ∧ Kept count r.1 (⟨b, order⟩ :: live)

/-- The call returns no block. -/
def Refused (count : Nat → Option Nat) (live : List Held)
    (r : MmsMemAllocator × Except BResult (Nat × Addr)) : Prop :=
  ∃ e, r.2 = .error e ∧ Kept count r.1 live

theorem Served.not_error {r : MmsMemAllocator × Except BResult (Nat × Addr)}
    (h : Served count live order r) (e : BResult) : r.2 ≠ .error e := by
  obtain ⟨b, hb, -⟩ := h
  rw [hb]
  intro he
  cases he

/-! ## The cache of another state -/

theorem cached_congr {c c' : ThreadCache}
    (h : c'.mBuddyCaches = c.mBuddyCaches) : cached c' = cached c := by
  rw [cached, cached, h]

theorem Kept.withCache (h : Kept count a live)
    (hc : c.mBuddyCaches = a.threadCache.mBuddyCaches) :
    Kept count { a with threadCache := c } live := by
  refine h.change ?_ ?_
  · rw [cached_congr hc]
    exact h.pools
  · intro place hp
    rw [hc] at hp
    exact h.places place hp

theorem recordAllocNumaId_caches (c : ThreadCache) (p n : Nat) :
    (recordAllocNumaId c p n).mBuddyCaches = c.mBuddyCaches := by
  rw [recordAllocNumaId]
  dsimp only
  split_ifs <;> rfl

theorem getAllocNumaId_caches (c : ThreadCache) :
    (getAllocNumaId c).1.mBuddyCaches = c.mBuddyCaches := by
  rw [getAllocNumaId]
  split_ifs <;> rfl

/-! ## The routes -/

theorem directAlloc_spec (h : Kept count a live) (n order : Nat) :
    (Served count live order (directAlloc a n order) ∧
      Room a.mBuddyNumaPool (live ++ cached a.threadCache) order) ∨
    (Refused count live (directAlloc a n order) ∧
      ¬ Room a.mBuddyNumaPool (live ++ cached a.threadCache) order) := by
  rw [directAlloc]
  rcases buddyAllocFromPool_spec h.pools n order with
    ⟨e, he, hno⟩ | ⟨m', b, hok, hroom, hs⟩
  · rw [he]
    exact Or.inr ⟨⟨e, rfl, h⟩, hno⟩
  · rw [hok]
    exact Or.inl ⟨⟨b, rfl, h.change hs h.places⟩, hroom⟩

theorem recordedAlloc_spec (h : Kept count a live) (n order : Nat) :
    Served count live order (recordedAlloc a n order) ∨
    ∃ e, recordedAlloc a n order = (a, .error e) ∧
      ¬ Room a.mBuddyNumaPool (live ++ cached a.threadCache) order := by
  rw [recordedAlloc]
  rcases buddyAllocFromPool_spec h.pools n order with
    ⟨e, he, hno⟩ | ⟨m', b, hok, hroom, hs⟩
  · rw [he]
    exact Or.inr ⟨e, rfl, hno⟩
  · rw [hok]
    have hgiven : Kept count { a with mBuddyNumaPool := m' }
        (⟨b, order⟩ :: live) := h.change hs h.places
    exact Or.inl ⟨b, rfl,
      hgiven.withCache (recordAllocNumaId_caches a.threadCache n b.area)⟩

/-- **FLUSH AND RETRY**: what is in the cache is free before the pools are
    asked again. -/
theorem flushAndAlloc_spec (h : Kept count a live) (n order : Nat) :
    Served count live order (flushAndAlloc a n order) ∨
    (Refused count live (flushAndAlloc a n order) ∧
      ¬ Room a.mBuddyNumaPool live order) := by
  obtain ⟨hok, hkept, hempty⟩ := flushBuddyCaches_spec h
  rw [flushAndAlloc]
  rw [if_neg (by rw [hok]; simp)]
  rcases recordedAlloc_spec hkept n order with hserved | ⟨e, he, hno⟩
  · exact Or.inl hserved
  · rw [he]
    rw [hempty, List.append_nil] at hno
    exact Or.inr ⟨⟨e, rfl, hkept⟩,
      fun hroom => hno ((room_congr h.pools hkept.pools).mp hroom)⟩

theorem buddyAllocDirect_spec (h : Kept count a live) (order n : Nat) :
    Served count live order (buddyAllocDirect a order n) ∨
    (Refused count live (buddyAllocDirect a order n) ∧
      ¬ Room a.mBuddyNumaPool live order) := by
  rw [buddyAllocDirect]
  rcases recordedAlloc_spec h n order with hserved | ⟨e, he, -⟩
  · obtain ⟨b, hb, hkept⟩ := hserved
    generalize recordedAlloc a n order = r at hb hkept ⊢
    obtain ⟨a', answer⟩ := r
    cases hb
    exact Or.inl ⟨b, rfl, hkept⟩
  · rw [he]
    exact flushAndAlloc_spec h n order

/-- The blocks of a batch beside the one that is returned go to the cache, or
    back to the pools. -/
theorem buddyAllocFromThreadCacheMiss_spec (h : Kept count a live)
    (ho : order ≤ buddyThreadCacheMaxOrder) (n : Nat) :
    Served count live order (buddyAllocFromThreadCacheMiss a order n) ∨
    (Refused count live (buddyAllocFromThreadCacheMiss a order n) ∧
      ¬ Room a.mBuddyNumaPool live order) := by
  obtain ⟨hlen, hs⟩ := buddyAllocBatchFromPool_spec h.pools n order
    buddyCacheRefillCount
  rw [buddyAllocFromThreadCacheMiss]
  generalize buddyAllocBatchFromPool a.mBuddyNumaPool n order
    buddyCacheRefillCount = r at hlen hs ⊢
  obtain ⟨m', as⟩ := r
  dsimp only at hlen hs ⊢
  rw [← List.append_assoc] at hs
  have hbatch : Kept count { a with mBuddyNumaPool := m' }
      (as.map (⟨·, order⟩) ++ live) := h.change hs h.places
  cases hlast : as.getLast? with
  | none =>
      rw [List.getLast?_eq_none_iff] at hlast
      rw [hlast] at hbatch
      rcases flushAndAlloc_spec hbatch n order with hserved | ⟨href, hno⟩
      · exact Or.inl hserved
      · exact Or.inr ⟨href,
          fun hroom => hno ((room_congr h.pools hbatch.pools).mp hroom)⟩
  | some b =>
      left
      dsimp only
      have hsplit := List.dropLast_append_getLast? b hlast
      have hone : Kept count { a with mBuddyNumaPool := m' }
          (as.dropLast.map (⟨·, order⟩) ++ ⟨b, order⟩ :: live) := by
        refine hbatch.perm ?_
        conv_rhs => rw [← hsplit]
        rw [List.map_append, List.append_assoc]
        exact .refl _
      have hhead := fun d hd => hone.header (d := d) hd
      dsimp only at hhead
      have hb := (hhead ⟨b, order⟩
        (List.mem_append_right _ (List.mem_cons_self ..))).2.1
      dsimp only at hb
      rw [hb]
      cases hadd : addBatchBuddyBlocksToCache m' a.threadCache order
        as.dropLast with
      | error e =>
          dsimp only
          obtain ⟨m'', hret, hkept⟩ := returnBatch_spec hone (by
            rw [List.length_dropLast]
            have : buddyCacheRefillCount ≤ buddyCacheLimitPerThread := by decide
            omega)
          rw [hret, if_neg (by simp)]
          exact ⟨b, rfl, hkept⟩
      | ok c =>
          dsimp only
          rw [addBatchBuddyBlocksToCache, if_neg (by omega)] at hadd
          dsimp only at hadd
          split at hadd
          · cases hadd
          · cases hadd
            obtain ⟨hperm, hplaces⟩ := pushBlocks_spec (m := m') ho as.dropLast
              a.threadCache h.places (by
                intro d hd
                have hmem : (⟨d, order⟩ : Held) ∈
                    as.dropLast.map (⟨·, order⟩) ++ ⟨b, order⟩ :: live :=
                  List.mem_append_left _ (List.mem_map_of_mem
                    (f := fun d => (⟨d, order⟩ : Held)) hd)
                obtain ⟨-, hn, -, hsmall⟩ := hhead _ hmem
                rw [hn]
                exact hsmall)
            have hcached : Kept count
                { a with
                  mBuddyNumaPool := m'
                  threadCache := as.dropLast.foldl (pushBlock m' order)
                    a.threadCache } (⟨b, order⟩ :: live) := by
              refine h.change (hone.pools.perm ?_) hplaces
              refine (hperm.append_left _).trans ?_
              rw [List.append_assoc]
              exact List.perm_append_comm_assoc _ _ _
            exact ⟨b, rfl, hcached.withCache (recordAllocNumaId_caches _ n _)⟩

/-- A block of the cache is handed out. -/
theorem takeCached_spec (h : Kept count a live)
    (ht : (cached a.threadCache).Perm (⟨b, order⟩ :: cached c) ∧ Places c) :
    Served count live order (takeCached a c b) := by
  obtain ⟨hperm, hplaces⟩ := ht
  have hkept : Kept count { a with threadCache := c }
      (⟨b, order⟩ :: live) := by
    refine h.change (h.pools.perm ?_) hplaces
    refine .trans ?_ (hperm.symm.append_left live)
    exact List.perm_middle.symm
  refine ⟨b, ?_, hkept⟩
  rw [takeCached]
  have hb := (hkept.header (List.mem_cons_self ..)).2.1
  dsimp only at hb
  rw [hb]

/-! ## The calls -/

/-- A size that is admitted has an order. -/
theorem getBuddyAllocOrder_eq (h : Kept count a live)
    (hsize : size ≤ a.mBuddyMaxAllocSize) :
    getBuddyAllocOrder a size = .ok (orderFor a size) := by
  have hmax := h.maxSize
  rw [getBuddyAllocOrder, if_neg (by omega), if_neg]
  rintro (hzero | hbig)
  · exact h.unitSize hzero
  · omega

/-- **MMSALLOC** refuses only when there is no room beside the blocks of the
    program. -/
theorem mmsAlloc_spec (h : Kept count a live)
    (hsize : size ≤ a.mBuddyMaxAllocSize) :
    Served count live (orderFor a size) (mmsAlloc a size) ∨
    (Refused count live (mmsAlloc a size) ∧
      ¬ Room a.mBuddyNumaPool live (orderFor a size)) := by
  rw [mmsAlloc, getBuddyAllocOrder_eq h hsize]
  dsimp only
  have hnuma := h.withCache (getAllocNumaId_caches a.threadCache)
  by_cases ho : orderFor a size ≤ buddyThreadCacheMaxOrder
  · rw [if_pos ho]
    cases hget : getOneBuddyBlockFromCache a.threadCache (orderFor a size) with
    | some r =>
        exact Or.inl (takeCached_spec h
          (getOneBuddyBlockFromCache_spec h.places hget))
    | none =>
        dsimp only
        rw [if_pos ho]
        exact buddyAllocFromThreadCacheMiss_spec hnuma ho _
  · rw [if_neg ho]
    dsimp only
    rw [if_neg ho]
    exact buddyAllocDirect_spec hnuma _ _

theorem updateNumaId_pool (a : MmsMemAllocator) (n size : Nat) :
    (updateNumaId a n).1.mBuddyNumaPool = a.mBuddyNumaPool ∧
      (updateNumaId a n).1.threadCache = a.threadCache ∧
      orderFor (updateNumaId a n).1 size = orderFor a size ∧
      (updateNumaId a n).1.mBuddyMaxAllocSize = a.mBuddyMaxAllocSize := by
  rw [updateNumaId]
  split <;> exact ⟨rfl, rfl, rfl, rfl⟩

theorem Kept.updateNumaId (h : Kept count a live) (n : Nat) :
    Kept count (updateNumaId a n).1 live := by
  rw [Allocator.updateNumaId]
  split
  · exact h
  · exact ⟨h.pools, h.places, h.nodup, h.ids, h.small, h.unitSize, h.maxSize⟩

/-- **MMSALLOCPREFERNUMA**: for a small order it is as `MmsAlloc`, for a large
    one it refuses whenever there is no room beside the blocks of the program
    and the cached blocks. -/
theorem mmsAllocPreferNuma_spec (h : Kept count a live)
    (hsize : size ≤ a.mBuddyMaxAllocSize) (n : Nat) :
    (orderFor a size ≤ buddyThreadCacheMaxOrder ∧
      (Served count live (orderFor a size) (mmsAllocPreferNuma a size n) ∨
        (Refused count live (mmsAllocPreferNuma a size n) ∧
          ¬ Room a.mBuddyNumaPool live (orderFor a size)))) ∨
    (buddyThreadCacheMaxOrder < orderFor a size ∧
      ((Served count live (orderFor a size) (mmsAllocPreferNuma a size n) ∧
        Room a.mBuddyNumaPool (live ++ cached a.threadCache)
          (orderFor a size)) ∨
        (Refused count live (mmsAllocPreferNuma a size n) ∧
          ¬ Room a.mBuddyNumaPool (live ++ cached a.threadCache)
            (orderFor a size)))) := by
  obtain ⟨hpool, hcache, horder, hmax⟩ := updateNumaId_pool a n size
  have hkept := h.updateNumaId n
  rw [mmsAllocPreferNuma]
  generalize hr : updateNumaId a n = r at *
  rw [← hpool, ← hcache, ← horder]
  rw [buddyAllocPreferNuma, getBuddyAllocOrder_eq hkept (by omega)]
  dsimp only
  by_cases ho : orderFor r.1 size ≤ buddyThreadCacheMaxOrder
  · left
    refine ⟨ho, ?_⟩
    rw [if_pos ho]
    cases hget : getOneBuddyBlockFromCachePreferNuma r.1.threadCache
      (orderFor r.1 size) r.2 with
    | some q =>
        exact Or.inl (takeCached_spec hkept
          (getOneBuddyBlockFromCachePreferNuma_spec hkept.places hget))
    | none =>
        dsimp only
        rw [if_pos ho]
        exact buddyAllocFromThreadCacheMiss_spec hkept ho _
  · right
    refine ⟨Nat.lt_of_not_le ho, ?_⟩
    rw [if_neg ho]
    dsimp only
    rw [if_neg ho]
    exact directAlloc_spec hkept _ _

/-! ## MmsFree -/

theorem buddyFree_spec (h : Kept count a (⟨b, order⟩ :: live)) :
    (buddyFree a b).2 = .ok ∧ Kept count (buddyFree a b).1 live := by
  have hb := (h.header (List.mem_cons_self ..)).2.1
  obtain ⟨m', hfree, hs⟩ := freeToPool_spec h.pools
  rw [buddyFree]
  dsimp only at hb
  rw [hb, hfree]
  exact ⟨rfl, h.change hs h.places⟩

theorem addOneBuddyBlockToCache_spec (h : Kept count a (⟨b, order⟩ :: live))
    (hadd : addOneBuddyBlockToCache a.mBuddyNumaPool a.threadCache order b =
      .ok c) : Kept count { a with threadCache := c } live := by
  rw [addOneBuddyBlockToCache] at hadd
  split at hadd
  · cases hadd
  split at hadd
  · cases hadd
  · rename_i ho _
    cases hadd
    obtain ⟨-, hn, -, hsmall⟩ := h.header (List.mem_cons_self ..)
    obtain ⟨hperm, hplaces⟩ := pushBlock_spec (m := a.mBuddyNumaPool) h.places
      (Nat.le_of_not_lt ho) (by rw [hn]; exact hsmall)
    refine h.change (h.pools.perm ?_) hplaces
    exact (hperm.append_left live).trans List.perm_middle

/-- **FREE**: a block of the program is always taken back. -/
theorem mmsFree_spec (h : Kept count a (⟨b, order⟩ :: live)) :
    (mmsFree a b).2 = .ok ∧ Kept count (mmsFree a b).1 live := by
  obtain ⟨hord, hn, -, hsmall⟩ := h.header (List.mem_cons_self ..)
  dsimp only at hord hn hsmall
  rw [mmsFree]
  dsimp only
  rw [hord]
  by_cases ho : order > buddyThreadCacheMaxOrder
  · rw [if_pos ho]
    exact buddyFree_spec h
  rw [if_neg ho]
  cases hadd : addOneBuddyBlockToCache a.mBuddyNumaPool a.threadCache order b
    with
  | ok c => exact ⟨rfl, addOneBuddyBlockToCache_spec h hadd⟩
  | error e =>
      dsimp only
      generalize hr : getBatchBuddyBlocksFromCachePreferNuma a.threadCache order
        (headerAt a.mBuddyNumaPool b).numaId buddyCacheDrainCount = r
      rw [hn] at hr
      obtain ⟨hperm, hplaces, hcount, -⟩ := getBatch_spec h.places
        (mem_cachePlaces.mpr ⟨Nat.le_of_not_lt ho, hsmall⟩) _ hr
      have hdrained : Kept count { a with threadCache := r.1 }
          (r.2.map (⟨·, order⟩) ++ ⟨b, order⟩ :: live) := by
        refine h.change (h.pools.perm ?_) hplaces
        rw [List.append_assoc]
        refine (List.perm_append_comm_assoc _ _ _).trans ?_
        exact hperm.symm.append_left _
      obtain ⟨m', hret, hkept⟩ := returnBatch_spec hdrained (by
        have : buddyCacheDrainCount ≤ buddyCacheLimitPerThread := by decide
        omega)
      rw [hret, if_neg (by simp)]
      dsimp only
      cases hadd' : addOneBuddyBlockToCache m' r.1 order b with
      | ok c => exact ⟨rfl, addOneBuddyBlockToCache_spec hkept hadd'⟩
      | error e => exact buddyFree_spec hkept

end UbsIo.Allocator
