import UbsIo.Lib.Holdings
import UbsIo.Allocator.Pools

/-! # What every call keeps

    `Kept count a live` is the invariant between two calls and inside them:
    the pools are sound with the blocks of the program and those of the cache
    together, and the cache has blocks only where a flush looks for them.
    Blocks a running call has in its hands are in `live`, so each function of
    the allocator moves blocks from one side to another. -/

namespace UbsIo.Allocator

open UbsIo.Lib UbsIo.Buddy

/-- The lists of the cache that a flush does not visit are empty. -/
def Places (c : ThreadCache) : Prop :=
  ∀ place, c.mBuddyCaches place ≠ [] → place ∈ cachePlaces

structure Kept (count : Nat → Option Nat) (a : MmsMemAllocator)
    (live : List Held) : Prop where
  pools : PoolsSound count a.mBuddyNumaPool (live ++ cached a.threadCache)
  places : Places a.threadCache
  nodup : a.mNumaId.Nodup
  ids : ∀ n, n ∈ a.mNumaId ↔ count n ≠ none
  small : ∀ n, count n ≠ none → n < maxNumasNum
  unitSize : a.mBuddyUnitSize ≠ 0
  maxSize : a.mBuddyMaxAllocSize + sizeofBlockHeader ≤ uint64Max

variable {count : Nat → Option Nat} {a : MmsMemAllocator}
  {live live' : List Held} {c c' : ThreadCache} {m : BuddyNumaPoolManager}
  {n order : Nat} {b : Addr} {as : List Addr}

theorem Kept.perm (h : Kept count a live) (hp : live'.Perm live) :
    Kept count a live' :=
  { h with pools := h.pools.perm (hp.append_right _) }

/-! ## The lists of the cache -/

theorem mem_cachePlaces : (n, order) ∈ cachePlaces ↔
    order ≤ buddyThreadCacheMaxOrder ∧ n < maxNumasNum := by
  rw [cachePlaces, List.mem_flatMap]
  constructor
  · rintro ⟨o, ho, hmem⟩
    obtain ⟨k, hk, heq⟩ := List.mem_map.mp hmem
    cases heq
    exact ⟨Nat.le_of_lt_succ (List.mem_range.mp ho), List.mem_range.mp hk⟩
  · rintro ⟨ho, hn⟩
    exact ⟨order, List.mem_range.mpr (Nat.lt_succ_of_le ho),
      List.mem_map_of_mem (List.mem_range.mpr hn)⟩

theorem nodup_cachePlaces : cachePlaces.Nodup := by decide

/-- The list of one place changes. -/
theorem cached_setCache {place : Nat × Nat} (hp : place ∈ cachePlaces)
    (c : ThreadCache) :
    ∃ rest, (cached c).Perm
        ((c.mBuddyCaches place).map (⟨·, place.2⟩) ++ rest) ∧
      ∀ blocks, (cached (setCache c place blocks)).Perm
        (blocks.map (⟨·, place.2⟩) ++ rest) := by
  obtain ⟨rest, hold, hnew⟩ := flatMap_update nodup_cachePlaces hp
    fun place => (c.mBuddyCaches place).map fun b => (⟨b, place.2⟩ : Held)
  refine ⟨rest, hold, ?_⟩
  intro blocks
  refine .trans (.of_eq ?_) (hnew _)
  refine List.flatMap_congr fun other _ => ?_
  show ((Function.update c.mBuddyCaches place blocks) other).map _ = _
  rw [Function.update_apply, Function.update_apply]
  split
  · rename_i heq
    rw [heq]
  · rfl

theorem Places.set (h : Places c) {place : Nat × Nat}
    (hp : place ∈ cachePlaces) (blocks : List Addr) :
    Places (setCache c place blocks) := by
  intro other hother
  by_cases heq : other = place
  · rw [heq]
    exact hp
  · refine h other ?_
    rw [← Function.update_of_ne heq blocks c.mBuddyCaches]
    exact hother

theorem popBlock_spec {place : Nat × Nat} (h : Places c)
    (hpop : popBlock c place = some (c', b)) :
    (cached c).Perm (⟨b, place.2⟩ :: cached c') ∧ Places c' := by
  rw [popBlock, Option.map_eq_some_iff] at hpop
  obtain ⟨last, hlast, heq⟩ := hpop
  cases heq
  have hsplit := List.dropLast_append_getLast? b hlast
  have hp : place ∈ cachePlaces := by
    refine h place ?_
    intro hnil
    rw [hnil] at hlast
    cases hlast
  refine ⟨?_, h.set hp _⟩
  obtain ⟨rest, hold, hnew⟩ := cached_setCache hp c
  refine hold.trans ?_
  rw [← hsplit, List.map_append, List.append_assoc]
  rw [hsplit]
  exact List.perm_middle.trans ((hnew _).symm.cons _)

/-- `GetOneBuddyBlockFromCache` takes a block of the order, wherever it is. -/
theorem getOneBuddyBlockFromCache_spec (h : Places c)
    (hget : getOneBuddyBlockFromCache c order = some (c', b)) :
    (cached c).Perm (⟨b, order⟩ :: cached c') ∧ Places c' := by
  rw [getOneBuddyBlockFromCache] at hget
  split at hget
  · cases hget
  split at hget
  · rename_i r hr
    rw [hget] at hr
    exact popBlock_spec h hr
  · obtain ⟨numaId, -, hpop⟩ := List.exists_of_findSome?_eq_some hget
    split at hpop
    · cases hpop
    · exact popBlock_spec h hpop

theorem getOneBuddyBlockFromCachePreferNuma_spec (h : Places c)
    (hget : getOneBuddyBlockFromCachePreferNuma c order n = some (c', b)) :
    (cached c).Perm (⟨b, order⟩ :: cached c') ∧ Places c' := by
  rw [getOneBuddyBlockFromCachePreferNuma] at hget
  split at hget
  · cases hget
  · exact popBlock_spec h hget

/-- A block is put where a flush finds it. -/
theorem pushBlock_spec (h : Places c) (ho : order ≤ buddyThreadCacheMaxOrder)
    (hn : (headerAt m b).numaId < maxNumasNum) :
    (cached (pushBlock m order c b)).Perm (⟨b, order⟩ :: cached c) ∧
      Places (pushBlock m order c b) := by
  have hp : placeOf m c order b ∈ cachePlaces := by
    rw [placeOf, getCacheNumaId, if_pos hn]
    exact mem_cachePlaces.mpr ⟨ho, hn⟩
  refine ⟨?_, h.set hp _⟩
  obtain ⟨rest, hold, hnew⟩ := cached_setCache hp c
  refine (hnew _).trans ?_
  rw [List.map_append, List.append_assoc]
  exact List.perm_middle.trans (hold.symm.cons _)

theorem pushBlocks_spec (ho : order ≤ buddyThreadCacheMaxOrder) :
    ∀ (as : List Addr) (c : ThreadCache), Places c →
      (∀ b ∈ as, (headerAt m b).numaId < maxNumasNum) →
      (cached (as.foldl (pushBlock m order) c)).Perm
          (as.map (⟨·, order⟩) ++ cached c) ∧
        Places (as.foldl (pushBlock m order) c) := by
  intro as
  induction as with
  | nil => exact fun c h _ => ⟨.refl _, h⟩
  | cons b as ih =>
      intro c h hn
      obtain ⟨hperm, hplaces⟩ := pushBlock_spec h ho
        (hn b (List.mem_cons_self ..))
      obtain ⟨hrest, hplaces'⟩ := ih (pushBlock m order c b) hplaces
        fun d hd => hn d (List.mem_cons_of_mem _ hd)
      refine ⟨hrest.trans ((hperm.append_left _).trans ?_), hplaces'⟩
      exact List.perm_middle

/-- `GetBatchBuddyBlocksFromCachePreferNuma` takes blocks of the order. -/
theorem getBatch_spec (h : Places c) (hp : (n, order) ∈ cachePlaces)
    (count : Nat) {r : ThreadCache × List Addr}
    (hr : getBatchBuddyBlocksFromCachePreferNuma c order n count = r) :
    (cached c).Perm (r.2.map (⟨·, order⟩) ++ cached r.1) ∧ Places r.1 ∧
      r.2.length ≤ count ∧
      (r.1.mBuddyCaches (n, order)).length =
        (c.mBuddyCaches (n, order)).length -
          min count (c.mBuddyCaches (n, order)).length ∧
      ∀ other, other ≠ (n, order) →
        r.1.mBuddyCaches other = c.mBuddyCaches other := by
  obtain ⟨ho, hn⟩ := mem_cachePlaces.mp hp
  rw [getBatchBuddyBlocksFromCachePreferNuma, if_neg (by omega),
    getCacheNumaId, if_pos hn] at hr
  dsimp only at hr
  subst hr
  generalize hk : (c.mBuddyCaches (n, order)).length -
    min count (c.mBuddyCaches (n, order)).length = k
  refine ⟨?_, h.set hp _, ?_, ?_, ?_⟩
  · obtain ⟨rest, hold, hnew⟩ := cached_setCache hp c
    refine hold.trans (.trans ?_ ((hnew _).symm.append_left _))
    dsimp only
    rw [← List.append_assoc, ← List.map_append]
    refine List.Perm.append_right rest (List.Perm.map _ ?_)
    refine .trans (.of_eq (List.take_append_drop k _).symm) ?_
    exact List.perm_append_comm
  · rw [List.length_drop]
    omega
  · have hself : (setCache c (n, order)
        ((c.mBuddyCaches (n, order)).take k)).mBuddyCaches (n, order) =
          (c.mBuddyCaches (n, order)).take k := Function.update_self ..
    rw [hself, List.length_take]
    omega
  · intro other hne
    exact Function.update_of_ne hne _ _

/-! ## Blocks go back to the pools -/

/-- A block in somebody's hands is of an area of the allocator, and its header
    says which. -/
theorem Kept.header (h : Kept count a live) {d : Held} (hd : d ∈ live) :
    (headerAt a.mBuddyNumaPool d.addr).order = d.order ∧
      (headerAt a.mBuddyNumaPool d.addr).numaId = d.addr.area ∧
      d.addr.area ∈ a.mNumaId ∧ d.addr.area < maxNumasNum := by
  have hmem := List.mem_append_left (cached a.threadCache) hd
  obtain ⟨ho, hn⟩ := h.pools.header hmem
  have harea := h.pools.area d hmem
  exact ⟨ho, hn, (h.ids _).mpr harea, h.small _ harea⟩

/-- The pools and the cache change. -/
theorem Kept.change (h : Kept count a live)
    {m' : BuddyNumaPoolManager} (hs : PoolsSound count m' (live' ++ cached c'))
    (hp : Places c') :
    Kept count { a with mBuddyNumaPool := m', threadCache := c' } live' :=
  ⟨hs, hp, h.nodup, h.ids, h.small, h.unitSize, h.maxSize⟩

/-- The blocks are freed area by area. -/
theorem returnLoop_spec {m₀ : BuddyNumaPoolManager} {held : List Held}
    (hhead : ∀ b ∈ as, (headerAt m₀ b).numaId = b.area) :
    ∀ (ids : List Nat) (m : BuddyNumaPoolManager), ids.Nodup →
      PoolsSound count m
        ((as.filter (·.area ∈ ids)).map (⟨·, order⟩) ++ held) →
      (returnLoop m₀ order as ids m).2 = .ok ∧
        PoolsSound count (returnLoop m₀ order as ids m).1 held := by
  intro ids
  induction ids with
  | nil =>
      intro m _ h
      rw [List.filter_eq_nil_iff.mpr (by simp)] at h
      exact ⟨rfl, h⟩
  | cons n ids ih =>
      intro m hnodup h
      obtain ⟨hn, hids⟩ := List.nodup_cons.mp hnodup
      rw [returnLoop]
      have hgroup : (as.filter fun b => (headerAt m₀ b).numaId == n) =
          as.filter (·.area = n) := by
        refine List.filter_congr ?_
        intro b hb
        rw [hhead b hb]
        rfl
      rw [hgroup]
      -- the blocks of this area come first
      have hperm : List.Perm (α := Held)
          ((as.filter (·.area = n)).map (⟨·, order⟩) ++
            ((as.filter (·.area ∈ ids)).map (⟨·, order⟩) ++ held))
          ((as.filter (·.area ∈ n :: ids)).map (⟨·, order⟩) ++ held) := by
        rw [← List.append_assoc, ← List.map_append]
        refine List.Perm.append_right held (List.Perm.map _ ?_)
        have hsplit := List.filter_append_perm (·.area = n)
          (as.filter (·.area ∈ n :: ids))
        rw [List.filter_filter, List.filter_filter] at hsplit
        refine .trans (.of_eq ?_) hsplit
        congr 1
        · refine List.filter_congr fun b _ => ?_
          rw [Bool.eq_iff_iff]
          simp
          tauto
        · refine List.filter_congr fun b _ => ?_
          rw [Bool.eq_iff_iff]
          simp
          constructor
          · intro hb
            exact ⟨fun heq => hn (heq ▸ hb), Or.inr hb⟩
          · rintro ⟨hne, heq | hb⟩
            · exact absurd heq hne
            · exact hb
      have hfirst := h.perm hperm
      by_cases hnil : as.filter (·.area = n) = []
      · rw [if_pos hnil]
        rw [hnil] at hfirst
        exact ih m hids hfirst
      · rw [if_neg hnil]
        obtain ⟨m', hfree, hs⟩ := freeBatchToPool_spec (n := n) hfirst (by
          intro b hb
          exact of_decide_eq_true (List.mem_filter.mp hb).2) hnil
        rw [hfree]
        exact ih m' hids hs

/-- **RETURN**: a batch of at most 64 blocks of one order goes back to the
    pools. -/
theorem returnBatch_spec (h : Kept count a (as.map (⟨·, order⟩) ++ live))
    (hlen : as.length ≤ buddyCacheLimitPerThread) :
    ∃ m', returnBatchBuddyBlocksToPool a as =
        ({ a with mBuddyNumaPool := m' }, .ok) ∧
      Kept count { a with mBuddyNumaPool := m' } live := by
  have hmem : ∀ b ∈ as, (⟨b, order⟩ : Held) ∈
      as.map (⟨·, order⟩) ++ live := by
    intro b hb
    exact List.mem_append_left _
      (List.mem_map_of_mem (f := fun b => (⟨b, order⟩ : Held)) hb)
  have hhead : ∀ b ∈ as, _ := fun b hb => h.header (hmem b hb)
  dsimp only at hhead
  cases as with
  | nil => exact ⟨_, rfl, h⟩
  | cons first rest =>
      rw [returnBatchBuddyBlocksToPool, if_neg (by omega)]
      dsimp only
      rw [(hhead first (List.mem_cons_self ..)).1]
      generalize hall : first :: rest = as at *
      have hgood : ¬ (as.any fun b =>
          (headerAt a.mBuddyNumaPool b).numaId ∉ a.mNumaId ||
            (headerAt a.mBuddyNumaPool b).order != order) := by
        rw [List.any_eq_true]
        rintro ⟨b, hb, hbad⟩
        obtain ⟨ho, hn, hid, -⟩ := hhead b hb
        rw [ho, hn] at hbad
        simp [hid] at hbad
      rw [if_neg hgood]
      have hkeep : as.filter (·.area ∈ a.mNumaId) = as := by
        rw [List.filter_eq_self]
        intro b hb
        exact decide_eq_true (hhead b hb).2.2.1
      have hpools := h.pools
      rw [List.append_assoc, ← hkeep] at hpools
      obtain ⟨hok, hs⟩ := returnLoop_spec
        (fun b hb => (hhead b hb).2.1) a.mNumaId a.mBuddyNumaPool h.nodup hpools
      rw [hok]
      exact ⟨_, rfl, h.change hs h.places⟩

/-- The list of a place goes back to the pools. -/
theorem flushPlace_spec {place : Nat × Nat} (hp : place ∈ cachePlaces) :
    ∀ (fuel : Nat) (a : MmsMemAllocator), Kept count a live →
      (a.threadCache.mBuddyCaches place).length < fuel →
      (flushPlace place fuel a).2 = .ok ∧
        Kept count (flushPlace place fuel a).1 live ∧
        (flushPlace place fuel a).1.threadCache.mBuddyCaches place = [] ∧
        ∀ other, other ≠ place →
          (flushPlace place fuel a).1.threadCache.mBuddyCaches other =
            a.threadCache.mBuddyCaches other := by
  intro fuel
  induction fuel with
  | zero => exact fun a _ hlen => absurd hlen (Nat.not_lt_zero _)
  | succ fuel ih =>
      intro a h hlen
      rw [flushPlace]
      by_cases hnil : a.threadCache.mBuddyCaches place = []
      · rw [if_pos hnil]
        exact ⟨rfl, h, hnil, fun _ _ => rfl⟩
      · rw [if_neg hnil]
        dsimp only
        generalize hr : getBatchBuddyBlocksFromCachePreferNuma a.threadCache
          place.2 place.1 buddyCacheLimitPerThread = r
        obtain ⟨hperm, hplaces, hcount, hleft, hothers⟩ :=
          getBatch_spec h.places hp _ hr
        have htaken : Kept count { a with threadCache := r.1 }
            (r.2.map (⟨·, place.2⟩) ++ live) := by
          refine h.change (h.pools.perm ?_) hplaces
          rw [List.append_assoc]
          refine (List.perm_append_comm_assoc _ _ _).trans ?_
          exact hperm.symm.append_left live
        obtain ⟨m', hret, hkept⟩ := returnBatch_spec htaken hcount
        rw [hret, if_neg (by simp)]
        have hpos := List.length_pos_of_ne_nil hnil
        have hbatch : 0 < buddyCacheLimitPerThread := by decide
        obtain ⟨hok, hkept', hempty, hothers'⟩ := ih _ hkept (by
          show (r.1.mBuddyCaches (place.1, place.2)).length < fuel
          rw [hleft]
          change 0 < (a.threadCache.mBuddyCaches (place.1, place.2)).length at hpos
          change (a.threadCache.mBuddyCaches (place.1, place.2)).length <
            fuel + 1 at hlen
          omega)
        refine ⟨hok, hkept', hempty, ?_⟩
        intro other hne
        rw [hothers' other hne]
        exact hothers other hne

theorem flushLoop_spec : ∀ (places : List (Nat × Nat)) (a : MmsMemAllocator),
    (∀ place ∈ places, place ∈ cachePlaces) → Kept count a live →
    (flushLoop places a).2 = .ok ∧ Kept count (flushLoop places a).1 live ∧
      ∀ place, place ∈ places ∨ a.threadCache.mBuddyCaches place = [] →
        (flushLoop places a).1.threadCache.mBuddyCaches place = [] := by
  intro places
  induction places with
  | nil =>
      intro a _ h
      refine ⟨rfl, h, ?_⟩
      rintro place (hp | hnil)
      · exact absurd hp List.not_mem_nil
      · exact hnil
  | cons place places ih =>
      intro a hall h
      rw [flushLoop]
      obtain ⟨hok, hkept, hempty, hothers⟩ := flushPlace_spec
        (hall place (List.mem_cons_self ..)) _ a h (Nat.lt_succ_self _)
      rw [if_neg (by rw [hok]; simp)]
      obtain ⟨hok', hkept', hempty'⟩ := ih _
        (fun p hp => hall p (List.mem_cons_of_mem _ hp)) hkept
      refine ⟨hok', hkept', ?_⟩
      intro other hother
      refine hempty' other ?_
      by_cases heq : other = place
      · rw [heq]
        exact Or.inr hempty
      · rw [hothers other heq]
        rcases hother with hother | hother
        · exact Or.inl ((List.mem_cons.mp hother).resolve_left heq)
        · exact Or.inr hother

/-- **FLUSH**: it never fails, and leaves the cache empty. -/
theorem flushBuddyCaches_spec (h : Kept count a live) :
    (flushBuddyCaches a).2 = .ok ∧ Kept count (flushBuddyCaches a).1 live ∧
      cached (flushBuddyCaches a).1.threadCache = [] := by
  obtain ⟨hok, hkept, hempty⟩ :=
    flushLoop_spec cachePlaces a (fun _ hp => hp) h
  refine ⟨hok, hkept, ?_⟩
  refine List.flatMap_eq_nil_iff.mpr ?_
  intro place hp
  exact List.map_eq_nil_iff.mpr (hempty place (Or.inl hp))

end UbsIo.Allocator
