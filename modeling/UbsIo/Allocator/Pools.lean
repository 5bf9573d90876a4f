import UbsIo.Allocator.Calls

/-! # The pools of all areas

    `PoolsSound count m held` says that the pool of every area is sound with
    the blocks of that area among `held`, whoever has them: the program, the
    thread cache, or a call that has taken them from one and not yet given
    them to the other.  The functions of `BuddyNumaPoolManager` move blocks
    between the pools and `held`. -/

namespace UbsIo.Allocator

open UbsIo.Lib UbsIo.Buddy

variable {count : Nat → Option Nat} {m m' : BuddyNumaPoolManager}
  {held held' : List Held} {n order : Nat} {b : Addr}

/-! ## The blocks of an area -/

theorem blocksOf_append (n : Nat) (held held' : List Held) :
    blocksOf n (held ++ held') = blocksOf n held ++ blocksOf n held' := by
  rw [blocksOf, List.filter_append, List.map_append, blocksOf, blocksOf]

theorem blocksOf_perm (h : held.Perm held') :
    (blocksOf n held).Perm (blocksOf n held') :=
  (h.filter _).map _

/-- Blocks that are all of one area. -/
theorem blocksOf_same {as : List Addr} (h : ∀ a ∈ as, a.area = n) :
    blocksOf n (as.map (⟨·, order⟩)) =
      (as.map (·.unit)).map (⟨·, order⟩) := by
  rw [blocksOf, List.filter_eq_self.mpr ?_, List.map_map, List.map_map]
  · rfl
  · intro c hc
    obtain ⟨a, ha, rfl⟩ := List.mem_map.mp hc
    exact beq_iff_eq.mpr (h a ha)

theorem blocksOf_other {as : List Addr} {j : Nat} (h : ∀ a ∈ as, a.area = n)
    (hj : j ≠ n) : blocksOf j (as.map (⟨·, order⟩)) = [] := by
  rw [blocksOf, List.filter_eq_nil_iff.mpr ?_]
  · rfl
  · intro c hc
    obtain ⟨a, ha, rfl⟩ := List.mem_map.mp hc
    rw [beq_iff_eq]
    intro heq
    exact hj (heq.symm.trans (h a ha))

theorem mem_blocksOf {c : Held} (h : c ∈ held) :
    c.block ∈ blocksOf c.addr.area held :=
  List.mem_map_of_mem (List.mem_filter.mpr ⟨h, beq_self_eq_true _⟩)

/-! ## All pools -/

structure PoolsSound (count : Nat → Option Nat) (m : BuddyNumaPoolManager)
    (held : List Held) : Prop where
  /-- The sizes of the pools, which no call changes. -/
  counted : ∀ n, (m.mNumaPools n).map (·.mUnitCount) = count n
  bits : ∀ n k, count n = some k → k < 2 ^ 64
  listed : ∀ n, n ∈ m.order ↔ count n ≠ none
  sound : ∀ n p, m.mNumaPools n = some p →
    Sound ⟨p, blocksOf n held⟩ ∧ p.mNumaId = n
  area : ∀ c ∈ held, count c.addr.area ≠ none

theorem PoolsSound.perm (h : PoolsSound count m held)
    (hp : held'.Perm held) : PoolsSound count m held' := by
  refine ⟨h.counted, h.bits, h.listed, ?_, ?_⟩
  · intro n p hn
    obtain ⟨hs, hid⟩ := h.sound n p hn
    exact ⟨Sound.perm (s := ⟨p, blocksOf n held⟩) hs (blocksOf_perm hp), hid⟩
  · intro c hc
    exact h.area c (hp.mem_iff.mp hc)

theorem PoolsSound.unitCount (h : PoolsSound count m held)
    {p : BuddyNumaMemoryPool} (hn : m.mNumaPools n = some p) :
    count n = some p.mUnitCount := by
  rw [← h.counted n, hn]
  rfl

/-- An area of the allocator has a pool. -/
theorem PoolsSound.pool (h : PoolsSound count m held)
    (hn : count n ≠ none) : ∃ p, m.mNumaPools n = some p := by
  rw [← h.counted n, ne_eq, Option.map_eq_none_iff] at hn
  exact Option.ne_none_iff_exists'.mp hn

/-- What the header of a held block says. -/
theorem PoolsSound.header (h : PoolsSound count m held) {c : Held}
    (hc : c ∈ held) : (headerAt m c.addr).order = c.order ∧
      (headerAt m c.addr).numaId = c.addr.area := by
  obtain ⟨p, hp⟩ := h.pool (h.area c hc)
  obtain ⟨hs, hid⟩ := h.sound _ p hp
  obtain ⟨ho, hn⟩ := hs.header c.block (mem_blocksOf hc)
  rw [headerAt, hp]
  exact ⟨ho, hn.trans hid⟩

/-- **ONE POOL** changes, and with it the blocks of its area. -/
theorem PoolsSound.set (h : PoolsSound count m held)
    {p p' : BuddyNumaMemoryPool} (hn : m.mNumaPools n = some p)
    (hs : Sound ⟨p', blocksOf n held'⟩) (hsame : Same p p')
    (hother : ∀ j, j ≠ n → blocksOf j held' = blocksOf j held)
    (harea : ∀ c ∈ held', count c.addr.area ≠ none) :
    PoolsSound count (setPool m n p') held' := by
  refine ⟨?_, h.bits, h.listed, ?_, harea⟩
  · intro j
    show (Function.update m.mNumaPools n (some p') j).map _ = _
    rw [Function.update_apply]
    split
    · rename_i hj
      rw [Option.map_some, hsame.unitCount, hj]
      exact (h.unitCount hn).symm
    · exact h.counted j
  · intro j q hq
    change Function.update m.mNumaPools n (some p') j = some q at hq
    rw [Function.update_apply] at hq
    split at hq
    · rename_i hj
      cases hq
      rw [hj]
      exact ⟨hs, hsame.numaId.trans (h.sound n p hn).2⟩
    · rename_i hj
      rw [hother j hj]
      exact h.sound j q hq

/-- There is room for a block of the order in the pool of an area. -/
def RoomIn (m : BuddyNumaPoolManager) (held : List Held) (order n : Nat) :
    Prop :=
  ∃ p, m.mNumaPools n = some p ∧ HasRoom ⟨p, blocksOf n held⟩ order

/-- Some pool has an aligned range of the order that no held block lies in. -/
def Room (m : BuddyNumaPoolManager) (held : List Held) (order : Nat) : Prop :=
  ∃ n, RoomIn m held order n

/-- Room depends on the sizes of the pools and the held blocks only. -/
theorem room_congr (h : PoolsSound count m held)
    (h' : PoolsSound count m' held') {blocks : List Held} :
    Room m blocks order ↔ Room m' blocks order := by
  refine exists_congr fun n => ?_
  have hsize : (m.mNumaPools n).map (·.mUnitCount) =
      (m'.mNumaPools n).map (·.mUnitCount) :=
    (h.counted n).trans (h'.counted n).symm
  rw [RoomIn, RoomIn]
  cases hp : m.mNumaPools n with
  | none =>
      rw [hp, Option.map_none, eq_comm, Option.map_eq_none_iff] at hsize
      rw [hsize]
  | some p =>
      rw [hp, Option.map_some, eq_comm, Option.map_eq_some_iff] at hsize
      obtain ⟨p', hp', hcount⟩ := hsize
      rw [hp']
      simp only [Option.some.injEq, exists_eq_left', HasRoom, hcount]

/-! ## Allocation -/

/-- `AllocFromPool` fails only when the pool has no room. -/
theorem allocFromPool_spec (h : PoolsSound count m held) (n order : Nat) :
    (∃ e, allocFromPool m n order = .error e ∧ ¬ RoomIn m held order n) ∨
    ∃ m' b, allocFromPool m n order = .ok (m', b) ∧ b.area = n ∧
      RoomIn m held order n ∧ PoolsSound count m' (⟨b, order⟩ :: held) := by
  rw [allocFromPool]
  cases hp : m.mNumaPools n with
  | none =>
      refine Or.inl ⟨_, rfl, ?_⟩
      rintro ⟨p, hp', -⟩
      rw [hp] at hp'
      cases hp'
  | some p =>
      obtain ⟨hs, -⟩ := h.sound n p hp
      have hiff := hs.alloc_iff_room (h.bits n _ (h.unitCount hp)) order
      have hroom : RoomIn m held order n ↔
          HasRoom ⟨p, blocksOf n held⟩ order := by
        rw [RoomIn, hp]
        simp only [Option.some.injEq, exists_eq_left']
      dsimp only at hiff ⊢
      cases ha : Buddy.alloc p order with
      | error e =>
          refine Or.inl ⟨_, rfl, ?_⟩
          rw [hroom, ← hiff, ha]
          rintro ⟨r, hr⟩
          cases hr
      | ok r =>
          obtain ⟨p', u⟩ := r
          refine Or.inr ⟨_, _, rfl, rfl, hroom.mpr (hiff.mp ⟨_, ha⟩), ?_⟩
          have hun : allocUnlocked p order = some (p', u) := by
            rw [Buddy.alloc] at ha
            split at ha
            · cases ha
            · split at ha
              · rename_i r hr
                cases ha
                exact hr
              · cases ha
          obtain ⟨hs', hsame⟩ := sound_allocUnlocked hs hun
          have hsplit : ∀ j, blocksOf j (⟨⟨n, u⟩, order⟩ :: held) =
              blocksOf j ([(⟨n, u⟩ : Addr)].map (⟨·, order⟩)) ++
                blocksOf j held :=
            fun j => blocksOf_append j [_] held
          have hone : ∀ a ∈ [(⟨n, u⟩ : Addr)], a.area = n := by
            intro a ha'
            rw [List.mem_singleton.mp ha']
          refine h.set hp ?_ hsame ?_ ?_
          · rw [hsplit, blocksOf_same hone]
            exact hs'
          · intro j hj
            rw [hsplit, blocksOf_other hone hj, List.nil_append]
          · intro c hc
            rcases List.mem_cons.mp hc with rfl | hc
            · rw [h.unitCount hp]
              exact Option.some_ne_none _
            · exact h.area c hc

/-- `AllocFromOtherPool` fails only when none of the other pools has room. -/
theorem otherPoolLoop_spec (h : PoolsSound count m held) (numaId order : Nat) :
    ∀ ns : List Nat,
      (∃ e, otherPoolLoop m numaId order ns = .error e ∧
        ∀ n ∈ ns, n ≠ numaId → ¬ RoomIn m held order n) ∨
      ∃ m' b, otherPoolLoop m numaId order ns = .ok (m', b.area, b) ∧
        Room m held order ∧ PoolsSound count m' (⟨b, order⟩ :: held) := by
  intro ns
  induction ns with
  | nil => exact Or.inl ⟨_, rfl, fun n hn => absurd hn List.not_mem_nil⟩
  | cons n ns ih =>
      rw [otherPoolLoop]
      by_cases hn : n = numaId
      · rw [if_pos hn]
        rcases ih with ⟨e, he, hnone⟩ | hok
        · refine Or.inl ⟨e, he, ?_⟩
          intro j hj hne
          rcases List.mem_cons.mp hj with rfl | hj
          · exact absurd hn hne
          · exact hnone j hj hne
        · exact Or.inr hok
      · rw [if_neg hn]
        rcases allocFromPool_spec h n order with
          ⟨e, he, hno⟩ | ⟨m', b, hok, harea, hroom, hs⟩
        · rw [he]
          rcases ih with ⟨e', he', hnone⟩ | hok
          · refine Or.inl ⟨e', he', ?_⟩
            intro j hj hne
            rcases List.mem_cons.mp hj with rfl | hj
            · exact hno
            · exact hnone j hj hne
          · exact Or.inr hok
        · rw [hok]
          refine Or.inr ⟨m', b, ?_, ⟨n, hroom⟩, hs⟩
          rw [harea]

/-- **POOLS**: `BuddyAllocFromPool` succeeds exactly when some pool has
    room. -/
theorem buddyAllocFromPool_spec (h : PoolsSound count m held)
    (preferNumaId order : Nat) :
    (∃ e, buddyAllocFromPool m preferNumaId order = .error e ∧
      ¬ Room m held order) ∨
    ∃ m' b, buddyAllocFromPool m preferNumaId order = .ok (m', b.area, b) ∧
      Room m held order ∧ PoolsSound count m' (⟨b, order⟩ :: held) := by
  rw [buddyAllocFromPool]
  rcases allocFromPool_spec h preferNumaId order with
    ⟨e, he, hno⟩ | ⟨m', b, hok, harea, hroom, hs⟩
  · rw [he, allocFromOtherPool]
    rcases otherPoolLoop_spec h preferNumaId order m.order with
      ⟨e', he', hnone⟩ | hok
    · refine Or.inl ⟨e', he', ?_⟩
      rintro ⟨n, hroom⟩
      by_cases hn : n = preferNumaId
      · exact hno (hn ▸ hroom)
      · refine hnone n ((h.listed n).mpr ?_) hn hroom
        obtain ⟨p, hp, -⟩ := hroom
        rw [h.unitCount hp]
        exact Option.some_ne_none _
    · exact Or.inr hok
  · rw [hok]
    refine Or.inr ⟨m', b, ?_, ⟨_, hroom⟩, hs⟩
    rw [harea]

/-- `AllocBatchFromPool`. -/
theorem allocBatchFromPool_spec (h : PoolsSound count m held)
    (n order requestCount : Nat) :
    (∃ e, allocBatchFromPool m n order requestCount = .error e) ∨
    ∃ m' as, allocBatchFromPool m n order requestCount = .ok (m', as) ∧
      as.length ≤ requestCount ∧
      PoolsSound count m' (as.map (⟨·, order⟩) ++ held) := by
  rw [allocBatchFromPool]
  cases hp : m.mNumaPools n with
  | none => exact Or.inl ⟨_, rfl⟩
  | some p =>
      dsimp only
      cases ha : Buddy.allocBatch p order requestCount with
      | error e => exact Or.inl ⟨_, rfl⟩
      | ok r =>
          have hr : r = allocBatchLoop order requestCount p := by
            rw [Buddy.allocBatch] at ha
            split at ha
            · cases ha
            split at ha
            · cases ha
            · dsimp only at ha
              split at ha
              · cases ha
              · cases ha
                rfl
          subst hr
          refine Or.inr ⟨_, _, rfl, ?_, ?_⟩
          · rw [List.length_map]
            exact length_allocBatchLoop order requestCount p
          · obtain ⟨hs, -⟩ := h.sound n p hp
            obtain ⟨hs', hsame⟩ := sound_allocBatchLoop order requestCount _ hs
            dsimp only at hs' hsame
            have hall : ∀ a ∈ (allocBatchLoop order requestCount p).2.map
                (⟨n, ·⟩ : Nat → Addr), a.area = n := by
              intro a hmem
              obtain ⟨u, -, rfl⟩ := List.mem_map.mp hmem
              rfl
            refine h.set hp ?_ hsame ?_ ?_
            · have hunits : ((allocBatchLoop order requestCount p).2.map
                  (⟨n, ·⟩ : Nat → Addr)).map (·.unit) =
                    (allocBatchLoop order requestCount p).2 := by
                rw [List.map_map]
                exact List.map_id _
              rw [blocksOf_append, blocksOf_same hall, hunits]
              exact hs'
            · intro j hj
              rw [blocksOf_append, blocksOf_other hall hj, List.nil_append]
            · intro c hc
              rcases List.mem_append.mp hc with hc | hc
              · obtain ⟨a, hmem, rfl⟩ := List.mem_map.mp hc
                rw [hall a hmem, h.unitCount hp]
                exact Option.some_ne_none _
              · exact h.area c hc

/-- Blocks that come in two batches. -/
theorem PoolsSound.batches {as bs : List Addr}
    (h : PoolsSound count m
      (bs.map (⟨·, order⟩) ++ (as.map (⟨·, order⟩) ++ held))) :
    PoolsSound count m ((as ++ bs).map (⟨·, order⟩) ++ held) := by
  refine h.perm ?_
  rw [List.map_append, List.append_assoc]
  exact List.perm_append_comm_assoc _ _ _

/-- `AllocBatchFromOtherPool`. -/
theorem otherBatchLoop_spec (numaId order : Nat) :
    ∀ (ns : List Nat) (requestCount : Nat) (m : BuddyNumaPoolManager)
      (held : List Held), PoolsSound count m held →
      (otherBatchLoop numaId order ns requestCount m).2.length ≤
          requestCount ∧
        PoolsSound count (otherBatchLoop numaId order ns requestCount m).1
          ((otherBatchLoop numaId order ns requestCount m).2.map
            (⟨·, order⟩) ++ held) := by
  intro ns
  induction ns with
  | nil => exact fun requestCount m held h => ⟨Nat.zero_le _, h⟩
  | cons n ns ih =>
      intro requestCount m held h
      rw [otherBatchLoop]
      by_cases hzero : requestCount = 0
      · rw [if_pos hzero]
        exact ⟨Nat.zero_le _, h⟩
      rw [if_neg hzero]
      by_cases hn : n = numaId
      · rw [if_pos hn]
        exact ih requestCount m held h
      rw [if_neg hn]
      rcases allocBatchFromPool_spec h n order requestCount with
        ⟨e, he⟩ | ⟨m', as, hok, hlen, hs⟩
      · rw [he]
        cases e with
        | allocFail => exact ih requestCount m held h
        | ok => exact ⟨Nat.zero_le _, h⟩
        | invalidParam => exact ⟨Nat.zero_le _, h⟩
        | err => exact ⟨Nat.zero_le _, h⟩
        | notExists => exact ⟨Nat.zero_le _, h⟩
        | innerRetry => exact ⟨Nat.zero_le _, h⟩
      · rw [hok]
        obtain ⟨hlen', hs'⟩ := ih (requestCount - as.length) m' _ hs
        refine ⟨?_, hs'.batches⟩
        rw [List.length_append]
        omega

/-- **BATCH**: `BuddyAllocBatchFromPool` takes at most as many blocks as were
    asked for. -/
theorem buddyAllocBatchFromPool_spec (h : PoolsSound count m held)
    (preferNumaId order requestCount : Nat) :
    (buddyAllocBatchFromPool m preferNumaId order requestCount).2.length ≤
        requestCount ∧
      PoolsSound count
        (buddyAllocBatchFromPool m preferNumaId order requestCount).1
        ((buddyAllocBatchFromPool m preferNumaId order requestCount).2.map
          (⟨·, order⟩) ++ held) := by
  rw [buddyAllocBatchFromPool]
  rcases allocBatchFromPool_spec h preferNumaId order requestCount with
    ⟨e, he⟩ | ⟨m', as, hok, hlen, hs⟩
  · rw [he]
    have hother := otherBatchLoop_spec preferNumaId order m.order requestCount
      m held h
    cases e with
    | allocFail => exact hother
    | notExists => exact hother
    | ok => exact ⟨Nat.zero_le _, h⟩
    | invalidParam => exact ⟨Nat.zero_le _, h⟩
    | err => exact ⟨Nat.zero_le _, h⟩
    | innerRetry => exact ⟨Nat.zero_le _, h⟩
  · rw [hok]
    dsimp only
    split
    · exact ⟨hlen, hs⟩
    · obtain ⟨hlen', hs'⟩ := otherBatchLoop_spec preferNumaId order m'.order
        (requestCount - as.length) m' _ hs
      refine ⟨?_, hs'.batches⟩
      rw [List.length_append]
      omega

/-! ## Free -/

/-- `FreeToPool` never refuses a held block. -/
theorem freeToPool_spec (h : PoolsSound count m (⟨b, order⟩ :: held)) :
    ∃ m', freeToPool m b.area b = .ok m' ∧ PoolsSound count m' held := by
  have hmem : (⟨b, order⟩ : Held) ∈ (⟨b, order⟩ :: held : List Held) :=
    List.mem_cons_self ..
  obtain ⟨p, hp⟩ := h.pool (h.area _ hmem)
  obtain ⟨hs, -⟩ := h.sound _ p hp
  have hcons : blocksOf b.area (⟨b, order⟩ :: held) =
      ⟨b.unit, order⟩ :: blocksOf b.area held := by
    exact congrArg (List.map Held.block)
      (List.filter_cons_of_pos (beq_self_eq_true b.area))
  rw [hcons] at hs
  have hfirst : (⟨b.unit, order⟩ : Block) ∈
      (⟨b.unit, order⟩ :: blocksOf b.area held : List Block) :=
    List.mem_cons_self ..
  have hord := hs.order_le hfirst
  have hmax := hs.maxOrder_le (h.bits _ _ (h.unitCount hp))
  have hhead := (hs.header _ hfirst).1
  dsimp only at hord hmax hhead
  refine ⟨setPool m b.area (freeUnlocked p b.unit), ?_, ?_⟩
  · rw [freeToPool, hp]
    dsimp only
    rw [Buddy.free, if_neg (by rw [hhead]; omega)]
  · obtain ⟨hs', hsame⟩ := sound_freeUnlocked hs
      (List.mem_map_of_mem (f := (·.unit)) hfirst)
    have hrest := filter_units [⟨b.unit, order⟩] (blocksOf b.area held)
      hs.nodup
    refine h.set hp ?_ hsame ?_ ?_
    · have hlist : (⟨b.unit, order⟩ :: blocksOf b.area held).filter
          (·.unit != b.unit) = blocksOf b.area held := by
        refine Eq.trans (List.filter_congr ?_) hrest
        intro c _
        rw [Bool.eq_iff_iff]
        simp
      rw [← hlist]
      exact hs'
    · intro j hj
      rw [blocksOf, blocksOf, List.filter_cons_of_neg]
      rw [beq_iff_eq]
      exact fun heq => hj heq.symm
    · exact fun c hc => h.area c (List.mem_cons_of_mem _ hc)

/-- `FreeBatchToPool` never refuses blocks of one area and order. -/
theorem freeBatchToPool_spec {as : List Addr}
    (h : PoolsSound count m (as.map (⟨·, order⟩) ++ held))
    (hall : ∀ a ∈ as, a.area = n) (hne : as ≠ []) :
    ∃ m', freeBatchToPool m n order as = .ok m' ∧
      PoolsSound count m' held := by
  obtain ⟨first, rest, rfl⟩ := List.exists_cons_of_ne_nil hne
  have hmem : ∀ a ∈ first :: rest, (⟨a, order⟩ : Held) ∈
      (first :: rest).map (⟨·, order⟩) ++ held := by
    intro a ha
    exact List.mem_append_left _
      (List.mem_map_of_mem (f := fun a => (⟨a, order⟩ : Held)) ha)
  have harea := h.area _ (hmem first (List.mem_cons_self ..))
  rw [show (⟨first, order⟩ : Held).addr.area = n from
    hall first (List.mem_cons_self ..)] at harea
  obtain ⟨p, hp⟩ := h.pool harea
  generalize first :: rest = as at *
  obtain ⟨hs, -⟩ := h.sound _ p hp
  rw [blocksOf_append, blocksOf_same hall] at hs
  have hblock : ∀ u ∈ as.map (·.unit), (⟨u, order⟩ : Block) ∈
      (as.map (·.unit)).map (⟨·, order⟩) ++ blocksOf n held := by
    intro u hu
    exact List.mem_append_left _
      (List.mem_map_of_mem (f := fun u => (⟨u, order⟩ : Block)) hu)
  have hunits : ((as.map (·.unit)).map (⟨·, order⟩ : Nat → Block)).map
      (·.unit) = as.map (·.unit) := by
    rw [List.map_map]
    exact List.map_id _
  have hnodup := hs.nodup
  dsimp only at hnodup
  have hus : (as.map (·.unit)).Nodup := by
    rw [List.map_append, hunits] at hnodup
    exact (List.nodup_append.mp hnodup).1
  have hbits := hs.maxOrder_le (h.bits _ _ (h.unitCount hp))
  dsimp only at hbits
  obtain ⟨u₀, hu₀⟩ := List.exists_mem_of_ne_nil (as.map (·.unit))
    (by simpa using hne)
  have hord := hs.order_le (hblock u₀ hu₀)
  dsimp only at hord
  have hheads : ¬ ((as.map (·.unit)).any fun u =>
      (p.header u).order != order || (p.header u).numaId != p.mNumaId) := by
    rw [List.any_eq_true]
    rintro ⟨u, hu, hbad⟩
    obtain ⟨ho, hid⟩ := hs.header _ (hblock u hu)
    dsimp only at ho hid
    rw [ho, hid] at hbad
    simp at hbad
  obtain ⟨hs', hsame⟩ := sound_freeBatch (as.map (·.unit)) _ hs hus (by
    intro u hu
    exact List.mem_map_of_mem (f := (·.unit)) (hblock u hu))
  refine ⟨setPool m n ((as.map (·.unit)).foldl freeUnlocked p), ?_, ?_⟩
  · rw [freeBatchToPool, hp]
    dsimp only
    rw [Buddy.freeBatch, if_neg (by
      simp only [List.map_eq_nil_iff, hne, or_false]
      omega), if_neg hheads]
  · have hrest := filter_units _ _ hnodup
    rw [hunits] at hrest
    dsimp only at hs'
    rw [hrest] at hs'
    refine h.set hp hs' hsame ?_ ?_
    · intro j hj
      rw [blocksOf_append, blocksOf_other hall hj, List.nil_append]
    · exact fun c hc => h.area c (List.mem_append_right _ hc)

end UbsIo.Allocator
