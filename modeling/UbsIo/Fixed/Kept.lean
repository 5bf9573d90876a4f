import UbsIo.Fixed.Cache

/-! # What every step keeps

    `Kept options order s` is the invariant: every block is in one list of a
    pool, with one thread, or handed out.  Inside a step, `Running` says the
    same while the thread that takes the step has the cache `c` and the blocks
    `hand`; a step is a chain of changes of these two, from the thread as it
    was (`KeptWith.running`) to the thread as it will be (`Running.set`). -/

namespace UbsIo.Fixed

open UbsIo.Lib

/-- The block a call has in its hands while it pushes others. -/
def After.blocks : After → List Nat
  | .free _ block => [block]
  | .give block _ => [block]
  | .leave _ => []

/-- The blocks a call has in its hands. -/
def Pc.blocks : Pc → List Nat
  | .back _ groups next => groups.flatMap (·.2) ++ next.blocks
  | _ => []

/-- All blocks a thread has. -/
def heldBy : Option Thread → List Nat
  | none => []
  | some th => cached th.cache ++ th.pc.blocks

/-- Blocks of a class have room for a size. -/
def Fits (options : MemAllocOptions) (i size : Nat) : Prop :=
  ∀ n b, Home options (n, i) b →
    ∃ x ∈ carved options, x.addr = b ∧ size ≤ x.size

/-- The lists of a class are empty. -/
def NoneOf (c : ThreadCache) (i : Nat) : Prop := ∀ n, c.mMemCaches (n, i) = []

/-- What is left in a cache is in lists the destructor has still to visit. -/
def LeftIn (c : ThreadCache) (places : List (Nat × Nat)) : Prop :=
  ∀ p, c.mMemCaches p ≠ [] → p ∈ places

/-- What holds while a batch of a list goes back to its pool. -/
def AfterGood (options : MemAllocOptions) (c : ThreadCache) (n i : Nat) :
    After → Prop
  | .free j b => j = i ∧ Home options (n, i) b ∧
      (c.mMemCaches (n, i)).length < cacheLimitPerThread
  | .give _ _ => False
  | .leave places => LeftIn c places

/-- What holds where a call waits for a pool. -/
def PcGood (options : MemAllocOptions) (c : ThreadCache) : Pc → Prop
  | .idle => True
  | .first (.alloc size) i prefer =>
      prefer ∈ options.numas.map (·.id) ∧ Fits options i size ∧ NoneOf c i
  | .first (.allocPreferNuma size) i prefer =>
      prefer ∈ options.numas.map (·.id) ∧ Fits options i size ∧
        c.mMemCaches (prefer, i) = []
  | .other call i _ _ => Fits options i call.size ∧ NoneOf c i
  | .back i groups next => ∃ n bs, groups = [(n, bs)] ∧ bs ≠ [] ∧
      (∀ b ∈ bs, Home options (n, i) b) ∧ AfterGood options c n i next
  | .leaving places => LeftIn c places

structure ThreadGood (options : MemAllocOptions) (th : Thread) : Prop where
  cache : CacheGood options th.cache
  pc : PcGood options th.cache th.pc

/-- The lists of the pools. -/
def poolPlaces (options : MemAllocOptions) : List (Nat × Nat) :=
  (options.numas.map (·.id)).flatMap fun n =>
    (List.range options.blocks.length).map fun i => (n, i)

/-- The blocks in the lists of the pools. -/
def poolBlocks (options : MemAllocOptions) (free : Nat × Nat → List Nat) :
    List Nat :=
  (poolPlaces options).flatMap free

/-- Every block that is handed out has room for what was asked for. -/
def LiveGood (options : MemAllocOptions) (live : List (Nat × Nat)) : Prop :=
  ∀ y ∈ live, ∃ x ∈ carved options, x.addr = y.1 ∧ y.2 ≤ x.size

structure KeptWith (options : MemAllocOptions) (order : List Nat) (s : Sys)
    (free : Nat × Nat → List Nat) (held : List Nat) : Prop where
  pools : Pools options order s.mem free
  threads : ∀ t th, s.threads t = some th → ThreadGood options th
  holdings : Holdings (fun t => heldBy (s.threads t)) held
  whole : (poolBlocks options free ++ (held ++ s.live.map (·.1))).Perm
    ((carved options).map (·.addr))
  live : LiveGood options s.live

def Kept (options : MemAllocOptions) (order : List Nat) (s : Sys) : Prop :=
  ∃ free held, KeptWith options order s free held

/-- The invariant inside a step of the thread `t`, which has the cache `c` and
    the blocks `hand`; the other threads have `rest`. -/
structure Running (options : MemAllocOptions) (order : List Nat) (s : Sys)
    (t : Nat) (c : ThreadCache) (hand : List Nat)
    (free : Nat × Nat → List Nat) (rest : List Nat) : Prop where
  pools : Pools options order s.mem free
  cache : CacheGood options c
  others : ∀ u th, u ≠ t → s.threads u = some th → ThreadGood options th
  holdings : ∀ x, Holdings
    (Function.update (fun u => heldBy (s.threads u)) t x) (x ++ rest)
  whole : (poolBlocks options free ++
    ((cached c ++ hand ++ rest) ++ s.live.map (·.1))).Perm
    ((carved options).map (·.addr))
  live : LiveGood options s.live

variable {options : MemAllocOptions} {order : List Nat} {s : Sys}
  {t n i b size : Nat} {a : MmsMemAllocator} {free free' : Nat × Nat → List Nat}
  {p : Nat × Nat} {bs hand hand' held rest : List Nat} {c c' : ThreadCache}
  {pc : Pc} {th : Thread} {answer : Option Answer} {next : After}

/-! ## Into a step and out of it -/

theorem KeptWith.running (h : KeptWith options order s free held)
    (hth : s.threads t = some th) :
    ∃ rest, Running options order s t th.cache th.pc.blocks free rest := by
  obtain ⟨rest, hperm, hupd⟩ := h.holdings.update t
  have hgood := h.threads t th hth
  rw [hth] at hperm
  refine ⟨rest, h.pools, hgood.cache, fun u th _ => h.threads u th, hupd, ?_,
    h.live⟩
  exact ((hperm.symm.append_right _).append_left _).trans h.whole

/-- A thread that is not there has nothing. -/
theorem KeptWith.starting (h : KeptWith options order s free held)
    (hth : s.threads t = none) (hn : n ∈ options.numas.map (·.id)) :
    ∃ rest, Running options order s t (newThreadCache n) [] free rest := by
  obtain ⟨rest, hperm, hupd⟩ := h.holdings.update t
  rw [hth] at hperm
  have hnone : cached (newThreadCache n) = [] :=
    List.flatMap_eq_nil_iff.mpr fun _ _ => rfl
  refine ⟨rest, h.pools,
    ⟨fun _ _ hb => absurd hb List.not_mem_nil, fun _ => Nat.zero_le _, hn, hn⟩,
    fun u th _ => h.threads u th, hupd, ?_, h.live⟩
  rw [hnone]
  exact ((hperm.symm.append_right _).append_left _).trans h.whole

theorem heldBy_update (threads : Nat → Option Thread) (t : Nat)
    (o : Option Thread) :
    (fun u => heldBy (Function.update threads t o u)) =
      Function.update (fun u => heldBy (threads u)) t (heldBy o) := by
  funext u
  by_cases hu : u = t
  · subst hu
    rw [Function.update_self, Function.update_self]
  · rw [Function.update_of_ne hu, Function.update_of_ne hu]

/-- The step ends with the thread as `o`. -/
theorem Running.finish (h : Running options order s t c hand free rest)
    {o : Option Thread} (hgood : ∀ th, o = some th → ThreadGood options th)
    {live : List (Nat × Nat)}
    (hhand : (heldBy o ++ live.map (·.1)).Perm
      (cached c ++ hand ++ s.live.map (·.1)))
    (hlive : LiveGood options live) :
    Kept options order ⟨s.mem, Function.update s.threads t o, live⟩ := by
  refine ⟨free, heldBy o ++ rest, h.pools, fun u th hu => ?_, ?_, ?_, hlive⟩
  · replace hu : Function.update s.threads t o u = some th := hu
    by_cases hut : u = t
    · subst hut
      rw [Function.update_self] at hu
      exact hgood th hu
    · rw [Function.update_of_ne hut] at hu
      exact h.others u th hut hu
  · rw [heldBy_update]
    exact h.holdings _
  · refine .trans (List.Perm.append_left _ ?_) h.whole
    rw [List.perm_iff_count] at hhand ⊢
    intro b
    have hb := hhand b
    simp only [List.count_append] at hb ⊢
    omega

theorem Running.set (h : Running options order s t c hand free rest)
    (pc : Pc) (hpc : PcGood options c pc) (hblocks : pc.blocks = hand) :
    Kept options order (s.set t ⟨c, pc, answer⟩) := by
  refine h.finish (fun th hth => ?_) ?_ h.live
  · cases hth
    exact ⟨h.cache, hpc⟩
  · show (cached c ++ pc.blocks ++ _).Perm _
    rw [hblocks]

theorem Running.fail (h : Running options order s t c [] free rest)
    (e : BResult) : Kept options order (s.fail t c e) :=
  h.set .idle trivial rfl

theorem Running.done (h : Running options order s t c [] free rest) :
    Kept options order (s.set t ⟨c, .idle, some .done⟩) :=
  h.set .idle trivial rfl

theorem Running.give (h : Running options order s t c [b] free rest)
    (hfit : ∃ x ∈ carved options, x.addr = b ∧ size ≤ x.size) :
    Kept options order (s.give t c b size) := by
  have hlive : LiveGood options ((b, size) :: s.live) := by
    intro y hy
    rcases List.mem_cons.mp hy with rfl | hy
    · exact hfit
    · exact h.live y hy
  have hhand : (cached c ++ [] ++ ((b, size) :: s.live).map Prod.fst).Perm
      (cached c ++ [b] ++ s.live.map Prod.fst) := by
    rw [List.append_nil, List.append_assoc]
    exact .refl _
  refine h.finish (fun th hth => ?_) hhand hlive
  cases hth
  exact ⟨h.cache, trivial⟩

/-- A thread ends when its cache is empty. -/
theorem Running.ends (h : Running options order s t c [] free rest)
    (hleft : LeftIn c []) :
    Kept options order
      { s with threads := Function.update s.threads t none } := by
  have hnone : cached c = [] := by
    refine List.flatMap_eq_nil_iff.mpr fun p _ => ?_
    by_contra hne
    exact List.not_mem_nil (hleft p hne)
  refine h.finish (o := none) (fun _ hth => by cases hth) ?_ h.live
  rw [hnone]
  exact .refl _

/-! ## Inside a step -/

theorem Running.withCache (h : Running options order s t c hand free rest)
    (hperm : (cached c' ++ hand').Perm (cached c ++ hand))
    (hc : CacheGood options c') :
    Running options order s t c' hand' free rest :=
  { h with
    cache := hc
    whole := .trans (((hperm.append_right _).append_right _).append_left _)
      h.whole }

/-- The thread prefers another area. -/
theorem Running.withNuma (h : Running options order s t c hand free rest)
    {r : Allocator.ThreadCache}
    (hc : CacheGood options { c with toThreadCache := r }) :
    Running options order s t { c with toThreadCache := r } hand free rest :=
  { h with cache := hc }

theorem Running.withPools (h : Running options order s t c hand free rest)
    (hpools : Pools options order a free')
    (hperm : (poolBlocks options free' ++ hand').Perm
      (poolBlocks options free ++ hand)) :
    Running options order { s with mem := a } t c hand' free' rest := by
  refine { h with pools := hpools, whole := .trans ?_ h.whole }
  rw [List.perm_iff_count] at hperm ⊢
  intro b
  have hb := hperm b
  simp only [List.count_append] at hb ⊢
  omega

theorem nodup_poolPlaces (hadm : Admitted options order) :
    (poolPlaces options).Nodup := by
  refine List.nodup_flatMap.mpr ⟨fun n _ => ?_, hadm.ids.imp fun hne => ?_⟩
  · exact List.nodup_range.map fun _ _ h => congrArg Prod.snd h
  · rw [Function.onFun, List.disjoint_left]
    intro p hp hq
    obtain ⟨i, -, rfl⟩ := List.mem_map.mp hp
    obtain ⟨j, -, heq⟩ := List.mem_map.mp hq
    exact hne (congrArg Prod.fst heq).symm

theorem Home.poolPlace (hb : Home options p b) : p ∈ poolPlaces options :=
  List.mem_flatMap.mpr ⟨p.1, hb.area,
    List.mem_map.mpr ⟨p.2, List.mem_range.mpr hb.class, rfl⟩⟩

/-- A list of a pool changes. -/
theorem poolBlocks_update (hadm : Admitted options order)
    (hp : p ∈ poolPlaces options) (free : Nat × Nat → List Nat) :
    ∃ rest, (poolBlocks options free).Perm (free p ++ rest) ∧
      ∀ bs, (poolBlocks options (Function.update free p bs)).Perm
        (bs ++ rest) :=
  flatMap_update (nodup_poolPlaces hadm) hp free

/-- **POP**, within a step. -/
theorem Running.getBatchBlocks (hadm : Admitted options order)
    (h : Running options order s t c [] free rest) (n i : Nat) :
    ∃ free', Running options order
        { s with mem := (getBatchBlocks s.mem n i).1 } t c
        (Fixed.getBatchBlocks s.mem n i).2 free' rest ∧
      (∀ b ∈ (Fixed.getBatchBlocks s.mem n i).2, Home options (n, i) b) ∧
      (Fixed.getBatchBlocks s.mem n i).2.length ≤ fixedCacheBatchCount := by
  obtain ⟨hpools, htake⟩ := getBatchBlocks_spec h.pools n i
  refine ⟨_, h.withPools hpools ?_, ?_, ?_⟩
  · rw [htake, List.append_nil]
    by_cases hempty : free (n, i) = []
    · rw [hempty, List.drop_nil, List.take_nil, List.append_nil, ← hempty,
        Function.update_eq_self]
    · obtain ⟨b, hb⟩ := List.exists_mem_of_ne_nil _ hempty
      obtain ⟨rest', hold, hnew⟩ := poolBlocks_update hadm
        (h.pools.homes _ b hb).poolPlace free
      refine ((hnew _).append_right _).trans (.trans ?_ hold.symm)
      have hsplit := List.take_append_drop fixedCacheBatchCount (free (n, i))
      rw [List.perm_iff_count]
      intro d
      have hd := congrArg (List.count d) hsplit
      simp only [List.count_append] at hd ⊢
      omega
  · rw [htake]
    exact fun b hb => h.pools.homes _ b (List.mem_of_mem_take hb)
  · rw [htake, List.length_take]
    exact Nat.min_le_left ..

/-- What a thread has in its hands is in no list, and each block once. -/
theorem Running.fresh (hadm : Admitted options order)
    (h : Running options order s t c (bs ++ hand) free rest) :
    bs.Nodup ∧ ∀ q, ∀ b ∈ free q, b ∉ bs := by
  have hnodup := h.whole.nodup_iff.mpr (carved_nodup hadm)
  obtain ⟨-, hheld, hdisj⟩ := List.nodup_append.mp hnodup
  refine ⟨hheld.of_append_left.of_append_left.of_append_right.of_append_left,
    fun q b hb hmem => ?_⟩
  refine hdisj b ?_ b ?_ rfl
  · exact List.mem_flatMap.mpr ⟨q, (h.pools.homes q b hb).poolPlace, hb⟩
  · simp [hmem]

/-- **PUSH**, within a step. -/
theorem Running.addBatchBlocksToPool (hadm : Admitted options order)
    (h : Running options order s t c (bs ++ hand) free rest)
    (hne : bs ≠ []) (hhome : ∀ b ∈ bs, Home options (n, i) b) :
    ∃ a free', addBatchBlocksToPool s.mem n i bs = .ok a ∧
      Running options order { s with mem := a } t c hand free' rest := by
  obtain ⟨b, hb⟩ := List.exists_mem_of_ne_nil bs hne
  obtain ⟨hnodup, hfree⟩ := h.fresh hadm
  obtain ⟨a, ha, hpools⟩ := addBatchBlocksToPool_spec h.pools
    (hhome b hb).area hhome hnodup hfree
  refine ⟨a, _, ha, h.withPools hpools ?_⟩
  obtain ⟨rest', hold, hnew⟩ :=
    poolBlocks_update hadm (hhome b hb).poolPlace free
  rw [List.perm_iff_count] at hold ⊢
  intro d
  have hold := hold d
  have hnew := (hnew (bs.reverse ++ free (n, i))).count_eq d
  simp only [List.count_append, List.count_reverse] at hold hnew ⊢
  omega

end UbsIo.Fixed
