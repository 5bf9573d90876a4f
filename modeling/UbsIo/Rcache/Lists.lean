import UbsIo.Rcache.Steps
import UbsIo.Lib.Ranges

/-! # The lists of the read cache

    In every run each chunk is in one truncate list, or a thread that has
    locked it moves it, or it is deleted; the lists are in the order in which
    the ranges were handed out; and all ranges that threads, chunks and
    failures hold are apart. -/

namespace UbsIo.Rcache

open UbsIo.Lib

variable {ι κ β : Type}

/-! ## Who holds what -/

/-- Those who hold ranges: a thread, a chunk in a truncate list, or nobody. -/
inductive Holder (ι : Type) where
  | thread (t : ι)
  | chunk (c : Nat)
  | lost (i : Nat)

def ruler : Ruler Value := ⟨(·.indexInFlow), (·.flowOffset), (·.reach)⟩

theorem Value.lt_reach (v : Value) : v.flowOffset < v.reach :=
  Nat.lt_add_of_pos_right v.length_pos

/-- The range that a thread holds in a flow. -/
def Phase.claim : Phase κ β → Tier → Option Value
  | .reserved v, .mem => some v
  | .written v _, .mem => some v
  | .indexed _ v, .mem => some v
  | .listed _ v, .mem => some v
  | .allocated _ _ _ v, .disk => some v
  | .copied _ _ _ v, .disk => some v
  | .unqueued _ _ _ v, .disk => some v
  | .unlisted _ _ _ v, .disk => some v
  | .moved _ _ _ v, .disk => some v
  | _, _ => none

/-- The chunk that a thread brings to a truncate list. -/
def Phase.carries : Phase κ β → Option Nat
  | .indexed c _ => some c
  | .listed c _ => some c
  | .unqueued _ _ c _ => some c
  | .unlisted _ _ c _ => some c
  | .moved _ _ c _ => some c
  | _ => none

/-- The chunk that a thread has locked. -/
def Phase.holds : Phase κ β → Option Nat
  | .indexed c _ => some c
  | .listed c _ => some c
  | .addressed _ c _ => some c
  | .verified _ c _ => some c
  | .served c _ => some c
  | .allocated _ _ c _ => some c
  | .copied _ _ c _ => some c
  | .unqueued _ _ c _ => some c
  | .unlisted _ _ c _ => some c
  | .moved _ _ c _ => some c
  | .erased _ _ c => some c
  | .dropped _ _ c => some c
  | _ => none

/-- The tier that a thread evicts from. -/
def Phase.evicts : Phase κ β → Option Tier
  | .evict tier _ _ => some tier
  | .victim tier _ _ _ => some tier
  | .allocated _ _ _ _ => some .mem
  | .copied _ _ _ _ => some .mem
  | .unqueued _ _ _ _ => some .mem
  | .unlisted _ _ _ _ => some .mem
  | .moved _ _ _ _ => some .mem
  | .erased _ _ _ => some .disk
  | .dropped _ _ _ => some .disk
  | .truncate tier _ => some tier
  | _ => none

/-- The ranges held in the flow of a tier. -/
def Cache.claim (n : Cache ι κ β) (tier : Tier) : Holder ι → Option Value
  | .thread t => (n.threads t).claim tier
  | .chunk c =>
      if c ∈ n.truncateQ tier then (n.chunks c).map (·.value) else none
  | .lost i => (n.lost tier)[i]?

/-- The chunk is in no truncate list. -/
def Unqueued (n : Cache ι κ β) (c : Nat) : Prop :=
  ∀ tier, c ∉ n.truncateQ tier

/-- The chunk is the next to leave its tier. -/
def Due (n : Cache ι κ β) (tier : Tier) (k : Chunk ι κ β) : Prop :=
  k.tier = tier ∧ k.value.flowOffset = (n.flow tier).dataTruncOffset

/-- What thread `t` relies on. -/
def Fits (n : Cache ι κ β) (t : ι) : Phase κ β → Prop
  | .idle => True
  | .reserved _ => True
  | .written v data => data.length = v.length
  | .indexed c v => ∃ k, n.chunks c = some k ∧ k.lock = some t ∧ k.value = v ∧
      k.tier = .mem ∧ Unqueued n c
  | .listed c v => ∃ k, n.chunks c = some k ∧ k.lock = some t ∧ k.value = v ∧
      k.tier = .mem ∧ Unqueued n c
  | .found q c => ∃ k, n.chunks c = some k ∧ k.key = q.key
  | .addressed q c realLen => ∃ k, n.chunks c = some k ∧ k.lock = some t ∧
      k.key = q.key ∧ k.state = false ∧ q.offset < k.value.length ∧
      realLen = min (k.value.length - q.offset) q.len
  | .verified q c realLen => ∃ k, n.chunks c = some k ∧ k.lock = some t ∧
      k.key = q.key ∧ k.state = false ∧ q.offset < k.value.length ∧
      realLen = min (k.value.length - q.offset) q.len
  | .served c _ => ∃ k, n.chunks c = some k ∧ k.lock = some t
  | .deleting c => ∃ k, n.chunks c = some k
  | .evict _ _ _ => True
  | .victim tier _ _ c => ∃ k, n.chunks c = some k ∧ c ∈ n.truncateQ tier ∧
      Due n tier k
  | .allocated _ _ c v => ∃ k, n.chunks c = some k ∧ k.lock = some t ∧
      c ∈ n.truncateQ .mem ∧ Due n .mem k ∧ v.length = k.value.length
  | .copied _ _ c v => ∃ k, n.chunks c = some k ∧ k.lock = some t ∧
      c ∈ n.truncateQ .mem ∧ Due n .mem k ∧ v.length = k.value.length
  | .unqueued _ _ c v => ∃ k, n.chunks c = some k ∧ k.lock = some t ∧
      Unqueued n c ∧ Due n .mem k ∧ v.length = k.value.length
  | .unlisted _ _ c v => ∃ k, n.chunks c = some k ∧ k.lock = some t ∧
      Unqueued n c ∧ Due n .mem k ∧ v.length = k.value.length
  | .moved _ _ c v => ∃ k, n.chunks c = some k ∧ k.lock = some t ∧
      Unqueued n c ∧ k.tier = .disk ∧ k.value = v
  | .erased _ _ c => ∃ k, n.chunks c = some k ∧ k.lock = some t ∧
      c ∈ n.truncateQ .disk ∧ Due n .disk k ∧ k.state = true
  | .dropped _ _ c => ∃ k, n.chunks c = some k ∧ k.lock = some t ∧
      Unqueued n c ∧ Due n .disk k ∧ k.state = true
  | .truncate _ _ => True

/-- A chunk that a thread holds has its lock. -/
theorem Fits.lock {n : Cache ι κ β} {t : ι} {p : Phase κ β} {c : Nat}
    (h : Fits n t p) (hp : p.holds = some c) :
    ∃ k, n.chunks c = some k ∧ k.lock = some t := by
  cases p <;> cases hp
  case served => exact h
  all_goals
    obtain ⟨k, hk, hlock, -⟩ := h
    exact ⟨k, hk, hlock⟩

/-- The order of a truncate list: from the last range to the first. -/
def Later (n : Cache ι κ β) (a b : Nat) : Prop :=
  n.indexInFlow b ≤ n.indexInFlow a

instance (n : Cache ι κ β) : DecidableRel (Later n) :=
  fun a b => inferInstanceAs (Decidable (n.indexInFlow b ≤ n.indexInFlow a))

instance (n : Cache ι κ β) : Std.Total (Later n) :=
  ⟨fun a b => Nat.le_total (n.indexInFlow b) (n.indexInFlow a)⟩

instance (n : Cache ι κ β) : IsTrans Nat (Later n) :=
  ⟨fun _ _ _ hab hbc => le_trans hbc hab⟩

/-- The invariant of the cache, in every run. -/
structure Good (n : Cache ι κ β) : Prop where
  fits : ∀ t, Fits n t (n.threads t)
  fresh : ∀ c, n.count ≤ c → n.chunks c = none
  indexed : ∀ key c, n.index key = some c →
    ∃ k, n.chunks c = some k ∧ k.key = key
  queued : ∀ tier, ∀ c ∈ n.truncateQ tier,
    ∃ k, n.chunks c = some k ∧ k.tier = tier
  nodup : ∀ tier, (n.truncateQ tier).Nodup
  sorted : ∀ tier, (n.truncateQ tier).Pairwise (Later n)
  placed : ∀ c k, n.chunks c = some k → c ∈ n.truncateQ k.tier ∨
    k.state = true ∨ ∃ t, (n.threads t).carries = some c
  busy : ∀ t tier, (n.threads t).evicts = some tier → n.evicting tier = true
  alone : ∀ t u tier, (n.threads t).evicts = some tier →
    (n.threads u).evicts = some tier → t = u
  handed : ∀ tier, Handed ruler (n.claim tier) (n.flow tier).index
    (n.flow tier).offset
  last : ∀ t v, (n.threads t).claim .disk = some v →
    (n.flow .disk).index = v.indexInFlow + 1 ∧
      (n.flow .disk).offset = v.reach
  loaded : ∀ tier, (n.flow tier).offset ≤ (n.flow tier).preLoadOffset

theorem good_init (blank : β) : Good (Cache.init blank : Cache ι κ β) where
  fits := fun _ => trivial
  fresh := fun _ _ => rfl
  indexed := by
    intro key c h
    cases h
  queued := by
    intro tier c hc
    exact absurd hc List.not_mem_nil
  nodup := fun _ => List.nodup_nil
  sorted := fun _ => List.Pairwise.nil
  placed := by
    intro c k h
    cases h
  busy := by
    intro t tier h
    cases h
  alone := by
    intro t u tier h
    cases h
  handed := by
    intro tier
    have hnone : (Cache.init blank : Cache ι κ β).claim tier =
        fun _ => none := by
      funext w
      cases w <;> rfl
    rw [hnone]
    exact handed_none ..
  last := by
    intro t v h
    cases h
  loaded := fun _ => le_rfl

/-! ## The truncate lists -/

theorem insertAt_find {p : Nat → Bool} {position c : Nat} :
    ∀ {l : List Nat}, l.find? p = some position →
      insertAt position c l =
        l.takeWhile (fun x => !p x) ++ c :: l.dropWhile (fun x => !p x) := by
  intro l
  induction l with
  | nil => intro h; cases h
  | cons a l ih =>
      intro h
      by_cases ha : p a = true
      · rw [List.find?_cons_of_pos ha] at h
        obtain rfl := Option.some.inj h
        rw [insertAt, if_pos rfl,
          List.takeWhile_cons_of_neg (by simp [ha]),
          List.dropWhile_cons_of_neg (by simp [ha])]
        rfl
      · rw [List.find?_cons_of_neg ha] at h
        have hne : a ≠ position := by
          rintro rfl
          exact ha (List.find?_some h)
        rw [insertAt, if_neg hne, ih h,
          List.takeWhile_cons_of_pos (by simp [ha]),
          List.dropWhile_cons_of_pos (by simp [ha])]
        rfl

variable {n n' : Cache ι κ β} {tier : Tier} {c : Nat}

/-- `AddToTruncateList` keeps the list in order, in the disk tier as long as
    the chunk comes behind the others: there the loop would go on along the
    evict list. -/
theorem addToTruncateList_eq
    (h : tier = .mem ∨
      ∀ x ∈ n.truncateQ tier, n.indexInFlow x ≤ n.indexInFlow c) :
    n.addToTruncateList tier c =
      (n.truncateQ tier).orderedInsert (Later n) c := by
  unfold Cache.addToTruncateList
  split
  · rename_i hnil
    rw [hnil]
    rfl
  rename_i head l hq
  rw [hq] at h ⊢
  by_cases hhead : n.indexInFlow head ≤ n.indexInFlow c
  · -- the chunk comes first
    have hfind : ∀ behind : List Nat, (head :: behind).find?
        (fun i => decide (n.indexInFlow i ≤ n.indexInFlow c)) = some head :=
      fun behind => List.find?_cons_of_pos (decide_eq_true hhead)
    dsimp only
    have hle : Later n c head := hhead
    rw [hfind]
    dsimp only
    rw [insertAt, if_pos rfl, List.orderedInsert_cons_of_le _ _ hle]
  · have hmem : tier = .mem := by
      rcases h with h | h
      · exact h
      · exact absurd (h head List.mem_cons_self) hhead
    subst hmem
    have hlane : ((n.lane .mem).dropWhile (· ≠ head)).tail = l := by
      rw [Cache.lane, hq, List.dropWhile_cons_of_neg (by simp), List.tail_cons]
    dsimp only
    rw [hlane, List.orderedInsert_eq_take_drop]
    have hpred : (fun b => decide ¬ Later n c b) = fun x =>
        !decide (n.indexInFlow x ≤ n.indexInFlow c) := by
      funext b
      rw [decide_not]
      rfl
    rw [hpred]
    split
    · rename_i position hfind
      exact insertAt_find hfind
    · rename_i hfind
      have hall : ∀ x ∈ head :: l,
          (!decide (n.indexInFlow x ≤ n.indexInFlow c)) = true := by
        intro x hx
        have hx' := List.find?_eq_none.mp hfind x hx
        rw [Bool.not_eq_true']
        exact Bool.eq_false_iff.mpr hx'
      rw [List.takeWhile_eq_self_iff.mpr hall,
        List.dropWhile_eq_nil_iff.mpr hall]

/-- The range of a chunk in a truncate list. -/
theorem claim_chunk {k : Chunk ι κ β} (hc : c ∈ n.truncateQ tier)
    (hk : n.chunks c = some k) : n.claim tier (.chunk c) = some k.value := by
  rw [Cache.claim, if_pos hc, hk]
  rfl

/-- The chunk that has come from memory is put in front of the disk list. -/
theorem Good.arrives_last (h : Good n) {t : ι} {needEvict haveEvict : Nat}
    {v : Value} (hp : n.threads t = .moved needEvict haveEvict c v) :
    ∀ x ∈ n.truncateQ .disk, n.indexInFlow x ≤ n.indexInFlow c := by
  intro x hx
  obtain ⟨k, hk, -, -, -, hv⟩ : Fits n t (.moved needEvict haveEvict c v) :=
    hp ▸ h.fits t
  obtain ⟨kx, hkx, -⟩ := h.queued .disk x hx
  have hlast := (h.last t v (by rw [hp]; rfl)).1
  have hbelow := ((h.handed .disk).below _ _ (claim_chunk hx hkx)).1
  have hindex : n.indexInFlow c = v.indexInFlow := by
    rw [Cache.indexInFlow, hk, ← hv]
    rfl
  have hindexx : n.indexInFlow x = kx.value.indexInFlow := by
    rw [Cache.indexInFlow, hkx]
    rfl
  have : kx.value.indexInFlow < (n.flow .disk).index := hbelow
  omega

/-- **THE LOOP OF `AddToTruncateList`**: it is never led astray. -/
theorem Good.add_arrived (h : Good n) {t : ι} {needEvict haveEvict : Nat}
    {v : Value} (hp : n.threads t = .moved needEvict haveEvict c v) :
    n.addToTruncateList .disk c =
      (n.truncateQ .disk).orderedInsert (Later n) c :=
  addToTruncateList_eq (Or.inr (h.arrives_last hp))

/-! ## What the other threads leave alone -/

/-- What a step of another thread leaves to thread `u`: the chunks that it has
    locked; and if it evicts, the order of its tier. -/
structure Rely (n n' : Cache ι κ β) (u : ι) : Prop where
  chunks : ∀ c k, n.chunks c = some k → ∃ k', n'.chunks c = some k' ∧
    k'.key = k.key ∧ (k.lock = some u → k' = k)
  queue : ∀ tier c k, n.chunks c = some k → k.lock = some u →
    (c ∈ n'.truncateQ tier ↔ c ∈ n.truncateQ tier)
  offset : ∀ tier, (n.threads u).evicts = some tier →
    (n'.flow tier).dataTruncOffset = (n.flow tier).dataTruncOffset
  victims : ∀ tier, (n.threads u).evicts = some tier →
    ∀ c ∈ n.truncateQ tier, c ∈ n'.truncateQ tier ∧
      ∀ k, n.chunks c = some k → ∃ k', n'.chunks c = some k' ∧
        k'.value = k.value ∧ k'.tier = k.tier

theorem Rely.due {u : ι} (h : Rely n n' u) {k : Chunk ι κ β}
    (he : (n.threads u).evicts = some tier) (hk : Due n tier k) :
    Due n' tier k :=
  ⟨hk.1, hk.2.trans (h.offset tier he).symm⟩

theorem Rely.unqueued {u : ι} (h : Rely n n' u) {k : Chunk ι κ β}
    (hk : n.chunks c = some k) (hlock : k.lock = some u)
    (hc : Unqueued n c) : Unqueued n' c :=
  fun tier hmem => hc tier ((h.queue tier c k hk hlock).mp hmem)

theorem Rely.locked {u : ι} (h : Rely n n' u) {k : Chunk ι κ β}
    (hk : n.chunks c = some k) (hlock : k.lock = some u) :
    n'.chunks c = some k := by
  obtain ⟨k', hk', -, heq⟩ := h.chunks c k hk
  rw [hk', heq hlock]

/-- A thread keeps what it relies on. -/
theorem Fits.rely {u : ι} (h : Fits n u (n.threads u)) (hr : Rely n n' u) :
    Fits n' u (n.threads u) := by
  cases hp : n.threads u with
  | idle => trivial
  | reserved v => trivial
  | written v data =>
      rw [hp] at h
      exact h
  | indexed c v =>
      rw [hp] at h
      obtain ⟨k, hk, hlock, hv, ht, hc⟩ := h
      exact ⟨k, hr.locked hk hlock, hlock, hv, ht, hr.unqueued hk hlock hc⟩
  | listed c v =>
      rw [hp] at h
      obtain ⟨k, hk, hlock, hv, ht, hc⟩ := h
      exact ⟨k, hr.locked hk hlock, hlock, hv, ht, hr.unqueued hk hlock hc⟩
  | found q c =>
      rw [hp] at h
      obtain ⟨k, hk, hkey⟩ := h
      obtain ⟨k', hk', hkey', -⟩ := hr.chunks c k hk
      exact ⟨k', hk', hkey'.trans hkey⟩
  | addressed q c realLen =>
      rw [hp] at h
      obtain ⟨k, hk, hlock, hrest⟩ := h
      exact ⟨k, hr.locked hk hlock, hlock, hrest⟩
  | verified q c realLen =>
      rw [hp] at h
      obtain ⟨k, hk, hlock, hrest⟩ := h
      exact ⟨k, hr.locked hk hlock, hlock, hrest⟩
  | served c tier =>
      rw [hp] at h
      obtain ⟨k, hk, hlock⟩ := h
      exact ⟨k, hr.locked hk hlock, hlock⟩
  | deleting c =>
      rw [hp] at h
      obtain ⟨k, hk⟩ := h
      obtain ⟨k', hk', -, -⟩ := hr.chunks c k hk
      exact ⟨k', hk'⟩
  | evict tier needEvict haveEvict => trivial
  | victim tier needEvict haveEvict c =>
      rw [hp] at h
      obtain ⟨k, hk, hc, hd⟩ := h
      have he : (n.threads u).evicts = some tier := by rw [hp]; rfl
      obtain ⟨hc', hkeep⟩ := hr.victims tier he c hc
      obtain ⟨k', hk', hv, ht⟩ := hkeep k hk
      refine ⟨k', hk', hc', ht.trans hd.1, ?_⟩
      rw [hv, hr.offset tier he]
      exact hd.2
  | allocated needEvict haveEvict c v =>
      rw [hp] at h
      obtain ⟨k, hk, hlock, hc, hd, hlen⟩ := h
      exact ⟨k, hr.locked hk hlock, hlock, (hr.queue _ c k hk hlock).mpr hc,
        hr.due (by rw [hp]; rfl) hd, hlen⟩
  | copied needEvict haveEvict c v =>
      rw [hp] at h
      obtain ⟨k, hk, hlock, hc, hd, hlen⟩ := h
      exact ⟨k, hr.locked hk hlock, hlock, (hr.queue _ c k hk hlock).mpr hc,
        hr.due (by rw [hp]; rfl) hd, hlen⟩
  | unqueued needEvict haveEvict c v =>
      rw [hp] at h
      obtain ⟨k, hk, hlock, hc, hd, hlen⟩ := h
      exact ⟨k, hr.locked hk hlock, hlock, hr.unqueued hk hlock hc,
        hr.due (by rw [hp]; rfl) hd, hlen⟩
  | unlisted needEvict haveEvict c v =>
      rw [hp] at h
      obtain ⟨k, hk, hlock, hc, hd, hlen⟩ := h
      exact ⟨k, hr.locked hk hlock, hlock, hr.unqueued hk hlock hc,
        hr.due (by rw [hp]; rfl) hd, hlen⟩
  | moved needEvict haveEvict c v =>
      rw [hp] at h
      obtain ⟨k, hk, hlock, hc, hrest⟩ := h
      exact ⟨k, hr.locked hk hlock, hlock, hr.unqueued hk hlock hc, hrest⟩
  | erased needEvict haveEvict c =>
      rw [hp] at h
      obtain ⟨k, hk, hlock, hc, hd, hstate⟩ := h
      exact ⟨k, hr.locked hk hlock, hlock, (hr.queue _ c k hk hlock).mpr hc,
        hr.due (by rw [hp]; rfl) hd, hstate⟩
  | dropped needEvict haveEvict c =>
      rw [hp] at h
      obtain ⟨k, hk, hlock, hc, hd, hstate⟩ := h
      exact ⟨k, hr.locked hk hlock, hlock, hr.unqueued hk hlock hc,
        hr.due (by rw [hp]; rfl) hd, hstate⟩
  | truncate tier haveEvict => trivial

/-- A step that is about at most one chunk, which thread `u` has not locked. -/
theorem Rely.of {u : ι} (c : Nat)
    (hothers : ∀ x, x ≠ c → n'.chunks x = n.chunks x)
    (hchunk : ∀ k, n.chunks c = some k → k.lock ≠ some u ∧
      ∃ k', n'.chunks c = some k' ∧ k'.key = k.key)
    (hqueue : ∀ tier x, x ≠ c →
      (x ∈ n'.truncateQ tier ↔ x ∈ n.truncateQ tier))
    (hoffset : ∀ tier, (n.threads u).evicts = some tier →
      (n'.flow tier).dataTruncOffset = (n.flow tier).dataTruncOffset)
    (hvictim : ∀ tier, (n.threads u).evicts = some tier →
      c ∈ n.truncateQ tier → c ∈ n'.truncateQ tier ∧
        ∀ k, n.chunks c = some k → ∃ k', n'.chunks c = some k' ∧
          k'.value = k.value ∧ k'.tier = k.tier) : Rely n n' u where
  chunks := by
    intro x k hk
    by_cases hx : x = c
    · subst hx
      obtain ⟨hlock, k', hk', hkey⟩ := hchunk k hk
      exact ⟨k', hk', hkey, fun h => absurd h hlock⟩
    · exact ⟨k, (hothers x hx).trans hk, rfl, fun _ => rfl⟩
  queue := by
    intro tier x k hk hlock
    refine hqueue tier x ?_
    rintro rfl
    exact (hchunk k hk).1 hlock
  offset := hoffset
  victims := by
    intro tier he x hx
    by_cases hxc : x = c
    · subst hxc
      exact hvictim tier he hx
    · refine ⟨(hqueue tier x hxc).mpr hx, ?_⟩
      intro k hk
      exact ⟨k, (hothers x hxc).trans hk, rfl, rfl⟩

theorem Rely.same {u : ι} (hchunks : n'.chunks = n.chunks)
    (hqueue : n'.truncateQ = n.truncateQ)
    (hoffset : ∀ tier, (n.threads u).evicts = some tier →
      (n'.flow tier).dataTruncOffset = (n.flow tier).dataTruncOffset) :
    Rely n n' u where
  chunks := by
    intro x k hk
    exact ⟨k, hchunks ▸ hk, rfl, fun _ => rfl⟩
  queue := by
    intro tier x k _ _
    rw [hqueue]
  offset := hoffset
  victims := by
    intro tier _ x hx
    refine ⟨hqueue ▸ hx, ?_⟩
    intro k hk
    exact ⟨k, hchunks ▸ hk, rfl, rfl⟩

/-- Thread `t` locks a chunk, lets it go, or marks it. -/
theorem Rely.setChunk {u : ι} {k j : Chunk ι κ β}
    (hchunks : n'.chunks = Function.update n.chunks c (some j))
    (hk : n.chunks c = some k) (hlock : k.lock ≠ some u)
    (hkey : j.key = k.key) (hvalue : j.value = k.value)
    (htier : j.tier = k.tier) (hqueue : n'.truncateQ = n.truncateQ)
    (hoffset : ∀ tier, (n.threads u).evicts = some tier →
      (n'.flow tier).dataTruncOffset = (n.flow tier).dataTruncOffset) :
    Rely n n' u := by
  have hself : n'.chunks c = some j := by rw [hchunks, Function.update_self]
  refine .of c ?_ ?_ ?_ hoffset ?_
  · intro x hx
    rw [hchunks, Function.update_of_ne hx]
  · intro k₀ hk₀
    obtain rfl := Option.some.inj (hk.symm.trans hk₀)
    exact ⟨hlock, j, hself, hkey⟩
  · intro tier x _
    rw [hqueue]
  · intro tier _ hc
    refine ⟨hqueue ▸ hc, ?_⟩
    intro k₀ hk₀
    obtain rfl := Option.some.inj (hk.symm.trans hk₀)
    exact ⟨j, hself, hvalue, htier⟩

/-- What a thread has locked, nobody else has. -/
theorem lock_ne {t u : ι} {k : Chunk ι κ β} (hu : u ≠ t)
    (hlock : k.lock = some t) : k.lock ≠ some u := by
  intro heq
  rw [hlock] at heq
  exact hu (Option.some.inj heq).symm

/-- A thread that is at a chunk has locked it, or nobody has. -/
theorem Good.relocks_lock (h : Good n) {t u : ι} {q : Phase κ β}
    {k k' : Chunk ι κ β} (hc : (n.threads t).at_ = some c)
    (hk : n.chunks c = some k) (hq : Relocks t k k' (n.threads t) q)
    (hu : u ≠ t) : k.lock ≠ some u := by
  have hfit := h.fits t
  cases hp : n.threads t <;> rw [hp] at hq hfit hc <;> cases hq
  case found.addressed hlock _ _ => rw [hlock]; exact nofun
  case deleting.deleted hlock => rw [hlock]; exact nofun
  case served.served =>
    obtain ⟨k₀, hk₀, hlock⟩ := hfit
    cases hc
    obtain rfl := Option.some.inj (hk.symm.trans hk₀)
    exact lock_ne hu hlock
  case verified.unwritten =>
    obtain ⟨k₀, hk₀, hlock, -⟩ := hfit
    cases hc
    obtain rfl := Option.some.inj (hk.symm.trans hk₀)
    exact lock_ne hu hlock

theorem Relocks.same {t : ι} {k k' : Chunk ι κ β} {p q : Phase κ β}
    (h : Relocks t k k' p q) : k'.key = k.key ∧ k'.value = k.value ∧
      k'.tier = k.tier ∧ (k.state = true → k'.state = true) := by
  cases h
  case deleted => exact ⟨rfl, rfl, rfl, fun _ => rfl⟩
  all_goals exact ⟨rfl, rfl, rfl, id⟩

theorem Relocks.data {t : ι} {k k' : Chunk ι κ β} {p q : Phase κ β}
    (h : Relocks t k k' p q) : k'.data = k.data ∧ k'.dataCrc = k.dataCrc := by
  cases h <;> exact ⟨rfl, rfl⟩

/-! ## The threads -/

variable [DecidableEq ι]

theorem fits_goto {m : Cache ι κ β} {t : ι} {q : Phase κ β}
    (h : ∀ u, Fits n u (n.threads u)) (hthreads : m.threads = n.threads)
    (hown : Fits (m.goto t q) t q)
    (hothers : ∀ u, u ≠ t → Rely n (m.goto t q) u) :
    ∀ u, Fits (m.goto t q) u ((m.goto t q).threads u) := by
  intro u
  by_cases hu : u = t
  · subst hu
    dsimp only [Cache.goto]
    rw [Function.update_self]
    exact hown
  · have hsame : (m.goto t q).threads u = n.threads u := by
      dsimp only [Cache.goto]
      rw [Function.update_of_ne hu, hthreads]
    rw [hsame]
    exact (h u).rely (hothers u hu)

omit [DecidableEq ι] in
/-- Nothing that a thread relies on has changed. -/
theorem fits_congr {m : Cache ι κ β} {t : ι} {q : Phase κ β}
    (hchunks : m.chunks = n.chunks) (hqueue : m.truncateQ = n.truncateQ)
    (hoffset : ∀ tier, (m.flow tier).dataTruncOffset =
      (n.flow tier).dataTruncOffset) : Fits m t q ↔ Fits n t q := by
  cases q <;> simp only [Fits, Unqueued, Due, hchunks, hqueue, hoffset]

omit [DecidableEq ι] in
/-- What another flow in a tier has in common with the one before. -/
theorem setFlow_congr {α : Type} {f : RCacheFlow β} (g : RCacheFlow β → α)
    (h : g f = g (n.flow tier)) (x : Tier) :
    g ((n.setFlow tier f).flow x) = g (n.flow x) := by
  by_cases hx : x = tier
  · subst hx
    rw [setFlow_self, h]
  · rw [setFlow_of_ne n f hx]

omit [DecidableEq ι] in
theorem setFlow_offset_of_ne {m : Cache ι κ β} {f : RCacheFlow β} {x : Tier}
    (h : x ≠ tier) : ((m.setFlow tier f).flow x).dataTruncOffset =
      (m.flow x).dataTruncOffset := by
  rw [setFlow_of_ne m f h]

omit [DecidableEq ι] in
theorem setChunk_self (m : Cache ι κ β) (c : Nat) (k : Chunk ι κ β) :
    (m.setChunk c k).chunks c = some k :=
  Function.update_self ..

omit [DecidableEq ι] in
theorem setChunk_of_ne {m : Cache ι κ β} (k : Chunk ι κ β) (x : Nat)
    (hx : x ≠ c) : (m.setChunk c k).chunks x = m.chunks x :=
  Function.update_of_ne hx ..

omit [DecidableEq ι] in
theorem mem_setTruncateQ {l : List Nat} {x : Nat} {y : Tier}
    (h : y = tier → (x ∈ l ↔ x ∈ n.truncateQ tier)) :
    x ∈ (n.setTruncateQ tier l).truncateQ y ↔ x ∈ n.truncateQ y := by
  dsimp only [Cache.setTruncateQ]
  by_cases hy : y = tier
  · subst hy
    rw [Function.update_self]
    exact h rfl
  · rw [Function.update_of_ne hy]

omit [DecidableEq ι] in
theorem mem_of_erased {x : Tier} {c₀ : Nat}
    (h : c ∈ (n.setTruncateQ x ((n.truncateQ x).erase c₀)).truncateQ tier) :
    c ∈ n.truncateQ tier := by
  dsimp only [Cache.setTruncateQ] at h
  by_cases hx : tier = x
  · subst hx
    rw [Function.update_self] at h
    exact List.mem_of_mem_erase h
  · rw [Function.update_of_ne hx] at h
    exact h

omit [DecidableEq ι] in
/-- A chunk that has left the list of its tier is in none. -/
theorem Good.unqueued_erase (h : Good n) {k : Chunk ι κ β}
    (hk : n.chunks c = some k) (htier : k.tier = tier) :
    Unqueued (n.setTruncateQ tier ((n.truncateQ tier).erase c)) c := by
  intro y hmem
  dsimp only [Cache.setTruncateQ] at hmem
  by_cases hy : y = tier
  · subst hy
    rw [Function.update_self] at hmem
    exact (h.nodup y).not_mem_erase hmem
  · rw [Function.update_of_ne hy] at hmem
    obtain ⟨k', hk', ht⟩ := h.queued y c hmem
    obtain rfl := Option.some.inj (hk.symm.trans hk')
    exact hy (ht.symm.trans htier)

theorem Good.rely_erase (h : Good n) {t u : ι} {p q : Phase κ β}
    {k : Chunk ι κ β} (hp : n.threads t = p) (he : p.evicts = some tier)
    (hk : n.chunks c = some k) (hlock : k.lock = some t) (hu : u ≠ t) :
    Rely n ((n.setTruncateQ tier ((n.truncateQ tier).erase c)).goto t q) u := by
  refine Rely.of c (fun _ _ => rfl) ?_ ?_ (fun _ _ => rfl) ?_
  · intro k₀ hk₀
    obtain rfl := Option.some.inj (hk.symm.trans hk₀)
    exact ⟨lock_ne hu hlock, k, hk, rfl⟩
  · intro y x hx
    exact mem_setTruncateQ fun _ => List.mem_erase_of_ne hx
  · intro y hy hmem
    have hne : y ≠ tier := by
      rintro rfl
      exact hu (h.alone u t y hy (by rw [hp]; exact he))
    refine ⟨(mem_setTruncateQ fun h' => absurd h' hne).mpr hmem, ?_⟩
    intro k₀ hk₀
    exact ⟨k₀, hk₀, rfl, rfl⟩

theorem Good.fits_moves (h : Good n) {t : ι} {q : Phase κ β}
    {m : Cache ι κ β} (hsame : Same n m) (hq : Moves n (n.threads t) q) :
    ∀ u, Fits (m.goto t q) u ((m.goto t q).threads u) := by
  have hoffset : ∀ tier, (m.flow tier).dataTruncOffset =
      (n.flow tier).dataTruncOffset := fun tier =>
    (hsame.flow tier).dataTruncOffset
  refine fits_goto h.fits hsame.threads ?_ ?_
  · refine (fits_congr (m := m.goto t q) hsame.chunks hsame.truncateQ
      hoffset).mpr ?_
    have hfit := h.fits t
    cases hp : n.threads t <;> rw [hp] at hq hfit <;> cases hq
    case indexed.indexed => exact hfit
    case found.missed => trivial
    case addressed.unverified => trivial
    case addressed.verified => exact hfit
    case verified.served k hk =>
      obtain ⟨k', hk', hlock, -⟩ := hfit
      exact ⟨k', hk', hlock⟩
    case evict.stopped => trivial
    case evict.victim c k hk hc hoff hneed =>
      have hmem := List.mem_of_getLast? hc
      obtain ⟨k', hk', ht⟩ := h.queued _ c hmem
      obtain rfl := Option.some.inj (hk.symm.trans hk')
      exact ⟨k, hk, hmem, ht, hoff⟩
    case unqueued.unlisted => exact hfit
    case idle.found q c hc hseen => exact h.indexed _ c hc
    case idle.deleting key c hc =>
      obtain ⟨k, hk, -⟩ := h.indexed key c hc
      exact ⟨k, hk⟩
  · intro u _
    exact Rely.same hsame.chunks hsame.truncateQ fun tier _ => hoffset tier

theorem Good.fits_relocks (h : Good n) {t : ι} {q : Phase κ β}
    {m : Cache ι κ β} {k k' : Chunk ι κ β} (hsame : Same n m)
    (hc : (n.threads t).at_ = some c) (hk : n.chunks c = some k)
    (hq : Relocks t k k' (n.threads t) q) :
    ∀ u, Fits ((m.setChunk c k').goto t q) u
      (((m.setChunk c k').goto t q).threads u) := by
  refine fits_goto (m := m.setChunk c k') h.fits hsame.threads ?_ ?_
  · have hfit := h.fits t
    cases hp : n.threads t <;> rw [hp] at hq hfit hc <;> cases hq
    case found.addressed hlock hstate hoffset =>
      cases hc
      obtain ⟨k₀, hk₀, hkey⟩ := hfit
      obtain rfl := Option.some.inj (hk.symm.trans hk₀)
      refine ⟨{ k with lock := some t }, ?_, rfl, hkey, hstate, hoffset, rfl⟩
      dsimp only [Cache.goto, Cache.setChunk]
      rw [Function.update_self]
    case served.served => trivial
    case verified.unwritten => trivial
    case deleting.deleted => trivial
  · intro u hu
    obtain ⟨hkey, hvalue, htier, -⟩ := hq.same
    refine Rely.setChunk (j := k') ?_ hk (h.relocks_lock hc hk hq hu) hkey
      hvalue htier hsame.truncateQ ?_
    · dsimp only [Cache.goto, Cache.setChunk]
      rw [hsame.chunks]
    · intro tier _
      exact (hsame.flow tier).dataTruncOffset

variable [DecidableEq κ] {e : Event ι κ β}

/-- What the threads rely on stays. -/
theorem Good.fits_step (h : Good n) (ht : Trans n e n') :
    ∀ u, Fits n' u (n'.threads u) := by
  cases ht with
  | quiet _ m hsame =>
      intro u
      rw [hsame.threads]
      exact (fits_congr hsame.chunks hsame.truncateQ fun tier =>
        (hsame.flow tier).dataTruncOffset).mpr (h.fits u)
  | moves t _ q m hsame hq => exact h.fits_moves hsame hq
  | relocks t _ q m c k k' hsame hc hk hq => exact h.fits_relocks hsame hc hk hq
  | reserved t _ f v hp hf =>
      refine fits_goto (m := n.setFlow .mem f) h.fits rfl trivial ?_
      intro u _
      exact Rely.same rfl rfl fun tier _ =>
        setFlow_congr (·.dataTruncOffset) hf.dataTruncOffset tier
  | lost t _ v hp =>
      refine fits_goto (m := n.lose .mem v) h.fits rfl trivial ?_
      intro u _
      exact Rely.same rfl rfl fun _ _ => rfl
  | written t _ v data hp hlen =>
      refine fits_goto (m := n.setFlow .mem _) h.fits rfl hlen ?_
      intro u _
      exact Rely.same rfl rfl fun tier _ => setFlow_congr
        (f := (n.flow .mem).write v.flowOffset data) (·.dataTruncOffset) rfl
        tier
  | inserted t key dataCrc v data hp =>
      have hfresh := h.fresh n.count le_rfl
      have hqueue : Unqueued n n.count := by
        intro tier hc
        obtain ⟨k, hk, -⟩ := h.queued tier _ hc
        rw [hfresh] at hk
        cases hk
      refine fits_goto (m := { n.setChunk n.count _ with
        index := _, count := _ }) h.fits rfl ?_ ?_
      · refine ⟨⟨key, v, .mem, dataCrc, false, some t, data⟩, ?_, rfl, rfl,
          rfl, hqueue⟩
        dsimp only [Cache.goto, Cache.setChunk]
        rw [Function.update_self]
      · intro u hu
        refine Rely.of n.count ?_ ?_ (fun _ _ _ => Iff.rfl) (fun _ _ => rfl) ?_
        · intro x hx
          dsimp only [Cache.goto, Cache.setChunk]
          rw [Function.update_of_ne hx]
        · intro k hk
          rw [hfresh] at hk
          cases hk
        · intro tier _ hc
          exact absurd hc (hqueue tier)
  | listed t _ c v k hp hk =>
      obtain ⟨k', hk', hlock, -, -, hc⟩ : Fits n t (.listed c v) :=
        hp ▸ h.fits t
      obtain rfl := Option.some.inj (hk.symm.trans hk')
      refine fits_goto (m := (n.setTruncateQ .mem _).setChunk c _) h.fits rfl
        trivial ?_
      intro u hu
      refine Rely.of c (setChunk_of_ne _) ?_ ?_ (fun _ _ => rfl) ?_
      · intro k₀ hk₀
        obtain rfl := Option.some.inj (hk.symm.trans hk₀)
        exact ⟨lock_ne hu hlock, _, setChunk_self .., rfl⟩
      · intro tier x hx
        refine mem_setTruncateQ fun _ => ?_
        rw [addToTruncateList_eq (Or.inl rfl), List.mem_orderedInsert,
          or_iff_right hx]
      · intro tier _ hmem
        exact absurd hmem (hc tier)
  | started t _ tier needEvict hp hfree =>
      refine fits_goto (m := n.setEvicting tier true) h.fits rfl trivial ?_
      intro u _
      exact Rely.same rfl rfl fun _ _ => rfl
  | returned t _ tier m hsame hp =>
      refine fits_goto (m := m.setEvicting tier false) h.fits hsame.threads
        trivial ?_
      intro u _
      exact Rely.same hsame.chunks hsame.truncateQ fun tier _ =>
        (hsame.flow tier).dataTruncOffset
  | allocated t _ needEvict haveEvict c k f v hp hk hlock hf hlen =>
      obtain ⟨k', hk', hmem, hdue⟩ : Fits n t (.victim .mem needEvict haveEvict
        c) := hp ▸ h.fits t
      obtain rfl := Option.some.inj (hk.symm.trans hk')
      have hoffset : ∀ tier, ((n.setFlow .disk f).flow tier).dataTruncOffset =
          (n.flow tier).dataTruncOffset :=
        setFlow_congr (·.dataTruncOffset) hf.dataTruncOffset
      refine fits_goto (m := (n.setFlow .disk f).setChunk c _) h.fits rfl ?_ ?_
      · exact ⟨{ k with lock := some t }, setChunk_self .., rfl, hmem,
          ⟨hdue.1, hdue.2.trans (hoffset .mem).symm⟩, hlen⟩
      · intro u hu
        exact Rely.setChunk rfl hk (by rw [hlock]; exact nofun) rfl rfl rfl rfl
          fun tier _ => hoffset tier
  | failed t _ needEvict haveEvict c k v m hsame hp hk he =>
      obtain ⟨k', hk', hlock, -⟩ : Fits n t (.allocated needEvict haveEvict c
        v) := hp ▸ h.fits t
      obtain rfl := Option.some.inj (hk.symm.trans hk')
      refine fits_goto (m := ((m.lose .disk v).setChunk c
        { k with lock := none }).setEvicting .mem false) h.fits hsame.threads
        trivial ?_
      intro u hu
      refine Rely.setChunk (j := { k with lock := none }) ?_ hk
        (lock_ne hu hlock) rfl rfl rfl hsame.truncateQ fun tier _ =>
          (hsame.flow tier).dataTruncOffset
      rw [← hsame.chunks]
      rfl
  | copied t _ needEvict haveEvict c k v m hsame hp hk hmem =>
      generalize hw : (m.flow .disk).write v.flowOffset
        ((n.flow .mem).read k.value.flowOffset k.value.length) = f
      have hf : f.dataTruncOffset = (m.flow .disk).dataTruncOffset :=
        hw ▸ rfl
      have hoffset : ∀ tier, ((m.setFlow .disk f).flow tier).dataTruncOffset =
          (n.flow tier).dataTruncOffset := fun tier =>
        (setFlow_congr (·.dataTruncOffset) hf tier).trans
          (hsame.flow tier).dataTruncOffset
      refine fits_goto (m := m.setFlow .disk f) h.fits hsame.threads ?_ ?_
      · refine (fits_congr (m := (m.setFlow .disk f).goto t _) hsame.chunks
          hsame.truncateQ hoffset).mpr ?_
        have hfit := h.fits t
        rw [hp] at hfit
        exact hfit
      · intro u _
        exact Rely.same hsame.chunks hsame.truncateQ fun tier _ => hoffset tier
  | unqueued t _ needEvict haveEvict c v hp =>
      obtain ⟨k, hk, hlock, hc, hdue, hlen⟩ : Fits n t (.copied needEvict
        haveEvict c v) := hp ▸ h.fits t
      refine fits_goto (m := n.setTruncateQ .mem _) h.fits rfl ?_ ?_
      · refine ⟨k, hk, hlock, ?_, hdue, hlen⟩
        exact h.unqueued_erase hk hdue.1
      · intro u hu
        exact h.rely_erase hp (by rfl) hk hlock hu
  | moved t _ needEvict haveEvict c k v m hsame hp hk =>
      obtain ⟨k', hk', hlock, hc, -⟩ : Fits n t (.unlisted needEvict haveEvict
        c v) := hp ▸ h.fits t
      obtain rfl := Option.some.inj (hk.symm.trans hk')
      refine fits_goto (m := m.setChunk c _) h.fits hsame.threads ?_ ?_
      · refine ⟨{ k with value := v, tier := .disk }, setChunk_self .., hlock,
          ?_, rfl, rfl⟩
        intro tier
        rw [show ((m.setChunk c { k with value := v, tier := .disk }).goto t
          (.moved needEvict haveEvict c v)).truncateQ = n.truncateQ from
            hsame.truncateQ]
        exact hc tier
      · intro u hu
        refine Rely.of c ?_ ?_ ?_
          (fun tier _ => (hsame.flow tier).dataTruncOffset) ?_
        · intro x hx
          rw [← hsame.chunks]
          exact setChunk_of_ne _ x hx
        · intro k₀ hk₀
          obtain rfl := Option.some.inj (hk.symm.trans hk₀)
          exact ⟨lock_ne hu hlock, _, setChunk_self .., rfl⟩
        · intro tier x _
          rw [← hsame.truncateQ]
          rfl
        · intro tier _ hmem
          exact absurd hmem (hc tier)
  | arrived t _ needEvict haveEvict c k v hp hk =>
      obtain ⟨k', hk', hlock, hc, -⟩ : Fits n t (.moved needEvict haveEvict
        c v) := hp ▸ h.fits t
      obtain rfl := Option.some.inj (hk.symm.trans hk')
      refine fits_goto (m := ((n.setTruncateQ .disk _).setFlow .mem _).setChunk
        c _) h.fits rfl trivial ?_
      intro u hu
      refine Rely.of c (setChunk_of_ne _) ?_ ?_ ?_ ?_
      · intro k₀ hk₀
        obtain rfl := Option.some.inj (hk.symm.trans hk₀)
        exact ⟨lock_ne hu hlock, _, setChunk_self .., rfl⟩
      · intro tier x hx
        refine mem_setTruncateQ fun _ => ?_
        rw [h.add_arrived hp, List.mem_orderedInsert, or_iff_right hx]
      · intro tier he
        refine setFlow_offset_of_ne ?_
        rintro rfl
        exact hu (h.alone u t .mem he (by rw [hp]; rfl))
      · intro tier _ hmem
        exact absurd hmem (hc tier)
  | erased t _ needEvict haveEvict c k index hp hk hlock hindex =>
      obtain ⟨k', hk', hmem, hdue⟩ : Fits n t (.victim .disk needEvict
        haveEvict c) := hp ▸ h.fits t
      obtain rfl := Option.some.inj (hk.symm.trans hk')
      refine fits_goto (m := Cache.setChunk { n with index := index } c _)
        h.fits rfl ?_ ?_
      · exact ⟨{ k with state := true, lock := some t }, setChunk_self .., rfl,
          hmem, hdue, rfl⟩
      · intro u hu
        exact Rely.setChunk rfl hk (by rw [hlock]; exact nofun) rfl rfl rfl rfl
          fun _ _ => rfl
  | dropped t _ needEvict haveEvict c hp =>
      obtain ⟨k, hk, hlock, hc, hdue, hstate⟩ : Fits n t (.erased needEvict
        haveEvict c) := hp ▸ h.fits t
      refine fits_goto (m := n.setTruncateQ .disk _) h.fits rfl ?_ ?_
      · refine ⟨k, hk, hlock, ?_, hdue, hstate⟩
        exact h.unqueued_erase hk hdue.1
      · intro u hu
        exact h.rely_erase hp (by rfl) hk hlock hu
  | gone t _ needEvict haveEvict c k m hsame hp hk =>
      obtain ⟨k', hk', hlock, hc, -⟩ : Fits n t (.dropped needEvict haveEvict
        c) := hp ▸ h.fits t
      obtain rfl := Option.some.inj (hk.symm.trans hk')
      refine fits_goto (m := (m.setFlow .disk _).setChunk c _) h.fits
        hsame.threads trivial ?_
      intro u hu
      refine Rely.setChunk (j := { k with lock := none }) ?_ hk
        (lock_ne hu hlock) rfl rfl rfl hsame.truncateQ ?_
      · rw [← hsame.chunks]
        rfl
      · intro tier he
        refine (setFlow_offset_of_ne ?_).trans (hsame.flow tier).dataTruncOffset
        rintro rfl
        exact hu (h.alone u t .disk he (by rw [hp]; rfl))
  | truncated t _ tier haveEvict f hp hf =>
      refine fits_goto (m := (n.setFlow tier f).setEvicting tier false) h.fits
        rfl trivial ?_
      intro u _
      exact Rely.same rfl rfl fun tier _ =>
        setFlow_congr (·.dataTruncOffset) hf.dataTruncOffset tier

end UbsIo.Rcache
