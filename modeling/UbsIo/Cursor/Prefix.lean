import UbsIo.Cursor.Model
import UbsIo.Lib.HighWater
import UbsIo.Wcache.Model
import UbsIo.Flows.Steps

/-! # The truncation follows the evicted prefix

    The index of the cursor is the length of the longest initial segment of the
    evicted slices.  The thread that has moved the cursor truncates the flows up
    to there, later; so the truncate offset of a flow is a mark that rises to
    the front (`HighWater`), and is at the front when nobody evicts. -/

namespace UbsIo.Cursor

open UbsIo.Lib

variable {lengths : Nat → Nat} {l : List Nat} {i n : Nat}

/-! ## The cursor -/

theorem wCacheSliceCmp_sliceAt (i j : Nat) :
    wCacheSliceCmp (sliceAt lengths i) (sliceAt lengths j) = decide (i ≤ j) := by
  rw [wCacheSliceCmp]
  split
  · rename_i heq
    exact (decide_eq_true (Nat.le_of_eq heq)).symm
  · rename_i hne
    exact decide_eq_decide.mpr
      ⟨Nat.le_of_lt, fun h => Nat.lt_of_le_of_ne h hne⟩

/-- On slices with indices of their own the set is an ordered one. -/
theorem emplace_map (i : Nat) : ∀ l : List Nat,
    emplace (sliceAt lengths i) (l.map (sliceAt lengths)) =
      (l.orderedInsert (· ≤ ·) i).map (sliceAt lengths) := by
  intro l
  induction l with
  | nil => rfl
  | cons j l ih =>
      rw [List.map_cons, emplace, wCacheSliceCmp_sliceAt,
        List.orderedInsert_cons]
      by_cases hij : i ≤ j
      · rw [if_pos (decide_eq_true hij), if_pos hij]
        rfl
      · rw [if_neg (by simpa using hij), if_neg hij, ih]
        rfl

/-- The loop of the cursor in the model of the write cache. -/
theorem truncateLoop_map (lengths : Nat → Nat) : ∀ (l : List Nat) (n : Nat)
    (last : Option WCacheSlice),
    truncateLoop n (l.map (sliceAt lengths)) last =
      (if n < (Wcache.advance n l).1 then
          some (sliceAt lengths ((Wcache.advance n l).1 - 1))
        else last,
        ⟨(Wcache.advance n l).1,
          (Wcache.advance n l).2.map (sliceAt lengths)⟩) ∧
      n ≤ (Wcache.advance n l).1 := by
  intro l
  induction l with
  | nil =>
      intro n last
      exact ⟨by rw [Wcache.advance, if_neg (Nat.lt_irrefl n)]; rfl,
        Nat.le_refl n⟩
  | cons j l ih =>
      intro n last
      rw [List.map_cons, truncateLoop, Wcache.advance]
      by_cases hj : j = n
      · obtain ⟨hloop, hle⟩ := ih (n + 1) (some (sliceAt lengths j))
        rw [if_pos (show (sliceAt lengths j).indexInFlow = n from hj),
          if_pos hj]
        refine ⟨?_, by omega⟩
        rw [hloop, if_pos (show n < _ by omega)]
        by_cases hlt : n + 1 < (Wcache.advance (n + 1) l).1
        · rw [if_pos hlt]
        · have heq : (Wcache.advance (n + 1) l).1 - 1 = j := by omega
          rw [if_neg hlt, heq]
      · rw [if_neg (show (sliceAt lengths j).indexInFlow ≠ n from hj),
          if_neg hj]
        exact ⟨by rw [if_neg (Nat.lt_irrefl n)]; rfl, Nat.le_refl n⟩

/-- What the cursor has passed, and what is left in the set. -/
theorem advance_sorted : ∀ (l : List Nat) (n : Nat), l.Pairwise (· < ·) →
    (∀ i ∈ l, n ≤ i) →
    (∀ i, i < n ∨ i ∈ l ↔
      i < (Wcache.advance n l).1 ∨ i ∈ (Wcache.advance n l).2) ∧
    (Wcache.advance n l).2.Pairwise (· < ·) ∧
    ∀ i ∈ (Wcache.advance n l).2, (Wcache.advance n l).1 < i := by
  intro l
  induction l with
  | nil => exact fun n _ _ => ⟨fun _ => Iff.rfl, List.Pairwise.nil, nofun⟩
  | cons j l ih =>
      intro n hsorted hge
      obtain ⟨hj, hl⟩ := List.pairwise_cons.mp hsorted
      have hjn := hge j (List.mem_cons_self ..)
      rw [Wcache.advance]
      by_cases heq : j = n
      · subst heq
        rw [if_pos rfl]
        obtain ⟨hiff, hpair, hgt⟩ := ih (j + 1) hl fun i hi => hj i hi
        refine ⟨?_, hpair, hgt⟩
        intro i
        rw [← hiff, List.mem_cons, ← or_assoc, Nat.lt_succ_iff_lt_or_eq]
      · rw [if_neg heq]
        refine ⟨fun _ => Iff.rfl, hsorted, ?_⟩
        intro i hi
        rcases List.mem_cons.mp hi with rfl | hi
        · exact Nat.lt_of_le_of_ne hjn fun h => heq h.symm
        · exact Nat.lt_of_le_of_lt hjn (hj i hi)

theorem orderedInsert_sorted : ∀ {l : List Nat}, l.Pairwise (· < ·) → i ∉ l →
    (l.orderedInsert (· ≤ ·) i).Pairwise (· < ·) := by
  intro l
  induction l with
  | nil => exact fun _ _ => List.pairwise_singleton _ _
  | cons j l ih =>
      intro hsorted hi
      obtain ⟨hj, hl⟩ := List.pairwise_cons.mp hsorted
      have hne : i ≠ j := fun h => hi (h ▸ List.mem_cons_self ..)
      rw [List.orderedInsert_cons]
      split
      · rename_i hle
        have hlt := Nat.lt_of_le_of_ne hle hne
        refine List.pairwise_cons.mpr ⟨?_, hsorted⟩
        intro k hk
        rcases List.mem_cons.mp hk with rfl | hk
        · exact hlt
        · exact Nat.lt_trans hlt (hj k hk)
      · rename_i hgt
        refine List.pairwise_cons.mpr
          ⟨?_, ih hl fun h => hi (List.mem_cons_of_mem _ h)⟩
        intro k hk
        rcases (List.mem_orderedInsert ..).mp hk with rfl | hk
        · omega
        · exact hj k hk

/-- The cursor and the slices that have come to it. -/
structure Ahead (lengths : Nat → Nat) (c : WFlowTruncateCursor)
    (evicted : List Nat) (l : List Nat) : Prop where
  slices : c.evictedSlices = l.map (sliceAt lengths)
  sorted : l.Pairwise (· < ·)
  gt : ∀ i ∈ l, c.preTruncateSliceIndex < i
  evicted_iff : ∀ i, i ∈ evicted ↔ i < c.preTruncateSliceIndex ∨ i ∈ l

variable {c : WFlowTruncateCursor} {evicted : List Nat}

theorem Ahead.front (h : Ahead lengths c evicted l) :
    Front (· ∈ evicted) c.preTruncateSliceIndex where
  below := fun i hi => (h.evicted_iff i).mpr (.inl hi)
  stop := by
    intro hn
    rcases (h.evicted_iff _).mp hn with hlt | hmem
    · exact Nat.lt_irrefl _ hlt
    · exact Nat.lt_irrefl _ (h.gt _ hmem)

/-- **THE CURSOR** hands out the last slice before its new index, if it has
    moved. -/
theorem Ahead.getTruncateSlice (h : Ahead lengths c evicted l)
    (hi : i ∉ evicted) :
    ∃ l', Ahead lengths (getTruncateSlice c (sliceAt lengths i)).2
        (evicted ++ [i]) l' ∧
      c.preTruncateSliceIndex ≤
        (getTruncateSlice c (sliceAt lengths i)).2.preTruncateSliceIndex ∧
      (getTruncateSlice c (sliceAt lengths i)).1 =
        if c.preTruncateSliceIndex <
            (getTruncateSlice c (sliceAt lengths i)).2.preTruncateSliceIndex
        then some (sliceAt lengths
          ((getTruncateSlice c (sliceAt lengths i)).2.preTruncateSliceIndex - 1))
        else none := by
  have hnot : i ∉ l := fun hmem => hi ((h.evicted_iff i).mpr (.inr hmem))
  have hge : c.preTruncateSliceIndex ≤ i :=
    Nat.not_lt.mp fun hlt => hi ((h.evicted_iff i).mpr (.inl hlt))
  have hgeAll : ∀ j ∈ l.orderedInsert (· ≤ ·) i,
      c.preTruncateSliceIndex ≤ j := by
    intro j hj
    rcases (List.mem_orderedInsert ..).mp hj with rfl | hj
    · exact hge
    · exact Nat.le_of_lt (h.gt j hj)
  obtain ⟨hloop, hle⟩ := truncateLoop_map lengths
    (l.orderedInsert (· ≤ ·) i) c.preTruncateSliceIndex none
  obtain ⟨hiff, hsorted, hgt⟩ := advance_sorted _ c.preTruncateSliceIndex
    (orderedInsert_sorted h.sorted hnot) hgeAll
  have heq : UbsIo.Cursor.getTruncateSlice c (sliceAt lengths i) =
      truncateLoop c.preTruncateSliceIndex
        ((l.orderedInsert (· ≤ ·) i).map (sliceAt lengths)) none := by
    rw [UbsIo.Cursor.getTruncateSlice, h.slices, emplace_map]
  rw [heq, hloop]
  refine ⟨_, ⟨rfl, hsorted, hgt, ?_⟩, hle, rfl⟩
  intro j
  rw [← hiff, List.mem_append, h.evicted_iff, List.mem_singleton,
    List.mem_orderedInsert, or_assoc, or_comm (a := j ∈ l)]

/-! ## The tier -/

variable {ι : Type} {s s' : Tier ι} {t : ι}

theorem startOf_mono (lengths : Nat → Nat) {i j : Nat} (h : i ≤ j) :
    startOf lengths i ≤ startOf lengths j := by
  induction h with
  | refl => exact Nat.le_refl _
  | step _ ih => exact Nat.le_trans ih (Nat.le_add_right ..)

/-- How far a thread is going to truncate the meta flow, and the data flow. -/
def Phase.metaTarget : Phase → Option Nat
  | .truncateMeta slice => some slice.metaEnd
  | _ => none

def Phase.dataTarget : Phase → Option Nat
  | .truncateMeta slice => some slice.dataEnd
  | .truncateData slice => some slice.dataEnd
  | _ => none

/-- A thread that has not come to the cursor has a slice of the tier for
    itself. -/
structure Waiting (lengths : Nat → Nat) (s : Tier ι) : Prop where
  slice : ∀ t slice, s.threads t = .cursor slice →
    ∃ i ∈ s.called, i ∉ s.evicted ∧ slice = sliceAt lengths i
  own : ∀ t u slice, s.threads t = .cursor slice →
    s.threads u = .cursor slice → t = u
  evicted : ∀ i ∈ s.evicted, i ∈ s.called
  called : ∀ i ∈ s.called, i ∈ s.evicted ∨
    ∃ t, s.threads t = .cursor (sliceAt lengths i)

/-- The tier follows the evicted prefix. -/
structure Follows (lengths : Nat → Nat) (s : Tier ι) : Prop where
  ahead : ∃ l, Ahead lengths s.cursor s.evicted l
  waiting : Waiting lengths s
  metaMark : HighWater s.metaFlow.truncateOffset
    (s.cursor.preTruncateSliceIndex * metaSize)
    (Pending fun t => (s.threads t).metaTarget)
  dataMark : HighWater s.dataFlow.truncateOffset
    (startOf lengths s.cursor.preTruncateSliceIndex)
    (Pending fun t => (s.threads t).dataTarget)

theorem follows_init (lengths : Nat → Nat) :
    Follows lengths (Tier.init ι) where
  ahead := by
    refine ⟨[], rfl, List.Pairwise.nil, nofun, ?_⟩
    intro i
    constructor
    · exact nofun
    · rintro (h | h)
      · exact absurd h (Nat.not_lt_zero i)
      · cases h
  waiting := ⟨nofun, nofun, nofun, nofun⟩
  metaMark := by
    refine ⟨Nat.zero_le _, ?_, .inl (Nat.zero_mul metaSize).symm⟩
    rintro x ⟨t, h⟩
    cases h
  dataMark := by
    refine ⟨Nat.zero_le _, ?_, .inl rfl⟩
    rintro x ⟨t, h⟩
    cases h

variable [DecidableEq ι]

theorem goto_threads_self (s : Tier ι) (t : ι) (p : Phase) :
    (s.goto t p).threads t = p := Function.update_self ..

theorem goto_threads_ne (s : Tier ι) {t u : ι} (p : Phase) (h : u ≠ t) :
    (s.goto t p).threads u = s.threads u := Function.update_of_ne h ..

/-- A thread that is not at the cursor goes elsewhere. -/
theorem Waiting.goto (h : Waiting lengths s) {p : Phase}
    (ht : ∀ slice, s.threads t ≠ .cursor slice)
    (hp : ∀ slice, p ≠ .cursor slice) : Waiting lengths (s.goto t p) where
  slice := by
    intro u slice hu
    by_cases hut : u = t
    · subst hut
      rw [goto_threads_self] at hu
      exact absurd hu (hp slice)
    · rw [goto_threads_ne _ _ hut] at hu
      exact h.slice u slice hu
  own := by
    intro u v slice hu hv
    by_cases hut : u = t
    · subst hut
      rw [goto_threads_self] at hu
      exact absurd hu (hp slice)
    · by_cases hvt : v = t
      · subst hvt
        rw [goto_threads_self] at hv
        exact absurd hv (hp slice)
      · rw [goto_threads_ne _ _ hut] at hu
        rw [goto_threads_ne _ _ hvt] at hv
        exact h.own u v slice hu hv
  evicted := h.evicted
  called := by
    intro i hi
    rcases h.called i hi with hi | ⟨u, hu⟩
    · exact .inl hi
    · have hut : u ≠ t := by
        rintro rfl
        exact ht _ hu
      exact .inr ⟨u, (goto_threads_ne _ _ hut).trans hu⟩

/-- `Evict` is called on a new slice. -/
theorem Waiting.evict (h : Waiting lengths s) (ht : s.threads t = .idle)
    (hi : i ∉ s.called) :
    Waiting lengths (Tier.goto { s with called := s.called ++ [i] } t
      (.cursor (sliceAt lengths i))) := by
  have hfresh : ∀ u, s.threads u ≠ .cursor (sliceAt lengths i) := by
    intro u hu
    obtain ⟨j, hj, -, heq⟩ := h.slice u _ hu
    have hij : i = j := congrArg WCacheSlice.indexInFlow heq
    exact hi (hij ▸ hj)
  refine ⟨?_, ?_, ?_, ?_⟩
  · intro u slice hu
    by_cases hut : u = t
    · subst hut
      rw [goto_threads_self] at hu
      cases hu
      exact ⟨i, List.mem_append_right _ (List.mem_singleton_self i),
        fun hmem => hi (h.evicted i hmem), rfl⟩
    · rw [goto_threads_ne _ _ hut] at hu
      obtain ⟨j, hj, hnot, heq⟩ := h.slice u slice hu
      exact ⟨j, List.mem_append_left _ hj, hnot, heq⟩
  · intro u v slice hu hv
    by_cases hut : u = t
    · subst hut
      rw [goto_threads_self] at hu
      cases hu
      by_cases hvt : v = u
      · exact hvt.symm
      · rw [goto_threads_ne _ _ hvt] at hv
        exact absurd hv (hfresh v)
    · rw [goto_threads_ne _ _ hut] at hu
      by_cases hvt : v = t
      · subst hvt
        rw [goto_threads_self] at hv
        cases hv
        exact absurd hu (hfresh u)
      · rw [goto_threads_ne _ _ hvt] at hv
        exact h.own u v slice hu hv
  · exact fun j hj => List.mem_append_left _ (h.evicted j hj)
  · intro j hj
    rcases List.mem_append.mp hj with hj | hj
    · rcases h.called j hj with hj | ⟨u, hu⟩
      · exact .inl hj
      · have hut : u ≠ t := by
          rintro rfl
          rw [ht] at hu
          cases hu
        exact .inr ⟨u, (goto_threads_ne _ _ hut).trans hu⟩
    · rw [List.mem_singleton.mp hj]
      exact .inr ⟨t, goto_threads_self ..⟩

/-- A thread comes to the cursor. -/
theorem Waiting.pass (h : Waiting lengths s)
    (ht : s.threads t = .cursor (sliceAt lengths i)) {p : Phase}
    (hp : ∀ slice, p ≠ .cursor slice) (c : WFlowTruncateCursor) :
    Waiting lengths (Tier.goto
      { s with cursor := c, evicted := s.evicted ++ [i] } t p) := by
  refine ⟨?_, ?_, ?_, ?_⟩
  · intro u slice hu
    by_cases hut : u = t
    · subst hut
      rw [goto_threads_self] at hu
      exact absurd hu (hp slice)
    · rw [goto_threads_ne _ _ hut] at hu
      obtain ⟨j, hj, hnot, rfl⟩ := h.slice u slice hu
      refine ⟨j, hj, ?_, rfl⟩
      intro hmem
      rcases List.mem_append.mp hmem with hmem | hmem
      · exact hnot hmem
      · rw [List.mem_singleton.mp hmem] at hu
        exact hut (h.own u t _ hu ht)
  · intro u v slice hu hv
    by_cases hut : u = t
    · subst hut
      rw [goto_threads_self] at hu
      exact absurd hu (hp slice)
    · by_cases hvt : v = t
      · subst hvt
        rw [goto_threads_self] at hv
        exact absurd hv (hp slice)
      · rw [goto_threads_ne _ _ hut] at hu
        rw [goto_threads_ne _ _ hvt] at hv
        exact h.own u v slice hu hv
  · intro j hj
    rcases List.mem_append.mp hj with hj | hj
    · exact h.evicted j hj
    · obtain ⟨k, hk, -, heq⟩ := h.slice t _ ht
      have hik : i = k := congrArg WCacheSlice.indexInFlow heq
      rw [List.mem_singleton.mp hj, hik]
      exact hk
  · intro j hj
    rcases h.called j hj with hj | ⟨u, hu⟩
    · exact .inl (List.mem_append_left _ hj)
    · by_cases hut : u = t
      · subst hut
        have hslice := ht.symm.trans hu
        have hij : i = j := by
          injection hslice with hslice
          exact congrArg WCacheSlice.indexInFlow hslice
        rw [hij]
        exact .inl (List.mem_append_right _ (List.mem_singleton_self j))
      · exact .inr ⟨u, (goto_threads_ne _ _ hut).trans hu⟩

theorem truncate_eq {f f' : FlowOffsets} {offset : Nat}
    (h : f.truncate offset = some f') :
    f'.truncateOffset = max f.truncateOffset offset := by
  rw [FlowOffsets.truncate] at h
  split at h
  · cases h
  · split at h
    · rename_i hle
      cases h
      exact (Nat.max_eq_left hle).symm
    · rename_i hlt
      cases h
      exact (Nat.max_eq_right (Nat.le_of_not_le hlt)).symm

theorem truncate_within {f : FlowOffsets} {offset : Nat}
    (hload : offset ≤ f.preLoadOffset) (hwriten : offset ≤ f.writenOffset) :
    f.truncate offset ≠ none := by
  rw [FlowOffsets.truncate, if_neg (by omega)]
  split <;> exact Option.some_ne_none _

/-- A thread that goes from one place to another with the same target. -/
theorem target_goto {α : Type} {target : Phase → α} {p q : Phase}
    {s s' : Tier ι} (hs : s'.threads = (s.goto t p).threads)
    (ht : s.threads t = q) (htarget : target p = target q) (u : ι) :
    target (s'.threads u) = target (s.threads u) := by
  rw [hs]
  by_cases hu : u = t
  · subst hu
    rw [goto_threads_self, ht, htarget]
  · rw [goto_threads_ne _ _ hu]

/-- A flow is truncated within what was written. -/
def Within (s : Tier ι) : Event ι → Prop
  | .go t =>
      (∀ slice, s.threads t = .truncateMeta slice →
        slice.metaEnd ≤ s.metaFlow.preLoadOffset ∧
          slice.metaEnd ≤ s.metaFlow.writenOffset) ∧
      ∀ slice, s.threads t = .truncateData slice →
        slice.dataEnd ≤ s.dataFlow.preLoadOffset ∧
          slice.dataEnd ≤ s.dataFlow.writenOffset
  | _ => True

/-- The section of the cursor. -/
theorem Follows.evictStep {slice : WCacheSlice} (h : Follows lengths s)
    (ht : s.threads t = .cursor slice) :
    Follows lengths (evictStep s t slice) := by
  obtain ⟨l, hl⟩ := h.ahead
  obtain ⟨i, hcalled, hnot, rfl⟩ := h.waiting.slice t slice ht
  obtain ⟨l', hl', hle, hout⟩ := hl.getTruncateSlice hnot
  rw [UbsIo.Cursor.evictStep]
  generalize getTruncateSlice s.cursor (sliceAt lengths i) = out at hl' hle hout
  obtain ⟨truncateSlice, c⟩ := out
  dsimp only at hl' hle hout ⊢
  rw [hout]
  have hwait : ∀ p : Phase, (∀ x, p ≠ .cursor x) → Waiting lengths
      (Tier.goto { s with cursor := c, evicted := s.evicted ++ [i] } t p) :=
    fun p hp => h.waiting.pass ht hp c
  by_cases hmoved : s.cursor.preTruncateSliceIndex < c.preTruncateSliceIndex
  · -- the thread that has moved the cursor truncates up to it
    rw [if_pos hmoved]
    have hpred : c.preTruncateSliceIndex - 1 + 1 = c.preTruncateSliceIndex := by
      omega
    refine ⟨⟨l', hl'⟩, hwait _ fun _ => nofun, ?_, ?_⟩
    · refine h.metaMark.move_thread (t := t) (Nat.mul_le_mul_right _ hle) ?_ ?_
      · show Phase.metaTarget ((Tier.goto _ t _).threads t) = _
        rw [goto_threads_self]
        show some ((c.preTruncateSliceIndex - 1 + 1) * metaSize) = _
        rw [hpred]
        rfl
      · intro u hu
        show Phase.metaTarget ((Tier.goto _ t _).threads u) = _
        rw [goto_threads_ne _ _ hu]
    · refine h.dataMark.move_thread (t := t) (startOf_mono lengths hle) ?_ ?_
      · show Phase.dataTarget ((Tier.goto _ t _).threads t) = _
        rw [goto_threads_self]
        show some (startOf lengths (c.preTruncateSliceIndex - 1 + 1)) = _
        rw [hpred]
        rfl
      · intro u hu
        show Phase.dataTarget ((Tier.goto _ t _).threads u) = _
        rw [goto_threads_ne _ _ hu]
  · -- the cursor has not moved
    have heq : c.preTruncateSliceIndex = s.cursor.preTruncateSliceIndex := by
      omega
    rw [if_neg hmoved]
    refine ⟨⟨l', hl'⟩, hwait _ fun _ => nofun, ?_, ?_⟩
    · show HighWater s.metaFlow.truncateOffset
        (c.preTruncateSliceIndex * metaSize) _
      rw [heq]
      exact h.metaMark.keep_thread (target_goto rfl ht rfl)
    · show HighWater s.dataFlow.truncateOffset
        (startOf lengths c.preTruncateSliceIndex) _
      rw [heq]
      exact h.dataMark.keep_thread (target_goto rfl ht rfl)

theorem Follows.step {e : Event ι} (h : Follows lengths s)
    (hg : Within s e) (hs : step lengths s e = some s') :
    Follows lengths s' := by
  cases e with
  | evict t i =>
      simp only [UbsIo.Cursor.step] at hs
      split at hs
      swap
      · cases hs
      rename_i hcond
      cases hs
      obtain ⟨ht, hi⟩ := hcond
      refine ⟨h.ahead, h.waiting.evict ht hi, ?_, ?_⟩
      · exact h.metaMark.keep_thread (target_goto rfl ht rfl)
      · exact h.dataMark.keep_thread (target_goto rfl ht rfl)
  | go t =>
      simp only [UbsIo.Cursor.step] at hs
      split at hs
      · cases hs
      · rename_i slice ht
        cases hs
        exact h.evictStep ht
      · rename_i slice ht
        obtain ⟨hload, hwriten⟩ := hg.1 slice ht
        split at hs
        · rename_i hnone
          exact absurd hnone (truncate_within hload hwriten)
        · rename_i f hf
          cases hs
          have hwait := h.waiting.goto (t := t) (p := .truncateData slice)
            (by rw [ht]; exact fun _ => nofun) fun _ => nofun
          refine ⟨h.ahead, ⟨hwait.slice, hwait.own, hwait.evicted,
            hwait.called⟩, ?_, ?_⟩
          · rw [show (Tier.goto { s with metaFlow := f } t
                (.truncateData slice)).metaFlow.truncateOffset = _ from
              truncate_eq hf]
            refine h.metaMark.raise_thread (t := t) ?_ ?_ ?_
            · rw [ht]
              rfl
            · rw [goto_threads_self]
              rfl
            · intro u hu
              rw [goto_threads_ne _ _ hu]
          · exact h.dataMark.keep_thread (target_goto rfl ht rfl)
      · rename_i slice ht
        obtain ⟨hload, hwriten⟩ := hg.2 slice ht
        split at hs
        · rename_i hnone
          exact absurd hnone (truncate_within hload hwriten)
        · rename_i f hf
          cases hs
          have hwait := h.waiting.goto (t := t) (p := .idle)
            (by rw [ht]; exact fun _ => nofun) fun _ => nofun
          refine ⟨h.ahead, ⟨hwait.slice, hwait.own, hwait.evicted,
            hwait.called⟩, ?_, ?_⟩
          · exact h.metaMark.keep_thread (target_goto rfl ht rfl)
          · rw [show (Tier.goto { s with dataFlow := f } t
                .idle).dataFlow.truncateOffset = _ from truncate_eq hf]
            refine h.dataMark.raise_thread (t := t) ?_ ?_ ?_
            · rw [ht]
              rfl
            · rw [goto_threads_self]
              rfl
            · intro u hu
              rw [goto_threads_ne _ _ hu]
  | growMeta preLoadOffset writenOffset =>
      cases hs
      exact ⟨h.ahead, ⟨h.waiting.slice, h.waiting.own, h.waiting.evicted,
        h.waiting.called⟩, h.metaMark, h.dataMark⟩
  | growData preLoadOffset writenOffset =>
      cases hs
      exact ⟨h.ahead, ⟨h.waiting.slice, h.waiting.own, h.waiting.evicted,
        h.waiting.called⟩, h.metaMark, h.dataMark⟩

/-- **TRUNCATION FOLLOWS THE EVICTED PREFIX**: no flow is truncated behind it,
    and both flows are truncated up to its end when no `Evict` is in
    progress. -/
theorem truncation_follows {es : List (Event ι)}
    (hgood : Along (UbsIo.Cursor.step lengths) Within (Tier.init ι) es)
    (hrun : runFrom (UbsIo.Cursor.step lengths) (Tier.init ι) es = some s) :
    ∃ n, Front (· ∈ s.evicted) n ∧ (∀ i ∈ s.evicted, i ∈ s.called) ∧
      s.metaFlow.truncateOffset ≤ n * metaSize ∧
      s.dataFlow.truncateOffset ≤ startOf lengths n ∧
      ((∀ t, s.threads t = .idle) →
        (∀ i ∈ s.called, i ∈ s.evicted) ∧
        s.metaFlow.truncateOffset = n * metaSize ∧
        s.dataFlow.truncateOffset = startOf lengths n) := by
  have h : Follows lengths s := runFrom_invariant_along
    (fun _ _ _ h hg hs => Follows.step h hg hs) es _ _
    (follows_init lengths) hgood hrun
  obtain ⟨l, hl⟩ := h.ahead
  refine ⟨_, hl.front, h.waiting.evicted, h.metaMark.le, h.dataMark.le, ?_⟩
  intro hidle
  refine ⟨?_, h.metaMark.quiet ?_, h.dataMark.quiet ?_⟩
  · intro i hi
    rcases h.waiting.called i hi with hi | ⟨t, ht⟩
    · exact hi
    · rw [hidle t] at ht
      cases ht
  · rintro x ⟨t, ht⟩
    dsimp only at ht
    rw [hidle t] at ht
    cases ht
  · rintro x ⟨t, ht⟩
    dsimp only at ht
    rw [hidle t] at ht
    cases ht

/-- The flows of the tier: `TruncateOffset` is what moves the truncate offset,
    and it moves it to the maximum. -/
theorem flow_truncateOffset {d : Flows.Dims} {f f' : Flows.Flow ι}
    {e : Flows.Event ι} (h : Flows.step d f e = some f') :
    f'.truncateOffset = f.truncateOffset ∨
      ∃ t offset, e = .go t ∧ f.threads t = .truncate offset ∧
        f'.truncateOffset = max f.truncateOffset offset := by
  cases Flows.trans_of_step h with
  | truncated t offset ht hlt =>
      exact .inr ⟨t, offset, rfl, ht,
        (Nat.max_eq_right (Nat.le_of_lt hlt)).symm⟩
  | _ => exact .inl rfl

/-- A check that is enough for a truncation within what was written. -/
def withinB (s : Tier (Fin 2)) : Event (Fin 2) → Bool
  | .go t =>
      match s.threads t with
      | .truncateMeta slice =>
          decide (slice.metaEnd ≤ s.metaFlow.preLoadOffset ∧
            slice.metaEnd ≤ s.metaFlow.writenOffset)
      | .truncateData slice =>
          decide (slice.dataEnd ≤ s.dataFlow.preLoadOffset ∧
            slice.dataEnd ≤ s.dataFlow.writenOffset)
      | _ => true
  | _ => true

theorem within_of_withinB {s : Tier (Fin 2)} {e : Event (Fin 2)}
    (hcheck : withinB s e = true) : Within s e := by
  cases e with
  | go t =>
      constructor
      · intro slice ht
        simp only [withinB, ht] at hcheck
        exact of_decide_eq_true hcheck
      · intro slice ht
        simp only [withinB, ht] at hcheck
        exact of_decide_eq_true hcheck
  | _ => trivial

/-- Slices of one page. -/
def pages (_ : Nat) : Nat := 4096

/-- The slice 1 is evicted first, and the newer truncation comes before the
    older one. -/
def outOfOrder : List (Event (Fin 2)) :=
  [.growMeta 2048 2048, .growData 16384 16384, .evict (two 0) 1, .go (two 0),
   .evict (two 1) 0, .go (two 1), .evict (two 0) 2, .go (two 0), .go (two 0),
   .go (two 0), .go (two 1), .go (two 1)]

theorem truncation_follows_outOfOrder :
    ∃ s, runFrom (step pages) (Tier.init (Fin 2)) outOfOrder = some s ∧
      Front (· ∈ s.evicted) 3 ∧ s.metaFlow.truncateOffset = 3 * metaSize ∧
      s.dataFlow.truncateOffset = 3 * 4096 := by
  have hcheck : (runFrom (step pages) (Tier.init (Fin 2)) outOfOrder).any
      (fun s => decide (∀ t, s.threads t = .idle) &&
        decide (s.evicted = [1, 0, 2])) = true := by
    decide +kernel
  have hgood : alongB (step pages) withinB (Tier.init (Fin 2)) outOfOrder =
      true := by
    decide +kernel
  obtain ⟨s, hs, hcheck⟩ := (Option.any_eq_true _ _).mp hcheck
  obtain ⟨hidle, hevicted⟩ := Bool.and_eq_true_iff.mp hcheck
  obtain ⟨n, hfront, -, -, -, hquiet⟩ := truncation_follows
    (along_of_alongB (fun _ _ h => within_of_withinB h) _ _ hgood) hs
  have hthree : Front (· ∈ s.evicted) 3 := by
    rw [of_decide_eq_true hevicted]
    exact ⟨by decide, by decide⟩
  obtain ⟨-, hmeta, hdata⟩ := hquiet (of_decide_eq_true hidle)
  rw [hfront.unique hthree] at hmeta hdata
  exact ⟨s, hs, hthree, hmeta, hdata⟩

end UbsIo.Cursor
