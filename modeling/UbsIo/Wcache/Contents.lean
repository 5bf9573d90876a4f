import UbsIo.Wcache.Release

/-! # What a reader finds

    The key and the value that a `Put` has written stay with its slice
    (`Wrote`): the disk tier has a copy of what was in memory (`Copied`), a
    tier gives back only chunks of slices that have left it (`Behind`), and a
    slice that a reader holds does not leave (`Held`). -/

namespace UbsIo.Wcache

open UbsIo.Lib

variable {ι κ β : Type}

/-! ## The places that a step leads to -/

/-- The key and the slice that the thread reads for a `Get`. -/
def Phase.get? : Phase κ β → Option (κ × Slot)
  | .read key s => some (key, s)
  | _ => none

theorem read_of_get {p : Phase κ β} {key : κ} {s : Slot}
    (h : p.get? = some (key, s)) : p = .read key s := by
  cases p with
  | read key' s' =>
      cases h
      rfl
  | _ => cases h

/-- The slice up to which the thread is about to truncate the memory tier. -/
def Phase.truncating : Phase κ β → Option (Nat × Nat)
  | .truncate .toDisk _ s index => some (s.flowId, index)
  | _ => none

/-- A section leads from `p` to `q`: not into a `Get`, to a truncation of the
    memory tier only from its cursor, and a `Delete` that has taken its key off
    the index goes on until it returns. -/
structure Enters (p q : Phase κ β) (erased : κ → Bool) : Prop where
  get : q.get? = none
  truncating : q.truncating = none ∨ ∃ r s, p = .cursor .toDisk r s
  erased : ∀ x, p.erased? = some x → q.erased? = some x ∨ erased x.1 = true

theorem Enters.of {p q q' : Phase κ β} {erased : κ → Bool} (hq : q' = q)
    (hget : q.get? = none)
    (htruncating : q.truncating = none ∨ ∃ r s, p = .cursor .toDisk r s)
    (herased : p.erased? = none ∨ q.erased? = p.erased?) :
    Enters p q' erased := by
  subst hq
  refine ⟨hget, htruncating, fun x hx => .inl ?_⟩
  rcases herased with hnone | hsame
  · rw [hx] at hnone
    cases hnone
  · exact hsame.trans hx

theorem enters_afterEvict (tier : Tier) (s : Slot) (j : Job κ β)
    {p q : Phase κ β} {erased : κ → Bool} (hq : q = afterEvict tier s j)
    (hp : p.erased? = none) : Enters p q erased := by
  cases j with
  | background glob => exact .of hq rfl (.inl rfl) (.inl hp)
  | front a =>
      rw [afterEvict] at hq
      split at hq
      · exact .of hq rfl (.inl rfl) (.inl hp)
      · exact .of hq rfl (.inl rfl) (.inl hp)

variable [DecidableEq ι] [DecidableEq κ] {L : Layout} {isMaster : Bool}
  {n n' : Node ι κ β} {e : Event ι κ β} {loc : Slot → Loc ι} {t : ι}

omit [DecidableEq κ] in
theorem goto_self (m : Node ι κ β) (q : Phase κ β) :
    (m.goto t q).threads t = q := Function.update_self ..

omit [DecidableEq ι] [DecidableEq κ] in
theorem getData_eq_some {tier : Tier} {s : Slot} {b : β}
    (h : n.getData tier s = some b) : n.contents tier s = some b := by
  simp only [Node.getData] at h
  split at h
  · cases h
  · exact h

theorem enters_of_resume :
    ∀ p : Phase κ β, resume L isMaster n t p = some n' →
      Enters p (n'.threads t) n'.history.erased := by
  intro p h
  cases p with
  | idle => cases h
  | write p =>
      cases h
      exact .of (goto_self ..) rfl (.inl rfl) (.inl rfl)
  | negotiate p =>
      cases h
      by_cases hs : p.strategy = .memBack
      · exact .of ((goto_self ..).trans (if_pos hs)) rfl (.inl rfl) (.inl rfl)
      · exact .of ((goto_self ..).trans (if_neg hs)) rfl (.inl rfl) (.inl rfl)
  | frontMemory p =>
      simp only [resume] at h
      split at h
      · cases h
        by_cases hs : p.strategy = .diskBack
        · exact .of ((goto_self ..).trans (if_pos hs)) rfl (.inl rfl) (.inl rfl)
        · exact .of ((goto_self ..).trans (if_neg hs)) rfl (.inl rfl) (.inl rfl)
      · cases h
        exact .of (goto_self ..) rfl (.inl rfl) (.inl rfl)
  | frontDisk p =>
      simp only [resume] at h
      split at h
      all_goals
        cases h
        exact .of (goto_self ..) rfl (.inl rfl) (.inl rfl)
  | insert p =>
      cases h
      exact .of (goto_self ..) rfl (.inl rfl) (.inl rfl)
  | evictAll tier flowId glob =>
      simp only [resume] at h
      split at h
      · cases h
        exact .of (goto_self ..) rfl (.inl rfl) (.inl rfl)
      · split at h
        · cases h
          exact .of (goto_self ..) rfl (.inl rfl) (.inl rfl)
        · cases h
        · split at h
          · cases h
            exact .of (goto_self ..) rfl (.inl rfl) (.inl rfl)
          · split at h
            all_goals
              cases h
              exact .of (goto_self ..) rfl (.inl rfl) (.inl rfl)
  | lock tier j s =>
      simp only [resume] at h
      split at h
      · cases h
      · split at h
        · cases h
          exact .of (goto_self ..) rfl (.inl rfl) (.inl rfl)
        · cases h
          cases tier
          all_goals exact .of (goto_self ..) rfl (.inl rfl) (.inl rfl)
  | copy j s =>
      simp only [resume] at h
      split at h
      · split at h
        all_goals
          cases h
          exact .of (goto_self ..) rfl (.inl rfl) (.inl rfl)
      · cases h
        exact .of (goto_self ..) rfl (.inl rfl) (.inl rfl)
  | underFs j s =>
      simp only [resume] at h
      split at h
      · split at h
        · cases h
          exact .of (goto_self ..) rfl (.inl rfl) (.inl rfl)
        · split at h
          all_goals
            cases h
            exact .of (goto_self ..) rfl (.inl rfl) (.inl rfl)
      · cases h
        exact .of (goto_self ..) rfl (.inl rfl) (.inl rfl)
  | mark j s =>
      simp only [resume] at h
      split at h
      all_goals
        cases h
        exact .of (goto_self ..) rfl (.inl rfl) (.inl rfl)
  | setSlice c j s =>
      simp only [resume] at h
      split at h
      · cases h
      · split at h
        all_goals
          cases h
          exact .of (goto_self ..) rfl (.inl rfl) (.inl rfl)
  | unlock tier j s ok =>
      simp only [resume] at h
      split at h
      · cases h
      · cases h
        cases ok with
        | true => exact enters_afterEvict tier s j (goto_self ..) rfl
        | false => exact .of (goto_self ..) rfl (.inl rfl) (.inl rfl)
  | requeue tier j s =>
      cases j
      all_goals
        cases h
        exact .of (goto_self ..) rfl (.inl rfl) (.inl rfl)
  | cursor c r s =>
      simp only [resume] at h
      split at h
      · cases h
        exact .of (goto_self ..) rfl (.inl rfl) (.inr rfl)
      · cases h
        cases c with
        | toDisk => exact .of (goto_self ..) rfl (.inr ⟨r, s, rfl⟩) (.inr rfl)
        | toUnderFs key => exact .of (goto_self ..) rfl (.inl rfl) (.inr rfl)
  | truncate c r s index =>
      cases h
      exact .of (goto_self ..) rfl (.inl rfl) (.inr rfl)
  | finish c r s =>
      cases c with
      | toDisk =>
          cases h
          exact .of (goto_self ..) rfl (.inl rfl) (.inr rfl)
      | toUnderFs key =>
          simp only [resume] at h
          split at h
          · cases h
          · split at h
            all_goals
              cases h
              exact .of (goto_self ..) rfl (.inl rfl) (.inr rfl)
  | back r s =>
      cases r with
      | evict tier j =>
          cases h
          exact .of (goto_self ..) rfl (.inl rfl) (.inl rfl)
      | get =>
          cases h
          exact .of (goto_self ..) rfl (.inl rfl) (.inl rfl)
      | delete key stamp ok =>
          cases ok with
          | true =>
              -- it returns
              cases h
              refine ⟨congrArg Phase.get? (goto_self ..),
                .inl (congrArg Phase.truncating (goto_self ..)), ?_⟩
              rintro x ⟨⟩
              exact .inr (Function.update_self ..)
          | false =>
              cases h
              exact .of (goto_self ..) rfl (.inl rfl) (.inl rfl)
  | read key s =>
      cases h
      exact .of (goto_self ..) rfl (.inl rfl) (.inl rfl)
  | release r s =>
      simp only [resume] at h
      split at h
      · cases h
      · split at h
        · split at h
          all_goals
            cases h
            exact .of (goto_self ..) rfl (.inl rfl) (.inr rfl)
        · cases h
          exact .of (goto_self ..) rfl (.inl rfl) (.inr rfl)
  | opLock key s stamp =>
      simp only [resume] at h
      split at h
      · cases h
      · split at h
        all_goals
          cases h
          exact .of (goto_self ..) rfl (.inl rfl) (.inl rfl)
  | deleteMark key s stamp =>
      simp only [resume] at h
      split at h
      · cases h
      · split at h
        · cases h
          exact .of (goto_self ..) rfl (.inl rfl) (.inl rfl)
        · split at h
          all_goals
            cases h
            exact .of (goto_self ..) rfl (.inl rfl) (.inl rfl)
  | deleteIndex key s stamp =>
      simp only [resume] at h
      split at h
      · cases h
        exact .of (goto_self ..) rfl (.inl rfl) (.inl rfl)
      · split at h
        all_goals
          cases h
          exact .of (goto_self ..) rfl (.inl rfl) (.inl rfl)
  | setState key s stamp =>
      simp only [resume] at h
      split at h
      · cases h
      · cases h
        exact .of (goto_self ..) rfl (.inl rfl) (.inr rfl)
  | deleteUnlock key s stamp ok =>
      simp only [resume] at h
      split at h
      · cases h
      · cases h
        cases ok
        all_goals exact .of (goto_self ..) rfl (.inl rfl) (.inr rfl)

theorem enters_of_interrupt :
    ∀ p : Phase κ β, interrupt n t p = some n' →
      Enters p (n'.threads t) n'.history.erased := by
  intro p h
  cases p with
  | truncate c r s index =>
      cases c
      all_goals
        cases h
        exact .of (goto_self ..) rfl (.inl rfl) (.inr rfl)
  | write | insert | evictAll | copy | underFs | mark | read | deleteMark =>
      cases h
      exact .of (goto_self ..) rfl (.inl rfl) (.inl rfl)
  | _ => cases h

/-- Where the thread of an event is after the step. -/
theorem step_enters (h : step L isMaster n e = some n')
    (ht : e.thread = some t) :
    Enters (n.threads t) (n'.threads t) n'.history.erased ∨
      ∃ key s r, e = .get t key ∧ n.aquire key = some (s, r) ∧
        n'.threads t = .read key s := by
  cases e with
  | put u p =>
      cases ht
      simp only [step] at h
      split at h
      · rename_i hidle
        split at h
        · cases h
        · cases h
          rw [hidle]
          exact .inl (.of (goto_self ..) rfl (.inl rfl) (.inl rfl))
      · cases h
  | get u key =>
      cases ht
      simp only [step] at h
      split at h
      · rename_i hidle
        split at h
        · cases h
          rw [hidle]
          exact .inl (.of rfl rfl (.inl rfl) (.inl rfl))
        · rename_i s r hr
          cases h
          exact .inr ⟨key, s, r, rfl, hr, goto_self ..⟩
      · cases h
  | delete u key =>
      cases ht
      simp only [step] at h
      split at h
      · rename_i hidle
        split at h
        · cases h
          rw [hidle]
          exact .inl (.of rfl rfl (.inl rfl) (.inl rfl))
        · cases h
          rw [hidle]
          exact .inl (.of (goto_self ..) rfl (.inl rfl) (.inl rfl))
      · cases h
  | evictAll u tier flowId glob =>
      cases ht
      simp only [step] at h
      split at h
      · rename_i hidle
        cases h
        rw [hidle]
        exact .inl (.of (goto_self ..) rfl (.inl rfl) (.inl rfl))
      · cases h
  | go u =>
      cases ht
      exact .inl (enters_of_resume _ h)
  | fail u =>
      cases ht
      exact .inl (enters_of_interrupt _ h)
  | negotiated s => cases ht
  | flushed s => cases ht

/-- A thread that reads for a `Get` has read already, or has just aquired the
    slice. -/
theorem get_of_step (h : step L isMaster n e = some n') {key : κ} {s : Slot}
    (hq : n'.threads t = .read key s) :
    n.threads t = .read key s ∨
      ∃ r, e = .get t key ∧ n.aquire key = some (s, r) := by
  by_cases ht : e.thread = some t
  · rcases step_enters h ht with henters | ⟨key', s', r, he, hr, hq'⟩
    · have hget := henters.get
      rw [hq] at hget
      cases hget
    · rw [hq] at hq'
      cases hq'
      exact .inr ⟨r, he, hr⟩
  · exact .inl (((trans_of_step h).threads_of_ne ht).symm.trans hq)

/-- A `Delete` that has taken its key off the index returns `BIO_OK`. -/
theorem erased_of_step (h : step L isMaster n e = some n')
    {x : κ × Option Nat} (hp : (n.threads t).erased? = some x) :
    (n'.threads t).erased? = some x ∨ n'.history.erased x.1 = true := by
  by_cases ht : e.thread = some t
  · rcases step_enters h ht with henters | ⟨key, s, r, rfl, -, -⟩
    · exact henters.erased x hp
    · -- a thread that calls `Get` was idle
      simp only [step] at h
      split at h
      · rename_i hidle
        rw [hidle] at hp
        cases hp
      · cases h
  · rw [(trans_of_step h).threads_of_ne ht]
    exact .inl hp

/-! ## The end of the memory tier -/

/-- What a step does to the evicted slices and the truncation of the memory
    tier. -/
inductive MemoryTail (n n' : Node ι κ β) : Prop where
  | same (hevicted : n'.evictedSlices .memory = n.evictedSlices .memory)
      (hpre : n'.preTruncateSliceIndex .memory =
        n.preTruncateSliceIndex .memory)
      (htruncate : n'.truncateIndex .memory = n.truncateIndex .memory)
      (hthreads : ∀ t x, (n'.threads t).truncating = some x →
        (n.threads t).truncating = some x)
  | cursor (t : ι) (r : Ret κ β) (s : Slot) (a : Nat × List Nat)
      (hp : n.threads t = .cursor .toDisk r s)
      (ha : a = advance (n.preTruncateSliceIndex .memory s.flowId)
        ((n.evictedSlices .memory s.flowId).orderedInsert (· ≤ ·)
          s.indexInFlow))
      (hevicted : n'.evictedSlices .memory =
        Function.update (n.evictedSlices .memory) s.flowId a.2)
      (hpre : n'.preTruncateSliceIndex .memory =
        Function.update (n.preTruncateSliceIndex .memory) s.flowId a.1)
      (htruncate : n'.truncateIndex .memory = n.truncateIndex .memory)
      (hthreads : ∀ t x, (n'.threads t).truncating = some x →
        (n.threads t).truncating = some x ∨ x = (s.flowId, a.1))
  | truncated (t : ι) (flowId index : Nat)
      (hp : (n.threads t).truncating = some (flowId, index))
      (hevicted : n'.evictedSlices .memory = n.evictedSlices .memory)
      (hpre : n'.preTruncateSliceIndex .memory =
        n.preTruncateSliceIndex .memory)
      (htruncate : n'.truncateIndex .memory = Function.update
        (n.truncateIndex .memory) flowId
          (max (n.truncateIndex .memory flowId) index))
      (hthreads : ∀ t x, (n'.threads t).truncating = some x →
        (n.threads t).truncating = some x)

theorem step_memoryTail (h : step L isMaster n e = some n') :
    MemoryTail n n' := by
  by_cases hcursor : ∃ t r s, e = .go t ∧ n.threads t = .cursor .toDisk r s
  · obtain ⟨t, r, s, rfl, hp⟩ := hcursor
    have hother : ∀ u x, u ≠ t → (n'.threads u).truncating = some x →
        (n.threads u).truncating = some x := by
      intro u x hu hx
      rwa [(trans_of_step h).threads_of_ne
        fun ht => hu (Option.some.inj ht).symm] at hx
    simp only [step, hp, resume] at h
    split at h
    · cases h
      refine .cursor t r s _ hp rfl ?_ ?_ rfl fun u x hx => .inl ?_
      · show Function.update n.evictedSlices .memory _ .memory = _
        rw [Function.update_self]
        rfl
      · show Function.update n.preTruncateSliceIndex .memory _ .memory = _
        rw [Function.update_self]
        rfl
      · by_cases hu : u = t
        · rw [hu, goto_self] at hx
          cases hx
        · exact hother u x hu hx
    · cases h
      refine .cursor t r s _ hp rfl ?_ ?_ rfl fun u x hx => ?_
      · show Function.update n.evictedSlices .memory _ .memory = _
        rw [Function.update_self]
        rfl
      · show Function.update n.preTruncateSliceIndex .memory _ .memory = _
        rw [Function.update_self]
        rfl
      · by_cases hu : u = t
        · rw [hu, goto_self] at hx
          cases hx
          exact .inr rfl
        · exact .inl (hother u x hu hx)
  · have hthreads : ∀ t x, (n'.threads t).truncating = some x →
        (n.threads t).truncating = some x := by
      intro t x hx
      by_cases ht : e.thread = some t
      · rcases step_enters h ht with henters | ⟨key, s, r, -, -, hq⟩
        · rcases henters.truncating with hnone | ⟨r, s, hp⟩
          · rw [hx] at hnone
            cases hnone
          · -- the section of the cursor does not fail
            refine absurd ?_ hcursor
            cases e with
            | go u =>
                cases ht
                exact ⟨t, r, s, rfl, hp⟩
            | negotiated s => cases ht
            | flushed s => cases ht
            | _ =>
                cases ht
                simp only [step, hp, interrupt] at h
                cases h
        · rw [hq] at hx
          cases hx
      · rwa [(trans_of_step h).threads_of_ne ht] at hx
    cases trans_of_step h with
    | cursor t c r s q hp hq =>
        cases c with
        | toDisk => exact absurd ⟨t, r, s, rfl, hp⟩ hcursor
        | toUnderFs key => exact .same rfl rfl rfl hthreads
    | truncated t c r s index hp =>
        cases c with
        | toDisk =>
            refine .truncated t s.flowId index (by rw [hp]; rfl) rfl rfl ?_
              hthreads
            show Function.update n.truncateIndex .memory _ .memory = _
            rw [Function.update_self]
            rfl
        | toUnderFs key => exact .same rfl rfl rfl hthreads
    | _ => exact .same rfl rfl rfl hthreads

/-- The slice has left the memory tier. -/
def LeftMemory (n : Node ι κ β) (s : Slot) : Prop :=
  ∃ r, n.refs s = some r ∧ r.slice ≠ some .memory

/-- A slice that has left does not come back. -/
theorem LeftMemory.trans {s : Slot} (h : LeftMemory n s) (hl : Placed n loc)
    (ht : Trans L isMaster n e n') : LeftMemory n' s := by
  obtain ⟨r, hr, hslice⟩ := h
  cases ht.refStep s with
  | same heq => exact ⟨r, heq.trans hr, hslice⟩
  | kept r₀ r' hr₀ hr' hs =>
      rw [hr] at hr₀
      cases hr₀
      exact ⟨r', hr', hs ▸ hslice⟩
  | wrote t p hp hs hr' =>
      subst hs
      rw [hl.unwritten hp] at hr
      cases hr
  | replaced t c j r₀ hp hr₀ hr' =>
      have hin := hl.slice_leaving hr₀ (.inr ⟨t, j, hp⟩)
      rw [hr] at hr₀
      cases hr₀
      refine ⟨_, hr', ?_⟩
      cases c with
      | toDisk => exact absurd hin hslice
      | toUnderFs key => exact nofun
  | deferred t c j r₀ hp hr₀ hr' =>
      rw [hr] at hr₀
      cases hr₀
      exact ⟨_, hr', hslice⟩
  | switched c r₀ hr₀ hc hr' =>
      have hin := hl.slice_leaving hr₀ (.inl hc)
      rw [hr] at hr₀
      cases hr₀
      refine ⟨_, hr', ?_⟩
      cases c with
      | toDisk => exact absurd hin hslice
      | toUnderFs key => exact nofun

/-- The memory tier is truncated up to slices that have left it. -/
structure Behind (n : Node ι κ β) : Prop where
  evicted : ∀ f, ∀ i ∈ n.evictedSlices .memory f, LeftMemory n ⟨f, i⟩
  passed : ∀ f i, i < n.preTruncateSliceIndex .memory f → LeftMemory n ⟨f, i⟩
  threads : ∀ t f i, (n.threads t).truncating = some (f, i) →
    i ≤ n.preTruncateSliceIndex .memory f
  truncated : ∀ f, n.truncateIndex .memory f ≤
    n.preTruncateSliceIndex .memory f

theorem Behind.step (h : Behind n) (hl : Placed n loc)
    (hs : step L isMaster n e = some n') : Behind n' := by
  have ht := trans_of_step hs
  cases step_memoryTail hs with
  | same hevicted hpre htruncate hthreads =>
      refine ⟨?_, ?_, ?_, ?_⟩
      · intro f i hi
        rw [hevicted] at hi
        exact (h.evicted f i hi).trans hl ht
      · intro f i hi
        rw [hpre] at hi
        exact (h.passed f i hi).trans hl ht
      · intro t f i hi
        rw [hpre]
        exact h.threads t f i (hthreads t _ hi)
      · intro f
        rw [hpre, htruncate]
        exact h.truncated f
  | cursor t r s a hp ha hevicted hpre htruncate hthreads =>
      -- the slice whose callback runs is on disk
      have hself : LeftMemory n s := by
        have hs := (hl.fits s).slice
        rw [hl.at hp (o := .call .memory) rfl] at hs
        obtain ⟨r₀, hr₀, hslice⟩ := Option.map_eq_some_iff.mp hs
        exact ⟨r₀, hr₀, hslice ▸ nofun⟩
      have hin : ∀ i ∈ (n.evictedSlices .memory s.flowId).orderedInsert
          (· ≤ ·) s.indexInFlow, LeftMemory n ⟨s.flowId, i⟩ := by
        intro i hi
        rcases (List.mem_orderedInsert ..).mp hi with rfl | hi
        · exact hself
        · exact h.evicted s.flowId i hi
      obtain ⟨hle, hadv, hleft⟩ := advance_spec
        ((n.evictedSlices .memory s.flowId).orderedInsert (· ≤ ·)
          s.indexInFlow) (n.preTruncateSliceIndex .memory s.flowId)
      rw [← ha] at hle hadv hleft
      have hgrow : ∀ f, n.preTruncateSliceIndex .memory f ≤
          n'.preTruncateSliceIndex .memory f := by
        intro f
        rw [hpre]
        by_cases hf : f = s.flowId
        · rw [hf, Function.update_self]
          exact hle
        · rw [Function.update_of_ne hf]
      refine ⟨?_, ?_, ?_, ?_⟩
      · intro f i hi
        rw [hevicted] at hi
        by_cases hf : f = s.flowId
        · subst hf
          rw [Function.update_self] at hi
          exact (hin i (hleft i hi)).trans hl ht
        · rw [Function.update_of_ne hf] at hi
          exact (h.evicted f i hi).trans hl ht
      · intro f i hi
        rw [hpre] at hi
        by_cases hf : f = s.flowId
        · subst hf
          rw [Function.update_self] at hi
          rcases hadv i hi with hi | hi
          · exact (h.passed _ i hi).trans hl ht
          · exact (hin i hi).trans hl ht
        · rw [Function.update_of_ne hf] at hi
          exact (h.passed f i hi).trans hl ht
      · intro u f i hi
        rcases hthreads u _ hi with hi | heq
        · exact Nat.le_trans (h.threads u f i hi) (hgrow f)
        · cases heq
          rw [hpre, Function.update_self]
      · intro f
        rw [htruncate]
        exact Nat.le_trans (h.truncated f) (hgrow f)
  | truncated t flowId index hp hevicted hpre htruncate hthreads =>
      refine ⟨?_, ?_, ?_, ?_⟩
      · intro f i hi
        rw [hevicted] at hi
        exact (h.evicted f i hi).trans hl ht
      · intro f i hi
        rw [hpre] at hi
        exact (h.passed f i hi).trans hl ht
      · intro t f i hi
        rw [hpre]
        exact h.threads t f i (hthreads t _ hi)
      · intro f
        rw [hpre, htruncate]
        by_cases hf : f = flowId
        · subst hf
          rw [Function.update_self]
          exact Nat.max_le.mpr ⟨h.truncated f, h.threads t f index hp⟩
        · rw [Function.update_of_ne hf]
          exact h.truncated f

/-! ## Keys and values -/

omit [DecidableEq ι] [DecidableEq κ] in
theorem setRecord_disk {s : Slot} (m : SliceMeta κ) :
    (n.setRecord .disk s m).records .disk =
      Function.update (n.records .disk) s (some m) := by
  show Function.update n.records .disk
    (Function.update (n.records .disk) s (some m)) .disk = _
  rw [Function.update_self]

/-- What a step does to the values in the tiers. -/
theorem Trans.contents (h : Trans L isMaster n e n') :
    n'.contents = n.contents ∧
      (n'.records .disk = n.records .disk ∨ ∃ s m, (n.records .disk s).isSome ∧
        n'.records .disk = Function.update (n.records .disk) s (some m)) ∨
    (∃ t p, n.threads t = .write p ∧
      n'.contents = (n.setContent .memory p.slot p.value).contents ∧
      n'.records .disk = n.records .disk) ∨
    ∃ s m b, n.contents .memory s = some b ∧
      n'.contents = (n.setContent .disk s b).contents ∧
      n'.records .disk = Function.update (n.records .disk) s (some m) := by
  cases h with
  | wrote t p hp => exact .inr (.inl ⟨t, p, hp, rfl, rfl⟩)
  | copied t j s r m b hp hr hslice hm hb =>
      exact .inr (.inr ⟨s, m, b, getData_eq_some hb, rfl,
        setRecord_disk m⟩)
  | marked t j s m hp hm =>
      refine .inl ⟨rfl, .inr ⟨s, { m with hasEvict := true }, ?_,
        setRecord_disk _⟩⟩
      rw [getMeta_eq_some hm]
      rfl
  | deleteMarked t key s stamp r tier m hp hr hslice hm =>
      cases tier with
      | memory => exact .inl ⟨rfl, .inl rfl⟩
      | disk =>
          refine .inl ⟨rfl, .inr ⟨s, { m with hasEvict := true }, ?_,
            setRecord_disk _⟩⟩
          rw [getMeta_eq_some hm]
          rfl
  | _ => exact .inl ⟨rfl, .inl rfl⟩

/-- The slice has been written for this key, with this value. -/
structure Wrote (n : Node ι κ β) (s : Slot) (key : κ) (b : β) : Prop where
  keyed : Keyed n s key
  value : n.contents .memory s = some b

omit [DecidableEq ι] [DecidableEq κ] in
/-- The value of another slice or another tier stays. -/
theorem setContent_of_ne {tier x : Tier} {s s' : Slot} (b : β)
    (h : s' ≠ s ∨ x ≠ tier) :
    (n.setContent tier s b).contents x s' = n.contents x s' := by
  show Function.update n.contents tier
    (Function.update (n.contents tier) s (some b)) x s' = n.contents x s'
  by_cases hx : x = tier
  · rw [hx, Function.update_self,
      Function.update_of_ne (h.resolve_right (not_not_intro hx))]
  · rw [Function.update_of_ne hx]

/-- A slice keeps the key and the value of its `Put`. -/
theorem Wrote.trans {s : Slot} {key : κ} {b : β} (h : Wrote n s key b)
    (hl : Placed n loc) (ht : Trans L isMaster n e n') :
    Wrote n' s key b := by
  -- a slice that is being written had no record
  have hnew : ∀ t p, n.threads t = .write p → s ≠ p.slot := by
    rintro t p hp rfl
    obtain ⟨m, hm, -⟩ := h.keyed
    have hmemory := (hl.fits p.slot).memory
    rw [hl.at hp (o := .write) rfl, hm] at hmemory
    cases hmemory
  refine ⟨?_, ?_⟩
  · rcases ht.records with hrec | ⟨t, p, hp, hrec⟩ |
      ⟨t, j, x, m, hp, hm, hrec⟩ | ⟨tier, x, m, hm, hrec⟩
    · exact h.keyed.congr (by rw [hrec])
    · refine h.keyed.congr ?_
      rw [hrec, setRecord_of_ne _ _ (hnew t p hp)]
    · refine h.keyed.congr ?_
      rw [hrec, setRecord_of_tier .disk .memory _ Tier.noConfusion]
    · exact (h.keyed.mark hm).congr (by rw [hrec])
  · rcases ht.contents with ⟨hcon, -⟩ | ⟨t, p, hp, hcon, -⟩ |
      ⟨x, m, b', -, hcon, -⟩
    · rw [hcon]
      exact h.value
    · rw [hcon, setContent_of_ne _ (.inl (hnew t p hp))]
      exact h.value
    · rw [hcon, setContent_of_ne _ (.inr Tier.noConfusion)]
      exact h.value

/-- A slice with a record on disk has the value there that it had in
    memory. -/
def Copied (n : Node ι κ β) : Prop :=
  ∀ s, (n.records .disk s).isSome → n.contents .disk s = n.contents .memory s

theorem Copied.trans (h : Copied n) (hl : Placed n loc)
    (ht : Trans L isMaster n e n') : Copied n' := by
  intro s hs
  rcases ht.contents with ⟨hcon, hrec⟩ | ⟨t, p, hp, hcon, hrec⟩ |
    ⟨x, m, b, hb, hcon, hrec⟩
  · rw [hcon]
    refine h s ?_
    rcases hrec with hrec | ⟨x, m, hx, hrec⟩
    · rwa [hrec] at hs
    · by_cases hsx : s = x
      · rwa [hsx]
      · rwa [hrec, Function.update_of_ne hsx] at hs
  · have hne : s ≠ p.slot := by
      rintro rfl
      have hdisk := (hl.fits p.slot).disk
      rw [hl.at hp (o := .write) rfl, ← hrec, hs] at hdisk
      cases hdisk
    rw [hcon, setContent_of_ne _ (.inl hne), setContent_of_ne _ (.inl hne)]
    exact h s (hrec ▸ hs)
  · rw [hcon, setContent_of_ne (x := .memory) _ (.inr Tier.noConfusion)]
    by_cases hsx : s = x
    · rw [hsx, setContent_self, hb]
    · rw [setContent_of_ne _ (.inl hsx)]
      rw [hrec, Function.update_of_ne hsx] at hs
      exact h s hs

/-! ## Slices that are held -/

/-- The slice of the reference is there, and somebody reads it. -/
def Held (n : Node ι κ β) (s : Slot) : Prop :=
  ∃ r, n.refs s = some r ∧ r.slice ≠ none ∧ 0 < r.ref

omit [DecidableEq ι] [DecidableEq κ] in
/-- The reference is replaced by one that has as many readers at least. -/
theorem Held.setRef {s s' : Slot} {r : SliceRef κ} (h : Held n s)
    (r' : SliceRef κ) (hr : n.refs s' = some r)
    (hrefs : n'.refs = (n.setRef s' r').refs)
    (hslice : r'.slice = r.slice) (hle : r.ref ≤ r'.ref) : Held n' s := by
  obtain ⟨r₀, hr₀, hs, hpos⟩ := h
  rw [Held, hrefs]
  by_cases hss : s = s'
  · subst hss
    rw [hr] at hr₀
    cases hr₀
    exact ⟨r', setRef_self r', hslice ▸ hs, Nat.lt_of_lt_of_le hpos hle⟩
  · exact ⟨r₀, (setRef_of_ne r' hss).trans hr₀, hs, hpos⟩

/-- **HELD**: a slice that is held stays, unless it is released. -/
theorem Held.trans {s : Slot} (h : Held n s) (hl : Placed n loc)
    (ht : Trans L isMaster n e n') :
    Held n' s ∨ ∃ t r, e = .go t ∧ n.threads t = .release r s := by
  cases ht with
  | got t key s' r hp hr =>
      obtain ⟨r₀, -, hr₀, -, -, rfl⟩ := aquire_eq_some hr
      exact .inl (h.setRef { r₀ with ref := r₀.ref + 1 } hr₀ (by rfl) rfl
        (Nat.le_succ _))
  | deleteCall t key s' r hp hr =>
      obtain ⟨r₀, -, hr₀, -, -, rfl⟩ := aquire_eq_some hr
      exact .inl (h.setRef { r₀ with ref := r₀.ref + 1 } hr₀ (by rfl) rfl
        (Nat.le_succ _))
  | wrote t p hp =>
      left
      obtain ⟨r, hr, hs, hpos⟩ := h
      have hne : s ≠ p.slot := by
        rintro rfl
        rw [hl.unwritten hp] at hr
        cases hr
      exact ⟨r, (setRef_of_ne _ hne).trans hr, hs, hpos⟩
  | locked t tier j s' r hp hr =>
      exact .inl (h.setRef { r with opLock := true } hr (by rfl) rfl
        (Nat.le_refl _))
  | replaced t c j s' r hp hr href =>
      left
      obtain ⟨r₀, hr₀, hs, hpos⟩ := h
      have hne : s ≠ s' := by
        rintro rfl
        rw [hr] at hr₀
        cases hr₀
        omega
      exact ⟨r₀, (setRef_of_ne _ hne).trans hr₀, hs, hpos⟩
  | deferred t c j s' r hp hr href =>
      exact .inl (h.setRef { r with setSliceCallback := some c } hr (by rfl) rfl
        (Nat.le_refl _))
  | unlocked t tier j s' ok r hp hr =>
      exact .inl (h.setRef { r with opLock := false } hr (by rfl) rfl
        (Nat.le_refl _))
  | released t r s' ref hp hr hkeep =>
      by_cases hss : s = s'
      · subst hss
        exact .inr ⟨t, r, rfl, hp⟩
      · obtain ⟨r₀, hr₀, hs, hpos⟩ := h
        exact .inl ⟨r₀, (setRef_of_ne _ hss).trans hr₀, hs, hpos⟩
  | switched t c r s' ref hp hr hc hlast =>
      by_cases hss : s = s'
      · subst hss
        exact .inr ⟨t, r, rfl, hp⟩
      · obtain ⟨r₀, hr₀, hs, hpos⟩ := h
        exact .inl ⟨r₀, (setRef_of_ne _ hss).trans hr₀, hs, hpos⟩
  | opLocked t key s' stamp r hp hr =>
      exact .inl (h.setRef { r with opLock := true } hr (by rfl) rfl
        (Nat.le_refl _))
  | invalidated t key s' stamp r hp hr =>
      exact .inl (h.setRef { r with valid := false } hr (by rfl) rfl
        (Nat.le_refl _))
  | deleteUnlocked t key s' stamp ok r hp hr =>
      exact .inl (h.setRef { r with opLock := false } hr (by rfl) rfl
        (Nat.le_refl _))
  | _ => exact .inl h

/-- The value that a reader finds with the reference of the slice. -/
def Node.readSlice (n : Node ι κ β) (s : Slot) : Option β :=
  (n.refs s).bind fun r => r.slice.bind fun tier => n.getData tier s

omit [DecidableEq ι] [DecidableEq κ] in
/-- **READ**: a slice that is in a tier has its value there. -/
theorem readSlice_eq {s : Slot} {key : κ} {b : β} {r : SliceRef κ}
    (hl : Placed n loc) (hbehind : Behind n) (htruncated : Truncated n)
    (hcopied : Copied n) (hwrote : Wrote n s key b) (hr : n.refs s = some r)
    (hslice : r.slice ≠ none) : n.readSlice s = some b := by
  obtain ⟨tier, htier⟩ := Option.ne_none_iff_exists'.mp hslice
  rw [Node.readSlice, hr, Option.bind_some, htier, Option.bind_some,
    Node.getData]
  cases tier with
  | memory =>
      have hin : ¬ s.indexInFlow < n.truncateIndex .memory s.flowId := by
        intro hlt
        obtain ⟨r', hr', hleft⟩ := hbehind.passed s.flowId s.indexInFlow
          (Nat.lt_of_lt_of_le hlt (hbehind.truncated s.flowId))
        rw [hr] at hr'
        cases hr'
        exact hleft htier
      rw [if_neg hin]
      exact hwrote.value
  | disk =>
      have hin : ¬ s.indexInFlow < n.truncateIndex .disk s.flowId := by
        intro hlt
        obtain ⟨r', hr', hgone⟩ := htruncated.passed s.flowId s.indexInFlow
          (Nat.lt_of_lt_of_le hlt (htruncated.truncated s.flowId))
        rw [hr] at hr'
        cases hr'
        rw [htier] at hgone
        cases hgone
      have hdisk : (n.records .disk s).isSome = true := by
        have hstage := (hl.fits s).slice_of hr
        rw [htier] at hstage
        rw [(hl.fits s).disk]
        cases hstage' : (loc s).stage with
        | onDisk => rfl
        | leavingDisk => rfl
        | _ =>
            rw [hstage'] at hstage
            cases hstage
      rw [if_neg hin, hcopied s hdisk]
      exact hwrote.value

end UbsIo.Wcache
