import UbsIo.Sequence.Migrate

/-! # The master's numbers

    `ApplyForSeqNo2Mst` and `ReleaseSeqNo2Mst` alone, in any order, where every
    number that has been issued is released at most once.  The places of the
    ring tell what is released behind `left` (`Tracks`); what is added here is
    that `left` never stops early. -/

namespace UbsIo.Sequence

open UbsIo.Lib

/-! ## Model -/

/-- The queue, with the numbers that have been issued and released. -/
structure Master where
  queue : SlidingQueue
  issued : List Nat
  released : List Nat

/-- The queue after `ResetSeqNoState2Mst`; a new queue is one reset to 0. -/
def Master.reset (seqNo : Nat) : Master :=
  ⟨resetSeqNoState2Mst seqNo, [], []⟩

/-- A number can be released once it is issued, and only once. -/
def Master.step (m : Master) : MasterCall → Option Master
  | .apply =>
      match applyForSeqNo2Mst m.queue with
      | .ok (seqNo, _, queue) =>
          some { m with queue, issued := m.issued ++ [seqNo] }
      | .error _ => some m
  | .release seqNo =>
      if seqNo ∈ m.issued ∧ seqNo ∉ m.released then
        some { m with
          queue := releaseSeqNo2Mst m.queue seqNo
          released := seqNo :: m.released }
      else none

/-- Everything a call can do. -/
theorem Master.step_cases {m m' : Master} {call : MasterCall}
    (h : m.step call = some m') :
    (call = .apply ∧ m.queue.right - m.queue.left < seqQueueLen ∧
      m' = { m with
        queue := { m.queue with right := m.queue.right + 1 }
        issued := m.issued ++ [m.queue.right + 1] }) ∨
    (call = .apply ∧ ¬ m.queue.right - m.queue.left < seqQueueLen ∧
      m' = m) ∨
    ∃ seqNo, call = .release seqNo ∧ seqNo ∈ m.issued ∧
      seqNo ∉ m.released ∧
      m' = { m with
        queue := releaseSeqNo2Mst m.queue seqNo
        released := seqNo :: m.released } := by
  cases call with
  | apply =>
      simp only [Master.step, applyForSeqNo2Mst] at h
      by_cases hroom : m.queue.right - m.queue.left < seqQueueLen
      · rw [if_pos hroom] at h
        exact .inl ⟨rfl, hroom, (Option.some.inj h).symm⟩
      · rw [if_neg hroom] at h
        exact .inr (.inl ⟨rfl, hroom, (Option.some.inj h).symm⟩)
  | release seqNo =>
      simp only [Master.step] at h
      by_cases hall : seqNo ∈ m.issued ∧ seqNo ∉ m.released
      · rw [if_pos hall] at h
        exact .inr (.inr ⟨seqNo, rfl, hall.1, hall.2,
          (Option.some.inj h).symm⟩)
      · rw [if_neg hall] at h
        cases h

/-! ## Where the left edge stops -/

/-- The loop ends at a place that is not marked, or at the right edge. -/
theorem slide_stops (k : Nat) {q : SlidingQueue} (hk : q.left + k = q.right) :
    (slide k q).left = q.right ∨
      (slide k q).finish (seqIdx ((slide k q).left + 1)) = false := by
  induction k generalizing q with
  | zero => exact .inl hk
  | succ k ih =>
      simp only [slide]
      split
      · exact ih (by show q.left + 1 + k = q.right; omega)
      · rename_i hmark
        exact .inr (Bool.eq_false_iff.mpr hmark)

theorem release_stops {q : SlidingQueue} (hq : q.left ≤ q.right)
    (seqNo : Nat) :
    (releaseSeqNo2Mst q seqNo).left = q.right ∨
      (releaseSeqNo2Mst q seqNo).finish
        (seqIdx ((releaseSeqNo2Mst q seqNo).left + 1)) = false :=
  slide_stops (q.right - q.left)
    (q := { q with finish := Function.update q.finish (seqIdx seqNo) true })
    (Nat.add_sub_cancel' hq)

/-! ## Invariant -/

/-- What was issued lies behind the number the queue was reset to; all up to
    that one counts as released.  The number behind `left` is not released. -/
structure Master.Inv (start : Nat) (m : Master) : Prop where
  tracks : m.queue.Tracks (m.released ++ List.range' 1 start)
  start_le : start ≤ m.queue.left
  issued : m.issued = List.range' (start + 1) (m.queue.right - start)
  stops : m.queue.left + 1 ∉ m.released

theorem Master.Inv.mem_issued {start : Nat} {m : Master} (h : m.Inv start)
    {t : Nat} : t ∈ m.issued ↔ start < t ∧ t ≤ m.queue.right := by
  have hleft := h.tracks.left_le
  have hstart := h.start_le
  rw [h.issued, List.mem_range'_1]
  omega

/-- Behind the start the edge has passed only what is released. -/
theorem Master.Inv.passed {start : Nat} {m : Master} (h : m.Inv start)
    {t : Nat} (hlt : start < t) (hle : t ≤ m.queue.left) :
    t ∈ m.released := by
  refine (List.mem_append.mp (h.tracks.done (by omega) hle)).resolve_right ?_
  intro hmem
  have := List.mem_range'_1.mp hmem
  omega

theorem Master.Inv.reset (start : Nat) : (Master.reset start).Inv start := by
  refine ⟨⟨le_refl _, Nat.le_add_right _ _, ?_, ?_, ?_⟩, le_refl _, ?_,
    List.not_mem_nil⟩
  · intro t hlt _
    have hlt' : start < t := hlt
    refine iff_of_false Bool.false_ne_true ?_
    intro hmem
    have := List.mem_range'_1.mp hmem
    omega
  · intro t hpos hle
    have hle' : t ≤ start := hle
    exact List.mem_range'_1.mpr ⟨hpos, by omega⟩
  · intro t hmem
    have := List.mem_range'_1.mp hmem
    refine ⟨this.1, ?_⟩
    show t ≤ start
    omega
  · show [] = List.range' (start + 1) (start - start)
    rw [Nat.sub_self]
    rfl

/-- The next number is not released yet. -/
theorem Master.Inv.apply {start : Nat} {m : Master} (h : m.Inv start)
    (hroom : m.queue.right - m.queue.left < seqQueueLen) :
    Master.Inv start
      { m with
        queue := { m.queue with right := m.queue.right + 1 }
        issued := m.issued ++ [m.queue.right + 1] } := by
  have hleft := h.tracks.left_le
  have hstart := h.start_le
  have hlen : seqQueueLen = 16 := rfl
  refine ⟨⟨?_, ?_, h.tracks.marked, h.tracks.done, ?_⟩, hstart, ?_, h.stops⟩
  · show m.queue.left ≤ m.queue.right + 1
    omega
  · show m.queue.right + 1 ≤ m.queue.left + 16
    omega
  · intro t ht
    obtain ⟨hpos, hle⟩ := h.tracks.handed ht
    exact ⟨hpos, Nat.le_succ_of_le hle⟩
  · show m.issued ++ [m.queue.right + 1] =
      List.range' (start + 1) (m.queue.right + 1 - start)
    rw [h.issued, Nat.succ_sub (by omega), List.range'_1_concat]
    congr 2
    omega

theorem Master.Inv.release {start : Nat} {m : Master} (h : m.Inv start)
    {seqNo : Nat} (hissued : seqNo ∈ m.issued)
    (hnot : seqNo ∉ m.released) :
    Master.Inv start
      { m with
        queue := releaseSeqNo2Mst m.queue seqNo
        released := seqNo :: m.released } := by
  obtain ⟨hlt, hle⟩ := h.mem_issued.mp hissued
  -- a number that is not released is behind the edge
  have hbehind : m.queue.left < seqNo := by
    by_contra hpassed
    exact hnot (h.passed hlt (by omega))
  obtain ⟨htracks, hleft, hright⟩ := h.tracks.release hbehind hle
  refine ⟨htracks, h.start_le.trans hleft, ?_, ?_⟩
  · show m.issued =
      List.range' (start + 1) ((releaseSeqNo2Mst m.queue seqNo).right - start)
    rw [hright]
    exact h.issued
  · show (releaseSeqNo2Mst m.queue seqNo).left + 1 ∉ seqNo :: m.released
    intro hmem
    rcases release_stops h.tracks.left_le seqNo with hend | hopen
    · have hhanded := (htracks.handed (List.mem_append_left _ hmem)).2
      rw [hright] at hhanded
      omega
    · have hmark := (htracks.marked (Nat.lt_succ_self _) (by omega)).mpr
        (List.mem_append_left _ hmem)
      rw [hopen] at hmark
      exact Bool.false_ne_true hmark

theorem Master.Inv.step {start : Nat} {m m' : Master} {call : MasterCall}
    (h : m.Inv start) (hs : m.step call = some m') : m'.Inv start := by
  obtain ⟨-, hroom, rfl⟩ | ⟨-, -, rfl⟩ | ⟨seqNo, -, hissued, hnot, rfl⟩ :=
    Master.step_cases hs
  · exact h.apply hroom
  · exact h
  · exact h.release hissued hnot

/-! ## Results -/

/-- All issued numbers up to `n` are released. -/
def Master.ReleasedUpTo (m : Master) (n : Nat) : Prop :=
  ∀ t ∈ m.issued, t ≤ n → t ∈ m.released

/-- The issued numbers that `left` has not reached. -/
def Master.above (m : Master) : List Nat :=
  m.issued.filter (m.queue.left < ·)

theorem Master.Inv.left_greatest {start : Nat} {m : Master}
    (h : m.Inv start) :
    IsGreatest {n | (n = start ∨ n ∈ m.issued) ∧ m.ReleasedUpTo n}
      m.queue.left := by
  have hleft := h.tracks.left_le
  have hstart := h.start_le
  refine ⟨⟨?_, ?_⟩, ?_⟩
  · rw [h.mem_issued]
    omega
  · intro t ht hle
    exact h.passed (h.mem_issued.mp ht).1 hle
  · rintro n ⟨hn, hall⟩
    by_contra hbeyond
    -- then the number behind `left` would be released
    rw [h.mem_issued] at hn
    refine h.stops (hall _ (h.mem_issued.mpr ?_) ?_)
    · omega
    · omega

theorem Master.Inv.above_eq {start : Nat} {m : Master} (h : m.Inv start) :
    m.above =
      List.range' (m.queue.left + 1) (m.queue.right - m.queue.left) := by
  have hleft := h.tracks.left_le
  have hstart := h.start_le
  have hsplit : m.issued =
      List.range' (start + 1) (m.queue.left - start) ++
        List.range' (m.queue.left + 1) (m.queue.right - m.queue.left) := by
    rw [h.issued, show m.queue.left + 1 =
      start + 1 + 1 * (m.queue.left - start) by omega, List.range'_append]
    congr 1
    omega
  rw [Master.above, hsplit, List.filter_append,
    List.filter_eq_nil_iff.mpr, List.nil_append, List.filter_eq_self]
  · intro t ht
    exact decide_eq_true (by have := List.mem_range'_1.mp ht; omega)
  · intro t ht hlt
    have := List.mem_range'_1.mp ht
    have := of_decide_eq_true hlt
    omega

theorem Master.Inv.apply_fails_iff {start : Nat} {m : Master}
    (h : m.Inv start) :
    applyForSeqNo2Mst m.queue = .error .innerRetry ↔
      m.above.length = seqQueueLen := by
  have hright := h.tracks.right_le
  have hlen : seqQueueLen = 16 := rfl
  rw [h.above_eq, List.length_range', applyForSeqNo2Mst]
  split
  · exact iff_of_false (fun hcall => by cases hcall) (by omega)
  · exact iff_of_true rfl (by omega)

/-- **THE MASTER'S WINDOW**: the numbers that are issued follow one another;
    `left` is the largest one up to which all are released, the window behind
    it is never longer than the ring, and a call fails exactly when the window
    is full. -/
theorem master_window (start : Nat) (calls : List MasterCall) (m : Master)
    (h : runFrom Master.step (Master.reset start) calls = some m) :
    m.issued = List.range' (start + 1) m.issued.length ∧ m.issued.Nodup ∧
    IsGreatest {n | (n = start ∨ n ∈ m.issued) ∧ m.ReleasedUpTo n}
      m.queue.left ∧
    m.queue.left ≤ m.queue.right ∧
    m.queue.right - m.queue.left ≤ seqQueueLen ∧
    (applyForSeqNo2Mst m.queue = .error .innerRetry ↔
      m.above.length = seqQueueLen) ∧
    (m.above.length ≠ seqQueueLen → ∃ q, applyForSeqNo2Mst m.queue =
      .ok (start + m.issued.length + 1, m.queue.left, q)) := by
  have hinv : m.Inv start :=
    runFrom_invariant (I := Master.Inv start) (fun _ _ _ hI hs => hI.step hs)
      (Master.Inv.reset start) h
  have hright := hinv.tracks.right_le
  have hlen : m.issued.length = m.queue.right - start := by
    rw [hinv.issued, List.length_range']
  refine ⟨?_, ?_, hinv.left_greatest, hinv.tracks.left_le, ?_,
    hinv.apply_fails_iff, ?_⟩
  · rw [hlen]
    exact hinv.issued
  · rw [hinv.issued]
    exact List.nodup_range'
  · show m.queue.right - m.queue.left ≤ 16
    omega
  · intro hroom
    have hstart := hinv.start_le
    have hleft := hinv.tracks.left_le
    have hbelow : m.queue.right - m.queue.left < seqQueueLen := by
      rw [hinv.above_eq, List.length_range'] at hroom
      have : seqQueueLen = 16 := rfl
      omega
    refine ⟨{ m.queue with right := m.queue.right + 1 }, ?_⟩
    rw [applyForSeqNo2Mst, if_pos hbelow, hlen]
    congr 3
    omega

/-- A queue reset to 7 fills up, and its numbers come back out of order. -/
def outOfOrder : List MasterCall :=
  [List.replicate 17 .apply, [.release 9, .release 8, .apply, .apply]].flatten

theorem master_window_out_of_order :
    ∃ m, runFrom Master.step (Master.reset 7) outOfOrder = some m ∧
      m.queue.left = 9 ∧ m.issued = List.range' 8 18 ∧
      applyForSeqNo2Mst m.queue = .error .innerRetry := by
  have hrun : (runFrom Master.step (Master.reset 7) outOfOrder).any
      (fun m => m.queue.left = 9 ∧ m.issued.length = 18 ∧
        m.above.length = seqQueueLen) = true := by
    decide +kernel
  obtain ⟨m, hm, hall⟩ := (Option.any_eq_true _ _).mp hrun
  obtain ⟨hleft, hlen, hfull⟩ := of_decide_eq_true hall
  obtain ⟨hissued, -, -, -, -, hfails, -⟩ := master_window 7 outOfOrder m hm
  rw [hlen] at hissued
  exact ⟨m, hm, hleft, hissued, hfails.mpr hfull⟩

end UbsIo.Sequence
