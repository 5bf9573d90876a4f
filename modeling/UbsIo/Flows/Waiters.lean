import UbsIo.Flows.Steps

/-! # Waiters

    A writer ahead of the worker puts itself on `mHoldList`, looks after the
    preloading (`PreLoadSchedule`) and waits to be woken by a `HoldClean`.  If
    it finds `mPreLoadFlag` set, it counts on the thread that has set it.  That
    fails in two ways: the hand-over of the task can fail, and the worker may
    already have decided to stop, on offsets from before the registration.

    `Waits` is the invariant of the runs without these two: every waiter that
    has left `PreLoadSchedule` is tended by whoever has the flag. -/

namespace UbsIo.Flows

open UbsIo.Lib

variable {ι : Type} [DecidableEq ι] {d : Dims} {s s' : Flow ι} {t u : ι}
  {h : Option (Option ι)}

/-- The range a thread works on. -/
def Phase.range : Phase → Option Range
  | .validate r => some r
  | .compare r => some r
  | .hold r => some r
  | .check (.holdWait r) => some r
  | .flag (.holdWait r) => some r
  | .submit (.holdWait r) => some r
  | .wait r => some r
  | .written r => some r
  | .build r => some r
  | _ => none

/-- The range of a thread that has put itself on the list in `HoldWait`. -/
def Phase.inHold : Phase → Option Range
  | .check (.holdWait r) => some r
  | .flag (.holdWait r) => some r
  | .submit (.holdWait r) => some r
  | .wait r => some r
  | _ => none

/-- The thread is inside `HoldWait` and has not come to its `sem_wait`. -/
def Phase.beforeWait : Phase → Bool
  | .hold _ => true
  | .check (.holdWait _) => true
  | .flag (.holdWait _) => true
  | .submit (.holdWait _) => true
  | _ => false

/-- Nothing is under way that could still wake a waiter: no `PreLoadHandle` is
    queued or running, and no caller is inside `HoldWait` before its
    `sem_wait`. -/
def Quiet (s : Flow ι) : Prop :=
  s.queued = 0 ∧ (∀ u, (s.threads u).handles = false) ∧
    ∀ u, (s.threads u).beforeWait = false

/-- Somebody looks after a waiter that needs `n`: the task is in the queue, a
    waiter is about to submit it, or a worker has it and has not decided to
    stop short of `n`. -/
def Tended (s : Flow ι) (h : Option (Option ι)) (n : Nat) : Prop :=
  h = some none ∨ ∃ u, h = some (some u) ∧
    ((∃ r, s.threads u = .submit (.holdWait r)) ∨
      (s.threads u).handles = true ∧
        ∀ o, s.threads u = .clean o true → n ≤ o)

structure Waits (d : Dims) (s : Flow ι) (h : Option (Option ι)) : Prop where
  held : Held s h
  fits : ∀ u r, (s.threads u).range = some r →
    r.needOffset + d.preLoadSize < 2 ^ 64
  writen : s.writenOffset + d.preLoadSize < 2 ^ 64
  nodup : (s.holdList.map Prod.fst).Nodup
  inside : ∀ w ∈ s.holdList, ∃ r, (s.threads w.1).inHold = some r ∧
    r.needOffset = w.2
  unposted : ∀ w ∈ s.holdList, s.posted w.1 = none
  need_le : ∀ w ∈ s.holdList, w.2 ≤ s.writenOffset
  loaded : ∀ w ∈ s.holdList, w.2 ≤ s.preLoadOffset →
    ∃ u, h = some (some u) ∧ (s.threads u).handles = true
  cleaning : ∀ u o b, s.threads u = .clean o b → o = s.preLoadOffset
  closing : ∀ u o, s.threads u = .clean o true →
    ∀ w ∈ s.holdList.dropWhile (fun w => decide (w.2 ≤ o)), o < w.2
  tended : ∀ w ∈ s.holdList, ∀ r, s.threads w.1 = .wait r →
    Tended s h w.2

theorem handles_inHold {p : Phase} (hp : p.handles = true) :
    p.inHold = none := by
  cases p with
  | load => rfl
  | alloc offset => rfl
  | push chunkId => rfl
  | clean offset isReady => rfl
  | cleanAll => rfl
  | _ => exact nomatch hp

theorem handles_range {p : Phase} (hp : p.handles = true) :
    p.range = none := by
  cases p with
  | load => rfl
  | alloc offset => rfl
  | push chunkId => rfl
  | clean offset isReady => rfl
  | cleanAll => rfl
  | _ => exact nomatch hp

omit [DecidableEq ι] in
/-- Looking after a waiter does not depend on threads without the flag. -/
theorem Tended.congr {n : Nat} (ht : Tended s h n) (hh : Held s h)
    (hsame : ∀ u, (s.threads u).owns = true → s'.threads u = s.threads u) :
    Tended s' h n := by
  rcases ht with ht | ⟨u, hu, ht⟩
  · exact Or.inl ht
  · rw [hu] at hh
    refine Or.inr ⟨u, hu, ?_⟩
    rw [hsame u ((hh.2.2 u).mpr rfl)]
    exact ht

omit [DecidableEq ι] in
/-- A waiter is not touched by a thread outside `HoldWait`. -/
theorem Waits.not_mem (hw : Waits d s h) (ht : (s.threads t).inHold = none) :
    ∀ w ∈ s.holdList, w.1 ≠ t := by
  intro w hmem heq
  obtain ⟨r, hr, -⟩ := hw.inside w hmem
  rw [heq, ht] at hr
  exact nomatch hr

/-- A thread without the flag goes on, and what the waiters depend on stays. -/
theorem Waits.move {p : Phase} (hw : Waits d s h)
    (hthreads : s'.threads = Function.update s.threads t p)
    (hflag : s'.preLoadFlag = s.preLoadFlag) (hq : s'.queued = s.queued)
    (hhold : s'.holdList = s.holdList)
    (hpost : ∀ w ∈ s.holdList, s'.posted w.1 = s.posted w.1)
    (hpre : s'.preLoadOffset = s.preLoadOffset)
    (hwriten : s.writenOffset ≤ s'.writenOffset ∧
      s'.writenOffset + d.preLoadSize < 2 ^ 64)
    (hrange : ∀ r, p.range = some r → r.needOffset + d.preLoadSize < 2 ^ 64)
    (hold : (s.threads t).owns = false) (hnew : p.owns = false)
    (hin : ∀ w ∈ s.holdList, w.1 = t → p.inHold = (s.threads t).inHold)
    (hwait : ∀ w ∈ s.holdList, w.1 = t → ∀ r, p = .wait r →
      Tended s h w.2) : Waits d s' h := by
  have hself : s'.threads t = p := by
    rw [hthreads]
    exact Function.update_self ..
  have hother : ∀ u, u ≠ t → s'.threads u = s.threads u := by
    intro u hu
    rw [hthreads]
    exact Function.update_of_ne hu ..
  have howns : ∀ u, (s.threads u).owns = true →
      s'.threads u = s.threads u := by
    intro u hu
    refine hother u ?_
    rintro rfl
    rw [hold] at hu
    exact nomatch hu
  -- a thread that cleans has the flag, so it is not `t`
  have hclean : ∀ u o b, s'.threads u = .clean o b →
      s.threads u = .clean o b := by
    intro u o b hu
    by_cases hut : u = t
    · rw [hut, hself] at hu
      rw [hu] at hnew
      exact nomatch hnew
    · rw [← hother u hut]
      exact hu
  refine ⟨?_, ?_, hwriten.2, ?_, ?_, ?_, ?_, ?_, ?_, ?_, ?_⟩
  · exact hw.held.keep hflag hq hthreads (by rw [hold, hnew])
  · intro u r hu
    by_cases hut : u = t
    · rw [hut, hself] at hu
      exact hrange r hu
    · rw [hother u hut] at hu
      exact hw.fits u r hu
  · rw [hhold]
    exact hw.nodup
  · rw [hhold]
    intro w hmem
    by_cases hwt : w.1 = t
    · rw [hwt, hself, hin w hmem hwt, ← hwt]
      exact hw.inside w hmem
    · rw [hother _ hwt]
      exact hw.inside w hmem
  · rw [hhold]
    intro w hmem
    rw [hpost w hmem]
    exact hw.unposted w hmem
  · rw [hhold]
    intro w hmem
    exact Nat.le_trans (hw.need_le w hmem) hwriten.1
  · rw [hhold, hpre]
    intro w hmem hle
    obtain ⟨u, hu, hrun⟩ := hw.loaded w hmem hle
    refine ⟨u, hu, ?_⟩
    rw [howns u (handles_owns hrun)]
    exact hrun
  · intro u o b hu
    rw [hpre]
    exact hw.cleaning u o b (hclean u o b hu)
  · rw [hhold]
    intro u o hu
    exact hw.closing u o (hclean u o true hu)
  · rw [hhold]
    intro w hmem r hr
    by_cases hwt : w.1 = t
    · rw [hwt, hself] at hr
      exact (hwait w hmem hwt r hr).congr hw.held howns
    · rw [hother _ hwt] at hr
      exact (hw.tended w hmem r hr).congr hw.held howns

/-- A thread with the task goes on with it. -/
theorem Waits.work {p : Phase} (hw : Waits d s h)
    (hthreads : s'.threads = Function.update s.threads t p)
    (hflag : s'.preLoadFlag = s.preLoadFlag) (hq : s'.queued = s.queued)
    (hhold : s'.holdList = s.holdList) (hpost : s'.posted = s.posted)
    (hpre : s'.preLoadOffset = s.preLoadOffset)
    (hwriten : s'.writenOffset = s.writenOffset)
    (hold : (s.threads t).handles = true) (hnew : p.handles = true)
    (hclean : ∀ o b, p ≠ .clean o b) : Waits d s' h := by
  have hself : s'.threads t = p := by
    rw [hthreads]
    exact Function.update_self ..
  have hother : ∀ u, u ≠ t → s'.threads u = s.threads u := by
    intro u hu
    rw [hthreads]
    exact Function.update_of_ne hu ..
  have hmine := hw.held.of_owns (handles_owns hold)
  have hwaiter : ∀ w ∈ s.holdList, s'.threads w.1 = s.threads w.1 :=
    fun w hmem => hother _ (hw.not_mem (handles_inHold hold) w hmem)
  have hcleaned : ∀ u o b, s'.threads u = .clean o b →
      s.threads u = .clean o b := by
    intro u o b hu
    by_cases hut : u = t
    · rw [hut, hself] at hu
      exact absurd hu (hclean o b)
    · rw [← hother u hut]
      exact hu
  refine ⟨?_, ?_, ?_, ?_, ?_, ?_, ?_, ?_, ?_, ?_, ?_⟩
  · exact hw.held.keep hflag hq hthreads (by
      rw [handles_owns hold, handles_owns hnew])
  · intro u r hu
    by_cases hut : u = t
    · rw [hut, hself] at hu
      rw [handles_range hnew] at hu
      exact nomatch hu
    · rw [hother u hut] at hu
      exact hw.fits u r hu
  · rw [hwriten]
    exact hw.writen
  · rw [hhold]
    exact hw.nodup
  · rw [hhold]
    intro w hmem
    rw [hwaiter w hmem]
    exact hw.inside w hmem
  · rw [hhold, hpost]
    exact hw.unposted
  · rw [hhold, hwriten]
    exact hw.need_le
  · intro w _ _
    exact ⟨t, hmine, by rw [hself]; exact hnew⟩
  · intro u o b hu
    rw [hpre]
    exact hw.cleaning u o b (hcleaned u o b hu)
  · rw [hhold]
    intro u o hu
    exact hw.closing u o (hcleaned u o true hu)
  · intro w _ r _
    refine Or.inr ⟨t, hmine, Or.inr ⟨by rw [hself]; exact hnew, ?_⟩⟩
    intro o ho
    rw [hself] at ho
    exact absurd ho (hclean o true)

/-! ## The steps that waiters depend on -/

/-- A new waiter needs more than there is, so no worker that stops now has
    counted on it. -/
theorem Waits.register {r : Range} (hw : Waits d s h)
    (ht : s.threads t = .hold r) (hneed : s.preLoadOffset < r.needOffset) :
    Waits d (register s t r) h := by
  have hfits := hw.fits t r (by rw [ht]; rfl)
  have hnot := hw.not_mem (t := t) (by rw [ht]; rfl)
  have hself : (Flows.register s t r).threads t = .check (.holdWait r) :=
    goto_threads_self ..
  have hother : ∀ u, u ≠ t →
      (Flows.register s t r).threads u = s.threads u :=
    fun u hu => goto_threads_ne _ _ hu
  have howns : ∀ u, (s.threads u).owns = true →
      (Flows.register s t r).threads u = s.threads u := by
    intro u hu
    refine hother u ?_
    rintro rfl
    rw [ht] at hu
    exact nomatch hu
  have hclean : ∀ u o b, (Flows.register s t r).threads u = .clean o b →
      s.threads u = .clean o b := by
    intro u o b hu
    by_cases hut : u = t
    · rw [hut, hself] at hu
      exact nomatch hu
    · rw [← hother u hut]
      exact hu
  refine ⟨?_, ?_, ?_, ?_, ?_, ?_, ?_, ?_, ?_, ?_, ?_⟩
  · exact hw.held.keep (t := t) rfl rfl rfl (by rw [ht]; rfl)
  · intro u r' hu
    by_cases hut : u = t
    · rw [hut, hself] at hu
      cases hu
      exact hfits
    · rw [hother u hut] at hu
      exact hw.fits u r' hu
  · show max s.writenOffset r.needOffset + d.preLoadSize < 2 ^ 64
    have hwriten := hw.writen
    omega
  · show ((s.holdList ++ [(t, r.needOffset)]).map Prod.fst).Nodup
    rw [List.map_append, List.nodup_append]
    refine ⟨hw.nodup, List.nodup_singleton t, ?_⟩
    intro a ha b hb hab
    obtain ⟨w, hmem, rfl⟩ := List.mem_map.mp ha
    rw [List.map_cons, List.map_nil, List.mem_singleton] at hb
    exact hnot w hmem (hab.trans hb)
  · intro w hmem
    rcases List.mem_append.mp hmem with hmem | hmem
    · rw [hother _ (hnot w hmem)]
      exact hw.inside w hmem
    · rw [List.mem_singleton.mp hmem, hself]
      exact ⟨r, rfl, rfl⟩
  · intro w hmem
    rcases List.mem_append.mp hmem with hmem | hmem
    · exact (Function.update_of_ne (hnot w hmem) ..).trans
        (hw.unposted w hmem)
    · rw [List.mem_singleton.mp hmem]
      exact Function.update_self ..
  · intro w hmem
    rcases List.mem_append.mp hmem with hmem | hmem
    · exact Nat.le_trans (hw.need_le w hmem) (Nat.le_max_left ..)
    · rw [List.mem_singleton.mp hmem]
      exact Nat.le_max_right ..
  · intro w hmem hle
    rcases List.mem_append.mp hmem with hmem | hmem
    · obtain ⟨u, hu, hrun⟩ := hw.loaded w hmem hle
      refine ⟨u, hu, ?_⟩
      rw [howns u (handles_owns hrun)]
      exact hrun
    · rw [List.mem_singleton.mp hmem] at hle
      exact absurd hle (Nat.not_le_of_lt hneed)
  · intro u o b hu
    exact hw.cleaning u o b (hclean u o b hu)
  · intro u o hu w hmem
    have hold := hclean u o true hu
    have ho := hw.cleaning u o true hold
    have hdrop : w ∈ s.holdList.dropWhile (fun w => decide (w.2 ≤ o)) ∨
        w = (t, r.needOffset) := by
      have happ : (s.holdList ++ [(t, r.needOffset)]).dropWhile
          (fun w => decide (w.2 ≤ o)) =
          s.holdList.dropWhile (fun w => decide (w.2 ≤ o)) ++
            [(t, r.needOffset)] ∨
          (s.holdList ++ [(t, r.needOffset)]).dropWhile
          (fun w => decide (w.2 ≤ o)) = [(t, r.needOffset)] := by
        rw [List.dropWhile_append]
        split
        · refine Or.inr ?_
          rw [List.dropWhile_cons_of_neg]
          rw [ho]
          simpa using hneed
        · exact Or.inl rfl
      rcases happ with happ | happ
      · rw [show (Flows.register s t r).holdList.dropWhile
          (fun w => decide (w.2 ≤ o)) = _ from happ] at hmem
        exact (List.mem_append.mp hmem).imp id List.mem_singleton.mp
      · rw [show (Flows.register s t r).holdList.dropWhile
          (fun w => decide (w.2 ≤ o)) = _ from happ] at hmem
        exact Or.inr (List.mem_singleton.mp hmem)
    rcases hdrop with hmem | rfl
    · exact hw.closing u o hold w hmem
    · rw [ho]
      exact hneed
  · intro w hmem r' hr
    rcases List.mem_append.mp hmem with hmem | hmem
    · rw [hother _ (hnot w hmem)] at hr
      exact (hw.tended w hmem r' hr).congr hw.held howns
    · rw [List.mem_singleton.mp hmem, hself] at hr
      exact nomatch hr

/-- The flag is passed on while no worker is at work. -/
theorem Waits.pass {p : Phase} {h' : Option (Option ι)} (hw : Waits d s h)
    (hthreads : s'.threads = Function.update s.threads t p)
    (hhold : s'.holdList = s.holdList) (hpost : s'.posted = s.posted)
    (hpre : s'.preLoadOffset = s.preLoadOffset)
    (hwriten : s'.writenOffset = s.writenOffset) (hheld : Held s' h')
    (hidle : ∀ u, (s.threads u).handles = false)
    (hclean : ∀ o b, p ≠ .clean o b)
    (hrange : p.range = none ∨ p.range = (s.threads t).range)
    (hin : p.inHold = (s.threads t).inHold)
    (htended : ∀ w ∈ s.holdList, ∀ r, s'.threads w.1 = .wait r →
      Tended s' h' w.2) : Waits d s' h' := by
  have hself : s'.threads t = p := by
    rw [hthreads]
    exact Function.update_self ..
  have hother : ∀ u, u ≠ t → s'.threads u = s.threads u := by
    intro u hu
    rw [hthreads]
    exact Function.update_of_ne hu ..
  have hnone : ∀ u o b, s'.threads u ≠ .clean o b := by
    intro u o b hu
    by_cases hut : u = t
    · rw [hut, hself] at hu
      exact hclean o b hu
    · rw [hother u hut] at hu
      have hno := hidle u
      rw [hu] at hno
      exact nomatch hno
  refine ⟨hheld, ?_, ?_, ?_, ?_, ?_, ?_, ?_, ?_, ?_, ?_⟩
  · intro u r hu
    by_cases hut : u = t
    · rw [hut, hself] at hu
      rcases hrange with hr | hr
      · rw [hr] at hu
        exact nomatch hu
      · rw [hr] at hu
        exact hw.fits t r hu
    · rw [hother u hut] at hu
      exact hw.fits u r hu
  · rw [hwriten]
    exact hw.writen
  · rw [hhold]
    exact hw.nodup
  · rw [hhold]
    intro w hmem
    by_cases hwt : w.1 = t
    · rw [hwt, hself, hin, ← hwt]
      exact hw.inside w hmem
    · rw [hother _ hwt]
      exact hw.inside w hmem
  · rw [hhold, hpost]
    exact hw.unposted
  · rw [hhold, hwriten]
    exact hw.need_le
  · rw [hhold, hpre]
    intro w hmem hle
    obtain ⟨u, -, hrun⟩ := hw.loaded w hmem hle
    rw [hidle u] at hrun
    exact nomatch hrun
  · intro u o b hu
    exact absurd hu (hnone u o b)
  · intro u o hu
    exact absurd hu (hnone u o true)
  · rw [hhold]
    exact htended

omit [DecidableEq ι] in
/-- No worker is at work when the flag is free or lies in the queue. -/
theorem Held.no_handles (hh : Held s h) (hno : ∀ u, h ≠ some (some u)) :
    ∀ u, (s.threads u).handles = false := by
  intro u
  refine Bool.eq_false_iff.mpr fun hu => ?_
  exact hno u (hh.of_owns (handles_owns hu))

omit [DecidableEq ι] in
/-- Nor while a thread is handing the task over. -/
theorem Held.no_handles_submit {k : Caller} (hh : Held s h)
    (ht : s.threads t = .submit k) : ∀ u, (s.threads u).handles = false := by
  have hmine := hh.of_owns (t := t) (by rw [ht]; rfl)
  intro u
  refine Bool.eq_false_iff.mpr fun hu => ?_
  have huser := hh.of_owns (handles_owns hu)
  rw [hmine] at huser
  cases huser
  rw [ht] at hu
  exact nomatch hu

theorem submit_inHold (k : Caller) :
    (Phase.submit k).inHold = (Phase.flag k).inHold ∧
    (Phase.submit k).range = (Phase.flag k).range ∧
    k.next.inHold = (Phase.submit k).inHold ∧
    k.next.range = (Phase.submit k).range := by
  cases k with
  | holdWait r => exact ⟨rfl, rfl, rfl, rfl⟩
  | getAddr => exact ⟨rfl, rfl, rfl, rfl⟩

theorem next_not_clean (k : Caller) (o : Nat) (b : Bool) :
    k.next ≠ .clean o b := by
  cases k with
  | holdWait r => exact nofun
  | getAddr => exact nofun

/-- Nobody waits while the flag is free. -/
theorem Waits.take {k : Caller} (hw : Waits d s h)
    (ht : s.threads t = .flag k) (hflag : s.preLoadFlag = false) :
    ∃ h', Waits d (Flow.goto { s with preLoadFlag := true } t (.submit k))
      h' := by
  have hnone := hw.held.of_flag hflag
  subst hnone
  obtain ⟨hin, hrange, -, -⟩ := submit_inHold k
  refine ⟨some (some t), hw.pass rfl rfl rfl rfl rfl
    ⟨rfl, hw.held.2.1, owns_given hw.held.2.2 rfl⟩
    (hw.held.no_handles nofun) nofun (Or.inr (by rw [ht, hrange]))
    (by rw [ht, hin]) ?_⟩
  intro w hmem r hr
  by_cases hwt : w.1 = t
  · rw [hwt, goto_threads_self] at hr
    exact nomatch hr
  · rw [goto_threads_ne _ _ hwt] at hr
    rcases hw.tended w hmem r hr with hbad | ⟨u, hbad, -⟩
    · exact nomatch hbad
    · exact nomatch hbad

theorem Waits.submitted {k : Caller} (hw : Waits d s h)
    (ht : s.threads t = .submit k) :
    ∃ h', Waits d (Flow.goto { s with queued := s.queued + 1 } t k.next)
      h' := by
  have hmine := hw.held.of_owns (t := t) (by rw [ht]; rfl)
  subst hmine
  obtain ⟨-, -, hin, hrange⟩ := submit_inHold k
  refine ⟨some none, hw.pass rfl rfl rfl rfl rfl ⟨hw.held.1, ?_,
    hw.held.given (next_owns k)⟩ (hw.held.no_handles_submit ht)
    (next_not_clean k) (Or.inr (by rw [ht, hrange])) (by rw [ht, hin])
    fun _ _ _ _ => Or.inl rfl⟩
  show s.queued + 1 = 1
  rw [hw.held.2.1]

/-- A hand-over that fails does no harm if nobody counts on it. -/
theorem Waits.submitFailed {k : Caller} (hw : Waits d s h)
    (ht : s.threads t = .submit k)
    (hguard : ∀ w ∈ s.holdList, w.1 ≠ t ∧ ∀ r, s.threads w.1 ≠ .wait r) :
    ∃ h', Waits d (Flow.goto { s with preLoadFlag := false } t k.next)
      h' := by
  have hmine := hw.held.of_owns (t := t) (by rw [ht]; rfl)
  subst hmine
  obtain ⟨-, -, hin, hrange⟩ := submit_inHold k
  refine ⟨none, hw.pass rfl rfl rfl rfl rfl ⟨rfl, hw.held.2.1,
    hw.held.given (next_owns k)⟩ (hw.held.no_handles_submit ht)
    (next_not_clean k) (Or.inr (by rw [ht, hrange])) (by rw [ht, hin]) ?_⟩
  intro w hmem r hr
  obtain ⟨hwt, hwait⟩ := hguard w hmem
  rw [goto_threads_ne _ _ hwt] at hr
  exact absurd hr (hwait r)

theorem Waits.start (hw : Waits d s h) (ht : s.threads t = .idle)
    (hq : 0 < s.queued) :
    ∃ h', Waits d (Flow.goto { s with queued := s.queued - 1 } t .load)
      h' := by
  have hqueue := hw.held.of_queued hq
  subst hqueue
  refine ⟨some (some t), hw.pass rfl rfl rfl rfl rfl ⟨hw.held.1, ?_,
    owns_given hw.held.2.2 rfl⟩ (hw.held.no_handles nofun) nofun
    (Or.inl rfl) (by rw [ht]; rfl) ?_⟩
  · show s.queued - 1 = 0
    rw [hw.held.2.1]
  · intro w _ r _
    refine Or.inr ⟨t, rfl, Or.inr ⟨?_, ?_⟩⟩
    · rw [goto_threads_self]
      rfl
    · intro o ho
      rw [goto_threads_self] at ho
      exact nomatch ho

/-- A worker that decides to stop has served every waiter on the list. -/
theorem Waits.pushed {chunkId : Nat} (hw : Waits d s h)
    (ht : s.threads t = .push chunkId) :
    Waits d ((pushed d s chunkId).goto t
      (.clean (pushed d s chunkId).preLoadOffset
        (isReady d (pushed d s chunkId)))) h := by
  have hmine := hw.held.of_owns (t := t) (by rw [ht]; rfl)
  have hnot := hw.not_mem (t := t) (by rw [ht]; rfl)
  have hready : isReady d (Flows.pushed d s chunkId) = true →
      ∀ w ∈ s.holdList, w.2 ≤ (Flows.pushed d s chunkId).preLoadOffset := by
    intro hr w hmem
    have hle : wrap64 (s.writenOffset + d.preLoadSize) ≤
        (Flows.pushed d s chunkId).preLoadOffset := of_decide_eq_true hr
    rw [wrap64, Nat.mod_eq_of_lt hw.writen] at hle
    have hneed := hw.need_le w hmem
    exact Nat.le_trans (Nat.le_add_right_of_le hneed) hle
  have hclean : ∀ u o b, ((Flows.pushed d s chunkId).goto t
      (.clean (Flows.pushed d s chunkId).preLoadOffset
        (isReady d (Flows.pushed d s chunkId)))).threads u = .clean o b →
      o = (Flows.pushed d s chunkId).preLoadOffset ∧
      b = isReady d (Flows.pushed d s chunkId) := by
    intro u o b hu
    by_cases hut : u = t
    · rw [hut, goto_threads_self] at hu
      cases hu
      exact ⟨rfl, rfl⟩
    · -- only the thread with the flag cleans
      rw [goto_threads_ne _ _ hut] at hu
      have huser := hw.held.of_owns (t := u) (by
        rw [show s.threads u = _ from hu]
        rfl)
      rw [hmine] at huser
      cases huser
      exact absurd rfl hut
  refine ⟨?_, ?_, hw.writen, hw.nodup, ?_, hw.unposted, hw.need_le, ?_, ?_,
    ?_, ?_⟩
  · exact hw.held.keep (t := t) rfl rfl rfl (by rw [ht]; rfl)
  · intro u r hu
    by_cases hut : u = t
    · rw [hut, goto_threads_self] at hu
      exact nomatch hu
    · rw [goto_threads_ne _ _ hut] at hu
      exact hw.fits u r hu
  · intro w hmem
    rw [goto_threads_ne _ _ (hnot w hmem)]
    exact hw.inside w hmem
  · intro w _ _
    refine ⟨t, hmine, ?_⟩
    rw [goto_threads_self]
    rfl
  · intro u o b hu
    exact (hclean u o b hu).1
  · intro u o hu w hmem
    obtain ⟨ho, hb⟩ := hclean u o true hu
    have hall : s.holdList.dropWhile (fun w => decide (w.2 ≤ o)) = [] := by
      refine List.dropWhile_eq_nil_iff.mpr fun w hmem => ?_
      rw [ho]
      exact decide_eq_true (hready hb.symm w hmem)
    rw [show ((Flows.pushed d s chunkId).goto t _).holdList.dropWhile
      (fun w => decide (w.2 ≤ o)) = [] from hall] at hmem
    exact nomatch hmem
  · intro w hmem r _
    refine Or.inr ⟨t, hmine, Or.inr ⟨?_, ?_⟩⟩
    · rw [goto_threads_self]
      rfl
    · intro o ho
      obtain ⟨ho, hb⟩ := hclean t o true ho
      rw [ho]
      exact hready hb.symm w hmem

/-- A waiter that `HoldClean` leaves on the list is not posted. -/
theorem holdClean_posted {realOffset : Nat} {ret : BResult} {b : Bool}
    (hnodup : (s.holdList.map Prod.fst).Nodup) :
    ∀ w ∈ (holdClean s realOffset ret b).holdList,
      (holdClean s realOffset ret b).posted w.1 = s.posted w.1 := by
  intro w hmem
  refine if_neg fun hin => ?_
  have hsplit := List.takeWhile_append_dropWhile
    (p := fun w : ι × Nat => decide (w.2 ≤ realOffset)) (l := s.holdList)
  rw [← hsplit, List.map_append, List.nodup_append] at hnodup
  exact hnodup.2.2 w.1 hin w.1 (List.mem_map_of_mem hmem) rfl

omit [DecidableEq ι] in
theorem mem_of_holdClean {realOffset : Nat} {w : ι × Nat}
    (hmem : w ∈ s.holdList.dropWhile fun w => decide (w.2 ≤ realOffset)) :
    w ∈ s.holdList :=
  (List.dropWhile_sublist _).subset hmem

/-- After a `HoldClean` the thread `t` that made it goes on with the task or
    ends, and what is left on the list is in order. -/
theorem Waits.clean {p : Phase} {realOffset : Nat} {ret : BResult} {b : Bool}
    {h' : Option (Option ι)} (hw : Waits d s h)
    (ht : (s.threads t).handles = true)
    (hheld : Held ((holdClean s realOffset ret b).goto t p) h')
    (hp : p.range = none) (hnot : ∀ o b, p ≠ .clean o b)
    (hleft : ∀ w ∈ (holdClean s realOffset ret b).holdList,
      (p.handles = true ∧ h' = some (some t)) ∨
      (s.preLoadOffset < w.2 ∧ ∀ r, s.threads w.1 ≠ .wait r)) :
    Waits d ((holdClean s realOffset ret b).goto t p) h' := by
  have hmine := hw.held.of_owns (handles_owns ht)
  have hother : ∀ w ∈ (holdClean s realOffset ret b).holdList, w.1 ≠ t :=
    fun w hmem => hw.not_mem (handles_inHold ht) w (mem_of_holdClean hmem)
  have hnone : ∀ u o b', ((holdClean s realOffset ret b).goto t p).threads u ≠
      .clean o b' := by
    intro u o b' hu
    by_cases hut : u = t
    · rw [hut, goto_threads_self] at hu
      exact hnot o b' hu
    · rw [goto_threads_ne _ _ hut] at hu
      have huser := hw.held.of_owns (t := u) (by
        rw [show s.threads u = _ from hu]
        rfl)
      rw [hmine] at huser
      cases huser
      exact absurd rfl hut
  refine ⟨hheld, ?_, hw.writen, ?_, ?_, ?_, ?_, ?_, ?_, ?_, ?_⟩
  · intro u r hu
    by_cases hut : u = t
    · rw [hut, goto_threads_self, hp] at hu
      exact nomatch hu
    · rw [goto_threads_ne _ _ hut] at hu
      exact hw.fits u r hu
  · exact hw.nodup.sublist ((List.dropWhile_sublist _).map _)
  · intro w hmem
    rw [goto_threads_ne _ _ (hother w hmem)]
    exact hw.inside w (mem_of_holdClean hmem)
  · intro w hmem
    exact (holdClean_posted (b := b) hw.nodup w hmem).trans
      (hw.unposted w (mem_of_holdClean hmem))
  · intro w hmem
    exact hw.need_le w (mem_of_holdClean hmem)
  · intro w hmem hle
    rcases hleft w hmem with ⟨hrun, hh'⟩ | ⟨hlt, -⟩
    · exact ⟨t, hh', by rw [goto_threads_self]; exact hrun⟩
    · exact absurd hle (Nat.not_le_of_lt hlt)
  · intro u o b' hu
    exact absurd hu (hnone u o b')
  · intro u o hu
    exact absurd hu (hnone u o true)
  · intro w hmem r hr
    rcases hleft w hmem with ⟨hrun, hh'⟩ | ⟨-, hwait⟩
    · refine Or.inr ⟨t, hh', Or.inr ⟨?_, ?_⟩⟩
      · rw [goto_threads_self]
        exact hrun
      · intro o ho
        exact absurd ho (hnone t o true)
    · rw [goto_threads_ne _ _ (hother w hmem)] at hr
      exact absurd hr (hwait r)

theorem Waits.cleaned {offset : Nat} {b : Bool} (hw : Waits d s h)
    (ht : s.threads t = .clean offset b) :
    ∃ h', Waits d ((holdClean s offset .ok (!b)).goto t
      (if b then .idle else .load)) h' := by
  have hmine := hw.held.of_owns (t := t) (by rw [ht]; rfl)
  have hheld := hw.held
  rw [hmine] at hheld
  cases b with
  | false =>
      refine ⟨some (some t), hw.clean (by rw [ht]; rfl) ?_ rfl nofun
        fun _ _ => Or.inl ⟨rfl, rfl⟩⟩
      exact hheld.keep (t := t) hheld.1.symm rfl rfl (by rw [ht]; rfl)
  | true =>
      refine ⟨none, hw.clean (by rw [ht]; rfl)
        ⟨rfl, hheld.2.1, hheld.given rfl⟩ rfl nofun ?_⟩
      intro w hmem
      have hlt := hw.closing t offset ht w hmem
      refine Or.inr ⟨?_, ?_⟩
      · rw [← hw.cleaning t offset true ht]
        exact hlt
      · -- a waiter that counts on this worker needs no more than it has
        intro r hr
        rcases hw.tended w (mem_of_holdClean hmem) r hr with
          hbad | ⟨u, hu, hserved⟩
        · rw [hmine] at hbad
          exact nomatch hbad
        · rw [hmine] at hu
          cases hu
          rcases hserved with ⟨r', hbad⟩ | ⟨-, hle⟩
          · rw [ht] at hbad
            exact nomatch hbad
          · exact Nat.not_le_of_lt hlt (hle offset ht)

theorem Waits.cleanedAll (hw : Waits d s h) (ht : s.threads t = .cleanAll) :
    ∃ h', Waits d
      ((holdClean s noMaxValue64 .innerRetry false).goto t .idle) h' := by
  have hmine := hw.held.of_owns (t := t) (by rw [ht]; rfl)
  have hheld := hw.held
  rw [hmine] at hheld
  refine ⟨none, hw.clean (by rw [ht]; rfl)
    ⟨rfl, hheld.2.1, hheld.given rfl⟩ rfl nofun ?_⟩
  -- every waiter needs less than the largest number
  have hall : (holdClean s noMaxValue64 .innerRetry false).holdList = [] := by
    refine List.dropWhile_eq_nil_iff.mpr fun w hmem => decide_eq_true ?_
    have hle := hw.need_le w hmem
    have hlt := hw.writen
    rw [noMaxValue64]
    omega
  intro w hmem
  rw [hall] at hmem
  exact nomatch hmem

/-! ## Runs -/

/-- The steps that strand no waiter.  No range reaches so far that adding
    `mPreLoadSize` to its end overflows.  A waiter that looks at the flag does
    not find it with a worker that has decided to stop short of the waiter, nor
    with a `PreLoadSchedule` outside `HoldWait` that has yet to submit.  A
    hand-over fails only while nobody on the list counts on it. -/
def Served (d : Dims) (s : Flow ι) : Event ι → Prop
  | .getAddrByOffset _ r => r.needOffset + d.preLoadSize < 2 ^ 64
  | .go t => ∀ r, s.threads t = .flag (.holdWait r) →
      ∀ u, s.threads u ≠ .submit .getAddr ∧
        ∀ o, s.threads u = .clean o true → r.needOffset ≤ s.preLoadOffset
  | .preLoadObject t false =>
      ∀ w ∈ s.holdList, w.1 ≠ t ∧ ∀ r, s.threads w.1 ≠ .wait r
  | _ => True

theorem mayLeave_inHold {p : Phase} (hp : p.mayLeave = true) :
    p.inHold = none := by
  cases p with
  | check k => exact nomatch hp
  | flag k => exact nomatch hp
  | submit k => exact nomatch hp
  | wait r => exact nomatch hp
  | _ => rfl

omit [DecidableEq ι] in
theorem Advance.inHold {p q : Phase} (hp : Advance s p q) :
    p.inHold = none ∧ q.inHold = none ∧ (∀ r, q ≠ .wait r) ∧
      ∀ r, q.range = some r → p.range = some r := by
  cases hp with
  | valid r _ _ => exact ⟨rfl, rfl, nofun, fun _ hr => hr⟩
  | ahead r _ => exact ⟨rfl, rfl, nofun, fun _ hr => hr⟩
  | loaded r => exact ⟨rfl, rfl, nofun, fun _ hr => hr⟩
  | truncPreLoad offset _ => exact ⟨rfl, rfl, nofun, fun _ hr => hr⟩
  | truncWriten offset => exact ⟨rfl, rfl, nofun, fun _ hr => hr⟩

/-- A thread outside `HoldWait` goes on. -/
theorem Waits.outside {p : Phase} (hw : Waits d s h)
    (hthreads : s'.threads = Function.update s.threads t p)
    (hflag : s'.preLoadFlag = s.preLoadFlag) (hq : s'.queued = s.queued)
    (hhold : s'.holdList = s.holdList) (hpost : s'.posted = s.posted)
    (hpre : s'.preLoadOffset = s.preLoadOffset)
    (hwriten : s.writenOffset ≤ s'.writenOffset ∧
      s'.writenOffset + d.preLoadSize < 2 ^ 64)
    (hrange : ∀ r, p.range = some r → r.needOffset + d.preLoadSize < 2 ^ 64)
    (hold : (s.threads t).owns = false) (hnew : p.owns = false)
    (hin : (s.threads t).inHold = none) : Waits d s' h := by
  have hnot := hw.not_mem hin
  exact hw.move hthreads hflag hq hhold (fun _ _ => by rw [hpost]) hpre
    hwriten hrange hold hnew (fun w hmem hwt => absurd hwt (hnot w hmem))
    (fun w hmem hwt => absurd hwt (hnot w hmem))

theorem Waits.trans {e : Event ι} (hw : Waits d s h) (hg : Served d s e)
    (ht : Trans d s e s') : ∃ h', Waits d s' h' := by
  have hsame : s.writenOffset ≤ s.writenOffset ∧
      s.writenOffset + d.preLoadSize < 2 ^ 64 := ⟨Nat.le_refl _, hw.writen⟩
  have hmax : ∀ r : Range, r.needOffset + d.preLoadSize < 2 ^ 64 →
      s.writenOffset ≤ max s.writenOffset r.needOffset ∧
      max s.writenOffset r.needOffset + d.preLoadSize < 2 ^ 64 := by
    intro r hr
    have hwriten := hw.writen
    omega
  cases ht with
  | call t r hp =>
      refine ⟨h, hw.outside (t := t) rfl rfl rfl rfl rfl rfl hsame ?_
        (by rw [hp]; rfl) rfl (by rw [hp]; rfl)⟩
      intro r' hr
      cases hr
      exact hg
  | truncCall t offset hp =>
      exact ⟨h, hw.outside (t := t) rfl rfl rfl rfl rfl rfl hsame nofun
        (by rw [hp]; rfl) rfl (by rw [hp]; rfl)⟩
  | leave t hp =>
      exact ⟨h, hw.outside (t := t) rfl rfl rfl rfl rfl rfl hsame nofun
        (mayLeave_not_owns hp) rfl (mayLeave_inHold hp)⟩
  | advance t p hp =>
      obtain ⟨hin, -, -, hrange⟩ := hp.inHold
      exact ⟨h, hw.outside (t := t) rfl rfl rfl rfl rfl rfl hsame
        (fun r hr => hw.fits t r (hrange r hr)) hp.not_owns.1 hp.not_owns.2
        hin⟩
  | holdLoaded t r hp =>
      have hfits := hw.fits t r (by rw [hp]; rfl)
      refine ⟨h, hw.outside (t := t) rfl rfl rfl rfl rfl rfl (hmax r hfits) ?_
        (by rw [hp]; rfl) rfl (by rw [hp]; rfl)⟩
      intro r' hr
      cases hr
      exact hfits
  | register t r hp hneed => exact ⟨h, hw.register hp hneed⟩
  | ready t k hp hready =>
      cases k with
      | getAddr =>
          exact ⟨h, hw.outside (t := t) rfl rfl rfl rfl rfl rfl hsame nofun
            (by rw [hp]; rfl) rfl (by rw [hp]; rfl)⟩
      | holdWait r =>
          refine ⟨h, hw.move (t := t) rfl rfl rfl rfl (fun _ _ => rfl) rfl
            hsame (fun r' hr => hw.fits t r' (by rw [hp]; exact hr))
            (by rw [hp]; rfl) rfl (fun _ _ _ => by rw [hp]; rfl) ?_⟩
          -- enough has been loaded since the registration, by a worker that
          -- has still to clean up
          intro w hmem _ _ _
          have hle : wrap64 (s.writenOffset + d.preLoadSize) ≤
              s.preLoadOffset := of_decide_eq_true hready
          rw [wrap64, Nat.mod_eq_of_lt hw.writen] at hle
          have hneed := hw.need_le w hmem
          have hloaded : w.2 ≤ s.preLoadOffset := by omega
          obtain ⟨u, hu, hrun⟩ := hw.loaded w hmem hloaded
          refine Or.inr ⟨u, hu, Or.inr ⟨hrun, fun o ho => ?_⟩⟩
          rw [hw.cleaning u o true ho]
          exact hloaded
  | notReady t k hp =>
      refine ⟨h, hw.move (t := t) rfl rfl rfl rfl (fun _ _ => rfl) rfl hsame
        (fun r' hr => hw.fits t r' ?_) (by rw [hp]; rfl) rfl
        (fun _ _ _ => ?_) (fun _ _ _ => nofun)⟩
      · rw [hp]
        cases k with
        | holdWait r => exact hr
        | getAddr => exact nomatch hr
      · rw [hp]
        cases k with
        | holdWait r => rfl
        | getAddr => rfl
  | busy t k hp hflag =>
      cases k with
      | getAddr =>
          exact ⟨h, hw.outside (t := t) rfl rfl rfl rfl rfl rfl hsame nofun
            (by rw [hp]; rfl) rfl (by rw [hp]; rfl)⟩
      | holdWait r =>
          refine ⟨h, hw.move (t := t) rfl rfl rfl rfl (fun _ _ => rfl) rfl
            hsame (fun r' hr => hw.fits t r' (by rw [hp]; exact hr))
            (by rw [hp]; rfl) rfl (fun _ _ _ => by rw [hp]; rfl) ?_⟩
          intro w hmem hwt _ _
          obtain ⟨r', hin, hneed⟩ := hw.inside w hmem
          rw [hwt, hp] at hin
          cases hin
          match h, hw.held with
          | none, hh =>
              exact absurd hh.1 (by rw [hflag]; exact Bool.noConfusion)
          | some none, _ => exact Or.inl rfl
          | some (some u), hh =>
              obtain ⟨hsubmit, hstop⟩ := hg r hp u
              have howns := (hh.2.2 u).mpr rfl
              refine Or.inr ⟨u, rfl, ?_⟩
              cases hu : s.threads u with
              | submit k =>
                  cases k with
                  | holdWait r' => exact Or.inl ⟨r', rfl⟩
                  | getAddr => exact absurd hu hsubmit
              | load => exact Or.inr ⟨rfl, nofun⟩
              | alloc offset => exact Or.inr ⟨rfl, nofun⟩
              | push chunkId => exact Or.inr ⟨rfl, nofun⟩
              | clean offset b =>
                  refine Or.inr ⟨rfl, fun o ho => ?_⟩
                  cases ho
                  rw [← hneed, hw.cleaning u offset true hu]
                  exact hstop offset hu
              | cleanAll => exact Or.inr ⟨rfl, nofun⟩
              | _ =>
                  rw [hu] at howns
                  exact nomatch howns
  | take t k hp hflag => exact hw.take hp hflag
  | woken t r p hp hpost hp' =>
      have hnot : ∀ w ∈ s.holdList, w.1 ≠ t := by
        intro w hmem hwt
        have hno := hw.unposted w hmem
        rw [hwt] at hno
        exact hpost hno
      refine ⟨h, hw.move (t := t) (p := p) rfl rfl rfl rfl
        (fun w hmem => Function.update_of_ne (hnot w hmem) ..) rfl hsame
        (fun r' hr => hw.fits t r' ?_) (by rw [hp]; rfl) ?_
        (fun w hmem hwt => absurd hwt (hnot w hmem))
        (fun w hmem hwt => absurd hwt (hnot w hmem))⟩
      · rw [hp]
        rcases hp' with rfl | rfl
        · exact hr
        · exact nomatch hr
      · rcases hp' with rfl | rfl
        · rfl
        · rfl
  | written t r hp =>
      have hfits := hw.fits t r (by rw [hp]; rfl)
      refine ⟨h, hw.outside (t := t) rfl rfl rfl rfl rfl rfl (hmax r hfits) ?_
        (by rw [hp]; rfl) rfl (by rw [hp]; rfl)⟩
      intro r' hr
      cases hr
      exact hfits
  | built t r flowAddr hp hbuild =>
      exact ⟨h, hw.outside (t := t) rfl rfl rfl rfl rfl rfl hsame nofun
        (by rw [hp]; rfl) rfl (by rw [hp]; rfl)⟩
  | truncated t offset hp hlt =>
      exact ⟨h, hw.outside (t := t) rfl rfl rfl rfl rfl rfl hsame nofun
        (by rw [hp]; rfl) rfl (by rw [hp]; rfl)⟩
  | freed t chunkId cleanList hp =>
      exact ⟨h, hw.outside (t := t) rfl rfl rfl rfl rfl rfl hsame nofun
        (by rw [hp]; rfl) rfl (by rw [hp]; rfl)⟩
  | start t hp hq => exact hw.start hp hq
  | load t hp =>
      exact ⟨h, hw.work (t := t) rfl rfl rfl rfl rfl rfl rfl (by rw [hp]; rfl)
        rfl nofun⟩
  | allocated t offset chunkId hp hfresh =>
      exact ⟨h, hw.work (t := t) rfl rfl rfl rfl rfl rfl rfl (by rw [hp]; rfl)
        rfl nofun⟩
  | allocFailed t offset hp =>
      exact ⟨h, hw.work (t := t) rfl rfl rfl rfl rfl rfl rfl (by rw [hp]; rfl)
        rfl nofun⟩
  | pushed t chunkId hp => exact ⟨h, hw.pushed hp⟩
  | cleaned t offset b hp => exact hw.cleaned hp
  | cleanedAll t hp => exact hw.cleanedAll hp
  | submitted t k hp => exact hw.submitted hp
  | submitFailed t k hp => exact hw.submitFailed hp hg

omit [DecidableEq ι] in
theorem waits_init (d : Dims) : Waits d (Flow.init ι) none := by
  refine ⟨held_init, nofun, ?_, List.nodup_nil, nofun, nofun, nofun, nofun,
    nofun, nofun, nofun⟩
  show 0 + d.preLoadSize < 2 ^ 64
  rw [Nat.zero_add]
  exact d.preLoadSize_lt

omit [DecidableEq ι] in
/-- A waiter on the list has somebody who looks after it. -/
theorem Waits.quiet (hw : Waits d s h) (hq : Quiet s) : s.holdList = [] := by
  refine List.eq_nil_iff_forall_not_mem.mpr fun w hmem => ?_
  obtain ⟨hqueue, hrun, hbefore⟩ := hq
  obtain ⟨r, hin, -⟩ := hw.inside w hmem
  have hwait : ∃ r, s.threads w.1 = .wait r := by
    have hno := hbefore w.1
    cases hp : s.threads w.1 with
    | check k =>
        rw [hp] at hin hno
        cases k with
        | holdWait r => exact nomatch hno
        | getAddr => exact nomatch hin
    | flag k =>
        rw [hp] at hin hno
        cases k with
        | holdWait r => exact nomatch hno
        | getAddr => exact nomatch hin
    | submit k =>
        rw [hp] at hin hno
        cases k with
        | holdWait r => exact nomatch hno
        | getAddr => exact nomatch hin
    | wait r => exact ⟨r, rfl⟩
    | _ =>
        rw [hp] at hin
        exact nomatch hin
  obtain ⟨r, hwait⟩ := hwait
  have hheld := hw.held
  rcases hw.tended w hmem r hwait with hh | ⟨u, hh, hu⟩
  · rw [hh] at hheld
    exact absurd hheld.2.1 (by rw [hqueue]; exact Nat.zero_ne_one)
  · rcases hu with ⟨r', hu⟩ | ⟨hu, -⟩
    · have hno := hbefore u
      rw [hu] at hno
      exact nomatch hno
    · rw [hrun u] at hu
      exact nomatch hu

/-- **NO WAITER IS STRANDED**: in every run whose steps are all served, the
    list is empty as soon as nothing is under way that could wake a waiter. -/
theorem served_holdList_empty {es : List (Event ι)}
    (hserved : Along (step d) (Served d) (Flow.init ι) es)
    (hrun : runFrom (step d) (Flow.init ι) es = some s) (hquiet : Quiet s) :
    s.holdList = [] := by
  obtain ⟨h, hw⟩ := runFrom_invariant_along (I := fun s => ∃ h, Waits d s h)
    (fun _ _ _ hI hg hs => by
      obtain ⟨h, hw⟩ := hI
      exact hw.trans hg (trans_of_step hs))
    es (Flow.init ι) s ⟨none, waits_init d⟩ hserved hrun
  exact hw.quiet hquiet

/-! ## Two runs -/

instance [Fintype ι] (s : Flow ι) : Decidable (Quiet s) :=
  inferInstanceAs (Decidable (_ ∧ _ ∧ _))

/-- Chunks of four bytes, one of them ahead. -/
def smallDims : Dims := .of 4 4

/-- A writer asks for the first byte, waits, and is woken; the worker of thread
    1 goes on to load a second chunk and decides to stop. -/
def loadTwo : List (Event (Fin 3)) :=
  [.getAddrByOffset (three 0) (.of 0 1), .go (three 0), .go (three 0),
   .go (three 0), .go (three 0), .go (three 0), .preLoadObject (three 0) true,
   .start (three 1), .go (three 1), .mediaAlloc (three 1) (some 70),
   .go (three 1), .go (three 1), .go (three 0), .go (three 0), .go (three 0),
   .go (three 0), .go (three 0), .go (three 1), .mediaAlloc (three 1) (some 71),
   .go (three 1)]

/-- A second writer registers and finds the flag set before the worker clears
    it. -/
def lateWriter : List (Event (Fin 3)) :=
  [.getAddrByOffset (three 2) (.of 8 1), .go (three 2), .go (three 2),
   .go (three 2), .go (three 2), .go (three 2), .go (three 1)]

/-- A writer whose task is not accepted. -/
def refusedTask : List (Event (Fin 3)) :=
  [.getAddrByOffset (three 0) (.of 0 1), .go (three 0), .go (three 0),
   .go (three 0), .go (three 0), .go (three 0), .preLoadObject (three 0) false]

/-- Waiters are stranded by a task that is not accepted, and by a worker that
    has decided to stop. -/
theorem waiter_stranded :
    (∃ s, runFrom (step smallDims) (Flow.init (Fin 3)) refusedTask = some s ∧
      Quiet s ∧ s.holdList = [(0, 1)]) ∧
    ∃ s, runFrom (step smallDims) (Flow.init (Fin 3))
        (loadTwo ++ lateWriter) = some s ∧
      Quiet s ∧ s.holdList = [(2, 9)] := by
  have hrefused : (runFrom (step smallDims) (Flow.init (Fin 3))
      refusedTask).any (fun s => decide (Quiet s) &&
        decide (s.holdList = [(0, 1)])) = true := by
    decide +kernel
  have hlate : (runFrom (step smallDims) (Flow.init (Fin 3))
      (loadTwo ++ lateWriter)).any (fun s => decide (Quiet s) &&
        decide (s.holdList = [(2, 9)])) = true := by
    decide +kernel
  constructor
  · obtain ⟨s, hs, hcheck⟩ := (Option.any_eq_true _ _).mp hrefused
    obtain ⟨hquiet, hlist⟩ := Bool.and_eq_true_iff.mp hcheck
    exact ⟨s, hs, of_decide_eq_true hquiet, of_decide_eq_true hlist⟩
  · obtain ⟨s, hs, hcheck⟩ := (Option.any_eq_true _ _).mp hlate
    obtain ⟨hquiet, hlist⟩ := Bool.and_eq_true_iff.mp hcheck
    exact ⟨s, hs, of_decide_eq_true hquiet, of_decide_eq_true hlist⟩

/-- A check that is enough for a step to be served: waiters find the flag free,
    and no hand-over fails. -/
def servedB (d : Dims) (s : Flow (Fin 3)) : Event (Fin 3) → Bool
  | .getAddrByOffset _ r => decide (r.needOffset + d.preLoadSize < 2 ^ 64)
  | .go t =>
      match s.threads t with
      | .flag (.holdWait _) => decide (∀ u, (s.threads u).owns = false)
      | _ => true
  | .preLoadObject _ ok => ok
  | _ => true

theorem served_of_servedB {s : Flow (Fin 3)} {e : Event (Fin 3)}
    (hcheck : servedB d s e = true) : Served d s e := by
  cases e with
  | getAddrByOffset t r =>
      rw [servedB, decide_eq_true_iff] at hcheck
      exact hcheck
  | go t =>
      intro r hr u
      rw [servedB, hr] at hcheck
      have hno := of_decide_eq_true hcheck u
      constructor
      · intro hu
        rw [hu] at hno
        exact nomatch hno
      · intro o hu
        rw [hu] at hno
        exact nomatch hno
  | preLoadObject t ok =>
      cases ok with
      | true => exact trivial
      | false => exact nomatch hcheck
  | truncateOffset t offset => exact trivial
  | start t => exact trivial
  | mediaAlloc t result => exact trivial

/-- A writer that has waited and been served, with the worker gone. -/
theorem served_holdList_empty_loadTwo :
    ∃ s, runFrom (step smallDims) (Flow.init (Fin 3)) (loadTwo ++ [.go 1]) =
        some s ∧ Quiet s ∧ s.answers.length = 1 ∧ s.holdList = [] := by
  have hcheck : (runFrom (step smallDims) (Flow.init (Fin 3))
      (loadTwo ++ [.go 1])).any (fun s => decide (Quiet s) &&
        decide (s.answers.length = 1)) = true := by
    decide +kernel
  have hserved : alongB (step smallDims) (servedB smallDims)
      (Flow.init (Fin 3)) (loadTwo ++ [.go 1]) = true := by
    decide +kernel
  obtain ⟨s, hs, hcheck⟩ := (Option.any_eq_true _ _).mp hcheck
  obtain ⟨hquiet, hone⟩ := Bool.and_eq_true_iff.mp hcheck
  refine ⟨s, hs, of_decide_eq_true hquiet, of_decide_eq_true hone, ?_⟩
  exact served_holdList_empty (along_of_alongB
    (fun _ _ h => served_of_servedB h) _ _ hserved) hs
    (of_decide_eq_true hquiet)

end UbsIo.Flows
