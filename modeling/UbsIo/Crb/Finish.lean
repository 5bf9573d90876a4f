import UbsIo.Crb.Recovery

/-! # Finish reports of old tasks

    A finish report carries the birth version that the node reads from its view
    when the finish batch arrives, not the one the task began with.  So a task
    from before a fault of the copy can finish the copy in its next life: its
    batch has to arrive when the node sees that next life already.

    From the reading on the birth version protects the copy.  `Timely` says
    exactly this: a report of an old task is harmless if its partition has been
    renewed since the version was read, or if the copy does not recover. -/

namespace UbsIo.Crb.Recovery

open UbsIo.Lib UbsIo.Mms
open UbsIo.Pt (PtCopyState CmPtFinish NodeState NodeInfo NodeInfoList
  NodeStateList)

/-! ## Statements -/

/-- The node's copy of the partition goes down from one view to the next. -/
def WentDown (nodeId : Nat) (l l' : PtEntryList) (p : Nat) : Prop :=
  ∃ e e' i, l.ptEntryList[p]? = some e ∧ l'.ptEntryList[p]? = some e' ∧
    (e.copyList i).nodeId = nodeId ∧
    ((e.copyList i).state = .running ∨ (e.copyList i).state = .recovery) ∧
    (e'.copyList i).state = .down

/-- The task was started before the node's copy last went down. -/
def Stale (nodeId : Nat) (s : Sys) (t : Task) : Prop :=
  ∃ q, t.started ≤ q ∧ q < s.now ∧
    WentDown nodeId (s.history q) (s.history (q + 1)) t.ptId.toNat

/-- The entry has a recovering copy on the node. -/
def RecoversOn (nodeId : Nat) (e : PtEntry) : Prop :=
  ∃ i < e.copyNum, (e.copyList i).nodeId = nodeId ∧
    (e.copyList i).state = .recovery

/-- From one view to the next more happens to the partition than that
    recovering copies begin to run. -/
def Renewed (l l' : PtEntryList) (p : Nat) : Prop :=
  ∃ e e', l.ptEntryList[p]? = some e ∧ l'.ptEntryList[p]? = some e' ∧
    ¬ Advances e e'

/-- The server handles the report of an old task and lets the node's
    recovering copy run. -/
def AcceptsStale (nodeId : Nat) (s : Sys) : Action → Prop
  | .deliver pos _ => ∃ r, s.reports[pos]? = some r ∧ Stale nodeId s r.task ∧
      ∃ e, s.view.ptEntryList[r.task.ptId.toNat]? = some e ∧
        (finishEntry nodeId r.version s.view.minCopyNum s.view.maxCopyNum
          e).isSome
  | _ => False

/-- When the report of an old task is handled and the node's copy recovers, the
    partition has been renewed since the version was read. -/
def Timely (nodeId : Nat) (s : Sys) : Action → Prop
  | .deliver pos _ => ∀ r, s.reports[pos]? = some r → Stale nodeId s r.task →
      (∃ e, s.view.ptEntryList[r.task.ptId.toNat]? = some e ∧
        RecoversOn nodeId e) →
      ∃ q, r.readAt ≤ q ∧ q < s.now ∧
        Renewed (s.history q) (s.history (q + 1)) r.task.ptId.toNat
  | _ => True

/-! ## The invariant -/

variable {core : CalcCore} {localNodeId : UInt16} {s s' : Sys}

/-- The version of a report is the birth version in the view it was read
    from. -/
def ReadFrom (history : Nat → PtEntryList) (now : Nat) (r : Report) : Prop :=
  r.readAt ≤ now ∧ ∃ e,
    (history r.readAt).ptEntryList[r.task.ptId.toNat]? = some e ∧
      e.birthVersion = r.version

structure Inv (core : CalcCore) (s : Sys) : Prop where
  law : ViewLaw core.copyNum s.view
  grows : ∀ j ≤ s.now, ∀ i ≤ j, ListFollows (s.history i) (s.history j)
  seen : s.seen ≤ s.now
  handlers : ∀ h ∈ s.handlers, ∀ r k, h.phase = .report r k →
    ReadFrom s.history s.now r
  reports : ∀ r ∈ s.reports, ReadFrom s.history s.now r

/-- A step that leaves the views alone and makes no handler or report. -/
theorem Inv.keep (h : Inv core s) (hhist : s'.history = s.history)
    (hnow : s'.now = s.now) (hseen : s'.seen = s.seen)
    (hhand : ∀ x ∈ s'.handlers, ∀ r k, x.phase = .report r k →
      ReadFrom s.history s.now r)
    (hrep : ∀ r ∈ s'.reports, ReadFrom s.history s.now r) : Inv core s' := by
  refine ⟨?_, ?_, ?_, ?_, ?_⟩
  · rw [Sys.view, hhist, hnow]
    exact h.law
  · rw [hhist, hnow]
    exact h.grows
  · rw [hseen, hnow]
    exact h.seen
  · rw [hhist, hnow]
    exact hhand
  · rw [hhist, hnow]
    exact hrep

theorem publish_history {l : PtEntryList} {k : Nat} (hk : k ≤ s.now) :
    (s.publish l).history k = s.history k :=
  Function.update_of_ne (by omega) _ _

theorem publish_view (s : Sys) (l : PtEntryList) : (s.publish l).view = l :=
  Function.update_self _ _ _

theorem ReadFrom.publish {r : Report} (l : PtEntryList)
    (h : ReadFrom s.history s.now r) :
    ReadFrom (s.publish l).history (s.publish l).now r := by
  obtain ⟨hle, e, he, hv⟩ := h
  refine ⟨Nat.le_succ_of_le hle, e, ?_, hv⟩
  rw [publish_history hle]
  exact he

/-- The server publishes a view that follows lawfully. -/
theorem Inv.publish (h : Inv core s) {l : PtEntryList}
    (hl : LawfulStep core.copyNum s.view l) : Inv core (s.publish l) := by
  refine ⟨?_, ?_, Nat.le_succ_of_le h.seen, ?_, ?_⟩
  · rw [publish_view]
    exact hl.law
  · intro j hj i hi
    have hlast : (s.publish l).history (s.now + 1) = l := publish_view s l
    by_cases hjn : j ≤ s.now
    · rw [publish_history hjn, publish_history (hi.trans hjn)]
      exact h.grows j hjn i hi
    · have hj' : j = s.now + 1 :=
        le_antisymm hj (Nat.lt_of_not_le hjn)
      by_cases hin : i ≤ s.now
      · rw [hj', hlast, publish_history hin]
        exact (h.grows s.now (le_refl _) i hin).trans hl.follows
      · have hi' : i = s.now + 1 := by omega
        rw [hj', hi']
        exact ListFollows.refl _
  · intro x hx r k hr
    exact (h.handlers x hx r k hr).publish l
  · intro r hr
    exact (h.reports r hr).publish l

/-! ## Steps -/

/-- A handler that goes on reads its version from the node's view. -/
theorem advance_report (h : Inv core s) {x : Handler} (hx : x ∈ s.handlers)
    {ok : Bool} {r : Report} {k : Nat}
    (hadv : advance ok x s = some (.report r k)) :
    ReadFrom s.history s.now r := by
  rw [advance] at hadv
  split at hadv
  · split at hadv
    · cases hadv
    · cases hadv
  · split at hadv
    · cases hadv
    · cases hadv
  · obtain ⟨e, he, hr⟩ := Option.map_eq_some_iff.mp hadv
    cases hr
    exact ⟨h.seen, e, he, rfl⟩
  · rename_i hphase
    split at hadv
    · cases hadv
    · cases hadv
      exact h.handlers x hx _ _ hphase

theorem Inv.handlerStep (h : Inv core s) {pos : Nat} {ok : Bool}
    (hs : handlerStep pos ok s = some s') : Inv core s' := by
  obtain ⟨x, hx, hs⟩ := Option.map_eq_some_iff.mp hs
  have hmem := List.mem_of_getElem? hx
  split at hs
  · rename_i phase hadv
    cases hs
    refine h.keep rfl rfl rfl ?_ h.reports
    intro y hy r k hr
    rcases List.mem_or_eq_of_mem_set hy with hy | rfl
    · exact h.handlers y hy r k hr
    · rw [show phase = _ from hr] at hadv
      exact advance_report h hmem hadv
  · cases hs
    have hleft : ∀ y ∈ s.handlers.eraseIdx pos, ∀ r k,
        y.phase = .report r k → ReadFrom s.history s.now r :=
      fun y hy => h.handlers y (List.mem_of_mem_eraseIdx hy)
    rw [finishHandler]
    split
    · split
      · exact h.keep rfl rfl rfl hleft h.reports
      · exact h.keep rfl rfl rfl hleft h.reports
    · exact h.keep rfl rfl rfl hleft h.reports

end UbsIo.Crb.Recovery
