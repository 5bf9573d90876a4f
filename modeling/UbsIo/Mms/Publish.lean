import UbsIo.Mms.Progress
import UbsIo.Mms.Server

/-! # What is in memory is in the store

    A handler flags the view whenever it changes it, and stores it when it is
    flagged, so between two events the stored view is the one in memory.  That
    fails when the update of the view ends before the store: when a rebalance
    is asked for and does not succeed.  The check asks for one as soon as one
    node is normal and some node or its disk 0 has left; the rebalance needs
    every node of the pool.

    `Publishable` is the condition on the tables under which the two agree, for
    at most four copies exactly (`rebalanceSucceeds_iff`).  Under it every
    handler ends with the store (`Kept`, `kept_update`). -/

namespace UbsIo.Mms

open UbsIo.Lib
open UbsIo.Pt (NodeState NodeInfo NodeInfoList NodeStateList NodeStateInfo
  CmPtFinish viewCalcNormNodeNum viewCalcCheckNodeIsNormal
  viewCalcCheckNodeIsFault uniformPool poolStates)

variable {core : CalcCore}

/-! ## The condition -/

/-- The tables of a pool with which its view can be updated: no node is
    normal; or all are, and the copy lists have room or nothing has left; or
    nothing has left, and the normal nodes serve with disk 0 unless no
    partition is normal. -/
def Publishable (core : CalcCore) (p : CmServerPool) : Prop :=
  viewCalcNormNodeNum p.nodeList p.stateList = 0 ∨
  viewCalcNormNodeNum p.nodeList p.stateList = core.copyNum ∧
    (2 * core.copyNum ≤ maxCopyNum ∨
      NoneLeft core.copyNum p.nodeList p.stateList) ∨
  NoneLeft core.copyNum p.nodeList p.stateList ∧
    (AllServe p.nodeList p.stateList ∨
      ¬ SomeNormal p.ptEntryList.ptEntryList)

instance (n : Nat) (nodeList : NodeInfoList) (stateList : NodeStateList) :
    Decidable (NoneLeft n nodeList stateList) :=
  inferInstanceAs (Decidable (∀ x < n,
    viewCalcCheckNodeIsFault nodeList stateList x 0 = false))

instance (nodeList : NodeInfoList) (stateList : NodeStateList) :
    Decidable (AllServe nodeList stateList) :=
  inferInstanceAs (Decidable (∀ x ∈ normalNodes nodeList stateList,
    viewCalcCheckNodeIsNormal nodeList stateList x 0 = true))

instance (entries : List PtEntry) : Decidable (SomeNormal entries) :=
  inferInstanceAs (Decidable (∃ e ∈ entries, e.state = .normal))

instance (core : CalcCore) (p : CmServerPool) :
    Decidable (Publishable core p) :=
  inferInstanceAs (Decidable (_ ∨ _ ∧ (_ ∨ _) ∨ _ ∧ (_ ∨ ¬ _)))

/-- A rebalance of the view that is asked for succeeds. -/
def RebalanceSucceeds (core : CalcCore) (p : CmServerPool) : Prop :=
  viewCalculatorNeedRebalance core p.nodeList p.stateList p.ptEntryList =
      some true →
    ∃ l, viewCalculatorRebalance core p.nodeList p.stateList p.ptEntryList =
      some (true, l)

/-- What holds of a pool within a handler. -/
structure Kept (core : CalcCore) (p : CmServerPool) : Prop where
  room : Roomy core p.stateList
  law : ViewLaw core.copyNum p.ptEntryList
  settled : Settled core.copyNum p.ptEntryList.ptEntryList
  unflagged : p.ptChange = false → p.zkPtEntryList = p.ptEntryList

/-- Without a normal node no rebalance is asked for. -/
theorem needRebalance_of_none {nodeList : NodeInfoList}
    {stateList : NodeStateList} (l : PtEntryList)
    (h : viewCalcNormNodeNum nodeList stateList = 0) :
    viewCalculatorNeedRebalance core nodeList stateList l = some false := by
  rw [viewCalculatorNeedRebalance]
  split
  · rfl
  · rw [if_pos (by omega)]

/-- Whether a rebalance is asked for can be told. -/
theorem Kept.need_some {p : CmServerPool} (h : Kept core p) :
    ∃ isNeed, viewCalculatorNeedRebalance core p.nodeList p.stateList
      p.ptEntryList = some isNeed := by
  by_cases hzero : viewCalcNormNodeNum p.nodeList p.stateList = 0
  · exact ⟨false, needRebalance_of_none _ hzero⟩
  · obtain ⟨isNeed, hneed, -⟩ := needRebalance_iff h.room h.settled hzero
    exact ⟨isNeed, hneed⟩

/-- Under the condition a rebalance is asked for only when it succeeds, and it
    leaves full entries. -/
theorem Kept.rebalance {p : CmServerPool} (h : Kept core p)
    (hpub : Publishable core p)
    (hneed : viewCalculatorNeedRebalance core p.nodeList p.stateList
      p.ptEntryList = some true) :
    ∃ l, viewCalculatorRebalance core p.nodeList p.stateList p.ptEntryList =
        some (true, l) ∧ ViewLaw core.copyNum l ∧
      Settled core.copyNum l.ptEntryList := by
  have hzero : viewCalcNormNodeNum p.nodeList p.stateList ≠ 0 := by
    intro hzero
    rw [needRebalance_of_none _ hzero] at hneed
    cases hneed
  obtain ⟨isNeed, hsome, hiff⟩ := needRebalance_iff h.room h.settled hzero
  rw [hsome] at hneed
  cases hneed
  rcases hpub with hnone | ⟨hall, hleft⟩ | ⟨hstay, hserve⟩
  · exact absurd hnone hzero
  · obtain ⟨l, hl, hsettled⟩ :=
      rebalance_total h.room h.law h.settled hall hleft
    exact ⟨l, hl, (rebalance_lawful h.room.nodes h.law hl).law, hsettled⟩
  · -- nothing has left, so the rebalance was not asked for
    rcases hiff.mp rfl with hleft | ⟨hnot, hsome⟩
    · exact absurd hstay hleft
    · rcases hserve with hserve | hserve
      · exact absurd hserve hnot
      · exact absurd hsome hserve

theorem normNodeNum_le (nodeList : NodeInfoList) (stateList : NodeStateList) :
    viewCalcNormNodeNum nodeList stateList ≤ stateList.nodeList.length := by
  rw [normNodeNum_eq, normalNodes]
  refine Nat.le_trans (List.length_filter_le ..) ?_
  rw [List.length_range]

/-- **THE CONDITION IS EXACT** for at most four copies. -/
theorem rebalanceSucceeds_iff {p : CmServerPool} (h : Kept core p)
    (hroom : 2 * core.copyNum ≤ maxCopyNum) :
    RebalanceSucceeds core p ↔ Publishable core p := by
  constructor
  · intro hsucc
    by_cases hzero : viewCalcNormNodeNum p.nodeList p.stateList = 0
    · exact Or.inl hzero
    by_cases hall : viewCalcNormNodeNum p.nodeList p.stateList = core.copyNum
    · exact Or.inr (Or.inl ⟨hall, Or.inl hroom⟩)
    have hle := normNodeNum_le p.nodeList p.stateList
    rw [h.room.nodes] at hle
    obtain ⟨isNeed, hneed, hiff⟩ := needRebalance_iff h.room h.settled hzero
    -- with a node missing the rebalance fails, so it was not asked for
    have hnot : ¬ isNeed = true := by
      rintro rfl
      obtain ⟨l, hl⟩ := hsucc hneed
      rw [viewCalculatorRebalance, if_pos (by omega)] at hl
      cases hl
    rw [hiff, not_or, not_not, not_and_or, not_not] at hnot
    exact Or.inr (Or.inr hnot)
  · intro hpub hneed
    obtain ⟨l, hl, -⟩ := h.rebalance hpub hneed
    exact ⟨l, hl⟩

/-! ## Within a handler -/

/-- Changes of the other tables keep what is known about the view. -/
theorem Kept.of_frame {p p' : CmServerPool} (h : Kept core p)
    (hnodes : p'.stateList.nodeList.length = p.stateList.nodeList.length)
    (hview : p'.ptEntryList = p.ptEntryList)
    (hflag : p'.ptChange = p.ptChange)
    (hstore : p'.zkPtEntryList = p.zkPtEntryList) : Kept core p' := by
  refine ⟨⟨hnodes.trans h.room.nodes, h.room.cells⟩, ?_, ?_, ?_⟩
  · rw [hview]
    exact h.law
  · rw [hview]
    exact h.settled
  · rw [hflag, hstore, hview]
    exact h.unflagged

theorem Kept.setState {p : CmServerPool} (h : Kept core p) (nodeId : Nat)
    (s : NodeStateInfo) : Kept core (p.setState nodeId s) :=
  h.of_frame (List.length_set ..) rfl rfl rfl

theorem Kept.takeInfo {p : CmServerPool} (h : Kept core p) (nodeId : Nat)
    (cache : NodeInfo) : Kept core (p.takeInfo nodeId cache) := by
  rw [CmServerPool.takeInfo]
  split
  · exact h
  · exact h.of_frame rfl rfl rfl rfl

theorem Settled.of_place {n : Nat} {entries : List PtEntry}
    (h : Settled n entries) {entries' : List PtEntry}
    (hplaced : ∀ e ∈ entries', Placed n e)
    (hR : List.Forall₂ SamePlace entries entries') : Settled n entries' := by
  refine ⟨hplaced, ?_, ?_⟩
  · refine forall₂_all (fun e e' hs hin => ?_) hR h.inside
    refine hin.imp_right fun hfull i hi => ?_
    rw [Live, hs.live]
    exact hfull i hi
  · rw [Ne, ← List.length_eq_zero_iff, ← hR.length_eq,
      List.length_eq_zero_iff]
    exact h.nonempty

/-- A report that does not flag the view does not change it. -/
theorem nodeState_unflagged {nodeId : Nat} {state : NodeState}
    {info : NodeInfo} {l : PtEntryList} {pgChange : Bool}
    (h : (viewPtEntryListUpdateNodeState nodeId state info l pgChange).2 =
      false) :
    pgChange = false ∧
      (viewPtEntryListUpdateNodeState nodeId state info l pgChange).1 = l := by
  obtain ⟨hflag, hany⟩ := Bool.or_eq_false_iff.mp h
  refine ⟨hflag, ?_⟩
  have hsame : (l.ptEntryList.map fun e => (nodeStateEntry nodeId state info
      l.minCopyNum l.maxCopyNum e).getD e) = l.ptEntryList := by
    refine (List.map_congr_left (g := id) fun e he => ?_).trans
      (List.map_id _)
    have hnone := List.any_eq_false.mp hany e he
    rw [Bool.not_eq_true, Option.isSome_eq_false_iff,
      Option.isNone_iff_eq_none] at hnone
    rw [hnone]
    rfl
  simp only [viewPtEntryListUpdateNodeState, hsame, hany, hflag,
    Bool.or_false, Bool.false_eq_true, if_false]

/-- What a handler may do to the view: the law stays, the copies keep their
    places, and without a flag nothing changes. -/
structure ViewKept (n : Nat) (l l' : PtEntryList) (flag flag' : Bool) :
    Prop where
  law : ViewLaw n l'
  place : List.Forall₂ SamePlace l.ptEntryList l'.ptEntryList
  unflagged : flag' = false → flag = false ∧ l' = l

theorem SamePlace.refl (e : PtEntry) : SamePlace e e := .of_copyList rfl

theorem viewKept_nodeState {n nodeId : Nat} {state : NodeState}
    {info : NodeInfo} {l : PtEntryList} (pgChange : Bool)
    (h : ViewLaw n l) :
    ViewKept n l (viewPtEntryListUpdateNodeState nodeId state info l
        pgChange).1 pgChange
      (viewPtEntryListUpdateNodeState nodeId state info l pgChange).2 := by
  refine ⟨(nodeState_lawful pgChange h).law, ?_, nodeState_unflagged⟩
  refine List.forall₂_map_right_iff.mpr (List.forall₂_same.mpr ?_)
  intro e _
  cases hf : nodeStateEntry nodeId state info l.minCopyNum l.maxCopyNum e with
  | none => exact .refl e
  | some e' => exact nodeStateEntry_place hf

theorem ViewKept.trans {n : Nat} {l₁ l₂ l₃ : PtEntryList}
    {f₁ f₂ f₃ : Bool} (h₁ : ViewKept n l₁ l₂ f₁ f₂)
    (h₂ : ViewKept n l₂ l₃ f₂ f₃) : ViewKept n l₁ l₃ f₁ f₃ where
  law := h₂.law
  place := forall₂_comp (fun _ _ _ h h' => h.trans h') h₁.place h₂.place
  unflagged h := by
    obtain ⟨hf₂, rfl⟩ := h₂.unflagged h
    exact h₁.unflagged hf₂

theorem viewKept_finishItem {n : Nat} (nodeId : Nat)
    (st : PtEntryList × Bool) (f : CmPtFinish) (h : ViewLaw n st.1) :
    ViewKept n st.1 (finishItem nodeId st f).1 st.2
      (finishItem nodeId st f).2 := by
  have hsame : ViewKept n st.1 st.1 st.2 st.2 :=
    ⟨h, List.forall₂_same.mpr fun e _ => .refl e, fun hf => ⟨hf, rfl⟩⟩
  have hlaw := (finishItem_lawful nodeId f h).law
  rw [finishItem] at hlaw ⊢
  split
  · exact hsame
  · rename_i e he
    rw [he] at hlaw
    dsimp only at hlaw
    split
    · exact hsame
    · rename_i e' hf
      rw [hf] at hlaw
      exact ⟨hlaw, forall₂_set .refl he (finishEntry_place hf),
        fun hflag => Bool.noConfusion hflag⟩

theorem viewKept_finish {n nodeId : Nat} {l : PtEntryList}
    (ptList : List CmPtFinish) (ptChange : Bool) (h : ViewLaw n l) :
    ViewKept n l (viewPtEntryListUpdateNodeFinish nodeId ptList l
        ptChange).1 ptChange
      (viewPtEntryListUpdateNodeFinish nodeId ptList l ptChange).2 := by
  have hfold : ∀ (fs : List CmPtFinish) (st : PtEntryList × Bool),
      ViewLaw n st.1 → ViewKept n st.1
        (fs.foldl (finishItem nodeId) st).1 st.2
        (fs.foldl (finishItem nodeId) st).2 := by
    intro fs
    induction fs with
    | nil =>
        exact fun st h => ⟨h, List.forall₂_same.mpr fun e _ => .refl e,
          fun hf => ⟨hf, rfl⟩⟩
    | cons f fs ih =>
        intro st h
        have h₁ := viewKept_finishItem nodeId st f h
        exact h₁.trans (ih (finishItem nodeId st f) h₁.law)
  have hall := hfold ptList (l, ptChange) h
  refine ⟨(finish_lawful ptList ptChange h).law, hall.place, ?_⟩
  intro hflag
  obtain ⟨hold, hsame⟩ := hall.unflagged hflag
  refine ⟨hold, ?_⟩
  have hversion : (ptList.foldl (finishItem nodeId) (l, ptChange)).2 =
      false := hflag
  simp only [viewPtEntryListUpdateNodeFinish, hversion, Bool.false_eq_true,
    if_false]
  exact hsame

theorem Kept.of_viewKept {p : CmServerPool} (h : Kept core p)
    {l : PtEntryList} {flag : Bool}
    (hk : ViewKept core.copyNum p.ptEntryList l p.ptChange flag) :
    Kept core { p with ptEntryList := l, ptChange := flag } where
  room := h.room
  law := hk.law
  settled := h.settled.of_place (fun e he => (hk.law.entries e he).placed)
    hk.place
  unflagged hflag := by
    obtain ⟨hold, rfl⟩ := hk.unflagged hflag
    exact h.unflagged hold

theorem Kept.updateState {p : CmServerPool} (h : Kept core p) (nodeId : Nat)
    (state : NodeState) : Kept core (p.updateState core nodeId state) := by
  rw [CmServerPool.updateState]
  split
  · exact h
  · exact h.of_viewKept (viewKept_nodeState _ h.law)

theorem Kept.ptEvent {p : CmServerPool} (h : Kept core p)
    (report : Nat × List CmPtFinish) :
    Kept core (cmServerViewPtEvent core p report) := by
  rw [cmServerViewPtEvent]
  split
  · exact h
  · exact h.of_viewKept (viewKept_finish _ _ h.law)

theorem Kept.offline {p : CmServerPool} (h : Kept core p) (nodeId : Nat) :
    Kept core (cmServerViewNodeOffline core nodeId p) := by
  rw [cmServerViewNodeOffline]
  dsimp only
  split
  · exact h
  · split
    · exact (h.setState _ _).updateState _ _
    · exact h.setState _ _

theorem Kept.online {p : CmServerPool} (h : Kept core p) (nodeId : Nat)
    (cache : NodeInfo) :
    Kept core (cmServerViewNodeOnline core nodeId cache p) := by
  rw [cmServerViewNodeOnline]
  split
  · exact h
  · exact ((h.takeInfo _ _).setState _ _).updateState _ _

theorem Kept.buildNode {p : CmServerPool} (h : Kept core p) (nodeId : Nat)
    (cache : NodeInfo) :
    Kept core (cmServerViewBuildNode core nodeId cache p) := by
  rw [cmServerViewBuildNode]
  dsimp only
  split
  · exact h
  · split
    · exact (h.takeInfo _ _).updateState _ _
    · exact h.takeInfo _ _

theorem Kept.foldl {α : Type} {f : CmServerPool → α → CmServerPool}
    (hf : ∀ p a, Kept core p → Kept core (f p a)) :
    ∀ (as : List α) {p : CmServerPool}, Kept core p →
      Kept core (as.foldl f p) := by
  intro as
  induction as with
  | nil => exact fun h => h
  | cons a as ih => exact fun {p} h => ih (hf p a h)

theorem Kept.nodeListVisits {p : CmServerPool} (h : Kept core p)
    (watchList : List Nat) (infos : Nat → NodeInfo) :
    Kept core (nodeListVisits core watchList infos p) := by
  refine Kept.foldl (fun p nodeId h => ?_) _ h
  rw [nodeListVisit]
  split
  · exact h.online _ _
  · exact h.offline _

theorem Kept.recordNodeList {p : CmServerPool} (h : Kept core p) :
    Kept core (recordNodeList p) := by
  rw [UbsIo.Mms.recordNodeList]
  split
  · exact h.of_frame rfl rfl rfl rfl
  · exact h

theorem Kept.recordStateList {p : CmServerPool} (h : Kept core p) :
    Kept core (recordStateList p) := by
  rw [UbsIo.Mms.recordStateList]
  split
  · exact h.of_frame rfl rfl rfl rfl
  · exact h

/-- A mark is a change of the state list, if it is one at all. -/
theorem expiredSet_cases (p : CmServerPool) (x : Expired) :
    expiredSet p x = p ∨ ∃ nodeId s, expiredSet p x = p.setState nodeId s := by
  cases x with
  | node nodeId =>
      rw [expiredSet]
      split
      · exact Or.inl rfl
      · exact Or.inr ⟨nodeId, _, rfl⟩
  | disk nodeId diskIndex =>
      rw [expiredSet]
      split
      · exact Or.inl rfl
      · split
        · exact Or.inl rfl
        · exact Or.inr ⟨nodeId, _, rfl⟩

theorem Kept.expiredSet {p : CmServerPool} (h : Kept core p) (x : Expired) :
    Kept core (expiredSet p x) := by
  rcases expiredSet_cases p x with heq | ⟨nodeId, s, heq⟩
  · rw [heq]
    exact h
  · rw [heq]
    exact h.setState nodeId s

theorem marks_ptChange (marks : List Expired) :
    ∀ p : CmServerPool,
      (marks.foldl UbsIo.Mms.expiredSet p).ptChange = p.ptChange := by
  induction marks with
  | nil => exact fun _ => rfl
  | cons x marks ih =>
      intro p
      refine (ih _).trans ?_
      rcases expiredSet_cases p x with heq | ⟨nodeId, s, heq⟩
      · rw [heq]
      · rw [heq]
        rfl

/-! ## Between two events -/

/-- What holds of a pool between two events. -/
structure Published (core : CalcCore) (p : CmServerPool) : Prop extends
    Kept core p where
  clean : p.ptChange = false

/-- The commit ends with the view in the store. -/
theorem Kept.commit {p : CmServerPool} (h : Kept core p) :
    Published core (cmServerViewPtEventCommit p) := by
  rw [cmServerViewPtEventCommit]
  split
  · exact ⟨⟨h.room, h.law, h.settled, fun _ => rfl⟩, rfl⟩
  · rename_i hflag
    exact ⟨h, Bool.eq_false_iff.mpr hflag⟩

/-- **THE UPDATE STORES THE VIEW** if the tables meet the condition. -/
theorem kept_update {p : CmServerPool} (h : Kept core p)
    (hpub : Publishable core p) :
    ∃ p', cmServerViewUpdatePtEntryList core p = some p' ∧
      Published core p' := by
  have htry : ∃ q, tryRebalance core p = some (true, q) ∧ Kept core q := by
    rw [tryRebalance]
    split
    · exact ⟨p, rfl, h⟩
    · obtain ⟨isNeed, hneed⟩ := h.need_some
      cases isNeed with
      | false =>
          refine ⟨p, ?_, h⟩
          rw [hneed]
          rfl
      | true =>
          obtain ⟨l, hl, hlaw, hsettled⟩ := h.rebalance hpub hneed
          refine ⟨{ p with ptEntryList := l, ptChange := true }, ?_, h.room,
            hlaw, hsettled, fun hflag => Bool.noConfusion hflag⟩
          rw [hneed]
          simp only [Option.bind_eq_bind, Option.bind_some, if_true, hl]
  obtain ⟨q, hq, hkept⟩ := htry
  refine ⟨cmServerViewPtEventCommit q, ?_, hkept.commit⟩
  rw [cmServerViewUpdatePtEntryList, hq]
  rfl

/-- The pool that a handler calls the update of the view on; `none` when it
    does not call it. -/
def atUpdate (core : CalcCore) (p : CmServerPool) :
    ServerEvent → Option CmServerPool
  | .nodeListChange watchList infos =>
      some (recordStateList
        (recordNodeList (nodeListVisits core watchList infos p)))
  | .nodeEvent nodeId cache =>
      some (recordStateList
        (recordNodeList (cmServerViewBuildNode core nodeId cache p)))
  | .expired marks =>
      if (marks.foldl expiredSet p).stateChange then
        some (recordStateList (marks.foldl expiredSet p))
      else none
  | .ptEvents _ => none

theorem serverStep_of_atUpdate {p q : CmServerPool} {ev : ServerEvent}
    (h : atUpdate core p ev = some q) :
    serverStep core p ev = cmServerViewUpdatePtEntryList core q := by
  cases ev with
  | nodeListChange watchList infos =>
      cases h
      rfl
  | nodeEvent nodeId cache =>
      cases h
      rfl
  | expired marks =>
      rw [atUpdate] at h
      split at h
      · rename_i hchange
        cases h
        rw [serverStep, cmServerViewExpiredCommit, if_pos hchange]
      · cases h
  | ptEvents reports => cases h

theorem Kept.atUpdate {p q : CmServerPool} (h : Kept core p)
    {ev : ServerEvent} (hq : atUpdate core p ev = some q) : Kept core q := by
  cases ev with
  | nodeListChange watchList infos =>
      cases hq
      exact ((h.nodeListVisits _ _).recordNodeList).recordStateList
  | nodeEvent nodeId cache =>
      cases hq
      exact ((h.buildNode _ _).recordNodeList).recordStateList
  | expired marks =>
      rw [UbsIo.Mms.atUpdate] at hq
      split at hq
      · cases hq
        exact (Kept.foldl (fun p x h => h.expiredSet x) marks h).recordStateList
      · cases hq
  | ptEvents reports => cases hq

/-- The condition at one step of a run: it is about the tables with which the
    handler updates the view. -/
def PublishGuard (core : CalcCore) (p : CmServerPool) (ev : ServerEvent) :
    Prop :=
  ∀ q, atUpdate core p ev = some q → Publishable core q

/-- **STEP**: a handler whose tables meet the condition ends with the view in
    the store. -/
theorem published_step {p : CmServerPool} {ev : ServerEvent}
    (h : Published core p) (hguard : PublishGuard core p ev) :
    ∃ p', serverStep core p ev = some p' ∧ Published core p' := by
  cases hq : atUpdate core p ev with
  | some q =>
      rw [serverStep_of_atUpdate hq]
      exact kept_update (h.toKept.atUpdate hq) (hguard q hq)
  | none =>
      cases ev with
      | nodeListChange watchList infos => cases hq
      | nodeEvent nodeId cache => cases hq
      | expired marks =>
          rw [atUpdate] at hq
          split at hq
          · cases hq
          · rename_i hchange
            refine ⟨_, if_neg hchange, Kept.foldl (fun p x h =>
              h.expiredSet x) marks h.toKept, ?_⟩
            rw [marks_ptChange]
            exact h.clean
      | ptEvents reports =>
          exact ⟨_, rfl, (Kept.foldl (fun p r h => h.ptEvent r) reports
            h.toKept).commit⟩

theorem published_started {n : Nat} {nodeList : NodeInfoList}
    {stateList : NodeStateList} {l l₀ : PtEntryList} (hn : 1 ≤ n)
    (hmax : n ≤ maxCopyNum) (hnodes : stateList.nodeList.length = n)
    (hinit : viewCalculatorInitial (mmsCore n) nodeList stateList l =
      some (true, l₀)) :
    Published (mmsCore n) (.started nodeList stateList l₀) := by
  have hlaw := initial_lawful hnodes hinit
  obtain ⟨es, rfl, hlen, hbegun⟩ := initial_begun hnodes hinit
  refine ⟨⟨⟨hnodes, ?_⟩, hlaw, ⟨?_, ?_, ?_⟩, fun _ => rfl⟩, rfl⟩
  · show n ≤ n * maxDiskNum % 2 ^ 16
    rw [maxCopyNum] at hmax
    rw [maxDiskNum]
    omega
  · exact fun e he => (hlaw.entries e he).placed
  · intro e' he'
    obtain ⟨e, he, rfl⟩ := List.mem_map.mp he'
    refine Inside.of_copyList (Or.inr fun i hi => ?_)
      (initialUpdateEntry_frame e).1
    exact (hbegun e he).live_iff.mpr hi
  · show es.map initialUpdateEntry ≠ []
    rw [Ne, List.map_eq_nil_iff, ← List.length_eq_zero_iff, hlen]
    exact Nat.ne_of_gt hn

/-- **THE VIEW IS PUBLISHED**: on every run from a stored initial view whose
    updates meet the condition, every handler ends, the stored view is the one
    in memory, and a rebalance that is asked for succeeds.  For at most four
    nodes it succeeds only under the condition. -/
theorem views_published {n : Nat} {nodeList : NodeInfoList}
    {stateList : NodeStateList} {l l₀ : PtEntryList} {p : CmServerPool}
    {es : List ServerEvent} (hn : 1 ≤ n) (hmax : n ≤ maxCopyNum)
    (hnodes : stateList.nodeList.length = n)
    (hinit : viewCalculatorInitial (mmsCore n) nodeList stateList l =
      some (true, l₀))
    (hguard : Along (serverStep (mmsCore n)) (PublishGuard (mmsCore n))
      (.started nodeList stateList l₀) es)
    (hrun : runFrom (serverStep (mmsCore n)) (.started nodeList stateList l₀)
      es = some p) :
    p.zkPtEntryList = p.ptEntryList ∧
    ∀ ev : ServerEvent,
      (PublishGuard (mmsCore n) p ev →
        ∃ p', serverStep (mmsCore n) p ev = some p') ∧
      ∀ q, atUpdate (mmsCore n) p ev = some q →
        (Publishable (mmsCore n) q → RebalanceSucceeds (mmsCore n) q) ∧
        (2 * n ≤ maxCopyNum →
          (RebalanceSucceeds (mmsCore n) q ↔ Publishable (mmsCore n) q)) := by
  have hpub : Published (mmsCore n) p := by
    refine runFrom_invariant_along (G := PublishGuard (mmsCore n)) ?_ es _ p
      (published_started hn hmax hnodes hinit) hguard hrun
    intro p ev p' hp hev hstep
    obtain ⟨p₁, hp₁, hpub⟩ := published_step hp hev
    rw [hstep] at hp₁
    rw [Option.some.inj hp₁]
    exact hpub
  refine ⟨hpub.unflagged hpub.clean, fun ev => ⟨?_, ?_⟩⟩
  · intro hev
    obtain ⟨p', hp', -⟩ := published_step hpub hev
    exact ⟨p', hp'⟩
  · intro q hq
    have hkept := hpub.toKept.atUpdate hq
    refine ⟨?_, fun hroom => rebalanceSucceeds_iff hkept hroom⟩
    intro hq hneed
    obtain ⟨l', hl', -⟩ := hkept.rebalance hq hneed
    exact ⟨l', hl'⟩

/-- A pool of three nodes that are all up, with its first view. -/
def startThree (l₀ : PtEntryList) : CmServerPool :=
  .started (uniformPool 3) (poolStates (List.replicate 3 (.up, .stateIn))) l₀

/-- The registration of a node with one normal disk. -/
def oneDisk : NodeInfo := ⟨[⟨0, .normal⟩], []⟩

/-- All nodes go down, one of them expires, and all come back. -/
def expireWhileDown : List ServerEvent :=
  [.nodeListChange [1, 2] fun _ => oneDisk,
   .nodeListChange [] fun _ => oneDisk,
   .expired [.node 0],
   .nodeListChange [0, 1, 2] fun _ => oneDisk]

theorem views_published_expireWhileDown :
    ∃ l₀ p, initialAllUp (mmsCore 3) = some (true, l₀) ∧
      runFrom (serverStep (mmsCore 3)) (startThree l₀) expireWhileDown =
        some p ∧
      p.zkPtEntryList = p.ptEntryList ∧
      ∃ p', serverStep (mmsCore 3) p (.nodeEvent 1 oneDisk) = some p' := by
  have hcheck : (initialAllUp (mmsCore 3)).any (fun r => r.1 &&
      alongB (serverStep (mmsCore 3)) (fun p ev =>
        (atUpdate (mmsCore 3) p ev).all fun q => Publishable (mmsCore 3) q)
        (startThree r.2) expireWhileDown &&
      (runFrom (serverStep (mmsCore 3)) (startThree r.2)
        expireWhileDown).any fun p =>
          (atUpdate (mmsCore 3) p (.nodeEvent 1 oneDisk)).all fun q =>
            Publishable (mmsCore 3) q) = true := by
    decide +kernel
  have hguard : ∀ (p : CmServerPool) (ev : ServerEvent),
      ((atUpdate (mmsCore 3) p ev).all fun q => Publishable (mmsCore 3) q) =
        true → PublishGuard (mmsCore 3) p ev := by
    intro p ev hall q hq
    rw [hq] at hall
    exact of_decide_eq_true hall
  obtain ⟨⟨ok, l₀⟩, h₀, hcheck⟩ := (Option.any_eq_true _ _).mp hcheck
  obtain ⟨hcheck, hlast⟩ := Bool.and_eq_true_iff.mp hcheck
  obtain ⟨hok, halong⟩ := Bool.and_eq_true_iff.mp hcheck
  obtain ⟨p, hp, hlast⟩ := (Option.any_eq_true _ _).mp hlast
  rw [show ok = true from hok] at h₀
  obtain ⟨hstored, hnext⟩ := views_published (n := 3) (by decide) (by decide)
    rfl h₀ (along_of_alongB hguard _ _ halong) hp
  exact ⟨l₀, p, h₀, hp, hstored, (hnext _).1 (hguard _ _ hlast)⟩

/-- A node goes down and expires, then another one goes down. -/
def expireOne : List ServerEvent :=
  [.nodeListChange [1, 2] fun _ => oneDisk,
   .expired [.node 0],
   .nodeListChange [2] fun _ => oneDisk]

/-- After the expiry the view is not stored any more: the rebalance is asked
    for with two normal nodes and fails, so that the second failure is only
    known in memory. -/
theorem expired_not_published :
    ∃ l₀ p q l, initialAllUp (mmsCore 3) = some (true, l₀) ∧
      runFrom (serverStep (mmsCore 3)) (startThree l₀) expireOne = some p ∧
      p.zkPtEntryList ≠ p.ptEntryList ∧
      atUpdate (mmsCore 3) p (.nodeEvent 2 oneDisk) = some q ∧
      viewCalculatorNeedRebalance (mmsCore 3) q.nodeList q.stateList
        q.ptEntryList = some true ∧
      viewCalculatorRebalance (mmsCore 3) q.nodeList q.stateList
        q.ptEntryList = some (false, l) := by
  have hcheck : (initialAllUp (mmsCore 3)).any (fun r => r.1 &&
      (runFrom (serverStep (mmsCore 3)) (startThree r.2)
        expireOne).any fun p =>
          ((p.zkPtEntryList.ptEntryList.map (·.state)) !=
            p.ptEntryList.ptEntryList.map (·.state)) &&
          (atUpdate (mmsCore 3) p (.nodeEvent 2 oneDisk)).any fun q =>
            (viewCalculatorNeedRebalance (mmsCore 3) q.nodeList q.stateList
              q.ptEntryList == some true) &&
            (viewCalculatorRebalance (mmsCore 3) q.nodeList q.stateList
              q.ptEntryList).any fun r => !r.1) = true := by
    decide +kernel
  obtain ⟨⟨ok, l₀⟩, h₀, hcheck⟩ := (Option.any_eq_true _ _).mp hcheck
  obtain ⟨hok, hcheck⟩ := Bool.and_eq_true_iff.mp hcheck
  obtain ⟨p, hp, hcheck⟩ := (Option.any_eq_true _ _).mp hcheck
  obtain ⟨hstate, hcheck⟩ := Bool.and_eq_true_iff.mp hcheck
  obtain ⟨q, hq, hcheck⟩ := (Option.any_eq_true _ _).mp hcheck
  obtain ⟨hneed, hcheck⟩ := Bool.and_eq_true_iff.mp hcheck
  obtain ⟨⟨done, l⟩, hre, hdone⟩ := (Option.any_eq_true _ _).mp hcheck
  rw [show ok = true from hok] at h₀
  rw [show done = false from Bool.not_eq_true' _ ▸ hdone] at hre
  refine ⟨l₀, p, q, l, h₀, hp, ?_, hq, beq_iff_eq.mp hneed, hre⟩
  intro hsame
  rw [hsame, bne_self_eq_false] at hstate
  exact Bool.noConfusion hstate

end UbsIo.Mms
