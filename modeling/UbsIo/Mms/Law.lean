import UbsIo.Mms.Calc
import UbsIo.Lib.Traverse

/-! # The view law

    A pool of `n` nodes with `n` copies of each partition: every node holds one
    copy of every partition, whatever happens.  Node and finish reports change
    states only.  A rebalance that succeeds has `n` normal nodes to work with;
    it can only take a copy off an expired disk and put it back on the same
    node, and its balance moves find no node to move to.

    The birth version of a partition is what the recovery protocol goes by.  It
    rises with every step that does more to the partition than to let
    recovering copies run (`Advances`, `entry_step`), and it never passes the
    global version. -/

namespace UbsIo.Mms

open UbsIo.Lib
open UbsIo.Pt (PtCopyState NodeState NodeInfo nodeIdInvalid diskIdInvalid
  NodeInfoList NodeStateList CalcElem nodeIsIn normalDisks
  viewCalcNormNodeNum viewCalcCheckNodeIsNormal viewCalcCheckNodeIsFault
  insertByRefer CmPtFinish)

/-! ## Entries -/

@[simp] theorem setCopy_same (e : PtEntry) (i : Nat) (c : PtEntryCopy) :
    (e.setCopy i c).copyList i = c := by
  simp [PtEntry.setCopy]

theorem setCopy_apply (e : PtEntry) (i j : Nat) (c : PtEntryCopy) :
    (e.setCopy i c).copyList j = if j = i then c else e.copyList j := by
  by_cases h : j = i
  · rw [if_pos h, h, setCopy_same]
  · rw [if_neg h]
    simp [PtEntry.setCopy, h]

theorem setState_apply (e : PtEntry) (i j : Nat) (s : PtCopyState) :
    (e.setState i s).copyList j =
      if j = i then { e.copyList i with state := s } else e.copyList j :=
  setCopy_apply e i j _

/-- The copy at index `i` is neither unused nor given up. -/
def Live (e : PtEntry) (i : Nat) : Prop := (e.copyList i).state.live = true

def nodeOf (e : PtEntry) (i : Nat) : Nat := (e.copyList i).nodeId

/-- At most one live copy a slot, on distinct nodes of the pool, on disk 0. -/
structure Sparse (n : Nat) (e : PtEntry) : Prop where
  halves : Halves n (Live e) (nodeOf e) e.copyNum
  node_lt : ∀ i < 2 * n, Live e i → nodeOf e i < n
  disk_eq : ∀ i < 2 * n, Live e i → (e.copyList i).diskId = 0
  used : ∀ i < n, (e.copyList i).state ≠ .init

/-- No slot is empty either. -/
structure Placed (n : Nat) (e : PtEntry) : Prop extends Sparse n e where
  filled : FilledBelow n (Live e) n

/-- Every node of the pool holds exactly one live copy, and no other node
    holds any. -/
def EachNodeOnce (n : Nat) (e : PtEntry) : Prop :=
  (∀ x < n, ∃! i, i < 2 * n ∧ Live e i ∧ nodeOf e i = x) ∧
  ∀ i < 2 * n, Live e i → nodeOf e i < n

theorem Placed.eachNodeOnce {n : Nat} {e : PtEntry} (h : Placed n e) :
    EachNodeOnce n e :=
  ⟨fun _ hx => h.halves.existsUnique_place h.filled h.node_lt hx, h.node_lt⟩

/-- Only states of live copies change, and live copies stay live. -/
structure SamePlace (e e' : PtEntry) : Prop where
  live : ∀ i, (e'.copyList i).state.live = (e.copyList i).state.live
  init : ∀ i, (e'.copyList i).state = .init → (e.copyList i).state = .init
  node : ∀ i, (e'.copyList i).nodeId = (e.copyList i).nodeId
  disk : ∀ i, (e'.copyList i).diskId = (e.copyList i).diskId

theorem SamePlace.placed {n : Nat} {e e' : PtEntry} (h : SamePlace e e')
    (hp : Placed n e)
    (hnum : e'.copyNum = e.copyNum ∨ e'.copyNum = n ∧ ∀ i < n, Live e i) :
    Placed n e' := by
  have hlive : ∀ i, Live e' i ↔ Live e i := by
    intro i
    rw [Live, Live, h.live]
  have hfew : ∀ i < 2 * n, Live e' i →
      Live e i ∧ nodeOf e' i = nodeOf e i :=
    fun i _ hl => ⟨(hlive i).mp hl, h.node i⟩
  have hbase := hp.halves.of_fewer hfew
  have hhalves : Halves n (Live e') (nodeOf e') e'.copyNum := by
    rcases hnum with hnum | ⟨hnum, hall⟩
    · rw [hnum]
      exact hbase
    · refine ⟨hbase.once, Or.inl hnum, ?_, hbase.distinct⟩
      intro i hi hl
      exact absurd ((hlive _).mp hl) (hp.halves.once i hi (hall i hi))
  refine ⟨⟨hhalves, ?_, ?_, ?_⟩, ?_⟩
  · intro i hi hl
    rw [nodeOf, h.node]
    exact hp.node_lt i hi ((hlive i).mp hl)
  · intro i hi hl
    rw [h.disk]
    exact hp.disk_eq i hi ((hlive i).mp hl)
  · intro i hi hinit
    exact hp.used i hi (h.init i hinit)
  · intro i hi
    rcases hp.filled i hi with hl | hl
    · exact Or.inl ((hlive i).mpr hl)
    · exact Or.inr ((hlive _).mpr hl)

theorem samePlace_setState {e : PtEntry} {i : Nat} {s : PtCopyState}
    (hold : (e.copyList i).state.live = true) (hnew : s.live = true) :
    SamePlace e (e.setState i s) := by
  refine ⟨?_, ?_, ?_, ?_⟩
  · intro j
    rw [setState_apply]
    split
    · rename_i hj
      rw [hj, hold]
      exact hnew
    · rfl
  · intro j hj
    rw [setState_apply] at hj
    split at hj
    · rw [show s = .init from hj] at hnew
      exact Bool.noConfusion hnew
    · exact hj
  · intro j
    rw [setState_apply]
    split
    · rename_i hj
      rw [hj]
    · rfl
  · intro j
    rw [setState_apply]
    split
    · rename_i hj
      rw [hj]
    · rfl

theorem SamePlace.of_copyList {e e' : PtEntry}
    (h : e'.copyList = e.copyList) : SamePlace e e' := by
  refine ⟨?_, ?_, ?_, ?_⟩
  · intro i
    rw [h]
  · intro i hi
    rw [h] at hi
    exact hi
  · intro i
    rw [h]
  · intro i
    rw [h]

theorem SamePlace.trans {e₁ e₂ e₃ : PtEntry} (h₁ : SamePlace e₁ e₂)
    (h₂ : SamePlace e₂ e₃) : SamePlace e₁ e₃ :=
  ⟨fun i => (h₂.live i).trans (h₁.live i), fun i hi => h₁.init i (h₂.init i hi),
    fun i => (h₂.node i).trans (h₁.node i),
    fun i => (h₂.disk i).trans (h₁.disk i)⟩

/-! ## Masters -/

/-- The master runs, if any copy does. -/
def Mastered (e : PtEntry) : Prop :=
  e.runningBelow e.copyNum ≠ [] →
    ∃ i ∈ e.runningBelow e.copyNum, e.isMaster i = true

theorem mem_runningBelow {e : PtEntry} {n i : Nat} :
    i ∈ e.runningBelow n ↔ i < n ∧ (e.copyList i).state = .running := by
  simp [PtEntry.runningBelow]

theorem isMaster_setMaster (e : PtEntry) (i : Nat) :
    (e.setMaster i).isMaster i = true := by
  simp [PtEntry.isMaster, PtEntry.setMaster]

theorem updateMaster_frame (e : PtEntry) :
    e.updateMaster.copyList = e.copyList ∧
    e.updateMaster.copyNum = e.copyNum ∧
    e.updateMaster.birthVersion = e.birthVersion ∧
    e.updateMaster.ptId = e.ptId := by
  rw [PtEntry.updateMaster]
  split
  · exact ⟨rfl, rfl, rfl, rfl⟩
  · split
    · exact ⟨rfl, rfl, rfl, rfl⟩
    · exact ⟨rfl, rfl, rfl, rfl⟩

theorem mastered_updateMaster (e : PtEntry) : Mastered e.updateMaster := by
  have hrun : e.updateMaster.runningBelow e.updateMaster.copyNum =
      e.runningBelow e.copyNum := by
    obtain ⟨hcl, hcn, -, -⟩ := updateMaster_frame e
    simp only [PtEntry.runningBelow, hcl, hcn]
  intro hne
  rw [hrun] at hne ⊢
  by_cases hany : (e.runningBelow e.copyNum).any e.isMaster = true
  · have hsame : e.updateMaster = e := if_pos hany
    rw [hsame]
    exact List.any_eq_true.mp hany
  · obtain ⟨i, rest, hlist⟩ := List.exists_cons_of_ne_nil hne
    have hnew : e.updateMaster = e.setMaster i := by
      rw [PtEntry.updateMaster, if_neg hany, hlist]
      rfl
    rw [hnew]
    exact ⟨i, by rw [hlist]; exact List.mem_cons_self ..,
      isMaster_setMaster e i⟩

theorem updatePtState_frame (e : PtEntry) (k m : Nat) :
    (viewPtEntryUpdatePtState e k m).copyList = e.copyList ∧
    (viewPtEntryUpdatePtState e k m).copyNum = e.copyNum ∧
    (viewPtEntryUpdatePtState e k m).birthVersion = e.birthVersion ∧
    (viewPtEntryUpdatePtState e k m).ptId = e.ptId :=
  updateMaster_frame e

theorem mastered_updatePtState (e : PtEntry) (k m : Nat) :
    Mastered (viewPtEntryUpdatePtState e k m) :=
  mastered_updateMaster e

/-- The choice of the first running copy. -/
theorem firstMaster_frame (e : PtEntry) :
    e.firstMaster.copyList = e.copyList ∧
    e.firstMaster.copyNum = e.copyNum ∧
    e.firstMaster.birthVersion = e.birthVersion ∧
    e.firstMaster.ptId = e.ptId := by
  rw [PtEntry.firstMaster]
  split
  · exact ⟨rfl, rfl, rfl, rfl⟩
  · split
    · exact ⟨rfl, rfl, rfl, rfl⟩
    · exact ⟨rfl, rfl, rfl, rfl⟩

theorem mastered_firstMaster (e : PtEntry) : Mastered e.firstMaster := by
  have hrun : e.firstMaster.runningBelow e.firstMaster.copyNum =
      e.runningBelow e.copyNum := by
    obtain ⟨hcl, hcn, -, -⟩ := firstMaster_frame e
    simp only [PtEntry.runningBelow, hcl, hcn]
  intro hne
  rw [hrun] at hne ⊢
  obtain ⟨i, rest, hlist⟩ := List.exists_cons_of_ne_nil hne
  refine ⟨i, by rw [hlist]; exact List.mem_cons_self .., ?_⟩
  by_cases hm : e.isMaster i = true
  · have hsame : e.firstMaster = e := by
      rw [PtEntry.firstMaster, hlist]
      exact if_pos hm
    rw [hsame]
    exact hm
  · have hnew : e.firstMaster = e.setMaster i := by
      rw [PtEntry.firstMaster, hlist]
      exact if_neg hm
    rw [hnew]
    exact isMaster_setMaster e i

/-! ## What a step does to an entry -/

/-- Nothing changes but recovering copies that begin to run, the choice of the
    master, and the two summaries `state` and `copyNum`. -/
structure Advances (e e' : PtEntry) : Prop where
  ptId : e'.ptId = e.ptId
  birthVersion : e'.birthVersion = e.birthVersion
  node : ∀ i, (e'.copyList i).nodeId = (e.copyList i).nodeId
  disk : ∀ i, (e'.copyList i).diskId = (e.copyList i).diskId
  state : ∀ i, (e'.copyList i).state = (e.copyList i).state ∨
    (e.copyList i).state = .recovery ∧ (e'.copyList i).state = .running

theorem Advances.of_frame {e e' : PtEntry}
    (h : e'.copyList = e.copyList ∧ e'.copyNum = e.copyNum ∧
      e'.birthVersion = e.birthVersion ∧ e'.ptId = e.ptId) :
    Advances e e' := by
  obtain ⟨hcopies, -, hbirth, hid⟩ := h
  refine ⟨hid, hbirth, ?_, ?_, ?_⟩
  · intro i
    rw [hcopies]
  · intro i
    rw [hcopies]
  · intro i
    rw [hcopies]
    exact Or.inl rfl

theorem Advances.refl (e : PtEntry) : Advances e e :=
  .of_frame ⟨rfl, rfl, rfl, rfl⟩

theorem Advances.trans {e₁ e₂ e₃ : PtEntry} (h₁ : Advances e₁ e₂)
    (h₂ : Advances e₂ e₃) : Advances e₁ e₃ := by
  refine ⟨h₂.ptId.trans h₁.ptId, h₂.birthVersion.trans h₁.birthVersion,
    fun i => (h₂.node i).trans (h₁.node i),
    fun i => (h₂.disk i).trans (h₁.disk i), ?_⟩
  intro i
  rcases h₁.state i with h | ⟨h, h'⟩
  · rw [← h]
    exact h₂.state i
  · rcases h₂.state i with hs | ⟨hs, -⟩
    · exact Or.inr ⟨h, by rw [hs, h']⟩
    · rw [h'] at hs
      exact PtCopyState.noConfusion hs

/-- A copy is down after the step exactly if it was before. -/
theorem Advances.down_iff {e e' : PtEntry} (h : Advances e e') (i : Nat) :
    (e'.copyList i).state = .down ↔ (e.copyList i).state = .down := by
  rcases h.state i with hs | ⟨hs, hs'⟩
  · rw [hs]
  · rw [hs, hs']
    exact ⟨PtCopyState.noConfusion, PtCopyState.noConfusion⟩

/-- An entry and what has become of it by a later view: either it has only
    advanced, or its birth version has risen. -/
def Follows (e e' : PtEntry) : Prop :=
  Advances e e' ∨ e.birthVersion < e'.birthVersion ∧ e'.ptId = e.ptId

theorem Follows.refl (e : PtEntry) : Follows e e := Or.inl (.refl e)

theorem Follows.trans {e₁ e₂ e₃ : PtEntry} (h₁ : Follows e₁ e₂)
    (h₂ : Follows e₂ e₃) : Follows e₁ e₃ := by
  rcases h₁ with h₁ | ⟨h₁, hid₁⟩
  · rcases h₂ with h₂ | ⟨h₂, hid₂⟩
    · exact Or.inl (h₁.trans h₂)
    · exact Or.inr ⟨by rw [← h₁.birthVersion]; exact h₂,
        hid₂.trans h₁.ptId⟩
  · rcases h₂ with h₂ | ⟨h₂, hid₂⟩
    · exact Or.inr ⟨by rw [h₂.birthVersion]; exact h₁, h₂.ptId.trans hid₁⟩
    · exact Or.inr ⟨Nat.lt_trans h₁ h₂, hid₂.trans hid₁⟩

theorem Follows.le {e e' : PtEntry} (h : Follows e e') :
    e.birthVersion ≤ e'.birthVersion := by
  rcases h with h | ⟨h, -⟩
  · exact Nat.le_of_eq h.birthVersion.symm
  · exact Nat.le_of_lt h

theorem Follows.advances {e e' : PtEntry} (h : Follows e e')
    (hbirth : e'.birthVersion = e.birthVersion) : Advances e e' := by
  rcases h with h | ⟨h, -⟩
  · exact h
  · exact absurd hbirth (Nat.ne_of_gt h)

/-- What holds of every entry of a view with global version `g`. -/
structure EntryLaw (n g : Nat) (e : PtEntry) : Prop where
  placed : Placed n e
  mastered : Mastered e
  birth_le : e.birthVersion ≤ g

/-! ## Node reports -/

theorem samePlace_version (e : PtEntry) (v : Nat) :
    SamePlace e { e with birthVersion := v } :=
  .of_copyList rfl

theorem live_of_found {s : PtCopyState} (h : s = .running ∨ s = .recovery) :
    s.live = true := by
  rcases h with rfl | rfl
  · rfl
  · rfl

theorem goDown_copyList (e : PtEntry) (i k m : Nat) :
    (goDown e i k m).copyList = (e.setState i .down).copyList := by
  rw [goDown]
  split
  · exact (updatePtState_frame _ k m).1
  · rfl

/-- Both branches of a return set the state of the copy to a live one. -/
theorem updateCopyState_eq (e : PtEntry) (i : Nat) :
    ∃ s : PtCopyState, s.live = true ∧
      viewPtUpdateCopyState e i = e.setState i s := by
  rw [viewPtUpdateCopyState]
  split
  · exact ⟨.recovery, rfl, rfl⟩
  · exact ⟨.running, rfl, rfl⟩

/-- A copy that goes down keeps its place. -/
theorem goDown_place {i k m : Nat} {e : PtEntry}
    (hs : (e.copyList i).state = .running ∨
      (e.copyList i).state = .recovery) :
    SamePlace e (goDown e i k m) :=
  (samePlace_setState (live_of_found hs) rfl).trans
    (.of_copyList (goDown_copyList e i k m))

/-- So does a copy that comes back. -/
theorem comeUp_place {i k m : Nat} {e : PtEntry}
    (hs : (e.copyList i).state = .down) : SamePlace e (comeUp e i k m) := by
  obtain ⟨s, hlive, hset⟩ := updateCopyState_eq
    { e with birthVersion := e.birthVersion + 1 } i
  rw [comeUp, hset]
  exact ((samePlace_version e _).trans
    (samePlace_setState (by rw [hs]; rfl) hlive)).trans
    (.of_copyList (updatePtState_frame _ k m).1)

/-- A copy that goes down keeps its place, and the master still runs: it is
    chosen again if the copy was running, and is another copy if not. -/
theorem goDown_spec {n g i k m : Nat} {e : PtEntry} (h : EntryLaw n g e)
    (hs : (e.copyList i).state = .running ∨
      (e.copyList i).state = .recovery) :
    EntryLaw n (g + 1) (goDown e i k m) ∧
    (goDown e i k m).birthVersion = e.birthVersion + 1 ∧
    (goDown e i k m).ptId = e.ptId := by
  have hplace := goDown_place (k := k) (m := m) hs
  by_cases hrun : (e.copyList i).state = .running
  · have heq : goDown e i k m = viewPtEntryUpdatePtState
        { e.setState i .down with birthVersion := e.birthVersion + 1 } k m :=
      if_pos hrun
    rw [heq] at hplace ⊢
    obtain ⟨-, hcn, hb, hid⟩ := updatePtState_frame
      { e.setState i .down with birthVersion := e.birthVersion + 1 } k m
    refine ⟨⟨?_, mastered_updatePtState _ _ _, ?_⟩, hb, hid⟩
    · exact hplace.placed h.placed (Or.inl hcn)
    · rw [hb]
      exact Nat.succ_le_succ h.birth_le
  · have heq : goDown e i k m =
        { e.setState i .down with birthVersion := e.birthVersion + 1 } :=
      if_neg hrun
    have hsame : (goDown e i k m).runningBelow (goDown e i k m).copyNum =
        e.runningBelow e.copyNum := by
      rw [heq]
      refine List.filter_congr fun j _ => ?_
      rw [decide_eq_decide]
      show ((e.setState i .down).copyList j).state = .running ↔ _
      rw [setState_apply]
      split
      · rename_i hj
        rw [hj]
        exact ⟨PtCopyState.noConfusion, fun h' => absurd h' hrun⟩
      · rfl
    refine ⟨⟨?_, ?_, ?_⟩, by rw [heq], by rw [heq]; rfl⟩
    · rw [heq] at hplace ⊢
      exact hplace.placed h.placed (Or.inl rfl)
    · intro hne
      rw [hsame] at hne ⊢
      obtain ⟨j, hj, hm⟩ := h.mastered hne
      refine ⟨j, hj, ?_⟩
      have hji : j ≠ i := by
        rintro rfl
        exact hrun (mem_runningBelow.mp hj).2
      rw [heq]
      show ((e.setState i .down).copyList j).nodeId == e.masterNodeId &&
        ((e.setState i .down).copyList j).diskId == e.masterDiskId
      rw [setState_apply, if_neg hji]
      exact hm
    · rw [heq]
      exact Nat.succ_le_succ h.birth_le

theorem comeUp_spec {n g i k m : Nat} {e : PtEntry} (h : EntryLaw n g e)
    (hs : (e.copyList i).state = .down) :
    EntryLaw n (g + 1) (comeUp e i k m) ∧
    (comeUp e i k m).birthVersion = e.birthVersion + 1 ∧
    (comeUp e i k m).ptId = e.ptId := by
  have hplace := comeUp_place (k := k) (m := m) hs
  obtain ⟨s, -, hset⟩ := updateCopyState_eq
    { e with birthVersion := e.birthVersion + 1 } i
  rw [comeUp, hset] at hplace ⊢
  obtain ⟨-, hcn, hb, hid⟩ := updatePtState_frame
    (PtEntry.setState { e with birthVersion := e.birthVersion + 1 } i s) k m
  refine ⟨⟨?_, mastered_updatePtState _ _ _, ?_⟩, hb, hid⟩
  · exact hplace.placed h.placed (Or.inl hcn)
  · rw [hb]
    exact Nat.succ_le_succ h.birth_le

/-- A report changes an entry by letting one copy go down or come up. -/
theorem nodeStateEntry_cases {nodeId k m : Nat} {state : NodeState}
    {info : NodeInfo} {e e' : PtEntry}
    (h : nodeStateEntry nodeId state info k m e = some e') :
    ∃ i, ((e.copyList i).state = .running ∨
        (e.copyList i).state = .recovery) ∧ e' = goDown e i k m ∨
      (e.copyList i).state = .down ∧ e' = comeUp e i k m := by
  have hdown : nodeDownEntry nodeId k m e = some e' →
      ∃ i, ((e.copyList i).state = .running ∨
        (e.copyList i).state = .recovery) ∧ e' = goDown e i k m := by
    intro h
    obtain ⟨i, hi, rfl⟩ := Option.map_eq_some_iff.mp h
    have hp := List.find?_some hi
    simp only [Bool.and_eq_true, Bool.or_eq_true, beq_iff_eq] at hp
    exact ⟨i, hp.2, rfl⟩
  cases state with
  | down =>
      obtain ⟨i, hi⟩ := hdown h
      exact ⟨i, Or.inl hi⟩
  | up =>
      rw [nodeStateEntry] at h
      split at h
      · obtain ⟨i, hi⟩ := hdown h
        exact ⟨i, Or.inl hi⟩
      · obtain ⟨i, hi, rfl⟩ := Option.map_eq_some_iff.mp h
        have hp := List.find?_some hi
        refine ⟨i, ?_⟩
        by_cases hd : (e.copyList i).state = .down
        · exact Or.inr ⟨hd, if_pos hd⟩
        · refine Or.inl ⟨?_, if_neg hd⟩
          simp only [Bool.and_eq_true] at hp
          obtain ⟨-, hp⟩ := hp
          split at hp
          · simpa only [Bool.or_eq_true, beq_iff_eq] using hp
          · exact absurd (beq_iff_eq.mp hp) hd
  | invalid => exact absurd h (by simp [nodeStateEntry])

theorem nodeStateEntry_spec {n g nodeId k m : Nat} {state : NodeState}
    {info : NodeInfo} {e e' : PtEntry} (hlaw : EntryLaw n g e)
    (h : nodeStateEntry nodeId state info k m e = some e') :
    EntryLaw n (g + 1) e' ∧ Follows e e' := by
  obtain ⟨i, ⟨hs, rfl⟩ | ⟨hs, rfl⟩⟩ := nodeStateEntry_cases h
  · obtain ⟨hlaw', hb, hid⟩ := goDown_spec (k := k) (m := m) hlaw hs
    exact ⟨hlaw', Or.inr ⟨by rw [hb]; exact Nat.lt_succ_self _, hid⟩⟩
  · obtain ⟨hlaw', hb, hid⟩ := comeUp_spec (k := k) (m := m) hlaw hs
    exact ⟨hlaw', Or.inr ⟨by rw [hb]; exact Nat.lt_succ_self _, hid⟩⟩

theorem nodeStateEntry_place {nodeId k m : Nat} {state : NodeState}
    {info : NodeInfo} {e e' : PtEntry}
    (h : nodeStateEntry nodeId state info k m e = some e') :
    SamePlace e e' := by
  obtain ⟨i, ⟨hs, rfl⟩ | ⟨hs, rfl⟩⟩ := nodeStateEntry_cases h
  · exact goDown_place hs
  · exact comeUp_place hs

/-! ## Finish reports -/

theorem updateCopyState1_frame (e : PtEntry) (k m : Nat) :
    (viewPtUpdateCopyState1 e k m).copyList = e.copyList ∧
    ((viewPtUpdateCopyState1 e k m).copyNum = e.copyNum ∨
      (viewPtUpdateCopyState1 e k m).copyNum = m ∧
        (e.runningBelow m).length = m) ∧
    (viewPtUpdateCopyState1 e k m).birthVersion = e.birthVersion ∧
    (viewPtUpdateCopyState1 e k m).ptId = e.ptId := by
  rw [viewPtUpdateCopyState1]
  obtain ⟨hcl, hcn, hb, hid⟩ := firstMaster_frame
    { e with
      state := ptStateOf (e.runningBelow m).length k m
      copyNum := if k ≤ (e.runningBelow m).length ∧
        (e.runningBelow m).length = m then m else e.copyNum }
  refine ⟨hcl, ?_, hb, hid⟩
  rw [hcn]
  dsimp only
  split
  · rename_i hfull
    exact Or.inr ⟨rfl, hfull.2⟩
  · exact Or.inl rfl

theorem all_running_of_length {e : PtEntry} {n : Nat}
    (h : (e.runningBelow n).length = n) :
    ∀ i < n, (e.copyList i).state = .running := by
  intro i hi
  have hfull := List.length_filter_eq_length_iff.mp
    (h.trans (List.length_range (n := n)).symm)
  exact of_decide_eq_true (hfull i (List.mem_range.mpr hi))

theorem finishEntry_place {nodeId birth k m : Nat} {e e' : PtEntry}
    (h : finishEntry nodeId birth k m e = some e') : SamePlace e e' := by
  rw [finishEntry] at h
  split at h
  · exact nomatch h
  · obtain ⟨i, hi, rfl⟩ := Option.map_eq_some_iff.mp h
    have hp := List.find?_some hi
    simp only [Bool.and_eq_true, beq_iff_eq] at hp
    have hrec := hp.2
    exact (samePlace_setState (by rw [hrec]; rfl) rfl).trans
      (.of_copyList (updateCopyState1_frame _ k m).1)

theorem finishEntry_spec {n g nodeId birth k : Nat} {e e' : PtEntry}
    (hlaw : EntryLaw n g e) (h : finishEntry nodeId birth k n e = some e') :
    EntryLaw n g e' ∧ Advances e e' ∧ e.birthVersion = birth := by
  rw [finishEntry] at h
  split at h
  · exact nomatch h
  · rename_i hbirth
    obtain ⟨i, hi, rfl⟩ := Option.map_eq_some_iff.mp h
    have hp := List.find?_some hi
    simp only [Bool.and_eq_true, beq_iff_eq] at hp
    obtain ⟨-, hrec⟩ := hp
    have hplace : SamePlace e (e.setState i .running) :=
      samePlace_setState (by rw [hrec]; rfl) rfl
    obtain ⟨hcl, hcn, hb, hid⟩ :=
      updateCopyState1_frame (e.setState i .running) k n
    refine ⟨⟨?_, mastered_firstMaster _, ?_⟩, ⟨hid, hb, ?_, ?_, ?_⟩,
      not_not.mp hbirth⟩
    · refine (hplace.trans (.of_copyList hcl)).placed hlaw.placed ?_
      rcases hcn with hcn | ⟨hcn, hlen⟩
      · exact Or.inl hcn
      · refine Or.inr ⟨hcn, fun j hj => ?_⟩
        rw [Live, ← hplace.live, all_running_of_length hlen j hj]
        rfl
    · rw [hb]
      exact hlaw.birth_le
    · intro j
      rw [hcl]
      exact hplace.node j
    · intro j
      rw [hcl]
      exact hplace.disk j
    · intro j
      rw [hcl, setState_apply]
      split
      · rename_i hj
        rw [hj]
        exact Or.inr ⟨hrec, rfl⟩
      · exact Or.inl rfl

/-! ## Whole views -/

/-- The invariant of the views of a pool of `n` nodes. -/
structure ViewLaw (n : Nat) (l : PtEntryList) : Prop where
  maxCopyNum : l.maxCopyNum = n
  entries : ∀ e ∈ l.ptEntryList, EntryLaw n l.globalVersion e

theorem EntryLaw.mono {n g g' : Nat} {e : PtEntry} (h : EntryLaw n g e)
    (hg : g ≤ g') : EntryLaw n g' e :=
  ⟨h.placed, h.mastered, Nat.le_trans h.birth_le hg⟩

/-- A view and a later one, entry by entry. -/
def ListFollows (l l' : PtEntryList) : Prop :=
  List.Forall₂ Follows l.ptEntryList l'.ptEntryList

theorem ListFollows.refl (l : PtEntryList) : ListFollows l l :=
  List.forall₂_same.mpr fun e _ => .refl e

theorem ListFollows.trans {l₁ l₂ l₃ : PtEntryList} (h₁ : ListFollows l₁ l₂)
    (h₂ : ListFollows l₂ l₃) : ListFollows l₁ l₃ :=
  forall₂_comp (fun _ _ _ h h' => h.trans h') h₁ h₂

theorem ListFollows.get {l l' : PtEntryList} (h : ListFollows l l') {p : Nat}
    {e e' : PtEntry} (he : l.ptEntryList[p]? = some e)
    (he' : l'.ptEntryList[p]? = some e') : Follows e e' := by
  obtain ⟨hlt, rfl⟩ := List.getElem?_eq_some_iff.mp he
  obtain ⟨hlt', rfl⟩ := List.getElem?_eq_some_iff.mp he'
  exact List.Forall₂.get h hlt hlt'

/-- A step keeps the law, and every entry follows. -/
structure LawfulStep (n : Nat) (l l' : PtEntryList) : Prop where
  law : ViewLaw n l'
  follows : ListFollows l l'
  global_le : l.globalVersion ≤ l'.globalVersion

theorem nodeState_lawful {n nodeId : Nat} {state : NodeState}
    {info : NodeInfo} {l : PtEntryList} (pgChange : Bool)
    (h : ViewLaw n l) :
    LawfulStep n l
      (viewPtEntryListUpdateNodeState nodeId state info l pgChange).1 := by
  have hentry : ∀ e ∈ l.ptEntryList,
      EntryLaw n (viewPtEntryListUpdateNodeState nodeId state info l
        pgChange).1.globalVersion ((nodeStateEntry nodeId state info
          l.minCopyNum l.maxCopyNum e).getD e) ∧
      Follows e ((nodeStateEntry nodeId state info
          l.minCopyNum l.maxCopyNum e).getD e) := by
    intro e he
    cases hf : nodeStateEntry nodeId state info l.minCopyNum l.maxCopyNum e with
    | none =>
        refine ⟨(h.entries e he).mono ?_, .refl e⟩
        simp only [viewPtEntryListUpdateNodeState]
        split
        · exact Nat.le_succ _
        · exact Nat.le_refl _
    | some e' =>
        -- the change sets the flag, so the global version rises as well
        have hany : (l.ptEntryList.any fun e => (nodeStateEntry nodeId state
            info l.minCopyNum l.maxCopyNum e).isSome) = true :=
          List.any_eq_true.mpr ⟨e, he, by rw [hf]; rfl⟩
        obtain ⟨hlaw, hfol⟩ := nodeStateEntry_spec (h.entries e he) hf
        refine ⟨?_, hfol⟩
        simp only [viewPtEntryListUpdateNodeState, hany, Bool.or_true, if_true]
        exact hlaw
  refine ⟨⟨h.maxCopyNum, ?_⟩, ?_, ?_⟩
  · intro e' he'
    obtain ⟨e, he, rfl⟩ := List.mem_map.mp he'
    exact (hentry e he).1
  · refine List.forall₂_map_right_iff.mpr (List.forall₂_same.mpr ?_)
    intro e he
    exact (hentry e he).2
  · simp only [viewPtEntryListUpdateNodeState]
    split
    · exact Nat.le_succ _
    · exact Nat.le_refl _

theorem finishItem_lawful {n : Nat} (nodeId : Nat)
    {st : PtEntryList × Bool} (f : CmPtFinish) (h : ViewLaw n st.1) :
    LawfulStep n st.1 (finishItem nodeId st f).1 := by
  have hsame : LawfulStep n st.1 st.1 := ⟨h, .refl _, Nat.le_refl _⟩
  rw [finishItem]
  split
  · exact hsame
  · rename_i e he
    split
    · exact hsame
    · rename_i e' hf
      rw [h.maxCopyNum] at hf
      have hmem := List.mem_of_getElem? he
      obtain ⟨hlaw, hadv, -⟩ := finishEntry_spec (h.entries e hmem) hf
      refine ⟨⟨h.maxCopyNum, ?_⟩, ?_, Nat.le_refl _⟩
      · intro x hx
        rcases List.mem_or_eq_of_mem_set hx with hx | rfl
        · exact h.entries x hx
        · exact hlaw
      · exact forall₂_set .refl he (Or.inl hadv)

theorem finish_lawful {n nodeId : Nat} {l : PtEntryList}
    (ptList : List CmPtFinish) (ptChange : Bool) (h : ViewLaw n l) :
    LawfulStep n l
      (viewPtEntryListUpdateNodeFinish nodeId ptList l ptChange).1 := by
  have hfold : ∀ (fs : List CmPtFinish) (st : PtEntryList × Bool),
      ViewLaw n st.1 →
        LawfulStep n st.1 (fs.foldl (finishItem nodeId) st).1 := by
    intro fs
    induction fs with
    | nil => exact fun st h => ⟨h, .refl _, Nat.le_refl _⟩
    | cons f fs ih =>
        intro st h
        have h₁ := finishItem_lawful nodeId f h
        have h₂ := ih (finishItem nodeId st f) h₁.law
        exact ⟨h₂.law, h₁.follows.trans h₂.follows,
          Nat.le_trans h₁.global_le h₂.global_le⟩
  obtain ⟨hlaw, hfol, hle⟩ := hfold ptList (l, ptChange) h
  have hversion : (ptList.foldl (finishItem nodeId) (l, ptChange)).1.globalVersion
      ≤ (viewPtEntryListUpdateNodeFinish nodeId ptList l
          ptChange).1.globalVersion := by
    simp only [viewPtEntryListUpdateNodeFinish]
    split
    · exact Nat.le_succ _
    · exact Nat.le_refl _
  exact ⟨⟨hlaw.maxCopyNum, fun e he => (hlaw.entries e he).mono hversion⟩,
    hfol, Nat.le_trans hle hversion⟩

/-! ## Reports that come too late -/

/-- The report carries an older birth version than the partition has. -/
def olderThan (l : PtEntryList) (f : CmPtFinish) : Bool :=
  l.ptEntryList[f.ptId]?.any fun e => decide (f.birthVersion < e.birthVersion)

/-- The birth versions of all partitions. -/
def births (l : PtEntryList) : List Nat :=
  l.ptEntryList.map PtEntry.birthVersion

theorem olderThan_congr {l l' : PtEntryList} (h : births l' = births l)
    (f : CmPtFinish) : olderThan l' f = olderThan l f := by
  have hany : ∀ m : PtEntryList, olderThan m f =
      (births m)[f.ptId]?.any fun b => decide (f.birthVersion < b) := by
    intro m
    rw [olderThan, births, List.getElem?_map]
    cases m.ptEntryList[f.ptId]? with
    | none => rfl
    | some e => rfl
  rw [hany, hany, h]

theorem finishItem_births (nodeId : Nat) (st : PtEntryList × Bool)
    (f : CmPtFinish) : births (finishItem nodeId st f).1 = births st.1 := by
  rw [finishItem]
  split
  · rfl
  · rename_i e he
    split
    · rfl
    · rename_i e' hf
      rw [finishEntry] at hf
      split at hf
      · exact nomatch hf
      · obtain ⟨i, -, rfl⟩ := Option.map_eq_some_iff.mp hf
        have hbirth : (viewPtUpdateCopyState1 (e.setState i .running)
            st.1.minCopyNum st.1.maxCopyNum).birthVersion = e.birthVersion :=
          (updateCopyState1_frame _ _ _).2.2.1
        obtain ⟨hlt, -⟩ := List.getElem?_eq_some_iff.mp he
        show (st.1.ptEntryList.set f.ptId _).map PtEntry.birthVersion = _
        rw [List.map_set, hbirth, births]
        refine List.ext_getElem? fun p => ?_
        rw [List.getElem?_set, List.length_map, if_pos hlt]
        split
        · rename_i hp
          rw [← hp, List.getElem?_map, he]
          rfl
        · rfl

theorem finishItem_older {nodeId : Nat} {st : PtEntryList × Bool}
    {f : CmPtFinish} (h : olderThan st.1 f = true) :
    finishItem nodeId st f = st := by
  rw [finishItem]
  split
  · rfl
  · rename_i e he
    rw [olderThan, he] at h
    have hlt : f.birthVersion < e.birthVersion := of_decide_eq_true h
    have hno : finishEntry nodeId f.birthVersion st.1.minCopyNum
        st.1.maxCopyNum e = none := if_pos (Nat.ne_of_gt hlt)
    rw [hno]

/-- **LATE REPORTS**: a finish list has the same effect without the items that
    carry an older birth version. -/
theorem finish_without_older (nodeId : Nat) (ptList : List CmPtFinish)
    (l : PtEntryList) (ptChange : Bool) :
    viewPtEntryListUpdateNodeFinish nodeId
        (ptList.filter fun f => !olderThan l f) l ptChange =
      viewPtEntryListUpdateNodeFinish nodeId ptList l ptChange := by
  have hfold : ∀ (fs : List CmPtFinish) (st : PtEntryList × Bool),
      births st.1 = births l →
      (fs.filter fun f => !olderThan l f).foldl (finishItem nodeId) st =
        fs.foldl (finishItem nodeId) st := by
    intro fs
    induction fs with
    | nil => exact fun _ _ => rfl
    | cons f fs ih =>
        intro st hst
        by_cases hold : olderThan l f = true
        · rw [List.filter_cons_of_neg (by rw [hold]; exact Bool.noConfusion),
            List.foldl_cons, finishItem_older (by
              rw [olderThan_congr hst]
              exact hold)]
          exact ih st hst
        · rw [List.filter_cons_of_pos (by
            rw [Bool.not_eq_true] at hold
            rw [hold]
            rfl), List.foldl_cons, List.foldl_cons]
          exact ih _ ((finishItem_births nodeId st f).trans hst)
  rw [viewPtEntryListUpdateNodeFinish, viewPtEntryListUpdateNodeFinish,
    hfold ptList (l, ptChange) rfl]

end UbsIo.Mms
