import UbsIo.Pt.KeepAlive

/-! # Master and state

    Clients send a partition's requests to its master and decide by its state
    how to write.  Both are recomputed by `ViewPtEntryUpdatePtState` and by the
    last part of a rebalance, both are left alone when a recovering copy goes
    down, and a trim writes the state itself and may hand the master on.

    `Mastered` and `Told` are the two laws of an entry.  Neither depends on how
    an entry came to its copies: wherever the recomputation is skipped, the
    running copies are the same as before or the trim has settled all of
    them. -/

namespace UbsIo.Pt

open UbsIo.Lib Relation

/-- The copy at index `i` is the master. -/
def IsMaster (e : PtEntry) (i : Nat) : Prop :=
  (e.copyList i).nodeId = e.masterNodeId ∧
  (e.copyList i).diskId = e.masterDiskId

/-- The master runs, if any copy does. -/
def Mastered (e : PtEntry) : Prop :=
  e.runningList ≠ [] → ∃ i ∈ e.runningList, IsMaster e i

/-- The state tells how many copies run. -/
def Told (k m : Nat) (e : PtEntry) : Prop :=
  e.state = ptStateOf e.runningNum k m ∨
  (e.state = .loss1Bypass ∧ ptStateOf e.runningNum k m = .degradeLoss1)

/-! ## The recomputation -/

theorem runningList_updateMaster (e : PtEntry) :
    e.updateMaster.runningList = e.runningList := by
  obtain ⟨hcl, hcn, -, -⟩ := updateMaster_frame e
  simp only [PtEntry.runningList, hcl, hcn]

/-- The master that `updateMaster` leaves runs, whatever it was before. -/
theorem mastered_updateMaster (e : PtEntry) : Mastered e.updateMaster := by
  intro hne
  rw [runningList_updateMaster] at hne ⊢
  by_cases hany : e.runningList.any (fun i =>
      (e.copyList i).nodeId == e.masterNodeId &&
      (e.copyList i).diskId == e.masterDiskId) = true
  · have hsame : e.updateMaster = e := if_pos hany
    obtain ⟨i, hi, hmaster⟩ := List.any_eq_true.mp hany
    rw [Bool.and_eq_true, beq_iff_eq, beq_iff_eq] at hmaster
    rw [hsame]
    exact ⟨i, hi, hmaster⟩
  · obtain ⟨i, rest, hlist⟩ := List.exists_cons_of_ne_nil hne
    have hnew : e.updateMaster =
        { e with
          masterNodeId := (e.copyList i).nodeId
          masterDiskId := (e.copyList i).diskId } := by
      rw [PtEntry.updateMaster, if_neg hany, hlist]
      rfl
    rw [hnew]
    exact ⟨i, by rw [hlist]; exact List.mem_cons_self .., rfl, rfl⟩

theorem mastered_updatePtState (e : PtEntry) (k m : Nat) :
    Mastered (viewPtEntryUpdatePtState e k m) :=
  mastered_updateMaster e

theorem told_updatePtState (e : PtEntry) (k m : Nat) :
    Told k m (viewPtEntryUpdatePtState e k m) := by
  refine Or.inl ?_
  rw [runningNum_updatePtState]
  rfl

/-! ## The running copies of an entry that is not recomputed -/

theorem runningList_recoveryDown {e : PtEntry} {i : Nat}
    (hs : (e.copyList i).state = .recovery) :
    (recoveryDown e i).runningList = e.runningList := by
  refine List.filter_congr ?_
  intro j _
  show decide (((e.setState i .down).copyList j).state = .running) = _
  rw [setState_apply]
  by_cases hj : j = i
  · rw [if_pos hj, hj, hs]
    rfl
  · rw [if_neg hj]

theorem mastered_recoveryDown {e : PtEntry} {i : Nat}
    (hs : (e.copyList i).state = .recovery) (h : Mastered e) :
    Mastered (recoveryDown e i) := by
  intro hne
  rw [runningList_recoveryDown hs] at hne ⊢
  obtain ⟨j, hj, hnode, hdisk⟩ := h hne
  have hij : j ≠ i := by
    rintro rfl
    rw [mem_runningList, hs] at hj
    exact nomatch hj.2
  refine ⟨j, hj, ?_⟩
  have hcopy : (recoveryDown e i).copyList j = e.copyList j := by
    show (e.setState i .down).copyList j = _
    rw [setState_apply, if_neg hij]
  rw [IsMaster, hcopy]
  exact ⟨hnode, hdisk⟩

theorem told_recoveryDown {e : PtEntry} {i k m : Nat}
    (hs : (e.copyList i).state = .recovery) (h : Told k m e) :
    Told k m (recoveryDown e i) := by
  have hnum : (recoveryDown e i).runningNum = e.runningNum :=
    congrArg List.length (runningList_recoveryDown hs)
  rw [Told, hnum]
  exact h

/-! ## The trim -/

/-- Every settled slot runs after a trim, and holds a copy that ran before. -/
theorem trimmed_running {m : Nat} {e e' : PtEntry} (hp : Placed m e)
    (hr : e.runningNum = m) (ht : Trimmed m e e') :
    ∀ i < m, i ∈ e'.runningList ∧
      ((e.copyList i).state = .running ∧ e'.copyList i = e.copyList i ∨
       (e.copyList i).state ≠ .running ∧
        (e.copyList (i + m)).state = .running ∧
        e'.copyList i = e.copyList (i + m)) := by
  intro i hi
  have hcopy : e'.copyList i = trimmedBase m e i := by
    rw [ht.copyList, trimSlots_copyList e m (Nat.le_refl m) i, if_pos hi]
  rw [mem_runningList, ht.copyNum, hcopy, trimmedBase]
  by_cases hbase : (e.copyList i).state = .running
  · rw [if_pos hbase]
    exact ⟨⟨hi, hbase⟩, Or.inl ⟨hbase, rfl⟩⟩
  · have hext := (hp.sparse.all_running hr i hi).resolve_left hbase
    rw [if_neg hbase, if_pos hext]
    exact ⟨⟨hi, hext⟩, Or.inr ⟨hbase, hext, rfl⟩⟩

theorem runningNum_trimmed {m : Nat} {e e' : PtEntry} (hp : Placed m e)
    (hr : e.runningNum = m) (ht : Trimmed m e e') : e'.runningNum = m := by
  have hall : e'.runningList = List.range m := by
    rw [PtEntry.runningList, ht.copyNum, List.filter_eq_self]
    intro i hi
    have hrun := (trimmed_running hp hr ht i (List.mem_range.mp hi)).1
    exact decide_eq_true (mem_runningList.mp hrun).2
  rw [PtEntry.runningNum, hall, List.length_range]

/-- A copy that ran before the trim is in a settled slot after it. -/
theorem trimmed_keeps {m : Nat} {e e' : PtEntry} (hp : Placed m e)
    (hr : e.runningNum = m) (ht : Trimmed m e e') {j : Nat}
    (hj : j ∈ e.runningList) :
    ∃ i < m, e'.copyList i = e.copyList j := by
  have hrun := (mem_runningList.mp hj).2
  have hlt := hp.sparse.runningList_lt hj
  have hlive : Live e j := by
    rw [Live, hrun]
    rfl
  by_cases hjm : j < m
  · refine ⟨j, hjm, ?_⟩
    rcases (trimmed_running hp hr ht j hjm).2 with ⟨-, hc⟩ | ⟨hno, -, -⟩
    · exact hc
    · exact absurd hrun hno
  · have hsum : j - m + m = j := by omega
    refine ⟨j - m, by omega, ?_⟩
    rcases (trimmed_running hp hr ht (j - m) (by omega)).2 with
      ⟨hbase, -⟩ | ⟨-, -, hc⟩
    · -- the settled slot cannot run beside its replacement
      refine absurd ?_ (hp.sparse.once (j - m) (by omega) ?_)
      · rw [hsum]
        exact hlive
      · rw [Live, hbase]
        rfl
    · rw [hc, hsum]

/-- A trim keeps the master or hands it to a settled copy. -/
theorem viewPtEntryTrim_master {e : PtEntry} {m ptNum nodeId validNum : Nat}
    {masterList : Nat → Nat} {r : PtEntry × (Nat → Nat)}
    (h : viewPtEntryTrim e m ptNum masterList nodeId validNum = some r) :
    (r.1.masterNodeId = e.masterNodeId ∧
      r.1.masterDiskId = e.masterDiskId) ∨ ∃ i < m, IsMaster r.1 i := by
  have hslots : ∀ (is : List Nat) (x : PtEntry),
      (is.foldl (trimSlot m) x).masterNodeId = x.masterNodeId ∧
      (is.foldl (trimSlot m) x).masterDiskId = x.masterDiskId := by
    intro is
    induction is with
    | nil => exact fun _ => ⟨rfl, rfl⟩
    | cons i is ih =>
        intro x
        have hone : (trimSlot m x i).masterNodeId = x.masterNodeId ∧
            (trimSlot m x i).masterDiskId = x.masterDiskId := by
          rw [trimSlot]
          split
          · exact ⟨rfl, rfl⟩
          · split
            · exact ⟨rfl, rfl⟩
            · exact ⟨rfl, rfl⟩
        rw [List.foldl_cons, (ih _).1, (ih _).2]
        exact hone
  rw [viewPtEntryTrim] at h
  split at h
  · exact nomatch h
  · split at h
    · rw [← Option.some.inj h]
      exact Or.inl (hslots _ e)
    · rw [← Option.some.inj h, trimMaster]
      split
      · exact Or.inl (hslots _ e)
      · rename_i i hlast
        split
        · refine Or.inr ⟨i, ?_, rfl, rfl⟩
          have hmem := List.mem_of_getLast? hlast
          exact List.mem_range.mp (List.mem_filter.mp hmem).1
        · exact Or.inl (hslots _ e)

/-! ## Finish reports -/

theorem finishStart_master (e : PtEntry) (i k : Nat) :
    (finishStart e i k).masterNodeId = e.masterNodeId ∧
    (finishStart e i k).masterDiskId = e.masterDiskId := by
  rw [finishStart]
  rcases updateCopyKeepAlive_cases (e.setState i .running) k with
    hsame | ⟨b, hb⟩
  · rw [hsame]
    exact ⟨rfl, rfl⟩
  · rw [hb]
    exact ⟨rfl, rfl⟩

/-- The copies that ran before a report run on in their places. -/
theorem finishStart_keeps {e : PtEntry} (i k : Nat) {j : Nat}
    (hj : j ∈ e.runningList) :
    j ∈ (finishStart e i k).runningList ∧
    ((finishStart e i k).copyList j).nodeId = (e.copyList j).nodeId ∧
    ((finishStart e i k).copyList j).diskId = (e.copyList j).diskId := by
  obtain ⟨hlt, hrun⟩ := mem_runningList.mp hj
  have hcopy : ((e.setState i .running).copyList j).state = .running ∧
      ((e.setState i .running).copyList j).nodeId = (e.copyList j).nodeId ∧
      ((e.setState i .running).copyList j).diskId =
        (e.copyList j).diskId := by
    rw [setState_apply]
    by_cases hji : j = i
    · rw [if_pos hji, hji]
      exact ⟨rfl, rfl, rfl⟩
    · rw [if_neg hji]
      exact ⟨hrun, rfl, rfl⟩
  have hmem : j ∈ (e.setState i .running).runningList :=
    mem_runningList.mpr ⟨hlt, hcopy.1⟩
  rw [finishStart]
  rcases updateCopyKeepAlive_cases (e.setState i .running) k with
    hsame | ⟨b, hb⟩
  · rw [hsame]
    exact ⟨hmem, hcopy.2⟩
  · rw [hb, runningList_setRunningKeepAlive, setRunningKeepAlive_apply]
    refine ⟨hmem, ?_⟩
    split
    · exact hcopy.2
    · exact hcopy.2

/-- After a trim the master is in a settled slot: it ran before the report,
    or the trim has chosen it. -/
theorem finishCopy_master {l : PtEntryList} {e : PtEntry} {i : Nat}
    (masterList : Nat → Nat) (nodeId validNum : Nat)
    (hp : Placed l.maxCopyNum (finishStart e i l.minCopyNum))
    (hr : (finishStart e i l.minCopyNum).runningNum = l.maxCopyNum)
    (hpos : 0 < e.runningNum) (h : Mastered e) :
    ∃ j < l.maxCopyNum,
      IsMaster (finishCopy e i l masterList nodeId validNum).1 j := by
  rcases viewPtEntryTrim_cases (finishStart e i l.minCopyNum) l.maxCopyNum
      l.ptEntryList.length masterList nodeId validNum with
    ⟨hne, -⟩ | ⟨-, r, hsome, htrim⟩
  · exact absurd hr hne
  · have hfin : finishCopy e i l masterList nodeId validNum = r := by
      rw [finishStart] at hsome
      simp only [finishCopy, hsome]
    rw [hfin]
    rcases viewPtEntryTrim_master hsome with ⟨hn, hd⟩ | hnew
    · obtain ⟨j, hj, hnode, hdisk⟩ := h (List.ne_nil_of_length_pos hpos)
      obtain ⟨hmem, hnode', hdisk'⟩ := finishStart_keeps i l.minCopyNum hj
      obtain ⟨hsn, hsd⟩ := finishStart_master e i l.minCopyNum
      obtain ⟨a, ha, hcopy⟩ := trimmed_keeps hp hr htrim hmem
      refine ⟨a, ha, ?_, ?_⟩
      · rw [hcopy, hnode', hnode, hn, hsn]
      · rw [hcopy, hdisk', hdisk, hd, hsd]
    · exact hnew

/-- Both laws, for an entry with bounds `k` and `m`. -/
structure Lawful (k m : Nat) (e : PtEntry) : Prop where
  mastered : Mastered e
  told : Told k m e

theorem lawful_updatePtState (e : PtEntry) (k m : Nat) :
    Lawful k m (viewPtEntryUpdatePtState e k m) :=
  ⟨mastered_updatePtState e k m, told_updatePtState e k m⟩

theorem lawful_finishCopy {l : PtEntryList} {e : PtEntry} {i : Nat}
    (hs : (e.copyList i).state = .recovery) (hpos : 0 < e.runningNum)
    (hp : Placed l.maxCopyNum e) (hk : l.minCopyNum ≤ l.maxCopyNum)
    (h : Mastered e) (masterList : Nat → Nat) (nodeId validNum : Nat) :
    Lawful l.minCopyNum l.maxCopyNum
      (finishCopy e i l masterList nodeId validNum).1 := by
  have hset : SamePlace e (e.setState i .running) :=
    samePlace_setState (by rw [hs]; rfl)
  have hp1 : Placed l.maxCopyNum (finishStart e i l.minCopyNum) :=
    (hset.trans (samePlace_updateCopyKeepAlive _ _)).placed hp
  rcases finishCopy_cases e i l masterList nodeId validNum with
    ⟨-, heq⟩ | ⟨hr, htrim⟩
  · rw [heq]
    exact lawful_updatePtState _ _ _
  · refine ⟨?_, Or.inl ?_⟩
    · intro _
      obtain ⟨j, hj, hm⟩ := finishCopy_master masterList nodeId validNum
        hp1 hr hpos h
      exact ⟨j, (trimmed_running hp1 hr htrim j hj).1, hm⟩
    · rw [htrim.state, runningNum_trimmed hp1 hr htrim, ptStateOf,
        if_neg (by omega), if_pos rfl]

/-- **REPORTS KEEP BOTH LAWS.** -/
theorem lawful_touch {l : PtEntryList} {e e' : PtEntry}
    (hmin : 0 < l.minCopyNum) (hk : l.minCopyNum ≤ l.maxCopyNum)
    (ht : Touch l e e') (hp : Placed l.maxCopyNum e)
    (h : Lawful l.minCopyNum l.maxCopyNum e) :
    Lawful l.minCopyNum l.maxCopyNum e' := by
  cases ht with
  | runningDown i hi hs => exact lawful_updatePtState _ _ _
  | recoveryDown i hi hs =>
      exact ⟨mastered_recoveryDown hs h.mastered, told_recoveryDown hs h.told⟩
  | backUp i hi hs => exact lawful_updatePtState _ _ _
  | finished i hi hs hsat masterList nodeId validNum =>
      exact lawful_finishCopy hs (Nat.lt_of_lt_of_le hmin hsat) hp hk
        h.mastered masterList nodeId validNum

theorem lawful_touches {l : PtEntryList} {e e' : PtEntry}
    (hmin : 0 < l.minCopyNum) (hk : l.minCopyNum ≤ l.maxCopyNum)
    (ht : ReflTransGen (Touch l) e e') (hp : Placed l.maxCopyNum e)
    (h : Lawful l.minCopyNum l.maxCopyNum e) :
    Lawful l.minCopyNum l.maxCopyNum e' := by
  induction ht with
  | refl => exact h
  | tail hsteps ht ih =>
      exact lawful_touch hmin hk ht (placed_touches hsteps hp) ih

/-! ## Rebalances and initial placements -/

/-- The last part of a rebalance recomputes both, whatever the rounds did. -/
theorem lawful_closeEntry (core : CalcCore) (event : Option CmEventType)
    (e : PtEntry) :
    Lawful core.minCopyNum core.copyNum (closeEntry core event e) := by
  have h := lawful_updatePtState (promoteEntry core e) core.minCopyNum
    core.copyNum
  rw [closeEntry, bypassEntry]
  split
  · rename_i hbypass
    refine ⟨h.mastered, Or.inr ⟨rfl, ?_⟩⟩
    rcases h.told with htold | ⟨hloss, -⟩
    · rw [hbypass.2] at htold
      exact htold.symm
    · rw [hbypass.2] at hloss
      cases hloss
  · exact h

theorem lawful_initialUpdateEntry {v m k : Nat} {e : PtEntry}
    (hf : FreshTo v m m e) (hm : k ≤ m) :
    Lawful k m (initialUpdateEntry e) := by
  obtain ⟨hcl, hcn, hst, -⟩ := initialUpdateEntry_frame e
  have hsame : (initialUpdateEntry e).runningList = e.runningList := by
    simp only [PtEntry.runningList, hcl, hcn]
  have hall : e.runningList = List.range m := by
    rw [PtEntry.runningList, hf.num, List.filter_eq_self]
    intro i hi
    exact decide_eq_true (hf.running i (List.mem_range.mp hi)).1
  refine ⟨?_, Or.inl ?_⟩
  · intro hne
    rw [hsame] at hne ⊢
    obtain ⟨i, rest, hlist⟩ := List.exists_cons_of_ne_nil hne
    have hnew : initialUpdateEntry e =
        { e with
          masterNodeId := (e.copyList i).nodeId
          masterDiskId := (e.copyList i).diskId
          state := .normal } := by
      rw [initialUpdateEntry, hlist]
      rfl
    rw [hnew]
    exact ⟨i, by rw [hlist]; exact List.mem_cons_self .., rfl, rfl⟩
  · rw [hst, PtEntry.runningNum, hsame, hall, List.length_range, ptStateOf,
      if_neg (by omega), if_pos rfl]

/-! ## Every reachable view -/

/-- The view is placed and every entry lawful. -/
structure ViewLawful (core : CalcCore) (l : PtEntryList) : Prop extends
    ViewPlaced core l where
  lawful : ∀ e ∈ l.ptEntryList, Lawful core.minCopyNum core.copyNum e

theorem viewLawful_initial {core : CalcCore} {nodeList : NodeInfoList}
    {stateList : NodeStateList} {version : Nat} {l : PtEntryList}
    (hk : core.minCopyNum ≤ core.copyNum)
    (h : viewCalculatorInitial core nodeList stateList version = some l) :
    ViewLawful core l := by
  obtain ⟨-, -, -, es, hes, hfresh⟩ := initial_rounds h
  refine ⟨viewPlaced_initial h, ?_⟩
  intro e he
  rw [hes] at he
  obtain ⟨e₀, he₀, rfl⟩ := List.mem_map.mp he
  exact lawful_initialUpdateEntry (hfresh e₀ he₀) hk

/-- **MASTER STEP**: every call keeps the laws. -/
theorem viewLawful_step {core : CalcCore} {l l' : PtEntryList} {ev : Event}
    (hmin : 0 < core.minCopyNum) (hk : core.minCopyNum ≤ core.copyNum)
    (hl : ViewLawful core l) (h : step core l ev = some l') :
    ViewLawful core l' := by
  refine ⟨viewPlaced_step hl.toViewPlaced h, ?_⟩
  have htouch : Entrywise (ReflTransGen (Touch l)) l l' →
      ∀ e ∈ l'.ptEntryList, Lawful core.minCopyNum core.copyNum e := by
    intro hent
    have hboth : ∀ e ∈ l.ptEntryList, Placed core.copyNum e ∧
        Lawful core.minCopyNum core.copyNum e :=
      fun e he => ⟨hl.entries e he, hl.lawful e he⟩
    refine forall₂_all ?_ hent.entries hboth
    rintro e e' hr ⟨hp, hlaw⟩
    rw [← hl.maxCopyNum] at hp hlaw ⊢
    rw [← hl.minCopyNum] at hlaw ⊢
    exact lawful_touches (by rw [hl.minCopyNum]; exact hmin)
      (by rw [hl.minCopyNum, hl.maxCopyNum]; exact hk) hr hp hlaw
  cases ev with
  | rebalance nodeList stateList event =>
      obtain ⟨-, hent⟩ := rebalance_entries
        (balanceGuarded_any core nodeList stateList _ _ _) h
      refine forall₂_all ?_ hent.entries (fun e _ => trivial)
      rintro e e' ⟨placed, -, rfl⟩ -
      exact lawful_closeEntry core event placed
  | nodeState nodeId state info =>
      exact htouch (step_local (by intro _ _ _ hh; exact nomatch hh) h)
  | finish nodeId ptList nodeNum validNum =>
      exact htouch (step_local (by intro _ _ _ hh; exact nomatch hh) h)

/-- **MASTER RUN**: every reachable view is lawful. -/
theorem viewLawful_reachable {core : CalcCore} {l : PtEntryList}
    (hmin : 0 < core.minCopyNum) (hk : core.minCopyNum ≤ core.copyNum)
    (h : Reachable core l) : ViewLawful core l := by
  obtain ⟨nodeList, stateList, version, l₀, events, hinit, hrun⟩ := h
  exact runFrom_invariant (fun _ _ _ hI hs => viewLawful_step hmin hk hI hs)
    (viewLawful_initial hk hinit) hrun

/-- The running copies over both halves of the copy list. -/
def runningSlots (l : PtEntryList) (e : PtEntry) : List Nat :=
  (List.range (2 * l.maxCopyNum)).filter fun i =>
    (e.copyList i).state = .running

/-- No copy runs beyond the extent of a sparse entry. -/
theorem runningSlots_eq {l : PtEntryList} {e : PtEntry}
    (h : Sparse l.maxCopyNum e) : runningSlots l e = e.runningList := by
  rcases h.extent with hx | hx
  · have hsplit : List.range (2 * l.maxCopyNum) = List.range e.copyNum ++
        (List.range l.maxCopyNum).map (e.copyNum + ·) := by
      rw [hx, Nat.two_mul, List.range_add]
    have hnone : ((List.range l.maxCopyNum).map (e.copyNum + ·)).filter
        (fun i => decide ((e.copyList i).state = .running)) = [] := by
      rw [List.filter_eq_nil_iff]
      intro i hi hrun
      obtain ⟨j, hj, rfl⟩ := List.mem_map.mp hi
      have hj' := List.mem_range.mp hj
      have hlt := h.live_lt (show e.copyNum + j < 2 * l.maxCopyNum by omega)
        (by rw [Live, of_decide_eq_true hrun]; rfl)
      omega
    rw [runningSlots, hsplit, List.filter_append, hnone, List.append_nil,
      PtEntry.runningList]
  · rw [runningSlots, ← hx, PtEntry.runningList]

/-- **MASTER AND STATE**: in every reachable view the master of a partition is
    one of its running copies if there are any, and its state is the one for
    the number of running copies over both halves. -/
theorem reachable_view_mastered {core : CalcCore} {l : PtEntryList}
    (hcopy : core.copyNum = 2 ∨ core.copyNum = 3)
    (hmin : core.minCopyNum = 1) (h : Reachable core l) :
    ∀ e ∈ l.ptEntryList,
      (runningSlots l e ≠ [] → ∃ i ∈ runningSlots l e, IsMaster e i) ∧
      (e.state = .normal ↔ (runningSlots l e).length = l.maxCopyNum) ∧
      (e.state = .degradeLoss1 ∨ e.state = .loss1Bypass ↔
        l.minCopyNum ≤ (runningSlots l e).length ∧
        (runningSlots l e).length + 1 = l.maxCopyNum) ∧
      (e.state = .degradeLoss2 ↔
        l.minCopyNum ≤ (runningSlots l e).length ∧
        (runningSlots l e).length + 2 = l.maxCopyNum) ∧
      (e.state = .fault ↔ (runningSlots l e).length < l.minCopyNum) := by
  have hv := viewLawful_reachable (by omega) (by omega) h
  intro e he
  have hsparse : Sparse l.maxCopyNum e := by
    rw [hv.maxCopyNum]
    exact (hv.entries e he).sparse
  have hlaw := hv.lawful e he
  rw [runningSlots_eq hsparse]
  refine ⟨hlaw.mastered, ?_⟩
  have hle : e.runningNum ≤ core.copyNum := by
    rw [← hv.maxCopyNum]
    exact hsparse.runningNum_le
  have htold := hlaw.told
  rw [hv.maxCopyNum, hv.minCopyNum]
  show (e.state = .normal ↔ e.runningNum = _) ∧
    (_ ↔ _ ≤ e.runningNum ∧ e.runningNum + 1 = _) ∧
    (_ ↔ _ ≤ e.runningNum ∧ e.runningNum + 2 = _) ∧ (_ ↔ e.runningNum < _)
  rw [Told, ptStateOf, hmin] at htold
  rw [hmin]
  -- at most three copies run, and the comparisons leave one state for each
  -- number of them
  have hnum : e.runningNum = 0 ∨ e.runningNum = 1 ∨ e.runningNum = 2 ∨
      e.runningNum = 3 := by omega
  rcases hcopy with hc | hc
  · rw [hc] at htold hle ⊢
    rcases hnum with hn | hn | hn | hn
    · rw [hn] at htold ⊢
      have hst : e.state = .fault := by simpa using htold
      simp [hst]
    · rw [hn] at htold ⊢
      rcases htold with ht | ⟨ht, -⟩
      · simp [ht]
      · simp [ht]
    · rw [hn] at htold ⊢
      have hst : e.state = .normal := by simpa using htold
      simp [hst]
    · omega
  · rw [hc] at htold ⊢
    rcases hnum with hn | hn | hn | hn
    · rw [hn] at htold ⊢
      have hst : e.state = .fault := by simpa using htold
      simp [hst]
    · rw [hn] at htold ⊢
      have hst : e.state = .degradeLoss2 := by simpa using htold
      simp [hst]
    · rw [hn] at htold ⊢
      rcases htold with ht | ⟨ht, -⟩
      · simp [ht]
      · simp [ht]
    · rw [hn] at htold ⊢
      have hst : e.state = .normal := by simpa using htold
      simp [hst]

/-- The view after `expiredRun` has a partition that lost one copy; its master
    is the survivor. -/
theorem reachable_view_mastered_expired :
    ∃ l, Reachable twoCopyCore l ∧ ∃ e ∈ l.ptEntryList,
      e.state = .degradeLoss1 ∧ (runningSlots l e).length + 1 = l.maxCopyNum ∧
      ∃ i ∈ runningSlots l e, IsMaster e i := by
  have hcheck : expiredRun.any (fun l => l.ptEntryList.any fun e =>
      e.state == .degradeLoss1 && !(runningSlots l e).isEmpty) = true := by
    decide +kernel
  obtain ⟨l, hl, hany⟩ := (Option.any_eq_true _ _).mp hcheck
  obtain ⟨e, he, hboth⟩ := List.any_eq_true.mp hany
  rw [Bool.and_eq_true, beq_iff_eq] at hboth
  have hreach : Reachable twoCopyCore l := reachable_runPool hl
  obtain ⟨hmaster, -, hloss, -, -⟩ :=
    reachable_view_mastered (Or.inl rfl) rfl hreach e he
  refine ⟨l, hreach, e, he, hboth.1, (hloss.mp (Or.inl hboth.1)).2, ?_⟩
  refine hmaster ?_
  intro hnil
  rw [hnil] at hboth
  exact Bool.noConfusion hboth.2

end UbsIo.Pt
