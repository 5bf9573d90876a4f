import UbsIo.Pt.Placement

/-! # The last survivor

    A partition with a single running copy must remember it: the `keepAlive`
    flag of that copy decides whether it may run again at once after a fault,
    or has to recover from a copy that no longer exists.

    The flag is maintained in several places.  Node and finish reports always
    leave it right (`lastSurvivor_touch`).  A rebalance does not: neither its
    eviction nor, with three copies, its balance move recomputes the flags, so
    the law holds for the runs whose rebalances never take a partition from
    several running copies to one by these two branches (`KeepsSurvivors`). -/

namespace UbsIo.Pt

open UbsIo.Lib Relation

/-- With exactly `k` running copies, all of them are flagged. -/
def LastSurvivor (k : Nat) (e : PtEntry) : Prop :=
  e.runningNum = k → ∀ i ∈ e.runningList, (e.copyList i).keepAlive = true

/-- The running copies of `e'` already ran in `e`, with the same flags. -/
def FewerRunning (e e' : PtEntry) : Prop :=
  ∀ i ∈ e'.runningList, i ∈ e.runningList ∧
    (e'.copyList i).keepAlive = (e.copyList i).keepAlive

/-- A settled slot has been used. -/
def Settled (m : Nat) (e : PtEntry) : Prop :=
  ∀ i < m, (e.copyList i).state ≠ .init

/-! ## Comparing the running copies -/

theorem runningNum_le_of_subset {e e' : PtEntry}
    (h : ∀ i ∈ e'.runningList, i ∈ e.runningList) :
    e'.runningNum ≤ e.runningNum :=
  ((runningList_nodup e').subperm h).length_le

theorem FewerRunning.num_le {e e' : PtEntry} (h : FewerRunning e e') :
    e'.runningNum ≤ e.runningNum :=
  runningNum_le_of_subset fun i hi => (h i hi).1

/-- The law survives when the number of running copies did not fall to `k`. -/
theorem LastSurvivor.of_fewer {k : Nat} {e e' : PtEntry}
    (h : LastSurvivor k e) (hf : FewerRunning e e')
    (hnum : e'.runningNum = k → e.runningNum = k) : LastSurvivor k e' := by
  intro hk i hi
  obtain ⟨hmem, hflag⟩ := hf i hi
  rw [hflag]
  exact h (hnum hk) i hmem

theorem runningNum_eq_zero {e : PtEntry} (h : e.runningNum = 0) (i : Nat) :
    i ∉ e.runningList := by
  rw [List.eq_nil_of_length_eq_zero h]
  exact List.not_mem_nil

/-- Equal copies and extents: everything about running copies agrees. -/
theorem LastSurvivor.congr {k : Nat} {e e' : PtEntry}
    (hc : e'.copyList = e.copyList) (hn : e'.copyNum = e.copyNum)
    (h : LastSurvivor k e) : LastSurvivor k e' := by
  have hl : e'.runningList = e.runningList := by
    simp only [PtEntry.runningList, hc, hn]
  intro hk i hi
  rw [hl] at hi
  rw [hc]
  refine h ?_ i hi
  rw [← hk]
  exact (congrArg List.length hl).symm

theorem mem_runningList_setState {e : PtEntry} {i j : Nat}
    {s : PtCopyState} (hs : s ≠ .running) :
    j ∈ (e.setState i s).runningList ↔ j ≠ i ∧ j ∈ e.runningList := by
  rw [mem_runningList, mem_runningList, setState_apply]
  by_cases hj : j = i
  · rw [if_pos hj]
    constructor
    · intro h
      exact absurd h.2 hs
    · intro h
      exact absurd hj h.1
  · rw [if_neg hj]
    exact ⟨fun h => ⟨hj, h⟩, fun h => h.2⟩

/-- Changing a copy that was not running and still is not. -/
theorem fewerRunning_setState {e : PtEntry} {i : Nat} {s : PtCopyState}
    (hs : s ≠ .running) : FewerRunning e (e.setState i s) := by
  intro j hj
  obtain ⟨hne, hmem⟩ := (mem_runningList_setState hs).mp hj
  refine ⟨hmem, ?_⟩
  rw [setState_apply, if_neg hne]

theorem runningNum_setState {e : PtEntry} {i : Nat} {s : PtCopyState}
    (hs : s ≠ .running) (hi : (e.copyList i).state ≠ .running) :
    (e.setState i s).runningNum = e.runningNum := by
  refine Nat.le_antisymm (fewerRunning_setState hs).num_le
    (runningNum_le_of_subset ?_)
  intro j hj
  refine (mem_runningList_setState hs).mpr ⟨?_, hj⟩
  rintro rfl
  exact hi (mem_runningList.mp hj).2

theorem runningList_setRunningKeepAlive (e : PtEntry) (b : Bool) :
    (e.setRunningKeepAlive b).runningList = e.runningList := by
  refine List.filter_congr ?_
  intro i _
  rw [setRunningKeepAlive_apply]
  split
  · rfl
  · rfl

/-- `ViewPtUpdateCopyKeepAlive` establishes the law, whatever it finds. -/
theorem lastSurvivor_updateKeepAlive (e : PtEntry) (k : Nat) :
    LastSurvivor k (viewPtUpdateCopyKeepAlive e k) := by
  unfold viewPtUpdateCopyKeepAlive
  by_cases hk : e.runningNum = k
  · rw [if_pos hk]
    intro _ i hi
    rw [runningList_setRunningKeepAlive] at hi
    rw [setRunningKeepAlive_apply, if_pos (mem_runningList.mp hi)]
  · rw [if_neg hk]
    split
    · intro hnum
      refine absurd ?_ hk
      rw [← hnum]
      exact (congrArg List.length (runningList_setRunningKeepAlive e _)).symm
    · intro hnum
      exact absurd hnum hk

/-! ## Reports -/

theorem lastSurvivor_updatePtState {k a b : Nat} {e : PtEntry}
    (h : LastSurvivor k e) :
    LastSurvivor k (viewPtEntryUpdatePtState e a b) :=
  h.congr (updatePtState_copyList e a b) (updatePtState_copyNum e a b)

/-- A copy that returns: with a survivor it recovers, without one only a
    flagged copy runs. -/
theorem lastSurvivor_updateCopyState {e : PtEntry} {i : Nat}
    (hs : (e.copyList i).state = .down) (h : LastSurvivor 1 e) :
    LastSurvivor 1 (viewPtUpdateCopyState e i 1) := by
  have hnr : (e.copyList i).state ≠ .running := by rw [hs]; decide
  have hrec : LastSurvivor 1 (e.setState i .recovery) := by
    refine h.of_fewer (fewerRunning_setState (by decide)) ?_
    rw [runningNum_setState (by decide) hnr]
    exact fun hk => hk
  unfold viewPtUpdateCopyState
  by_cases hn : e.runningNum ≥ 1
  · rw [if_pos hn]
    exact hrec
  · rw [if_neg hn]
    cases hk : (e.copyList i).keepAlive with
    | false => exact hrec
    | true =>
        intro _ j hj
        have hj' := mem_runningList.mp hj
        rw [if_pos rfl] at hj' ⊢
        rw [setState_apply] at hj' ⊢
        by_cases hji : j = i
        · rw [if_pos hji]
          exact hk
        · rw [if_neg hji] at hj' ⊢
          -- another running copy would have been counted
          have hzero : e.runningNum = 0 := by omega
          exact absurd (mem_runningList.mpr hj') (runningNum_eq_zero hzero j)

/-- After a trim all slots run, so there is no single survivor. -/
theorem two_le_runningNum_trimmed {m : Nat} {e e' : PtEntry} (hm : 2 ≤ m)
    (hp : Placed m e) (hr : e.runningNum = m) (ht : Trimmed m e e') :
    2 ≤ e'.runningNum := by
  have hrun : ∀ i < m, i ∈ e'.runningList := by
    intro i hi
    rw [mem_runningList, ht.copyNum, ht.copyList,
      trimSlots_copyList e m (Nat.le_refl m) i, if_pos hi]
    refine ⟨hi, ?_⟩
    unfold trimmedBase
    by_cases hbase : (e.copyList i).state = .running
    · rw [if_pos hbase]
      exact hbase
    · have hext := (hp.sparse.all_running hr i hi).resolve_left hbase
      rw [if_neg hbase, if_pos hext]
      exact hext
  have hsub : [0, 1] ⊆ e'.runningList := by
    intro i hi
    have : i = 0 ∨ i = 1 := by simpa using hi
    exact hrun i (by omega)
  exact ((by decide : [0, 1].Nodup).subperm hsub).length_le

/-- **REPORTS KEEP THE LAW.** -/
theorem lastSurvivor_touch {l : PtEntryList} {e e' : PtEntry}
    (hmax : 2 ≤ l.maxCopyNum) (hmin : l.minCopyNum = 1) (ht : Touch l e e')
    (hp : Placed l.maxCopyNum e) (h : LastSurvivor 1 e) :
    LastSurvivor 1 e' := by
  cases ht with
  | runningDown i hi hs =>
      rw [hmin]
      exact lastSurvivor_updatePtState (lastSurvivor_updateKeepAlive _ 1)
  | recoveryDown i hi hs =>
      have hs' : LastSurvivor 1 (e.setState i .down) := by
        refine h.of_fewer (fewerRunning_setState (by decide)) ?_
        rw [runningNum_setState (by decide) (by rw [hs]; decide)]
        exact fun hk => hk
      exact hs'.congr rfl rfl
  | backUp i hi hs =>
      rw [hmin]
      exact lastSurvivor_updatePtState
        (lastSurvivor_updateCopyState hs (h.congr rfl rfl))
  | finished i hi hs hsat masterList nodeId validNum =>
      have hset : SamePlace e (e.setState i .running) :=
        samePlace_setState (by rw [hs]; rfl)
      have hp1 : Placed l.maxCopyNum (finishStart e i l.minCopyNum) :=
        (hset.trans (samePlace_updateCopyKeepAlive _ _)).placed hp
      rcases finishCopy_cases e i l masterList nodeId validNum with
        ⟨-, heq⟩ | ⟨hr, htrim⟩
      · rw [heq, hmin]
        exact lastSurvivor_updatePtState (lastSurvivor_updateKeepAlive _ 1)
      · intro hone
        have := two_le_runningNum_trimmed hmax hp1 hr htrim
        omega

/-! ## Eviction -/

/-- Within the extent of a sparse entry no copy beyond it is running. -/
theorem Sparse.mem_runningList {m : Nat} {e : PtEntry} (h : Sparse m e)
    {i : Nat} (hi : i < 2 * m) :
    i ∈ e.runningList ↔ (e.copyList i).state = .running := by
  rw [Pt.mem_runningList]
  constructor
  · exact fun hr => hr.2
  · intro hr
    refine ⟨h.live_lt hi ?_, hr⟩
    show PtCopyState.live _ = true
    rw [hr]
    rfl

theorem Sparse.runningList_lt {m : Nat} {e : PtEntry} (h : Sparse m e)
    {i : Nat} (hi : i ∈ e.runningList) : i < 2 * m := by
  have := (Pt.mem_runningList.mp hi).1
  rcases h.extent with hx | hx
  · omega
  · omega

/-- What `ViewCalcInitPtEntryList1` leaves of an entry: copies on expired nodes
    or disks are given up, everything else stays. -/
structure Evicted (nodeList : NodeInfoList) (stateList : NodeStateList)
    (e e' : PtEntry) : Prop where
  copyNum : e'.copyNum = e.copyNum
  state : e'.state = e.state
  copies : ∀ j, e'.copyList j = e.copyList j ∨
    (e'.copyList j = .givenUp ∧ viewCalcCheckNodeIsFault nodeList stateList
      (e.copyList j).nodeId (e.copyList j).diskId = true)

theorem evicted_evictSlot (core : CalcCore) (nodeList : NodeInfoList)
    (stateList : NodeStateList) (version : Nat) (e : PtEntry) (c : Nat) :
    Evicted nodeList stateList e
      (evictSlot core nodeList stateList version e c) := by
  unfold evictSlot
  dsimp only
  split
  · rename_i hfault
    refine ⟨rfl, rfl, ?_⟩
    intro j
    show (e.setCopy _ _).copyList j = _ ∨ ((e.setCopy _ _).copyList j = _ ∧ _)
    rw [setCopy_apply]
    by_cases hj : j = slotIndex core.copyNum e c
    · rw [if_pos hj, hj]
      exact Or.inr ⟨rfl, hfault⟩
    · rw [if_neg hj]
      exact Or.inl rfl
  · exact ⟨rfl, rfl, fun j => Or.inl rfl⟩

theorem evicted_foldl (core : CalcCore) (nodeList : NodeInfoList)
    (stateList : NodeStateList) (version : Nat) :
    ∀ (cs : List Nat) (e : PtEntry), Evicted nodeList stateList e
      (cs.foldl (evictSlot core nodeList stateList version) e) := by
  intro cs
  induction cs with
  | nil => intro e; exact ⟨rfl, rfl, fun j => Or.inl rfl⟩
  | cons c cs ih =>
      intro e
      have h1 := evicted_evictSlot core nodeList stateList version e c
      have h2 := ih (evictSlot core nodeList stateList version e c)
      refine ⟨h2.copyNum.trans h1.copyNum, h2.state.trans h1.state, ?_⟩
      intro j
      rcases h1.copies j with hj | ⟨hj, hf⟩
      · rw [← hj]
        exact h2.copies j
      · -- a copy given up once stays given up
        refine Or.inr ⟨?_, hf⟩
        rcases h2.copies j with hj2 | ⟨hj2, -⟩
        · exact hj2.trans hj
        · exact hj2

theorem evicted_evictEntry (core : CalcCore) (nodeList : NodeInfoList)
    (stateList : NodeStateList) (version : Nat) (e : PtEntry) :
    Evicted nodeList stateList e
      (evictEntry core nodeList stateList version e) :=
  evicted_foldl core nodeList stateList version _ e

theorem Evicted.fewerRunning {nodeList : NodeInfoList}
    {stateList : NodeStateList} {e e' : PtEntry}
    (h : Evicted nodeList stateList e e') : FewerRunning e e' := by
  intro i hi
  obtain ⟨hlt, hrun⟩ := mem_runningList.mp hi
  rcases h.copies i with hi' | ⟨hi', -⟩
  · rw [hi'] at hrun ⊢
    rw [h.copyNum] at hlt
    exact ⟨mem_runningList.mpr ⟨hlt, hrun⟩, rfl⟩
  · rw [hi'] at hrun
    exact nomatch hrun

theorem Evicted.settled {nodeList : NodeInfoList} {stateList : NodeStateList}
    {e e' : PtEntry} {m : Nat} (h : Evicted nodeList stateList e e')
    (hs : Settled m e) : Settled m e' := by
  intro i hi
  rcases h.copies i with hi' | ⟨hi', -⟩
  · rw [hi']
    exact hs i hi
  · rw [hi']
    exact nofun

theorem evictEntry_fault {core : CalcCore} {nodeList : NodeInfoList}
    {stateList : NodeStateList} {version c i : Nat} (hc : c < core.copyNum)
    (hi : i = c ∨ i = c + core.copyNum) :
    ∀ (cs : List Nat) (e : PtEntry), Sparse core.copyNum e → c ∈ cs →
      ((cs.foldl (evictSlot core nodeList stateList version) e).copyList
        i).state = .running →
      viewCalcCheckNodeIsFault nodeList stateList (e.copyList i).nodeId
        (e.copyList i).diskId = false := by
  intro cs
  induction cs with
  | nil => intro e _ hmem; exact nomatch hmem
  | cons d cs ih =>
      intro e hs hmem hrun
      rw [List.foldl_cons] at hrun
      have hone := evicted_evictSlot core nodeList stateList version e d
      have hs1 : Sparse core.copyNum
          (evictSlot core nodeList stateList version e d) :=
        sparse_evictSlot d hs
      have hlast : Evicted nodeList stateList
          (evictSlot core nodeList stateList version e d)
          (cs.foldl (evictSlot core nodeList stateList version)
            (evictSlot core nodeList stateList version e d)) :=
        evicted_foldl core nodeList stateList version cs _
      -- the copy still runs at the end, so this iteration left it alone
      have hkept : (evictSlot core nodeList stateList version e d).copyList i
          = e.copyList i := by
        refine (hone.copies i).resolve_right ?_
        rintro ⟨hgone, -⟩
        rcases hlast.copies i with h2 | ⟨h2, -⟩
        · rw [h2, hgone] at hrun
          exact nomatch hrun
        · rw [h2] at hrun
          exact nomatch hrun
      by_cases hcs : c ∈ cs
      · rw [← hkept]
        exact ih _ hs1 hcs hrun
      · have hdc : d = c := by
          rcases List.mem_cons.mp hmem with h | h
          · exact h.symm
          · exact absurd h hcs
        subst hdc
        have hrun' : (e.copyList i).state = .running := by
          rcases hlast.copies i with h2 | ⟨h2, -⟩
          · rw [h2, hkept] at hrun
            exact hrun
          · rw [h2] at hrun
            exact nomatch hrun
        have hslot : slotIndex core.copyNum e d = i := by
          unfold slotIndex
          rcases hi with rfl | rfl
          · rw [hrun']
            rfl
          · rw [if_neg]
            intro hb
            refine hs.once d hc hb ?_
            show PtCopyState.live _ = true
            rw [hrun']
            rfl
        by_contra hfault
        have hkept' := hkept
        unfold evictSlot at hkept'
        dsimp only at hkept'
        rw [hslot, if_pos (by simpa using hfault)] at hkept'
        have hgone : PtEntryCopy.givenUp = e.copyList i := by
          rw [← hkept']
          exact (setCopy_same e i _).symm
        rw [← hgone] at hrun'
        exact nomatch hrun'

/-- The running copies that an eviction leaves. -/
def unexpired (nodeList : NodeInfoList) (stateList : NodeStateList)
    (e : PtEntry) : List Nat :=
  e.runningList.filter fun i => !viewCalcCheckNodeIsFault nodeList stateList
    (e.copyList i).nodeId (e.copyList i).diskId

/-- An eviction leaves no running copy on an expired node or disk. -/
theorem evictEntry_running_sub {core : CalcCore} {nodeList : NodeInfoList}
    {stateList : NodeStateList} {version : Nat} {e : PtEntry}
    (hs : Sparse core.copyNum e) {i : Nat}
    (hi : i ∈ (evictEntry core nodeList stateList version e).runningList) :
    i ∈ unexpired nodeList stateList e := by
  have hev := evicted_evictEntry core nodeList stateList version e
  have hmem := (hev.fewerRunning i hi).1
  have hlt := hs.runningList_lt hmem
  have hrun := (mem_runningList.mp hi).2
  refine List.mem_filter.mpr ⟨hmem, ?_⟩
  rw [Bool.not_eq_true']
  by_cases him : i < core.copyNum
  · exact evictEntry_fault him (Or.inl rfl) _ e hs
      (List.mem_range.mpr him) hrun
  · exact evictEntry_fault (c := i - core.copyNum) (by omega)
      (Or.inr (by omega)) _ e hs (List.mem_range.mpr (by omega)) hrun

theorem unexpired_sub {core : CalcCore} {nodeList : NodeInfoList}
    {stateList : NodeStateList} {version : Nat} {e : PtEntry} {i : Nat}
    (hi : i ∈ unexpired nodeList stateList e) :
    i ∈ (evictEntry core nodeList stateList version e).runningList := by
  have hev := evicted_evictEntry core nodeList stateList version e
  obtain ⟨hmem, hok⟩ := List.mem_filter.mp hi
  have hrun := mem_runningList.mp hmem
  rw [mem_runningList, hev.copyNum]
  rcases hev.copies i with hsame | ⟨-, hfault⟩
  · rw [hsame]
    exact hrun
  · rw [hfault] at hok
    exact Bool.noConfusion hok

theorem runningNum_evictEntry {core : CalcCore} {nodeList : NodeInfoList}
    {stateList : NodeStateList} {version : Nat} {e : PtEntry}
    (hs : Sparse core.copyNum e) :
    (evictEntry core nodeList stateList version e).runningNum
      = (unexpired nodeList stateList e).length := by
  have hnodup : (unexpired nodeList stateList e).Nodup :=
    (runningList_nodup e).filter _
  refine Nat.le_antisymm ?_ ?_
  · exact ((runningList_nodup _).subperm
      fun i hi => evictEntry_running_sub hs hi).length_le
  · exact (hnodup.subperm fun i hi => unexpired_sub hi).length_le

/-! ## Refill and balance -/

/-- A refill starts a recovering replacement and leaves the running copies. -/
theorem refill_running {core : CalcCore} {c : Nat} {e e' : PtEntry}
    (hc : c < core.copyNum) (h : Refill core c e e')
    (hs : Sparse core.copyNum e) (hset : Settled core.copyNum e)
    (hs' : Sparse core.copyNum e') :
    FewerRunning e e' ∧ e.runningNum ≤ e'.runningNum ∧
    Settled core.copyNum e' ∧ e'.state = e.state := by
  rcases refill_cases h with ⟨heq, -⟩ | ⟨hbase, hext, x, -, heq⟩
  · rw [heq]
    exact ⟨fun i hi => ⟨hi, rfl⟩, Nat.le_refl _, hset, rfl⟩
  · unfold fillCopy at heq
    rw [if_neg (hset c hc)] at heq
    have hcopy : ∀ j, j ≠ c + core.copyNum → e'.copyList j = e.copyList j := by
      intro j hj
      rw [heq]
      exact setCopy_of_ne e _ hj
    have hnew : (e'.copyList (c + core.copyNum)).state = .recovery := by
      rw [heq]
      show ((e.setCopy _ _).copyList _).state = _
      rw [setCopy_same]
    -- the slot that is filled was empty in both halves
    have hdead : (e.copyList (c + core.copyNum)).state ≠ .running := by
      intro hr
      have hl : Live e (c + core.copyNum) := by
        show PtCopyState.live _ = true
        rw [hr]
        rfl
      exact hext ⟨hs.live_lt (by omega) hl, hl⟩
    refine ⟨?_, runningNum_le_of_subset ?_, ?_, by rw [heq]; rfl⟩
    · intro i hi
      have hlt := hs'.runningList_lt hi
      have hrun := (mem_runningList.mp hi).2
      have hne : i ≠ c + core.copyNum := by
        rintro rfl
        rw [hnew] at hrun
        exact nomatch hrun
      rw [hcopy i hne] at hrun ⊢
      exact ⟨(hs.mem_runningList hlt).mpr hrun, rfl⟩
    · intro i hi
      have hlt := hs.runningList_lt hi
      have hrun := (mem_runningList.mp hi).2
      have hne : i ≠ c + core.copyNum := by
        rintro rfl
        exact hdead hrun
      rw [← hcopy i hne] at hrun
      exact (hs'.mem_runningList hlt).mpr hrun
    · intro i hi
      rw [hcopy i (by omega)]
      exact hset i hi

/-- A move stops the copy it picked, if that ran, and no other. -/
theorem move_running {core : CalcCore} {c version : Nat} {e : PtEntry}
    {x : CalcElem} (hc : c < core.copyNum) (hs : Sparse core.copyNum e)
    (hs' : Sparse core.copyNum (moveCopy core c e version x)) :
    FewerRunning e (moveCopy core c e version x) ∧
    ∀ i ∈ e.runningList, i ≠ slotIndex core.copyNum e c →
      i ∈ (moveCopy core c e version x).runningList := by
  have hm : 0 < core.copyNum := by omega
  have happ := moveCopy_apply hm c e version x
  constructor
  · intro i hi
    have hlt := hs'.runningList_lt hi
    have hrun := (mem_runningList.mp hi).2
    have h1 : i ≠ c := by
      rintro rfl
      rw [happ, if_pos rfl] at hrun
      exact nomatch hrun
    have h2 : i ≠ c + core.copyNum := by
      rintro rfl
      rw [happ, if_neg h1, if_pos rfl] at hrun
      exact nomatch hrun
    rw [happ, if_neg h1, if_neg h2] at hrun ⊢
    exact ⟨(hs.mem_runningList hlt).mpr hrun, rfl⟩
  · intro i hi hne
    have hlt := hs.runningList_lt hi
    have hrun := (mem_runningList.mp hi).2
    have hlive : Live e i := by
      show PtCopyState.live _ = true
      rw [hrun]
      rfl
    -- a running copy of slot `c` is the one the slot index points at
    have h12 : i ≠ c ∧ i ≠ c + core.copyNum := by
      unfold slotIndex at hne
      by_cases hb : (e.copyList c).state.live = true
      · rw [if_pos hb] at hne
        refine ⟨hne, ?_⟩
        rintro rfl
        exact hs.once c hc hb hlive
      · rw [if_neg hb] at hne
        refine ⟨?_, hne⟩
        rintro rfl
        exact hb hlive
    rw [hs'.mem_runningList hlt, happ, if_neg h12.1, if_neg h12.2]
    exact hrun

/-- The balance visit does not stop one of the last `minCopyNum + 1` running
    copies, unless `ViewCalcUpdateCopyKeepAlive` flags the rest. -/
def KeepsPair (core : CalcCore) (version c : Nat) (e : PtEntry)
    (busy : List CalcElem) : Prop :=
  core.copyNum = core.minCopyNum + 1 ∨
  ∀ index x, balanceTarget core c e version busy = some (index, x) →
    (e.copyList index).state = .running →
    e.runningNum ≠ core.minCopyNum + 1

theorem lastSurvivor_calcKeepAlive {core : CalcCore} (k : Nat) (e : PtEntry)
    (h : core.copyNum = core.minCopyNum + 1) :
    LastSurvivor k (viewCalcUpdateCopyKeepAlive core e) := by
  unfold viewCalcUpdateCopyKeepAlive
  rw [if_neg (not_not.mpr h)]
  intro _ i hi
  rw [runningList_setRunningKeepAlive] at hi
  rw [setRunningKeepAlive_apply, if_pos (mem_runningList.mp hi)]

theorem settled_calcKeepAlive {core : CalcCore} {m : Nat} {e : PtEntry}
    (h : Settled m e) : Settled m (viewCalcUpdateCopyKeepAlive core e) := by
  unfold viewCalcUpdateCopyKeepAlive
  split
  · exact h
  · intro i hi
    rw [setRunningKeepAlive_apply]
    split
    · exact h i hi
    · exact h i hi

theorem settled_moveCopy {core : CalcCore} {c version : Nat} {e : PtEntry}
    {x : CalcElem} (h : Settled core.copyNum e) :
    Settled core.copyNum (moveCopy core c e version x) := by
  intro i hi
  rw [moveCopy_apply (by omega)]
  by_cases hic : i = c
  · rw [if_pos hic]
    exact nofun
  · rw [if_neg hic, if_neg (by omega)]
    exact h i hi

/-- A guarded move keeps the law. -/
theorem lastSurvivor_balanceMove {core : CalcCore} {c version : Nat}
    {e : PtEntry} {x : CalcElem} (hmin : core.minCopyNum = 1)
    (hc : c < core.copyNum) (hs : Sparse core.copyNum e)
    (hs' : Sparse core.copyNum (moveCopy core c e version x))
    (hG : core.copyNum = core.minCopyNum + 1 ∨
      ((e.copyList (slotIndex core.copyNum e c)).state = .running →
        e.runningNum ≠ core.minCopyNum + 1))
    (h : LastSurvivor 1 e) :
    LastSurvivor 1 (balanceMove core c e version x) := by
  unfold balanceMove
  rcases hG with htwo | hG
  · exact lastSurvivor_calcKeepAlive 1 _ htwo
  · by_cases htwo : core.copyNum = core.minCopyNum + 1
    · exact lastSurvivor_calcKeepAlive 1 _ htwo
    · unfold viewCalcUpdateCopyKeepAlive
      rw [if_pos htwo]
      obtain ⟨hfew, hkeep⟩ := move_running hc hs hs'
      refine h.of_fewer hfew ?_
      intro hone
      have hge := hfew.num_le
      have hle : e.runningNum
          ≤ (moveCopy core c e version x).runningNum + 1 := by
        have hsub : e.runningList ⊆ slotIndex core.copyNum e c ::
            (moveCopy core c e version x).runningList := by
          intro i hi
          by_cases hslot : i = slotIndex core.copyNum e c
          · rw [hslot]
            exact List.mem_cons_self ..
          · exact List.mem_cons_of_mem _ (hkeep i hi hslot)
        exact ((runningList_nodup e).subperm hsub).length_le
      by_cases hrun : (e.copyList (slotIndex core.copyNum e c)).state
          = .running
      · have := hG hrun
        omega
      · -- the moved copy did not run: nothing is lost
        have hsame : e.runningNum
            ≤ (moveCopy core c e version x).runningNum := by
          refine runningNum_le_of_subset ?_
          intro i hi
          refine hkeep i hi ?_
          rintro rfl
          exact hrun (mem_runningList.mp hi).2
        omega

theorem balance_survivor {core : CalcCore} {c version : Nat} {e e' : PtEntry}
    (hmin : core.minCopyNum = 1) (hc : c < core.copyNum)
    (h : Balance core version (KeepsPair core version) c e e')
    (hs : Sparse core.copyNum e) (hset : Settled core.copyNum e)
    (hl : LastSurvivor 1 e) :
    Settled core.copyNum e' ∧ LastSurvivor 1 e' := by
  obtain ⟨busy, hG, heq⟩ := h
  rw [heq]
  rcases buildPtEntry1_cases core c e version busy with
    ⟨-, hsame⟩ | ⟨index, x, htarget, hmove⟩
  · rw [hsame]
    exact ⟨hset, hl⟩
  · rw [hmove]
    obtain ⟨hpre, hnew⟩ := balanceTarget_some htarget
    have hidx := (preCheck_some hpre).2.2.1
    have hs' : Sparse core.copyNum (moveCopy core c e version x) :=
      (moveCopy_placed _ hc (Nat.zero_le _) hs
        (fun i hi => absurd hi (Nat.not_lt_zero i)) hnew).1
    refine ⟨settled_calcKeepAlive (settled_moveCopy hset),
      lastSurvivor_balanceMove hmin hc hs hs' ?_ hl⟩
    rcases hG with htwo | hG
    · exact Or.inl htwo
    · rw [← hidx]
      exact Or.inr (hG index x htarget)

/-- Guarded rounds keep the law. -/
theorem placing_survivor {core : CalcCore} {version k : Nat} {e e' : PtEntry}
    (hmin : core.minCopyNum = 1)
    (h : Placing core version (KeepsPair core version) e k e')
    (hk : k ≤ core.copyNum) (hs : Sparse core.copyNum e)
    (hset : Settled core.copyNum e) (hl : LastSurvivor 1 e) :
    Settled core.copyNum e' ∧ LastSurvivor 1 e' := by
  induction h with
  | start => exact ⟨hset, hl⟩
  | round hprev hrefill hbal ih =>
      obtain ⟨hset1, hl1⟩ := ih (by omega)
      obtain ⟨hs1, hf1⟩ := placing_placed hprev (by omega) hs
      obtain ⟨hs2, -⟩ := refill_placed (by omega) hrefill hs1 hf1
      obtain ⟨hfew, hle, hset2, -⟩ :=
        refill_running (by omega) hrefill hs1 hset1 hs2
      refine balance_survivor hmin (by omega) hbal hs2 hset2
        (hl1.of_fewer hfew ?_)
      intro hone
      have := hfew.num_le
      omega

/-! ## Closing a rebalance -/

/-- Every running copy is flagged. -/
def AllFlagged (e : PtEntry) : Prop :=
  ∀ i ∈ e.runningList, (e.copyList i).keepAlive = true

theorem promoteSlot_cases (st : PtEntry × Nat) (i : Nat) :
    (promoteSlot st i).1 = st.1 ∨
    ∃ s, (s = .running ∨ s = (st.1.copyList i).state) ∧
      (promoteSlot st i).1 = st.1.setCopy i
        { st.1.copyList i with state := s, keepAlive := true } := by
  unfold promoteSlot
  dsimp only
  split
  · exact Or.inl rfl
  · split
    · exact Or.inl rfl
    · split
      · exact Or.inr ⟨.running, Or.inl rfl, rfl⟩
      · split
        · exact Or.inr ⟨_, Or.inr rfl, rfl⟩
        · exact Or.inl rfl

theorem promoteSlot_flagged {st : PtEntry × Nat} {i : Nat}
    (h : AllFlagged st.1) : AllFlagged (promoteSlot st i).1 := by
  rcases promoteSlot_cases st i with heq | ⟨s, -, heq⟩
  · rw [heq]
    exact h
  · rw [heq]
    intro j hj
    have hj' := mem_runningList.mp hj
    rw [setCopy_apply] at hj' ⊢
    by_cases hji : j = i
    · rw [if_pos hji]
    · rw [if_neg hji] at hj' ⊢
      exact h j (mem_runningList.mpr hj')

theorem promoteSlot_settled {m : Nat} {st : PtEntry × Nat} {i : Nat}
    (h : Settled m st.1) : Settled m (promoteSlot st i).1 := by
  rcases promoteSlot_cases st i with heq | ⟨s, hs, heq⟩
  · rw [heq]
    exact h
  · rw [heq]
    intro j hj
    rw [setCopy_apply]
    by_cases hji : j = i
    · rw [if_pos hji]
      rcases hs with rfl | rfl
      · exact nofun
      · rw [← hji]
        exact h j hj
    · rw [if_neg hji]
      exact h j hj

/-- A property every iteration of `ViewCalcUpdatePtEntryList111` keeps. -/
theorem promoteEntry_induct {P : PtEntry → Prop} (core : CalcCore)
    {e : PtEntry} (h : P e)
    (hstep : ∀ st i, P st.1 → P (promoteSlot st i).1) :
    P (promoteEntry core e) := by
  have hfold : ∀ (is : List Nat) (st : PtEntry × Nat), P st.1 →
      P (is.foldl promoteSlot st).1 := by
    intro is
    induction is with
    | nil => intro st hst; exact hst
    | cons i is ih => intro st hst; exact ih _ (hstep st i hst)
  unfold promoteEntry
  split
  · exact hfold _ (e, _) h
  · exact h

/-- A copy with data makes its slot a survivor. -/
theorem survivorNum_pos {core : CalcCore} {e : PtEntry} {i : Nat}
    (hi : i < 2 * core.copyNum) (h : (e.copyList i).holdsData = true) :
    0 < survivorNum core e := by
  unfold survivorNum
  rw [List.countP_pos_iff]
  by_cases him : i < core.copyNum
  · refine ⟨i, List.mem_range.mpr him, ?_⟩
    rw [h]
    rfl
  · refine ⟨i - core.copyNum, List.mem_range.mpr (by omega), ?_⟩
    have : i - core.copyNum + core.copyNum = i := by omega
    rw [this, h]
    exact Bool.or_true _

/-- The data-loss path flags the copy it promotes. -/
theorem lastSurvivor_promoteEntry {core : CalcCore} {e : PtEntry}
    (hmin : core.minCopyNum = 1) (hs : Sparse core.copyNum e)
    (h : LastSurvivor 1 e) : LastSurvivor 1 (promoteEntry core e) := by
  by_cases hlost : survivorNum core e < core.minCopyNum
  · have hnone : AllFlagged e := by
      intro i hi
      have hdata : (e.copyList i).holdsData = true := by
        unfold PtEntryCopy.holdsData
        rw [(mem_runningList.mp hi).2]
        rfl
      have := survivorNum_pos (hs.runningList_lt hi) hdata
      omega
    have hall := promoteEntry_induct core hnone
      fun _ _ hst => promoteSlot_flagged hst
    exact fun _ => hall
  · unfold promoteEntry
    rw [if_neg hlost]
    exact h

theorem closeEntry_frame (core : CalcCore) (event : Option CmEventType)
    (e : PtEntry) :
    (closeEntry core event e).copyList = (promoteEntry core e).copyList ∧
    (closeEntry core event e).copyNum = (promoteEntry core e).copyNum := by
  have hcl := updatePtState_copyList (promoteEntry core e) core.minCopyNum
    core.copyNum
  have hcn := updatePtState_copyNum (promoteEntry core e) core.minCopyNum
    core.copyNum
  unfold closeEntry bypassEntry
  split
  · exact ⟨hcl, hcn⟩
  · exact ⟨hcl, hcn⟩

/-! ## Guarded rebalances -/

/-- The step does not take a partition from several running copies to a single
    one by an eviction, nor, unless the flags follow, by a balance move. -/
def KeepsSurvivors (core : CalcCore) (l : PtEntryList) : Event → Prop
  | .nodeState _ _ _ => True
  | .finish _ _ _ _ => True
  | .rebalance nodeList stateList _ =>
      (∀ e ∈ l.ptEntryList, core.minCopyNum < e.runningNum →
        (unexpired nodeList stateList e).length ≠ core.minCopyNum) ∧
      BalanceGuarded core nodeList stateList (l.globalVersion + 1)
        (viewCalcBuildBusyList core nodeList stateList).2
        (KeepsPair core (l.globalVersion + 1))
        (rebalanceStart core nodeList stateList l)

/-- **GUARDED REBALANCES KEEP THE LAW.** -/
theorem rebalanced_survivor {core : CalcCore} {nodeList : NodeInfoList}
    {stateList : NodeStateList} {event : Option CmEventType} {version : Nat}
    {e e' : PtEntry} (hmin : core.minCopyNum = 1)
    (h : Rebalanced core nodeList stateList event version
      (KeepsPair core version) e e')
    (hevict : core.minCopyNum < e.runningNum →
      (unexpired nodeList stateList e).length ≠ core.minCopyNum)
    (hp : Placed core.copyNum e) (hset : Settled core.copyNum e)
    (hl : LastSurvivor 1 e) :
    Settled core.copyNum e' ∧ LastSurvivor 1 e' := by
  obtain ⟨placed, hplacing, heq⟩ := h
  have hev := evicted_evictEntry core nodeList stateList version e
  have hs1 : Sparse core.copyNum
      (evictEntry core nodeList stateList version e) :=
    sparse_evictEntry hp.sparse
  have hl1 : LastSurvivor 1
      (evictEntry core nodeList stateList version e) := by
    refine hl.of_fewer hev.fewerRunning ?_
    intro hone
    have hle := hev.fewerRunning.num_le
    rw [runningNum_evictEntry hp.sparse] at hone
    by_contra hne
    exact hevict (by rw [runningNum_evictEntry hp.sparse] at hle; omega)
      (by omega)
  obtain ⟨hset2, hl2⟩ := placing_survivor hmin hplacing (Nat.le_refl _) hs1
    (hev.settled hset) hl1
  obtain ⟨hs2, -⟩ := placing_placed hplacing (Nat.le_refl _) hs1
  obtain ⟨hcl, hcn⟩ := closeEntry_frame core event placed
  have hset3 : Settled core.copyNum (promoteEntry core placed) :=
    promoteEntry_induct core hset2 fun _ _ hst => promoteSlot_settled hst
  rw [heq]
  refine ⟨?_, (lastSurvivor_promoteEntry hmin hs2 hl2).congr hcl hcn⟩
  intro i hi
  rw [hcl]
  exact hset3 i hi

/-! ## Whole runs -/

theorem settled_setState {m i : Nat} {e : PtEntry} {s : PtCopyState}
    (hs : s ≠ .init) (h : Settled m e) : Settled m (e.setState i s) := by
  intro j hj
  rw [setState_apply]
  by_cases hji : j = i
  · rw [if_pos hji]
    exact hs
  · rw [if_neg hji]
    exact h j hj

theorem settled_updateKeepAlive {m k : Nat} {e : PtEntry}
    (h : Settled m e) : Settled m (viewPtUpdateCopyKeepAlive e k) := by
  rcases updateCopyKeepAlive_cases e k with heq | ⟨b, heq⟩
  · rw [heq]
    exact h
  · rw [heq]
    intro i hi
    rw [setRunningKeepAlive_apply]
    split
    · exact h i hi
    · exact h i hi

theorem settled_updatePtState {m a b : Nat} {e : PtEntry}
    (h : Settled m e) : Settled m (viewPtEntryUpdatePtState e a b) := by
  intro i hi
  rw [updatePtState_copyList]
  exact h i hi

theorem settled_touch {l : PtEntryList} {e e' : PtEntry} (ht : Touch l e e')
    (h : Settled l.maxCopyNum e) : Settled l.maxCopyNum e' := by
  cases ht with
  | runningDown i hi hs =>
      have h1 : Settled l.maxCopyNum
          { e.setState i .down with referNum := e.referNum + 1 } :=
        settled_setState nofun h
      exact settled_updatePtState (settled_updateKeepAlive h1)
  | recoveryDown i hi hs => exact settled_setState nofun h
  | backUp i hi hs =>
      refine settled_updatePtState ?_
      have h1 : Settled l.maxCopyNum { e with referNum := e.referNum + 1 } := h
      unfold viewPtUpdateCopyState
      split
      · exact settled_setState nofun h1
      · split
        · exact settled_setState nofun h1
        · exact settled_setState nofun h1
  | finished i hi hs hsat masterList nodeId validNum =>
      have h1 : Settled l.maxCopyNum (finishStart e i l.minCopyNum) :=
        settled_updateKeepAlive (settled_setState nofun h)
      rcases finishCopy_cases e i l masterList nodeId validNum with
        ⟨-, heq⟩ | ⟨-, htrim⟩
      · rw [heq]
        exact settled_updatePtState h1
      · intro j hj
        rw [htrim.copyList, trimSlots_copyList _ _ (Nat.le_refl _), if_pos hj]
        unfold trimmedBase
        split
        · exact h1 j hj
        · split
          · rename_i hrun
            rw [hrun]
            exact nofun
          · exact h1 j hj

/-- The invariant of guarded runs. -/
structure ViewSurvives (core : CalcCore) (l : PtEntryList) : Prop where
  placed : ViewPlaced core l
  entries : ∀ e ∈ l.ptEntryList, Settled core.copyNum e ∧ LastSurvivor 1 e

theorem viewSurvives_initial {core : CalcCore} {nodeList : NodeInfoList}
    {stateList : NodeStateList} {version : Nat} {l : PtEntryList}
    (hcopy : 2 ≤ core.copyNum)
    (h : viewCalculatorInitial core nodeList stateList version = some l) :
    ViewSurvives core l := by
  refine ⟨viewPlaced_initial h, ?_⟩
  intro e he
  obtain ⟨hfresh, -⟩ := (initial_entries h).2.2.2 e he
  refine ⟨?_, ?_⟩
  · intro i hi
    rw [(hfresh.running i hi).1]
    exact nofun
  · intro hone
    -- all copies run, and there are at least two
    have hsub : [0, 1] ⊆ e.runningList := by
      intro i hi
      have h01 : i = 0 ∨ i = 1 := by simpa using hi
      have hlt : i < core.copyNum := by omega
      refine mem_runningList.mpr ⟨?_, (hfresh.running i hlt).1⟩
      rw [hfresh.num]
      exact hlt
    have h2 : 2 ≤ e.runningNum :=
      ((by decide : [0, 1].Nodup).subperm hsub).length_le
    omega

/-- Node and finish reports, entry by entry. -/
theorem survives_touches {core : CalcCore} {l : PtEntryList}
    {e e' : PtEntry} (hcopy : 2 ≤ core.copyNum)
    (hmin : core.minCopyNum = 1) (hv : ViewPlaced core l)
    (h : ReflTransGen (Touch l) e e') (hp : Placed core.copyNum e)
    (hs : Settled core.copyNum e ∧ LastSurvivor 1 e) :
    Settled core.copyNum e' ∧ LastSurvivor 1 e' := by
  rw [← hv.maxCopyNum] at hp hs ⊢
  have hmax : 2 ≤ l.maxCopyNum := by rw [hv.maxCopyNum]; exact hcopy
  have hmin' : l.minCopyNum = 1 := hv.minCopyNum.trans hmin
  have hall : Placed l.maxCopyNum e' ∧ Settled l.maxCopyNum e' ∧
      LastSurvivor 1 e' := by
    induction h with
    | refl => exact ⟨hp, hs⟩
    | tail _ ht ih =>
        obtain ⟨hp1, hset1, hl1⟩ := ih
        exact ⟨placed_touch ht hp1, settled_touch ht hset1,
          lastSurvivor_touch hmax hmin' ht hp1 hl1⟩
  exact hall.2

theorem viewSurvives_step {core : CalcCore} {l l' : PtEntryList} {ev : Event}
    (hcopy : 2 ≤ core.copyNum) (hmin : core.minCopyNum = 1)
    (hl : ViewSurvives core l) (hG : KeepsSurvivors core l ev)
    (h : step core l ev = some l') : ViewSurvives core l' := by
  refine ⟨viewPlaced_step hl.placed h, ?_⟩
  have hboth : ∀ e ∈ l.ptEntryList, Placed core.copyNum e ∧
      Settled core.copyNum e ∧ LastSurvivor 1 e :=
    fun e he => ⟨hl.placed.entries e he, hl.entries e he⟩
  have hlocal : Entrywise (ReflTransGen (Touch l)) l l' →
      ∀ e ∈ l'.ptEntryList, Settled core.copyNum e ∧ LastSurvivor 1 e := by
    intro hent
    have hR : ∀ e e', ReflTransGen (Touch l) e e' →
        (Placed core.copyNum e ∧ Settled core.copyNum e ∧ LastSurvivor 1 e) →
        Settled core.copyNum e' ∧ LastSurvivor 1 e' :=
      fun e e' ht hb => survives_touches hcopy hmin hl.placed ht hb.1 hb.2
    exact forall₂_all hR hent.entries hboth
  cases ev with
  | nodeState nodeId state info =>
      exact hlocal (step_local (by intro _ _ _ hh; exact nomatch hh) h)
  | finish nodeId ptList nodeNum validNum =>
      exact hlocal (step_local (by intro _ _ _ hh; exact nomatch hh) h)
  | rebalance nodeList stateList event =>
      obtain ⟨-, hent⟩ := rebalance_entries hG.2 h
      intro e' he'
      obtain ⟨p, hp⟩ := List.mem_iff_getElem?.mp he'
      obtain ⟨hlt, -⟩ := List.getElem?_eq_some_iff.mp hp
      have hlt' : p < l.ptEntryList.length := by
        rw [← hent.shape.length]
        exact hlt
      obtain ⟨e'', he'', hR⟩ :=
        hent.getElem? (List.getElem?_eq_getElem hlt')
      have hee : e'' = e' := Option.some.inj (he''.symm.trans hp)
      rw [hee] at hR
      have hmem := List.getElem_mem hlt'
      obtain ⟨hpl, hset, hls⟩ := hboth _ hmem
      exact rebalanced_survivor hmin hR (hG.1 _ hmem) hpl hset hls

/-! ## The survivor comes back -/

/-- Copy `i` is down on disk `d` of node `n`, flagged as the last survivor of a
    partition that cannot be balanced. -/
structure Waiting (i n d : Nat) (e : PtEntry) : Prop where
  index : i < e.copyNum
  node : (e.copyList i).nodeId = n
  disk : (e.copyList i).diskId = d
  down : (e.copyList i).state = .down
  flag : (e.copyList i).keepAlive = true
  state : e.state ≠ .normal ∧ e.state ≠ .degradeLoss1

/-- A change that keeps the copy and leaves the partition faulty. -/
theorem Waiting.congr {i n d : Nat} {e e' : PtEntry} (h : Waiting i n d e)
    (hi : e'.copyList i = e.copyList i) (hn : e.copyNum ≤ e'.copyNum)
    (hs : e'.state ≠ .normal ∧ e'.state ≠ .degradeLoss1) :
    Waiting i n d e' := by
  refine ⟨Nat.lt_of_lt_of_le h.index hn, ?_, ?_, ?_, ?_, hs⟩
  · rw [hi]
    exact h.node
  · rw [hi]
    exact h.disk
  · rw [hi]
    exact h.down
  · rw [hi]
    exact h.flag

theorem runningNum_updatePtState (e : PtEntry) (a b : Nat) :
    (viewPtEntryUpdatePtState e a b).runningNum = e.runningNum :=
  runningNum_congr (updatePtState_copyNum e a b)
    (by intro i; rw [updatePtState_copyList])

/-- Without running copies the partition is faulty. -/
theorem updatePtState_faulty {e : PtEntry} {b : Nat}
    (h : e.runningNum = 0) :
    (viewPtEntryUpdatePtState e 1 b).state = .fault := by
  show ptStateOf e.runningNum 1 b = .fault
  rw [h]
  exact if_pos (by decide)

/-- While no copy runs, a report leaves the survivor waiting. -/
theorem waiting_touch {l : PtEntryList} {i n d : Nat} {e e' : PtEntry}
    (hmin : l.minCopyNum = 1) (ht : Touch l e e') (h : Waiting i n d e)
    (h0 : e.runningNum = 0) (h0' : e'.runningNum = 0) :
    Waiting i n d e' := by
  cases ht with
  | runningDown j hj hs =>
      exact absurd (mem_runningList.mpr ⟨hj, hs⟩) (runningNum_eq_zero h0 j)
  | recoveryDown j hj hs =>
      have hne : i ≠ j := by
        rintro rfl
        rw [h.down] at hs
        exact nomatch hs
      refine h.congr ?_ (Nat.le_refl _) h.state
      show (e.setState j .down).copyList i = _
      rw [setState_apply, if_neg hne]
  | backUp j hj hs =>
      have hupd : ∃ s, viewPtUpdateCopyState
          { e with referNum := e.referNum + 1 } j l.minCopyNum
          = ({ e with referNum := e.referNum + 1 }).setState j s ∧
          (j = i → s = .running) := by
        unfold viewPtUpdateCopyState
        have hzero : ({ e with referNum := e.referNum + 1 }
            : PtEntry).runningNum = 0 := h0
        rw [hmin, hzero, if_neg (by decide)]
        by_cases hflag : (e.copyList j).keepAlive = true
        · rw [if_pos hflag]
          exact ⟨_, rfl, fun _ => rfl⟩
        · rw [if_neg hflag]
          refine ⟨_, rfl, ?_⟩
          rintro rfl
          exact absurd h.flag hflag
      obtain ⟨s, heq, hrun⟩ := hupd
      rw [heq, hmin] at h0' ⊢
      rw [runningNum_updatePtState] at h0'
      by_cases hji : j = i
      · -- the survivor itself comes back: then it runs
        refine absurd ?_ (runningNum_eq_zero h0' j)
        rw [mem_runningList, setState_apply, if_pos rfl]
        exact ⟨hj, hrun hji⟩
      · refine h.congr ?_ ?_ ?_
        · rw [updatePtState_copyList, setState_apply,
            if_neg (fun hh => hji hh.symm)]
        · rw [updatePtState_copyNum]
          exact Nat.le_refl _
        · rw [updatePtState_faulty h0']
          exact ⟨nofun, nofun⟩
  | finished j hj hs hsat masterList nodeId validNum =>
      omega

/-- Without a running copy every finish report is refused. -/
theorem finishTouches_eq {l : PtEntryList} {e e' : PtEntry}
    (hmin : l.minCopyNum = 1) (h0 : e.runningNum = 0)
    (h : ReflTransGen (FinishTouch l) e e') : e' = e := by
  rcases ReflTransGen.cases_head h with heq | ⟨e₁, hfirst, -⟩
  · exact heq.symm
  · have := hfirst.satisfied
    omega

/-- A rebalance that does not find the survivor's disk expired leaves it
    waiting. -/
theorem waiting_rebalanced {core : CalcCore} {nodeList : NodeInfoList}
    {stateList : NodeStateList} {event : Option CmEventType}
    {version i n d : Nat} {G : Nat → PtEntry → List CalcElem → Prop}
    {e e' : PtEntry} (hmin : core.minCopyNum = 1)
    (h : Rebalanced core nodeList stateList event version G e e')
    (hfault : viewCalcCheckNodeIsFault nodeList stateList n d = false)
    (hp : Placed core.copyNum e) (hw : Waiting i n d e)
    (h0' : e'.runningNum = 0) : Waiting i n d e' := by
  obtain ⟨placed, hplacing, heq⟩ := h
  have hev := evicted_evictEntry core nodeList stateList version e
  have hs1 : Sparse core.copyNum
      (evictEntry core nodeList stateList version e) :=
    sparse_evictEntry hp.sparse
  have hw1 : Waiting i n d
      (evictEntry core nodeList stateList version e) := by
    refine hw.congr ?_ (Nat.le_of_eq hev.copyNum.symm) ?_
    · refine (hev.copies i).resolve_right ?_
      rintro ⟨-, hf⟩
      rw [hw.node, hw.disk, hfault] at hf
      exact Bool.noConfusion hf
    · rw [hev.state]
      exact hw.state
  have hrounds : ∀ k e₁, Placing core version G
      (evictEntry core nodeList stateList version e) k e₁ →
      k ≤ core.copyNum → Waiting i n d e₁ := by
    intro k e₁ hpl
    induction hpl with
    | start => intro _; exact hw1
    | round hprev hrefill hbal ih =>
        intro hk
        obtain ⟨hs2, -⟩ := placing_placed hprev (by omega) hs1
        have hw2 := ih (by omega)
        obtain ⟨busy, -, hb⟩ := hbal
        rename_i c e₁ e₂ e₃
        -- the refill skips the survivor's slot
        have hw3 : Waiting i n d e₂ := by
          rcases refill_cases hrefill with ⟨hsame, -⟩ | ⟨hb1, hx1, x, -, hfill⟩
          · rw [hsame]
            exact hw2
          · have hlive : (e₁.copyList i).state.live = true := by
              rw [hw2.down]
              rfl
            have hne : i ≠ c := by
              rintro rfl
              rw [hb1] at hlive
              exact Bool.noConfusion hlive
            have hne' : i ≠ c + core.copyNum := by
              rintro rfl
              exact hx1 ⟨hw2.index, hlive⟩
            rw [hfill]
            unfold fillCopy
            split
            · exact hw2.congr (setCopy_of_ne _ _ hne) (Nat.le_refl _)
                hw2.state
            · refine hw2.congr (setCopy_of_ne _ _ hne') ?_ hw2.state
              show e₁.copyNum ≤ core.copyNum * 2
              rcases hs2.extent with hx | hx
              · omega
              · omega
        rw [hb]
        rcases buildPtEntry1_cases core c e₂ version busy with
          ⟨-, hsame⟩ | ⟨index, x, htarget, -⟩
        · rw [hsame]
          exact hw3
        · -- a faulty partition is not balanced
          have hst := (preCheck_some (balanceTarget_some htarget).1).2.1
          rcases hst with hst | hst
          · exact absurd hst hw3.state.1
          · exact absurd hst hw3.state.2
  have hw4 := hrounds _ _ hplacing (Nat.le_refl _)
  have hdata : (placed.copyList i).holdsData = true := by
    unfold PtEntryCopy.holdsData
    rw [hw4.down, hw4.flag]
    rfl
  have hbound : i < 2 * core.copyNum := by
    obtain ⟨hs2, -⟩ := placing_placed hplacing (Nat.le_refl _) hs1
    have := hw4.index
    rcases hs2.extent with hx | hx
    · omega
    · omega
  have hpromote : promoteEntry core placed = placed := by
    have := survivorNum_pos hbound hdata
    unfold promoteEntry
    rw [if_neg (by omega)]
  obtain ⟨hcl, hcn⟩ := closeEntry_frame core event placed
  rw [hpromote] at hcl hcn
  have hzero : placed.runningNum = 0 := by
    rw [← h0', heq]
    exact (runningNum_congr hcn fun j => by rw [hcl]).symm
  rw [heq]
  refine hw4.congr (by rw [hcl]) (Nat.le_of_eq hcn.symm) ?_
  have hfs : (viewPtEntryUpdatePtState placed core.minCopyNum
      core.copyNum).state = .fault := by
    rw [hmin]
    exact updatePtState_faulty hzero
  unfold closeEntry bypassEntry
  rw [hpromote, hfs, if_neg (fun hh => nomatch hh.2), hfs]
  exact ⟨nofun, nofun⟩

theorem runningList_eq_singleton {e : PtEntry} {i : Nat}
    (h1 : e.runningNum = 1) (hi : i ∈ e.runningList) : e.runningList = [i] := by
  obtain ⟨a, ha⟩ := List.length_eq_one_iff.mp h1
  rw [ha] at hi ⊢
  rw [List.mem_singleton.mp hi]

/-- A running copy is not put down by a report about another copy. -/
theorem running_of_setState {e : PtEntry} {i j : Nat} {s : PtCopyState}
    (hne : i ≠ j) (k : Nat) (hrun : (e.copyList i).state = .running) :
    ((viewPtUpdateCopyKeepAlive (e.setState j s) k).copyList i).state
      = .running := by
  have hset : ((e.setState j s).copyList i).state = .running := by
    rw [setState_apply, if_neg hne]
    exact hrun
  rcases updateCopyKeepAlive_cases (e.setState j s) k with heq | ⟨b, heq⟩
  · rw [heq]
    exact hset
  · rw [heq, setRunningKeepAlive_apply]
    split
    · exact hset
    · exact hset

theorem trim_not_down {m : Nat} {e e' : PtEntry} {i : Nat}
    (ht : Trimmed m e e') (hrun : (e.copyList i).state = .running) :
    (e'.copyList i).state ≠ .down := by
  rw [ht.copyList, trimSlots_copyList e m (Nat.le_refl m) i]
  by_cases him : i < m
  · rw [if_pos him, trimmedBase, if_pos hrun, hrun]
    exact nofun
  · rw [if_neg him]
    by_cases hext : m ≤ i ∧ i < m + m
    · rw [if_pos hext, trimmedExt]
      have hback : i - m + m = i := by omega
      rw [hback]
      by_cases hbase : (e.copyList (i - m)).state = .running
      · rw [if_pos hbase, hrun]
        exact nofun
      · rw [if_neg hbase, if_pos hrun]
        exact nofun
    · rw [if_neg hext, hrun]
      exact nofun

/-- **THE SURVIVOR GOES DOWN**: it keeps its flag and waits. -/
theorem waiting_of_down {l : PtEntryList} {e e' : PtEntry} {i : Nat}
    (hmin : l.minCopyNum = 1) (ht : Touch l e e') (hl : LastSurvivor 1 e)
    (h1 : e.runningNum = 1) (hi : i ∈ e.runningList)
    (hdown : (e'.copyList i).state = .down) :
    e'.runningNum = 0 ∧
    Waiting i (e.copyList i).nodeId (e.copyList i).diskId e' := by
  have hrun := (mem_runningList.mp hi).2
  cases ht with
  | runningDown j hj hs =>
      have hji : j = i := by
        have hmem := mem_runningList.mpr ⟨hj, hs⟩
        rw [runningList_eq_singleton h1 hi] at hmem
        exact List.mem_singleton.mp hmem
      subst hji
      have hzero : ({ e.setState j .down with
          referNum := e.referNum + 1 } : PtEntry).runningNum = 0 := by
        show (e.setState j .down).runningList.length = 0
        rw [List.length_eq_zero_iff, List.eq_nil_iff_forall_not_mem]
        intro k hk
        obtain ⟨hne, hmem⟩ := (mem_runningList_setState (by decide)).mp hk
        rw [runningList_eq_singleton h1 hi] at hmem
        exact hne (List.mem_singleton.mp hmem)
      have heq : runningDown e j l.minCopyNum l.maxCopyNum
          = viewPtEntryUpdatePtState { e.setState j .down with
              referNum := e.referNum + 1 } 1 l.maxCopyNum := by
        unfold runningDown viewPtUpdateCopyKeepAlive
        dsimp only
        rw [hmin, hzero, if_neg (by decide), if_neg (by decide)]
      have hcopy : (runningDown e j l.minCopyNum l.maxCopyNum).copyList j
          = { e.copyList j with state := .down } := by
        rw [heq, updatePtState_copyList]
        show (e.setState j .down).copyList j = _
        rw [setState_apply, if_pos rfl]
      refine ⟨?_, ?_, ?_, ?_, ?_, ?_, ?_⟩
      · rw [heq, runningNum_updatePtState]
        exact hzero
      · rw [heq, updatePtState_copyNum]
        exact hj
      · rw [hcopy]
      · rw [hcopy]
      · rw [hcopy]
      · rw [hcopy]
        exact hl h1 j hi
      · rw [heq, updatePtState_faulty hzero]
        exact ⟨nofun, nofun⟩
  | recoveryDown j hj hs =>
      have hne : i ≠ j := by
        rintro rfl
        rw [hrun] at hs
        exact nomatch hs
      have hdown' : ((e.setState j .down).copyList i).state = .down := hdown
      rw [setState_apply, if_neg hne, hrun] at hdown'
      exact nomatch hdown'
  | backUp j hj hs =>
      have hne : i ≠ j := by
        rintro rfl
        rw [hrun] at hs
        exact nomatch hs
      rw [updatePtState_copyList] at hdown
      have hsame : (viewPtUpdateCopyState
          { e with referNum := e.referNum + 1 } j l.minCopyNum).copyList i
          = e.copyList i := by
        unfold viewPtUpdateCopyState
        split
        · rw [setState_apply, if_neg hne]
        · split
          · rw [setState_apply, if_neg hne]
          · rw [setState_apply, if_neg hne]
      rw [hsame, hrun] at hdown
      exact nomatch hdown
  | finished j hj hs hsat masterList nodeId validNum =>
      have hne : i ≠ j := by
        rintro rfl
        rw [hrun] at hs
        exact nomatch hs
      have hstart : ((finishStart e j l.minCopyNum).copyList i).state
          = .running := running_of_setState hne _ hrun
      rcases finishCopy_cases e j l masterList nodeId validNum with
        ⟨-, heq⟩ | ⟨-, htrim⟩
      · rw [heq, updatePtState_copyList, hstart] at hdown
        exact nomatch hdown
      · exact absurd hdown (trim_not_down htrim hstart)

/-- **THE SURVIVOR COMES BACK**: its node's healthy report makes it run. -/
theorem nodeUpEntry_waiting {m i n d : Nat} {e : PtEntry} {info : NodeInfo}
    (b : Nat) (hp : Placed m e) (hw : Waiting i n d e)
    (h0 : e.runningNum = 0)
    (hdisk : viewPtEntryCheckDiskFault info d = false) :
    ∃ e', nodeUpEntry n info 1 b e = some e' ∧
      (e'.copyList i).state = .running := by
  have hbound : i < 2 * m := by
    have := hw.index
    rcases hp.sparse.extent with hx | hx
    · omega
    · omega
  have hfind : (List.range e.copyNum).find? (fun j =>
      (e.copyList j).nodeId == n &&
      (if viewPtEntryCheckDiskFault info (e.copyList j).diskId then
        (e.copyList j).state == .running || (e.copyList j).state == .recovery
       else (e.copyList j).state == .down)) = some i := by
    have hsome : ((List.range e.copyNum).find? (fun j =>
        (e.copyList j).nodeId == n &&
        (if viewPtEntryCheckDiskFault info (e.copyList j).diskId then
          (e.copyList j).state == .running ||
          (e.copyList j).state == .recovery
         else (e.copyList j).state == .down))).isSome := by
      rw [List.find?_isSome]
      refine ⟨i, List.mem_range.mpr hw.index, ?_⟩
      simp [hw.node, hw.disk, hw.down, hdisk]
    obtain ⟨j, hj⟩ := Option.isSome_iff_exists.mp hsome
    rw [hj]
    -- whatever the search finds is a live copy on the node, hence copy `i`
    obtain ⟨hjlt, hjp⟩ := find_range hj
    rw [Bool.and_eq_true] at hjp
    have hnode : (e.copyList j).nodeId = n := by simpa using hjp.1
    have hlive : Live e j := by
      show PtCopyState.live _ = true
      have hst := hjp.2
      split at hst
      · rcases Bool.or_eq_true_iff.mp hst with hst | hst
        · rw [beq_iff_eq.mp hst]
          rfl
        · rw [beq_iff_eq.mp hst]
          rfl
      · rw [beq_iff_eq.mp hst]
        rfl
    have hlive' : Live e i := by
      show PtCopyState.live _ = true
      rw [hw.down]
      rfl
    have hjb : j < 2 * m := by
      rcases hp.sparse.extent with hx | hx
      · omega
      · omega
    rw [hp.sparse.distinct j hjb i hbound hlive hlive'
      (hnode.trans hw.node.symm)]
  unfold nodeUpEntry
  rw [hfind]
  refine ⟨_, rfl, ?_⟩
  dsimp only
  rw [if_pos hw.down, updatePtState_copyList]
  have hzero : ({ e with referNum := e.referNum + 1 } : PtEntry).runningNum
      = 0 := h0
  unfold viewPtUpdateCopyState
  rw [hzero, if_neg (by decide), if_pos hw.flag, setState_apply, if_pos rfl]

/-- No copy of partition `p` runs. -/
def NoneRunning (p : Nat) (l : PtEntryList) : Prop :=
  ∀ e, l.ptEntryList[p]? = some e → e.runningNum = 0

/-- The call does not find disk `d` of node `n` expired, and no copy of
    partition `p` runs after it. -/
def StaysLost (core : CalcCore) (p n d : Nat) (l : PtEntryList)
    (ev : Event) : Prop :=
  (∀ nodeList stateList event, ev = .rebalance nodeList stateList event →
    viewCalcCheckNodeIsFault nodeList stateList n d = false) ∧
  ∀ l', step core l ev = some l' → NoneRunning p l'

/-- Partition `p` waits for its last survivor. -/
def PtWaits (core : CalcCore) (p i n d : Nat) (l : PtEntryList) : Prop :=
  ViewPlaced core l ∧ ∃ e, l.ptEntryList[p]? = some e ∧ e.runningNum = 0 ∧
    Waiting i n d e

theorem ptWaits_step {core : CalcCore} {p i n d : Nat} {l l' : PtEntryList}
    {ev : Event} (hmin : core.minCopyNum = 1) (hl : PtWaits core p i n d l)
    (hG : StaysLost core p n d l ev) (h : step core l ev = some l') :
    PtWaits core p i n d l' := by
  obtain ⟨hv, e, hp, h0, hw⟩ := hl
  have hmin' : l.minCopyNum = 1 := hv.minCopyNum.trans hmin
  have hzero := hG.2 l' h
  refine ⟨viewPlaced_step hv h, ?_⟩
  cases ev with
  | nodeState nodeId state info =>
      rw [← Option.some.inj h] at hzero ⊢
      obtain ⟨e', hp', ht⟩ :=
        (nodeState_entries nodeId state info l).getElem? hp
      have h0' := hzero e' hp'
      refine ⟨e', hp', h0', ?_⟩
      cases ht with
      | refl => exact hw
      | single ht => exact waiting_touch hmin' ht hw h0 h0'
  | finish nodeId ptList nodeNum validNum =>
      rw [← Option.some.inj h]
      obtain ⟨e', hp', ht⟩ :=
        (finish_entries nodeId ptList l nodeNum validNum).getElem? hp
      rw [finishTouches_eq hmin' h0 ht] at hp'
      exact ⟨e, hp', h0, hw⟩
  | rebalance nodeList stateList event =>
      obtain ⟨-, hent⟩ := rebalance_entries
        (balanceGuarded_any core nodeList stateList _ _ _) h
      obtain ⟨e', hp', hR⟩ := hent.getElem? hp
      have h0' := hzero e' hp'
      have hmem := List.mem_of_getElem? hp
      exact ⟨e', hp', h0', waiting_rebalanced hmin hR
        (hG.1 nodeList stateList event rfl) (hv.entries e hmem) hw h0'⟩

/-- **LAST SURVIVOR**: in every run whose rebalances keep the survivors, a
    partition with a single running copy has it flagged; and if that copy goes
    down, it runs again at the next healthy report of its node, as long as
    meanwhile no copy ran and its disk did not expire. -/
theorem last_survivor_of_guarded_run {core : CalcCore}
    (hcopy : core.copyNum = 2 ∨ core.copyNum = 3) (hmin : core.minCopyNum = 1)
    {nodeList : NodeInfoList} {stateList : NodeStateList} {version : Nat}
    {l₀ l : PtEntryList} {events : List Event}
    (hinit : viewCalculatorInitial core nodeList stateList version = some l₀)
    (hG : Along (step core) (KeepsSurvivors core) l₀ events)
    (hrun : runFrom (step core) l₀ events = some l) :
    (∀ e ∈ l.ptEntryList, e.runningNum = l.minCopyNum →
      ∀ i < e.copyNum, (e.copyList i).state = .running →
        (e.copyList i).keepAlive = true) ∧
    ∀ (nodeId : Nat) (state : NodeState) (info info' : NodeInfo)
      (l₁ l₂ : PtEntryList) (p i : Nat) (e e₁ : PtEntry) (mid : List Event),
      -- the last running copy of partition `p` goes down ...
      l.ptEntryList[p]? = some e → e.runningNum = 1 → i < e.copyNum →
      (e.copyList i).state = .running →
      step core l (.nodeState nodeId state info) = some l₁ →
      l₁.ptEntryList[p]? = some e₁ → (e₁.copyList i).state = .down →
      -- ... no copy runs and its disk does not expire for a while ...
      Along (step core) (StaysLost core p (e.copyList i).nodeId
        (e.copyList i).diskId) l₁ mid →
      runFrom (step core) l₁ mid = some l₂ →
      -- ... and its node comes back in good health
      viewPtEntryCheckNetFault info' = false →
      viewPtEntryCheckDiskFault info' (e.copyList i).diskId = false →
      ∃ l₃ e₃, step core l₂ (.nodeState (e.copyList i).nodeId .up info')
          = some l₃ ∧
        l₃.ptEntryList[p]? = some e₃ ∧ (e₃.copyList i).state = .running := by
  have hcopy' : 2 ≤ core.copyNum := by omega
  have hv : ViewSurvives core l :=
    runFrom_invariant_along
      (fun s ev s' hI hg hs => viewSurvives_step hcopy' hmin hI hg hs)
      events l₀ l (viewSurvives_initial hcopy' hinit) hG hrun
  have hmin' : l.minCopyNum = 1 := hv.placed.minCopyNum.trans hmin
  constructor
  · intro e he hnum i hi hr
    rw [hmin'] at hnum
    exact (hv.entries e he).2 hnum i (mem_runningList.mpr ⟨hi, hr⟩)
  · intro nodeId state info info' l₁ l₂ p i e e₁ mid hp h1 hi hr hstep hp₁
      hdown hmid hrun₂ hnet hdisk
    have hsurv := (hv.entries e (List.mem_of_getElem? hp)).2
    have hstep' := Option.some.inj hstep
    obtain ⟨e₁', hp₁', ht⟩ :=
      (nodeState_entries nodeId state info l).getElem? hp
    rw [hstep', hp₁] at hp₁'
    rw [← Option.some.inj hp₁'] at ht
    have hwait : PtWaits core p i (e.copyList i).nodeId
        (e.copyList i).diskId l₁ := by
      refine ⟨viewPlaced_step hv.placed hstep, e₁, hp₁, ?_⟩
      cases ht with
      | refl =>
          rw [hr] at hdown
          exact nomatch hdown
      | single ht =>
          exact waiting_of_down hmin' ht hsurv h1
            (mem_runningList.mpr ⟨hi, hr⟩) hdown
    obtain ⟨hv₂, e₂, hp₂, h0, hw⟩ := runFrom_invariant_along
      (fun s ev s' hI hg hs => ptWaits_step hmin hI hg hs) mid l₁ l₂ hwait
      hmid hrun₂
    obtain ⟨e₃, hup, hrun₃⟩ := nodeUpEntry_waiting l₂.maxCopyNum
      (hv₂.entries e₂ (List.mem_of_getElem? hp₂)) hw h0 hdisk
    refine ⟨_, e₃, rfl, ?_, hrun₃⟩
    show (viewPtEntryListUpdateNodeUp _ info' l₂).1.ptEntryList[p]? = some e₃
    unfold viewPtEntryListUpdateNodeUp
    rw [hnet, if_neg (by decide)]
    show (l₂.ptEntryList.map _)[p]? = some e₃
    rw [List.getElem?_map, hp₂, hv₂.minCopyNum, hmin]
    show some ((nodeUpEntry _ info' 1 l₂.maxCopyNum e₂).getD e₂) = some e₃
    rw [hup]
    rfl

/-! ## A survivor that is forgotten -/

/-- Four partitions of three copies. -/
def threeCopyCore : CalcCore where
  elemNum := 16
  ptNum := 4
  copyNum := 3
  minCopyNum := 1
  diskNum := 0

/-- Three nodes hold the copies.  Node 1 fails; then a fourth node joins, and
    the rebalance moves one of the two running copies of partition 0 to it. -/
def forgottenRun : Option PtEntryList :=
  runPool threeCopyCore (uniformPool 4)
    (poolStates [(.up, .stateIn), (.up, .stateIn), (.up, .stateIn),
      (.invalid, .invalid)])
    [.nodeState 1 .down ⟨[], []⟩,
     .rebalance (uniformPool 4) (poolStates
      [(.up, .stateIn), (.down, .stateIn), (.up, .stateIn), (.up, .stateIn)])
      none]

/-- The single running copy of partition 0 is not flagged, and after a fault
    of its node it recovers instead of running. -/
theorem last_survivor_forgotten :
    ∃ l, Reachable threeCopyCore l ∧
      ∃ e i, l.ptEntryList[0]? = some e ∧ e.runningNum = l.minCopyNum ∧
        i < e.copyNum ∧ (e.copyList i).state = .running ∧
        (e.copyList i).keepAlive = false ∧
        ∃ l' e', runFrom (step threeCopyCore) l
            [.nodeState (e.copyList i).nodeId .down ⟨[], []⟩,
             .nodeState (e.copyList i).nodeId .up ⟨[⟨0, .normal⟩], []⟩]
            = some l' ∧
          l'.ptEntryList[0]? = some e' ∧
          (e'.copyList i).state = .recovery := by
  have hcheck : forgottenRun.any (fun l => (l.ptEntryList[0]?).any fun e =>
      e.runningNum == l.minCopyNum && decide (0 < e.copyNum) &&
      (e.copyList 0).state == .running && !(e.copyList 0).keepAlive &&
      (runFrom (step threeCopyCore) l
        [.nodeState (e.copyList 0).nodeId .down ⟨[], []⟩,
         .nodeState (e.copyList 0).nodeId .up ⟨[⟨0, .normal⟩], []⟩]).any
        fun l' => (l'.ptEntryList[0]?).any fun e' =>
          (e'.copyList 0).state == .recovery) = true := by decide +kernel
  obtain ⟨l, hl, hany⟩ := (Option.any_eq_true _ _).mp hcheck
  obtain ⟨e, he, hall⟩ := (Option.any_eq_true _ _).mp hany
  simp only [Bool.and_eq_true, beq_iff_eq, decide_eq_true_eq,
    Bool.not_eq_true'] at hall
  obtain ⟨⟨⟨⟨hnum, hlt⟩, hrun⟩, hflag⟩, hafter⟩ := hall
  obtain ⟨l', hl', hany'⟩ := (Option.any_eq_true _ _).mp hafter
  obtain ⟨e', he', hrec⟩ := (Option.any_eq_true _ _).mp hany'
  exact ⟨l, reachable_runPool hl, e, 0, he, hnum, hlt, hrun, hflag, l', e',
    hl', he', beq_iff_eq.mp hrec⟩

/-- A guarded run: the eviction of a copy that was down already. -/
theorem last_survivor_of_guarded_run_expired :
    ∃ l, expiredRun = some l ∧
      ∀ e ∈ l.ptEntryList, e.runningNum = l.minCopyNum →
        ∀ i < e.copyNum, (e.copyList i).state = .running →
          (e.copyList i).keepAlive = true := by
  have hsome : expiredRun.isSome = true := by decide +kernel
  obtain ⟨l, hl⟩ := Option.isSome_iff_exists.mp hsome
  obtain ⟨l₀, hinit, hrun⟩ := runPool_some hl
  refine ⟨l, hl, ?_⟩
  have hevict : (viewCalculatorInitial twoCopyCore (uniformPool 3)
      (poolStates [(.up, .stateIn), (.up, .stateIn), (.up, .stateIn)])
      0).all (fun l₀ =>
        (viewPtEntryListUpdateNodeState 0 .down ⟨[], []⟩
          l₀).1.ptEntryList.all fun e =>
        decide (twoCopyCore.minCopyNum < e.runningNum →
          (unexpired (uniformPool 3) (poolStates
            [(.down, .stateOut), (.up, .stateIn), (.up, .stateIn)])
            e).length ≠ twoCopyCore.minCopyNum)) = true := by
    decide +kernel
  rw [hinit] at hevict
  refine (last_survivor_of_guarded_run (Or.inl rfl) rfl hinit ?_ hrun).1
  refine ⟨trivial, ?_⟩
  intro l₁ hl₁
  rw [← Option.some.inj hl₁]
  refine ⟨⟨?_, ?_⟩, fun _ _ => trivial⟩
  · intro e he
    exact of_decide_eq_true (List.all_eq_true.mp hevict e he)
  · exact fun _ _ _ _ _ _ =>
      visits_of_forall (fun _ _ => Or.inl rfl) _ _

end UbsIo.Pt
