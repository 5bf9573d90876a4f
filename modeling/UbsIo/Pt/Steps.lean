import UbsIo.Pt.Calc

/-! # What one call does to one entry

    The functions of the view rewrite every partition entry independently of
    the others; only the choice of disks depends on the rest of the list.  This
    file says once what a call can do to an entry, guards included, and every
    invariant of the view is derived from these statements:

    * `Touch` is one node report or finish report acting on an entry;
      `step_local` lifts it to the whole view;
    * `Refill`, `Balance` and `Placing` are the rounds of a rebalance acting on
      an entry, the busy list being whatever it is; `rebalance_entries` lifts
      them. -/

namespace UbsIo.Pt

open UbsIo.Lib Relation

/-! ## Reading an entry after an update -/

@[simp] theorem setCopy_same (e : PtEntry) (i : Nat) (c : PtEntryCopy) :
    (e.setCopy i c).copyList i = c := by
  simp [PtEntry.setCopy]

theorem setCopy_of_ne (e : PtEntry) {i j : Nat} (c : PtEntryCopy)
    (h : j ≠ i) : (e.setCopy i c).copyList j = e.copyList j := by
  simp [PtEntry.setCopy, h]

theorem setCopy_apply (e : PtEntry) (i j : Nat) (c : PtEntryCopy) :
    (e.setCopy i c).copyList j = if j = i then c else e.copyList j := by
  by_cases h : j = i
  · rw [if_pos h, h, setCopy_same]
  · rw [if_neg h, setCopy_of_ne e c h]

theorem setState_apply (e : PtEntry) (i j : Nat) (s : PtCopyState) :
    (e.setState i s).copyList j
      = if j = i then { e.copyList i with state := s } else e.copyList j :=
  setCopy_apply e i j _

theorem setRunningKeepAlive_apply (e : PtEntry) (b : Bool) (i : Nat) :
    (e.setRunningKeepAlive b).copyList i
      = if i < e.copyNum ∧ (e.copyList i).state = .running then
          { e.copyList i with keepAlive := b }
        else e.copyList i := rfl

/-- Choosing a master rewrites neither copies nor counters. -/
theorem updateMaster_frame (e : PtEntry) :
    e.updateMaster.copyList = e.copyList ∧
    e.updateMaster.copyNum = e.copyNum ∧
    e.updateMaster.birthVersion = e.birthVersion ∧
    e.updateMaster.referNum = e.referNum := by
  unfold PtEntry.updateMaster
  split
  · exact ⟨rfl, rfl, rfl, rfl⟩
  · split
    · exact ⟨rfl, rfl, rfl, rfl⟩
    · exact ⟨rfl, rfl, rfl, rfl⟩

@[simp] theorem updatePtState_copyList (e : PtEntry) (m n : Nat) :
    (viewPtEntryUpdatePtState e m n).copyList = e.copyList :=
  (updateMaster_frame e).1

@[simp] theorem updatePtState_copyNum (e : PtEntry) (m n : Nat) :
    (viewPtEntryUpdatePtState e m n).copyNum = e.copyNum :=
  (updateMaster_frame e).2.1

/-- The flags of a partition's running copies are the only thing
    `ViewPtUpdateCopyKeepAlive` can change. -/
theorem updateCopyKeepAlive_cases (e : PtEntry) (m : Nat) :
    viewPtUpdateCopyKeepAlive e m = e ∨
    ∃ b, viewPtUpdateCopyKeepAlive e m = e.setRunningKeepAlive b := by
  unfold viewPtUpdateCopyKeepAlive
  split
  · exact Or.inr ⟨true, rfl⟩
  · split
    · exact Or.inr ⟨false, rfl⟩
    · exact Or.inl rfl

/-! ## The running copies -/

theorem mem_runningList {e : PtEntry} {i : Nat} :
    i ∈ e.runningList ↔ i < e.copyNum ∧ (e.copyList i).state = .running := by
  simp [PtEntry.runningList]

theorem runningList_nodup (e : PtEntry) : e.runningList.Nodup :=
  List.Nodup.filter _ List.nodup_range

/-- Entries that agree on states and extent have the same running copies. -/
theorem runningNum_congr {e e' : PtEntry} (hn : e'.copyNum = e.copyNum)
    (hs : ∀ i, (e'.copyList i).state = (e.copyList i).state) :
    e'.runningNum = e.runningNum := by
  have : e'.runningList = e.runningList := by
    unfold PtEntry.runningList
    rw [hn]
    refine List.filter_congr ?_
    intro i _
    rw [hs i]
  exact congrArg List.length this

/-! ## The trim -/

/-- The loop of the trim rewrites copies only. -/
theorem trimSlots_frame (m : Nat) (e : PtEntry) (is : List Nat) :
    (is.foldl (trimSlot m) e).birthVersion = e.birthVersion ∧
    (is.foldl (trimSlot m) e).referNum = e.referNum := by
  induction is generalizing e with
  | nil => exact ⟨rfl, rfl⟩
  | cons i is ih =>
      have hone : (trimSlot m e i).birthVersion = e.birthVersion ∧
          (trimSlot m e i).referNum = e.referNum := by
        unfold trimSlot
        split
        · exact ⟨rfl, rfl⟩
        · split
          · exact ⟨rfl, rfl⟩
          · exact ⟨rfl, rfl⟩
      rw [List.foldl_cons, (ih _).1, (ih _).2]
      exact hone

/-- What a successful trim makes of an entry. -/
structure Trimmed (m : Nat) (e e' : PtEntry) : Prop where
  copyList : e'.copyList = ((List.range m).foldl (trimSlot m) e).copyList
  copyNum : e'.copyNum = m
  state : e'.state = .normal
  birthVersion : e'.birthVersion = e.birthVersion
  referNum : e.referNum ≤ e'.referNum

theorem trimMaster_trimmed {m : Nat} {e e' : PtEntry} (h : Trimmed m e e')
    (ptNum : Nat) (masterList : Nat → Nat) (nodeId validNum : Nat) :
    Trimmed m e (trimMaster e' m ptNum masterList nodeId validNum).1 := by
  unfold trimMaster
  split
  · exact h
  · split
    · exact ⟨h.copyList, h.copyNum, h.state, h.birthVersion,
        Nat.le_succ_of_le h.referNum⟩
    · exact h

theorem viewPtEntryTrim_cases (e : PtEntry) (m ptNum : Nat)
    (masterList : Nat → Nat) (nodeId validNum : Nat) :
    (e.runningNum ≠ m ∧
      viewPtEntryTrim e m ptNum masterList nodeId validNum = none) ∨
    (e.runningNum = m ∧ ∃ r,
      viewPtEntryTrim e m ptNum masterList nodeId validNum = some r ∧
      Trimmed m e r.1) := by
  unfold viewPtEntryTrim
  by_cases hr : e.runningNum = m
  · refine Or.inr ⟨hr, ?_⟩
    rw [if_neg (not_not.mpr hr)]
    have hbase : Trimmed m e { (List.range m).foldl (trimSlot m) e with
        state := .normal, copyNum := m } :=
      ⟨rfl, rfl, rfl, (trimSlots_frame m e _).1,
        Nat.le_of_eq (trimSlots_frame m e _).2.symm⟩
    by_cases hv : validNum = 0
    · exact ⟨_, if_pos hv, hbase⟩
    · exact ⟨_, if_neg hv, trimMaster_trimmed hbase _ _ _ _⟩
  · exact Or.inl ⟨hr, if_pos hr⟩

/-- The entry of a finish report just before the trim: the copy runs and the
    flags are up to date. -/
def finishStart (e : PtEntry) (i minCopyNum : Nat) : PtEntry :=
  viewPtUpdateCopyKeepAlive (e.setState i .running) minCopyNum

/-- A finish report ends in a trim or in an update of the partition state. -/
theorem finishCopy_cases (e : PtEntry) (i : Nat) (l : PtEntryList)
    (masterList : Nat → Nat) (nodeId validNum : Nat) :
    ((finishStart e i l.minCopyNum).runningNum ≠ l.maxCopyNum ∧
      (finishCopy e i l masterList nodeId validNum).1
        = viewPtEntryUpdatePtState (finishStart e i l.minCopyNum)
            l.minCopyNum l.maxCopyNum) ∨
    ((finishStart e i l.minCopyNum).runningNum = l.maxCopyNum ∧
      Trimmed l.maxCopyNum (finishStart e i l.minCopyNum)
        (finishCopy e i l masterList nodeId validNum).1) := by
  show _ ∨ _
  unfold finishCopy
  rcases viewPtEntryTrim_cases (finishStart e i l.minCopyNum) l.maxCopyNum
      l.ptEntryList.length masterList nodeId validNum with
    ⟨hne, hnone⟩ | ⟨heq, r, hsome, htrim⟩
  · refine Or.inl ⟨hne, ?_⟩
    unfold finishStart at hnone
    simp only [hnone]
    rfl
  · refine Or.inr ⟨heq, ?_⟩
    unfold finishStart at hsome
    simp only [hsome]
    exact htrim

/-! ## Node and finish reports -/

/-- One report acting on one entry.  The list `l` supplies the bounds, and for
    a finish report the sizes that decide the master election. -/
inductive Touch (l : PtEntryList) (e : PtEntry) : PtEntry → Prop where
  | runningDown (i : Nat) (hi : i < e.copyNum)
      (hs : (e.copyList i).state = .running) :
      Touch l e (runningDown e i l.minCopyNum l.maxCopyNum)
  | recoveryDown (i : Nat) (hi : i < e.copyNum)
      (hs : (e.copyList i).state = .recovery) :
      Touch l e (recoveryDown e i)
  | backUp (i : Nat) (hi : i < e.copyNum)
      (hs : (e.copyList i).state = .down) :
      Touch l e (viewPtEntryUpdatePtState
        (viewPtUpdateCopyState { e with referNum := e.referNum + 1 } i
          l.minCopyNum) l.minCopyNum l.maxCopyNum)
  | finished (i : Nat) (hi : i < e.copyNum)
      (hs : (e.copyList i).state = .recovery)
      (hsat : l.minCopyNum ≤ e.runningNum)
      (masterList : Nat → Nat) (nodeId validNum : Nat) :
      Touch l e (finishCopy e i l masterList nodeId validNum).1

/-- A search over the indices of an entry finds one that satisfies the test. -/
theorem find_range {n i : Nat} {p : Nat → Bool}
    (h : (List.range n).find? p = some i) : i < n ∧ p i = true :=
  ⟨List.mem_range.mp (List.mem_of_find?_eq_some h), List.find?_some h⟩

theorem nodeDownEntry_touch {l : PtEntryList} {nodeId : Nat} {e e' : PtEntry}
    (h : nodeDownEntry nodeId l.minCopyNum l.maxCopyNum e = some e') :
    Touch l e e' := by
  unfold nodeDownEntry at h
  obtain ⟨i, hfind, heq⟩ := Option.map_eq_some_iff.mp h
  obtain ⟨hi, hp⟩ := find_range hfind
  rw [Bool.and_eq_true] at hp
  by_cases hrun : (e.copyList i).state = .running
  · rw [if_pos hrun] at heq
    rw [← heq]
    exact Touch.runningDown i hi hrun
  · rw [if_neg hrun] at heq
    rw [← heq]
    have hrec : (e.copyList i).state = .recovery := by
      simpa [hrun] using hp.2
    exact Touch.recoveryDown i hi hrec

theorem nodeUpEntry_touch {l : PtEntryList} {nodeId : Nat} {info : NodeInfo}
    {e e' : PtEntry}
    (h : nodeUpEntry nodeId info l.minCopyNum l.maxCopyNum e = some e') :
    Touch l e e' := by
  unfold nodeUpEntry at h
  obtain ⟨i, hfind, heq⟩ := Option.map_eq_some_iff.mp h
  obtain ⟨hi, hp⟩ := find_range hfind
  rw [Bool.and_eq_true] at hp
  by_cases hdown : (e.copyList i).state = .down
  · rw [if_pos hdown] at heq
    rw [← heq]
    exact Touch.backUp i hi hdown
  · rw [if_neg hdown] at heq
    by_cases hrun : (e.copyList i).state = .running
    · rw [if_pos hrun] at heq
      rw [← heq]
      exact Touch.runningDown i hi hrun
    · rw [if_neg hrun] at heq
      rw [← heq]
      have hrec : (e.copyList i).state = .recovery := by
        have h2 := hp.2
        split at h2
        · simpa [hrun] using h2
        · exact absurd (by simpa using h2) hdown
      exact Touch.recoveryDown i hi hrec

/-- One accepted item of a finish report: a recovering copy starts to run. -/
structure FinishTouch (l : PtEntryList) (e e' : PtEntry) : Prop where
  satisfied : l.minCopyNum ≤ e.runningNum
  finished : ∃ i masterList nodeId validNum, i < e.copyNum ∧
    (e.copyList i).state = .recovery ∧
    e' = (finishCopy e i l masterList nodeId validNum).1

theorem FinishTouch.touch {l : PtEntryList} {e e' : PtEntry}
    (h : FinishTouch l e e') : Touch l e e' := by
  obtain ⟨i, masterList, nodeId, validNum, hi, hs, heq⟩ := h.finished
  rw [heq]
  exact Touch.finished i hi hs h.satisfied masterList nodeId validNum

theorem finishEntry_touch {l : PtEntryList} {nodeId validNum b : Nat}
    {masterList : Nat → Nat} {e : PtEntry} {r : PtEntry × (Nat → Nat)}
    (h : finishEntry nodeId validNum b l masterList e = some r) :
    e.birthVersion = b ∧ FinishTouch l e r.1 ∧
    ∃ i < e.copyNum, (e.copyList i).nodeId = nodeId ∧
      (e.copyList i).state = .recovery := by
  unfold finishEntry at h
  by_cases hb : e.birthVersion ≠ b
  · rw [if_pos hb] at h
    exact nomatch h
  · rw [if_neg hb] at h
    by_cases hs : viewPtSatisfiedCopyNum e l.minCopyNum = false
    · rw [if_pos hs] at h
      exact nomatch h
    · rw [if_neg hs] at h
      obtain ⟨i, hfind, heq⟩ := Option.map_eq_some_iff.mp h
      obtain ⟨hi, hp⟩ := find_range hfind
      have hsat : l.minCopyNum ≤ e.runningNum := by
        simpa [viewPtSatisfiedCopyNum] using hs
      rw [Bool.and_eq_true] at hp
      have hnode : (e.copyList i).nodeId = nodeId := by simpa using hp.1
      have hrec : (e.copyList i).state = .recovery := by simpa using hp.2
      refine ⟨not_not.mp hb, ⟨hsat, ?_⟩, i, hi, hnode, hrec⟩
      rw [← heq]
      exact ⟨i, masterList, nodeId, validNum, hi, hrec, rfl⟩

/-- Two views with the same bounds and the same number of partitions. -/
structure SameShape (l l' : PtEntryList) : Prop where
  maxCopyNum : l'.maxCopyNum = l.maxCopyNum
  minCopyNum : l'.minCopyNum = l.minCopyNum
  length : l'.ptEntryList.length = l.ptEntryList.length

theorem SameShape.rfl' (l : PtEntryList) : SameShape l l := ⟨rfl, rfl, rfl⟩

theorem SameShape.trans {l₁ l₂ l₃ : PtEntryList} (h₁ : SameShape l₁ l₂)
    (h₂ : SameShape l₂ l₃) : SameShape l₁ l₃ :=
  ⟨h₂.maxCopyNum.trans h₁.maxCopyNum, h₂.minCopyNum.trans h₁.minCopyNum,
   h₂.length.trans h₁.length⟩

/-- A finish report depends on the list only through its shape. -/
theorem FinishTouch.congr {l l' : PtEntryList} (hl : SameShape l l')
    {e e' : PtEntry} (h : FinishTouch l' e e') : FinishTouch l e e' := by
  obtain ⟨i, masterList, nodeId, validNum, hi, hs, heq⟩ := h.finished
  have hsat := h.satisfied
  rw [hl.minCopyNum] at hsat
  refine ⟨hsat, i, masterList, nodeId, validNum, hi, hs, ?_⟩
  rw [heq]
  unfold finishCopy
  rw [hl.minCopyNum, hl.maxCopyNum, hl.length]

/-- Entries of the two lists correspond by `R`, and the shape is kept. -/
structure Entrywise (R : PtEntry → PtEntry → Prop) (l l' : PtEntryList) :
    Prop where
  shape : SameShape l l'
  entries : List.Forall₂ R l.ptEntryList l'.ptEntryList

theorem updateEntries_entrywise {l : PtEntryList}
    {f : PtEntry → Option PtEntry}
    (hf : ∀ e e', f e = some e' → Touch l e e') :
    Entrywise (ReflGen (Touch l)) l (updateEntries f l).1 := by
  refine ⟨⟨rfl, rfl, List.length_map _⟩, ?_⟩
  show List.Forall₂ _ l.ptEntryList (l.ptEntryList.map fun e => (f e).getD e)
  rw [List.forall₂_map_right_iff, List.forall₂_same]
  intro e _
  cases hfe : f e with
  | none => exact ReflGen.refl
  | some e' => exact ReflGen.single (hf e e' hfe)

/-- A weaker relation of the entries. -/
theorem Entrywise.imp {R S : PtEntry → PtEntry → Prop} {l l' : PtEntryList}
    (h : Entrywise R l l') (hRS : ∀ e e', R e e' → S e e') :
    Entrywise S l l' :=
  ⟨h.shape, h.entries.imp fun e e' hr => hRS e e' hr⟩

/-- The entry of a partition after a call is related to the one before. -/
theorem Entrywise.getElem? {R : PtEntry → PtEntry → Prop} {l l' : PtEntryList}
    (h : Entrywise R l l') {p : Nat} {e : PtEntry}
    (hp : l.ptEntryList[p]? = some e) :
    ∃ e', l'.ptEntryList[p]? = some e' ∧ R e e' := by
  obtain ⟨hlt, hget⟩ := List.getElem?_eq_some_iff.mp hp
  have hlt' : p < l'.ptEntryList.length := by
    rw [h.shape.length]
    exact hlt
  refine ⟨l'.ptEntryList[p], List.getElem?_eq_getElem hlt', ?_⟩
  rw [← hget]
  exact h.entries.get hlt hlt'

/-- Replacing one entry by a finished one. -/
theorem set_entrywise {l : PtEntryList} {k : Nat} {e e' : PtEntry}
    (hk : l.ptEntryList[k]? = some e) (he : FinishTouch l e e') :
    Entrywise (ReflTransGen (FinishTouch l)) l
      { l with ptEntryList := l.ptEntryList.set k e' } := by
  refine ⟨⟨rfl, rfl, List.length_set⟩, ?_⟩
  rw [List.forall₂_iff_get]
  refine ⟨List.length_set.symm, ?_⟩
  intro i h₁ h₂
  by_cases hik : k = i
  · subst hik
    have hget : l.ptEntryList.get ⟨k, h₁⟩ = e := by
      rw [List.getElem?_eq_getElem h₁] at hk
      exact Option.some.inj hk
    have hset : (l.ptEntryList.set k e').get ⟨k, h₂⟩ = e' :=
      List.getElem_set_self _
    rw [hget, hset]
    exact ReflTransGen.single he
  · simp only [List.get_eq_getElem, List.getElem_set_ne hik]
    exact ReflTransGen.refl

theorem Entrywise.trans {l₁ l₂ l₃ : PtEntryList}
    (h₁ : Entrywise (ReflTransGen (FinishTouch l₁)) l₁ l₂)
    (h₂ : Entrywise (ReflTransGen (FinishTouch l₂)) l₂ l₃) :
    Entrywise (ReflTransGen (FinishTouch l₁)) l₁ l₃ := by
  refine ⟨h₁.shape.trans h₂.shape, ?_⟩
  have hlift : ∀ a b, ReflTransGen (FinishTouch l₂) a b →
      ReflTransGen (FinishTouch l₁) a b :=
    fun a b hab => ReflTransGen.mono
      (fun _ _ ht => FinishTouch.congr h₁.shape ht) a b hab
  exact forall₂_comp (fun a b c hab hbc => hab.trans (hlift b c hbc))
    h₁.entries h₂.entries

theorem finishItem_entrywise (nodeId validNum : Nat)
    (st : PtEntryList × (Nat → Nat) × Bool) (f : CmPtFinish) :
    Entrywise (ReflTransGen (FinishTouch st.1)) st.1
      (finishItem nodeId validNum st f).1 := by
  have hrefl : Entrywise (ReflTransGen (FinishTouch st.1)) st.1 st.1 :=
    ⟨SameShape.rfl' _, List.forall₂_same.mpr fun _ _ => ReflTransGen.refl⟩
  unfold finishItem
  split
  · exact hrefl
  · rename_i e he
    split
    · exact hrefl
    · rename_i e' masterList hfin
      exact set_entrywise he (finishEntry_touch hfin).2.1

/-- **NODE REPORTS**: a node report touches each entry at most once. -/
theorem nodeState_entries (nodeId : Nat) (state : NodeState)
    (info : NodeInfo) (l : PtEntryList) :
    Entrywise (ReflGen (Touch l)) l
      (viewPtEntryListUpdateNodeState nodeId state info l).1 := by
  have hdown : Entrywise (ReflGen (Touch l)) l
      (viewPtEntryListUpdateNodeDown nodeId l).1 :=
    updateEntries_entrywise fun _ _ => nodeDownEntry_touch
  cases state with
  | down => exact hdown
  | up =>
      show Entrywise _ l (viewPtEntryListUpdateNodeUp nodeId info l).1
      unfold viewPtEntryListUpdateNodeUp
      split
      · exact hdown
      · exact updateEntries_entrywise fun _ _ => nodeUpEntry_touch
  | invalid =>
      exact ⟨SameShape.rfl' l, List.forall₂_same.mpr fun _ _ => ReflGen.refl⟩

/-- The loop over the items of a report. -/
theorem finishItems_entrywise (nodeId validNum : Nat) :
    ∀ (items : List CmPtFinish) (st : PtEntryList × (Nat → Nat) × Bool),
      Entrywise (ReflTransGen (FinishTouch st.1)) st.1
        (items.foldl (finishItem nodeId validNum) st).1 := by
  intro items
  induction items with
  | nil =>
      intro st
      exact ⟨SameShape.rfl' _,
        List.forall₂_same.mpr fun _ _ => ReflTransGen.refl⟩
  | cons f items ih =>
      intro st
      exact (finishItem_entrywise nodeId validNum st f).trans (ih _)

/-- **FINISH REPORTS**: a list of finish reports acts on each entry by
    accepted items, one after another. -/
theorem finish_entries (nodeId : Nat) (ptList : List CmPtFinish)
    (l : PtEntryList) (nodeNum validNum : Nat) :
    Entrywise (ReflTransGen (FinishTouch l)) l
      (viewPtEntryListUpdateNodeFinish nodeId ptList l nodeNum validNum).1 :=
  finishItems_entrywise nodeId validNum ptList
    (l, genMasterList l nodeNum, false)

/-- **LOCAL STEPS**: a node report or a list of finish reports keeps the shape
    of the view and touches each entry finitely often. -/
theorem step_local {core : CalcCore} {l l' : PtEntryList} {ev : Event}
    (hev : ∀ nl sl c, ev ≠ .rebalance nl sl c)
    (h : step core l ev = some l') :
    Entrywise (ReflTransGen (Touch l)) l l' := by
  cases ev with
  | nodeState nodeId state info =>
      rw [← Option.some.inj h]
      exact (nodeState_entries nodeId state info l).imp
        fun _ _ ht => ht.to_reflTransGen
  | finish nodeId ptList nodeNum validNum =>
      rw [← Option.some.inj h]
      exact (finish_entries nodeId ptList l nodeNum validNum).imp
        fun e e' ht => ReflTransGen.mono (fun _ _ hf => hf.touch) e e' ht
  | rebalance nl sl c => exact absurd rfl (hev nl sl c)

/-! ## The rounds of a rebalance -/

/-- The refill visit of round `c`, whatever the loads are. -/
def Refill (core : CalcCore) (c : Nat) (e e' : PtEntry) : Prop :=
  ∃ busy busy', refillVisit core c e busy = some (e', busy')

/-- The balance visit of round `c` made in a busy list that meets `G`. -/
def Balance (core : CalcCore) (version : Nat)
    (G : Nat → PtEntry → List CalcElem → Prop) (c : Nat) (e e' : PtEntry) :
    Prop :=
  ∃ busy, G c e busy ∧ e' = (viewCalcBuildPtEntry1 core c e version busy).1

/-- The copies after a move, index by index. -/
theorem moveCopy_apply {core : CalcCore} (hm : 0 < core.copyNum) (c : Nat)
    (e : PtEntry) (version : Nat) (x : CalcElem) (j : Nat) :
    (moveCopy core c e version x).copyList j
      = if j = c then
          { e.copyList c with
            nodeId := nodeIdInvalid, diskId := diskIdInvalid, state := .out }
        else if j = c + core.copyNum then
          { e.copyList (c + core.copyNum) with
            nodeId := x.nodeId, diskId := x.diskId, state := .recovery }
        else e.copyList j := by
  unfold moveCopy
  dsimp only
  by_cases hj : j = c
  · rw [if_pos hj, setCopy_of_ne _ _ (by omega), hj, setCopy_same]
  · rw [if_neg hj]
    by_cases hjm : j = c + core.copyNum
    · rw [if_pos hjm, hjm, setCopy_same, setCopy_of_ne _ _ (by omega)]
    · rw [if_neg hjm, setCopy_of_ne _ _ hjm, setCopy_of_ne _ _ hj]

theorem buildPtEntry_cases {core : CalcCore} {c : Nat} {e e' : PtEntry}
    {busy busy' : List CalcElem}
    (h : viewCalcBuildPtEntry core c e busy = some (e', busy')) :
    ∃ x, liveOn e x.nodeId = false ∧ e' = fillCopy core c e x := by
  unfold viewCalcBuildPtEntry at h
  split at h
  · exact nomatch h
  · rename_i x hx
    refine ⟨x, ?_, (congrArg Prod.fst (Option.some.inj h)).symm⟩
    have := List.find?_some hx
    simpa using this

/-- A refill visit skips a slot with a live copy or fills an empty one. -/
theorem refill_cases {core : CalcCore} {c : Nat} {e e' : PtEntry}
    (h : Refill core c e e') :
    (e' = e ∧ ((e.copyList c).state.live = true ∨
      (e.copyList (c + core.copyNum)).state.live = true)) ∨
    ((e.copyList c).state.live = false ∧
      ¬ (c + core.copyNum < e.copyNum ∧
        (e.copyList (c + core.copyNum)).state.live = true) ∧
      ∃ x, liveOn e x.nodeId = false ∧ e' = fillCopy core c e x) := by
  obtain ⟨busy, busy', hv⟩ := h
  unfold refillVisit at hv
  by_cases hlive : (e.copyList c).state.live = true
  · rw [if_pos hlive] at hv
    exact Or.inl ⟨(congrArg Prod.fst (Option.some.inj hv)).symm, Or.inl hlive⟩
  · rw [if_neg hlive] at hv
    by_cases hext : c + core.copyNum < e.copyNum ∧
        (e.copyList (c + core.copyNum)).state.live = true
    · rw [if_pos hext] at hv
      exact Or.inl ⟨(congrArg Prod.fst (Option.some.inj hv)).symm,
        Or.inr hext.2⟩
    · rw [if_neg hext] at hv
      exact Or.inr ⟨by simpa using hlive, hext, buildPtEntry_cases hv⟩

/-- What `ViewCalcBuildPreCheck` asks of a copy that may move. -/
theorem preCheck_some {core : CalcCore} {c index version : Nat} {e : PtEntry}
    (h : viewCalcBuildPreCheck core c e version = some index) :
    e.birthVersion ≠ version ∧
    (e.state = .normal ∨ e.state = .degradeLoss1) ∧
    index = slotIndex core.copyNum e c ∧
    ¬ (e.masterNodeId = (e.copyList index).nodeId ∧
        e.masterDiskId = (e.copyList index).diskId) := by
  unfold viewCalcBuildPreCheck at h
  by_cases hb : e.birthVersion = version
  · rw [if_pos hb] at h
    exact nomatch h
  · rw [if_neg hb] at h
    by_cases hs : e.state ≠ .normal ∧ e.state ≠ .degradeLoss1
    · rw [if_pos hs] at h
      exact nomatch h
    · rw [if_neg hs] at h
      dsimp only at h
      split at h
      · exact nomatch h
      · rename_i hm
        split at h
        · exact nomatch h
        · have hi := Option.some.inj h
          rw [← hi]
          exact ⟨hb, by tauto, rfl, hm⟩

theorem scanTarget_some {e : PtEntry} {n : Int} {xs : List CalcElem}
    {x : CalcElem} (h : scanTarget e n xs = some x) :
    viewCalcPtEntryHasNodeId e x.nodeId = false := by
  induction xs with
  | nil => exact nomatch h
  | cons y ys ih =>
      unfold scanTarget at h
      split at h
      · exact nomatch h
      · split at h
        · exact ih h
        · rename_i hno
          rw [← Option.some.inj h]
          simpa using hno

theorem balanceTarget_some {core : CalcCore} {c version index : Nat}
    {e : PtEntry} {busy : List CalcElem} {x : CalcElem}
    (h : balanceTarget core c e version busy = some (index, x)) :
    viewCalcBuildPreCheck core c e version = some index ∧
    viewCalcPtEntryHasNodeId e x.nodeId = false := by
  unfold balanceTarget at h
  split at h
  · split at h
    · exact nomatch h
    · obtain ⟨idx, hpre, hrest⟩ := Option.bind_eq_some_iff.mp h
      dsimp only at hrest
      split at hrest
      · exact nomatch hrest
      · obtain ⟨y, hy, heq⟩ := Option.map_eq_some_iff.mp hrest
        have hidx : idx = index := congrArg Prod.fst heq
        have hyx : y = x := congrArg Prod.snd heq
        rw [hidx] at hpre
        rw [hyx] at hy
        exact ⟨hpre, scanTarget_some hy⟩
  · exact nomatch h

/-- A balance visit leaves the entry alone or moves the copy it picked. -/
theorem buildPtEntry1_cases (core : CalcCore) (c : Nat) (e : PtEntry)
    (version : Nat) (busy : List CalcElem) :
    (balanceTarget core c e version busy = none ∧
      (viewCalcBuildPtEntry1 core c e version busy).1 = e) ∨
    ∃ index x, balanceTarget core c e version busy = some (index, x) ∧
      (viewCalcBuildPtEntry1 core c e version busy).1
        = balanceMove core c e version x := by
  unfold viewCalcBuildPtEntry1
  cases hbt : balanceTarget core c e version busy with
  | none => exact Or.inl ⟨rfl, rfl⟩
  | some r => exact Or.inr ⟨r.1, r.2, rfl, rfl⟩

/-- The first `k` rounds of a rebalance acting on one entry. -/
inductive Placing (core : CalcCore) (version : Nat)
    (G : Nat → PtEntry → List CalcElem → Prop) (e : PtEntry) :
    Nat → PtEntry → Prop where
  | start : Placing core version G e 0 e
  | round {c : Nat} {e₁ e₂ e₃ : PtEntry} :
      Placing core version G e c e₁ → Refill core c e₁ e₂ →
      Balance core version G c e₂ e₃ → Placing core version G e (c + 1) e₃

/-- Every balance visit of a rebalance meets `G`. -/
def BalanceGuarded (core : CalcCore) (nodeList : NodeInfoList)
    (stateList : NodeStateList) (version diskNum : Nat)
    (G : Nat → PtEntry → List CalcElem → Prop)
    (st : List PtEntry × List CalcElem) : Prop :=
  ∀ c < core.copyNum, ∀ st' r,
    (List.range c).foldlM
      (rebalanceRound core nodeList stateList version diskNum) st
        = some st' →
    traverseSt (refillVisit core c) st'.1
      (viewCalcFillBusyList core c nodeList stateList st'.1 st'.2) = some r →
    Visits (balanceVisit core c version) (G c) r.1 r.2

theorem rounds_entries {core : CalcCore} {nodeList : NodeInfoList}
    {stateList : NodeStateList} {version diskNum : Nat}
    {G : Nat → PtEntry → List CalcElem → Prop}
    {st : List PtEntry × List CalcElem}
    (hG : BalanceGuarded core nodeList stateList version diskNum G st) :
    ∀ k ≤ core.copyNum, ∀ st',
      (List.range k).foldlM
        (rebalanceRound core nodeList stateList version diskNum) st
          = some st' →
      List.Forall₂ (fun e => Placing core version G e k) st.1 st'.1 := by
  intro k
  induction k with
  | zero =>
      intro _ st' h
      rw [List.range_zero, List.foldlM_nil] at h
      rw [← Option.some.inj h]
      exact List.forall₂_same.mpr fun _ _ => Placing.start
  | succ k ih =>
      intro hk st' h
      rw [List.range_succ, List.foldlM_append] at h
      obtain ⟨mid, hmid, hround⟩ := Option.bind_eq_some_iff.mp h
      rw [List.foldlM_cons] at hround
      obtain ⟨last, hlast, hret⟩ := Option.bind_eq_some_iff.mp hround
      have hret' : last = st' := Option.some.inj hret
      subst hret'
      unfold rebalanceRound at hlast
      obtain ⟨r, hrefill, hbal⟩ := Option.bind_eq_some_iff.mp hlast
      obtain ⟨r', hr', heq⟩ := Option.map_eq_some_iff.mp hbal
      have hrest : r'.1 = last.1 := by rw [← heq]
      rw [← hrest]
      have h1 := ih (by omega) mid hmid
      have h2 : List.Forall₂ (Refill core k) mid.1 r.1 :=
        traverseSt_forall₂ (P := fun _ _ => True)
          (fun _ t _ t' _ hv => ⟨t, t', hv⟩) _ _ _ _
          (visits_of_forall (fun _ _ => trivial) _ _) hrefill
      have hvis := hG k (by omega) mid r hmid hrefill
      have h3 : List.Forall₂ (Balance core version G k) r.1 r'.1 := by
        refine traverseSt_forall₂ (P := G k) ?_ _ _ _ _ hvis hr'
        intro e t e' t' hg hv
        have hv' : viewCalcBuildPtEntry1 core k e version t = (e', t') :=
          Option.some.inj hv
        exact ⟨t, hg, (congrArg Prod.fst hv').symm⟩
      have h12 : List.Forall₂ (fun e e' => ∃ e₁, Placing core version G e k e₁
          ∧ Refill core k e₁ e') st.1 r.1 :=
        forall₂_comp (fun a b c hab hbc => ⟨b, hab, hbc⟩) h1 h2
      refine forall₂_comp ?_ h12 h3
      rintro a b c ⟨e₁, hp, href⟩ hb
      exact Placing.round hp href hb

/-- What a successful rebalance does to one entry. -/
def Rebalanced (core : CalcCore) (nodeList : NodeInfoList)
    (stateList : NodeStateList) (event : Option CmEventType) (version : Nat)
    (G : Nat → PtEntry → List CalcElem → Prop) (e e' : PtEntry) : Prop :=
  ∃ placed, Placing core version G
      (evictEntry core nodeList stateList version e) core.copyNum placed ∧
    e' = closeEntry core event placed

/-- The starting point of the rounds of a rebalance. -/
def rebalanceStart (core : CalcCore) (nodeList : NodeInfoList)
    (stateList : NodeStateList) (l : PtEntryList) :
    List PtEntry × List CalcElem :=
  (l.ptEntryList.map
    (evictEntry core nodeList stateList (l.globalVersion + 1)),
   (viewCalcBuildBusyList core nodeList stateList).1)

/-- **REBALANCE STEPS**: a successful rebalance acts on each entry by eviction,
    `copyNum` rounds of refill and balance, and the closing update. -/
theorem rebalance_entries {core : CalcCore} {nodeList : NodeInfoList}
    {stateList : NodeStateList} {event : Option CmEventType}
    {G : Nat → PtEntry → List CalcElem → Prop} {l l' : PtEntryList}
    (hG : BalanceGuarded core nodeList stateList (l.globalVersion + 1)
      (viewCalcBuildBusyList core nodeList stateList).2 G
      (rebalanceStart core nodeList stateList l))
    (h : viewCalculatorRebalance core nodeList stateList event l = some l') :
    l'.globalVersion = l.globalVersion + 1 ∧
    Entrywise (Rebalanced core nodeList stateList event
      (l.globalVersion + 1) G) l l' := by
  unfold viewCalculatorRebalance at h
  split at h
  · exact nomatch h
  · obtain ⟨r, hr, heq⟩ := Option.map_eq_some_iff.mp h
    have hrounds := rounds_entries hG core.copyNum (Nat.le_refl _) r hr
    have hent : l'.ptEntryList = r.1.map (closeEntry core event) := by
      rw [← heq]
    have hall : List.Forall₂ (Rebalanced core nodeList stateList event
        (l.globalVersion + 1) G) l.ptEntryList l'.ptEntryList := by
      rw [hent, List.forall₂_map_right_iff]
      have hr2 := List.forall₂_map_left_iff.mp hrounds
      exact hr2.imp fun e placed hp => ⟨placed, hp, rfl⟩
    refine ⟨?_, ⟨⟨?_, ?_, hall.length_eq.symm⟩, hall⟩⟩
    · rw [← heq]
    · rw [← heq]
    · rw [← heq]

/-- The condition that asks nothing of a balance visit. -/
def anyVisit (_ : Nat) (_ : PtEntry) (_ : List CalcElem) : Prop := True

theorem balanceGuarded_any (core : CalcCore) (nodeList : NodeInfoList)
    (stateList : NodeStateList) (version diskNum : Nat)
    (st : List PtEntry × List CalcElem) :
    BalanceGuarded core nodeList stateList version diskNum anyVisit st :=
  fun _ _ _ _ _ _ => visits_of_forall (fun _ _ => trivial) _ _

/-! ## The initial placement -/

/-- An entry of an initial placement after `k` rounds: the first `k` slots run
    on distinct nodes, nothing else has been written. -/
structure FreshTo (v m k : Nat) (e : PtEntry) : Prop where
  birth : e.birthVersion = v
  num : e.copyNum = m
  running : ∀ i < k, (e.copyList i).state = .running ∧
    (e.copyList i).keepAlive = false
  unused : ∀ i, k ≤ i → (e.copyList i).state = .init ∧
    (e.copyList i).keepAlive = false
  distinct : ∀ i < k, ∀ j < k,
    (e.copyList i).nodeId = (e.copyList j).nodeId → i = j

theorem fresh_buildVisit {core : CalcCore} {v c : Nat} {e e' : PtEntry}
    {busy busy' : List CalcElem} (hc : c < core.copyNum)
    (h : buildVisit core c e busy = some (e', busy'))
    (hf : FreshTo v core.copyNum c e) :
    FreshTo v core.copyNum (c + 1) e' := by
  have hinit := (hf.unused c (Nat.le_refl c)).1
  unfold buildVisit at h
  rw [hinit, if_neg (by decide)] at h
  obtain ⟨x, hx, heq⟩ := buildPtEntry_cases h
  have hnode : ∀ i < c, (e.copyList i).nodeId ≠ x.nodeId := by
    intro i hi hxe
    have : liveOn e x.nodeId = true := by
      unfold liveOn
      rw [List.any_eq_true]
      refine ⟨i, List.mem_range.mpr (by rw [hf.num]; omega), ?_⟩
      rw [(hf.running i hi).1, hxe]
      simp [PtCopyState.live]
    rw [hx] at this
    exact Bool.noConfusion this
  unfold fillCopy at heq
  rw [if_pos hinit] at heq
  rw [heq]
  refine ⟨hf.birth, hf.num, ?_, ?_, ?_⟩
  · intro i hi
    rw [setCopy_apply]
    by_cases hic : i = c
    · rw [if_pos hic]
      exact ⟨rfl, (hf.unused c (Nat.le_refl c)).2⟩
    · rw [if_neg hic]
      exact hf.running i (by omega)
  · intro i hi
    rw [setCopy_of_ne _ _ (by omega)]
    exact hf.unused i (by omega)
  · intro i hi j hj hij
    rw [setCopy_apply, setCopy_apply] at hij
    by_cases hic : i = c
    · by_cases hjc : j = c
      · rw [hic, hjc]
      · rw [if_pos hic, if_neg hjc] at hij
        exact absurd hij.symm (hnode j (by omega))
    · by_cases hjc : j = c
      · rw [if_neg hic, if_pos hjc] at hij
        exact absurd hij (hnode i (by omega))
      · rw [if_neg hic, if_neg hjc] at hij
        exact hf.distinct i (by omega) j (by omega) hij

theorem fresh_buildRounds {core : CalcCore} {v diskNum : Nat}
    {st : List PtEntry × List CalcElem}
    (hst : ∀ e ∈ st.1, FreshTo v core.copyNum 0 e) :
    ∀ k ≤ core.copyNum, ∀ st',
      (List.range k).foldlM (buildRound core diskNum) st = some st' →
      ∀ e ∈ st'.1, FreshTo v core.copyNum k e := by
  intro k
  induction k with
  | zero =>
      intro _ st' h
      rw [List.range_zero, List.foldlM_nil] at h
      rw [← Option.some.inj h]
      exact hst
  | succ k ih =>
      intro hk st' h
      rw [List.range_succ, List.foldlM_append] at h
      obtain ⟨mid, hmid, hround⟩ := Option.bind_eq_some_iff.mp h
      rw [List.foldlM_cons] at hround
      obtain ⟨last, hlast, hret⟩ := Option.bind_eq_some_iff.mp hround
      have hret' : last = st' := Option.some.inj hret
      subst hret'
      unfold buildRound at hlast
      obtain ⟨r, hr, heq⟩ := Option.map_eq_some_iff.mp hlast
      have hrest : r.1 = last.1 := by rw [← heq]
      rw [← hrest]
      have hkc : k < core.copyNum := by omega
      have hvisit : ∀ e t e' t', True →
          buildVisit core k e t = some (e', t') →
          FreshTo v core.copyNum k e → FreshTo v core.copyNum (k + 1) e' :=
        fun _ _ _ _ _ hv hf => fresh_buildVisit hkc hv hf
      have hall := traverseSt_forall₂ hvisit mid.1 mid.2 r.2 r.1
        (visits_of_forall (fun _ _ => trivial) _ _) hr
      exact forall₂_all (fun _ _ hab hf => hab hf) hall
        (ih (by omega) mid hmid)

/-- Choosing the first master keeps the copies. -/
theorem initialUpdateEntry_frame (e : PtEntry) :
    (initialUpdateEntry e).copyList = e.copyList ∧
    (initialUpdateEntry e).copyNum = e.copyNum ∧
    (initialUpdateEntry e).state = .normal ∧
    (initialUpdateEntry e).birthVersion = e.birthVersion := by
  unfold initialUpdateEntry
  split
  · exact ⟨rfl, rfl, rfl, rfl⟩
  · exact ⟨rfl, rfl, rfl, rfl⟩

/-- The entries of a successful initial placement, before the masters are
    chosen. -/
theorem initial_rounds {core : CalcCore} {nodeList : NodeInfoList}
    {stateList : NodeStateList} {version : Nat} {l : PtEntryList}
    (h : viewCalculatorInitial core nodeList stateList version = some l) :
    l.maxCopyNum = core.copyNum ∧ l.minCopyNum = core.minCopyNum ∧
    l.globalVersion = version + 1 ∧
    ∃ es : List PtEntry, l.ptEntryList = es.map initialUpdateEntry ∧
      ∀ e ∈ es, FreshTo (version + 1) core.copyNum core.copyNum e := by
  unfold viewCalculatorInitial at h
  split at h
  · exact nomatch h
  · obtain ⟨r, hr, heq⟩ := Option.map_eq_some_iff.mp h
    have hstart : ∀ e ∈ (viewCalcInitPtEntryList core nodeList.poolId
        version).ptEntryList, FreshTo (version + 1) core.copyNum 0 e := by
      intro e he
      obtain ⟨ptId, -, hpt⟩ := List.mem_map.mp he
      rw [← hpt]
      refine ⟨rfl, rfl, ?_, fun _ _ => ⟨rfl, rfl⟩, ?_⟩
      · intro i hi
        exact absurd hi (Nat.not_lt_zero i)
      · intro i hi
        exact absurd hi (Nat.not_lt_zero i)
    have hrounds := fresh_buildRounds hstart core.copyNum
      (Nat.le_refl _) r hr
    rw [← heq]
    exact ⟨rfl, rfl, rfl, r.1, rfl, hrounds⟩

/-- **INITIAL ENTRIES**: a successful initial placement gives every partition
    its copies, running and on distinct nodes. -/
theorem initial_entries {core : CalcCore} {nodeList : NodeInfoList}
    {stateList : NodeStateList} {version : Nat} {l : PtEntryList}
    (h : viewCalculatorInitial core nodeList stateList version = some l) :
    l.maxCopyNum = core.copyNum ∧ l.minCopyNum = core.minCopyNum ∧
    l.globalVersion = version + 1 ∧
    ∀ e ∈ l.ptEntryList, FreshTo (version + 1) core.copyNum core.copyNum e ∧
      e.state = .normal := by
  obtain ⟨hmax, hmin, hver, es, hes, hfresh⟩ := initial_rounds h
  refine ⟨hmax, hmin, hver, ?_⟩
  intro e he
  rw [hes] at he
  obtain ⟨e₀, he₀, hmap⟩ := List.mem_map.mp he
  obtain ⟨hcl, hcn, hst, hbirth⟩ := initialUpdateEntry_frame e₀
  have hf := hfresh e₀ he₀
  rw [← hmap]
  refine ⟨⟨hbirth.trans hf.birth, hcn.trans hf.num, ?_, ?_, ?_⟩, hst⟩
  · rw [hcl]
    exact hf.running
  · rw [hcl]
    exact hf.unused
  · rw [hcl]
    exact hf.distinct

end UbsIo.Pt
