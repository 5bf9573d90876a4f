import UbsIo.Pt.Steps

/-! # The placement invariant

    In every reachable view each slot of each partition has exactly one live
    copy, in one of its two halves, and the live copies sit on pairwise
    distinct nodes.

    During a rebalance a slot may be empty, so the invariant is split: `Sparse`
    (at most one live copy a slot, distinct nodes, the extent covers the live
    copies) holds at every point, and `FilledTo k` says that the rounds done so
    far left no slot below `k` empty.  Both conflict checks of the source look
    at every index below `copyNum`, and `Sparse` is what makes that enough. -/

namespace UbsIo.Pt

open UbsIo.Lib Relation

/-- The copy at index `i` is neither unused nor given up. -/
def Live (e : PtEntry) (i : Nat) : Prop := (e.copyList i).state.live = true

/-- At most one live copy a slot, on distinct nodes, within the extent. -/
structure Sparse (m : Nat) (e : PtEntry) : Prop where
  once : ∀ i < m, Live e i → ¬ Live e (i + m)
  extent : e.copyNum = m ∨ e.copyNum = 2 * m
  extended : ∀ i < m, Live e (i + m) → e.copyNum = 2 * m
  distinct : ∀ i < 2 * m, ∀ j < 2 * m, Live e i → Live e j →
    (e.copyList i).nodeId = (e.copyList j).nodeId → i = j

/-- No slot below `k` is empty. -/
def FilledTo (m k : Nat) (e : PtEntry) : Prop :=
  ∀ i < k, Live e i ∨ Live e (i + m)

/-- **THE PLACEMENT INVARIANT** of one entry. -/
structure Placed (m : Nat) (e : PtEntry) : Prop where
  sparse : Sparse m e
  filled : FilledTo m m e

/-- The live copies, their nodes and the extent are the same. -/
structure SamePlace (e e' : PtEntry) : Prop where
  live : ∀ i, Live e' i ↔ Live e i
  node : ∀ i, Live e i → (e'.copyList i).nodeId = (e.copyList i).nodeId
  num : e'.copyNum = e.copyNum

/-! ## Transport along changes that keep the place -/

/-- Fewer live copies, unmoved. -/
theorem Sparse.of_fewer {m : Nat} {e e' : PtEntry} (h : Sparse m e)
    (hl : ∀ i, Live e' i → Live e i)
    (hn : ∀ i, Live e' i → (e'.copyList i).nodeId = (e.copyList i).nodeId)
    (hc : e'.copyNum = e.copyNum) : Sparse m e' := by
  refine ⟨?_, ?_, ?_, ?_⟩
  · intro i hi h1 h2
    exact h.once i hi (hl i h1) (hl _ h2)
  · rw [hc]
    exact h.extent
  · intro i hi hli
    rw [hc]
    exact h.extended i hi (hl _ hli)
  · intro i hi j hj hli hlj hnode
    rw [hn i hli, hn j hlj] at hnode
    exact h.distinct i hi j hj (hl i hli) (hl j hlj) hnode

theorem SamePlace.sparse {m : Nat} {e e' : PtEntry} (h : SamePlace e e')
    (hs : Sparse m e) : Sparse m e' :=
  hs.of_fewer (fun i => (h.live i).mp)
    (fun i hi => h.node i ((h.live i).mp hi)) h.num

theorem SamePlace.filledTo {m k : Nat} {e e' : PtEntry} (h : SamePlace e e')
    (hf : FilledTo m k e) : FilledTo m k e' := by
  intro i hi
  rcases hf i hi with hl | hl
  · exact Or.inl ((h.live i).mpr hl)
  · exact Or.inr ((h.live _).mpr hl)

theorem SamePlace.placed {m : Nat} {e e' : PtEntry} (h : SamePlace e e')
    (hp : Placed m e) : Placed m e' :=
  ⟨h.sparse hp.sparse, h.filledTo hp.filled⟩

theorem SamePlace.trans {e₁ e₂ e₃ : PtEntry} (h₁ : SamePlace e₁ e₂)
    (h₂ : SamePlace e₂ e₃) : SamePlace e₁ e₃ where
  live i := (h₂.live i).trans (h₁.live i)
  node i hi := (h₂.node i ((h₁.live i).mpr hi)).trans (h₁.node i hi)
  num := h₂.num.trans h₁.num

/-- Copies that keep their node and their liveness keep the place. -/
theorem samePlace_of_copies {e e' : PtEntry} (hn : e'.copyNum = e.copyNum)
    (h : ∀ i, (e'.copyList i).nodeId = (e.copyList i).nodeId ∧
      (e'.copyList i).state.live = (e.copyList i).state.live) :
    SamePlace e e' where
  live i := by
    show (e'.copyList i).state.live = true ↔ _
    rw [(h i).2]
    exact Iff.rfl
  node i _ := (h i).1
  num := hn

theorem samePlace_setState {e : PtEntry} {i : Nat} {s : PtCopyState}
    (h : s.live = (e.copyList i).state.live) :
    SamePlace e (e.setState i s) := by
  refine samePlace_of_copies rfl ?_
  intro j
  rw [setState_apply]
  by_cases hj : j = i
  · rw [if_pos hj, hj]
    exact ⟨rfl, h⟩
  · rw [if_neg hj]
    exact ⟨rfl, rfl⟩

theorem samePlace_setRunningKeepAlive (e : PtEntry) (b : Bool) :
    SamePlace e (e.setRunningKeepAlive b) := by
  refine samePlace_of_copies rfl ?_
  intro j
  rw [setRunningKeepAlive_apply]
  split
  · exact ⟨rfl, rfl⟩
  · exact ⟨rfl, rfl⟩

theorem samePlace_updateCopyKeepAlive (e : PtEntry) (k : Nat) :
    SamePlace e (viewPtUpdateCopyKeepAlive e k) := by
  rcases updateCopyKeepAlive_cases e k with h | ⟨b, h⟩
  · rw [h]
    exact samePlace_of_copies rfl fun _ => ⟨rfl, rfl⟩
  · rw [h]
    exact samePlace_setRunningKeepAlive e b

theorem samePlace_updatePtState (e : PtEntry) (k n : Nat) :
    SamePlace e (viewPtEntryUpdatePtState e k n) := by
  refine samePlace_of_copies (updatePtState_copyNum e k n) ?_
  intro i
  rw [updatePtState_copyList]
  exact ⟨rfl, rfl⟩

theorem samePlace_updateCopyState {e : PtEntry} {i : Nat} (k : Nat)
    (h : (e.copyList i).state = .down) :
    SamePlace e (viewPtUpdateCopyState e i k) := by
  have hlive : (e.copyList i).state.live = true := by rw [h]; rfl
  have hrec : SamePlace e (e.setState i .recovery) :=
    samePlace_setState (by rw [hlive]; rfl)
  unfold viewPtUpdateCopyState
  split
  · exact hrec
  · split
    · exact samePlace_setState (by rw [hlive]; rfl)
    · exact hrec

/-! ## Trimming -/

/-- The slot of an index in either half. -/
def slotOf (m j : Nat) : Nat := if j < m then j else j - m

/-- The slot of a running copy determines it. -/
theorem Sparse.slotOf_injOn {m : Nat} {e : PtEntry} (h : Sparse m e) :
    Set.InjOn (slotOf m) {j | j ∈ e.runningList} ∧
    ∀ j ∈ e.runningList, slotOf m j < m := by
  have hbound : ∀ j ∈ e.runningList, j < 2 * m := by
    intro j hj
    have := (mem_runningList.mp hj).1
    rcases h.extent with hx | hx
    · omega
    · omega
  have hlive : ∀ j ∈ e.runningList, Live e j := by
    intro j hj
    show (e.copyList j).state.live = true
    rw [(mem_runningList.mp hj).2]
    rfl
  constructor
  · intro a ha b hb hab
    have hla := hlive a ha
    have hlb := hlive b hb
    have h1 := hbound a ha
    have h2 := hbound b hb
    rw [slotOf, slotOf] at hab
    by_cases ham : a < m
    · by_cases hbm : b < m
      · rw [if_pos ham, if_pos hbm] at hab
        exact hab
      · rw [if_pos ham, if_neg hbm] at hab
        have hba : b = a + m := by omega
        rw [hba] at hlb
        exact absurd hlb (h.once a ham hla)
    · by_cases hbm : b < m
      · rw [if_neg ham, if_pos hbm] at hab
        have hba : a = b + m := by omega
        rw [hba] at hla
        exact absurd hla (h.once b hbm hlb)
      · rw [if_neg ham, if_neg hbm] at hab
        omega
  · intro j hj
    have h2 := hbound j hj
    rw [slotOf]
    split
    · assumption
    · omega

/-- There are no more running copies than slots. -/
theorem Sparse.runningNum_le {m : Nat} {e : PtEntry} (h : Sparse m e) :
    e.runningNum ≤ m := by
  obtain ⟨hinj, hlt⟩ := h.slotOf_injOn
  have hnd : (e.runningList.map (slotOf m)).Nodup :=
    (runningList_nodup e).map_on fun a ha b hb hab => hinj ha hb hab
  have hsub : e.runningList.map (slotOf m) ⊆ List.range m := by
    intro x hx
    obtain ⟨j, hj, rfl⟩ := List.mem_map.mp hx
    exact List.mem_range.mpr (hlt j hj)
  have hle := (hnd.subperm hsub).length_le
  rw [List.length_map, List.length_range] at hle
  exact hle

/-- With as many running copies as slots, every slot has a running copy. -/
theorem Sparse.all_running {m : Nat} {e : PtEntry} (h : Sparse m e)
    (hr : e.runningNum = m) : ∀ i < m, (e.copyList i).state = .running ∨
      (e.copyList (i + m)).state = .running := by
  obtain ⟨hinj, hlt⟩ := h.slotOf_injOn
  have hnd : (e.runningList.map (slotOf m)).Nodup :=
    (runningList_nodup e).map_on fun a ha b hb hab => hinj ha hb hab
  have hsub : e.runningList.map (slotOf m) ⊆ List.range m := by
    intro x hx
    obtain ⟨j, hj, rfl⟩ := List.mem_map.mp hx
    exact List.mem_range.mpr (hlt j hj)
  have hperm : (e.runningList.map (slotOf m)).Perm (List.range m) := by
    refine (hnd.subperm hsub).perm_of_length_le ?_
    rw [List.length_map, List.length_range]
    exact Nat.le_of_eq hr.symm
  intro i hi
  obtain ⟨j, hj, hji⟩ := List.mem_map.mp
    (hperm.mem_iff.mpr (List.mem_range.mpr hi))
  have hrun := (mem_runningList.mp hj).2
  rw [slotOf] at hji
  by_cases hjm : j < m
  · rw [if_pos hjm] at hji
    rw [hji] at hrun
    exact Or.inl hrun
  · rw [if_neg hjm] at hji
    have : j = i + m := by omega
    rw [this] at hrun
    exact Or.inr hrun

/-- What a trimmed settled slot holds. -/
def trimmedBase (m : Nat) (e : PtEntry) (i : Nat) : PtEntryCopy :=
  if (e.copyList i).state = .running then e.copyList i
  else if (e.copyList (i + m)).state = .running then e.copyList (i + m)
  else e.copyList i

/-- What the replacement of slot `i` holds after the trim. -/
def trimmedExt (m : Nat) (e : PtEntry) (i : Nat) : PtEntryCopy :=
  if (e.copyList i).state = .running then e.copyList (i + m)
  else if (e.copyList (i + m)).state = .running then .givenUp
  else e.copyList (i + m)

/-- One iteration of the trim, read at one index. -/
theorem trimSlot_apply {m : Nat} (hm : 0 < m) (e : PtEntry) (i j : Nat) :
    (trimSlot m e i).copyList j
      = if j = i then trimmedBase m e i
        else if j = i + m then trimmedExt m e i
        else e.copyList j := by
  unfold trimSlot trimmedBase trimmedExt
  by_cases hrun : (e.copyList i).state = .running
  · simp only [if_pos hrun]
    by_cases hj : j = i
    · rw [if_pos hj, hj]
    · rw [if_neg hj]
      by_cases hjm : j = i + m
      · rw [if_pos hjm, hjm]
      · rw [if_neg hjm]
  · simp only [if_neg hrun]
    by_cases hext : (e.copyList (i + m)).state = .running
    · simp only [if_pos hext]
      rw [setCopy_apply, setCopy_apply]
      by_cases hjm : j = i + m
      · rw [if_pos hjm, if_neg (by omega), if_pos hjm]
      · rw [if_neg hjm, if_neg hjm]
    · simp only [if_neg hext]
      by_cases hj : j = i
      · rw [if_pos hj, hj]
      · rw [if_neg hj]
        by_cases hjm : j = i + m
        · rw [if_pos hjm, hjm]
        · rw [if_neg hjm]

/-- The copies after the loop of `ViewPtEntryTrim` has handled the slots below
    `k`: later iterations do not touch what earlier ones wrote. -/
theorem trimSlots_copyList {m : Nat} (e : PtEntry) :
    ∀ k ≤ m, ∀ j, ((List.range k).foldl (trimSlot m) e).copyList j
      = if j < k then trimmedBase m e j
        else if m ≤ j ∧ j < m + k then trimmedExt m e (j - m)
        else e.copyList j := by
  intro k
  induction k with
  | zero =>
      intro _ j
      rw [if_neg (by omega), if_neg (by omega)]
      rfl
  | succ k ih =>
      intro hk j
      rw [List.range_succ, List.foldl_append, List.foldl_cons, List.foldl_nil,
        trimSlot_apply (by omega)]
      have hprev := ih (by omega)
      have hk0 : ((List.range k).foldl (trimSlot m) e).copyList k
          = e.copyList k := by
        rw [hprev k, if_neg (by omega), if_neg (by omega)]
      have hk1 : ((List.range k).foldl (trimSlot m) e).copyList (k + m)
          = e.copyList (k + m) := by
        rw [hprev (k + m), if_neg (by omega), if_neg (by omega)]
      by_cases hjk : j = k
      · rw [if_pos hjk, hjk, if_pos (by omega)]
        unfold trimmedBase
        rw [hk0, hk1]
      · rw [if_neg hjk]
        by_cases hjm : j = k + m
        · rw [if_pos hjm, hjm, if_neg (by omega), if_pos (by omega)]
          unfold trimmedExt
          rw [hk0, hk1, Nat.add_sub_cancel]
        · rw [if_neg hjm, hprev j]
          have h1 : j < k + 1 ↔ j < k := by omega
          have h2 : (m ≤ j ∧ j < m + (k + 1)) ↔ (m ≤ j ∧ j < m + k) := by
            omega
          simp only [h1, h2]

/-- **TRIM**: when every slot has its running copy, the trim settles all of
    them. -/
theorem placed_trimmed {m : Nat} {e e' : PtEntry} (h : Placed m e)
    (hr : e.runningNum = m) (hn : e'.copyNum = m)
    (hc : e'.copyList = ((List.range m).foldl (trimSlot m) e).copyList) :
    Placed m e' := by
  have hall := h.sparse.all_running hr
  have hbase : ∀ i < m, ∃ j, (j = i ∨ j = i + m) ∧ Live e j ∧
      e'.copyList i = e.copyList j := by
    intro i hi
    rw [hc, trimSlots_copyList e m (Nat.le_refl m) i, if_pos hi]
    unfold trimmedBase
    by_cases hrun : (e.copyList i).state = .running
    · rw [if_pos hrun]
      exact ⟨i, Or.inl rfl, by show PtCopyState.live _ = true; rw [hrun]; rfl, rfl⟩
    · have hext : (e.copyList (i + m)).state = .running :=
        (hall i hi).resolve_left hrun
      rw [if_neg hrun, if_pos hext]
      exact ⟨i + m, Or.inr rfl,
        by show PtCopyState.live _ = true; rw [hext]; rfl, rfl⟩
  have hext : ∀ i < m, ¬ Live e' (i + m) := by
    intro i hi hl
    have hl' : (e'.copyList (i + m)).state.live = true := hl
    rw [hc, trimSlots_copyList e m (Nat.le_refl m) (i + m),
      if_neg (by omega), if_pos (by omega), Nat.add_sub_cancel] at hl'
    unfold trimmedExt at hl'
    by_cases hrun : (e.copyList i).state = .running
    · rw [if_pos hrun] at hl'
      refine h.sparse.once i hi ?_ hl'
      show PtCopyState.live _ = true
      rw [hrun]
      rfl
    · rw [if_neg hrun, if_pos ((hall i hi).resolve_left hrun)] at hl'
      exact Bool.noConfusion hl'
  refine ⟨⟨?_, Or.inl hn, ?_, ?_⟩, ?_⟩
  · intro i hi _
    exact hext i hi
  · intro i hi hl
    exact absurd hl (hext i hi)
  · intro i hi j hj hli hlj hnode
    -- only settled slots are live, and each holds a live copy of the old entry
    have him : i < m := by
      by_contra hge
      have : i = (i - m) + m := by omega
      rw [this] at hli
      exact hext (i - m) (by omega) hli
    have hjm : j < m := by
      by_contra hge
      have : j = (j - m) + m := by omega
      rw [this] at hlj
      exact hext (j - m) (by omega) hlj
    obtain ⟨a, ha, hla, hea⟩ := hbase i him
    obtain ⟨b, hb, hlb, heb⟩ := hbase j hjm
    rw [hea, heb] at hnode
    have hab := h.sparse.distinct a (by omega) b (by omega) hla hlb hnode
    omega
  · intro i hi
    obtain ⟨j, -, hlj, hej⟩ := hbase i hi
    refine Or.inl ?_
    show (e'.copyList i).state.live = true
    rw [hej]
    exact hlj

/-! ## Reports keep the place -/

theorem samePlace_down {e : PtEntry} {i : Nat}
    (h : (e.copyList i).state.live = true) :
    SamePlace e { e.setState i .down with referNum := e.referNum + 1 } := by
  have hs : SamePlace e (e.setState i .down) :=
    samePlace_setState (by rw [h]; rfl)
  exact ⟨hs.live, hs.node, hs.num⟩

theorem samePlace_runningDown {e : PtEntry} {i : Nat} (k n : Nat)
    (h : (e.copyList i).state = .running) :
    SamePlace e (runningDown e i k n) :=
  ((samePlace_down (by rw [h]; rfl)).trans
    (samePlace_updateCopyKeepAlive _ k)).trans (samePlace_updatePtState _ k n)

/-- A finish report settles its copy, and the trim settles the entry. -/
theorem placed_finishCopy {l : PtEntryList} {e : PtEntry} {i : Nat}
    (hp : Placed l.maxCopyNum e) (hs : (e.copyList i).state = .recovery)
    (masterList : Nat → Nat) (nodeId validNum : Nat) :
    Placed l.maxCopyNum (finishCopy e i l masterList nodeId validNum).1 := by
  have hset : SamePlace e (e.setState i .running) :=
    samePlace_setState (by rw [hs]; rfl)
  have hp1 : Placed l.maxCopyNum (finishStart e i l.minCopyNum) :=
    (hset.trans (samePlace_updateCopyKeepAlive _ _)).placed hp
  rcases finishCopy_cases e i l masterList nodeId validNum with
    ⟨-, heq⟩ | ⟨hr, htrim⟩
  · rw [heq]
    exact (samePlace_updatePtState _ _ _).placed hp1
  · exact placed_trimmed hp1 hr htrim.copyNum htrim.copyList

theorem placed_touch {l : PtEntryList} {e e' : PtEntry} (h : Touch l e e')
    (hp : Placed l.maxCopyNum e) : Placed l.maxCopyNum e' := by
  cases h with
  | runningDown i hi hs => exact (samePlace_runningDown _ _ hs).placed hp
  | recoveryDown i hi hs =>
      exact (samePlace_down (by rw [hs]; rfl)).placed hp
  | backUp i hi hs =>
      have h1 : SamePlace e { e with referNum := e.referNum + 1 } :=
        samePlace_of_copies rfl fun _ => ⟨rfl, rfl⟩
      exact ((h1.trans (samePlace_updateCopyState l.minCopyNum hs)).trans
        (samePlace_updatePtState _ _ _)).placed hp
  | finished i hi hs hsat masterList nodeId validNum =>
      exact placed_finishCopy hp hs masterList nodeId validNum

theorem placed_touches {l : PtEntryList} {e e' : PtEntry}
    (h : ReflTransGen (Touch l) e e') (hp : Placed l.maxCopyNum e) :
    Placed l.maxCopyNum e' := by
  induction h with
  | refl => exact hp
  | tail _ ht ih => exact placed_touch ht ih

/-! ## Eviction, refill and balance -/

theorem sparse_evictSlot {core : CalcCore} {nodeList : NodeInfoList}
    {stateList : NodeStateList} {version : Nat} {e : PtEntry} (c : Nat)
    (h : Sparse core.copyNum e) :
    Sparse core.copyNum
      (evictSlot core nodeList stateList version e c) := by
  unfold evictSlot
  dsimp only
  split
  · have hkeep : ∀ i, Live (e.setCopy (slotIndex core.copyNum e c) .givenUp) i →
        i ≠ slotIndex core.copyNum e c := by
      intro i hl heq
      have hl' : ((e.setCopy (slotIndex core.copyNum e c)
        .givenUp).copyList i).state.live = true := hl
      rw [heq, setCopy_same] at hl'
      exact Bool.noConfusion hl'
    have hsame : ∀ i, Live (e.setCopy (slotIndex core.copyNum e c) .givenUp) i →
        (e.setCopy (slotIndex core.copyNum e c) .givenUp).copyList i
          = e.copyList i :=
      fun i hl => setCopy_of_ne e _ (hkeep i hl)
    have hs : Sparse core.copyNum
        (e.setCopy (slotIndex core.copyNum e c) .givenUp) := by
      refine h.of_fewer ?_ ?_ rfl
      · intro i hl
        have hl' : (_ : PtEntryCopy).state.live = true := hl
        rw [hsame i hl] at hl'
        exact hl'
      · intro i hl
        rw [hsame i hl]
    exact ⟨hs.once, hs.extent, hs.extended, hs.distinct⟩
  · exact h

theorem sparse_evictEntry {core : CalcCore} {nodeList : NodeInfoList}
    {stateList : NodeStateList} {version : Nat} {e : PtEntry}
    (h : Sparse core.copyNum e) :
    Sparse core.copyNum (evictEntry core nodeList stateList version e) := by
  have hfold : ∀ (cs : List Nat) (e : PtEntry), Sparse core.copyNum e →
      Sparse core.copyNum
        (cs.foldl (evictSlot core nodeList stateList version) e) := by
    intro cs
    induction cs with
    | nil => intro e he; exact he
    | cons c cs ih => intro e he; exact ih _ (sparse_evictSlot c he)
  exact hfold _ e h

/-- Live copies lie below `copyNum`, where the conflict checks look. -/
theorem Sparse.live_lt {m : Nat} {e : PtEntry} (h : Sparse m e) {i : Nat}
    (hi : i < 2 * m) (hl : Live e i) : i < e.copyNum := by
  by_cases him : i < m
  · rcases h.extent with hx | hx
    · omega
    · omega
  · have hie : i = (i - m) + m := by omega
    rw [hie] at hl
    have := h.extended (i - m) (by omega) hl
    omega

/-- The conflict check of `ViewCalcBuildPtEntry` covers every live copy. -/
theorem Sparse.not_liveOn {m : Nat} {e : PtEntry} (h : Sparse m e) {n : Nat}
    (hn : liveOn e n = false) :
    ∀ i < 2 * m, Live e i → (e.copyList i).nodeId ≠ n := by
  intro i hi hl heq
  have hlt := h.live_lt hi hl
  have hl' : (e.copyList i).state.live = true := hl
  have : liveOn e n = true := by
    unfold liveOn
    rw [List.any_eq_true]
    refine ⟨i, List.mem_range.mpr hlt, ?_⟩
    rw [hl', heq]
    simp
  rw [hn] at this
  exact Bool.noConfusion this

/-- Filling an empty slot from a node without a live copy. -/
theorem sparse_fill {m c k : Nat} {e e' : PtEntry} {x : PtEntryCopy}
    (h : Sparse m e) (hc : c < m) (hk : k = c ∨ k = c + m)
    (hempty : ¬ Live e c ∧ ¬ Live e (c + m))
    (hx : ∀ i < 2 * m, Live e i → (e.copyList i).nodeId ≠ x.nodeId)
    (hcopy : ∀ j, e'.copyList j = if j = k then x else e.copyList j)
    (hnum : e'.copyNum = if k = c then e.copyNum else 2 * m) :
    Sparse m e' := by
  have hother : ∀ j, j ≠ k → (Live e' j ↔ Live e j) := by
    intro j hj
    unfold Live
    rw [hcopy j, if_neg hj]
  have hpair : ∀ i < m, (i = k ∨ i + m = k) ↔ i = c := by
    intro i hi
    omega
  refine ⟨?_, ?_, ?_, ?_⟩
  · intro i hi h1 h2
    by_cases hic : i = c
    · subst hic
      rcases hk with hk | hk
      · exact hempty.2 ((hother (i + m) (by omega)).mp h2)
      · exact hempty.1 ((hother i (by omega)).mp h1)
    · have := hpair i hi
      exact h.once i hi ((hother i (by omega)).mp h1)
        ((hother _ (by omega)).mp h2)
  · rw [hnum]
    split
    · exact h.extent
    · exact Or.inr rfl
  · intro i hi hl
    rw [hnum]
    by_cases hkc : k = c
    · rw [if_pos hkc]
      exact h.extended i hi ((hother _ (by omega)).mp hl)
    · rw [if_neg hkc]
  · intro i hi j hj hli hlj hnode
    rw [hcopy i, hcopy j] at hnode
    by_cases hik : i = k
    · by_cases hjk : j = k
      · rw [hik, hjk]
      · rw [if_pos hik, if_neg hjk] at hnode
        exact absurd hnode.symm (hx j hj ((hother j hjk).mp hlj))
    · by_cases hjk : j = k
      · rw [if_neg hik, if_pos hjk] at hnode
        exact absurd hnode (hx i hi ((hother i hik).mp hli))
      · rw [if_neg hik, if_neg hjk] at hnode
        exact h.distinct i hi j hj ((hother i hik).mp hli)
          ((hother j hjk).mp hlj) hnode

/-- A filled slot is live and the others are as before. -/
theorem fillCopy_placed {core : CalcCore} {c : Nat} {e : PtEntry}
    {x : CalcElem} (hc : c < core.copyNum) (hs : Sparse core.copyNum e)
    (hempty : ¬ Live e c ∧ ¬ Live e (c + core.copyNum))
    (hx : liveOn e x.nodeId = false) :
    Sparse core.copyNum (fillCopy core c e x) ∧
    (∀ i < core.copyNum, i = c ∨ Live e i ∨ Live e (i + core.copyNum) →
      Live (fillCopy core c e x) i ∨
      Live (fillCopy core c e x) (i + core.copyNum)) := by
  have hnode := hs.not_liveOn hx
  unfold fillCopy
  by_cases hinit : (e.copyList c).state = .init
  · rw [if_pos hinit]
    refine ⟨sparse_fill hs hc (Or.inl rfl) hempty hnode
      (fun j => setCopy_apply e c j _) (by rw [if_pos rfl]; rfl), ?_⟩
    intro i hi h
    unfold Live at h ⊢
    rw [setCopy_apply, setCopy_apply]
    by_cases hic : i = c
    · rw [if_pos hic]
      exact Or.inl rfl
    · rw [if_neg hic, if_neg (by omega)]
      exact h.resolve_left hic
  · rw [if_neg hinit]
    refine ⟨sparse_fill hs hc (Or.inr rfl) hempty hnode
      (fun j => setCopy_apply e (c + core.copyNum) j _)
      (by rw [if_neg (by omega)]; exact Nat.mul_comm _ _), ?_⟩
    intro i hi h
    show ((e.setCopy _ _).copyList _).state.live = true ∨
      ((e.setCopy _ _).copyList _).state.live = true
    rw [setCopy_apply, setCopy_apply]
    by_cases hic : i = c
    · rw [hic, if_pos rfl]
      exact Or.inr rfl
    · rw [if_neg (by omega), if_neg (by omega)]
      exact h.resolve_left hic

theorem refill_placed {core : CalcCore} {c : Nat} {e e' : PtEntry}
    (hc : c < core.copyNum) (h : Refill core c e e')
    (hs : Sparse core.copyNum e) (hf : FilledTo core.copyNum c e) :
    Sparse core.copyNum e' ∧ FilledTo core.copyNum (c + 1) e' := by
  rcases refill_cases h with ⟨heq, hlive⟩ | ⟨hbase, hext, x, hx, heq⟩
  · rw [heq]
    refine ⟨hs, ?_⟩
    intro i hi
    by_cases hic : i = c
    · rw [hic]
      exact hlive
    · exact hf i (by omega)
  · have hempty : ¬ Live e c ∧ ¬ Live e (c + core.copyNum) := by
      refine ⟨?_, ?_⟩
      · intro hl
        have hl' : (e.copyList c).state.live = true := hl
        rw [hbase] at hl'
        exact Bool.noConfusion hl'
      · intro hl
        refine hext ⟨?_, hl⟩
        have := hs.extended c hc hl
        omega
    obtain ⟨hsp, hfill⟩ := fillCopy_placed hc hs hempty hx
    rw [heq]
    refine ⟨hsp, ?_⟩
    intro i hi
    by_cases hic : i = c
    · exact hfill i (by omega) (Or.inl hic)
    · exact hfill i (by omega) (Or.inr (hf i (by omega)))

/-- The conflict check of a move covers every copy within the extent. -/
theorem Sparse.not_hasNodeId {m : Nat} {e : PtEntry} (h : Sparse m e) {n : Nat}
    (hn : viewCalcPtEntryHasNodeId e n = false) :
    ∀ i < 2 * m, Live e i → (e.copyList i).nodeId ≠ n := by
  intro i hi hl heq
  have : viewCalcPtEntryHasNodeId e n = true := by
    unfold viewCalcPtEntryHasNodeId
    rw [List.any_eq_true]
    exact ⟨i, List.mem_range.mpr (h.live_lt hi hl), by simp [heq]⟩
  rw [hn] at this
  exact Bool.noConfusion this

theorem samePlace_calcKeepAlive (core : CalcCore) (e : PtEntry) :
    SamePlace e (viewCalcUpdateCopyKeepAlive core e) := by
  unfold viewCalcUpdateCopyKeepAlive
  split
  · exact samePlace_of_copies rfl fun _ => ⟨rfl, rfl⟩
  · exact samePlace_setRunningKeepAlive e true

/-- A move empties the settled slot and fills the replacement from a node that
    is new to the entry. -/
theorem moveCopy_placed {core : CalcCore} {c k : Nat} (version : Nat)
    {e : PtEntry} {x : CalcElem} (hc : c < core.copyNum) (hk : k ≤ core.copyNum)
    (hs : Sparse core.copyNum e) (hf : FilledTo core.copyNum k e)
    (hx : viewCalcPtEntryHasNodeId e x.nodeId = false) :
    Sparse core.copyNum (moveCopy core c e version x) ∧
    FilledTo core.copyNum k (moveCopy core c e version x) := by
  have hm : 0 < core.copyNum := by omega
  have hnode := hs.not_hasNodeId hx
  have happ := moveCopy_apply hm c e version x
  have hbase : ¬ Live (moveCopy core c e version x) c := by
    intro hl
    have hl' : ((moveCopy core c e version x).copyList c).state.live = true := hl
    rw [happ c, if_pos rfl] at hl'
    exact Bool.noConfusion hl'
  have hext : Live (moveCopy core c e version x) (c + core.copyNum) := by
    show PtCopyState.live _ = true
    rw [happ (c + core.copyNum), if_neg (by omega), if_pos rfl]
    rfl
  have hkeep : ∀ j, j ≠ c → j ≠ c + core.copyNum →
      (moveCopy core c e version x).copyList j = e.copyList j := by
    intro j h1 h2
    rw [happ j, if_neg h1, if_neg h2]
  have hlive : ∀ j, j ≠ c → j ≠ c + core.copyNum →
      (Live (moveCopy core c e version x) j ↔ Live e j) := by
    intro j h1 h2
    unfold Live
    rw [hkeep j h1 h2]
  have hnum : (moveCopy core c e version x).copyNum = 2 * core.copyNum :=
    Nat.mul_comm _ _
  have hextNode : ((moveCopy core c e version x).copyList
      (c + core.copyNum)).nodeId = x.nodeId := by
    rw [happ, if_neg (by omega), if_pos rfl]
  refine ⟨⟨?_, Or.inr hnum, fun _ _ _ => hnum, ?_⟩, ?_⟩
  · intro i hi h1 h2
    by_cases hic : i = c
    · rw [hic] at h1
      exact hbase h1
    · exact hs.once i hi ((hlive i hic (by omega)).mp h1)
        ((hlive _ (by omega) (by omega)).mp h2)
  · intro i hi j hj hli hlj heq
    have hic : i ≠ c := fun h => hbase (h ▸ hli)
    have hjc : j ≠ c := fun h => hbase (h ▸ hlj)
    by_cases hie : i = c + core.copyNum
    · by_cases hje : j = c + core.copyNum
      · rw [hie, hje]
      · rw [hie, hextNode, hkeep j hjc hje] at heq
        exact absurd heq.symm (hnode j hj ((hlive j hjc hje).mp hlj))
    · by_cases hje : j = c + core.copyNum
      · rw [hje, hextNode, hkeep i hic hie] at heq
        exact absurd heq (hnode i hi ((hlive i hic hie).mp hli))
      · rw [hkeep i hic hie, hkeep j hjc hje] at heq
        exact hs.distinct i hi j hj ((hlive i hic hie).mp hli)
          ((hlive j hjc hje).mp hlj) heq
  · intro i hi
    by_cases hic : i = c
    · rw [hic]
      exact Or.inr hext
    · rcases hf i hi with hl | hl
      · exact Or.inl ((hlive i hic (by omega)).mpr hl)
      · exact Or.inr ((hlive _ (by omega) (by omega)).mpr hl)

theorem balance_placed {core : CalcCore} {version : Nat}
    {G : Nat → PtEntry → List CalcElem → Prop} {c k : Nat} {e e' : PtEntry}
    (hc : c < core.copyNum) (hk : k ≤ core.copyNum)
    (h : Balance core version G c e e')
    (hs : Sparse core.copyNum e) (hf : FilledTo core.copyNum k e) :
    Sparse core.copyNum e' ∧ FilledTo core.copyNum k e' := by
  obtain ⟨busy, -, heq⟩ := h
  rw [heq]
  rcases buildPtEntry1_cases core c e version busy with
    ⟨-, hsame⟩ | ⟨index, x, htarget, hmove⟩
  · rw [hsame]
    exact ⟨hs, hf⟩
  · rw [hmove]
    obtain ⟨hsp, hfl⟩ : Sparse core.copyNum (moveCopy core c e version x) ∧
        FilledTo core.copyNum k (moveCopy core c e version x) :=
      moveCopy_placed version hc hk hs hf (balanceTarget_some htarget).2
    have hka := samePlace_calcKeepAlive core (moveCopy core c e version x)
    exact ⟨hka.sparse hsp, hka.filledTo hfl⟩

/-- After `k` rounds the first `k` slots are filled. -/
theorem placing_placed {core : CalcCore} {version : Nat}
    {G : Nat → PtEntry → List CalcElem → Prop} {e e' : PtEntry} {k : Nat}
    (h : Placing core version G e k e') (hk : k ≤ core.copyNum)
    (hs : Sparse core.copyNum e) :
    Sparse core.copyNum e' ∧ FilledTo core.copyNum k e' := by
  induction h with
  | start => exact ⟨hs, fun i hi => absurd hi (Nat.not_lt_zero i)⟩
  | round _ hrefill hbal ih =>
      obtain ⟨hs1, hf1⟩ := ih (by omega)
      obtain ⟨hs2, hf2⟩ := refill_placed (by omega) hrefill hs1 hf1
      exact balance_placed (by omega) (by omega) hbal hs2 hf2

/-! ## Closing updates -/

theorem samePlace_promoteSlot (st : PtEntry × Nat) (i : Nat) :
    SamePlace st.1 (promoteSlot st i).1 := by
  have hrefl : SamePlace st.1 st.1 := samePlace_of_copies rfl fun _ => ⟨rfl, rfl⟩
  have hset : ∀ c : PtEntryCopy, c.nodeId = (st.1.copyList i).nodeId →
      c.state.live = (st.1.copyList i).state.live →
      SamePlace st.1 (st.1.setCopy i c) := by
    intro c h1 h2
    refine samePlace_of_copies rfl ?_
    intro j
    rw [setCopy_apply]
    by_cases hj : j = i
    · rw [if_pos hj, hj]
      exact ⟨h1, h2⟩
    · rw [if_neg hj]
      exact ⟨rfl, rfl⟩
  unfold promoteSlot
  dsimp only
  split
  · exact hrefl
  · split
    · exact hrefl
    · split
      · rename_i hrec
        exact hset _ rfl (by rw [hrec]; rfl)
      · split
        · exact hset _ rfl rfl
        · exact hrefl

theorem samePlace_promoteEntry (core : CalcCore) (e : PtEntry) :
    SamePlace e (promoteEntry core e) := by
  have hfold : ∀ (is : List Nat) (st : PtEntry × Nat),
      SamePlace st.1 (is.foldl promoteSlot st).1 := by
    intro is
    induction is with
    | nil => intro st; exact samePlace_of_copies rfl fun _ => ⟨rfl, rfl⟩
    | cons i is ih =>
        intro st
        exact (samePlace_promoteSlot st i).trans (ih (promoteSlot st i))
  unfold promoteEntry
  split
  · exact hfold _ (e, _)
  · exact samePlace_of_copies rfl fun _ => ⟨rfl, rfl⟩

theorem samePlace_closeEntry (core : CalcCore) (event : Option CmEventType)
    (e : PtEntry) : SamePlace e (closeEntry core event e) := by
  have h := (samePlace_promoteEntry core e).trans
    (samePlace_updatePtState (promoteEntry core e) core.minCopyNum
      core.copyNum)
  unfold closeEntry bypassEntry
  split
  · exact ⟨h.live, h.node, h.num⟩
  · exact h

theorem placed_rebalanced {core : CalcCore} {nodeList : NodeInfoList}
    {stateList : NodeStateList} {event : Option CmEventType} {version : Nat}
    {G : Nat → PtEntry → List CalcElem → Prop} {e e' : PtEntry}
    (h : Rebalanced core nodeList stateList event version G e e')
    (hp : Placed core.copyNum e) : Placed core.copyNum e' := by
  obtain ⟨placed, hplacing, heq⟩ := h
  obtain ⟨hs, hf⟩ := placing_placed hplacing (Nat.le_refl _)
    (sparse_evictEntry hp.sparse)
  rw [heq]
  exact (samePlace_closeEntry core event placed).placed ⟨hs, hf⟩

/-! ## Every reachable view -/

theorem placed_freshEntry {v m : Nat} {e : PtEntry}
    (h : FreshTo v m m e) : Placed m e := by
  have hbase : ∀ i, Live e i ↔ i < m := by
    intro i
    unfold Live
    by_cases hi : i < m
    · rw [(h.running i hi).1]
      exact ⟨fun _ => hi, fun _ => rfl⟩
    · rw [(h.unused i (by omega)).1]
      exact ⟨fun hh => Bool.noConfusion hh, fun hh => absurd hh hi⟩
  refine ⟨⟨?_, Or.inl h.num, ?_, ?_⟩, ?_⟩
  · intro i _ _ h2
    have := (hbase _).mp h2
    omega
  · intro i _ hl
    have := (hbase _).mp hl
    omega
  · intro i _ j _ hli hlj hnode
    exact h.distinct i ((hbase i).mp hli) j ((hbase j).mp hlj) hnode
  · intro i hi
    exact Or.inl ((hbase i).mpr hi)

/-- The view invariant: the bounds are the calculator's and every entry is
    placed. -/
structure ViewPlaced (core : CalcCore) (l : PtEntryList) : Prop where
  maxCopyNum : l.maxCopyNum = core.copyNum
  minCopyNum : l.minCopyNum = core.minCopyNum
  entries : ∀ e ∈ l.ptEntryList, Placed core.copyNum e

theorem viewPlaced_initial {core : CalcCore} {nodeList : NodeInfoList}
    {stateList : NodeStateList} {version : Nat} {l : PtEntryList}
    (h : viewCalculatorInitial core nodeList stateList version = some l) :
    ViewPlaced core l := by
  obtain ⟨hmax, hmin, -, hent⟩ := initial_entries h
  exact ⟨hmax, hmin, fun e he => placed_freshEntry (hent e he).1⟩

/-- A change of every entry that keeps it placed keeps the view placed. -/
theorem ViewPlaced.of_entrywise {core : CalcCore} {l l' : PtEntryList}
    {R : PtEntry → PtEntry → Prop} (hl : ViewPlaced core l)
    (h : Entrywise R l l')
    (hR : ∀ e e', R e e' → Placed core.copyNum e → Placed core.copyNum e') :
    ViewPlaced core l' where
  maxCopyNum := h.shape.maxCopyNum.trans hl.maxCopyNum
  minCopyNum := h.shape.minCopyNum.trans hl.minCopyNum
  entries := forall₂_all hR h.entries hl.entries

/-- **PLACEMENT STEP**: every call keeps the view placed. -/
theorem viewPlaced_step {core : CalcCore} {l l' : PtEntryList} {ev : Event}
    (hl : ViewPlaced core l) (h : step core l ev = some l') :
    ViewPlaced core l' := by
  have htouch : ∀ e e', ReflTransGen (Touch l) e e' →
      Placed core.copyNum e → Placed core.copyNum e' := by
    intro e e' hr hp
    rw [← hl.maxCopyNum] at hp ⊢
    exact placed_touches hr hp
  cases ev with
  | rebalance nodeList stateList event =>
      obtain ⟨-, hent⟩ := rebalance_entries
        (balanceGuarded_any core nodeList stateList _ _ _) h
      exact hl.of_entrywise hent fun _ _ hr hp => placed_rebalanced hr hp
  | nodeState nodeId state info =>
      exact hl.of_entrywise
        (step_local (by intro _ _ _ hh; exact nomatch hh) h) htouch
  | finish nodeId ptList nodeNum validNum =>
      exact hl.of_entrywise
        (step_local (by intro _ _ _ hh; exact nomatch hh) h) htouch

/-- **PLACEMENT RUN**: every reachable view is placed. -/
theorem viewPlaced_reachable {core : CalcCore} {l : PtEntryList}
    (h : Reachable core l) : ViewPlaced core l := by
  obtain ⟨nodeList, stateList, version, l₀, events, hinit, hrun⟩ := h
  exact runFrom_invariant (fun _ _ _ hI hs => viewPlaced_step hI hs)
    (viewPlaced_initial hinit) hrun

/-! ## What the clients see -/

/-- The index of the live copy of a slot. -/
def liveIndex (m : Nat) (e : PtEntry) (i : Nat) : Nat :=
  if (e.copyList i).state.live then i else i + m

theorem Placed.live_liveIndex {m : Nat} {e : PtEntry} (h : Placed m e)
    {i : Nat} (hi : i < m) : Live e (liveIndex m e i) := by
  unfold liveIndex
  by_cases hl : (e.copyList i).state.live = true
  · rw [if_pos hl]
    exact hl
  · rw [if_neg hl]
    exact (h.filled i hi).resolve_left hl

theorem Placed.liveIndex_inj {m : Nat} {e : PtEntry} (h : Placed m e)
    {i j : Nat} (hi : i < m) (hj : j < m)
    (hnode : (e.copyList (liveIndex m e i)).nodeId =
      (e.copyList (liveIndex m e j)).nodeId) : i = j := by
  have hbound : ∀ k < m, liveIndex m e k < 2 * m := by
    intro k hk
    unfold liveIndex
    split
    · omega
    · omega
  have heq := h.sparse.distinct _ (hbound i hi) _ (hbound j hj)
    (h.live_liveIndex hi) (h.live_liveIndex hj) hnode
  unfold liveIndex at heq
  split at heq
  · split at heq
    · exact heq
    · omega
  · split at heq
    · omega
    · omega

/-- `Cm::FillPtCopyList` finds the live copy of every slot. -/
theorem Placed.fillPtCopy {m : Nat} {e : PtEntry} (h : Placed m e)
    (hm : 2 * m ≤ ptMaxCopyIndex) {i : Nat} (hi : i < m) :
    fillPtCopy m e i =
      some ⟨(e.copyList (liveIndex m e i)).nodeId,
        (e.copyList (liveIndex m e i)).diskId,
        (e.copyList (liveIndex m e i)).state⟩ := by
  have hlive := h.live_liveIndex hi
  have hidx : (if i < ptMaxCopyIndex ∧ (e.copyList i).state.live = false
      then i + m else i) = liveIndex m e i := by
    unfold liveIndex
    cases hl : (e.copyList i).state.live with
    | true => rw [if_neg (fun hc => Bool.noConfusion hc.2), if_pos rfl]
    | false =>
        rw [if_pos ⟨by omega, rfl⟩, if_neg (fun hc => Bool.noConfusion hc)]
  have hlt : liveIndex m e i < ptMaxCopyIndex := by
    unfold liveIndex
    split
    · omega
    · omega
  unfold Pt.fillPtCopy
  dsimp only
  rw [hidx, if_neg, if_neg]
  · omega
  · rintro ⟨-, hdead⟩
    rw [Live, hdead] at hlive
    exact Bool.noConfusion hlive

theorem Placed.fillPtCopyList {l : PtEntryList} {e : PtEntry}
    (h : Placed l.maxCopyNum e) (hm : 2 * l.maxCopyNum ≤ ptMaxCopyIndex) :
    fillPtCopyList l e =
      some ((List.range l.maxCopyNum).map fun i =>
        ⟨(e.copyList (liveIndex l.maxCopyNum e i)).nodeId,
          (e.copyList (liveIndex l.maxCopyNum e i)).diskId,
          (e.copyList (liveIndex l.maxCopyNum e i)).state⟩) := by
  have hall : ∀ is : List Nat, (∀ i ∈ is, i < l.maxCopyNum) →
      is.mapM (Pt.fillPtCopy l.maxCopyNum e) = some (is.map fun i =>
        ⟨(e.copyList (liveIndex l.maxCopyNum e i)).nodeId,
          (e.copyList (liveIndex l.maxCopyNum e i)).diskId,
          (e.copyList (liveIndex l.maxCopyNum e i)).state⟩) := by
    intro is
    induction is with
    | nil => intro _; rfl
    | cons i is ih =>
        intro hlt
        rw [List.mapM_cons, h.fillPtCopy hm (hlt i (List.mem_cons_self ..)),
          ih fun j hj => hlt j (List.mem_cons_of_mem _ hj)]
        rfl
  exact hall _ fun i hi => List.mem_range.mp hi

/-- **PLACEMENT**: in every reachable view each slot of each partition has
    exactly one live copy in its two halves, the extent covers the extended
    copies, the live copies sit on distinct nodes, and the clients' copy list
    is never refused. -/
theorem reachable_view_placed {core : CalcCore} {l : PtEntryList}
    (hcopy : core.copyNum = 2 ∨ core.copyNum = 3)
    (h : Reachable core l) :
    ∀ e ∈ l.ptEntryList,
      (∀ i < l.maxCopyNum, Xor (Live e i) (Live e (i + l.maxCopyNum))) ∧
      (e.copyNum = l.maxCopyNum ∨ e.copyNum = 2 * l.maxCopyNum) ∧
      (∀ i < l.maxCopyNum, Live e (i + l.maxCopyNum) →
        e.copyNum = 2 * l.maxCopyNum) ∧
      (∀ i < 2 * l.maxCopyNum, ∀ j < 2 * l.maxCopyNum, Live e i → Live e j →
        (e.copyList i).nodeId = (e.copyList j).nodeId → i = j) ∧
      ∃ copys, fillPtCopyList l e = some copys ∧
        copys.length = l.maxCopyNum ∧ (copys.map (·.nodeId)).Nodup := by
  have hv := viewPlaced_reachable h
  intro e he
  have hp : Placed l.maxCopyNum e := by
    rw [hv.maxCopyNum]
    exact hv.entries e he
  have hm : 2 * l.maxCopyNum ≤ ptMaxCopyIndex := by
    rw [hv.maxCopyNum]
    unfold ptMaxCopyIndex
    omega
  refine ⟨?_, hp.sparse.extent, hp.sparse.extended, hp.sparse.distinct,
    _, hp.fillPtCopyList hm, ?_, ?_⟩
  · intro i hi
    rcases hp.filled i hi with hl | hl
    · exact Or.inl ⟨hl, hp.sparse.once i hi hl⟩
    · exact Or.inr ⟨hl, fun hb => hp.sparse.once i hi hb hl⟩
  · rw [List.length_map, List.length_range]
  · rw [List.map_map]
    refine List.Nodup.map_on ?_ List.nodup_range
    intro i hi j hj hnode
    exact hp.liveIndex_inj (List.mem_range.mp hi) (List.mem_range.mp hj) hnode

/-! ## A small pool -/

/-- A pool of `n` nodes with one healthy disk each. -/
def uniformPool (n : Nat) : NodeInfoList :=
  ⟨0, List.replicate n ⟨[⟨0, .normal⟩], []⟩⟩

/-- The state of each node of such a pool; every disk has joined. -/
def poolStates (states : List (NodeState × NodeClusterState)) :
    NodeStateList :=
  ⟨states.map fun s => ⟨s.1, s.2, [.stateIn]⟩⟩

/-- One partition, two copies. -/
def twoCopyCore : CalcCore where
  elemNum := 4
  ptNum := 1
  copyNum := 2
  minCopyNum := 1
  diskNum := 0

/-- An initial placement followed by a list of events. -/
def runPool (core : CalcCore) (nodeList : NodeInfoList)
    (stateList : NodeStateList) (events : List Event) : Option PtEntryList :=
  (viewCalculatorInitial core nodeList stateList 0).bind fun l₀ =>
    runFrom (step core) l₀ events

theorem runPool_some {core : CalcCore} {nodeList : NodeInfoList}
    {stateList : NodeStateList} {events : List Event} {l : PtEntryList}
    (h : runPool core nodeList stateList events = some l) :
    ∃ l₀, viewCalculatorInitial core nodeList stateList 0 = some l₀ ∧
      runFrom (step core) l₀ events = some l :=
  Option.bind_eq_some_iff.mp h

theorem reachable_runPool {core : CalcCore} {nodeList : NodeInfoList}
    {stateList : NodeStateList} {events : List Event} {l : PtEntryList}
    (h : runPool core nodeList stateList events = some l) :
    Reachable core l := by
  obtain ⟨l₀, hinit, hrun⟩ := runPool_some h
  exact ⟨nodeList, stateList, 0, l₀, events, hinit, hrun⟩

/-- Node 0 of three fails and leaves the cluster; its copy is rebuilt on the
    third node, in the extended half. -/
def expiredRun : Option PtEntryList :=
  runPool twoCopyCore (uniformPool 3)
    (poolStates [(.up, .stateIn), (.up, .stateIn), (.up, .stateIn)])
    [.nodeState 0 .down ⟨[], []⟩,
     .rebalance (uniformPool 3) (poolStates
      [(.down, .stateOut), (.up, .stateIn), (.up, .stateIn)]) none]

theorem reachable_view_placed_expired :
    ∃ l, Reachable twoCopyCore l ∧
      (∃ e ∈ l.ptEntryList, (e.copyList 2).state = .recovery) ∧
      ∀ e ∈ l.ptEntryList, ∃ copys, fillPtCopyList l e = some copys ∧
        copys.length = l.maxCopyNum ∧ (copys.map (·.nodeId)).Nodup := by
  have hcheck : expiredRun.any (fun l => l.ptEntryList.any fun e =>
      (e.copyList 2).state == .recovery) = true := by decide +kernel
  obtain ⟨l, hl, hany⟩ := (Option.any_eq_true _ _).mp hcheck
  have hreach : Reachable twoCopyCore l := reachable_runPool hl
  obtain ⟨e, he, hrec⟩ := List.any_eq_true.mp hany
  refine ⟨l, hreach, ⟨e, he, beq_iff_eq.mp hrec⟩, ?_⟩
  intro e he
  exact (reachable_view_placed (Or.inl rfl) hreach e he).2.2.2.2

end UbsIo.Pt
