import UbsIo.Mms.Rebalance

/-! # When a rebalance is needed, and when it succeeds

    The check that asks for a rebalance and the rebalance itself look at the
    nodes in different ways.  The check is content with one normal node: it
    asks for a rebalance as soon as a node or its disk 0 has left
    (`needRebalance_iff`).  The rebalance wants as many normal nodes as there
    are copies, which in this pool is every node, and then every empty slot
    finds a node without a copy (`rebalance_total`).

    With more than four copies the second half of a slot may lie behind the
    copy list, so an entry has to have all its copies in the first half
    (`Inside`) unless the list is long enough. -/

namespace UbsIo.Mms

open UbsIo.Lib
open UbsIo.Pt (PtCopyState NodeState NodeInfo nodeIdInvalid diskIdInvalid
  NodeInfoList NodeStateList CalcElem nodeIsIn normalDisks
  viewCalcNormNodeNum viewCalcCheckNodeIsNormal viewCalcCheckNodeIsFault
  insertByRefer)

/-! ## Slots that can be read -/

/-- The copy list has room for both halves, or the first half is all there
    is. -/
def Inside (n : Nat) (e : PtEntry) : Prop :=
  2 * n ≤ maxCopyNum ∨ ∀ i < n, Live e i

theorem Inside.of_copyList {n : Nat} {e e' : PtEntry} (h : Inside n e)
    (hcopy : e'.copyList = e.copyList) : Inside n e' := by
  refine h.imp_right fun hfull i hi => ?_
  rw [Live, hcopy]
  exact hfull i hi

variable {core : CalcCore} {nodeList : NodeInfoList}
  {stateList : NodeStateList}

theorem slotIndex_of_live {e : PtEntry} {c : Nat} (h : Live e c) :
    slotIndex core e c = some c :=
  if_pos h

theorem slotIndex_of_not_live {e : PtEntry} {c : Nat} (h : ¬ Live e c) :
    slotIndex core e c = secondIndex core c :=
  if_neg h

theorem slotIndex_some {e : PtEntry} {c : Nat} (hin : Inside core.copyNum e)
    (hc : c < core.copyNum) : ∃ index, slotIndex core e c = some index := by
  by_cases hl : Live e c
  · exact ⟨c, slotIndex_of_live hl⟩
  · rcases hin with hroom | hall
    · refine ⟨c + core.copyNum, ?_⟩
      rw [slotIndex_of_not_live hl, secondIndex, if_pos (by omega)]
    · exact absurd (hall c hc) hl

/-- Of a full entry the live half of a slot is read. -/
theorem Placed.slotIndex_live {e : PtEntry} {c index : Nat}
    (hp : Placed core.copyNum e) (hc : c < core.copyNum)
    (h : slotIndex core e c = some index) :
    index < 2 * core.copyNum ∧ Live e index := by
  by_cases hl : Live e c
  · rw [slotIndex_of_live hl] at h
    cases h
    exact ⟨by omega, hl⟩
  · rw [slotIndex_of_not_live hl] at h
    rw [secondIndex_eq h]
    exact ⟨by omega, (hp.filled c hc).resolve_left hl⟩

/-- A live copy is read as the copy of its slot. -/
theorem Placed.exists_slotIndex {e : PtEntry} {i : Nat}
    (hp : Placed core.copyNum e) (hin : Inside core.copyNum e)
    (hi : i < 2 * core.copyNum) (hl : Live e i) :
    ∃ c < core.copyNum, slotIndex core e c = some i := by
  by_cases hfirst : i < core.copyNum
  · exact ⟨i, hfirst, slotIndex_of_live hl⟩
  · have hsum : i - core.copyNum + core.copyNum = i := by omega
    have hc : i - core.copyNum < core.copyNum := by omega
    have hno : ¬ Live e (i - core.copyNum) := by
      intro hl'
      exact hp.halves.once _ hc hl' (by rw [hsum]; exact hl)
    refine ⟨i - core.copyNum, hc, ?_⟩
    rcases hin with hroom | hall
    · rw [slotIndex_of_not_live hno, secondIndex, if_pos (by omega), hsum]
    · exact absurd (hall _ hc) hno

/-- **WHAT THE SLOTS SHOW**: the copies that are read from a full entry are one
    on disk 0 of each node. -/
theorem Placed.slot_iff {e : PtEntry} (hp : Placed core.copyNum e)
    (hin : Inside core.copyNum e) (P : Nat → Nat → Prop) :
    (∃ c < core.copyNum, ∃ index, slotIndex core e c = some index ∧
      P (e.copyList index).nodeId (e.copyList index).diskId) ↔
    ∃ x < core.copyNum, P x 0 := by
  constructor
  · rintro ⟨c, hc, index, hindex, hP⟩
    obtain ⟨hlt, hl⟩ := hp.slotIndex_live hc hindex
    rw [hp.disk_eq index hlt hl] at hP
    exact ⟨nodeOf e index, hp.node_lt index hlt hl, hP⟩
  · rintro ⟨x, hx, hP⟩
    obtain ⟨i, ⟨hi, hl, hnode⟩, -⟩ := hp.eachNodeOnce.1 x hx
    obtain ⟨c, hc, hindex⟩ := hp.exists_slotIndex hin hi hl
    refine ⟨c, hc, i, hindex, ?_⟩
    rw [hp.disk_eq i hi hl, show (e.copyList i).nodeId = x from hnode]
    exact hP

/-! ## The first check -/

/-- No node of the pool and no disk 0 of one has left the cluster. -/
def NoneLeft (n : Nat) (nodeList : NodeInfoList) (stateList : NodeStateList) :
    Prop :=
  ∀ x < n, viewCalcCheckNodeIsFault nodeList stateList x 0 = false

/-- The entries of a view between two calls. -/
structure Settled (n : Nat) (entries : List PtEntry) : Prop where
  placed : ∀ e ∈ entries, Placed n e
  inside : ∀ e ∈ entries, Inside n e
  nonempty : entries ≠ []

theorem checkPtEntryList_iff (nodeList : NodeInfoList)
    (stateList : NodeStateList) {entries : List PtEntry}
    (hs : Settled core.copyNum entries) :
    ∃ isFault, viewCalcCheckPtEntryList core nodeList stateList entries =
        some isFault ∧
      (isFault = true ↔ ¬ NoneLeft core.copyNum nodeList stateList) := by
  have hentry : ∀ e ∈ entries,
      ((List.range core.copyNum).anyM fun copyIndex => do
        let index ← slotIndex core e copyIndex
        let c := e.copyList index
        some (viewCalcCheckNodeIsFault nodeList stateList c.nodeId c.diskId)) =
      some ((List.range core.copyNum).any fun copyIndex =>
        (slotIndex core e copyIndex).any fun index =>
          viewCalcCheckNodeIsFault nodeList stateList
            (e.copyList index).nodeId (e.copyList index).diskId) := by
    intro e he
    refine anyM_some_of_forall fun c hc => ?_
    obtain ⟨index, hindex⟩ :=
      slotIndex_some (hs.inside e he) (List.mem_range.mp hc)
    rw [hindex]
    rfl
  refine ⟨_, anyM_some_of_forall hentry, ?_⟩
  have hone : ∀ e ∈ entries, (((List.range core.copyNum).any fun copyIndex =>
      (slotIndex core e copyIndex).any fun index =>
        viewCalcCheckNodeIsFault nodeList stateList
          (e.copyList index).nodeId (e.copyList index).diskId) = true ↔
      ∃ x < core.copyNum,
        viewCalcCheckNodeIsFault nodeList stateList x 0 = true) := by
    intro e he
    rw [← (hs.placed e he).slot_iff (hs.inside e he)
      fun x d => viewCalcCheckNodeIsFault nodeList stateList x d = true]
    simp only [List.any_eq_true, List.mem_range, Option.any_eq_true]
  rw [List.any_eq_true, NoneLeft]
  push Not
  simp only [ne_eq, Bool.not_eq_false]
  constructor
  · rintro ⟨e, he, hany⟩
    exact (hone e he).mp hany
  · intro hx
    obtain ⟨e, rest, hcons⟩ := List.exists_cons_of_ne_nil hs.nonempty
    have he : e ∈ entries := by
      rw [hcons]
      exact List.mem_cons_self ..
    exact ⟨e, he, (hone e he).mpr hx⟩

/-! ## The second check -/

/-- The candidates with their loads: the times each node was counted. -/
def Tally (nodes seen : List Nat) (busy : List CalcElem) : Prop :=
  busy.Perm (nodes.map fun x => ⟨x, 0, (seen.count x : Int)⟩)

theorem fillUpdate_perm {busy : List CalcElem} {nodeId diskId : Nat}
    (diff : Int) {found : CalcElem}
    (h : busy.find? (fun x => x.nodeId == nodeId && x.diskId == diskId) =
      some found) :
    ∃ rest, busy.Perm (found :: rest) ∧
      (viewCalcFillUpdateBusyList busy nodeId diskId diff).Perm
        ({ found with referNum := found.referNum + diff } :: rest) := by
  obtain ⟨hp, pre, post, hbusy, hpre⟩ := List.find?_eq_some_iff_append.mp h
  have hno : ∀ x ∈ pre, ¬(x.nodeId == nodeId && x.diskId == diskId) = true := by
    intro x hx hyes
    have hnot := hpre x hx
    rw [hyes] at hnot
    exact Bool.noConfusion hnot
  have herase : busy.eraseP (fun x => x.nodeId == nodeId &&
      x.diskId == diskId) = pre ++ post := by
    rw [hbusy, List.eraseP_append_right _ hno]
    exact congrArg (pre ++ ·) (List.eraseP_cons_of_pos
      (p := fun x : CalcElem => x.nodeId == nodeId && x.diskId == diskId) hp)
  refine ⟨pre ++ post, ?_, ?_⟩
  · rw [hbusy]
    exact List.perm_middle
  · rw [viewCalcFillUpdateBusyList, h]
    show (insertByRefer _ (busy.eraseP _)).Perm _
    rw [herase]
    exact insertByRefer_perm _ _

theorem Tally.mem {nodes seen : List Nat} {busy : List CalcElem}
    (h : Tally nodes seen busy) {x : CalcElem} :
    x ∈ busy ↔ ∃ y ∈ nodes, x = ⟨y, 0, (seen.count y : Int)⟩ := by
  rw [h.mem_iff, List.mem_map]
  simp only [eq_comm]

/-- A copy on disk 0 of a node is counted for that node. -/
theorem Tally.load {nodes seen : List Nat} {busy : List CalcElem}
    (hnodes : nodes.Nodup) (h : Tally nodes seen busy) (y : Nat) :
    Tally nodes (y :: seen) (viewCalcFillUpdateBusyList busy y 0 1) := by
  have hother : ∀ ys : List Nat, y ∉ ys →
      (ys.map fun x => (⟨x, 0, ((y :: seen).count x : Int)⟩ : CalcElem)) =
        ys.map fun x => ⟨x, 0, (seen.count x : Int)⟩ := by
    intro ys hys
    refine List.map_congr_left fun x hx => ?_
    rw [List.count_cons_of_ne]
    rintro rfl
    exact hys hx
  cases hfind : busy.find? fun x => x.nodeId == y && x.diskId == 0 with
  | none =>
      have hy : y ∉ nodes := by
        intro hy
        have hnot := List.find?_eq_none.mp hfind _ (h.mem.mpr ⟨y, hy, rfl⟩)
        simp at hnot
      rw [Tally, hother nodes hy, viewCalcFillUpdateBusyList, hfind]
      exact h
  | some found =>
      obtain ⟨rest, hbusy, hnew⟩ := fillUpdate_perm 1 hfind
      have hkey := List.find?_some hfind
      rw [Bool.and_eq_true, beq_iff_eq, beq_iff_eq] at hkey
      obtain ⟨z, hz, rfl⟩ := h.mem.mp (List.mem_of_find?_eq_some hfind)
      obtain rfl : z = y := hkey.1
      have hsplit := List.perm_cons_erase hz
      have hrest : rest.Perm ((nodes.erase z).map fun x =>
          ⟨x, 0, (seen.count x : Int)⟩) :=
        (List.perm_cons _).mp
          ((hbusy.symm.trans h).trans (hsplit.map _))
      refine hnew.trans (((hrest.cons _)).trans ?_)
      refine List.Perm.trans ?_ (hsplit.map _).symm
      rw [List.map_cons, hother _ (hnodes.not_mem_erase), List.count_cons_self]
      exact .refl _

theorem tally_build (core : CalcCore) (nodeList : NodeInfoList)
    (stateList : NodeStateList) :
    Tally ((normalNodes nodeList stateList).take core.elemNum) []
      (viewCalcBuildBusyList core nodeList stateList) := by
  rw [Tally, viewCalcBuildBusyList, buildBusyFrom_eq, List.nil_append]
  exact .refl _

/-- The load of one slot counts the node of the copy if its disk 0 is normal
    and joined. -/
theorem loadCopy_tally {nodes seen : List Nat} {busy : List CalcElem}
    (hnodes : nodes.Nodup) (h : Tally nodes seen busy) {e : PtEntry} {c : Nat}
    (hp : Placed core.copyNum e) (hin : Inside core.copyNum e)
    (hc : c < core.copyNum) :
    ∃ seen' busy', loadCopy core nodeList stateList c busy e = some busy' ∧
      Tally nodes seen' busy' ∧ ∀ y, y ∈ seen' ↔ y ∈ seen ∨
        ∃ index, slotIndex core e c = some index ∧
          (e.copyList index).nodeId = y ∧
          viewCalcCheckNodeIsNormal nodeList stateList y
            (e.copyList index).diskId = true := by
  obtain ⟨index, hindex⟩ := slotIndex_some hin hc
  obtain ⟨hlt, hl⟩ := hp.slotIndex_live hc hindex
  have hdisk := hp.disk_eq index hlt hl
  have hload : loadCopy core nodeList stateList c busy e =
      if viewCalcCheckNodeIsNormal nodeList stateList
          (e.copyList index).nodeId (e.copyList index).diskId then
        some (viewCalcFillUpdateBusyList busy (e.copyList index).nodeId
          (e.copyList index).diskId 1)
      else some busy := by
    rw [loadCopy, hindex]
    rfl
  rw [hload, hdisk]
  split
  · rename_i hnorm
    refine ⟨(e.copyList index).nodeId :: seen, _, rfl, h.load hnodes _, ?_⟩
    intro y
    rw [List.mem_cons, or_comm]
    refine or_congr_right ⟨?_, ?_⟩
    · rintro rfl
      exact ⟨index, hindex, rfl, by rw [hdisk]; exact hnorm⟩
    · rintro ⟨i, hi, hnode, -⟩
      rw [hindex] at hi
      cases hi
      exact hnode.symm
  · rename_i hnorm
    refine ⟨seen, busy, rfl, h, fun y => ?_⟩
    refine (or_iff_left ?_).symm
    rintro ⟨i, hi, rfl, hyes⟩
    rw [hindex] at hi
    cases hi
    rw [hdisk] at hyes
    exact hnorm hyes

/-- The load of all slots of full entries counts the nodes whose disk 0 is
    normal and joined. -/
theorem loadEntries_tally (nodeList : NodeInfoList)
    (stateList : NodeStateList) {nodes seen : List Nat} {busy : List CalcElem}
    (hnodes : nodes.Nodup) (h : Tally nodes seen busy)
    {entries : List PtEntry} (hp : ∀ e ∈ entries, Placed core.copyNum e)
    (hin : ∀ e ∈ entries, Inside core.copyNum e) :
    ∃ seen' busy', entries.foldlM (fun busy e =>
        (List.range core.copyNum).foldlM (fun busy copyIndex =>
          loadCopy core nodeList stateList copyIndex busy e) busy) busy =
        some busy' ∧ Tally nodes seen' busy' ∧
      ∀ y, y ∈ seen' ↔ y ∈ seen ∨ ∃ e ∈ entries, y < core.copyNum ∧
        viewCalcCheckNodeIsNormal nodeList stateList y 0 = true := by
  refine foldlM_collect (fun e he seen busy h => ?_) h
  obtain ⟨seen', busy', hfold, hT, hmem⟩ := foldlM_collect
    (f := fun busy c => loadCopy core nodeList stateList c busy e)
    (T := Tally nodes) (fun c hc seen busy h => loadCopy_tally hnodes h
      (hp e he) (hin e he) (List.mem_range.mp hc)) h
  refine ⟨seen', busy', hfold, hT, fun y => ?_⟩
  rw [hmem]
  refine or_congr_right ?_
  have hslots := (hp e he).slot_iff (hin e he) fun x d =>
    x = y ∧ viewCalcCheckNodeIsNormal nodeList stateList y d = true
  simp only [List.mem_range]
  rw [hslots]
  constructor
  · rintro ⟨x, hx, rfl, hnorm⟩
    exact ⟨hx, hnorm⟩
  · rintro ⟨hy, hnorm⟩
    exact ⟨y, hy, rfl, hnorm⟩

/-- The disk 0 of every normal node is normal and joined. -/
def AllServe (nodeList : NodeInfoList) (stateList : NodeStateList) : Prop :=
  ∀ x ∈ normalNodes nodeList stateList,
    viewCalcCheckNodeIsNormal nodeList stateList x 0 = true

/-- Some partition is normal. -/
def SomeNormal (entries : List PtEntry) : Prop :=
  ∃ e ∈ entries, e.state = .normal

theorem normalNodes_nodup (nodeList : NodeInfoList)
    (stateList : NodeStateList) : (normalNodes nodeList stateList).Nodup :=
  List.nodup_range.filter _

/-- The busy list has a cell for every node of the pool. -/
structure Roomy (core : CalcCore) (stateList : NodeStateList) : Prop where
  nodes : stateList.nodeList.length = core.copyNum
  cells : core.copyNum ≤ core.elemNum

theorem Roomy.candidates (h : Roomy core stateList) :
    (normalNodes nodeList stateList).take core.elemNum =
      normalNodes nodeList stateList := by
  refine List.take_of_length_le ?_
  have hle : (normalNodes nodeList stateList).length ≤
      (List.range stateList.nodeList.length).length :=
    List.length_filter_le ..
  rw [List.length_range, h.nodes] at hle
  exact Nat.le_trans hle h.cells

theorem checkPtEntryList1_iff (nodeList : NodeInfoList)
    {entries : List PtEntry}
    (hroom : Roomy core stateList) (hs : Settled core.copyNum entries) :
    ∃ isNeed, viewCalcCheckPtEntryList1 core nodeList stateList entries
        (viewCalcBuildBusyList core nodeList stateList) = some isNeed ∧
      (isNeed = true ↔
        ¬ AllServe nodeList stateList ∧ SomeNormal entries) := by
  obtain ⟨seen, busy, hfold, hT, hmem⟩ := loadEntries_tally nodeList stateList
    ((normalNodes_nodup nodeList stateList).sublist
      (List.take_sublist ..)) (tally_build core nodeList stateList)
    hs.placed hs.inside
  rw [hroom.candidates] at hT
  refine ⟨_, by rw [viewCalcCheckPtEntryList1, hfold]; rfl, ?_⟩
  have hcount : entries.countP (fun e => e.state == .normal) ≠ 0 ↔
      SomeNormal entries := by
    rw [← Nat.pos_iff_ne_zero, List.countP_pos_iff]
    simp only [beq_iff_eq, SomeNormal]
  have hzero : (∃ x ∈ busy, x.referNum = 0) ↔
      ¬ AllServe nodeList stateList := by
    rw [AllServe]
    push Not
    constructor
    · rintro ⟨x, hx, hrefer⟩
      obtain ⟨y, hy, rfl⟩ := hT.mem.mp hx
      refine ⟨y, hy, fun hnorm => ?_⟩
      obtain ⟨e, rest, hcons⟩ := List.exists_cons_of_ne_nil hs.nonempty
      have hseen : y ∈ seen := by
        refine (hmem y).mpr (Or.inr ⟨e, ?_, ?_, hnorm⟩)
        · rw [hcons]
          exact List.mem_cons_self ..
        · rw [← hroom.nodes]
          exact mem_normalNodes_lt hy
      have hpos := List.count_pos_iff.mpr hseen
      simp only [Int.natCast_eq_zero] at hrefer
      omega
    · rintro ⟨y, hy, hnorm⟩
      refine ⟨_, hT.mem.mpr ⟨y, hy, rfl⟩, ?_⟩
      have hnot : y ∉ seen := by
        intro hseen
        rcases (hmem y).mp hseen with hnil | ⟨-, -, -, hyes⟩
        · exact List.not_mem_nil hnil
        · exact hnorm hyes
      rw [List.count_eq_zero_of_not_mem hnot]
      rfl
  simp only [List.any_eq_true, decide_eq_true_eq, exists_and_right,
    ← and_assoc]
  rw [hzero, hcount]

/-- **WHEN A REBALANCE IS ASKED FOR**, in a pool with a normal node. -/
theorem needRebalance_iff {l : PtEntryList} (hroom : Roomy core stateList)
    (hs : Settled core.copyNum l.ptEntryList)
    (hnorm : viewCalcNormNodeNum nodeList stateList ≠ 0) :
    ∃ isNeed, viewCalculatorNeedRebalance core nodeList stateList l =
        some isNeed ∧
      (isNeed = true ↔ ¬ NoneLeft core.copyNum nodeList stateList ∨
        ¬ AllServe nodeList stateList ∧ SomeNormal l.ptEntryList) := by
  have hlen : l.ptEntryList.length ≠ 0 := by
    rw [Ne, List.length_eq_zero_iff]
    exact hs.nonempty
  obtain ⟨isFault, hfault, hiff⟩ := checkPtEntryList_iff nodeList stateList hs
  obtain ⟨isNeed, hneed, hiff₁⟩ := checkPtEntryList1_iff nodeList hroom hs
  rw [viewCalculatorNeedRebalance, if_neg hlen, if_neg (by omega), hfault]
  cases isFault with
  | true =>
      refine ⟨true, rfl, ?_⟩
      simp only [true_iff]
      exact Or.inl (hiff.mp rfl)
  | false =>
      refine ⟨isNeed, hneed, ?_⟩
      rw [hiff₁]
      refine (or_iff_right ?_).symm
      intro hleft
      exact Bool.noConfusion (hiff.mpr hleft)

/-! ## The loops succeed -/

theorem placeAll_total {v : PtEntry → List CalcElem → Option Placement}
    {nodes : List Nat} :
    ∀ (es : List PtEntry) {busy : List CalcElem},
      (∀ e ∈ es, ∀ busy, Candidates nodes busy → ∃ e' busy',
        v e busy = some (true, e', busy') ∧ Candidates nodes busy') →
      Candidates nodes busy →
      ∃ es' busy', placeAll v es busy = some (true, es', busy') := by
  intro es
  induction es with
  | nil => exact fun {busy} _ _ => ⟨[], busy, rfl⟩
  | cons e es ih =>
      intro busy hv hc
      obtain ⟨e', busy₁, h₁, hc₁⟩ := hv e (List.mem_cons_self ..) busy hc
      obtain ⟨es', busy₂, h₂⟩ :=
        ih (fun x hx => hv x (List.mem_cons_of_mem _ hx)) hc₁
      refine ⟨e' :: es', busy₂, ?_⟩
      rw [placeAll, h₁]
      show (placeAll v es busy₁).bind _ = _
      rw [h₂]
      rfl

theorem placeRounds_total (round : Nat → List PtEntry → List CalcElem →
      Option (Bool × List PtEntry × List CalcElem))
    {nodes : List Nat} {n : Nat} {P : Nat → List PtEntry → Prop}
    (hround : ∀ c es busy, c < n → P c es → Candidates nodes busy →
      ∃ es' busy', round c es busy = some (true, es', busy') ∧
        Candidates nodes busy' ∧ P (c + 1) es') :
    ∀ {k c : Nat} {es : List PtEntry} {busy : List CalcElem}, c + k = n →
      P c es → Candidates nodes busy →
      ∃ es', placeRounds round (List.range' c k) es busy = some (true, es') ∧
        P n es' := by
  intro k
  induction k with
  | zero =>
      intro c es busy hn hP _
      refine ⟨es, rfl, ?_⟩
      rw [← hn]
      exact hP
  | succ k ih =>
      intro c es busy hn hP hc
      obtain ⟨es₁, busy₁, hr, hc₁, hP₁⟩ := hround c es busy (by omega) hP hc
      obtain ⟨es', hrest, hP'⟩ := ih (by omega) hP₁ hc₁.reset
      refine ⟨es', ?_, hP'⟩
      rw [List.range'_succ, placeRounds, hr]
      exact hrest

/-! ## Eviction, refill and balance -/

/-- Eviction reads every slot, if the list has room or nothing is evicted. -/
theorem evictEntry_total {e : PtEntry} (hp : Placed core.copyNum e)
    (hin : Inside core.copyNum e) (version : Nat)
    (hleft : 2 * core.copyNum ≤ maxCopyNum ∨
      NoneLeft core.copyNum nodeList stateList) :
    ∃ e', evictEntry core nodeList stateList version e = some e' ∧
      Inside core.copyNum e' := by
  rcases hleft with hroom | hnone
  · obtain ⟨e', he', -⟩ := foldlM_total
      (f := evictSlot core nodeList stateList version) (I := fun _ => True)
      (List.range core.copyNum) (fun c hc t _ => by
        obtain ⟨index, hindex⟩ := slotIndex_some
          (show Inside core.copyNum t from Or.inl hroom) (List.mem_range.mp hc)
        rw [evictSlot, hindex]
        simp only [Option.bind_eq_bind, Option.bind_some]
        split
        · exact ⟨_, rfl, trivial⟩
        · exact ⟨_, rfl, trivial⟩) (t := e) trivial
    exact ⟨e', he', Or.inl hroom⟩
  · obtain ⟨e', he', rfl⟩ := foldlM_total
      (f := evictSlot core nodeList stateList version) (I := fun t => t = e)
      (List.range core.copyNum) (fun c hc t ht => by
        subst ht
        have hcn := List.mem_range.mp hc
        obtain ⟨index, hindex⟩ := slotIndex_some hin hcn
        obtain ⟨hlt, hl⟩ := hp.slotIndex_live hcn hindex
        have hok := hnone _ (hp.node_lt index hlt hl)
        rw [nodeOf, ← hp.disk_eq index hlt hl] at hok
        refine ⟨t, ?_, rfl⟩
        rw [evictSlot, hindex]
        simp only [Option.bind_eq_bind, Option.bind_some, hok,
          Bool.false_eq_true, if_false]) rfl
    exact ⟨e', he', hin⟩

/-- The candidates are all the nodes of the pool. -/
structure AllNodes (n : Nat) (nodes : List Nat) : Prop where
  nodup : nodes.Nodup
  length : n ≤ nodes.length
  lt : ∀ x ∈ nodes, x < n

theorem Candidates.exists_elem {nodes : List Nat} {busy : List CalcElem}
    (h : Candidates nodes busy) {x : Nat} (hx : x ∈ nodes) :
    ∃ y ∈ busy, y.nodeId = x := by
  have hkey : (x, 0) ∈ keys busy :=
    h.mem_iff.mpr (List.mem_map.mpr ⟨x, hx, rfl⟩)
  obtain ⟨y, hy, heq⟩ := List.mem_map.mp hkey
  exact ⟨y, hy, congrArg Prod.fst heq⟩

/-- An empty slot finds a node without a copy. -/
theorem buildPtEntry_total {nodes : List Nat} {busy : List CalcElem}
    {e : PtEntry} {c : Nat} (hall : AllNodes core.copyNum nodes)
    (hcand : Candidates nodes busy) (hs : Sparse core.copyNum e)
    (hroom : 2 * core.copyNum ≤ maxCopyNum) (hc : c < core.copyNum)
    (hno : ¬ Live e c) (hno' : ¬ Live e (c + core.copyNum)) :
    ∃ e' busy', viewCalcBuildPtEntry core c e busy =
      some (true, e', busy') := by
  obtain ⟨x, hx, hfree⟩ :=
    hs.halves.exists_free hc hno hno' hall.nodup hall.length
  obtain ⟨y, hy, hnode⟩ := hcand.exists_elem hx
  have hoff : liveOn e y.nodeId = false := by
    rw [hnode, liveOn, List.any_eq_false]
    intro i hi hon
    rw [Bool.and_eq_true, beq_iff_eq] at hon
    have hlt : i < 2 * core.copyNum := by
      have hext := List.mem_range.mp hi
      rcases hs.halves.extent_eq with heq | heq
      · omega
      · omega
    exact hfree i hlt hon.1 hon.2.symm
  have hsome : (busy.find? fun x => !liveOn e x.nodeId).isSome := by
    rw [List.find?_isSome]
    exact ⟨y, hy, by rw [hoff]; rfl⟩
  obtain ⟨z, hz⟩ := Option.isSome_iff_exists.mp hsome
  rw [viewCalcBuildPtEntry, hz]
  show ∃ e' busy', (fillCopy core c e z).bind _ = _
  rw [fillCopy, if_neg (hs.used c hc), secondIndex, if_pos (by omega)]
  exact ⟨_, _, rfl⟩

theorem refillVisit_total {nodes : List Nat} {busy : List CalcElem}
    {e : PtEntry} {c : Nat} (hall : AllNodes core.copyNum nodes)
    (hcand : Candidates nodes busy) (hs : Sparse core.copyNum e)
    (hin : Inside core.copyNum e) (hc : c < core.copyNum) :
    ∃ e' busy', refillVisit core c e busy = some (true, e', busy') := by
  by_cases hl : Live e c
  · rw [refillVisit, if_pos (by exact hl)]
    exact ⟨e, busy, rfl⟩
  · have hroom : 2 * core.copyNum ≤ maxCopyNum :=
      hin.resolve_right fun hfull => hl (hfull c hc)
    rw [refillVisit, if_neg (by exact hl)]
    by_cases hext : c + core.copyNum < e.copyNum
    · rw [if_pos hext, secondIndex, if_pos (by omega)]
      simp only [Option.bind_eq_bind, Option.bind_some]
      by_cases hl' : Live e (c + core.copyNum)
      · rw [if_pos (by exact hl')]
        exact ⟨e, busy, rfl⟩
      · rw [if_neg (by exact hl')]
        exact buildPtEntry_total hall hcand hs hroom hc hl hl'
    · have hl' : ¬ Live e (c + core.copyNum) := by
        intro hl'
        have heq := hs.halves.extended c hc hl'
        omega
      rw [if_neg hext]
      exact buildPtEntry_total hall hcand hs hroom hc hl hl'

/-- A refill only touches entries that have room. -/
theorem refillVisit_inside {e e' : PtEntry} {busy busy' : List CalcElem}
    {c : Nat} (hc : c < core.copyNum) (hin : Inside core.copyNum e)
    (h : refillVisit core c e busy = some (true, e', busy')) :
    Inside core.copyNum e' := by
  rcases hin with hroom | hfull
  · exact Or.inl hroom
  · rw [refillVisit, if_pos (by exact hfull c hc)] at h
    cases h
    exact Or.inr hfull

/-- A balance visit succeeds where it has nothing to move. -/
theorem balanceVisit_total {version c : Nat} {e : PtEntry}
    {busy : List CalcElem} (hc : c < core.copyNum)
    (hin : Inside core.copyNum e)
    (hall : e.birthVersion = version ∨
      ∀ x ∈ busy, viewCalcPtEntryHasNodeId e x.nodeId = true) :
    balanceVisit core version c e busy = some (true, e, busy) := by
  have hbuild : viewCalcBuildPtEntry1 core c e version busy =
      some (e, busy) := by
    rw [viewCalcBuildPtEntry1]
    split
    · split
      · rfl
      · rcases hall with hnew | hall
        · rw [viewCalcBuildPreCheck, if_pos hnew]
          rfl
        · obtain ⟨index, hindex⟩ := slotIndex_some hin hc
          have hpre : ∃ r, viewCalcBuildPreCheck core c e version =
              some r := by
            rw [viewCalcBuildPreCheck, hindex]
            split
            · exact ⟨_, rfl⟩
            · split
              · exact ⟨_, rfl⟩
              · simp only [Option.bind_eq_bind, Option.bind_some]
                split
                · exact ⟨_, rfl⟩
                · split
                  · exact ⟨_, rfl⟩
                  · exact ⟨_, rfl⟩
          obtain ⟨r, hr⟩ := hpre
          rw [hr]
          cases r with
          | none => rfl
          | some index =>
              simp only [Option.bind_eq_bind, Option.bind_some]
              split
              · rfl
              · rw [scanTarget_none fun x hx =>
                  hall x (List.mem_of_mem_take hx)]
    · rfl
  rw [balanceVisit, hbuild]
  rfl

/-! ## The rebalance succeeds -/

/-- The entries in the course of a rebalance of `es₀`, before round `c`. -/
def Underway (n version : Nat) (es₀ : List PtEntry) (c : Nat)
    (es : List PtEntry) : Prop :=
  List.Forall₂ (Worked n version c) es₀ es ∧ ∀ e ∈ es, Inside n e

theorem Worked.sparse {n version c : Nat} {e₀ e : PtEntry}
    (h : Worked n version c e₀ e) : Sparse n e := by
  rcases h with ⟨hp, rfl | ⟨-, -, hs, -⟩⟩
  · exact hp.toSparse
  · exact hs

theorem Worked.newOrPlaced {n version c : Nat} {e₀ e : PtEntry}
    (h : Worked n version c e₀ e) : e.birthVersion = version ∨ Placed n e := by
  rcases h with ⟨hp, rfl | ⟨hb, -⟩⟩
  · exact Or.inr hp
  · exact Or.inl hb

theorem forall₂_right {α : Type} {R : α → α → Prop} {P : α → Prop}
    (h : ∀ a b, R a b → P b) {xs ys : List α} (hR : List.Forall₂ R xs ys) :
    ∀ y ∈ ys, P y :=
  forall₂_all (P := fun _ => True) (fun a b hab _ => h a b hab) hR
    fun _ _ => trivial

/-- Every round succeeds. -/
theorem rebalanceRound_total {version c : Nat} {nodes : List Nat}
    {es₀ es : List PtEntry} {busy : List CalcElem} (hc : c < core.copyNum)
    (hall : AllNodes core.copyNum nodes)
    (hw : Underway core.copyNum version es₀ c es)
    (hcand : Candidates nodes busy) :
    ∃ es' busy', rebalanceRound core nodeList stateList version c es busy =
        some (true, es', busy') ∧ Candidates nodes busy' ∧
      Underway core.copyNum version es₀ (c + 1) es' := by
  obtain ⟨hworked, hin⟩ := hw
  have hsparse : ∀ e ∈ es, Sparse core.copyNum e :=
    forall₂_right (fun _ _ h => h.sparse) hworked
  -- the loads
  obtain ⟨busy₁, hload, hcand₁⟩ := foldlM_total
    (f := loadCopy core nodeList stateList c) (I := Candidates nodes)
    es (fun e he busy hcand => by
      obtain ⟨index, hindex⟩ := slotIndex_some (hin e he) hc
      have hsome : ∃ busy', loadCopy core nodeList stateList c busy e =
          some busy' := by
        rw [loadCopy, hindex]
        simp only [Option.bind_eq_bind, Option.bind_some]
        split
        · exact ⟨_, rfl⟩
        · exact ⟨_, rfl⟩
      obtain ⟨busy', hbusy'⟩ := hsome
      exact ⟨busy', hbusy', loadCopy_candidates hcand hbusy'⟩) hcand
  -- the refill
  obtain ⟨es₁, busy₂, hrefill⟩ := placeAll_total
    (v := refillVisit core c) es
    (fun e he busy hcand => by
      obtain ⟨e', busy', h⟩ :=
        refillVisit_total hall hcand (hsparse e he) (hin e he) hc
      exact ⟨e', busy', h, refillVisit_candidates hcand h⟩) hcand₁
  obtain ⟨hcand₂, hvisits⟩ := placeAll_true
    (R := fun e e' => (∀ e₀, Worked core.copyNum version c e₀ e →
        Worked core.copyNum version (c + 1) e₀ e') ∧
      (Inside core.copyNum e → Inside core.copyNum e'))
    (fun e busy e' busy' hcand h => ⟨refillVisit_candidates hcand h,
      fun e₀ hw => refillVisit_worked hc hall.lt hcand h hw,
      fun hin => refillVisit_inside hc hin h⟩)
    hcand₁ hrefill
  have hworked₁ : List.Forall₂ (Worked core.copyNum version (c + 1)) es₀ es₁ :=
    forall₂_comp (fun e₀ e e' hw hR => hR.1 e₀ hw) hworked hvisits
  have hin₁ : ∀ e ∈ es₁, Inside core.copyNum e :=
    forall₂_all (fun _ _ hR => hR.2) hvisits hin
  -- the balance finds nothing to move
  have hfull : ∀ e ∈ es₁, e.birthVersion = version ∨ Placed core.copyNum e :=
    forall₂_right (fun _ _ h => h.newOrPlaced) hworked₁
  have hnothing : ∀ e busy, Candidates nodes busy →
      e.birthVersion = version ∨ Placed core.copyNum e →
      e.birthVersion = version ∨
        ∀ x ∈ busy, viewCalcPtEntryHasNodeId e x.nodeId = true :=
    fun e busy hcand => Or.imp_right fun hp x hx =>
      hp.hasNodeId (hall.lt _ (hcand.mem hx).1)
  obtain ⟨es₂, busy₃, hbalance⟩ := placeAll_total
    (v := balanceVisit core version c) es₁
    (fun e he busy hcand => ⟨e, busy, balanceVisit_total hc (hin₁ e he)
      (hnothing e busy hcand (hfull e he)), hcand⟩) hcand₂
  obtain ⟨-, hkept⟩ := placeAll_true
    (R := fun e e' => e.birthVersion = version ∨ Placed core.copyNum e →
      e' = e)
    (fun e busy e' busy' hcand h => ⟨balanceVisit_candidates hcand h,
      fun hfull => (balanceVisit_same (hnothing e busy hcand hfull) h).1⟩)
    hcand₂ hbalance
  have hround : rebalanceRound core nodeList stateList version c es busy =
      some (true, es₂, busy₃) := by
    rw [rebalanceRound, viewCalcFillBusyList, hload]
    show (placeAll (refillVisit core c) es busy₁).bind _ = _
    rw [hrefill]
    exact hbalance
  obtain ⟨hcand₃, hworked₂⟩ :=
    rebalanceRound_worked hc hall.lt hworked hcand hround
  refine ⟨es₂, busy₃, hround, hcand₃, hworked₂, ?_⟩
  refine forall₂_all (P := fun e => Inside core.copyNum e ∧
    (e.birthVersion = version ∨ Placed core.copyNum e)) ?_ hkept
    fun e he => ⟨hin₁ e he, hfull e he⟩
  intro e e' hsame hp
  rw [hsame hp.2]
  exact hp.1

/-- **A REBALANCE SUCCEEDS** when every node of the pool is normal, and leaves
    every entry with one copy on each node. -/
theorem rebalance_total {l : PtEntryList} (hroom : Roomy core stateList)
    (hlaw : ViewLaw core.copyNum l)
    (hs : Settled core.copyNum l.ptEntryList)
    (hnorm : viewCalcNormNodeNum nodeList stateList = core.copyNum)
    (hleft : 2 * core.copyNum ≤ maxCopyNum ∨
      NoneLeft core.copyNum nodeList stateList) :
    ∃ l', viewCalculatorRebalance core nodeList stateList l =
        some (true, l') ∧ Settled core.copyNum l'.ptEntryList := by
  obtain ⟨evicted, hevict, hin⟩ := mapM_total
    (f := evictEntry core nodeList stateList (l.globalVersion + 1))
    fun e he => evictEntry_total (hs.placed e he) (hs.inside e he) _ hleft
  have hworked : List.Forall₂ (Worked core.copyNum (l.globalVersion + 1) 0)
      l.ptEntryList evicted :=
    forall₂_of_mapM_some (fun e e' he h =>
      evictEntry_worked (hs.placed e he) h) hevict
  have hall : AllNodes core.copyNum (normalNodes nodeList stateList) := by
    refine ⟨normalNodes_nodup _ _, ?_, ?_⟩
    · rw [← normNodeNum_eq, hnorm]
    · intro x hx
      rw [← hroom.nodes]
      exact mem_normalNodes_lt hx
  have hcand : Candidates (normalNodes nodeList stateList)
      (viewCalcBuildBusyList core nodeList stateList) := by
    rw [← hroom.candidates]
    exact candidates_build core nodeList stateList
  obtain ⟨es, hbuild, hes⟩ := placeRounds_total
    (rebalanceRound core nodeList stateList (l.globalVersion + 1))
    (P := Underway core.copyNum (l.globalVersion + 1) l.ptEntryList)
    (fun c es busy hc hw hcand => rebalanceRound_total hc hall hw hcand)
    (Nat.zero_add core.copyNum) ⟨hworked, hin⟩ hcand
  have hre : viewCalculatorRebalance core nodeList stateList l =
      some (true, { l with
        globalVersion := l.globalVersion + 1
        ptEntryList := es.map (closeEntry core) }) := by
    have hbuild' : viewCalcBuildPtEntryList1 core nodeList stateList
        (l.globalVersion + 1) evicted
        (viewCalcBuildBusyList core nodeList stateList) = some (true, es) := by
      rw [viewCalcBuildPtEntryList1, List.range_eq_range']
      exact hbuild
    rw [viewCalculatorRebalance, if_neg (by omega)]
    simp only [Option.bind_eq_bind, hevict, hbuild', Option.bind_some]
  refine ⟨_, hre, ?_, ?_, ?_⟩
  · intro e he
    exact ((rebalance_lawful hroom.nodes hlaw hre).law.entries e he).placed
  · intro e he
    obtain ⟨e₁, he₁, rfl⟩ := List.mem_map.mp he
    have hcopy := (updatePtState_frame e₁ core.minCopyNum core.copyNum).1
    exact (hes.2 e₁ he₁).of_copyList hcopy
  · show es.map (closeEntry core) ≠ []
    rw [Ne, List.map_eq_nil_iff, ← List.length_eq_zero_iff,
      ← hes.1.length_eq, List.length_eq_zero_iff]
    exact hs.nonempty

end UbsIo.Mms
