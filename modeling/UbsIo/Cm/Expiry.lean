import UbsIo.Cm.Monitor
import UbsIo.Pt.Placement

/-! # Expiry is committed or retried

    A fault record that has expired may only be dropped when the state list
    that marks its node or disk OUT has been stored, and the view computed from
    that state list as well.  The commit has two store steps.  The first clears
    `stateChange`, and when the second then fails nothing remembers it: the
    retry finds every node and disk marked already and the flag clear, reports
    success without storing anything, and the record is dropped.

    So the property holds in the runs in which no expiry that has nothing to
    mark comes while the stored view lags behind the stored state list
    (`ExpiryGuard`).  The invariant is that a clear flag means a stored table
    (`Inv`); what the marking of one call does is a relation of its own
    (`Marks`), and the rest is a case split on `stateChange`. -/

namespace UbsIo.Cm

open UbsIo.Lib
open UbsIo.Pt (NodeState NodeClusterState DiskClusterState NodeInfoList
  CmEventType)

variable {View : Type} {ops : CalcOps View} {cfg : Config}

/-! ## The property -/

/-- The state list marks the node OUT. -/
def nodeOut (stateList : NodeStateList) (nodeId : Nat) : Prop :=
  (stateList nodeId).clusterState = .stateOut

/-- The state list marks the disk OUT. -/
def diskOut (stateList : NodeStateList) (nodeId diskId : Nat) : Prop :=
  ∃ x, (stateList nodeId).diskList.find? (·.diskId == diskId) = some x ∧
    x.clusterState = .stateOut

/-- The record is about a fault of its node. -/
def NodeRecord.hasNode (r : NodeRecord) : Prop :=
  r.used = true ∧ r.fault = true

/-- The record is about a fault of this disk. -/
def NodeRecord.hasDisk (r : NodeRecord) (diskId : Nat) : Prop :=
  r.used = true ∧ r.fault = false ∧ ∃ d ∈ r.diskList, d.id = diskId

/-- The state list in the store has the mark, and the view in the store was
    computed from that state list. -/
def Committed (p : CmServerPool View) (out : NodeStateList → Prop) : Prop :=
  out p.zkStateList ∧ p.viewState = p.zkStateList

/-- An expiry that leads from `p` to `p'` has committed what it dropped. -/
structure ExpirySafe (p p' : CmServerPool View) : Prop where
  node : ∀ nodeId, (p.records nodeId).hasNode →
    ¬ (p'.records nodeId).hasNode → Committed p' fun s => nodeOut s nodeId
  disk : ∀ nodeId diskId, (p.records nodeId).hasDisk diskId →
    ¬ (p'.records nodeId).hasDisk diskId →
    Committed p' fun s => diskOut s nodeId diskId

/-- The property at one step of a run: it is about the task of the monitor. -/
def SafeStep (ops : CalcOps View) (cfg : Config) (p : CmServerPool View) :
    Event View → Prop
  | .expire curTimes stateOk viewOk =>
      ExpirySafe p (next ops cfg p (.expire curTimes stateOk viewOk))
  | _ => True

/-! ## The condition -/

/-- An expired record asks for a mark that the state list does not have. -/
def HasNews (cfg : Config) (curTimes : Nat) (p : CmServerPool View) : Prop :=
  ∃ nodeId < cfg.maxNodeNum,
    ((p.records nodeId).nodeExpired cfg curTimes = true ∧
      ¬ nodeOut p.stateList nodeId) ∨
    ∃ diskId ∈ (p.records nodeId).expiredDisks cfg curTimes,
      ¬ diskOut p.stateList nodeId diskId

/-- The condition on one call of the monitor's task. -/
structure ExpiryGuard (cfg : Config) (curTimes : Nat) (p : CmServerPool View) :
    Prop where
  /-- The expired disks are in the state list. -/
  known : ∀ nodeId < cfg.maxNodeNum,
    ∀ diskId ∈ (p.records nodeId).expiredDisks cfg curTimes,
      ∃ x ∈ (p.stateList nodeId).diskList, x.diskId = diskId
  /-- Something is left to store, or the stored view is not behind. -/
  current : p.stateChange = true ∨ HasNews cfg curTimes p ∨
    p.viewState = p.zkStateList

/-- The condition at one step of a run. -/
def Guard (cfg : Config) (p : CmServerPool View) : Event View → Prop
  | .expire curTimes _ _ => ExpiryGuard cfg curTimes p
  | _ => True

/-! ## Marking -/

/-- What the marking of an expiry does to the pool: marks and listed disks
    stay, a clear flag means that nothing has changed. -/
structure Marks (p p' : CmServerPool View) : Prop where
  frame : p' = { p with
    stateList := p'.stateList, stateChange := p'.stateChange }
  unchanged : p'.stateChange = false → p' = p
  node : ∀ n, nodeOut p.stateList n → nodeOut p'.stateList n
  disk : ∀ n d, diskOut p.stateList n d → diskOut p'.stateList n d
  listed : ∀ n, (p'.stateList n).diskList.map (·.diskId)
    = (p.stateList n).diskList.map (·.diskId)

theorem Marks.refl (p : CmServerPool View) : Marks p p where
  frame := rfl
  unchanged _ := rfl
  node _ h := h
  disk _ _ h := h
  listed _ := rfl

theorem Marks.trans {p₁ p₂ p₃ : CmServerPool View} (h₁ : Marks p₁ p₂)
    (h₂ : Marks p₂ p₃) : Marks p₁ p₃ where
  frame := by
    rw [h₂.frame, h₁.frame]
  unchanged h := by
    have h₃ := h₂.unchanged h
    rw [h₃] at h
    exact h₃.trans (h₁.unchanged h)
  node n h := h₂.node n (h₁.node n h)
  disk n d h := h₂.disk n d (h₁.disk n d h)
  listed n := (h₂.listed n).trans (h₁.listed n)

/-- Marking leaves the records alone. -/
theorem Marks.records {p p' : CmServerPool View} (h : Marks p p') :
    p'.records = p.records := by
  rw [h.frame]

/-- A loop of marks is a mark. -/
theorem marks_foldl {α : Type} {f : CmServerPool View → α → CmServerPool View}
    (hf : ∀ p a, Marks p (f p a)) :
    ∀ (l : List α) (p : CmServerPool View), Marks p (l.foldl f p) := by
  intro l
  induction l with
  | nil => exact Marks.refl
  | cons a l ih => intro p; exact (hf p a).trans (ih (f p a))

theorem marks_nodeSet (nodeId : Nat) (p : CmServerPool View) :
    Marks p (cmServerViewExpiredNodeSet nodeId p) := by
  rw [cmServerViewExpiredNodeSet]
  split
  · exact Marks.refl p
  · refine ⟨rfl, fun h => Bool.noConfusion h, ?_, ?_, ?_⟩
    · intro n hn
      show (Function.update p.stateList nodeId _ n).clusterState = _
      by_cases hnn : n = nodeId
      · rw [hnn, Function.update_self]
      · rw [Function.update_of_ne hnn]
        exact hn
    · intro n d hd
      show ∃ x, (Function.update p.stateList nodeId _ n).diskList.find? _
        = some x ∧ _
      by_cases hnn : n = nodeId
      · rw [hnn, Function.update_self]
        rw [hnn] at hd
        exact hd
      · rw [Function.update_of_ne hnn]
        exact hd
    · intro n
      show (Function.update p.stateList nodeId _ n).diskList.map _ = _
      by_cases hnn : n = nodeId
      · rw [hnn, Function.update_self]
      · rw [Function.update_of_ne hnn]

theorem nodeOut_nodeSet (nodeId : Nat) (p : CmServerPool View) :
    nodeOut (cmServerViewExpiredNodeSet nodeId p).stateList nodeId := by
  rw [cmServerViewExpiredNodeSet]
  split
  · assumption
  · show (Function.update p.stateList nodeId _ nodeId).clusterState = _
    rw [Function.update_self]

/-! ### Disks -/

theorem markDiskOut_ids (diskId : Nat) (l : List NodeDiskState) :
    (markDiskOut diskId l).map (·.diskId) = l.map (·.diskId) := by
  induction l with
  | nil => rfl
  | cons x l ih =>
      rw [markDiskOut]
      split
      · rfl
      · rw [List.map_cons, List.map_cons, ih]

/-- What the search for a disk finds after the mark. -/
theorem find_markDiskOut (diskId d : Nat) (l : List NodeDiskState) :
    (markDiskOut diskId l).find? (·.diskId == d)
      = (l.find? (·.diskId == d)).map fun x =>
          if d = diskId then { x with clusterState := .stateOut } else x := by
  induction l with
  | nil => rfl
  | cons x l ih =>
      rw [markDiskOut]
      by_cases hx : x.diskId = diskId
      · rw [if_pos hx, List.find?_cons, List.find?_cons]
        by_cases hd : x.diskId = d
        · simp [hd, hd.symm.trans hx]
        · have hne : d ≠ diskId := fun h => hd (hx.trans h.symm)
          simp only [beq_eq_false_iff_ne.mpr hd, if_neg hne, Option.map_id']
      · rw [if_neg hx, List.find?_cons, List.find?_cons]
        by_cases hd : x.diskId = d
        · have hne : d ≠ diskId := fun h => hx (hd.trans h)
          simp [hd, hne]
        · simp only [beq_eq_false_iff_ne.mpr hd]
          exact ih

theorem marks_diskSet (nodeId diskId : Nat) (p : CmServerPool View) :
    Marks p (cmServerViewExpiredDiskSet nodeId diskId p) := by
  rw [cmServerViewExpiredDiskSet]
  split
  · exact Marks.refl p
  · split
    · exact Marks.refl p
    · refine ⟨rfl, fun h => Bool.noConfusion h, ?_, ?_, ?_⟩
      · intro n hn
        show (Function.update p.stateList nodeId _ n).clusterState = _
        by_cases hnn : n = nodeId
        · rw [hnn, Function.update_self]
          rw [hnn] at hn
          exact hn
        · rw [Function.update_of_ne hnn]
          exact hn
      · rintro n d ⟨x, hx, hout⟩
        show ∃ x, (Function.update p.stateList nodeId _ n).diskList.find? _
          = some x ∧ _
        by_cases hnn : n = nodeId
        · rw [hnn] at hx
          rw [hnn, Function.update_self]
          dsimp only
          rw [find_markDiskOut, hx]
          refine ⟨_, rfl, ?_⟩
          split
          · rfl
          · exact hout
        · rw [Function.update_of_ne hnn]
          exact ⟨x, hx, hout⟩
      · intro n
        show (Function.update p.stateList nodeId _ n).diskList.map _ = _
        by_cases hnn : n = nodeId
        · rw [hnn, Function.update_self]
          exact markDiskOut_ids diskId _
        · rw [Function.update_of_ne hnn]

/-- A listed disk gets its mark. -/
theorem diskOut_diskSet {nodeId diskId : Nat} {p : CmServerPool View}
    (h : ∃ x ∈ (p.stateList nodeId).diskList, x.diskId = diskId) :
    diskOut (cmServerViewExpiredDiskSet nodeId diskId p).stateList nodeId
      diskId := by
  obtain ⟨y, hy, hyd⟩ := h
  have hsome : ((p.stateList nodeId).diskList.find?
      (·.diskId == diskId)).isSome :=
    List.find?_isSome.mpr ⟨y, hy, beq_iff_eq.mpr hyd⟩
  obtain ⟨x, hx⟩ := Option.isSome_iff_exists.mp hsome
  rw [cmServerViewExpiredDiskSet, hx]
  dsimp only
  split
  · rename_i hout
    exact ⟨x, hx, hout⟩
  · show ∃ x, (Function.update p.stateList nodeId _ nodeId).diskList.find? _
      = some x ∧ _
    rw [Function.update_self]
    dsimp only
    rw [find_markDiskOut, hx]
    exact ⟨_, rfl, by simp only [if_true]⟩

/-! ### The whole loop -/

theorem marks_expiredSet (curTimes : Nat) (p : CmServerPool View)
    (nodeId : Nat) : Marks p (expiredSet cfg curTimes p nodeId) := by
  rw [expiredSet]
  split
  · exact marks_nodeSet nodeId p
  · exact marks_foldl (fun p diskId => marks_diskSet nodeId diskId p) _ p

/-- What one turn of a loop of marks establishes holds at its end. -/
theorem foldl_reaches {α : Type}
    {f : CmServerPool View → α → CmServerPool View}
    {Q : CmServerPool View → Prop} {a : α} {p : CmServerPool View}
    {l : List α} (hf : ∀ p a, Marks p (f p a))
    (hkeep : ∀ p p', Marks p p' → Q p → Q p')
    (hmake : ∀ p', Marks p p' → Q (f p' a)) (ha : a ∈ l) :
    Q (l.foldl f p) := by
  obtain ⟨l₁, l₂, rfl⟩ := List.append_of_mem ha
  rw [List.foldl_append, List.foldl_cons]
  exact hkeep _ _ (marks_foldl hf l₂ _) (hmake _ (marks_foldl hf l₁ p))

/-- The pool after the marking of an expiry. -/
def marked (cfg : Config) (curTimes : Nat) (p : CmServerPool View) :
    CmServerPool View :=
  (List.range cfg.maxNodeNum).foldl (expiredSet cfg curTimes) p

variable (cfg) in
theorem marks_marked (curTimes : Nat) (p : CmServerPool View) :
    Marks p (marked cfg curTimes p) :=
  marks_foldl (marks_expiredSet curTimes) _ p

/-- **MARKED**: every expired node is marked. -/
theorem nodeOut_marked {curTimes nodeId : Nat} {p : CmServerPool View}
    (hn : nodeId < cfg.maxNodeNum)
    (h : (p.records nodeId).nodeExpired cfg curTimes = true) :
    nodeOut (marked cfg curTimes p).stateList nodeId := by
  refine foldl_reaches (marks_expiredSet curTimes)
    (fun _ _ hm => hm.node nodeId) ?_ (List.mem_range.mpr hn)
  intro p' hm
  rw [expiredSet, hm.records, if_pos h]
  exact nodeOut_nodeSet nodeId p'

/-- **MARKED**: every expired disk of the state list is marked. -/
theorem diskOut_marked {curTimes nodeId diskId : Nat} {p : CmServerPool View}
    (hn : nodeId < cfg.maxNodeNum)
    (h : diskId ∈ (p.records nodeId).expiredDisks cfg curTimes)
    (hk : ∃ x ∈ (p.stateList nodeId).diskList, x.diskId = diskId) :
    diskOut (marked cfg curTimes p).stateList nodeId diskId := by
  have hnode : (p.records nodeId).nodeExpired cfg curTimes = false := by
    rw [NodeRecord.expiredDisks] at h
    split at h
    · rename_i hok
      obtain ⟨-, hfault⟩ := Bool.and_eq_true_iff.mp hok
      rw [Bool.not_eq_true'] at hfault
      rw [NodeRecord.nodeExpired, hfault, Bool.and_false, Bool.false_and]
    · exact nomatch h
  have hlisted : ∀ p', Marks p p' →
      ∃ x ∈ (p'.stateList nodeId).diskList, x.diskId = diskId := by
    intro p' hm
    have hmem : diskId ∈ (p.stateList nodeId).diskList.map (·.diskId) :=
      List.mem_map.mpr hk
    rw [← hm.listed nodeId] at hmem
    exact List.mem_map.mp hmem
  refine foldl_reaches (marks_expiredSet curTimes)
    (fun _ _ hm => hm.disk nodeId diskId) ?_ (List.mem_range.mpr hn)
  intro p' hm
  rw [expiredSet, hm.records, if_neg (by rw [hnode]; decide)]
  refine foldl_reaches (fun p d => marks_diskSet nodeId d p)
    (fun _ _ hm' => hm'.disk nodeId diskId) ?_ h
  intro p'' hm'
  exact diskOut_diskSet (hlisted p'' (hm.trans hm'))

/-! ## Dropping -/

/-- A node record that the update drops has expired. -/
theorem nodeExpired_of_dropped {curTimes : Nat} {r : NodeRecord}
    (h : r.hasNode) (hd : ¬ (expiredUpdate cfg curTimes r).hasNode) :
    r.nodeExpired cfg curTimes = true := by
  obtain ⟨hu, hf⟩ := h
  rw [expiredUpdate, if_neg (by rw [hu]; decide), if_pos hf] at hd
  by_cases ht : r.times + cfg.permFaultTime ≤ curTimes
  · rw [NodeRecord.nodeExpired, hu, hf, decide_eq_true ht]
    rfl
  · rw [if_neg ht] at hd
    exact absurd ⟨hu, hf⟩ hd

/-- A disk record that the update drops has expired. -/
theorem mem_expiredDisks_of_dropped {curTimes diskId : Nat} {r : NodeRecord}
    (h : r.hasDisk diskId)
    (hd : ¬ (expiredUpdate cfg curTimes r).hasDisk diskId) :
    diskId ∈ r.expiredDisks cfg curTimes := by
  obtain ⟨hu, hf, d, hmem, hid⟩ := h
  rw [NodeRecord.expiredDisks, if_pos (by rw [hu, hf]; rfl)]
  refine List.mem_map.mpr ⟨d, List.mem_filter.mpr ⟨hmem, ?_⟩, hid⟩
  by_contra hexp
  have hkept : d ∈ r.diskList.filter fun d => !d.expired cfg curTimes :=
    List.mem_filter.mpr ⟨hmem, by
      rw [Bool.not_eq_true']
      exact Bool.eq_false_iff.mpr hexp⟩
  have hne : ∀ {l : List RecordInfo}, d ∈ l → ¬ l.isEmpty = true := by
    intro l hl hl0
    rw [List.isEmpty_iff.mp hl0] at hl
    exact nomatch hl
  rw [expiredUpdate, if_neg (by rw [hu]; decide), if_neg (by rw [hf]; decide),
    if_neg (hne hmem)] at hd
  dsimp only at hd
  rw [if_neg (hne hkept)] at hd
  exact hd ⟨hu, hf, d, hkept, hid⟩

/-! ## Storing -/

/-- A clear flag means a stored table. -/
structure Inv (p : CmServerPool View) : Prop where
  state : p.stateChange = false → p.zkStateList = p.stateList
  view : p.ptChange = false →
    p.zkPtEntryList = p.ptEntryList ∧ p.viewState = p.calcState

/-- Storing the view; where it came from is settled by the store. -/
theorem recordPtEntryList_spec (viewOk : Bool) {p : CmServerPool View}
    (hs : p.stateChange = false → p.zkStateList = p.stateList)
    (hv : p.ptChange = false → p.zkPtEntryList = p.ptEntryList) :
    Inv (recordPtEntryList viewOk p).2 ∧
    (recordPtEntryList viewOk p).2.zkStateList = p.zkStateList ∧
    (recordPtEntryList viewOk p).2.records = p.records ∧
    ((recordPtEntryList viewOk p).1 = true →
      (recordPtEntryList viewOk p).2.viewState = p.calcState) := by
  rw [recordPtEntryList]
  split
  · rename_i hpt
    exact ⟨⟨hs, fun _ => ⟨hv hpt, rfl⟩⟩, rfl, rfl, fun _ => rfl⟩
  · rename_i hpt
    split
    · exact ⟨⟨hs, fun _ => ⟨rfl, rfl⟩⟩, rfl, rfl, fun _ => rfl⟩
    · exact ⟨⟨hs, fun hb => absurd hb hpt⟩, rfl, rfl,
        fun hb => Bool.noConfusion hb⟩

variable (ops cfg) in
/-- Updating the view: when it goes through, the stored view has been computed
    from the state list in memory. -/
theorem updatePtEntryList_spec (event : Option CmEventType) (viewOk : Bool)
    {p : CmServerPool View} (h : Inv p) :
    Inv (cmServerViewUpdatePtEntryList ops cfg event viewOk p).2 ∧
    (cmServerViewUpdatePtEntryList ops cfg event viewOk p).2.zkStateList
      = p.zkStateList ∧
    (cmServerViewUpdatePtEntryList ops cfg event viewOk p).2.records
      = p.records ∧
    ((cmServerViewUpdatePtEntryList ops cfg event viewOk p).1 = true →
      (cmServerViewUpdatePtEntryList ops cfg event viewOk p).2.viewState
        = p.stateList) := by
  rw [cmServerViewUpdatePtEntryList]
  split
  · cases hr : ops.viewRebalance p.nodeList p.stateList event
        p.ptEntryList with
    | none => exact ⟨h, rfl, rfl, fun hb => Bool.noConfusion hb⟩
    | some l => exact recordPtEntryList_spec viewOk h.state Bool.noConfusion
  · exact recordPtEntryList_spec viewOk h.state fun hpt => (h.view hpt).1

variable (ops cfg) in
/-- Storing the state list first: when all goes through, the stored view has
    been computed from the stored state list, the one in memory. -/
theorem recordStateList_spec (event : Option CmEventType)
    (stateOk viewOk : Bool) {p : CmServerPool View} (h : Inv p) :
    Inv (recordStateList ops cfg event stateOk viewOk p).2 ∧
    (recordStateList ops cfg event stateOk viewOk p).2.records = p.records ∧
    ((recordStateList ops cfg event stateOk viewOk p).1 = true →
      (recordStateList ops cfg event stateOk viewOk p).2.zkStateList
        = p.stateList ∧
      (recordStateList ops cfg event stateOk viewOk p).2.viewState
        = p.stateList) := by
  rw [recordStateList]
  split
  · have hI : Inv { p with zkStateList := p.stateList, stateChange := false } :=
      ⟨fun _ => rfl, h.view⟩
    obtain ⟨hinv, hzk, hrec, hview⟩ := updatePtEntryList_spec ops cfg
      event viewOk hI
    exact ⟨hinv, hrec, fun hok => ⟨hzk, hview hok⟩⟩
  · exact ⟨h, rfl, fun hb => Bool.noConfusion hb⟩

variable (ops cfg) in
/-- The commit of an expiry, when it goes through: with a clear flag it has
    done nothing. -/
theorem expiredCommit_spec (stateOk viewOk : Bool) {p : CmServerPool View}
    (h : Inv p) :
    Inv (cmServerViewExpiredCommit ops cfg stateOk viewOk p).2 ∧
    (cmServerViewExpiredCommit ops cfg stateOk viewOk p).2.records = p.records ∧
    ((cmServerViewExpiredCommit ops cfg stateOk viewOk p).1 = true →
      (p.stateChange = false ∧
        (cmServerViewExpiredCommit ops cfg stateOk viewOk p).2 = p) ∨
      ((cmServerViewExpiredCommit ops cfg stateOk viewOk p).2.zkStateList
          = p.stateList ∧
        (cmServerViewExpiredCommit ops cfg stateOk viewOk p).2.viewState
          = p.stateList)) := by
  rw [cmServerViewExpiredCommit]
  split
  · rename_i hc
    exact ⟨h, rfl, fun _ => Or.inl ⟨hc, rfl⟩⟩
  · obtain ⟨hinv, hrec, hdone⟩ := recordStateList_spec ops cfg none
      stateOk viewOk h
    exact ⟨hinv, hrec, fun hok => Or.inr (hdone hok)⟩

/-- Marking keeps the invariant: a new mark raises the flag. -/
theorem Marks.inv {p p' : CmServerPool View} (hm : Marks p p') (h : Inv p) :
    Inv p' := by
  refine ⟨fun hc => ?_, fun hpt => ?_⟩
  · have hp := hm.unchanged hc
    rw [hp] at hc ⊢
    exact h.state hc
  · rw [hm.frame] at hpt ⊢
    exact h.view hpt

/-! ## One expiry -/

/-- The marking of an expiry that has news raises the flag. -/
theorem stateChange_of_news {curTimes : Nat} {p : CmServerPool View}
    (hk : ∀ nodeId < cfg.maxNodeNum,
      ∀ diskId ∈ (p.records nodeId).expiredDisks cfg curTimes,
        ∃ x ∈ (p.stateList nodeId).diskList, x.diskId = diskId)
    (h : HasNews cfg curTimes p) :
    (marked cfg curTimes p).stateChange = true := by
  by_contra hc
  have hp := (marks_marked cfg curTimes p).unchanged (Bool.eq_false_iff.mpr hc)
  obtain ⟨nodeId, hn, ⟨hexp, hnot⟩ | ⟨diskId, hd, hnot⟩⟩ := h
  · have hout := nodeOut_marked hn hexp
    rw [hp] at hout
    exact hnot hout
  · have hout := diskOut_marked hn hd (hk nodeId hn diskId hd)
    rw [hp] at hout
    exact hnot hout

/-- After a commit that went through, the stored view was computed from the
    stored state list, which has the marks. -/
theorem expiredCommit_synced {curTimes : Nat} {stateOk viewOk : Bool}
    {p : CmServerPool View} (h : Inv p) (hg : ExpiryGuard cfg curTimes p)
    (hok : (cmServerViewExpiredCommit ops cfg stateOk viewOk
      (marked cfg curTimes p)).1 = true) :
    (cmServerViewExpiredCommit ops cfg stateOk viewOk
        (marked cfg curTimes p)).2.zkStateList
      = (marked cfg curTimes p).stateList ∧
    (cmServerViewExpiredCommit ops cfg stateOk viewOk
        (marked cfg curTimes p)).2.viewState
      = (marked cfg curTimes p).stateList := by
  have hm := marks_marked cfg curTimes p
  obtain ⟨-, -, hdone⟩ := expiredCommit_spec ops cfg stateOk viewOk (hm.inv h)
  rcases hdone hok with ⟨hclear, hsame⟩ | hstored
  · -- nothing was marked, so the flag was clear before and the guard is left
    -- with the stored view being current
    have hp := hm.unchanged hclear
    have hzk : p.zkStateList = p.stateList := h.state (by rw [← hp]; exact hclear)
    have hview : p.viewState = p.zkStateList := by
      rcases hg.current with hc | hnews | hcur
      · rw [hp, hc] at hclear
        exact Bool.noConfusion hclear
      · rw [stateChange_of_news hg.known hnews] at hclear
        exact Bool.noConfusion hclear
      · exact hcur
    rw [hsame, hp]
    exact ⟨hzk, hview.trans hzk⟩
  · exact hstored

/-- **EXPIRY**: a guarded expiry has committed what it drops. -/
theorem expire_safe {curTimes : Nat} {stateOk viewOk : Bool}
    {p : CmServerPool View} (h : Inv p) (hg : ExpiryGuard cfg curTimes p) :
    ExpirySafe p (next ops cfg p (.expire curTimes stateOk viewOk)) := by
  have hm := marks_marked cfg curTimes p
  obtain ⟨-, hrec, -⟩ := expiredCommit_spec ops cfg stateOk viewOk (hm.inv h)
  have hnext : next ops cfg p (.expire curTimes stateOk viewOk)
      = if (cmServerViewExpiredCommit ops cfg stateOk viewOk
            (marked cfg curTimes p)).1 then
          { (cmServerViewExpiredCommit ops cfg stateOk viewOk
              (marked cfg curTimes p)).2 with
            records := fun n =>
              if n < cfg.maxNodeNum then expiredUpdate cfg curTimes
                ((cmServerViewExpiredCommit ops cfg stateOk viewOk
                  (marked cfg curTimes p)).2.records n)
              else (cmServerViewExpiredCommit ops cfg stateOk viewOk
                (marked cfg curTimes p)).2.records n }
        else (cmServerViewExpiredCommit ops cfg stateOk viewOk
          (marked cfg curTimes p)).2 := rfl
  rw [hm.records] at hrec
  cases hok : (cmServerViewExpiredCommit ops cfg stateOk viewOk
      (marked cfg curTimes p)).1 with
  | false =>
      rw [hnext, hok, if_neg Bool.noConfusion]
      refine ⟨fun n hn hgone => ?_, fun n d hd hgone => ?_⟩
      · rw [hrec] at hgone
        exact absurd hn hgone
      · rw [hrec] at hgone
        exact absurd hd hgone
  | true =>
      obtain ⟨hzk, hview⟩ := expiredCommit_synced h hg hok
      rw [hnext, hok, if_pos rfl, hrec]
      refine ⟨fun n hn hgone => ⟨?_, hview.trans hzk.symm⟩,
        fun n d hd hgone => ⟨?_, hview.trans hzk.symm⟩⟩
      · dsimp only at hgone ⊢
        split at hgone
        · rename_i hlt
          rw [hzk]
          exact nodeOut_marked hlt (nodeExpired_of_dropped hn hgone)
        · exact absurd hn hgone
      · dsimp only at hgone ⊢
        split at hgone
        · rename_i hlt
          have hexp := mem_expiredDisks_of_dropped hd hgone
          rw [hzk]
          exact diskOut_marked hlt hexp (hg.known n hlt d hexp)
        · exact absurd hd hgone

/-! ## Runs -/

/-- **INVARIANT STEP**: every event keeps the invariant. -/
theorem inv_next {p : CmServerPool View} (h : Inv p) (ev : Event View) :
    Inv (next ops cfg p ev) := by
  cases ev with
  | listenNode nodeId times => exact ⟨h.state, h.view⟩
  | listenDisk nodeId diskId times => exact ⟨h.state, h.view⟩
  | cancelNode nodeId => exact ⟨h.state, h.view⟩
  | cancelDisk nodeId diskId => exact ⟨h.state, h.view⟩
  | tables nodeList stateList ptEntryList =>
      refine ⟨fun hc => ?_, fun hpt => ?_⟩
      · obtain ⟨hclear, hnone⟩ := Bool.or_eq_false_iff.mp hc
        cases stateList with
        | none => exact h.state hclear
        | some _ => exact Bool.noConfusion hnone
      · obtain ⟨hclear, hnone⟩ := Bool.or_eq_false_iff.mp hpt
        cases ptEntryList with
        | none => exact h.view hclear
        | some _ => exact Bool.noConfusion hnone
  | commit event stateOk viewOk =>
      show Inv (cmServerViewCommit ops cfg event stateOk viewOk p).2
      rw [cmServerViewCommit]
      split
      · exact (recordStateList_spec ops cfg event stateOk viewOk h).1
      · exact (updatePtEntryList_spec ops cfg event viewOk h).1
  | ptCommit viewOk =>
      exact (recordPtEntryList_spec viewOk h.state
        fun hpt => (h.view hpt).1).1
  | expire curTimes stateOk viewOk =>
      have hI := (expiredCommit_spec ops cfg stateOk viewOk
        ((marks_marked cfg curTimes p).inv h)).1
      show Inv (cmServerMonitorPoolExpiredHandle ops cfg curTimes stateOk
        viewOk p)
      rw [cmServerMonitorPoolExpiredHandle]
      dsimp only
      split
      · exact ⟨hI.state, hI.view⟩
      · exact hI

theorem inv_started {p : CmServerPool View} (h : Started p) : Inv p where
  state _ := h.zkStateList
  view _ := ⟨h.zkPtEntryList, h.viewState.trans h.calcState.symm⟩

/-- **EXPIRY COMMITTED OR RETRIED**: in every run whose calls of the monitor's
    task meet the condition, whenever a fault record is dropped because its
    node or disk has expired, the state list marking it OUT is in the store,
    and the view in the store was computed from that state list. -/
theorem expiry_committed (ops : CalcOps View) (cfg : Config)
    {p : CmServerPool View} {events : List (Event View)} (h : Started p)
    (hg : Along (step ops cfg) (Guard cfg) p events) :
    Along (step ops cfg) (SafeStep ops cfg) p events := by
  refine along_of_invariant (I := Inv) ?_ ?_ events p (inv_started h) hg
  · intro p ev p' hI hs
    rw [← Option.some.inj hs]
    exact inv_next hI ev
  · intro p ev hI hG
    cases ev with
    | expire curTimes stateOk viewOk => exact expire_safe hI hG
    | _ => exact trivial

/-- Every run reaches its end. -/
theorem runFrom_step (events : List (Event View)) :
    ∀ p, runFrom (step ops cfg) p events
      = some (events.foldl (next ops cfg) p) := by
  induction events with
  | nil => exact fun _ => rfl
  | cons ev events ih => exact fun p => ih (next ops cfg p ev)

/-- What holds along a run holds at its last step. -/
theorem along_last {P : CmServerPool View → Event View → Prop}
    {events : List (Event View)} {ev : Event View} {p : CmServerPool View}
    (h : Along (step ops cfg) P p (events ++ [ev])) :
    P (events.foldl (next ops cfg) p) ev :=
  ((along_append.mp h).2 _ (runFrom_step events p)).1

/-! ## A lost rebalance -/

/-- The state list as the calculator reads it. -/
def calcStates (cfg : Config) (s : NodeStateList) : Pt.NodeStateList :=
  ⟨(List.range cfg.maxNodeNum).map fun nodeId =>
    ⟨(s nodeId).state, (s nodeId).clusterState,
      (s nodeId).diskList.map (·.clusterState)⟩⟩

/-- The operations of the calculator with a fixed number of partitions.  A
    rebalance is only asked for with enough nodes, so it fails on the branches
    the source calls "Impossible" only. -/
def fixedCalcOps (cfg : Config) (core : Pt.CalcCore) :
    CalcOps Pt.PtEntryList where
  needRebalance nodeList s l :=
    Pt.viewCalculatorNeedRebalance core nodeList (calcStates cfg s) l
  viewRebalance nodeList s event l :=
    Pt.viewCalculatorRebalance core nodeList (calcStates cfg s) event l

/-- Three nodes with one disk each. -/
def threeNodes : Config := ⟨3, false, 10, 10⟩

/-- Node 0 is down and still a member. -/
def nodeDownStates : NodeStateList := fun nodeId =>
  ⟨if nodeId = 0 then .down else .up, .stateIn, [⟨0, .stateIn⟩]⟩

/-- The pool with a view, before the fault is recorded. -/
def nodeDownPool (l : Pt.PtEntryList) : CmServerPool Pt.PtEntryList where
  nodeList := Pt.uniformPool 3
  stateList := nodeDownStates
  stateChange := false
  ptEntryList := l
  ptChange := false
  records := fun _ => .reset
  zkStateList := nodeDownStates
  zkPtEntryList := l
  calcState := nodeDownStates
  viewState := nodeDownStates

theorem started_nodeDownPool (l : Pt.PtEntryList) :
    Started (nodeDownPool l) :=
  ⟨rfl, rfl, rfl, rfl, rfl, rfl⟩

/-- The view of one partition with copies on nodes 0 and 1, node 0 reported
    down. -/
def nodeDownView : Option Pt.PtEntryList :=
  Pt.runPool Pt.twoCopyCore (Pt.uniformPool 3)
    (Pt.poolStates [(.up, .stateIn), (.up, .stateIn), (.up, .stateIn)])
    [.nodeState 0 .down ⟨[], []⟩]

/-- The store refuses the state list first; the next expiry repeats both
    steps. -/
theorem expiry_committed_retry :
    ∃ l, nodeDownView = some l ∧
      Along (step (fixedCalcOps threeNodes Pt.twoCopyCore) threeNodes)
        (SafeStep (fixedCalcOps threeNodes Pt.twoCopyCore) threeNodes)
        (nodeDownPool l)
        [.listenNode 0 0, .expire 10 false true, .expire 10 true true] := by
  have hsome : nodeDownView.isSome = true := by decide +kernel
  obtain ⟨l, hl⟩ := Option.isSome_iff_exists.mp hsome
  refine ⟨l, hl, expiry_committed _ _ (started_nodeDownPool l) ?_⟩
  -- only node 0 has a record, and it is about the node itself
  have hknown : ∀ p : CmServerPool Pt.PtEntryList,
      p.records = Function.update (fun _ => .reset) 0 ⟨true, true, 0, []⟩ →
      ∀ nodeId < threeNodes.maxNodeNum,
        ∀ diskId ∈ (p.records nodeId).expiredDisks threeNodes 10,
          ∃ x ∈ (p.stateList nodeId).diskList, x.diskId = diskId := by
    intro p hp nodeId _ diskId hd
    rw [hp] at hd
    by_cases hn : nodeId = 0
    · rw [hn, Function.update_self] at hd
      exact nomatch hd
    · rw [Function.update_of_ne hn] at hd
      exact nomatch hd
  refine ⟨trivial, fun p₁ h₁ => ?_⟩
  cases h₁
  refine ⟨⟨hknown _ rfl, Or.inr (Or.inl ⟨0, by decide, Or.inl ⟨rfl, ?_⟩⟩)⟩,
    fun p₂ h₂ => ?_⟩
  · exact NodeClusterState.noConfusion
  · cases h₂
    exact ⟨⟨hknown _ rfl, Or.inl rfl⟩, fun _ _ => trivial⟩

/-- The fault is recorded; an expiry stores the state list and fails to store
    the view. -/
def failedExpiry : List (Event Pt.PtEntryList) :=
  [.listenNode 0 0, .expire 10 true false]

/-- The next expiry finds nothing to do. -/
def lostEvents : List (Event Pt.PtEntryList) :=
  failedExpiry ++ [.expire 10 true true]

/-- A live copy of some partition lies on the node. -/
def placedOn (l : Pt.PtEntryList) (nodeId : Nat) : Bool :=
  l.ptEntryList.any fun e => Pt.liveOn e nodeId

/-- The pool at the end of a run. -/
def endOf (l : Pt.PtEntryList) (events : List (Event Pt.PtEntryList)) :
    CmServerPool Pt.PtEntryList :=
  events.foldl (next (fixedCalcOps threeNodes Pt.twoCopyCore) threeNodes)
    (nodeDownPool l)

theorem endOf_snoc (l : Pt.PtEntryList)
    (events : List (Event Pt.PtEntryList)) (ev : Event Pt.PtEntryList) :
    endOf l (events ++ [ev])
      = next (fixedCalcOps threeNodes Pt.twoCopyCore) threeNodes
          (endOf l events) ev := by
  rw [endOf, List.foldl_append]
  rfl

/-- The record is gone, the stored state list has node 0 OUT, and the stored
    view still has the partition on node 0. -/
theorem expiry_lost :
    ∃ l, nodeDownView = some l ∧ Started (nodeDownPool l) ∧
      ¬ Along (step (fixedCalcOps threeNodes Pt.twoCopyCore) threeNodes)
        (SafeStep (fixedCalcOps threeNodes Pt.twoCopyCore) threeNodes)
        (nodeDownPool l) lostEvents ∧
      ¬ ((endOf l lostEvents).records 0).hasNode ∧
      nodeOut (endOf l lostEvents).zkStateList 0 ∧
      placedOn (endOf l lostEvents).zkPtEntryList 0 = true := by
  have hcheck : nodeDownView.any (fun l =>
      ((endOf l failedExpiry).records 0).used &&
      ((endOf l failedExpiry).records 0).fault &&
      !((endOf l lostEvents).records 0).used &&
      ((endOf l lostEvents).zkStateList 0).clusterState == .stateOut &&
      ((endOf l lostEvents).viewState 0).clusterState == .stateIn &&
      placedOn (endOf l lostEvents).zkPtEntryList 0) = true := by
    decide +kernel
  obtain ⟨l, hl, hall⟩ := (Option.any_eq_true _ _).mp hcheck
  simp only [Bool.and_eq_true, beq_iff_eq, Bool.not_eq_true'] at hall
  obtain ⟨⟨⟨⟨⟨hu, hf⟩, hgone⟩, hout⟩, hview⟩, hplaced⟩ := hall
  have hdropped : ¬ ((endOf l lostEvents).records 0).hasNode := by
    rintro ⟨hused, -⟩
    rw [hgone] at hused
    exact Bool.noConfusion hused
  refine ⟨l, hl, started_nodeDownPool l, ?_, hdropped, hout, hplaced⟩
  intro halong
  have hsafe : ExpirySafe (endOf l failedExpiry) (next
      (fixedCalcOps threeNodes Pt.twoCopyCore) threeNodes
      (endOf l failedExpiry) (.expire 10 true true)) := along_last halong
  rw [← endOf_snoc] at hsafe
  obtain ⟨-, hsync⟩ := hsafe.node 0 ⟨hu, hf⟩ hdropped
  rw [lostEvents, hsync] at hview
  rw [lostEvents, hview] at hout
  exact NodeClusterState.noConfusion hout

end UbsIo.Cm
