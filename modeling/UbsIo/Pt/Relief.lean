import UbsIo.Pt.Moves

/-! # A rebalance moves what it must

    With as many normal nodes as copies a rebalance of a reachable view
    succeeds, leaves no live copy on a node or disk that is OUT, and for each
    partition moves at most one copy more, never the master (`Spared`).

    Whether the copy it moves was on an overloaded disk is another matter.  The
    code looks for the disk of the copy in the busy list, which holds normal
    disks only, and when the search fails it goes on with the LAST element, the
    most loaded disk, instead of giving up.  So a copy on a disk that is not
    normal moves whenever some normal disk on a new node is lighter than that
    one by more than one copy (`SearchFits` rules it out). -/

namespace UbsIo.Pt

open UbsIo.Lib

/-- `PtRedundanceMode`. -/
inductive PtRedundanceMode where
  | none | repSingle | repDouble | repTriple
deriving DecidableEq, Repr

/-- `CmServerViewCopyNum`. -/
def cmServerViewCopyNum : PtRedundanceMode → Nat
  | .none => 3
  | .repSingle => 1
  | .repDouble => 2
  | .repTriple => 3

/-- `CmServerViewMinCopyNum`. -/
def cmServerViewMinCopyNum : PtRedundanceMode → Nat
  | .none => 3
  | .repSingle => 1
  | .repDouble => 1
  | .repTriple => 1

/-! ## What a rebalance owes -/

/-- The node or the disk is OUT. -/
def IsOut (nodeList : NodeInfoList) (stateList : NodeStateList)
    (nodeId diskId : Nat) : Prop :=
  (stateList.node nodeId).clusterState = .stateOut ∨
  ∃ k, diskPos nodeList nodeId diskId = some k ∧
    (stateList.node nodeId).disk k = .stateOut

theorem not_isOut {nodeList : NodeInfoList} {stateList : NodeStateList}
    {nodeId diskId : Nat}
    (h : viewCalcCheckNodeIsFault nodeList stateList nodeId diskId = false) :
    ¬ IsOut nodeList stateList nodeId diskId := by
  unfold viewCalcCheckNodeIsFault at h
  split at h
  · exact nomatch h
  · split at h
    · exact nomatch h
    · rename_i hnode
      rintro (hout | ⟨k, hk, hout⟩)
      · exact hnode hout
      · rw [hk] at h
        dsimp only at h
        rw [hout] at h
        exact nomatch h

/-- The pass as it is just before the balance visit of partition `p` in round
    `c`: the entries and the busy list. -/
def visitAt (core : CalcCore) (nodeList : NodeInfoList)
    (stateList : NodeStateList) (l : PtEntryList) (c p : Nat) :
    Option (List PtEntry × List CalcElem) :=
  beforeVisit core nodeList stateList (l.globalVersion + 1)
    (viewCalcBuildBusyList core nodeList stateList).2
    (rebalanceStart core nodeList stateList l) c p

/-- What a rebalance owes partition `p`, apart from the loads. -/
structure Spared (core : CalcCore) (nodeList : NodeInfoList)
    (stateList : NodeStateList) (e e' : PtEntry) : Prop where
  /-- At most one copy is replaced that has not expired, and none if one has. -/
  alone : ∀ c < core.copyNum,
    ¬ Expired nodeList stateList core.copyNum e c →
    Replaced core.copyNum e e' c → ∀ i < core.copyNum,
      ¬ Expired nodeList stateList core.copyNum e i ∧
      (i ≠ c → ¬ Replaced core.copyNum e e' i)
  /-- It is not the master. -/
  master : ∀ c < core.copyNum,
    ¬ Expired nodeList stateList core.copyNum e c →
    Replaced core.copyNum e e' c →
    (slotCopy core.copyNum e c).disk ≠ (e.masterNodeId, e.masterDiskId)
  /-- The others keep their state, or recover what no survivor has. -/
  kept : ∀ c < core.copyNum,
    ¬ Expired nodeList stateList core.copyNum e c →
    ¬ Replaced core.copyNum e e' c →
    (slotCopy core.copyNum e' c).state = (slotCopy core.copyNum e c).state ∨
    ((slotCopy core.copyNum e c).state = .recovery ∧
      (slotCopy core.copyNum e' c).state = .running ∧
      ∀ i < core.copyNum, ¬ Survivor nodeList stateList core.copyNum e i)

/-- What a rebalance owes the copies it takes away: they lay on a normal disk
    that carried, in that round, over one copy more than the new one. -/
def Relieved (core : CalcCore) (nodeList : NodeInfoList)
    (stateList : NodeStateList) (l : PtEntryList) (p : Nat)
    (e e' : PtEntry) : Prop :=
  ∀ c < core.copyNum, ¬ Expired nodeList stateList core.copyNum e c →
    Replaced core.copyNum e e' c →
    NormalDisk nodeList stateList (slotCopy core.copyNum e c).nodeId
      (slotCopy core.copyNum e c).diskId ∧
    ∃ es busy, visitAt core nodeList stateList l c p = some (es, busy) ∧
      roundLoad core.copyNum c es (slotCopy core.copyNum e' c).disk + 1 <
        roundLoad core.copyNum c es (slotCopy core.copyNum e c).disk

/-- The rebalance succeeds and moves only what it must. -/
def MovesOnlyNeeded (core : CalcCore) (nodeList : NodeInfoList)
    (stateList : NodeStateList) (event : Option CmEventType)
    (l : PtEntryList) : Prop :=
  ∃ l', viewCalculatorRebalance core nodeList stateList event l = some l' ∧
    (∀ e' ∈ l'.ptEntryList, ∀ i < e'.copyNum, Live e' i →
      ¬ IsOut nodeList stateList (e'.copyList i).nodeId
        (e'.copyList i).diskId) ∧
    ∀ p e e', l.ptEntryList[p]? = some e → l'.ptEntryList[p]? = some e' →
      Spared core nodeList stateList e e' ∧
      Relieved core nodeList stateList l p e e'

/-- At the visit of a partition whose copy may move, the copy is on a normal
    disk, or no normal disk on a node that is new to the partition carries over
    one copy less than another normal disk. -/
def SearchFits (core : CalcCore) (nodeList : NodeInfoList)
    (stateList : NodeStateList) (l : PtEntryList) (c p : Nat) : Prop :=
  ∀ es busy e index,
    visitAt core nodeList stateList l c p = some (es, busy) →
    es[p]? = some e →
    viewCalcBuildPreCheck core c e (l.globalVersion + 1) = some index →
    NormalDisk nodeList stateList (slotCopy core.copyNum e c).nodeId
      (slotCopy core.copyNum e c).diskId ∨
    ∀ d d', NormalDisk nodeList stateList d.1 d.2 →
      NormalDisk nodeList stateList d'.1 d'.2 →
      viewCalcPtEntryHasNodeId e d.1 = false →
      roundLoad core.copyNum c es d' ≤ roundLoad core.copyNum c es d + 1

section Whole

variable {maxNodeNum : Nat} {core : CalcCore} {nodeList : NodeInfoList}
  {stateList : NodeStateList} {event : Option CmEventType} {l l' : PtEntryList}
  {p : Nat} {e e' : PtEntry}

/-- A rebalance starts from evicted entries and an idle busy list. -/
theorem between_start
    (hbusy : (viewCalcBuildBusyList core nodeList stateList).1 =
      candidates nodeList stateList)
    (hl : ViewPlaced core l) (hb : ViewBlank core l) :
    Between nodeList stateList core.copyNum core.ptNum 0
      (rebalanceStart core nodeList stateList l) := by
  refine ⟨?_, (List.length_map _).trans hb.length, ?_⟩
  · refine WorkList.start ?_ ?_
    · show ((viewCalcBuildBusyList core nodeList stateList).1.map
        CalcElem.disk).Perm _
      rw [hbusy]
      exact List.Perm.refl _
    · intro x hx
      have hx' : x ∈ (viewCalcBuildBusyList core nodeList stateList).1 := hx
      rw [hbusy] at hx'
      exact candidates_referNum hx'
  · intro e he
    obtain ⟨e₀, he₀, rfl⟩ := List.mem_map.mp he
    have hs := (hl.entries e₀ he₀).sparse
    exact ⟨sparse_evictEntry hs, fun i hi => absurd hi (Nat.not_lt_zero i),
      blank_evictEntry (hb.blank e₀ he₀), joined_evictEntry hs⟩

/-- **REBALANCE SUCCEEDS**: with enough normal nodes the pass comes to its
    end, and no live copy is left on what has expired. -/
theorem rebalance_total (event : Option CmEventType)
    (ht : Tables maxNodeNum nodeList stateList)
    (hnorm : core.copyNum ≤ viewCalcNormNodeNum nodeList stateList)
    (hpt : core.ptNum < 2 ^ 16)
    (hstart : Between nodeList stateList core.copyNum core.ptNum 0
      (rebalanceStart core nodeList stateList l)) :
    ∃ st, roundsTo core nodeList stateList (l.globalVersion + 1)
        (viewCalcBuildBusyList core nodeList stateList).2
        (rebalanceStart core nodeList stateList l) core.copyNum = some st ∧
      (∀ e ∈ st.1, PassEntry nodeList stateList core.copyNum core.copyNum e) ∧
      viewCalculatorRebalance core nodeList stateList event l =
        some { l with
          globalVersion := l.globalVersion + 1
          ptEntryList := st.1.map (closeEntry core event) } := by
  obtain ⟨st, hst, hb⟩ := roundsTo_total (l.globalVersion + 1) ht hnorm
    (by omega : core.ptNum < 2 ^ 63 - 1)
    (viewCalcBuildBusyList core nodeList stateList).2 hstart core.copyNum
    (Nat.le_refl _)
  refine ⟨st, hst, hb.entries, ?_⟩
  have hrounds : viewCalcBuildPtEntryList1 core nodeList stateList
      (l.globalVersion + 1) (viewCalcBuildBusyList core nodeList stateList).2
      (l.ptEntryList.map (evictEntry core nodeList stateList
        (l.globalVersion + 1)),
        (viewCalcBuildBusyList core nodeList stateList).1) = some st := hst
  rw [viewCalculatorRebalance, if_neg (not_lt.mpr hnorm)]
  dsimp only
  rw [hrounds]
  rfl

/-- The way of one partition through a rebalance. -/
theorem rebalance_at {st : List PtEntry × List CalcElem}
    (hst : roundsTo core nodeList stateList (l.globalVersion + 1)
      (viewCalcBuildBusyList core nodeList stateList).2
      (rebalanceStart core nodeList stateList l) core.copyNum = some st)
    (he : l.ptEntryList[p]? = some e)
    (he' : (st.1.map (closeEntry core event))[p]? = some e') :
    ∃ placed, st.1[p]? = some placed ∧ e' = closeEntry core event placed ∧
      Placing core (l.globalVersion + 1)
        (AtVisit core nodeList stateList (l.globalVersion + 1)
          (viewCalcBuildBusyList core nodeList stateList).2
          (rebalanceStart core nodeList stateList l) p)
        (evictEntry core nodeList stateList (l.globalVersion + 1) e)
        core.copyNum placed := by
  have hstart : (rebalanceStart core nodeList stateList l).1[p]? =
      some (evictEntry core nodeList stateList (l.globalVersion + 1) e) := by
    show (l.ptEntryList.map _)[p]? = _
    rw [List.getElem?_map, he]
    rfl
  obtain ⟨placed, hplaced, hplacing⟩ := rounds_at hstart core.copyNum st hst
  rw [List.getElem?_map, hplaced] at he'
  exact ⟨placed, hplaced, (Option.some.inj he').symm, hplacing⟩

end Whole

/-! ## The visits and the loads -/

section Relief

variable {maxNodeNum : Nat} {core : CalcCore} {nodeList : NodeInfoList}
  {stateList : NodeStateList} {event : Option CmEventType} {l : PtEntryList}
  {c p : Nat} {e e' e₁ : PtEntry} {es : List PtEntry} {busy : List CalcElem}

/-- A visit finds the copies of its round counted. -/
theorem visitAt_underway (ht : Tables maxNodeNum nodeList stateList)
    (hnorm : core.copyNum ≤ viewCalcNormNodeNum nodeList stateList)
    (hpt : core.ptNum < 2 ^ 16)
    (hstart : Between nodeList stateList core.copyNum core.ptNum 0
      (rebalanceStart core nodeList stateList l))
    (hc : c < core.copyNum) (hp : p < core.ptNum)
    (hv : visitAt core nodeList stateList l c p = some (es, busy)) :
    Underway nodeList stateList core.copyNum c core.ptNum (fun _ => c + 1)
      es busy := by
  obtain ⟨es', busy', hv', hU⟩ := beforeVisit_total
    (l.globalVersion + 1) ht hnorm (by omega)
    (viewCalcBuildBusyList core nodeList stateList).2 hstart hc hp.le
  have heq : (es', busy') = (es, busy) := Option.some.inj (hv'.symm.trans hv)
  obtain ⟨rfl, rfl⟩ := Prod.mk.inj heq
  exact hU

/-- A partition that may still move a copy at a visit is as it was before the
    rebalance, and no earlier visit has moved one. -/
theorem entry_at_visit (hplaced : Placed core.copyNum e)
    (hc : c < core.copyNum) (he : l.ptEntryList[p]? = some e)
    (hv : visitAt core nodeList stateList l c p = some (es, busy))
    (hes : es[p]? = some e₁) {index : Nat}
    (hpre : viewCalcBuildPreCheck core c e₁ (l.globalVersion + 1) =
      some index) :
    e₁ = e ∧
    (∀ i < core.copyNum, ¬ Expired nodeList stateList core.copyNum e i) ∧
    ∀ i < c, ∃ busy, AtVisit core nodeList stateList (l.globalVersion + 1)
        (viewCalcBuildBusyList core nodeList stateList).2
        (rebalanceStart core nodeList stateList l) p i e busy ∧
      balanceTarget core i e (l.globalVersion + 1) busy = none := by
  obtain ⟨st, hst, hv⟩ := Option.bind_eq_some_iff.mp hv
  obtain ⟨r, hr, hstop⟩ := Option.bind_eq_some_iff.mp hv
  have hstart : (rebalanceStart core nodeList stateList l).1[p]? =
      some (evictEntry core nodeList stateList (l.globalVersion + 1) e) := by
    show (l.ptEntryList.map _)[p]? = _
    rw [List.getElem?_map, he]
    rfl
  obtain ⟨e₀, he₀, hplacing⟩ := rounds_at hstart c st hst
  obtain ⟨-, busy₁, e₂, busy₂, -, -, hvisit, he₂⟩ := stopAt_visit hr he₀
  have hsame : e₂ = e₁ := by
    rw [stopAt_rest hstop (Nat.le_refl p), he₂] at hes
    exact Option.some.inj hes
  subst hsame
  have hrefill : Refill core c e₀ e₂ := ⟨busy₁, busy₂, hvisit⟩
  have hs : Sparse core.copyNum (evictEntry core nodeList stateList
      (l.globalVersion + 1) e) := sparse_evictEntry hplaced.sparse
  have hs₀ := (placing_placed hplacing hc.le hs).1
  have hbirth : e₀.birthVersion ≠ l.globalVersion + 1 := by
    rw [← (refill_keeps hs₀ hc hrefill).1]
    exact (preCheck_some hpre).1
  have hnone : ∀ i < core.copyNum,
      ¬ Expired nodeList stateList core.copyNum e i := fun i hi hexp =>
    hbirth (placing_evicted hplacing hc.le hs
      (evictEntry_of_expired hi hexp).2).1
  rw [evictEntry_of_none hnone] at hplacing
  rcases placing_full hplacing hc.le hplaced with ⟨rfl, hstays⟩ |
    ⟨c₁, -, -, -, x, -, -, hmove, -⟩
  · exact ⟨refill_of_filled hplaced.sparse hc (hplaced.filled c hc) hrefill,
      hnone, hstays⟩
  · exact absurd (hmove ▸ balanceMove_birth ..) hbirth

/-- The own disk of a live copy is not on a node that is new to the entry. -/
theorem slotCopy_node_ne {x : CalcElem} (hplaced : Placed core.copyNum e)
    (hc : c < core.copyNum)
    (hfree : viewCalcPtEntryHasNodeId e x.nodeId = false) :
    x.disk ≠ (slotCopy core.copyNum e c).disk := by
  have hidx : slotIndex core.copyNum e c < 2 * core.copyNum := by
    rw [slotIndex]
    split
    · omega
    · omega
  have hne := hplaced.sparse.not_hasNodeId hfree _ hidx
    (hplaced.live_slot hc)
  exact fun heq => hne (congrArg Prod.fst heq).symm

/-- **SPARED**: whatever became of a partition, at most one copy more was
    replaced, and not the master. -/
theorem Fate.spared {version : Nat}
    {G : Nat → PtEntry → List CalcElem → Prop} (hmin : core.minCopyNum = 1)
    (hplaced : Placed core.copyNum e) (hlaw : Lawful 1 core.copyNum e)
    (h : Fate core nodeList stateList event version G e e') :
    Spared core nodeList stateList e e' := by
  -- copies that stay leave nothing to show
  have hstill : ∀ placed, Sparse core.copyNum placed →
      (∀ c, ¬ Expired nodeList stateList core.copyNum e c →
        c < core.copyNum → placed.copyList (slotIndex core.copyNum e c) =
          slotCopy core.copyNum e c) →
      Spared core nodeList stateList e (closeEntry core event placed) := by
    intro placed hs hstill
    have hkept := fun c (hc : c < core.copyNum)
        (hexp : ¬ Expired nodeList stateList core.copyNum e c) =>
      still_kept event hmin hplaced hs hstill hc hexp
    exact ⟨fun c hc hexp hr => absurd hr (hkept c hc hexp).1,
      fun c hc hexp hr => absurd hr (hkept c hc hexp).1,
      fun c hc hexp _ => (hkept c hc hexp).2⟩
  cases h with
  | evicted placed expired sparse still => exact hstill placed sparse still
  | left joined stays =>
      exact hstill e hplaced.sparse fun _ _ _ => rfl
  | moved c busy index x joined lt visit target before =>
      obtain ⟨-, hother⟩ := moved_slots event hmin hplaced hlaw lt
        target
      have honly : ∀ i < core.copyNum, Replaced core.copyNum e
          (closeEntry core event (balanceMove core c e version x)) i →
          i = c := by
        intro i hi hr
        by_contra hic
        exact hr (hother i hi hic).1
      obtain ⟨-, -, hindex, hmaster⟩ :=
        preCheck_some (balanceTarget_some target).1
      refine ⟨?_, ?_, ?_⟩
      · intro i hi _ hr j hj
        refine ⟨joined j hj, fun hji hrj => hji ?_⟩
        rw [honly i hi hr, honly j hj hrj]
      · intro i hi _ hr heq
        rw [honly i hi hr] at heq
        rw [hindex] at hmaster
        exact hmaster ⟨(congrArg Prod.fst heq).symm,
          (congrArg Prod.snd heq).symm⟩
      · intro i hi _ hr
        by_cases hic : i = c
        · rw [hic] at hr
          exact absurd ((moved_slots event hmin hplaced hlaw lt
            target).1.trans_ne (slotCopy_node_ne hplaced lt
              (balanceTarget_some target).2)) hr
        · exact Or.inl (hother i hi hic).2

/-- A visit that may move a copy from a disk that is not normal moves it as
    soon as a free disk is light enough. -/
theorem balanceTarget_of_gap
    (hU : Underway nodeList stateList core.copyNum c core.ptNum
      (fun _ => c + 1) es busy) {version index : Nat}
    (hpre : viewCalcBuildPreCheck core c e version = some index)
    (hown : ¬ NormalDisk nodeList stateList (slotCopy core.copyNum e c).nodeId
      (slotCopy core.copyNum e c).diskId) {d d' : Nat × Nat}
    (hd : NormalDisk nodeList stateList d.1 d.2)
    (hd' : NormalDisk nodeList stateList d'.1 d'.2)
    (hfree : viewCalcPtEntryHasNodeId e d.1 = false)
    (hgap : roundLoad core.copyNum c es d + 1 < roundLoad core.copyNum c es d') :
    balanceTarget core c e version busy ≠ none := by
  intro hnone
  obtain ⟨x, hx, hxd⟩ := hU.loaded.exists_mem (mem_candidateDisks.mpr hd)
  obtain ⟨y, hy, hyd⟩ := hU.loaded.exists_mem (mem_candidateDisks.mpr hd')
  obtain ⟨last, hlast⟩ : ∃ last, busy.getLast? = some last :=
    ⟨_, List.getLast?_eq_some_getLast (List.ne_nil_of_mem hx)⟩
  have hnode : x.nodeId = d.1 := congrArg Prod.fst hxd
  have hle := balanceTarget_none hU.loaded hpre hnone hlast x hx
    (by rw [hnode]; exact hfree)
  have hstart : startElem busy last (slotCopy core.copyNum e c).disk = last := by
    refine startElem_of_notMem ?_ hlast
    intro z hz hzd
    have hmem : z.disk ∈ candidateDisks nodeList stateList :=
      hU.loaded.mem_keys hz
    rw [hzd] at hmem
    exact hown (mem_candidateDisks.mp hmem)
  have hmax := hU.loaded.le_last hlast hy
  have hxw := hU.loaded.weight x hx
  have hyw := hU.loaded.weight y hy
  rw [hxd] at hxw
  rw [hyd] at hyw
  rw [hstart] at hle
  omega

/-- A move whose own disk is normal takes from a heavier disk. -/
theorem moved_loads
    (hU : Underway nodeList stateList core.copyNum c core.ptNum
      (fun _ => c + 1) es busy) {version index : Nat} {x : CalcElem}
    (htarget : balanceTarget core c e version busy = some (index, x)) :
    NormalDisk nodeList stateList x.nodeId x.diskId ∧
    viewCalcPtEntryHasNodeId e x.nodeId = false ∧
    (NormalDisk nodeList stateList (slotCopy core.copyNum e c).nodeId
        (slotCopy core.copyNum e c).diskId →
      roundLoad core.copyNum c es x.disk + 1 <
        roundLoad core.copyNum c es (slotCopy core.copyNum e c).disk) ∧
    ∃ d, NormalDisk nodeList stateList d.1 d.2 ∧
      roundLoad core.copyNum c es x.disk + 1 < roundLoad core.copyNum c es d := by
  obtain ⟨last, hlast, hx, hfree, hlt⟩ := balanceTarget_mem htarget
  have hne : busy ≠ [] := List.ne_nil_of_mem hx
  have hstart := startElem_mem hne last (slotCopy core.copyNum e c).disk
  have hxw := hU.loaded.weight x hx
  have hsw := hU.loaded.weight _ hstart
  rw [hxw, hsw] at hlt
  refine ⟨mem_candidateDisks.mp (hU.loaded.mem_keys hx), hfree, ?_, _,
    mem_candidateDisks.mp (hU.loaded.mem_keys hstart), by omega⟩
  intro hown
  have hmem : (slotCopy core.copyNum e c).disk ∈
      candidateDisks nodeList stateList := mem_candidateDisks.mpr hown
  obtain ⟨y, hy, hyd⟩ := hU.loaded.exists_mem hmem
  rw [startElem_of_mem last hy hyd] at hlt
  omega

/-- A partition whose visits fit gives its copies up for good reason. -/
theorem relieved_of_fits (ht : Tables maxNodeNum nodeList stateList)
    (hnorm : core.copyNum ≤ viewCalcNormNodeNum nodeList stateList)
    (hpt : core.ptNum < 2 ^ 16)
    (hstart : Between nodeList stateList core.copyNum core.ptNum 0
      (rebalanceStart core nodeList stateList l))
    (hmin : core.minCopyNum = 1) (hplaced : Placed core.copyNum e)
    (hlaw : Lawful 1 core.copyNum e) (hp : p < core.ptNum)
    (hfate : Fate core nodeList stateList event (l.globalVersion + 1)
      (AtVisit core nodeList stateList (l.globalVersion + 1)
        (viewCalcBuildBusyList core nodeList stateList).2
        (rebalanceStart core nodeList stateList l) p) e e')
    (hfits : ∀ c < core.copyNum, SearchFits core nodeList stateList l c p) :
    Relieved core nodeList stateList l p e e' := by
  intro c hc hexp hr
  cases hfate with
  | evicted placed expired sparse still =>
      exact absurd hr (still_kept event hmin hplaced sparse still hc hexp).1
  | left joined stays =>
      exact absurd hr (still_kept event hmin hplaced hplaced.sparse
        (fun _ _ _ => rfl) hc hexp).1
  | moved i busy index x joined lt visit target before =>
      obtain ⟨hnew, hother⟩ := moved_slots event hmin hplaced hlaw lt
        target
      have hci : c = i := by
        by_contra hne
        exact hr (hother c hc hne).1
      subst hci
      obtain ⟨es, hv, hes⟩ := visit
      have hU := visitAt_underway ht hnorm hpt hstart hc hp hv
      obtain ⟨hxn, hfree, hload, d, hd, hgap⟩ := moved_loads hU target
      have hown : NormalDisk nodeList stateList
          (slotCopy core.copyNum e c).nodeId
          (slotCopy core.copyNum e c).diskId := by
        refine (hfits c hc es busy e index hv hes
          (balanceTarget_some target).1).resolve_right fun hall => ?_
        have := hall x.disk d hxn hd hfree
        omega
      refine ⟨hown, es, busy, hv, ?_⟩
      rw [hnew]
      exact hload hown

/-- A partition that gives its copies up for good reason has visits that
    fit. -/
theorem fits_of_relieved (ht : Tables maxNodeNum nodeList stateList)
    (hnorm : core.copyNum ≤ viewCalcNormNodeNum nodeList stateList)
    (hpt : core.ptNum < 2 ^ 16)
    (hstart : Between nodeList stateList core.copyNum core.ptNum 0
      (rebalanceStart core nodeList stateList l))
    (hmin : core.minCopyNum = 1) (hplaced : Placed core.copyNum e)
    (hlaw : Lawful 1 core.copyNum e) (hp : p < core.ptNum)
    (he : l.ptEntryList[p]? = some e)
    (hfate : Fate core nodeList stateList event (l.globalVersion + 1)
      (AtVisit core nodeList stateList (l.globalVersion + 1)
        (viewCalcBuildBusyList core nodeList stateList).2
        (rebalanceStart core nodeList stateList l) p) e e')
    (hrel : Relieved core nodeList stateList l p e e')
    (hc : c < core.copyNum) : SearchFits core nodeList stateList l c p := by
  intro es busy e₁ index hv hes hpre
  obtain ⟨rfl, hjoined, hbefore⟩ := entry_at_visit hplaced hc he hv hes hpre
  by_contra hbad
  obtain ⟨hown, hall⟩ := not_or.mp hbad
  have hat : ∀ busy', AtVisit core nodeList stateList (l.globalVersion + 1)
      (viewCalcBuildBusyList core nodeList stateList).2
      (rebalanceStart core nodeList stateList l) p c e₁ busy' →
      busy' = busy := by
    rintro busy' ⟨es', hv', -⟩
    have heq : (es', busy') = (es, busy) := Option.some.inj (hv'.symm.trans hv)
    exact congrArg Prod.snd heq
  have hmoves : balanceTarget core c e₁ (l.globalVersion + 1) busy ≠ none := by
    have hU := visitAt_underway ht hnorm hpt hstart hc hp hv
    push Not at hall
    obtain ⟨d, d', hd, hd', hfree, hgap⟩ := hall
    exact balanceTarget_of_gap hU hpre hown hd hd' hfree hgap
  cases hfate with
  | evicted placed expired sparse still =>
      obtain ⟨i, hi, hexp⟩ := expired
      exact hjoined i hi hexp
  | left joined stays =>
      obtain ⟨busy', hat', hnone⟩ := stays c hc
      rw [hat busy' hat'] at hnone
      exact hmoves hnone
  | moved i busy' index' x joined lt visit target before =>
      rcases Nat.lt_trichotomy i c with hlt | heq | hgt
      · -- an earlier visit has moved the partition already
        obtain ⟨busy₁, ⟨es₁, hv₁, -⟩, hnone⟩ := hbefore i hlt
        obtain ⟨es₂, hv₂, -⟩ := visit
        have hsame : (es₁, busy₁) = (es₂, busy') :=
          Option.some.inj (hv₁.symm.trans hv₂)
        have hbusy : busy₁ = busy' := congrArg Prod.snd hsame
        rw [hbusy] at hnone
        rw [hnone] at target
        exact nomatch target
      · subst heq
        refine hown (hrel i hc (joined i hc) ?_).1
        exact ((moved_slots event hmin hplaced hlaw lt
          target).1.trans_ne (slotCopy_node_ne hplaced lt
            (balanceTarget_some target).2))
      · obtain ⟨busy₁, hat₁, hnone⟩ := before c hgt
        rw [hat busy₁ hat₁] at hnone
        exact hmoves hnone

end Relief

/-! ## The claim of a rebalance -/

theorem cmServerViewMinCopyNum_eq {redundance : PtRedundanceMode}
    (h : redundance ≠ .none) : cmServerViewMinCopyNum redundance = 1 := by
  cases redundance with
  | none => exact absurd rfl h
  | repSingle => rfl
  | repDouble => rfl
  | repTriple => rfl

theorem cmServerViewCopyNum_pos (redundance : PtRedundanceMode) :
    1 ≤ cmServerViewCopyNum redundance := by
  cases redundance with
  | none => decide
  | repSingle => decide
  | repDouble => decide
  | repTriple => decide

/-- A rebalance that is asked for has enough normal nodes. -/
theorem norm_of_need {core : CalcCore} {nodeList : NodeInfoList}
    {stateList : NodeStateList} {l : PtEntryList}
    (h : viewCalculatorNeedRebalance core nodeList stateList l = true) :
    core.copyNum ≤ viewCalcNormNodeNum nodeList stateList := by
  unfold viewCalculatorNeedRebalance at h
  split at h
  · exact nomatch h
  · split at h
    · exact nomatch h
    · rename_i hnorm
      exact not_lt.mp hnorm

/-- **WHAT A REBALANCE MOVES**: for every reachable view of a pool with copies
    a rebalance that is asked for succeeds and moves only what it must, if and
    only if at every visit the search for the copy's own disk fits. -/
theorem rebalance_moves_needed {maxNodeNum ptNum diskNum : Nat}
    {redundance : PtRedundanceMode} {nodeList : NodeInfoList}
    {stateList : NodeStateList} {event : Option CmEventType} {l : PtEntryList}
    (hred : redundance ≠ .none) (ht : Tables maxNodeNum nodeList stateList)
    (hpt : ptNum < 2 ^ 16)
    (hr : Reachable (createViewCalculator maxNodeNum ptNum
      (cmServerViewCopyNum redundance) (cmServerViewMinCopyNum redundance)
      diskNum) l)
    (hneed : viewCalculatorNeedRebalance (createViewCalculator maxNodeNum ptNum
      (cmServerViewCopyNum redundance) (cmServerViewMinCopyNum redundance)
      diskNum) nodeList stateList l = true) :
    MovesOnlyNeeded (createViewCalculator maxNodeNum ptNum
        (cmServerViewCopyNum redundance) (cmServerViewMinCopyNum redundance)
        diskNum) nodeList stateList event l ↔
      ∀ c < cmServerViewCopyNum redundance, ∀ p < l.ptEntryList.length,
        SearchFits (createViewCalculator maxNodeNum ptNum
          (cmServerViewCopyNum redundance) (cmServerViewMinCopyNum redundance)
          diskNum) nodeList stateList l c p := by
  have hmin := cmServerViewMinCopyNum_eq hred
  have hcopy := cmServerViewCopyNum_pos redundance
  have hnorm := norm_of_need hneed
  have hbusy := ht.fit.busyList ptNum (cmServerViewCopyNum redundance)
    (cmServerViewMinCopyNum redundance) diskNum
  have hblank := viewBlank_reachable hr
  have hlawful := viewLawful_reachable (by
    show 0 < cmServerViewMinCopyNum redundance; omega) (by
    show cmServerViewMinCopyNum redundance ≤ cmServerViewCopyNum redundance
    omega) hr
  generalize hcore : createViewCalculator maxNodeNum ptNum
    (cmServerViewCopyNum redundance) (cmServerViewMinCopyNum redundance)
    diskNum = core at *
  have hm : core.copyNum = cmServerViewCopyNum redundance := by rw [← hcore]; rfl
  have hk : core.minCopyNum = 1 := by rw [← hcore]; exact hmin
  have hn : core.ptNum < 2 ^ 16 := by rw [← hcore]; exact hpt
  have hstart := between_start hbusy hlawful.toViewPlaced hblank
  obtain ⟨st, hst, hpass, hrun⟩ := rebalance_total event (l := l) ht
    hnorm hn hstart
  have hlaw : ∀ e ∈ l.ptEntryList, Lawful 1 core.copyNum e := by
    intro e he
    rw [← hk]
    exact hlawful.lawful e he
  have hfate : ∀ p e e', l.ptEntryList[p]? = some e →
      (st.1.map (closeEntry core event))[p]? = some e' →
      Fate core nodeList stateList event (l.globalVersion + 1)
        (AtVisit core nodeList stateList (l.globalVersion + 1)
          (viewCalcBuildBusyList core nodeList stateList).2
          (rebalanceStart core nodeList stateList l) p) e e' := by
    intro p e e' he he'
    obtain ⟨placed, -, rfl, hplacing⟩ := rebalance_at hst he he'
    exact fate_of_placing (hlawful.entries e (List.mem_of_getElem? he)) hplacing
  rw [← hm]
  constructor
  · rintro ⟨l', hl', -, hall⟩ c hc p hp
    obtain rfl := Option.some.inj (hrun.symm.trans hl')
    have he := List.getElem?_eq_getElem hp
    have hlen : p < (st.1.map (closeEntry core event)).length := by
      obtain ⟨st', hst', hb⟩ := roundsTo_total (l.globalVersion + 1) ht
        hnorm (by omega) (viewCalcBuildBusyList core nodeList stateList).2
        hstart core.copyNum (Nat.le_refl _)
      have hsame : st' = st := Option.some.inj (hst'.symm.trans hst)
      rw [List.length_map, ← hsame, hb.length, ← hblank.length]
      exact hp
    have he' := List.getElem?_eq_getElem hlen
    have hmem := List.mem_of_getElem? he
    exact fits_of_relieved ht hnorm hn hstart hk (hlawful.entries _ hmem)
      (hlaw _ hmem) (by rw [← hblank.length]; exact hp) he
      (hfate p _ _ he he') (hall p _ _ he he').2 hc
  · intro hfits
    refine ⟨_, hrun, ?_, ?_⟩
    · intro e' he' i hi hl
      obtain ⟨placed, hplaced, rfl⟩ := List.mem_map.mp he'
      have hp := hpass placed hplaced
      have hsame := sameDisks_closeEntry core event placed
      have hplace := samePlace_closeEntry core event placed
      have hlt : i < 2 * core.copyNum := by
        rw [hplace.num] at hi
        rcases hp.sparse.extent with h | h
        · omega
        · omega
      refine not_isOut ?_
      rw [hsame.node, hsame.disk]
      exact hp.joined i hlt ((hplace.live i).mp hl)
    · intro p e e' he he'
      have hmem := List.mem_of_getElem? he
      have hlt : p < l.ptEntryList.length :=
        (List.getElem?_eq_some_iff.mp he).1
      have hf := hfate p e e' he he'
      exact ⟨hf.spared hk (hlawful.entries e hmem) (hlaw e hmem),
        relieved_of_fits ht hnorm hn hstart hk (hlawful.entries e hmem)
          (hlaw e hmem) (by rw [← hblank.length]; exact hlt) hf
          fun c hc => hfits c hc p hlt⟩

/-! ## A pool of four nodes -/

/-- Six partitions with two copies on at most four nodes. -/
def fourNodeCore : CalcCore :=
  createViewCalculator 4 6 (cmServerViewCopyNum .repDouble)
    (cmServerViewMinCopyNum .repDouble) 0

/-- Two nodes are up; the other two as given. -/
def fourNodeStates (s₂ s₃ : NodeState × NodeClusterState) : NodeStateList :=
  poolStates [(.up, .stateIn), (.up, .stateIn), s₂, s₃]

/-- Three nodes share the copies, and node 2 is reported down. -/
def downRun : Option PtEntryList :=
  runPool fourNodeCore (uniformPool 4)
    (fourNodeStates (.up, .stateIn) (.invalid, .invalid))
    [.nodeState 2 .down ⟨[], []⟩]

theorem uniformPool_node (n nodeId : Nat) :
    (uniformPool n).node nodeId = ⟨[⟨0, .normal⟩], []⟩ ∨
    (uniformPool n).node nodeId = ⟨[], []⟩ := by
  rw [NodeInfoList.node, uniformPool, List.getD_eq_getElem?_getD,
    List.getElem?_replicate]
  split
  · exact Or.inl rfl
  · exact Or.inr rfl

theorem tables_uniformPool {n : Nat} {stateList : NodeStateList}
    (hn : n ≤ maxNodeNumLimit) (hs : stateList.nodeList.length ≤ n) :
    Tables n (uniformPool n) stateList := by
  refine ⟨⟨hn, hs, ?_, ?_⟩, ?_⟩
  · intro nodeId
    rcases uniformPool_node n nodeId with h | h
    · rw [h]
      decide
    · rw [h]
      exact Nat.zero_le _
  · intro nodeId
    rcases uniformPool_node n nodeId with h | h
    · rw [h]
      exact List.nodup_singleton _
    · rw [h]
      exact List.nodup_nil
  · intro nodeId d hd
    rcases uniformPool_node n nodeId with h | h
    · rw [h] at hd
      rw [List.mem_singleton.mp hd]
      decide
    · rw [h] at hd
      exact nomatch hd

/-- Node 2 is down, a member still, when node 3 joins with an empty disk: the
    copies of node 2, which is in no busy list, move to node 3. -/
theorem down_copy_moved :
    ∃ l, Reachable fourNodeCore l ∧
      viewCalculatorNeedRebalance fourNodeCore (uniformPool 4)
        (fourNodeStates (.down, .stateIn) (.up, .stateIn)) l = true ∧
      ¬ MovesOnlyNeeded fourNodeCore (uniformPool 4)
        (fourNodeStates (.down, .stateIn) (.up, .stateIn)) none l := by
  have hcheck : downRun.any (fun l =>
      viewCalculatorNeedRebalance fourNodeCore (uniformPool 4)
        (fourNodeStates (.down, .stateIn) (.up, .stateIn)) l &&
      (viewCalculatorRebalance fourNodeCore (uniformPool 4)
        (fourNodeStates (.down, .stateIn) (.up, .stateIn)) none l).any
          fun l' => (l.ptEntryList[2]?).any fun e =>
            (l'.ptEntryList[2]?).any fun e' =>
              decide ((slotCopy 2 e 0).nodeId = 2 ∧
                (slotCopy 2 e 0).diskId = 0 ∧
                (slotCopy 2 e' 0).nodeId = 3)) = true := by
    decide +kernel
  obtain ⟨l, hl, hany⟩ := (Option.any_eq_true _ _).mp hcheck
  obtain ⟨hneed, hany⟩ := Bool.and_eq_true_iff.mp hany
  obtain ⟨l', hl', hany⟩ := (Option.any_eq_true _ _).mp hany
  obtain ⟨e, he, hany⟩ := (Option.any_eq_true _ _).mp hany
  obtain ⟨e', he', hdec⟩ := (Option.any_eq_true _ _).mp hany
  obtain ⟨hnode, hdisk, hnew⟩ := of_decide_eq_true hdec
  refine ⟨l, reachable_runPool hl, hneed, ?_⟩
  rintro ⟨l₁, hl₁, -, hall⟩
  obtain rfl := Option.some.inj (hl'.symm.trans hl₁)
  have hexp : ¬ Expired (uniformPool 4)
      (fourNodeStates (.down, .stateIn) (.up, .stateIn)) 2 e 0 := by
    rw [Expired, hnode, hdisk]
    decide
  have hmoved : Replaced 2 e e' 0 := by
    intro heq
    have hsame : (slotCopy 2 e' 0).nodeId = (slotCopy 2 e 0).nodeId :=
      congrArg Prod.fst heq
    rw [hnode, hnew] at hsame
    exact absurd hsame (by decide)
  have hnormal := ((hall 2 e e' he he').2 0 (by decide) hexp hmoved).1
  have hnode' : (slotCopy fourNodeCore.copyNum e 0).nodeId = 2 := hnode
  have hin := hnormal.1
  rw [hnode'] at hin
  exact absurd hin (by decide)

theorem rebalance_moves_needed_joined :
    ∃ l, Reachable fourNodeCore l ∧
      (MovesOnlyNeeded fourNodeCore (uniformPool 4)
          (fourNodeStates (.up, .stateIn) (.up, .stateIn)) none l ↔
        ∀ c < 2, ∀ p < l.ptEntryList.length, SearchFits fourNodeCore
          (uniformPool 4) (fourNodeStates (.up, .stateIn) (.up, .stateIn))
          l c p) := by
  have hcheck : (runPool fourNodeCore (uniformPool 4)
      (fourNodeStates (.up, .stateIn) (.invalid, .invalid)) []).any (fun l =>
      viewCalculatorNeedRebalance fourNodeCore (uniformPool 4)
        (fourNodeStates (.up, .stateIn) (.up, .stateIn)) l) = true := by
    decide +kernel
  obtain ⟨l, hl, hneed⟩ := (Option.any_eq_true _ _).mp hcheck
  exact ⟨l, reachable_runPool hl, rebalance_moves_needed (by decide)
    (tables_uniformPool (by decide) (by decide)) (by decide)
    (reachable_runPool hl) hneed⟩

end UbsIo.Pt
