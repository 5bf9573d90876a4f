import UbsIo.Pt.Placement
import UbsIo.Lib.Level

/-! # The initial placement succeeds and is balanced

    `ViewCalculatorInitial` fills the copies round by round.  In a round every
    partition takes the first disk of the busy list whose node it does not use
    yet, and that disk goes back behind the disks that carry no more.

    A round always finds a disk: a partition uses one node for each copy placed
    before, and there are more nodes with a disk to offer.  In round 0 no node
    is excluded, so every partition takes the head of the list and the list
    stays level (`UbsIo.Lib.Level`); the load of a disk is the number of
    partitions served so far whose copy of the round lies on it (`Loads`). -/

namespace UbsIo.Pt

open UbsIo.Lib

/-- `DISK_LIST_NUM`. -/
def diskListNum : Nat := 16

/-- `MAX_NODE_NUM`. -/
def maxNodeNumLimit : Nat := 256

/-- `CreateViewCalculator`; `diskNum` is not set there and holds what the
    buffer held. -/
def createViewCalculator (maxNodeNum maxPtNum copyNum minCopyNum
    diskNum : Nat) : CalcCore where
  elemNum := maxNodeNum * diskListNum % 2 ^ 16
  ptNum := maxPtNum
  copyNum := copyNum
  minCopyNum := minCopyNum
  diskNum := diskNum

/-- A disk that may carry copies: it is normal and joined, and so is its
    node. -/
def NormalDisk (nodeList : NodeInfoList) (stateList : NodeStateList)
    (nodeId diskId : Nat) : Prop :=
  nodeIsIn stateList nodeId = true ∧
  ∃ k d, (nodeList.node nodeId).diskList[k]? = some d ∧ d.diskId = diskId ∧
    d.state = .normal ∧ (stateList.node nodeId).disk k = .stateIn

/-- What the server guarantees of the tables it hands to the calculator: they
    fit the cells, and BDM numbers the disks of a node apart. -/
structure TablesFit (maxNodeNum : Nat) (nodeList : NodeInfoList)
    (stateList : NodeStateList) : Prop where
  limit : maxNodeNum ≤ maxNodeNumLimit
  nodes : stateList.nodeList.length ≤ maxNodeNum
  disks : ∀ nodeId, (nodeList.node nodeId).diskList.length ≤ diskListNum
  ids : ∀ nodeId, ((nodeList.node nodeId).diskList.map (·.diskId)).Nodup

/-! ## The candidates -/

/-- The disk a candidate stands for. -/
def CalcElem.disk (x : CalcElem) : Nat × Nat := (x.nodeId, x.diskId)

/-- The candidates of one node. -/
def nodeElems (nodeList : NodeInfoList) (stateList : NodeStateList)
    (nodeId : Nat) : List CalcElem :=
  if nodeIsIn stateList nodeId then normalDisks nodeList stateList nodeId
  else []

/-- All candidates, in the order of the busy list. -/
def candidates (nodeList : NodeInfoList) (stateList : NodeStateList) :
    List CalcElem :=
  (List.range stateList.nodeList.length).flatMap
    (nodeElems nodeList stateList)

section Candidates

variable {core : CalcCore} {nodeList : NodeInfoList}
  {stateList : NodeStateList}

theorem mem_normalDisks {nodeId : Nat} {x : CalcElem} :
    x ∈ normalDisks nodeList stateList nodeId ↔
      ∃ k d, (nodeList.node nodeId).diskList[k]? = some d ∧
        d.state = .normal ∧ (stateList.node nodeId).disk k = .stateIn ∧
        x = ⟨nodeId, d.diskId, 0⟩ := by
  rw [normalDisks, List.mem_map]
  constructor
  · rintro ⟨⟨d, k⟩, hmem, rfl⟩
    obtain ⟨hd, hok⟩ := List.mem_filter.mp hmem
    obtain ⟨hn, hin⟩ := Bool.and_eq_true_iff.mp hok
    exact ⟨k, d, List.mem_zipIdx_iff_getElem?.mp hd, beq_iff_eq.mp hn,
      beq_iff_eq.mp hin, rfl⟩
  · rintro ⟨k, d, hk, hn, hin, rfl⟩
    refine ⟨(d, k), List.mem_filter.mpr
      ⟨List.mem_zipIdx_iff_getElem?.mpr hk, ?_⟩, rfl⟩
    exact Bool.and_eq_true_iff.mpr ⟨beq_iff_eq.mpr hn, beq_iff_eq.mpr hin⟩

theorem mem_nodeElems {nodeId : Nat} {x : CalcElem}
    (h : x ∈ nodeElems nodeList stateList nodeId) :
    nodeIsIn stateList nodeId = true ∧
      x ∈ normalDisks nodeList stateList nodeId ∧ x.nodeId = nodeId := by
  rw [nodeElems] at h
  split at h
  · rename_i hin
    obtain ⟨-, d, -, -, -, rfl⟩ := mem_normalDisks.mp h
    exact ⟨hin, h, rfl⟩
  · exact nomatch h

theorem nodeIsIn_lt {nodeId : Nat} (h : nodeIsIn stateList nodeId = true) :
    nodeId < stateList.nodeList.length := by
  by_contra hge
  have hnone : stateList.node nodeId = ⟨.invalid, .invalid, []⟩ :=
    List.getD_eq_default _ _ (not_lt.mp hge)
  rw [nodeIsIn, hnone] at h
  exact Bool.noConfusion h

/-- The disks of the candidates are the normal disks. -/
theorem mem_candidates_disk {d : Nat × Nat} :
    d ∈ (candidates nodeList stateList).map CalcElem.disk ↔
      NormalDisk nodeList stateList d.1 d.2 := by
  rw [List.mem_map]
  constructor
  · rintro ⟨x, hx, rfl⟩
    obtain ⟨nodeId, -, hxn⟩ := List.mem_flatMap.mp hx
    obtain ⟨hin, hxd, -⟩ := mem_nodeElems hxn
    obtain ⟨k, d, hk, hn, hst, rfl⟩ := mem_normalDisks.mp hxd
    exact ⟨hin, k, d, hk, rfl, hn, hst⟩
  · rintro ⟨hin, k, d', hk, hid, hn, hst⟩
    refine ⟨⟨d.1, d.2, 0⟩, List.mem_flatMap.mpr
      ⟨d.1, List.mem_range.mpr (nodeIsIn_lt hin), ?_⟩, rfl⟩
    rw [nodeElems, if_pos hin]
    exact mem_normalDisks.mpr ⟨k, d', hk, hn, hst, by rw [hid]⟩

theorem candidates_referNum {x : CalcElem}
    (hx : x ∈ candidates nodeList stateList) : x.referNum = 0 := by
  obtain ⟨nodeId, -, hxn⟩ := List.mem_flatMap.mp hx
  obtain ⟨-, d, -, -, -, rfl⟩ := mem_normalDisks.mp (mem_nodeElems hxn).2.1
  rfl

theorem nodeElems_length_le (nodeId : Nat) :
    (nodeElems nodeList stateList nodeId).length
      ≤ (nodeList.node nodeId).diskList.length := by
  rw [nodeElems]
  split
  · rw [normalDisks, List.length_map]
    refine (List.length_filter_le _ _).trans ?_
    rw [List.length_zipIdx]
  · exact Nat.zero_le _

/-- The candidates fit the cells of the calculator. -/
theorem TablesFit.candidates_length {maxNodeNum maxPtNum copyNum minCopyNum
    diskNum : Nat} (h : TablesFit maxNodeNum nodeList stateList) :
    (candidates nodeList stateList).length ≤ (createViewCalculator maxNodeNum
      maxPtNum copyNum minCopyNum diskNum).elemNum := by
  have hsum : (candidates nodeList stateList).length
      ≤ stateList.nodeList.length * diskListNum := by
    rw [candidates, List.length_flatMap]
    have hle := List.sum_le_card_nsmul
      ((List.range stateList.nodeList.length).map fun nodeId =>
        (nodeElems nodeList stateList nodeId).length) diskListNum ?_
    · rwa [List.length_map, List.length_range, smul_eq_mul] at hle
    · intro n hn
      obtain ⟨nodeId, -, rfl⟩ := List.mem_map.mp hn
      exact (nodeElems_length_le nodeId).trans (h.disks nodeId)
  have hlimit := h.limit
  have hnodes := h.nodes
  simp only [diskListNum, maxNodeNumLimit, createViewCalculator]
    at hsum hlimit ⊢
  omega

/-- The candidates are distinct disks. -/
theorem TablesFit.candidates_nodup {maxNodeNum : Nat}
    (h : TablesFit maxNodeNum nodeList stateList) :
    ((candidates nodeList stateList).map CalcElem.disk).Nodup := by
  rw [candidates, List.map_flatMap, List.nodup_flatMap]
  constructor
  · intro nodeId _
    rw [nodeElems]
    split
    · rw [normalDisks, List.map_map]
      have hids : (((nodeList.node nodeId).diskList.zipIdx).map
          fun d => (nodeId, d.1.diskId)).Nodup := by
        have hmap : ((nodeList.node nodeId).diskList.zipIdx).map
            (fun d => (nodeId, d.1.diskId))
            = ((nodeList.node nodeId).diskList.map (·.diskId)).map
              (Prod.mk nodeId) := by
          rw [List.map_map, ← List.zipIdx_map_fst 0
            (nodeList.node nodeId).diskList, List.map_map,
            List.zipIdx_map_fst]
          rfl
        rw [hmap]
        exact (h.ids nodeId).map (Prod.mk_right_injective nodeId)
      exact hids.sublist (List.filter_sublist.map _)
    · exact List.nodup_nil
  · refine List.nodup_range.imp ?_
    intro i j hij d hi hj
    obtain ⟨x, hx, rfl⟩ := List.mem_map.mp hi
    obtain ⟨y, hy, hxy⟩ := List.mem_map.mp hj
    have hnode : y.nodeId = x.nodeId := congrArg Prod.fst hxy
    rw [(mem_nodeElems hx).2.2, (mem_nodeElems hy).2.2] at hnode
    exact hij hnode.symm

/-- With enough cells the busy list is the list of all candidates. -/
theorem buildBusyFrom_eq :
    ∀ (ids : List Nat) (busy : List CalcElem) (diskNum : Nat),
      busy.length + (ids.flatMap (nodeElems nodeList stateList)).length
        ≤ core.elemNum →
      (buildBusyFrom core nodeList stateList ids busy diskNum).1
        = busy ++ ids.flatMap (nodeElems nodeList stateList) := by
  intro ids
  induction ids with
  | nil =>
      intro busy diskNum _
      rw [buildBusyFrom, List.flatMap_nil, List.append_nil]
  | cons nodeId ids ih =>
      intro busy diskNum hfit
      rw [List.flatMap_cons, List.length_append] at hfit
      rw [buildBusyFrom, List.flatMap_cons]
      by_cases hin : nodeIsIn stateList nodeId = true
      · rw [nodeElems, if_pos hin] at hfit ⊢
        rw [if_pos hin]
        dsimp only
        rw [if_neg (by omega), ih _ _ (by rw [List.length_append]; omega),
          List.append_assoc]
      · rw [nodeElems, if_neg hin] at hfit ⊢
        rw [if_neg hin, ih _ _ (by simpa using hfit), List.nil_append]

/-- `ViewCalcBuildBusyList` never runs out of cells. -/
theorem TablesFit.busyList {maxNodeNum : Nat}
    (h : TablesFit maxNodeNum nodeList stateList)
    (maxPtNum copyNum minCopyNum diskNum : Nat) :
    (viewCalcBuildBusyList (createViewCalculator maxNodeNum maxPtNum copyNum
      minCopyNum diskNum) nodeList stateList).1
      = candidates nodeList stateList := by
  refine buildBusyFrom_eq _ [] diskNum ?_
  rw [List.length_nil, Nat.zero_add]
  exact h.candidates_length

end Candidates

/-! ## A node that is still free -/

/-- Among more normal nodes than used ones there is one with a candidate and
    without use. -/
theorem exists_free {nodeList : NodeInfoList} {stateList : NodeStateList}
    (used : List Nat)
    (h : used.length < viewCalcNormNodeNum nodeList stateList) :
    ∃ x ∈ candidates nodeList stateList, x.nodeId ∉ used := by
  by_contra hall
  rw [viewCalcNormNodeNum, List.countP_eq_length_filter] at h
  refine absurd ((List.nodup_range.filter _).subperm ?_).length_le
    (not_le.mpr h)
  intro nodeId hmem
  obtain ⟨hlt, hok⟩ := List.mem_filter.mp hmem
  obtain ⟨hin, hne⟩ := Bool.and_eq_true_iff.mp hok
  by_contra hused
  cases hd : normalDisks nodeList stateList nodeId with
  | nil =>
      rw [hd] at hne
      exact Bool.noConfusion hne
  | cons x xs =>
      have hx : x ∈ normalDisks nodeList stateList nodeId := by
        rw [hd]
        exact List.mem_cons_self ..
      obtain ⟨k, d, -, -, -, hxd⟩ := mem_normalDisks.mp hx
      refine hall ⟨x, List.mem_flatMap.mpr ⟨nodeId, hlt, ?_⟩, ?_⟩
      · rw [nodeElems, if_pos hin]
        exact hx
      · rw [hxd]
        exact hused

/-- In an entry with the copies below `c` placed, the nodes of these copies are
    the ones in use. -/
theorem FreshTo.liveOn {v m c : Nat} {e : PtEntry} (h : FreshTo v m c e)
    {nodeId : Nat} (hl : liveOn e nodeId = true) :
    ∃ i < c, (e.copyList i).nodeId = nodeId := by
  rw [Pt.liveOn, List.any_eq_true] at hl
  obtain ⟨i, -, hi⟩ := hl
  obtain ⟨hlive, hnode⟩ := Bool.and_eq_true_iff.mp hi
  refine ⟨i, ?_, (beq_iff_eq.mp hnode).symm⟩
  by_contra hge
  rw [(h.unused i (not_lt.mp hge)).1] at hlive
  exact Bool.noConfusion hlive

/-! ## Loads -/

/-- Copy `i` of the entry lies on the disk. -/
def onDisk (i : Nat) (d : Nat × Nat) (e : PtEntry) : Bool :=
  (e.copyList i).nodeId == d.1 && (e.copyList i).diskId == d.2

theorem onDisk_iff {i : Nat} {d : Nat × Nat} {e : PtEntry} :
    onDisk i d e = true ↔
      d = ((e.copyList i).nodeId, (e.copyList i).diskId) := by
  rw [onDisk, Bool.and_eq_true, beq_iff_eq, beq_iff_eq, Prod.ext_iff]
  exact ⟨fun h => ⟨h.1.symm, h.2.symm⟩, fun h => ⟨h.1.symm, h.2.symm⟩⟩

/-- The busy list while round `c` is under way: it holds the given disks, and
    the load of each is the number of partitions done whose copy `c` is on
    it. -/
structure Loads (disks : List (Nat × Nat)) (c : Nat) (done : List PtEntry)
    (busy : List CalcElem) : Prop where
  perm : (busy.map CalcElem.disk).Perm disks
  refer : ∀ x ∈ busy, x.referNum = (done.countP (onDisk c x.disk) : Nat)

/-- The element of a candidate after one more copy. -/
def CalcElem.bump (x : CalcElem) : CalcElem :=
  { x with referNum := x.referNum + 1 }

/-- The element of the busy list that stands for the disk of `x`. -/
def sameDisk (x y : CalcElem) : Bool :=
  y.nodeId == x.nodeId && y.diskId == x.diskId

theorem sameDisk_self (x : CalcElem) : sameDisk x x = true := by
  simp [sameDisk]

theorem sameDisk_iff {x y : CalcElem} :
    sameDisk x y = true ↔ y.disk = x.disk := by
  rw [sameDisk, Bool.and_eq_true, beq_iff_eq, beq_iff_eq]
  exact ⟨fun h => Prod.ext h.1 h.2,
    fun h => ⟨congrArg Prod.fst h, congrArg Prod.snd h⟩⟩

/-- `ViewCalcFillUpdateBusyList` on the element it finds. -/
theorem fillUpdate_of_find {busy : List CalcElem} {x : CalcElem}
    (h : busy.find? (sameDisk x) = some x) (hlt : x.referNum < 2 ^ 63 - 1) :
    viewCalcFillUpdateBusyList busy x.nodeId x.diskId 1
      = insertAfter CalcElem.referNum x.bump (busy.eraseP (sameDisk x)) := by
  have hfind : (busy.find? fun y =>
      y.nodeId == x.nodeId && y.diskId == x.diskId) = some x := h
  rw [viewCalcFillUpdateBusyList, hfind]
  dsimp only
  rw [if_neg (by omega)]
  rfl

/-- `ViewCalcFillUpdateBusyList` on a disk of the list: its element moves. -/
theorem fillUpdate_eq {busy : List CalcElem} {x : CalcElem}
    (hnd : (busy.map CalcElem.disk).Nodup) (hx : x ∈ busy)
    (hlt : x.referNum < 2 ^ 63 - 1) :
    ∃ l₁ l₂, busy = l₁ ++ x :: l₂ ∧
      viewCalcFillUpdateBusyList busy x.nodeId x.diskId 1
        = insertAfter CalcElem.referNum x.bump (l₁ ++ l₂) := by
  obtain ⟨y, l₁, l₂, hl₁, hy, hbusy, herase⟩ :=
    List.exists_of_eraseP hx (sameDisk_self x)
  have hyx : y = x := List.inj_on_of_nodup_map hnd
    (by rw [hbusy]; simp) hx (sameDisk_iff.mp hy)
  subst hyx
  refine ⟨l₁, l₂, hbusy, ?_⟩
  rw [← herase]
  refine fillUpdate_of_find ?_ hlt
  refine List.find?_eq_some_iff_append.mpr
    ⟨sameDisk_self y, l₁, l₂, hbusy, fun z hz => ?_⟩
  rw [Bool.not_eq_true']
  exact Bool.eq_false_iff.mpr (hl₁ z hz)

/-- One more partition is done, its copy on the disk of `x`. -/
theorem Loads.fill {disks : List (Nat × Nat)} {c : Nat}
    {done : List PtEntry} {busy : List CalcElem} {x : CalcElem} {e : PtEntry}
    (h : Loads disks c done busy) (hnd : disks.Nodup)
    (hlen : done.length < 2 ^ 63 - 1) (hx : x ∈ busy)
    (he : x.disk = ((e.copyList c).nodeId, (e.copyList c).diskId)) :
    Loads disks c (done ++ [e])
      (viewCalcFillUpdateBusyList busy x.nodeId x.diskId 1) := by
  have hndb : (busy.map CalcElem.disk).Nodup := h.perm.nodup_iff.mpr hnd
  have hbound : x.referNum < 2 ^ 63 - 1 := by
    have hle := List.countP_le_length (p := onDisk c x.disk) (l := done)
    rw [h.refer x hx]
    omega
  obtain ⟨l₁, l₂, hbusy, heq⟩ := fillUpdate_eq hndb hx hbound
  have hmid : busy.Perm (x :: (l₁ ++ l₂)) := by
    rw [hbusy]
    exact List.perm_middle
  have hcount : ∀ d, (done ++ [e]).countP (onDisk c d)
      = done.countP (onDisk c d) + if d = x.disk then 1 else 0 := by
    intro d
    rw [List.countP_append, List.countP_singleton]
    by_cases hd : d = x.disk
    · rw [if_pos hd, if_pos (onDisk_iff.mpr (hd.trans he))]
    · rw [if_neg hd, if_neg fun hon =>
        hd ((onDisk_iff.mp hon).trans he.symm)]
  rw [heq]
  refine ⟨?_, ?_⟩
  · have hins := (insertAfter_perm CalcElem.referNum x.bump
      (l₁ ++ l₂)).map CalcElem.disk
    exact hins.trans ((hmid.map CalcElem.disk).symm.trans h.perm)
  · intro y hy
    rw [hcount]
    rcases mem_insertAfter.mp hy with hyx | hyl
    · have hdisk : x.bump.disk = x.disk := rfl
      have hrefer : x.bump.referNum = x.referNum + 1 := rfl
      rw [hyx, hdisk, if_pos rfl, hrefer, h.refer x hx, Int.natCast_add]
      rfl
    · have hnd2 : ((x :: (l₁ ++ l₂)).map CalcElem.disk).Nodup :=
        (hmid.map CalcElem.disk).nodup_iff.mp hndb
      have hne : y.disk ≠ x.disk := by
        intro heqd
        rw [List.map_cons, List.nodup_cons] at hnd2
        exact hnd2.1 (heqd ▸ List.mem_map_of_mem hyl)
      rw [if_neg hne, Nat.add_zero]
      exact h.refer y (hmid.mem_iff.mpr (List.mem_cons_of_mem _ hyl))

/-- The head of a level busy list takes the copy. -/
theorem level_fillHead {x : CalcElem} {busy : List CalcElem}
    (h : Level CalcElem.referNum (x :: busy))
    (hlt : x.referNum < 2 ^ 63 - 1) :
    Level CalcElem.referNum
      (viewCalcFillUpdateBusyList (x :: busy) x.nodeId x.diskId 1) := by
  rw [fillUpdate_of_find (List.find?_cons_of_pos (sameDisk_self x)) hlt,
    List.eraseP_cons_of_pos (sameDisk_self x)]
  exact h.bump rfl

/-- `ViewCalcResetBusyList`: the next round starts with no loads. -/
theorem loads_reset {disks : List (Nat × Nat)} {c : Nat}
    {busy : List CalcElem} (h : (busy.map CalcElem.disk).Perm disks)
    (diskNum : Nat) :
    Loads disks c [] (viewCalcResetBusyList busy diskNum) := by
  refine ⟨?_, ?_⟩
  · rw [viewCalcResetBusyList]
    refine ((List.rotate_perm _ _).map _).trans ?_
    rw [List.map_map]
    exact h
  · intro x hx
    rw [viewCalcResetBusyList, List.mem_rotate] at hx
    obtain ⟨y, -, rfl⟩ := List.mem_map.mp hx
    rfl

/-! ## One visit -/

/-- The copies below `c` run, on distinct nodes, on disks of the busy list. -/
structure PlacedTo (disks : List (Nat × Nat)) (v m c : Nat) (e : PtEntry) :
    Prop where
  fresh : FreshTo v m c e
  disks : ∀ i < c, ((e.copyList i).nodeId, (e.copyList i).diskId) ∈ disks

section Rounds

variable {core : CalcCore} {nodeList : NodeInfoList}
  {stateList : NodeStateList} {v : Nat}

/-- The disks of the busy list. -/
def candidateDisks (nodeList : NodeInfoList) (stateList : NodeStateList) :
    List (Nat × Nat) :=
  (candidates nodeList stateList).map CalcElem.disk

/-- A busy list with all candidates has one for the next copy. -/
theorem PlacedTo.find {c : Nat} {e : PtEntry} {busy : List CalcElem}
    (h : PlacedTo (candidateDisks nodeList stateList) v core.copyNum c e)
    (hc : c < viewCalcNormNodeNum nodeList stateList)
    (hperm : (busy.map CalcElem.disk).Perm
      (candidateDisks nodeList stateList)) :
    ∃ x ∈ busy, busy.find? (fun x => !liveOn e x.nodeId) = some x := by
  obtain ⟨y, hy, hfree⟩ := exists_free
    ((List.range c).map fun i => (e.copyList i).nodeId)
    (by rwa [List.length_map, List.length_range])
  have hmem : y.disk ∈ busy.map CalcElem.disk :=
    hperm.mem_iff.mpr (List.mem_map_of_mem hy)
  obtain ⟨z, hz, hzy⟩ := List.mem_map.mp hmem
  have hnode : z.nodeId = y.nodeId := congrArg Prod.fst hzy
  have hnot : liveOn e z.nodeId = false := by
    rw [hnode]
    refine Bool.eq_false_iff.mpr fun hl => hfree ?_
    obtain ⟨i, hi, hin⟩ := h.fresh.liveOn hl
    exact List.mem_map.mpr ⟨i, List.mem_range.mpr hi, hin⟩
  have hsome : (busy.find? fun x => !liveOn e x.nodeId).isSome := by
    refine List.find?_isSome.mpr ⟨z, hz, ?_⟩
    rw [hnot]
    rfl
  obtain ⟨x, hx⟩ := Option.isSome_iff_exists.mp hsome
  exact ⟨x, List.mem_of_find?_eq_some hx, hx⟩

/-- In round 0 it is the first one. -/
theorem PlacedTo.find_head {disks : List (Nat × Nat)} {m : Nat} {e : PtEntry}
    (h : PlacedTo disks v m 0 e) (x : CalcElem) (busy : List CalcElem) :
    (x :: busy).find? (fun x => !liveOn e x.nodeId) = some x := by
  refine List.find?_cons_of_pos ?_
  rw [Bool.not_eq_true', Bool.eq_false_iff]
  intro hl
  obtain ⟨i, hi, -⟩ := h.fresh.liveOn hl
  exact absurd hi (Nat.not_lt_zero i)

/-- What a visit finds, it writes. -/
theorem buildVisit_of_find (core : CalcCore) {c : Nat} {e : PtEntry} {busy : List CalcElem}
    {x : CalcElem} (hinit : (e.copyList c).state = .init)
    (h : busy.find? (fun x => !liveOn e x.nodeId) = some x) :
    buildVisit core c e busy = some (fillCopy core c e x,
      viewCalcFillUpdateBusyList busy x.nodeId x.diskId 1) := by
  rw [buildVisit, hinit, if_neg (by decide), viewCalcBuildPtEntry, h]

theorem fillCopy_apply {c : Nat} {e : PtEntry} (x : CalcElem)
    (hinit : (e.copyList c).state = .init) (i : Nat) :
    (fillCopy core c e x).copyList i
      = if i = c then { e.copyList c with
          nodeId := x.nodeId, diskId := x.diskId, state := .running }
        else e.copyList i := by
  rw [fillCopy, if_pos hinit, setCopy_apply]

/-- The work list of a round: in round 0 it is also level. -/
structure RoundState (disks : List (Nat × Nat)) (c : Nat)
    (done : List PtEntry) (busy : List CalcElem) : Prop where
  loads : Loads disks c done busy
  level : c = 0 → Level CalcElem.referNum busy

/-- What a round does to one entry. -/
structure RoundEntry (disks : List (Nat × Nat)) (v m c : Nat)
    (e e' : PtEntry) : Prop where
  placed : PlacedTo disks v m (c + 1) e'
  kept : ∀ i < c, e'.copyList i = e.copyList i

/-- **VISIT**: the copy is placed, and the work list counts it. -/
theorem roundState_visit {c : Nat} {e : PtEntry} {done : List PtEntry}
    {busy : List CalcElem}
    (hnd : (candidateDisks nodeList stateList).Nodup)
    (hc : c < core.copyNum)
    (hnorm : core.copyNum ≤ viewCalcNormNodeNum nodeList stateList)
    (hlen : done.length < 2 ^ 63 - 1)
    (he : PlacedTo (candidateDisks nodeList stateList) v core.copyNum c e)
    (h : RoundState (candidateDisks nodeList stateList) c done busy) :
    ∃ e' busy', buildVisit core c e busy = some (e', busy') ∧
      RoundEntry (candidateDisks nodeList stateList) v core.copyNum c e e' ∧
      RoundState (candidateDisks nodeList stateList) c (done ++ [e'])
        busy' := by
  have hinit := (he.fresh.unused c (Nat.le_refl c)).1
  obtain ⟨x, hx, hfind⟩ := he.find (Nat.lt_of_lt_of_le hc hnorm) h.loads.perm
  have hvisit := buildVisit_of_find core hinit hfind
  have hxd : x.disk ∈ candidateDisks nodeList stateList :=
    h.loads.perm.mem_iff.mp (List.mem_map_of_mem hx)
  have hnew : x.disk = (((fillCopy core c e x).copyList c).nodeId,
      ((fillCopy core c e x).copyList c).diskId) := by
    rw [fillCopy_apply x hinit, if_pos rfl]
    rfl
  have hkept : ∀ i < c, (fillCopy core c e x).copyList i = e.copyList i := by
    intro i hi
    rw [fillCopy_apply x hinit, if_neg (by omega)]
  refine ⟨_, _, hvisit, ⟨⟨fresh_buildVisit hc hvisit he.fresh, ?_⟩, hkept⟩,
    ⟨h.loads.fill hnd hlen hx hnew, ?_⟩⟩
  · intro i hi
    by_cases hic : i = c
    · rw [hic, ← hnew]
      exact hxd
    · rw [hkept i (by omega)]
      exact he.disks i (by omega)
  · intro hc0
    subst hc0
    cases busy with
    | nil => exact nomatch hx
    | cons y busy =>
        have hyx : y = x :=
          Option.some.inj ((he.find_head y busy).symm.trans hfind)
        subst hyx
        refine level_fillHead (h.level rfl) ?_
        have hle := List.countP_le_length (p := onDisk 0 y.disk) (l := done)
        rw [h.loads.refer y hx]
        omega

/-! ## One round -/

/-- The copies 0 of the partitions are spread evenly over the disks. -/
def Balanced (disks : List (Nat × Nat)) (es : List PtEntry) : Prop :=
  ∀ d ∈ disks, ∀ d' ∈ disks,
    es.countP (onDisk 0 d) ≤ es.countP (onDisk 0 d') + 1

/-- Level loads are an even spread. -/
theorem RoundState.balanced {disks : List (Nat × Nat)} {done : List PtEntry}
    {busy : List CalcElem} (h : RoundState disks 0 done busy) :
    Balanced disks done := by
  intro d hd d' hd'
  obtain ⟨x, hx, rfl⟩ := List.mem_map.mp (h.loads.perm.mem_iff.mpr hd)
  obtain ⟨y, hy, rfl⟩ := List.mem_map.mp (h.loads.perm.mem_iff.mpr hd')
  have hclose := (h.level rfl).close y hy x hx
  rw [h.loads.refer x hx, h.loads.refer y hy] at hclose
  omega

/-- Later rounds leave copy 0 alone. -/
theorem Balanced.congr {disks : List (Nat × Nat)} {es es' : List PtEntry}
    (h : Balanced disks es)
    (hkept : List.Forall₂ (fun e e' => e'.copyList 0 = e.copyList 0) es es') :
    Balanced disks es' := by
  have hcount : ∀ d, es'.countP (onDisk 0 d) = es.countP (onDisk 0 d) := by
    intro d
    clear h
    induction hkept with
    | nil => rfl
    | cons hab _ ih =>
        rw [List.countP_cons, List.countP_cons, ih, onDisk, onDisk, hab]
  intro d hd d' hd'
  rw [hcount, hcount]
  exact h d hd d' hd'

/-- The state between two rounds. -/
structure BetweenRounds (disks : List (Nat × Nat)) (v m n c : Nat)
    (st : List PtEntry × List CalcElem) : Prop where
  num : st.1.length = n
  placed : ∀ e ∈ st.1, PlacedTo disks v m c e
  busy : RoundState disks c [] st.2
  balanced : 0 < c → Balanced disks st.1

/-- **ROUND**: a round succeeds and places its copy of every partition. -/
theorem betweenRounds_round {n c : Nat} (diskNum : Nat)
    {st : List PtEntry × List CalcElem}
    (hnd : (candidateDisks nodeList stateList).Nodup)
    (hc : c < core.copyNum)
    (hnorm : core.copyNum ≤ viewCalcNormNodeNum nodeList stateList)
    (hn : n < 2 ^ 16)
    (h : BetweenRounds (candidateDisks nodeList stateList) v core.copyNum
      n c st) :
    ∃ st', buildRound core diskNum st c = some st' ∧
      BetweenRounds (candidateDisks nodeList stateList) v core.copyNum
        n (c + 1) st' := by
  obtain ⟨es', busy', hrun, hentries, hstate⟩ := traverseSt_total
    (R := RoundEntry (candidateDisks nodeList stateList) v core.copyNum c)
    (P := RoundState (candidateDisks nodeList stateList) c) st.1 [] st.2
    (fun e he done busy hlt hP => roundState_visit hnd hc hnorm
      (by rw [List.length_nil, h.num] at hlt; omega) (h.placed e he) hP)
    h.busy
  rw [List.nil_append] at hstate
  refine ⟨(es', viewCalcResetBusyList busy' diskNum), ?_, ?_, ?_, ?_, ?_⟩
  · rw [buildRound, hrun]
    rfl
  · exact hentries.length_eq.symm.trans h.num
  · exact forall₂_all (P := fun _ => True) (fun _ _ hab _ => hab.placed)
      hentries fun _ _ => trivial
  · exact ⟨loads_reset hstate.loads.perm diskNum,
      fun hc0 => absurd hc0 (Nat.succ_ne_zero c)⟩
  · intro _
    rcases Nat.eq_zero_or_pos c with hc0 | hpos
    · subst hc0
      exact hstate.balanced
    · exact (h.balanced hpos).congr
        (hentries.imp fun _ _ hab => hab.kept 0 hpos)

/-- **ROUNDS**: by induction on the rounds, all of them succeed. -/
theorem betweenRounds_run {n : Nat} (diskNum : Nat)
    {st : List PtEntry × List CalcElem}
    (hnd : (candidateDisks nodeList stateList).Nodup)
    (hnorm : core.copyNum ≤ viewCalcNormNodeNum nodeList stateList)
    (hn : n < 2 ^ 16)
    (h : BetweenRounds (candidateDisks nodeList stateList) v core.copyNum
      n 0 st) :
    ∀ k ≤ core.copyNum, ∃ st',
      (List.range k).foldlM (buildRound core diskNum) st = some st' ∧
      BetweenRounds (candidateDisks nodeList stateList) v core.copyNum
        n k st' := by
  intro k
  induction k with
  | zero => intro _; exact ⟨st, rfl, h⟩
  | succ k ih =>
      intro hk
      obtain ⟨mid, hmid, hb⟩ := ih (Nat.le_of_succ_le hk)
      obtain ⟨st', hst', hb'⟩ := betweenRounds_round diskNum
        hnd hk hnorm hn hb
      refine ⟨st', ?_, hb'⟩
      rw [List.range_succ, List.foldlM_append, hmid]
      show [k].foldlM (buildRound core diskNum) mid = some st'
      rw [List.foldlM_cons, hst']
      rfl

end Rounds

/-! ## The whole placement -/

/-- With all copies running, the first running one is copy 0. -/
theorem FreshTo.master {v m : Nat} {e : PtEntry} (h : FreshTo v m m e)
    (hm : 0 < m) :
    (initialUpdateEntry e).masterNodeId = (e.copyList 0).nodeId ∧
    (initialUpdateEntry e).masterDiskId = (e.copyList 0).diskId := by
  have hhead : e.runningList.head? = some 0 := by
    obtain ⟨k, hk⟩ := Nat.exists_eq_succ_of_ne_zero (Nat.ne_of_gt hm)
    rw [PtEntry.runningList, h.num, hk, List.range_succ_eq_map,
      List.filter_cons_of_pos (by rw [(h.running 0 hm).1]; rfl)]
    rfl
  rw [initialUpdateEntry, hhead]
  exact ⟨rfl, rfl⟩

/-- The fresh entries and the fresh busy list start round 0. -/
theorem betweenRounds_start (core : CalcCore) (nodeList : NodeInfoList)
    (stateList : NodeStateList) (version : Nat) :
    BetweenRounds (candidateDisks nodeList stateList) (version + 1)
      core.copyNum core.ptNum 0
      ((viewCalcInitPtEntryList core nodeList.poolId version).ptEntryList,
        candidates nodeList stateList) := by
  have hnone : ∀ i, ¬ i < 0 := Nat.not_lt_zero
  refine ⟨?_, ?_, ⟨⟨List.Perm.refl _, ?_⟩, ?_⟩, fun h0 => absurd h0 (hnone 0)⟩
  · exact (List.length_map _).trans List.length_range
  · intro e he
    obtain ⟨ptId, -, rfl⟩ := List.mem_map.mp he
    exact ⟨⟨rfl, rfl, fun i hi => absurd hi (hnone i),
      fun _ _ => ⟨rfl, rfl⟩, fun i hi => absurd hi (hnone i)⟩,
      fun i hi => absurd hi (hnone i)⟩
  · intro x hx
    exact candidates_referNum hx
  · intro _
    exact level_of_eq fun x hx => candidates_referNum hx

/-- Rounds that succeed make the placement succeed. -/
theorem initial_of_rounds {core : CalcCore} {nodeList : NodeInfoList}
    {stateList : NodeStateList} {version : Nat} {busy : List CalcElem}
    {st : List PtEntry × List CalcElem}
    (hnorm : core.copyNum ≤ viewCalcNormNodeNum nodeList stateList)
    (hbusy : (viewCalcBuildBusyList core nodeList stateList).1 = busy)
    (hst : (List.range core.copyNum).foldlM (buildRound core
      (viewCalcBuildBusyList core nodeList stateList).2)
      ((viewCalcInitPtEntryList core nodeList.poolId version).ptEntryList,
        busy) = some st) :
    viewCalculatorInitial core nodeList stateList version = some
      { viewCalcInitPtEntryList core nodeList.poolId version with
        ptEntryList := st.1.map initialUpdateEntry } := by
  rw [viewCalculatorInitial, if_neg (not_lt.mpr hnorm)]
  dsimp only
  rw [viewCalcBuildPtEntryList, hbusy, hst]
  rfl

/-- Choosing the masters keeps the spread. -/
theorem Balanced.masters {disks : List (Nat × Nat)} {es : List PtEntry}
    (h : Balanced disks es) : Balanced disks (es.map initialUpdateEntry) :=
  h.congr (List.forall₂_map_right_iff.mpr (List.forall₂_same.mpr fun e _ => by
    rw [(initialUpdateEntry_frame e).1]))

/-- The number of partitions whose copy 0 lies on the disk. -/
def copy0Num (l : PtEntryList) (nodeId diskId : Nat) : Nat :=
  l.ptEntryList.countP (onDisk 0 (nodeId, diskId))

/-- **INITIAL PLACEMENT**: with at least as many normal nodes as copies the
    placement succeeds, gives every partition its copies on distinct nodes with
    copy 0 as master, and spreads the copies 0 evenly over the normal disks.
    Nothing depends on how many disks a node has. -/
theorem initial_placement {maxNodeNum ptNum copyNum minCopyNum diskNum version
    : Nat} {nodeList : NodeInfoList} {stateList : NodeStateList}
    (hfit : TablesFit maxNodeNum nodeList stateList)
    (hpt : ptNum < 2 ^ 16) (hcopy : 0 < copyNum)
    (hnorm : copyNum ≤ viewCalcNormNodeNum nodeList stateList) :
    ∃ l, viewCalculatorInitial (createViewCalculator maxNodeNum ptNum copyNum
        minCopyNum diskNum) nodeList stateList version = some l ∧
      l.ptEntryList.length = ptNum ∧
      (∀ e ∈ l.ptEntryList,
        (∀ i, (e.copyList i).state = .running ↔ i < copyNum) ∧
        (∀ i < copyNum, NormalDisk nodeList stateList (e.copyList i).nodeId
          (e.copyList i).diskId) ∧
        (∀ i < copyNum, ∀ j < copyNum,
          (e.copyList i).nodeId = (e.copyList j).nodeId → i = j) ∧
        e.masterNodeId = (e.copyList 0).nodeId ∧
        e.masterDiskId = (e.copyList 0).diskId) ∧
      ∀ nodeId diskId nodeId' diskId',
        NormalDisk nodeList stateList nodeId diskId →
        NormalDisk nodeList stateList nodeId' diskId' →
        copy0Num l nodeId diskId ≤ copy0Num l nodeId' diskId' + 1 := by
  obtain ⟨st, hst, hb⟩ := betweenRounds_run _ hfit.candidates_nodup hnorm hpt
    (betweenRounds_start (createViewCalculator maxNodeNum ptNum copyNum
      minCopyNum diskNum) nodeList stateList version) copyNum (Nat.le_refl _)
  refine ⟨_, initial_of_rounds hnorm (hfit.busyList ..) hst, ?_, ?_, ?_⟩
  · exact (List.length_map _).trans hb.num
  · intro e he
    obtain ⟨e₀, he₀, rfl⟩ := List.mem_map.mp he
    have hp := hb.placed e₀ he₀
    rw [(initialUpdateEntry_frame e₀).1]
    refine ⟨?_, ?_, hp.fresh.distinct, hp.fresh.master hcopy⟩
    · intro i
      refine ⟨fun hrun => ?_, fun hi => (hp.fresh.running i hi).1⟩
      by_contra hge
      rw [(hp.fresh.unused i (not_lt.mp hge)).1] at hrun
      exact PtCopyState.noConfusion hrun
    · intro i hi
      exact mem_candidates_disk.mp (hp.disks i hi)
  · intro nodeId diskId nodeId' diskId' hd hd'
    exact (hb.balanced hcopy).masters _ (mem_candidates_disk.mpr hd) _
      (mem_candidates_disk.mpr hd')

/-- Two nodes with two disks each, a third with one, disk 1 of node 0
    faulty. -/
def mixedPool : NodeInfoList :=
  ⟨0, [⟨[⟨0, .normal⟩, ⟨1, .fault⟩], []⟩, ⟨[⟨0, .normal⟩, ⟨1, .normal⟩], []⟩,
    ⟨[⟨0, .normal⟩], []⟩]⟩

/-- All nodes and disks have joined. -/
def mixedStates : NodeStateList :=
  ⟨[⟨.up, .stateIn, [.stateIn, .stateIn]⟩,
    ⟨.up, .stateIn, [.stateIn, .stateIn]⟩, ⟨.up, .stateIn, [.stateIn]⟩]⟩

theorem initial_placement_mixed :
    ∃ l, viewCalculatorInitial (createViewCalculator 3 5 2 1 0) mixedPool
        mixedStates 0 = some l ∧
      copy0Num l 0 0 ≤ copy0Num l 1 1 + 1 := by
  have hfit : TablesFit 3 mixedPool mixedStates := by
    refine ⟨by decide, by decide, ?_, ?_⟩
    · intro nodeId
      match nodeId with
      | 0 | 1 | 2 => decide
      | _ + 3 => exact Nat.zero_le _
    · intro nodeId
      match nodeId with
      | 0 | 1 | 2 => decide
      | _ + 3 => exact List.nodup_nil
  obtain ⟨l, hl, -, -, hb⟩ := initial_placement hfit
    (by decide : 5 < 2 ^ 16) (by decide : 0 < 2) (by decide)
  exact ⟨l, hl, hb 0 0 1 1
    ⟨rfl, 0, ⟨0, .normal⟩, rfl, rfl, rfl, rfl⟩
    ⟨rfl, 1, ⟨1, .normal⟩, rfl, rfl, rfl, rfl⟩⟩

end UbsIo.Pt
