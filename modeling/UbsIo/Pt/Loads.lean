import UbsIo.Lib.WorkList
import UbsIo.Pt.Blank
import UbsIo.Pt.Initial

/-! # The loads of a rebalance

    In round `c` of `ViewCalcBuildPtEntryList1` the busy list carries, for each
    normal disk, the number of partitions whose copy of slot `c` lies on it
    (`roundLoad`), and is sorted by it.  It is filled from the entries at the
    start of the round, and every refill and every move keeps it true: a slot
    that is refilled was nowhere, and a move is counted at both ends.  With as
    many normal nodes as copies every refill finds a disk, so the pass comes to
    every visit (`beforeVisit_total`). -/

namespace UbsIo.Pt

open UbsIo.Lib

/-! ## The copy of a slot -/

/-- The copy the calculator takes for slot `c`. -/
def slotCopy (m : Nat) (e : PtEntry) (c : Nat) : PtEntryCopy :=
  e.copyList (slotIndex m e c)

/-- The disk a copy names. -/
def PtEntryCopy.disk (x : PtEntryCopy) : Nat × Nat := (x.nodeId, x.diskId)

theorem slotIndex_of_live {m c : Nat} {e : PtEntry} (h : Live e c) :
    slotIndex m e c = c := if_pos h

theorem slotIndex_of_dead {m c : Nat} {e : PtEntry} (h : ¬ Live e c) :
    slotIndex m e c = c + m := if_neg h

/-- The number of partitions whose copy of slot `c` lies on the disk. -/
def roundLoad (m c : Nat) (es : List PtEntry) (d : Nat × Nat) : Nat :=
  es.countP fun e => (slotCopy m e c).disk == d

/-- What one partition adds to the load of a disk. -/
def share (m c : Nat) (e : PtEntry) (d : Nat × Nat) : Int :=
  if (slotCopy m e c).disk = d then 1 else 0

theorem share_of_ne {m c : Nat} {e : PtEntry} {d : Nat × Nat}
    (h : (slotCopy m e c).disk ≠ d) : share m c e d = 0 := if_neg h

theorem roundLoad_cons (m c : Nat) (e : PtEntry) (es : List PtEntry)
    (d : Nat × Nat) :
    (roundLoad m c (e :: es) d : Int) = share m c e d + roundLoad m c es d := by
  rw [roundLoad, List.countP_cons, share, roundLoad, Int.natCast_add, Int.add_comm]
  by_cases h : (slotCopy m e c).disk = d
  · rw [if_pos h, if_pos (beq_iff_eq.mpr h)]
    rfl
  · rw [if_neg h, if_neg fun hb => h (beq_iff_eq.mp hb)]
    rfl

theorem roundLoad_append (m c : Nat) (es es' : List PtEntry) (d : Nat × Nat) :
    (roundLoad m c (es ++ es') d : Int) =
      roundLoad m c es d + roundLoad m c es' d := by
  rw [roundLoad, List.countP_append, Int.natCast_add]
  rfl

/-- The load after one entry has been replaced. -/
theorem roundLoad_set {m c p : Nat} {es : List PtEntry} {e : PtEntry}
    (h : es[p]? = some e) (e' : PtEntry) (d : Nat × Nat) :
    (roundLoad m c (es.set p e') d : Int) =
      roundLoad m c es d - share m c e d + share m c e' d := by
  obtain ⟨hlt, hget⟩ := List.getElem?_eq_some_iff.mp h
  have hes : es = es.take p ++ e :: es.drop (p + 1) := by
    rw [← hget, ← List.drop_eq_getElem_cons hlt, List.take_append_drop]
  have hold : (roundLoad m c es d : Int) = roundLoad m c (es.take p) d +
      (share m c e d + roundLoad m c (es.drop (p + 1)) d) := by
    rw [← roundLoad_cons, ← roundLoad_append, ← hes]
  have hnew : (roundLoad m c (es.set p e') d : Int) =
      roundLoad m c (es.take p) d +
        (share m c e' d + roundLoad m c (es.drop (p + 1)) d) := by
    rw [← roundLoad_cons, ← roundLoad_append,
      List.set_eq_take_append_cons_drop, if_pos hlt]
  rw [hold, hnew]
  omega

theorem roundLoad_le (m c : Nat) (es : List PtEntry) (d : Nat × Nat) :
    roundLoad m c es d ≤ es.length := List.countP_le_length

/-! ## Normal disks -/

/-- Every registered disk has an id; `DISK_ID_INVALID` is none. -/
def DisksNumbered (nodeList : NodeInfoList) : Prop :=
  ∀ nodeId, ∀ d ∈ (nodeList.node nodeId).diskList, d.diskId ≠ diskIdInvalid

/-- What a rebalance is given: tables that fit, with numbered disks. -/
structure Tables (maxNodeNum : Nat) (nodeList : NodeInfoList)
    (stateList : NodeStateList) : Prop where
  fit : TablesFit maxNodeNum nodeList stateList
  numbered : DisksNumbered nodeList

theorem diskPos_eq {nodeList : NodeInfoList} {nodeId k : Nat} {d : DiskInfo}
    (hids : ((nodeList.node nodeId).diskList.map (·.diskId)).Nodup)
    (hk : (nodeList.node nodeId).diskList[k]? = some d) :
    diskPos nodeList nodeId d.diskId = some k := by
  obtain ⟨hlt, hget⟩ := List.getElem?_eq_some_iff.mp hk
  rw [diskPos, List.findIdx?_eq_some_iff_getElem]
  refine ⟨hlt, by rw [hget]; exact beq_self_eq_true _, ?_⟩
  intro j hj hb
  have hlen : j < ((nodeList.node nodeId).diskList.map (·.diskId)).length := by
    rw [List.length_map]
    omega
  have hsame : ((nodeList.node nodeId).diskList.map (·.diskId))[j]? =
      ((nodeList.node nodeId).diskList.map (·.diskId))[k]? := by
    rw [List.getElem?_map, List.getElem?_map, hk,
      List.getElem?_eq_getElem (by omega)]
    exact congrArg some (beq_iff_eq.mp hb)
  exact absurd ((List.getElem?_inj hlen hids).mp hsame) (Nat.ne_of_lt hj)

section Tables

variable {maxNodeNum : Nat} {core : CalcCore} {nodeList : NodeInfoList}
  {stateList : NodeStateList}

theorem NormalDisk.valid (h : Tables maxNodeNum nodeList stateList)
    {nodeId diskId : Nat} (hd : NormalDisk nodeList stateList nodeId diskId) :
    nodeId ≠ nodeIdInvalid ∧ diskId ≠ diskIdInvalid := by
  obtain ⟨hin, k, d, hk, rfl, -, -⟩ := hd
  have hlt := nodeIsIn_lt hin
  have hnodes := h.fit.nodes
  have hlimit := h.fit.limit
  rw [maxNodeNumLimit] at hlimit
  rw [nodeIdInvalid]
  exact ⟨by omega, h.numbered nodeId d (List.mem_of_getElem? hk)⟩

/-- `ViewCalcCheckNodeIsNormal` finds the disks of the busy list. -/
theorem checkNodeIsNormal_iff (h : Tables maxNodeNum nodeList stateList)
    {nodeId diskId : Nat} :
    viewCalcCheckNodeIsNormal nodeList stateList nodeId diskId = true ↔
      NormalDisk nodeList stateList nodeId diskId := by
  unfold viewCalcCheckNodeIsNormal
  constructor
  · intro hcheck
    split at hcheck
    · exact nomatch hcheck
    · split at hcheck
      · exact nomatch hcheck
      · rename_i hin
        split at hcheck
        · exact nomatch hcheck
        · rename_i k hk
          obtain ⟨hlt, hid, -⟩ := List.findIdx?_eq_some_iff_getElem.mp hk
          obtain ⟨hn, hst⟩ := Bool.and_eq_true_iff.mp hcheck
          rw [List.getD_eq_getElem _ _ hlt] at hn
          exact ⟨by simpa using hin, k, _, List.getElem?_eq_getElem hlt,
            beq_iff_eq.mp hid, beq_iff_eq.mp hn, beq_iff_eq.mp hst⟩
  · intro hd
    obtain ⟨hnode, hdisk⟩ := NormalDisk.valid h hd
    obtain ⟨hin, k, d, hk, rfl, hn, hst⟩ := hd
    rw [if_neg (by tauto), if_neg (by rw [hin]; exact Bool.noConfusion),
      diskPos_eq (h.fit.ids nodeId) hk]
    dsimp only
    rw [List.getD_eq_getElem?_getD, hk, Option.getD_some, hn, hst]
    rfl

/-- A normal disk has not left the cluster. -/
theorem NormalDisk.not_fault (h : Tables maxNodeNum nodeList stateList)
    {nodeId diskId : Nat} (hd : NormalDisk nodeList stateList nodeId diskId) :
    viewCalcCheckNodeIsFault nodeList stateList nodeId diskId = false := by
  obtain ⟨hnode, hdisk⟩ := NormalDisk.valid h hd
  obtain ⟨hin, k, d, hk, rfl, hn, hst⟩ := hd
  have hjoined := beq_iff_eq.mp (Bool.and_eq_true_iff.mp hin).2
  unfold viewCalcCheckNodeIsFault
  rw [if_neg (by tauto), if_neg (by rw [hjoined]; exact nofun),
    diskPos_eq (h.fit.ids nodeId) hk]
  dsimp only
  rw [hst]
  rfl

theorem mem_candidateDisks {d : Nat × Nat} :
    d ∈ candidateDisks nodeList stateList ↔
      NormalDisk nodeList stateList d.1 d.2 := mem_candidates_disk

/-! ## The busy list of a round -/

/-- The busy list while round `c` is at the entries `es`. -/
def Loaded (disks : List (Nat × Nat)) (m c : Nat) (es : List PtEntry)
    (busy : List CalcElem) : Prop :=
  WorkList CalcElem.disk CalcElem.referNum disks
    (fun d => (roundLoad m c es d : Int)) busy

/-- `ViewCalcFillUpdateBusyList` changes the load of one disk, if it is in the
    list. -/
theorem fillUpdate_workList {disks : List (Nat × Nat)} {f : Nat × Nat → Int}
    {busy : List CalcElem} {d : Nat × Nat} (diff : Int)
    (h : WorkList CalcElem.disk CalcElem.referNum disks f busy)
    (hnd : disks.Nodup) (hle : f d + diff ≤ 2 ^ 63 - 1) :
    WorkList CalcElem.disk CalcElem.referNum disks
      (Function.update f d (f d + diff))
      (viewCalcFillUpdateBusyList busy d.1 d.2 diff) := by
  unfold viewCalcFillUpdateBusyList
  by_cases hd : d ∈ disks
  · obtain ⟨x, hx, hxd⟩ := h.exists_mem hd
    obtain ⟨y, l₁, l₂, hl₁, hy, hbusy, herase⟩ :=
      List.exists_of_eraseP hx (sameDisk_self x)
    have hyd : y.disk = d := (sameDisk_iff.mp hy).trans hxd
    have hsame : (fun z : CalcElem => z.nodeId == d.1 && z.diskId == d.2) =
        sameDisk x := by
      rw [← hxd]
      rfl
    have hfind : busy.find? (sameDisk x) = some y :=
      List.find?_eq_some_iff_append.mpr ⟨hy, l₁, l₂, hbusy, fun z hz => by
        rw [Bool.not_eq_true', Bool.eq_false_iff]
        exact hl₁ z hz⟩
    have hw : y.referNum = f d := by
      rw [h.weight y (by rw [hbusy]; simp), hyd]
    rw [hbusy] at h
    have hkey : CalcElem.disk { y with referNum := y.referNum + diff } =
        y.disk := rfl
    have hnew := h.reweigh hnd hkey
    rw [hsame, hfind, herase]
    dsimp only at hnew ⊢
    rw [if_neg (by rw [hw]; omega)]
    rw [hyd, hw] at hnew
    rw [hw]
    exact hnew
  · have hnone : (busy.find? fun z => z.nodeId == d.1 && z.diskId == d.2) =
        none := by
      rw [List.find?_eq_none]
      intro z hz hb
      obtain ⟨h1, h2⟩ := Bool.and_eq_true_iff.mp hb
      have hzd : z.disk = d :=
        Prod.ext (beq_iff_eq.mp h1) (beq_iff_eq.mp h2)
      exact hd (hzd ▸ h.mem_keys hz)
    rw [hnone]
    exact h.update_of_notMem hd _

/-- `ViewCalcFillBusyList` counts the entries. -/
theorem loaded_fill (h : Tables maxNodeNum nodeList stateList) {c : Nat} :
    ∀ (es done : List PtEntry) (busy : List CalcElem),
      Loaded (candidateDisks nodeList stateList) core.copyNum c done busy →
      done.length + es.length < 2 ^ 63 - 1 →
      Loaded (candidateDisks nodeList stateList) core.copyNum c (done ++ es)
        (viewCalcFillBusyList core c nodeList stateList es busy) := by
  intro es
  induction es with
  | nil =>
      intro done busy hl _
      rw [List.append_nil]
      exact hl
  | cons e es ih =>
      intro done busy hl hlen
      rw [List.length_cons] at hlen
      have hone : ∀ d, (roundLoad core.copyNum c (done ++ [e]) d : Int) =
          roundLoad core.copyNum c done d + share core.copyNum c e d := by
        intro d
        rw [roundLoad_append, roundLoad_cons]
        exact congrArg _ (Int.add_zero _)
      have hstep : Loaded (candidateDisks nodeList stateList) core.copyNum c
          (done ++ [e])
          (if viewCalcCheckNodeIsNormal nodeList stateList
              (slotCopy core.copyNum e c).nodeId
              (slotCopy core.copyNum e c).diskId then
            viewCalcFillUpdateBusyList busy (slotCopy core.copyNum e c).nodeId
              (slotCopy core.copyNum e c).diskId 1
          else busy) := by
        by_cases hn : viewCalcCheckNodeIsNormal nodeList stateList
            (slotCopy core.copyNum e c).nodeId
            (slotCopy core.copyNum e c).diskId = true
        · rw [if_pos hn]
          have hle := roundLoad_le core.copyNum c done
            (slotCopy core.copyNum e c).disk
          refine (fillUpdate_workList (d := (slotCopy core.copyNum e c).disk)
            1 hl h.fit.candidates_nodup (by omega)).congr ?_
          intro d _
          rw [hone, Function.update_apply, share]
          by_cases hd : d = (slotCopy core.copyNum e c).disk
          · rw [if_pos hd, if_pos hd.symm, hd]
          · rw [if_neg hd, if_neg (Ne.symm hd), Int.add_zero]
        · rw [if_neg hn]
          refine hl.congr ?_
          intro d hd
          rw [hone, share_of_ne, Int.add_zero]
          rintro rfl
          exact hn ((checkNodeIsNormal_iff h).mpr (mem_candidateDisks.mp hd))
      have hrest := ih (done ++ [e]) _ hstep (by
        rw [List.length_append, List.length_singleton]; omega)
      rw [List.append_assoc] at hrest
      exact hrest

/-- An entry whose copy of the round is nowhere gets one on a disk of the
    list. -/
theorem Loaded.place {disks : List (Nat × Nat)} {m c p : Nat}
    {es : List PtEntry} {busy : List CalcElem} {e e' : PtEntry} {x : CalcElem}
    (h : Loaded disks m c es busy) (hnd : disks.Nodup)
    (hlen : es.length < 2 ^ 63 - 1) (he : es[p]? = some e)
    (hold : (slotCopy m e c).disk ∉ disks)
    (hnew : (slotCopy m e' c).disk = x.disk) :
    Loaded disks m c (es.set p e')
      (viewCalcFillUpdateBusyList busy x.nodeId x.diskId 1) := by
  have hle := roundLoad_le m c es x.disk
  refine (fillUpdate_workList (d := x.disk) 1 h hnd (by omega)).congr ?_
  intro d hd
  rw [roundLoad_set he, share_of_ne fun heq => hold (heq ▸ hd),
    Int.sub_zero, Function.update_apply, share, hnew]
  by_cases hdx : d = x.disk
  · rw [if_pos hdx, if_pos hdx.symm, hdx]
  · rw [if_neg hdx, if_neg (Ne.symm hdx), Int.add_zero]

/-- The copy of the round moves to a disk of the list. -/
theorem Loaded.move {disks : List (Nat × Nat)} {m c p : Nat}
    {es : List PtEntry} {busy : List CalcElem} {e e' : PtEntry} {x : CalcElem}
    (h : Loaded disks m c es busy) (hnd : disks.Nodup)
    (hlen : es.length < 2 ^ 63 - 1) (he : es[p]? = some e)
    (hnew : (slotCopy m e' c).disk = x.disk) :
    Loaded disks m c (es.set p e')
      (viewCalcFillUpdateBusyList
        (viewCalcFillUpdateBusyList busy (slotCopy m e c).nodeId
          (slotCopy m e c).diskId (-1)) x.nodeId x.diskId 1) := by
  have hle := roundLoad_le m c es (slotCopy m e c).disk
  have hle' := roundLoad_le m c es x.disk
  have hless := fillUpdate_workList (d := (slotCopy m e c).disk) (-1) h hnd
    (by omega)
  refine (fillUpdate_workList (d := x.disk) 1 hless hnd ?_).congr ?_
  · rw [Function.update_apply]
    split
    · omega
    · omega
  · intro d _
    rw [roundLoad_set he]
    simp only [Function.update_apply, share, hnew]
    by_cases hdx : d = x.disk
    · rw [if_pos hdx, if_pos hdx.symm, ← hdx]
      by_cases hown : d = (slotCopy m e c).disk
      · rw [if_pos hown, if_pos hown.symm, ← hown]
        omega
      · rw [if_neg hown, if_neg (Ne.symm hown)]
        omega
    · rw [if_neg hdx, if_neg (Ne.symm hdx)]
      by_cases hown : d = (slotCopy m e c).disk
      · rw [if_pos hown, if_pos hown.symm, ← hown]
        omega
      · rw [if_neg hown, if_neg (Ne.symm hown)]
        omega

/-- An entry that stays. -/
theorem set_same {p : Nat} {es : List PtEntry} {e : PtEntry}
    (h : es[p]? = some e) : es.set p e = es := by
  obtain ⟨hlt, rfl⟩ := List.getElem?_eq_some_iff.mp h
  exact List.set_getElem_self hlt

end Tables

end UbsIo.Pt
