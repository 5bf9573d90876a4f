import UbsIo.Cache.Model
import UbsIo.Lib.RoundRobin

/-! # The nodes to recover from

    `SelectNodeForRecover` and `SelectMigrateNode` of `mms_crb_scheduler.cpp`.
    A cursor goes round the copies of the local partition; each partition is
    given to the next copy that runs on another node, and a count of the copies
    that were passed over in a row says when there is none.

    The cursor stays where it is between the calls.  A node id has 8 bits in a
    `CmPtCopy`, so there are at most 256 copies with different ids, and the
    16 bits of the counts are enough. -/

namespace UbsIo.Crb

open UbsIo.Lib UbsIo.Cache

/-! ## Model -/

/-- `CmCopyState`. -/
inductive CmCopyState where
  | init
  | running
  | down
  | out
  | recovery
  | butt
deriving DecidableEq, Repr

/-- `CmPtCopy`. -/
structure CmPtCopy where
  nodeId : UInt8
  state : CmCopyState
deriving DecidableEq, Repr

/-- What the two functions use of `CrbScheduler`.  In `mRecoverNodes` a node
    without partitions is one that is not there. -/
structure CrbScheduler where
  mRecoverIndex : UInt16
  mLocalPtCopys : List CmPtCopy
  mRecoverNodes : UInt16 → Finset UInt16

/-- The copy runs, on another node. -/
def CmPtCopy.Eligible (localNodeId : UInt16) (c : CmPtCopy) : Prop :=
  c.state = .running ∧ c.nodeId.toUInt16 ≠ localNodeId

instance (localNodeId : UInt16) (c : CmPtCopy) :
    Decidable (c.Eligible localNodeId) :=
  inferInstanceAs (Decidable (_ ∧ _))

/-- `mRecoverIndex = (mRecoverIndex + NO_1) % mLocalPtCopys.size()`. -/
def CrbScheduler.advance (s : CrbScheduler) : CrbScheduler :=
  { s with
    mRecoverIndex :=
      UInt16.ofNat ((s.mRecoverIndex.toNat + 1) % s.mLocalPtCopys.length) }

/-- `mRecoverNodes[nodeId].emplace(pt)`. -/
def CrbScheduler.assign (s : CrbScheduler) (nodeId pt : UInt16) :
    CrbScheduler :=
  { s with
    mRecoverNodes := Function.update s.mRecoverNodes nodeId
      (insert pt (s.mRecoverNodes nodeId)) }

/-- An index behind the end starts over. -/
def CrbScheduler.inRange (s : CrbScheduler) : CrbScheduler :=
  if s.mLocalPtCopys.length ≤ s.mRecoverIndex.toNat then
    { s with mRecoverIndex := 0 }
  else s

/-- The loop of `SelectNodeForRecover`; `none` when the fuel does not last, or
    when the index is out of bounds. -/
def selectNodeLoop (localNodeId ptNum : UInt16) :
    Nat → UInt16 → UInt16 → CrbScheduler → Option (BResult × CrbScheduler)
  | 0, _, _, _ => none
  | fuel + 1, pt, researchCount, s =>
      if pt < ptNum then
        match s.mLocalPtCopys[s.mRecoverIndex.toNat]? with
        | none => none
        | some copy =>
            if copy.Eligible localNodeId then
              selectNodeLoop localNodeId ptNum fuel (pt + 1) 0
                (s.assign copy.nodeId.toUInt16 pt).advance
            else if (researchCount + 1).toNat = s.mLocalPtCopys.length then
              some (.checkPtFail, s)
            else
              selectNodeLoop localNodeId ptNum fuel pt (researchCount + 1)
                s.advance
      else some (.ok, s)

/-- `SelectNodeForRecover`.  A turn round the copies for each partition, and
    one more, is enough. -/
def selectNodeForRecover (localNodeId ptNum : UInt16) (s : CrbScheduler) :
    Option (BResult × CrbScheduler) :=
  let s := { s with mRecoverNodes := fun _ => ∅ }
  if ptNum = 0 ∨ s.mLocalPtCopys = [] then some (.notReady, s)
  else
    selectNodeLoop localNodeId ptNum
      (ptNum.toNat * s.mLocalPtCopys.length + s.mLocalPtCopys.length + 1) 0 0
      s.inRange

/-- The loop of `SelectMigrateNode`. -/
def selectMigrateLoop (localNodeId : UInt16) :
    Nat → UInt16 → CrbScheduler →
    Option (Except BResult UInt16 × CrbScheduler)
  | 0, _, _ => none
  | fuel + 1, researchCount, s =>
      match s.mLocalPtCopys[s.mRecoverIndex.toNat]? with
      | none => none
      | some copy =>
          if copy.Eligible localNodeId then
            some (.ok copy.nodeId.toUInt16, s.advance)
          else if (researchCount + 1).toNat = s.mLocalPtCopys.length then
            some (.error .checkPtFail, s.advance)
          else
            selectMigrateLoop localNodeId fuel (researchCount + 1) s.advance

/-- `SelectMigrateNode`; one turn round the copies is enough. -/
def selectMigrateNode (localNodeId : UInt16) (s : CrbScheduler) :
    Option (Except BResult UInt16 × CrbScheduler) :=
  if s.mLocalPtCopys = [] then some (.error .notReady, s)
  else
    selectMigrateLoop localNodeId s.mLocalPtCopys.length 0 s.inRange

/-! ## The cursor -/

variable {copys : List CmPtCopy} {localNodeId ptNum : UInt16}
  {s : CrbScheduler} {start t m : Nat}

/-- Different 8-bit ids: the counts of 16 bits cannot wrap. -/
theorem length_le_of_distinct (h : (copys.map (·.nodeId)).Nodup) :
    copys.length ≤ 256 := by
  have hnodup : (copys.map (·.nodeId.toNat)).Nodup := by
    have hmap : copys.map (·.nodeId.toNat) =
        (copys.map (·.nodeId)).map UInt8.toNat := by
      rw [List.map_map]
      rfl
    rw [hmap]
    exact h.map fun _ _ heq => UInt8.toNat_inj.mp heq
  have hsub : copys.map (·.nodeId.toNat) ⊆ List.range 256 := by
    intro x hx
    obtain ⟨c, -, rfl⟩ := List.mem_map.mp hx
    exact List.mem_range.mpr c.nodeId.toNat_lt
  have hlen := (List.subperm_of_subset hnodup hsub).length_le
  rw [List.length_map, List.length_range] at hlen
  exact hlen

/-- The cursor has made `t` steps from `start` on, and the last `m` copies it
    saw are none to recover from. -/
structure Cursor (copys : List CmPtCopy) (localNodeId : UInt16)
    (start t m : Nat) (s : CrbScheduler) : Prop where
  same : s.mLocalPtCopys = copys
  index : s.mRecoverIndex.toNat = (start + t) % copys.length
  misses : m ≤ t
  missed : ∀ k, t ≤ k + m → k < t → ∀ c,
    copys[(start + k) % copys.length]? = some c → ¬ c.Eligible localNodeId

theorem Cursor.copy (h : Cursor copys localNodeId start t m s)
    (hpos : 0 < copys.length) :
    ∃ c, s.mLocalPtCopys[s.mRecoverIndex.toNat]? = some c ∧
      copys[(start + t) % copys.length]? = some c := by
  have hlt := Nat.mod_lt (start + t) hpos
  rw [h.same, h.index]
  exact ⟨_, List.getElem?_eq_getElem hlt, List.getElem?_eq_getElem hlt⟩

theorem Cursor.advance_index (h : Cursor copys localNodeId start t m s)
    (hpos : 0 < copys.length) (hlen : copys.length ≤ 256) :
    s.advance.mRecoverIndex.toNat = (start + (t + 1)) % copys.length := by
  have hlt := Nat.mod_lt (start + (t + 1)) hpos
  show (UInt16.ofNat ((s.mRecoverIndex.toNat + 1) %
    s.mLocalPtCopys.length)).toNat = _
  rw [h.same, h.index, Nat.mod_add_mod, Nat.add_assoc, UInt16.toNat_ofNat',
    Nat.mod_eq_of_lt (by omega)]

/-- A copy that is passed over. -/
theorem Cursor.miss (h : Cursor copys localNodeId start t m s)
    (hpos : 0 < copys.length) (hlen : copys.length ≤ 256) {c : CmPtCopy}
    (hc : copys[(start + t) % copys.length]? = some c)
    (hnot : ¬ c.Eligible localNodeId) :
    Cursor copys localNodeId start (t + 1) (m + 1) s.advance := by
  refine ⟨h.same, h.advance_index hpos hlen, Nat.succ_le_succ h.misses, ?_⟩
  intro k hle hlt c' hc'
  by_cases hlast : k = t
  · rw [hlast, hc] at hc'
    cases hc'
    exact hnot
  · exact h.missed k (by omega) (by omega) c' hc'

/-- A copy that is taken: the count starts again. -/
theorem Cursor.hit (h : Cursor copys localNodeId start t m s)
    (hpos : 0 < copys.length) (hlen : copys.length ≤ 256) :
    Cursor copys localNodeId start (t + 1) 0 s.advance :=
  ⟨h.same, h.advance_index hpos hlen, Nat.zero_le _,
    fun k hle hlt => absurd hle (by omega)⟩

/-- What has been dealt out does not move the cursor. -/
theorem Cursor.assign (h : Cursor copys localNodeId start t m s)
    (nodeId pt : UInt16) :
    Cursor copys localNodeId start t m (s.assign nodeId pt) :=
  ⟨h.same, h.index, h.misses, h.missed⟩

/-- A whole turn without a copy to recover from: there is none. -/
theorem Cursor.none_eligible
    (h : Cursor copys localNodeId start t copys.length s) :
    ∀ c ∈ copys, ¬ c.Eligible localNodeId := by
  intro c hc
  obtain ⟨p, hp, rfl⟩ := List.mem_iff_getElem.mp hc
  obtain ⟨k, hle, hlt, hat⟩ : ∃ k, t - copys.length ≤ k ∧
      k < t - copys.length + copys.length ∧ (start + k) % copys.length = p :=
    exists_visit hp _
  have hmisses := h.misses
  refine h.missed k (by omega) (by omega) copys[p] ?_
  rw [hat]
  exact List.getElem?_eq_getElem hp

theorem Cursor.inRange (localNodeId : UInt16) (s : CrbScheduler) :
    ∃ start, Cursor s.mLocalPtCopys localNodeId start 0 0 s.inRange := by
  have hno : ∀ start k, 0 ≤ k + 0 → k < 0 → ∀ c,
      s.mLocalPtCopys[(start + k) % s.mLocalPtCopys.length]? = some c →
      ¬ c.Eligible localNodeId :=
    fun _ _ _ hlt => absurd hlt (Nat.not_lt_zero _)
  by_cases hbehind : s.mLocalPtCopys.length ≤ s.mRecoverIndex.toNat
  · rw [CrbScheduler.inRange, if_pos hbehind]
    exact ⟨0, rfl, (Nat.zero_mod _).symm, le_refl _, hno 0⟩
  · rw [CrbScheduler.inRange, if_neg hbehind]
    exact ⟨s.mRecoverIndex.toNat, rfl,
      (Nat.mod_eq_of_lt (Nat.lt_of_not_le hbehind)).symm, le_refl _, hno _⟩

/-! ## What has been dealt out -/

/-- The partitions before `pt` have been dealt out in `t` steps, each to one
    node, as often as the cursor has been at that node. -/
structure Dealt (copys : List CmPtCopy) (localNodeId : UInt16) (start t : Nat)
    (pt : UInt16) (nodes : UInt16 → Finset UInt16) : Prop where
  source : ∀ nodeId x, x ∈ nodes nodeId → x < pt ∧
    ∃ c ∈ copys, c.Eligible localNodeId ∧ c.nodeId.toUInt16 = nodeId
  each : ∀ x < pt, ∃ nodeId, x ∈ nodes nodeId
  one : ∀ x a b, x ∈ nodes a → x ∈ nodes b → a = b
  count : ∀ p c, copys[p]? = some c → c.Eligible localNodeId →
    (nodes c.nodeId.toUInt16).card = visits copys.length start p t

variable {pt researchCount : UInt16} {nodes : UInt16 → Finset UInt16}
  {c : CmPtCopy}

theorem dealt_empty (copys : List CmPtCopy) (localNodeId : UInt16)
    (start : Nat) : Dealt copys localNodeId start 0 0 fun _ => ∅ :=
  ⟨fun _ x hx => absurd hx (Finset.notMem_empty x),
    fun x hx => absurd hx (by
      rw [UInt16.lt_iff_toNat_lt]
      exact Nat.not_lt_zero _),
    fun x _ _ hx => absurd hx (Finset.notMem_empty x), fun _ _ _ _ => rfl⟩

theorem Dealt.miss (h : Dealt copys localNodeId start t pt nodes)
    (hc : copys[(start + t) % copys.length]? = some c)
    (hnot : ¬ c.Eligible localNodeId) :
    Dealt copys localNodeId start (t + 1) pt nodes := by
  refine ⟨h.source, h.each, h.one, ?_⟩
  intro p d hd hel
  have hne : (start + t) % copys.length ≠ p := by
    intro heq
    rw [heq, hd] at hc
    cases hc
    exact hnot hel
  rw [visits_succ, if_neg hne]
  exact h.count p d hd hel

/-- Copies of one list with the same id are one copy. -/
theorem index_of_distinct (hdistinct : (copys.map (·.nodeId)).Nodup)
    {p q : Nat} {d : CmPtCopy} (hc : copys[p]? = some c)
    (hd : copys[q]? = some d)
    (heq : c.nodeId.toUInt16 = d.nodeId.toUInt16) : p = q := by
  obtain ⟨hp, rfl⟩ := List.getElem?_eq_some_iff.mp hc
  obtain ⟨hq, rfl⟩ := List.getElem?_eq_some_iff.mp hd
  have hid : copys[p].nodeId = copys[q].nodeId := by
    have hnat := congrArg UInt16.toNat heq
    rw [UInt8.toNat_toUInt16, UInt8.toNat_toUInt16] at hnat
    exact UInt8.toNat_inj.mp hnat
  have hp' : p < (copys.map (·.nodeId)).length := by
    rw [List.length_map]
    exact hp
  have hq' : q < (copys.map (·.nodeId)).length := by
    rw [List.length_map]
    exact hq
  have hmap : (copys.map (·.nodeId))[p] = (copys.map (·.nodeId))[q] := by
    rw [List.getElem_map, List.getElem_map]
    exact hid
  exact (List.getElem_inj hdistinct).mp hmap

theorem Dealt.hit (h : Dealt copys localNodeId start t pt nodes)
    (hdistinct : (copys.map (·.nodeId)).Nodup) (hpt : pt < ptNum)
    (hc : copys[(start + t) % copys.length]? = some c)
    (hel : c.Eligible localNodeId) :
    Dealt copys localNodeId start (t + 1) (pt + 1)
      (Function.update nodes c.nodeId.toUInt16
        (insert pt (nodes c.nodeId.toUInt16))) := by
  have hnext : (pt + 1).toNat = pt.toNat + 1 := by
    have hlt := UInt16.lt_iff_toNat_lt.mp hpt
    have hbits := ptNum.toNat_lt
    rw [UInt16.toNat_add, UInt16.toNat_one, Nat.mod_eq_of_lt (by omega)]
  have hfresh : pt ∉ nodes c.nodeId.toUInt16 := fun hmem =>
    absurd (h.source _ _ hmem).1 (by rw [UInt16.lt_iff_toNat_lt]; omega)
  -- who is where afterwards
  have hmem : ∀ a x, x ∈ Function.update nodes c.nodeId.toUInt16
      (insert pt (nodes c.nodeId.toUInt16)) a ↔
      x ∈ nodes a ∨ a = c.nodeId.toUInt16 ∧ x = pt := by
    intro a x
    by_cases ha : a = c.nodeId.toUInt16
    · rw [ha, Function.update_self, Finset.mem_insert, or_comm]
      simp
    · rw [Function.update_of_ne ha]
      simp [ha]
  refine ⟨?_, ?_, ?_, ?_⟩
  · intro a x hx
    rw [UInt16.lt_iff_toNat_lt, hnext]
    rcases (hmem a x).mp hx with hx | ⟨rfl, rfl⟩
    · obtain ⟨hlt, hsource⟩ := h.source a x hx
      rw [UInt16.lt_iff_toNat_lt] at hlt
      exact ⟨by omega, hsource⟩
    · exact ⟨Nat.lt_succ_self _, c, List.mem_of_getElem? hc, hel, rfl⟩
  · intro x hx
    rw [UInt16.lt_iff_toNat_lt, hnext] at hx
    by_cases hlast : x = pt
    · exact ⟨_, (hmem _ x).mpr (.inr ⟨rfl, hlast⟩)⟩
    · have hne : x.toNat ≠ pt.toNat := fun heq =>
        hlast (UInt16.toNat_inj.mp heq)
      obtain ⟨a, ha⟩ := h.each x (by rw [UInt16.lt_iff_toNat_lt]; omega)
      exact ⟨a, (hmem a x).mpr (.inl ha)⟩
  · intro x a b hxa hxb
    have hold : ∀ e, pt ∉ nodes e := fun e hpe =>
      absurd (h.source e pt hpe).1 (by rw [UInt16.lt_iff_toNat_lt]; omega)
    rcases (hmem a x).mp hxa with ha | ⟨ha, rfl⟩
    · rcases (hmem b x).mp hxb with hb | ⟨hb, rfl⟩
      · exact h.one x a b ha hb
      · exact absurd ha (hold a)
    · rcases (hmem b x).mp hxb with hb | ⟨hb, -⟩
      · exact absurd hb (hold b)
      · exact ha.trans hb.symm
  · intro p d hd hel'
    rw [visits_succ]
    by_cases hp : (start + t) % copys.length = p
    · rw [hp, hd] at hc
      cases hc
      rw [Function.update_self, Finset.card_insert_of_notMem hfresh,
        if_pos hp, h.count p c hd hel']
    · have hne : d.nodeId.toUInt16 ≠ c.nodeId.toUInt16 := fun heq =>
        hp (index_of_distinct hdistinct hd hc heq).symm
      rw [Function.update_of_ne hne, if_neg hp, Nat.add_zero]
      exact h.count p d hd hel'

/-! ## The loops -/

/-- One more miss, within the 16 bits. -/
theorem succ_toNat (hlen : copys.length ≤ 256)
    (hcount : researchCount.toNat < copys.length) :
    (researchCount + 1).toNat = researchCount.toNat + 1 := by
  rw [UInt16.toNat_add, UInt16.toNat_one, Nat.mod_eq_of_lt (by omega)]

/-- The loop comes to its end, either with all partitions dealt out, or with
    the news that there is no copy to recover from. -/
theorem selectNodeLoop_spec (hpos : 0 < copys.length)
    (hlen : copys.length ≤ 256) (hdistinct : (copys.map (·.nodeId)).Nodup) :
    ∀ (fuel : Nat) (pt researchCount : UInt16) (s : CrbScheduler) (t : Nat),
      Cursor copys localNodeId start t researchCount.toNat s →
      researchCount.toNat < copys.length →
      Dealt copys localNodeId start t pt s.mRecoverNodes → pt ≤ ptNum →
      (ptNum.toNat - pt.toNat) * copys.length +
        (copys.length - researchCount.toNat) < fuel →
      ∃ out, selectNodeLoop localNodeId ptNum fuel pt researchCount s =
          some out ∧
        (out.1 = .ok ∧ (∃ t, Dealt copys localNodeId start t ptNum
            out.2.mRecoverNodes) ∨
          out.1 = .checkPtFail ∧ ∀ c ∈ copys, ¬ c.Eligible localNodeId) := by
  intro fuel
  induction fuel with
  | zero => exact fun _ _ _ _ _ _ _ _ hfuel => absurd hfuel (Nat.not_lt_zero _)
  | succ fuel ih =>
      intro pt researchCount s t hcursor hcount hdealt hle hfuel
      rw [selectNodeLoop]
      by_cases hpt : pt < ptNum
      · obtain ⟨c, hat, hc⟩ := hcursor.copy hpos
        have hlt := UInt16.lt_iff_toNat_lt.mp hpt
        rw [if_pos hpt, hat]
        dsimp only
        by_cases hel : c.Eligible localNodeId
        · have hbits := ptNum.toNat_lt
          have hnext : (pt + 1).toNat = pt.toNat + 1 := by
            rw [UInt16.toNat_add, UInt16.toNat_one,
              Nat.mod_eq_of_lt (by omega)]
          rw [if_pos hel]
          refine ih (pt + 1) 0 _ (t + 1)
            ((hcursor.assign c.nodeId.toUInt16 pt).hit hpos hlen) hpos
            (hdealt.hit hdistinct hpt hc hel) ?_ ?_
          · rw [UInt16.le_iff_toNat_le]
            omega
          · -- a partition less to go round for
            have hturn : (ptNum.toNat - pt.toNat) * copys.length =
                (ptNum.toNat - (pt + 1).toNat) * copys.length +
                  copys.length := by
              rw [← Nat.succ_mul]
              congr 1
              omega
            show _ + (copys.length - 0) < fuel
            omega
        · have hsucc := succ_toNat hlen hcount
          rw [if_neg hel]
          have hmiss := hcursor.miss hpos hlen hc hel
          rw [← hsucc] at hmiss
          by_cases hturn : (researchCount + 1).toNat = copys.length
          · rw [hcursor.same, if_pos hturn]
            rw [hturn] at hmiss
            exact ⟨_, rfl, .inr ⟨rfl, hmiss.none_eligible⟩⟩
          · rw [hcursor.same, if_neg hturn]
            exact ih pt (researchCount + 1) _ (t + 1) hmiss (by omega)
              (hdealt.miss hc hel) hle (by omega)
      · have hend : pt = ptNum := by
          rw [UInt16.lt_iff_toNat_lt] at hpt
          rw [UInt16.le_iff_toNat_le] at hle
          exact UInt16.toNat_inj.mp (by omega)
        rw [if_neg hpt]
        exact ⟨_, rfl, .inl ⟨rfl, t, hend ▸ hdealt⟩⟩

theorem selectMigrateLoop_spec (hpos : 0 < copys.length)
    (hlen : copys.length ≤ 256) :
    ∀ (fuel : Nat) (researchCount : UInt16) (s : CrbScheduler) (t : Nat),
      Cursor copys localNodeId start t researchCount.toNat s →
      researchCount.toNat < copys.length →
      copys.length - researchCount.toNat ≤ fuel →
      ∃ out, selectMigrateLoop localNodeId fuel researchCount s = some out ∧
        ((∃ c ∈ copys, c.Eligible localNodeId ∧
            out.1 = .ok c.nodeId.toUInt16) ∨
          out.1 = .error .checkPtFail ∧
            ∀ c ∈ copys, ¬ c.Eligible localNodeId) := by
  intro fuel
  induction fuel with
  | zero => exact fun _ _ _ _ hcount hfuel => absurd hfuel (by omega)
  | succ fuel ih =>
      intro researchCount s t hcursor hcount hfuel
      obtain ⟨c, hat, hc⟩ := hcursor.copy hpos
      rw [selectMigrateLoop, hat]
      dsimp only
      by_cases hel : c.Eligible localNodeId
      · rw [if_pos hel]
        exact ⟨_, rfl, .inl ⟨c, List.mem_of_getElem? hc, hel, rfl⟩⟩
      · have hsucc := succ_toNat hlen hcount
        have hmiss := hcursor.miss hpos hlen hc hel
        rw [if_neg hel]
        rw [← hsucc] at hmiss
        by_cases hturn : (researchCount + 1).toNat = copys.length
        · rw [hcursor.same, if_pos hturn]
          rw [hturn] at hmiss
          exact ⟨_, rfl, .inr ⟨rfl, hmiss.none_eligible⟩⟩
        · rw [hcursor.same, if_neg hturn]
          exact ih (researchCount + 1) _ (t + 1) hmiss (by omega) (by omega)

/-! ## Results -/

/-- Every partition has exactly one node, that of a copy to recover from, and
    no such node has two more than another. -/
structure Assigned (copys : List CmPtCopy) (localNodeId ptNum : UInt16)
    (nodes : UInt16 → Finset UInt16) : Prop where
  each : ∀ pt < ptNum, ∃! nodeId, pt ∈ nodes nodeId
  source : ∀ nodeId pt, pt ∈ nodes nodeId → pt < ptNum ∧
    ∃ c ∈ copys, c.Eligible localNodeId ∧ c.nodeId.toUInt16 = nodeId
  balanced : ∀ c ∈ copys, ∀ d ∈ copys, c.Eligible localNodeId →
    d.Eligible localNodeId →
    (nodes c.nodeId.toUInt16).card ≤ (nodes d.nodeId.toUInt16).card + 1

theorem Dealt.assigned (h : Dealt copys localNodeId start t ptNum nodes) :
    Assigned copys localNodeId ptNum nodes := by
  refine ⟨?_, h.source, ?_⟩
  · intro pt hpt
    obtain ⟨nodeId, hmem⟩ := h.each pt hpt
    exact ⟨nodeId, hmem, fun other hother => h.one pt other nodeId hother hmem⟩
  · intro c hc d hd hcel hdel
    obtain ⟨p, hp, rfl⟩ := List.mem_iff_getElem.mp hc
    obtain ⟨q, hq, rfl⟩ := List.mem_iff_getElem.mp hd
    rw [h.count p _ (List.getElem?_eq_getElem hp) hcel,
      h.count q _ (List.getElem?_eq_getElem hq) hdel]
    exact visits_balanced hp hq

/-- **RECOVERY SOURCES**: both functions come back, and succeed exactly when
    some copy runs on another node; then every partition has exactly one of
    these nodes, and their numbers differ by at most one. -/
theorem recover_sources (localNodeId ptNum : UInt16) (hptNum : ptNum ≠ 0)
    (s : CrbScheduler)
    (hdistinct : (s.mLocalPtCopys.map (·.nodeId)).Nodup) :
    (∃ out, selectNodeForRecover localNodeId ptNum s = some out ∧
      (out.1 = .ok ↔ ∃ c ∈ s.mLocalPtCopys, c.Eligible localNodeId) ∧
      (out.1 = .ok → Assigned s.mLocalPtCopys localNodeId ptNum
        out.2.mRecoverNodes)) ∧
    ∃ out, selectMigrateNode localNodeId s = some out ∧
      ((∃ nodeId, out.1 = .ok nodeId) ↔
        ∃ c ∈ s.mLocalPtCopys, c.Eligible localNodeId) ∧
      ∀ nodeId, out.1 = .ok nodeId →
        ∃ c ∈ s.mLocalPtCopys, c.Eligible localNodeId ∧
          c.nodeId.toUInt16 = nodeId := by
  have hlen := length_le_of_distinct hdistinct
  by_cases hnil : s.mLocalPtCopys = []
  · have hno : ¬ ∃ c ∈ s.mLocalPtCopys, c.Eligible localNodeId := by
      rw [hnil]
      rintro ⟨c, hc, -⟩
      exact List.not_mem_nil hc
    refine ⟨⟨_, if_pos (.inr hnil), iff_of_false (fun h => by cases h) hno,
      fun h => by cases h⟩, _, if_pos hnil, iff_of_false ?_ hno, ?_⟩
    · rintro ⟨nodeId, h⟩
      cases h
    · intro nodeId h
      cases h
  have hpos : 0 < s.mLocalPtCopys.length := List.length_pos_of_ne_nil hnil
  refine ⟨?_, ?_⟩
  · obtain ⟨start, hcursor⟩ := Cursor.inRange localNodeId
      { s with mRecoverNodes := fun _ => ∅ }
    have hdealt : Dealt s.mLocalPtCopys localNodeId start 0 0
        (CrbScheduler.inRange
          { s with mRecoverNodes := fun _ => ∅ }).mRecoverNodes := by
      rw [CrbScheduler.inRange]
      split
      · exact dealt_empty _ _ _
      · exact dealt_empty _ _ _
    obtain ⟨out, hout, hcases⟩ := selectNodeLoop_spec hpos hlen hdistinct
      (ptNum.toNat * s.mLocalPtCopys.length + s.mLocalPtCopys.length + 1) 0 0
      _ 0 hcursor hpos hdealt (UInt16.le_iff_toNat_le.mpr (Nat.zero_le _))
      (Nat.lt_succ_self _)
    refine ⟨out, (if_neg (not_or.mpr ⟨hptNum, hnil⟩)).trans hout, ?_, ?_⟩
    · rcases hcases with ⟨hok, t, hall⟩ | ⟨hfail, hno⟩
      · refine iff_of_true hok ?_
        have hzero : (0 : UInt16) < ptNum := by
          rw [UInt16.lt_iff_toNat_lt]
          exact Nat.pos_of_ne_zero fun h => hptNum (UInt16.toNat_inj.mp h)
        obtain ⟨nodeId, hmem⟩ := hall.each 0 hzero
        obtain ⟨-, c, hc, hel, -⟩ := hall.source nodeId 0 hmem
        exact ⟨c, hc, hel⟩
      · refine iff_of_false ?_ ?_
        · rw [hfail]
          intro h
          cases h
        · rintro ⟨c, hc, hel⟩
          exact hno c hc hel
    · intro hok
      rcases hcases with ⟨-, t, hall⟩ | ⟨hfail, -⟩
      · exact hall.assigned
      · rw [hfail] at hok
        cases hok
  · obtain ⟨start, hcursor⟩ := Cursor.inRange localNodeId s
    obtain ⟨out, hout, hcases⟩ := selectMigrateLoop_spec hpos hlen
      s.mLocalPtCopys.length 0 _ 0 hcursor hpos (le_refl _)
    refine ⟨out, (if_neg hnil).trans hout, ?_, ?_⟩
    · rcases hcases with ⟨c, hc, hel, hok⟩ | ⟨hfail, hno⟩
      · exact iff_of_true ⟨_, hok⟩ ⟨c, hc, hel⟩
      · refine iff_of_false ?_ ?_
        · rintro ⟨nodeId, h⟩
          rw [hfail] at h
          cases h
        · rintro ⟨c, hc, hel⟩
          exact hno c hc hel
    · intro nodeId h
      rcases hcases with ⟨c, hc, hel, hok⟩ | ⟨hfail, -⟩
      · rw [hok] at h
        cases h
        exact ⟨c, hc, hel, rfl⟩
      · rw [hfail] at h
        cases h

/-- Three copies, one of them local and one of them down. -/
theorem recover_sources_one_peer :
    ∃ out, selectNodeForRecover 1 5
        ⟨7, [⟨1, .running⟩, ⟨2, .down⟩, ⟨3, .running⟩], fun _ => ∅⟩ =
          some out ∧
      (out.1 = .ok ↔ ∃ c ∈ [(⟨1, .running⟩ : CmPtCopy), ⟨2, .down⟩,
        ⟨3, .running⟩], c.Eligible 1) ∧
      (out.1 = .ok → Assigned [⟨1, .running⟩, ⟨2, .down⟩, ⟨3, .running⟩] 1 5
        out.2.mRecoverNodes) :=
  (recover_sources 1 5 (by decide)
    ⟨7, [⟨1, .running⟩, ⟨2, .down⟩, ⟨3, .running⟩], fun _ => ∅⟩
    (by decide)).1

end UbsIo.Crb
