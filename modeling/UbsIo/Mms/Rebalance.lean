import UbsIo.Mms.Law
import UbsIo.Pt.Placement

/-! # Rebalance and the runs of the view

    Every step of the calculator permutes its busy list and changes loads only,
    so its candidates are the normal nodes from the beginning to the end of a
    call.  An entry that a rebalance does not evict from is full: the refill
    finds no empty slot in it and the balance no node that it is not on.  An
    entry that it does evict from has the new version, so the balance leaves it
    alone, and one round after the other fills its empty slots. -/

namespace UbsIo.Mms

open UbsIo.Lib
open UbsIo.Pt (PtCopyState NodeState NodeInfo nodeIdInvalid diskIdInvalid
  NodeInfoList NodeStateList CalcElem nodeIsIn normalDisks
  viewCalcNormNodeNum viewCalcCheckNodeIsNormal viewCalcCheckNodeIsFault
  insertByRefer CmPtFinish uniformPool poolStates)

/-! ## The busy list -/

/-- The node and disk ids of the candidates. -/
def keys (busy : List CalcElem) : List (Nat × Nat) :=
  busy.map fun x => (x.nodeId, x.diskId)

theorem insertByRefer_perm (x : CalcElem) (busy : List CalcElem) :
    (insertByRefer x busy).Perm (x :: busy) := by
  have hsplit := List.takeWhile_append_dropWhile
    (p := fun y => decide (y.referNum ≤ x.referNum)) (l := busy)
  rw [insertByRefer]
  refine List.perm_middle.trans ?_
  rw [hsplit]

/-- A change of a load moves an element and keeps its ids. -/
theorem keys_fillUpdate (busy : List CalcElem) (nodeId diskId : Nat)
    (diff : Int) :
    (keys (viewCalcFillUpdateBusyList busy nodeId diskId diff)).Perm
      (keys busy) := by
  rw [viewCalcFillUpdateBusyList]
  split
  · exact .refl _
  · rename_i found hfound
    obtain ⟨hp, pre, post, hbusy, hpre⟩ :=
      List.find?_eq_some_iff_append.mp hfound
    have hno : ∀ x ∈ pre, ¬(x.nodeId == nodeId && x.diskId == diskId) = true := by
      intro x hx hyes
      have hnot := hpre x hx
      rw [hyes] at hnot
      exact Bool.noConfusion hnot
    have herase : busy.eraseP (fun x => x.nodeId == nodeId &&
        x.diskId == diskId) = pre ++ post := by
      rw [hbusy, List.eraseP_append_right _ hno]
      exact congrArg (pre ++ ·) (List.eraseP_cons_of_pos
        (p := fun x : CalcElem => x.nodeId == nodeId && x.diskId == diskId) hp)
    rw [herase]
    refine ((insertByRefer_perm _ _).map _).trans ?_
    -- the moved element has the ids of the found one
    show (keys (found :: (pre ++ post))).Perm (keys busy)
    rw [hbusy]
    exact List.perm_middle.symm.map _

theorem keys_reset (busy : List CalcElem) :
    (keys (viewCalcResetBusyList busy)).Perm (keys busy) := by
  refine ((List.rotate_perm _ 1).map _).trans ?_
  rw [List.map_map]
  rfl

/-- The nodes that count as normal, in order. -/
def normalNodes (nodeList : NodeInfoList) (stateList : NodeStateList) :
    List Nat :=
  (List.range stateList.nodeList.length).filter fun nodeId =>
    nodeIsIn stateList nodeId &&
      !(normalDisks nodeList stateList nodeId).isEmpty

theorem normNodeNum_eq (nodeList : NodeInfoList) (stateList : NodeStateList) :
    viewCalcNormNodeNum nodeList stateList =
      (normalNodes nodeList stateList).length :=
  List.countP_eq_length_filter

theorem buildBusyFrom_eq (core : CalcCore) (nodeList : NodeInfoList)
    (stateList : NodeStateList) :
    ∀ (rest : List Nat) (busy : List CalcElem),
      buildBusyFrom core nodeList stateList rest busy =
        busy ++ (((rest.filter fun nodeId => nodeIsIn stateList nodeId &&
          !(normalDisks nodeList stateList nodeId).isEmpty).take
            (core.elemNum - busy.length)).map fun x => ⟨x, 0, 0⟩) := by
  intro rest
  induction rest with
  | nil => intro busy; simp [buildBusyFrom]
  | cons x rest ih =>
      intro busy
      rw [buildBusyFrom]
      by_cases hx : (nodeIsIn stateList x &&
          !(normalDisks nodeList stateList x).isEmpty) = true
      · rw [if_pos hx, List.filter_cons_of_pos (by exact hx)]
        by_cases hfull : core.elemNum ≤ busy.length
        · rw [if_pos hfull, Nat.sub_eq_zero_of_le hfull]
          simp
        · have hroom : core.elemNum - busy.length =
              core.elemNum - (busy.length + 1) + 1 := by omega
          rw [if_neg hfull, ih, hroom, List.take_succ_cons]
          simp
      · rw [if_neg hx, ih, List.filter_cons_of_neg (by exact hx)]

/-- The candidates are the given nodes, each with disk 0. -/
def Candidates (nodes : List Nat) (busy : List CalcElem) : Prop :=
  (keys busy).Perm (nodes.map fun x => (x, 0))

theorem candidates_build (core : CalcCore) (nodeList : NodeInfoList)
    (stateList : NodeStateList) :
    Candidates ((normalNodes nodeList stateList).take core.elemNum)
      (viewCalcBuildBusyList core nodeList stateList) := by
  rw [Candidates, viewCalcBuildBusyList, buildBusyFrom_eq, keys,
    List.nil_append, List.map_map]
  exact .refl _

section candidates

variable {nodes : List Nat} {busy : List CalcElem}

theorem Candidates.fillUpdate (h : Candidates nodes busy)
    (nodeId diskId : Nat) (diff : Int) :
    Candidates nodes (viewCalcFillUpdateBusyList busy nodeId diskId diff) :=
  (keys_fillUpdate busy nodeId diskId diff).trans h

theorem Candidates.reset (h : Candidates nodes busy) :
    Candidates nodes (viewCalcResetBusyList busy) :=
  (keys_reset busy).trans h

theorem Candidates.mem (h : Candidates nodes busy) {x : CalcElem}
    (hx : x ∈ busy) : x.nodeId ∈ nodes ∧ x.diskId = 0 := by
  have hkey : (x.nodeId, x.diskId) ∈ keys busy := List.mem_map_of_mem hx
  obtain ⟨y, hy, heq⟩ := List.mem_map.mp (h.mem_iff.mp hkey)
  rw [Prod.mk.injEq] at heq
  rw [← heq.1]
  exact ⟨hy, heq.2.symm⟩

end candidates

/-! ## The loops -/

/-- A loop over the entries in which every visit succeeds. -/
theorem placeAll_true {v : PtEntry → List CalcElem → Option Placement}
    {nodes : List Nat} {R : PtEntry → PtEntry → Prop}
    (hvisit : ∀ e busy e' busy', Candidates nodes busy →
      v e busy = some (true, e', busy') →
        Candidates nodes busy' ∧ R e e') :
    ∀ {es : List PtEntry} {busy : List CalcElem} {es' : List PtEntry}
      {busy' : List CalcElem}, Candidates nodes busy →
      placeAll v es busy = some (true, es', busy') →
        Candidates nodes busy' ∧ List.Forall₂ R es es' := by
  intro es
  induction es with
  | nil =>
      intro busy es' busy' hc h
      cases h
      exact ⟨hc, List.Forall₂.nil⟩
  | cons e es ih =>
      intro busy es' busy' hc h
      obtain ⟨⟨ok, e₁, busy₁⟩, hv, h⟩ := Option.bind_eq_some_iff.mp h
      cases ok with
      | false => exact nomatch h
      | true =>
          obtain ⟨⟨ok, es₁, busy₂⟩, hrest, h⟩ := Option.bind_eq_some_iff.mp h
          cases h
          obtain ⟨hc₁, hR⟩ := hvisit e busy e₁ busy₁ hc hv
          obtain ⟨hc₂, hall⟩ := ih hc₁ hrest
          exact ⟨hc₂, List.Forall₂.cons hR hall⟩

/-- The loop over the copies: every round takes `P c` to `P (c + 1)`. -/
theorem placeRounds_true {round : Nat → List PtEntry → List CalcElem →
      Option (Bool × List PtEntry × List CalcElem)}
    {nodes : List Nat} {n : Nat} {P : Nat → List PtEntry → Prop}
    (hround : ∀ c es busy es' busy', c < n → P c es → Candidates nodes busy →
      round c es busy = some (true, es', busy') →
        Candidates nodes busy' ∧ P (c + 1) es') :
    ∀ {k c : Nat} {es : List PtEntry} {busy : List CalcElem}
      {es' : List PtEntry}, c + k = n → P c es → Candidates nodes busy →
      placeRounds round (List.range' c k) es busy = some (true, es') →
        P n es' := by
  intro k
  induction k with
  | zero =>
      intro c es busy es' hn hP _ h
      cases h
      rw [← hn]
      exact hP
  | succ k ih =>
      intro c es busy es' hn hP hc h
      obtain ⟨⟨ok, es₁, busy₁⟩, hr, h⟩ := Option.bind_eq_some_iff.mp h
      cases ok with
      | false => exact nomatch h
      | true =>
          obtain ⟨hc₁, hP₁⟩ := hround c es busy es₁ busy₁ (by omega) hP hc hr
          exact ih (by omega) hP₁ hc₁.reset h

/-! ## Refill -/

theorem secondIndex_eq {core : CalcCore} {c index : Nat}
    (h : secondIndex core c = some index) : index = c + core.copyNum := by
  rw [secondIndex] at h
  split at h
  · exact (Option.some.inj h).symm
  · exact nomatch h

/-- A placement that succeeds puts a candidate without a copy into the slot. -/
theorem buildPtEntry_true {core : CalcCore} {c : Nat} {e e' : PtEntry}
    {busy busy' : List CalcElem}
    (h : viewCalcBuildPtEntry core c e busy = some (true, e', busy')) :
    ∃ x ∈ busy, liveOn e x.nodeId = false ∧
      fillCopy core c e x = some e' ∧
      busy' = viewCalcFillUpdateBusyList busy x.nodeId x.diskId 1 := by
  rw [viewCalcBuildPtEntry] at h
  split at h
  · exact nomatch h
  · rename_i x hx
    obtain ⟨e₁, hfill, h⟩ := Option.bind_eq_some_iff.mp h
    cases h
    have hfree := List.find?_some hx
    rw [Bool.not_eq_true'] at hfree
    exact ⟨x, List.mem_of_find?_eq_some hx, hfree, hfill, rfl⟩

theorem not_liveOn {e : PtEntry} {x : Nat} (h : liveOn e x = false) :
    ∀ i < e.copyNum, Live e i → nodeOf e i ≠ x := by
  intro i hi hl heq
  have hany := List.any_eq_false.mp h i (List.mem_range.mpr hi)
  refine hany (Bool.and_eq_true_iff.mpr ⟨hl, ?_⟩)
  exact beq_iff_eq.mpr heq.symm

/-- A slot that is empty is filled in its second half. -/
theorem Sparse.fill {core : CalcCore} {c : Nat} {e e' : PtEntry}
    {x : CalcElem} (hc : c < core.copyNum) (h : Sparse core.copyNum e)
    (hno : ¬ Live e c) (hfree : liveOn e x.nodeId = false)
    (hx : x.nodeId < core.copyNum) (hdisk : x.diskId = 0)
    (hfill : fillCopy core c e x = some e') :
    Sparse core.copyNum e' ∧ e'.birthVersion = e.birthVersion ∧
    e'.ptId = e.ptId ∧ Live e' (c + core.copyNum) ∧
    ∀ i, Live e i → Live e' i := by
  rw [fillCopy, if_neg (h.used c hc)] at hfill
  obtain ⟨index, hindex, hfill⟩ := Option.bind_eq_some_iff.mp hfill
  rw [secondIndex_eq hindex] at hfill
  have hnew : e' = { e.setCopy (c + core.copyNum)
      ⟨x.nodeId, x.diskId, .recovery⟩ with
        copyNum := core.copyNum * 2 } := (Option.some.inj hfill).symm
  have hcopy : ∀ i, e'.copyList i = if i = c + core.copyNum then
      ⟨x.nodeId, x.diskId, .recovery⟩ else e.copyList i := by
    intro i
    rw [hnew]
    exact setCopy_apply e _ i _
  have hlive : ∀ i, Live e' i ↔ Live e i ∨ i = c + core.copyNum := by
    intro i
    rw [Live, hcopy]
    split
    · rename_i hi
      exact ⟨fun _ => Or.inr hi, fun _ => rfl⟩
    · rename_i hi
      exact ⟨Or.inl, fun h' => h'.resolve_right hi⟩
  have hnode : ∀ i, nodeOf e' i = if i = c + core.copyNum then x.nodeId
      else nodeOf e i := by
    intro i
    rw [nodeOf, hcopy]
    split
    · rfl
    · rfl
  have hhalves : Halves core.copyNum (Live e') (nodeOf e') e'.copyNum := by
    have hnum : e'.copyNum = 2 * core.copyNum := by
      rw [hnew, Nat.mul_comm]
    rw [hnum]
    refine h.halves.fill hno ?_ hlive hnode
    intro i hi hl
    exact not_liveOn hfree i (h.halves.live_lt hi hl) hl
  refine ⟨⟨hhalves, ?_, ?_, ?_⟩, by rw [hnew]; rfl, by rw [hnew]; rfl,
    (hlive _).mpr (Or.inr rfl), fun i hl => (hlive i).mpr (Or.inl hl)⟩
  · intro i hi hl
    rw [hnode]
    split
    · exact hx
    · rename_i hne
      exact h.node_lt i hi (((hlive i).mp hl).resolve_right hne)
  · intro i hi hl
    rw [hcopy]
    split
    · exact hdisk
    · rename_i hne
      exact h.disk_eq i hi (((hlive i).mp hl).resolve_right hne)
  · intro i hi
    rw [hcopy, if_neg (by omega)]
    exact h.used i hi

/-- An entry in the course of a rebalance: untouched, or evicted from and
    filled up to slot `c`. -/
def Worked (n version c : Nat) (e₀ e : PtEntry) : Prop :=
  Placed n e₀ ∧ (e = e₀ ∨ e.birthVersion = version ∧ e.ptId = e₀.ptId ∧
    Sparse n e ∧ FilledBelow n (Live e) c)

/-- A refill looks at the second half only if the entry reaches so far; it does
    whenever a copy lives there. -/
theorem refillVisit_cases {core : CalcCore} {c : Nat} {e e' : PtEntry}
    {busy busy' : List CalcElem} (hc : c < core.copyNum)
    (hs : Sparse core.copyNum e)
    (h : refillVisit core c e busy = some (true, e', busy')) :
    ((Live e c ∨ Live e (c + core.copyNum)) ∧ e' = e ∧ busy' = busy) ∨
    (¬ Live e c ∧ ¬ Live e (c + core.copyNum) ∧
      viewCalcBuildPtEntry core c e busy = some (true, e', busy')) := by
  rw [refillVisit] at h
  split at h
  · rename_i hl
    cases h
    exact Or.inl ⟨Or.inl hl, rfl, rfl⟩
  · rename_i hl
    split at h
    · obtain ⟨index, hindex, h⟩ := Option.bind_eq_some_iff.mp h
      rw [secondIndex_eq hindex] at h
      split at h
      · rename_i hl'
        cases h
        exact Or.inl ⟨Or.inr hl', rfl, rfl⟩
      · rename_i hl'
        exact Or.inr ⟨hl, hl', h⟩
    · rename_i hshort
      refine Or.inr ⟨hl, fun hl' => ?_, h⟩
      have hext := hs.halves.extended c hc hl'
      omega

theorem refillVisit_worked {core : CalcCore} {version c : Nat}
    {nodes : List Nat} {e e' : PtEntry} {busy busy' : List CalcElem}
    (hc : c < core.copyNum) (hnodes : ∀ x ∈ nodes, x < core.copyNum)
    (hcand : Candidates nodes busy)
    (h : refillVisit core c e busy = some (true, e', busy'))
    {e₀ : PtEntry} (hw : Worked core.copyNum version c e₀ e) :
    Worked core.copyNum version (c + 1) e₀ e' := by
  obtain ⟨hp, hw⟩ := hw
  refine ⟨hp, ?_⟩
  have hs : Sparse core.copyNum e := by
    rcases hw with rfl | ⟨-, -, hs, -⟩
    · exact hp.toSparse
    · exact hs
  rcases refillVisit_cases hc hs h with ⟨hfull, rfl, -⟩ | ⟨hno, hno', hbuild⟩
  · rcases hw with heq | ⟨hb, hid, hs, hfill⟩
    · exact Or.inl heq
    · refine Or.inr ⟨hb, hid, hs, ?_⟩
      intro i hi
      rcases Nat.lt_succ_iff_lt_or_eq.mp hi with hi | rfl
      · exact hfill i hi
      · exact hfull
  · rcases hw with rfl | ⟨hb, hid, hs, hfill⟩
    · -- an untouched entry has no empty slot
      exact absurd (hp.filled c hc) (by rintro (hl | hl) <;> contradiction)
    · obtain ⟨x, hx, hfree, hwrite, -⟩ := buildPtEntry_true hbuild
      obtain ⟨hxn, hxd⟩ := hcand.mem hx
      obtain ⟨hs', hb', hid', hnew, hold⟩ :=
        hs.fill hc hno hfree (hnodes _ hxn) hxd hwrite
      refine Or.inr ⟨hb'.trans hb, hid'.trans hid, hs', ?_⟩
      intro i hi
      rcases Nat.lt_succ_iff_lt_or_eq.mp hi with hi | rfl
      · exact (hfill i hi).imp (hold _) (hold _)
      · exact Or.inr hnew

theorem refillVisit_candidates {core : CalcCore} {c : Nat}
    {nodes : List Nat} {e e' : PtEntry} {busy busy' : List CalcElem}
    (hcand : Candidates nodes busy)
    (h : refillVisit core c e busy = some (true, e', busy')) :
    Candidates nodes busy' := by
  have hbuild : viewCalcBuildPtEntry core c e busy = some (true, e', busy') →
      Candidates nodes busy' := by
    intro h
    obtain ⟨x, -, -, -, rfl⟩ := buildPtEntry_true h
    exact hcand.fillUpdate _ _ _
  rw [refillVisit] at h
  split at h
  · cases h
    exact hcand
  · split at h
    · obtain ⟨index, -, h⟩ := Option.bind_eq_some_iff.mp h
      split at h
      · cases h
        exact hcand
      · exact hbuild h
    · exact hbuild h

/-! ## Balance -/

theorem scanTarget_none {e : PtEntry} {startRefer : Int} :
    ∀ {busy : List CalcElem},
      (∀ x ∈ busy, viewCalcPtEntryHasNodeId e x.nodeId = true) →
        scanTarget e startRefer busy = none := by
  intro busy
  induction busy with
  | nil => exact fun _ => rfl
  | cons x busy ih =>
      intro hall
      rw [scanTarget]
      split
      · rfl
      · rw [if_pos (hall x (List.mem_cons_self ..))]
        exact ih fun y hy => hall y (List.mem_cons_of_mem _ hy)

theorem Placed.hasNodeId {n x : Nat} {e : PtEntry} (h : Placed n e)
    (hx : x < n) : viewCalcPtEntryHasNodeId e x = true := by
  obtain ⟨i, ⟨hi, hl, hnode⟩, -⟩ := h.eachNodeOnce.1 x hx
  refine List.any_eq_true.mpr ⟨i, ?_, beq_iff_eq.mpr hnode⟩
  exact List.mem_range.mpr (h.halves.live_lt hi hl)

/-- A balance visit that ends changes nothing, if every candidate has a copy
    of the entry or the entry is new. -/
theorem balanceVisit_same {core : CalcCore} {version c : Nat}
    {e e' : PtEntry} {busy busy' : List CalcElem}
    (hall : e.birthVersion = version ∨
      ∀ x ∈ busy, viewCalcPtEntryHasNodeId e x.nodeId = true)
    (h : balanceVisit core version c e busy = some (true, e', busy')) :
    e' = e ∧ busy' = busy := by
  obtain ⟨⟨e₁, busy₁⟩, hb, h⟩ := Option.bind_eq_some_iff.mp h
  cases h
  rw [viewCalcBuildPtEntry1] at hb
  split at hb
  · rename_i first last hfirst hlast
    split at hb
    · cases hb
      exact ⟨rfl, rfl⟩
    · obtain ⟨pre, hpre, hb⟩ := Option.bind_eq_some_iff.mp hb
      rcases hall with hnew | hall
      · rw [viewCalcBuildPreCheck, if_pos hnew] at hpre
        cases hpre
        cases hb
        exact ⟨rfl, rfl⟩
      · cases pre with
        | none =>
            cases hb
            exact ⟨rfl, rfl⟩
        | some index =>
            dsimp only at hb
            split at hb
            · cases hb
              exact ⟨rfl, rfl⟩
            · rw [scanTarget_none fun x hx =>
                hall x (List.mem_of_mem_take hx)] at hb
              cases hb
              exact ⟨rfl, rfl⟩
  · cases hb
    exact ⟨rfl, rfl⟩

theorem balanceVisit_candidates {core : CalcCore} {version c : Nat}
    {nodes : List Nat} {e e' : PtEntry} {busy busy' : List CalcElem}
    (hcand : Candidates nodes busy)
    (h : balanceVisit core version c e busy = some (true, e', busy')) :
    Candidates nodes busy' := by
  obtain ⟨⟨e₁, busy₁⟩, hb, h⟩ := Option.bind_eq_some_iff.mp h
  cases h
  rw [viewCalcBuildPtEntry1] at hb
  split at hb
  · split at hb
    · cases hb
      exact hcand
    · obtain ⟨pre, -, hb⟩ := Option.bind_eq_some_iff.mp hb
      cases pre with
      | none =>
          cases hb
          exact hcand
      | some index =>
          dsimp only at hb
          split at hb
          · cases hb
            exact hcand
          · split at hb
            · cases hb
              exact hcand
            · obtain ⟨e₂, -, hb⟩ := Option.bind_eq_some_iff.mp hb
              cases hb
              exact (hcand.fillUpdate _ _ _).fillUpdate _ _ _
  · cases hb
    exact hcand

/-- After the refill of its round every entry is new or on every node. -/
theorem balanceVisit_worked {core : CalcCore} {version c k : Nat}
    {nodes : List Nat} {e e' : PtEntry} {busy busy' : List CalcElem}
    (hnodes : ∀ x ∈ nodes, x < core.copyNum) (hcand : Candidates nodes busy)
    (h : balanceVisit core version c e busy = some (true, e', busy'))
    {e₀ : PtEntry} (hw : Worked core.copyNum version k e₀ e) :
    Worked core.copyNum version k e₀ e' := by
  have hall : e.birthVersion = version ∨
      ∀ x ∈ busy, viewCalcPtEntryHasNodeId e x.nodeId = true := by
    rcases hw with ⟨hp, rfl | ⟨hb, -⟩⟩
    · exact Or.inr fun x hx => hp.hasNodeId (hnodes _ (hcand.mem hx).1)
    · exact Or.inl hb
  rw [(balanceVisit_same hall h).1]
  exact hw

/-! ## Eviction -/

theorem Sparse.giveUp {n index : Nat} {e : PtEntry} (h : Sparse n e)
    (version : Nat) :
    Sparse n { e.setCopy index .givenUp with birthVersion := version } := by
  have hcopy : ∀ i, (e.setCopy index .givenUp).copyList i =
      if i = index then .givenUp else e.copyList i :=
    fun i => setCopy_apply e index i _
  have hfew : ∀ i < 2 * n,
      Live { e.setCopy index .givenUp with birthVersion := version } i →
      Live e i ∧ nodeOf { e.setCopy index .givenUp with
        birthVersion := version } i = nodeOf e i ∧
      ((e.setCopy index .givenUp).copyList i).diskId =
        (e.copyList i).diskId := by
    intro i _ hl
    rw [Live] at hl
    by_cases hi : i = index
    · rw [hcopy, if_pos hi] at hl
      cases hl
    · rw [hcopy, if_neg hi] at hl
      rw [nodeOf, hcopy, if_neg hi]
      exact ⟨hl, rfl, rfl⟩
  refine ⟨h.halves.of_fewer fun i hi hl => ⟨(hfew i hi hl).1,
    (hfew i hi hl).2.1⟩, ?_, ?_, ?_⟩
  · intro i hi hl
    obtain ⟨hold, hnode, -⟩ := hfew i hi hl
    rw [hnode]
    exact h.node_lt i hi hold
  · intro i hi hl
    obtain ⟨hold, -, hdisk⟩ := hfew i hi hl
    exact hdisk.trans (h.disk_eq i hi hold)
  · intro i hi hinit
    rw [hcopy] at hinit
    split at hinit
    · cases hinit
    · exact h.used i hi hinit

/-- Eviction leaves an entry alone or gives it the new version. -/
theorem evictEntry_worked {core : CalcCore} {nodeList : NodeInfoList}
    {stateList : NodeStateList} {version : Nat} {e₀ e' : PtEntry}
    (hp : Placed core.copyNum e₀)
    (h : evictEntry core nodeList stateList version e₀ = some e') :
    Worked core.copyNum version 0 e₀ e' := by
  have hfold : ∀ (cs : List Nat) (e : PtEntry),
      Worked core.copyNum version 0 e₀ e →
      cs.foldlM (evictSlot core nodeList stateList version) e = some e' →
        Worked core.copyNum version 0 e₀ e' := by
    intro cs
    induction cs with
    | nil =>
        intro e hw h
        cases h
        exact hw
    | cons c cs ih =>
        intro e hw h
        rw [List.foldlM_cons] at h
        obtain ⟨e₁, hslot, h⟩ := Option.bind_eq_some_iff.mp h
        refine ih e₁ ?_ h
        obtain ⟨index, -, hslot⟩ := Option.bind_eq_some_iff.mp hslot
        dsimp only at hslot
        split at hslot
        · cases hslot
          have hs : Sparse core.copyNum e := by
            rcases hw.2 with rfl | ⟨-, -, hs, -⟩
            · exact hp.toSparse
            · exact hs
          have hid : e.ptId = e₀.ptId := by
            rcases hw.2 with rfl | ⟨-, hid, -, -⟩
            · rfl
            · exact hid
          exact ⟨hp, Or.inr ⟨rfl, hid, hs.giveUp version,
            fun i hi => absurd hi (Nat.not_lt_zero i)⟩⟩
        · cases hslot
          exact hw
  exact hfold _ e₀ ⟨hp, Or.inl rfl⟩ h

/-! ## The whole rebalance -/

theorem loadCopy_candidates {core : CalcCore} {nodeList : NodeInfoList}
    {stateList : NodeStateList} {c : Nat} {nodes : List Nat}
    {busy busy' : List CalcElem} {e : PtEntry}
    (hcand : Candidates nodes busy)
    (h : loadCopy core nodeList stateList c busy e = some busy') :
    Candidates nodes busy' := by
  obtain ⟨index, -, h⟩ := Option.bind_eq_some_iff.mp h
  dsimp only at h
  split at h
  · cases h
    exact hcand.fillUpdate _ _ _
  · cases h
    exact hcand

/-- A round of the rebalance that succeeds fills one more slot. -/
theorem rebalanceRound_worked {core : CalcCore} {nodeList : NodeInfoList}
    {stateList : NodeStateList} {version c : Nat} {nodes : List Nat}
    {es₀ es es' : List PtEntry} {busy busy' : List CalcElem}
    (hc : c < core.copyNum) (hnodes : ∀ x ∈ nodes, x < core.copyNum)
    (hw : List.Forall₂ (Worked core.copyNum version c) es₀ es)
    (hcand : Candidates nodes busy)
    (h : rebalanceRound core nodeList stateList version c es busy =
      some (true, es', busy')) :
    Candidates nodes busy' ∧
      List.Forall₂ (Worked core.copyNum version (c + 1)) es₀ es' := by
  obtain ⟨busy₁, hfillBusy, h⟩ := Option.bind_eq_some_iff.mp h
  have hcand₁ : Candidates nodes busy₁ :=
    foldlM_some_invariant (fun _ _ _ hc h => loadCopy_candidates hc h)
      hcand hfillBusy
  obtain ⟨⟨ok, es₁, busy₂⟩, hrefill, h⟩ := Option.bind_eq_some_iff.mp h
  cases ok with
  | false => exact nomatch h
  | true =>
      obtain ⟨hcand₂, hall₁⟩ := placeAll_true
        (R := fun e e' => ∀ e₀, Worked core.copyNum version c e₀ e →
          Worked core.copyNum version (c + 1) e₀ e')
        (fun e busy e' busy' hcand h => ⟨refillVisit_candidates hcand h,
          fun e₀ hw => refillVisit_worked hc hnodes hcand h hw⟩)
        hcand₁ hrefill
      have hw₁ : List.Forall₂ (Worked core.copyNum version (c + 1)) es₀ es₁ :=
        forall₂_comp (fun e₀ e e' hw hR => hR e₀ hw) hw hall₁
      obtain ⟨hcand₃, hall₂⟩ := placeAll_true
        (R := fun e e' => ∀ e₀, Worked core.copyNum version (c + 1) e₀ e →
          Worked core.copyNum version (c + 1) e₀ e')
        (fun e busy e' busy' hcand h => ⟨balanceVisit_candidates hcand h,
          fun e₀ hw => balanceVisit_worked hnodes hcand h hw⟩)
        hcand₂ h
      exact ⟨hcand₃, forall₂_comp (fun e₀ e e' hw hR => hR e₀ hw) hw₁ hall₂⟩

theorem mem_normalNodes_lt {nodeList : NodeInfoList}
    {stateList : NodeStateList} {x : Nat}
    (hx : x ∈ normalNodes nodeList stateList) :
    x < stateList.nodeList.length :=
  List.mem_range.mp (List.mem_filter.mp hx).1

/-- What the last loop makes of an entry: full, with a running master. -/
theorem closeEntry_spec {core : CalcCore} {g : Nat} {e₀ e : PtEntry}
    (hlaw : EntryLaw core.copyNum g e₀)
    (hw : Worked core.copyNum (g + 1) core.copyNum e₀ e) :
    EntryLaw core.copyNum (g + 1) (closeEntry core e) ∧
      Follows e₀ (closeEntry core e) := by
  have hframe := updatePtState_frame e core.minCopyNum core.copyNum
  have hplaced : Placed core.copyNum e := by
    rcases hw with ⟨hp, rfl | ⟨-, -, hs, hfill⟩⟩
    · exact hp
    · exact ⟨hs, hfill⟩
  refine ⟨⟨?_, mastered_updatePtState _ _ _, ?_⟩, ?_⟩
  · exact (SamePlace.of_copyList hframe.1).placed hplaced
      (Or.inl hframe.2.1)
  · rw [closeEntry, hframe.2.2.1]
    rcases hw with ⟨-, rfl | ⟨hb, -⟩⟩
    · exact Nat.le_succ_of_le hlaw.birth_le
    · exact Nat.le_of_eq hb
  · rcases hw with ⟨-, rfl | ⟨hb, hid, -⟩⟩
    · exact Or.inl (.of_frame hframe)
    · refine Or.inr ⟨?_, hframe.2.2.2.trans hid⟩
      rw [closeEntry, hframe.2.2.1, hb]
      exact Nat.lt_succ_of_le hlaw.birth_le

/-- **REBALANCE KEEPS THE LAW** of a pool with one copy for each node. -/
theorem rebalance_lawful {core : CalcCore} {nodeList : NodeInfoList}
    {stateList : NodeStateList} {l l' : PtEntryList}
    (hnodes : stateList.nodeList.length = core.copyNum)
    (hlaw : ViewLaw core.copyNum l)
    (h : viewCalculatorRebalance core nodeList stateList l =
      some (true, l')) :
    LawfulStep core.copyNum l l' := by
  rw [viewCalculatorRebalance] at h
  split at h
  · exact nomatch h
  · obtain ⟨evicted, hevict, h⟩ := Option.bind_eq_some_iff.mp h
    obtain ⟨⟨ok, es⟩, hbuild, h⟩ := Option.bind_eq_some_iff.mp h
    cases ok with
    | false => exact nomatch h
    | true =>
        cases h
        have hw₀ : List.Forall₂ (Worked core.copyNum (l.globalVersion + 1) 0)
            l.ptEntryList evicted :=
          forall₂_of_mapM_some (fun e e' he h =>
            evictEntry_worked (hlaw.entries e he).placed h) hevict
        have hlt : ∀ x ∈ (normalNodes nodeList stateList).take core.elemNum,
            x < core.copyNum := by
          intro x hx
          rw [← hnodes]
          exact mem_normalNodes_lt (List.mem_of_mem_take hx)
        rw [viewCalcBuildPtEntryList1, List.range_eq_range'] at hbuild
        have hw := placeRounds_true (P := fun c es => List.Forall₂
            (Worked core.copyNum (l.globalVersion + 1) c) l.ptEntryList es)
          (fun c es busy es' busy' hc hw hcand h =>
            rebalanceRound_worked hc hlt hw hcand h)
          (Nat.zero_add _) hw₀ (candidates_build core nodeList stateList)
          hbuild
        have hclose : List.Forall₂ (fun e e' =>
            EntryLaw core.copyNum (l.globalVersion + 1) e' ∧ Follows e e')
            l.ptEntryList (es.map (closeEntry core)) := by
          refine List.forall₂_map_right_iff.mpr
            (((List.forall₂_and_left ..).mpr ⟨hlaw.entries, hw⟩).imp ?_)
          rintro e₀ e ⟨he₀, hwe⟩
          exact closeEntry_spec he₀ hwe
        exact ⟨⟨hlaw.maxCopyNum, forall₂_all (fun _ _ h _ => h.1) hclose
            fun _ _ => trivial⟩,
          hclose.imp fun _ _ h => h.2, Nat.le_succ _⟩

/-! ## The initial view -/

/-- An entry while its first slots are being filled. -/
structure Begun (n g c : Nat) (e : PtEntry) : Prop where
  copyNum : e.copyNum = n
  birthVersion : e.birthVersion = g
  running : ∀ i < c, (e.copyList i).state = .running ∧
    (e.copyList i).nodeId < n ∧ (e.copyList i).diskId = 0
  rest : ∀ i, c ≤ i → (e.copyList i).state = .init
  distinct : ∀ i < c, ∀ j < c, nodeOf e i = nodeOf e j → i = j

theorem Begun.live_iff {n g c i : Nat} {e : PtEntry} (h : Begun n g c e) :
    Live e i ↔ i < c := by
  rw [Live]
  by_cases hi : i < c
  · rw [(h.running i hi).1]
    exact ⟨fun _ => hi, fun _ => rfl⟩
  · rw [h.rest i (Nat.le_of_not_lt hi)]
    exact ⟨Bool.noConfusion, fun h' => absurd h' hi⟩

theorem buildVisit_begun {core : CalcCore} {g c : Nat}
    {nodes : List Nat} {e e' : PtEntry} {busy busy' : List CalcElem}
    (hc : c < core.copyNum) (hnodes : ∀ x ∈ nodes, x < core.copyNum)
    (hcand : Candidates nodes busy)
    (h : buildVisit core c e busy = some (true, e', busy')) :
    Candidates nodes busy' ∧
      (Begun core.copyNum g c e → Begun core.copyNum g (c + 1) e') := by
  rw [buildVisit] at h
  split at h
  · rename_i hl
    cases h
    refine ⟨hcand, fun hb => ?_⟩
    exact absurd (hb.live_iff.mp hl) (Nat.lt_irrefl c)
  · obtain ⟨x, hx, hfree, hfill, rfl⟩ := buildPtEntry_true h
    refine ⟨hcand.fillUpdate _ _ _, fun hb => ?_⟩
    obtain ⟨hxn, hxd⟩ := hcand.mem hx
    rw [fillCopy, if_pos (hb.rest c (Nat.le_refl c))] at hfill
    have hnew : e' = e.setCopy c ⟨x.nodeId, x.diskId, .running⟩ :=
      (Option.some.inj hfill).symm
    have hcopy : ∀ i, e'.copyList i =
        if i = c then ⟨x.nodeId, x.diskId, .running⟩ else e.copyList i := by
      intro i
      rw [hnew]
      exact setCopy_apply e c i _
    have hother : ∀ i < c, nodeOf e i ≠ x.nodeId := by
      intro i hi
      refine not_liveOn hfree i ?_ (hb.live_iff.mpr hi)
      rw [hb.copyNum]
      exact Nat.lt_trans hi hc
    refine ⟨by rw [hnew]; exact hb.copyNum, by rw [hnew]; exact hb.birthVersion,
      ?_, ?_, ?_⟩
    · intro i hi
      rw [hcopy]
      split
      · exact ⟨rfl, hnodes _ hxn, hxd⟩
      · exact hb.running i (by omega)
    · intro i hi
      rw [hcopy, if_neg (by omega)]
      exact hb.rest i (by omega)
    · intro i hi j hj heq
      rw [nodeOf, nodeOf, hcopy, hcopy] at heq
      by_cases hic : i = c
      · by_cases hjc : j = c
        · rw [hic, hjc]
        · rw [if_pos hic, if_neg hjc] at heq
          exact absurd heq.symm (hother j (by omega))
      · by_cases hjc : j = c
        · rw [if_neg hic, if_pos hjc] at heq
          exact absurd heq (hother i (by omega))
        · rw [if_neg hic, if_neg hjc] at heq
          exact hb.distinct i (by omega) j (by omega) heq

theorem Begun.placed {n g : Nat} {e : PtEntry} (h : Begun n g n e) :
    Placed n e := by
  refine ⟨⟨⟨?_, Or.inl h.copyNum, ?_, ?_⟩, ?_, ?_, ?_⟩, ?_⟩
  · intro i _ _ hl
    have hlt := h.live_iff.mp hl
    omega
  · intro i _ hl
    have hlt := h.live_iff.mp hl
    omega
  · intro i _ j _ hli hlj heq
    exact h.distinct i (h.live_iff.mp hli) j (h.live_iff.mp hlj) heq
  · intro i _ hl
    exact (h.running i (h.live_iff.mp hl)).2.1
  · intro i _ hl
    exact (h.running i (h.live_iff.mp hl)).2.2
  · intro i hi hinit
    rw [(h.running i hi).1] at hinit
    exact nomatch hinit
  · intro i hi
    exact Or.inl (h.live_iff.mpr hi)

theorem initialUpdateEntry_frame (e : PtEntry) :
    (initialUpdateEntry e).copyList = e.copyList ∧
    (initialUpdateEntry e).copyNum = e.copyNum ∧
    (initialUpdateEntry e).birthVersion = e.birthVersion := by
  rw [initialUpdateEntry]
  split
  · exact ⟨rfl, rfl, rfl⟩
  · exact ⟨rfl, rfl, rfl⟩

/-- The first running copy becomes the master of an initial entry. -/
theorem initialUpdateEntry_law {n g : Nat} {e : PtEntry}
    (h : Begun n g n e) : EntryLaw n g (initialUpdateEntry e) := by
  have hframe := initialUpdateEntry_frame e
  have hrun : (initialUpdateEntry e).runningBelow
      (initialUpdateEntry e).copyNum = e.runningBelow e.copyNum := by
    simp only [PtEntry.runningBelow, hframe.1, hframe.2.1]
  refine ⟨?_, ?_, ?_⟩
  · exact (SamePlace.of_copyList hframe.1).placed h.placed
      (Or.inl hframe.2.1)
  · intro hne
    rw [hrun] at hne ⊢
    obtain ⟨i, rest, hlist⟩ := List.exists_cons_of_ne_nil hne
    have hnew : initialUpdateEntry e =
        { e.setMaster i with state := .normal } := by
      rw [initialUpdateEntry, hlist]
      rfl
    rw [hnew]
    exact ⟨i, by rw [hlist]; exact List.mem_cons_self ..,
      isMaster_setMaster e i⟩
  · rw [hframe.2.2, h.birthVersion]

/-- The entries of an initial view, before their masters are chosen. -/
theorem initial_begun {core : CalcCore} {nodeList : NodeInfoList}
    {stateList : NodeStateList} {l l' : PtEntryList}
    (hnodes : stateList.nodeList.length = core.copyNum)
    (h : viewCalculatorInitial core nodeList stateList l =
      some (true, l')) :
    ∃ es : List PtEntry, l' = { viewCalcInitPtEntryList core nodeList.poolId
        l.globalVersion with ptEntryList := es.map initialUpdateEntry } ∧
      es.length = core.ptNum ∧
      ∀ e ∈ es, Begun core.copyNum (l.globalVersion + 1) core.copyNum e := by
  rw [viewCalculatorInitial] at h
  split at h
  · exact nomatch h
  · obtain ⟨⟨ok, es⟩, hbuild, h⟩ := Option.bind_eq_some_iff.mp h
    cases ok with
    | false => exact nomatch h
    | true =>
        cases h
        have hlt : ∀ x ∈ (normalNodes nodeList stateList).take core.elemNum,
            x < core.copyNum := by
          intro x hx
          rw [← hnodes]
          exact mem_normalNodes_lt (List.mem_of_mem_take hx)
        rw [viewCalcBuildPtEntryList, List.range_eq_range'] at hbuild
        have hbegun := placeRounds_true
          (P := fun c es => es.length = core.ptNum ∧ ∀ e ∈ es,
            Begun core.copyNum (l.globalVersion + 1) c e)
          (fun c es busy es' busy' hc hb hcand h => by
            obtain ⟨hcand', hall⟩ := placeAll_true
              (v := buildVisit core c)
              (fun e busy e' busy' hcand h =>
                buildVisit_begun hc hlt hcand h) hcand h
            exact ⟨hcand', hall.length_eq.symm.trans hb.1,
              forall₂_all (fun _ _ hR hb => hR hb) hall hb.2⟩)
          (Nat.zero_add _) ?_ (candidates_build core nodeList stateList)
          hbuild
        · exact ⟨es, rfl, hbegun.1, hbegun.2⟩
        · refine ⟨?_, ?_⟩
          · rw [viewCalcInitPtEntryList, List.length_map, List.length_range]
          · intro e he
            obtain ⟨k, -, rfl⟩ := List.mem_map.mp he
            exact ⟨rfl, rfl, fun i hi => absurd hi (Nat.not_lt_zero i),
              fun _ _ => rfl, fun i hi => absurd hi (Nat.not_lt_zero i)⟩

/-- **THE INITIAL VIEW IS LAWFUL**, with one copy for each node. -/
theorem initial_lawful {core : CalcCore} {nodeList : NodeInfoList}
    {stateList : NodeStateList} {l l' : PtEntryList}
    (hnodes : stateList.nodeList.length = core.copyNum)
    (h : viewCalculatorInitial core nodeList stateList l =
      some (true, l')) : ViewLaw core.copyNum l' := by
  obtain ⟨es, rfl, -, hbegun⟩ := initial_begun hnodes h
  refine ⟨rfl, ?_⟩
  intro e' he'
  obtain ⟨e, he, rfl⟩ := List.mem_map.mp he'
  exact initialUpdateEntry_law (hbegun e he)

/-! ## Runs -/

/-- Rebalances work on the nodes of the pool. -/
def Over (n : Nat) : Event → Prop
  | .rebalance _ stateList => stateList.nodeList.length = n
  | _ => True

instance (n : Nat) : DecidablePred (Over n) := fun e =>
  match e with
  | .rebalance _ stateList =>
      inferInstanceAs (Decidable (stateList.nodeList.length = n))
  | .nodeState .. => isTrue trivial
  | .finish .. => isTrue trivial

theorem step_lawful {core : CalcCore} {l l' : PtEntryList} {ev : Event}
    (hlaw : ViewLaw core.copyNum l) (hover : Over core.copyNum ev)
    (h : step core l ev = some l') : LawfulStep core.copyNum l l' := by
  cases ev with
  | nodeState nodeId state info pgChange =>
      rw [← Option.some.inj h]
      exact nodeState_lawful pgChange hlaw
  | finish nodeId ptList ptChange =>
      rw [← Option.some.inj h]
      exact finish_lawful ptList ptChange hlaw
  | rebalance nodeList stateList =>
      rw [step] at h
      split at h
      · rename_i l₁ hre
        cases h
        exact rebalance_lawful hover hlaw hre
      · exact nomatch h

/-- Along a run the law holds and every entry follows its former self. -/
theorem run_lawful {core : CalcCore} {l l' : PtEntryList} {es : List Event}
    (hlaw : ViewLaw core.copyNum l) (hover : ∀ ev ∈ es, Over core.copyNum ev)
    (h : runFrom (step core) l es = some l') :
    LawfulStep core.copyNum l l' := by
  refine runFrom_invariant_along (G := fun _ => Over core.copyNum)
    (I := fun m => LawfulStep core.copyNum l m) ?_ es l l'
    ⟨hlaw, .refl l, Nat.le_refl _⟩ (along_of_forall l hover) h
  intro m ev m' hm hev hstep
  have hm' := step_lawful hm.law hev hstep
  exact ⟨hm'.law, hm.follows.trans hm'.follows,
    Nat.le_trans hm.global_le hm'.global_le⟩

/-- A running copy of the entry is its master, if the entry has one. -/
def MasterRuns (n : Nat) (e : PtEntry) : Prop :=
  (∃ i < 2 * n, (e.copyList i).state = .running) →
    ∃ i < 2 * n, (e.copyList i).state = .running ∧
      (e.copyList i).nodeId = e.masterNodeId ∧
      (e.copyList i).diskId = e.masterDiskId

theorem EntryLaw.masterRuns {n g : Nat} {e : PtEntry} (h : EntryLaw n g e) :
    MasterRuns n e := by
  rintro ⟨i, hi, hrun⟩
  have hlive : Live e i := by
    rw [Live, hrun]
    rfl
  have hmem : i ∈ e.runningBelow e.copyNum :=
    mem_runningBelow.mpr ⟨h.placed.halves.live_lt hi hlive, hrun⟩
  obtain ⟨j, hj, hm⟩ := h.mastered (List.ne_nil_of_mem hmem)
  obtain ⟨hlt, hjrun⟩ := mem_runningBelow.mp hj
  rw [PtEntry.isMaster, Bool.and_eq_true, beq_iff_eq, beq_iff_eq] at hm
  refine ⟨j, ?_, hjrun, hm.1, hm.2⟩
  rcases h.placed.halves.extent_eq with hx | hx
  · omega
  · omega

/-- **THE VIEW LAW**: on every run from an initial view with one copy for each
    node, every partition has one copy on every node, a running master if it
    has a running copy, and a birth version that no step makes smaller and
    that never passes the global version.  A step that takes a copy into or
    out of `down` raises it; while it stays the same, the entry only advances.
    Late finish reports have no effect. -/
theorem view_law {core : CalcCore} {n : Nat} {nodeList : NodeInfoList}
    {stateList : NodeStateList} {l l₀ l₁ : PtEntryList} {es₁ : List Event}
    (hcopy : core.copyNum = n) (hnodes : stateList.nodeList.length = n)
    (hinit : viewCalculatorInitial core nodeList stateList l =
      some (true, l₀))
    (hover₁ : ∀ ev ∈ es₁, Over n ev)
    (hrun₁ : runFrom (step core) l₀ es₁ = some l₁) :
    (∀ e ∈ l₁.ptEntryList, EachNodeOnce n e ∧ MasterRuns n e ∧
      e.birthVersion ≤ l₁.globalVersion) ∧
    (∀ (ev : Event) (l₂ : PtEntryList), Over n ev →
      step core l₁ ev = some l₂ →
      ∀ (p : Nat) (e₁ e₂ : PtEntry) (i : Nat), l₁.ptEntryList[p]? = some e₁ →
        l₂.ptEntryList[p]? = some e₂ →
        ¬((e₁.copyList i).state = .down ↔ (e₂.copyList i).state = .down) →
        e₁.birthVersion < e₂.birthVersion) ∧
    (∀ (es₂ : List Event) (l₂ : PtEntryList), (∀ ev ∈ es₂, Over n ev) →
      runFrom (step core) l₁ es₂ = some l₂ →
      ∀ (p : Nat) (e₁ e₂ : PtEntry), l₁.ptEntryList[p]? = some e₁ →
        l₂.ptEntryList[p]? = some e₂ →
        e₁.birthVersion ≤ e₂.birthVersion ∧
        (e₂.birthVersion = e₁.birthVersion → Advances e₁ e₂)) ∧
    (∀ (nodeId : Nat) (ptList : List CmPtFinish) (ptChange : Bool),
      viewPtEntryListUpdateNodeFinish nodeId ptList l₁ ptChange =
        viewPtEntryListUpdateNodeFinish nodeId
          (ptList.filter fun f => !olderThan l₁ f) l₁ ptChange) := by
  subst hcopy
  have hlaw := (run_lawful (initial_lawful hnodes hinit) hover₁ hrun₁).law
  refine ⟨?_, ?_, ?_, ?_⟩
  · intro e he
    have h := hlaw.entries e he
    exact ⟨h.placed.eachNodeOnce, h.masterRuns, h.birth_le⟩
  · intro ev l₂ hover hstep p e₁ e₂ i h₁ h₂ hdown
    rcases (step_lawful hlaw hover hstep).follows.get h₁ h₂ with
      hadv | ⟨hlt, -⟩
    · exact absurd (hadv.down_iff i).symm hdown
    · exact hlt
  · intro es₂ l₂ hover hrun p e₁ e₂ h₁ h₂
    have hfol := (run_lawful hlaw hover hrun).follows.get h₁ h₂
    exact ⟨hfol.le, hfol.advances⟩
  · intro nodeId ptList ptChange
    exact (finish_without_older nodeId ptList l₁ ptChange).symm

/-- Two nodes, two partitions. -/
def twoNodeCore : CalcCore where
  nodeNum := 2
  ptNum := 2
  copyNum := 2
  minCopyNum := 1

/-- The initial call on a pool of nodes that are all normal. -/
def initialAllUp (core : CalcCore) : Option (Bool × PtEntryList) :=
  viewCalculatorInitial core (uniformPool core.nodeNum)
    (poolStates (List.replicate core.nodeNum (.up, .stateIn))) ⟨0, 0, 0, 0, []⟩

/-- Node 1 goes down and comes back. -/
def downAndUp : List Event :=
  [.nodeState 1 .down ⟨[], []⟩ false,
   .nodeState 1 .up ⟨[⟨0, .normal⟩], []⟩ false]

/-- The finish reports of node 1 for its two partitions. -/
def finishBoth : List Event := [.finish 1 [⟨3, 0⟩, ⟨3, 1⟩] false]

theorem exists_downAndUp :
    ∃ l₀ l₁ l₂, initialAllUp twoNodeCore = some (true, l₀) ∧
      runFrom (step twoNodeCore) l₀ downAndUp = some l₁ ∧
      runFrom (step twoNodeCore) l₁ finishBoth = some l₂ ∧
      (l₁.ptEntryList.map fun e => (e.birthVersion, e.state)) =
        [(3, .degradeLoss1), (3, .degradeLoss1)] ∧
      (l₂.ptEntryList.map fun e => (e.birthVersion, e.state)) =
        [(3, .normal), (3, .normal)] := by
  have hcheck : (initialAllUp twoNodeCore).any (fun r => r.1 &&
      (runFrom (step twoNodeCore) r.2 downAndUp).any fun l₁ =>
        (runFrom (step twoNodeCore) l₁ finishBoth).any fun l₂ =>
          ((l₁.ptEntryList.map fun e => (e.birthVersion, e.state)) ==
            [(3, .degradeLoss1), (3, .degradeLoss1)]) &&
          ((l₂.ptEntryList.map fun e => (e.birthVersion, e.state)) ==
            [(3, .normal), (3, .normal)])) = true := by
    decide +kernel
  obtain ⟨⟨ok, l₀⟩, h₀, hcheck⟩ := (Option.any_eq_true _ _).mp hcheck
  obtain ⟨hok, hcheck⟩ := Bool.and_eq_true_iff.mp hcheck
  obtain ⟨l₁, h₁, hcheck⟩ := (Option.any_eq_true _ _).mp hcheck
  obtain ⟨l₂, h₂, hcheck⟩ := (Option.any_eq_true _ _).mp hcheck
  obtain ⟨hs₁, hs₂⟩ := Bool.and_eq_true_iff.mp hcheck
  rw [show ok = true from hok] at h₀
  exact ⟨l₀, l₁, l₂, h₀, h₁, h₂, beq_iff_eq.mp hs₁, beq_iff_eq.mp hs₂⟩

/-- Two views of a run with the same birth version of a partition can differ
    in its `state` as well. -/
theorem same_birth_other_state :
    ∃ l₀ l₁ l₂ e₁ e₂, initialAllUp twoNodeCore = some (true, l₀) ∧
      runFrom (step twoNodeCore) l₀ downAndUp = some l₁ ∧
      runFrom (step twoNodeCore) l₁ finishBoth = some l₂ ∧
      l₁.ptEntryList[0]? = some e₁ ∧ l₂.ptEntryList[0]? = some e₂ ∧
      e₁.birthVersion = e₂.birthVersion ∧ e₁.state ≠ e₂.state := by
  obtain ⟨l₀, l₁, l₂, h₀, h₁, h₂, hs₁, hs₂⟩ := exists_downAndUp
  have hget₁ := congrArg (·[0]?) hs₁
  have hget₂ := congrArg (·[0]?) hs₂
  rw [List.getElem?_map] at hget₁ hget₂
  obtain ⟨e₁, he₁, hp₁⟩ := Option.map_eq_some_iff.mp hget₁
  obtain ⟨e₂, he₂, hp₂⟩ := Option.map_eq_some_iff.mp hget₂
  rw [Prod.mk.injEq] at hp₁ hp₂
  refine ⟨l₀, l₁, l₂, e₁, e₂, h₀, h₁, h₂, he₁, he₂, ?_, ?_⟩
  · rw [hp₁.1, hp₂.1]
  · rw [hp₁.2, hp₂.2]
    exact PtState.noConfusion

/-- The law on that run: the finish reports only advance the partitions. -/
theorem view_law_downAndUp :
    ∃ l₀ l₁ l₂, initialAllUp twoNodeCore = some (true, l₀) ∧
      runFrom (step twoNodeCore) l₀ downAndUp = some l₁ ∧
      runFrom (step twoNodeCore) l₁ finishBoth = some l₂ ∧
      (∀ e ∈ l₁.ptEntryList, EachNodeOnce 2 e ∧ MasterRuns 2 e) ∧
      ∃ e₁ e₂, l₁.ptEntryList[0]? = some e₁ ∧
        l₂.ptEntryList[0]? = some e₂ ∧ Advances e₁ e₂ := by
  obtain ⟨l₀, l₁, l₂, h₀, h₁, h₂, hs₁, hs₂⟩ := exists_downAndUp
  have hget₁ := congrArg (·[0]?) hs₁
  have hget₂ := congrArg (·[0]?) hs₂
  rw [List.getElem?_map] at hget₁ hget₂
  obtain ⟨e₁, he₁, hp₁⟩ := Option.map_eq_some_iff.mp hget₁
  obtain ⟨e₂, he₂, hp₂⟩ := Option.map_eq_some_iff.mp hget₂
  rw [Prod.mk.injEq] at hp₁ hp₂
  obtain ⟨hview, -, hlater, -⟩ := view_law (n := 2) rfl rfl h₀
    (by decide) h₁
  refine ⟨l₀, l₁, l₂, h₀, h₁, h₂, fun e he => ⟨(hview e he).1,
    (hview e he).2.1⟩, e₁, e₂, he₁, he₂, ?_⟩
  obtain ⟨-, hadv⟩ := hlater finishBoth l₂ (by decide) h₂ 0 e₁ e₂ he₁ he₂
  exact hadv (by rw [hp₁.1, hp₂.1])

end UbsIo.Mms
