import UbsIo.Pt.Pass
import UbsIo.Pt.Master

/-! # What a rebalance does to a partition

    A rebalance gives up the copies that have left the cluster and refills
    their slots; of the other copies it moves at most one for each partition,
    to make room on a loaded disk.  A partition that has lost a copy moves none
    (`placing_evicted`); one that has lost none is moved as it stands, once
    (`placing_full`).

    The choice of a move is told by its outcome: `balanceTarget_mem` says what
    a chosen disk meets, `balanceTarget_none` what no disk met. -/

namespace UbsIo.Pt

open UbsIo.Lib

/-! ## The choice of a move -/

section Choice

variable {core : CalcCore} {disks : List (Nat × Nat)} {m c version : Nat}
  {es : List PtEntry} {busy : List CalcElem} {e : PtEntry} {d : Nat × Nat}
  {last : CalcElem}

theorem startPos_lt (hne : busy ≠ []) (nodeId diskId : Nat) :
    startPos busy nodeId diskId < busy.length := by
  have hpos := List.length_pos_iff.mpr hne
  rw [startPos]
  omega

/-- The search ends at an element of the list. -/
theorem startElem_split (hne : busy ≠ []) (last : CalcElem)
    (d : Nat × Nat) :
    busy = busy.take (startPos busy d.1 d.2) ++ startElem busy last d ::
      busy.drop (startPos busy d.1 d.2 + 1) := by
  have hlt := startPos_lt hne d.1 d.2
  rw [startElem, List.getD_eq_getElem _ _ hlt,
    ← List.drop_eq_getElem_cons hlt, List.take_append_drop]

theorem startElem_mem (hne : busy ≠ []) (last : CalcElem) (d : Nat × Nat) :
    startElem busy last d ∈ busy := by
  rw [startElem, List.getD_eq_getElem _ _ (startPos_lt hne d.1 d.2)]
  exact List.getElem_mem _

/-- It is the copy's own disk if that is in the list. -/
theorem startElem_of_mem (last : CalcElem) {x : CalcElem} (hx : x ∈ busy) (hd : x.disk = d) :
    (startElem busy last d).disk = d := by
  have hlt : busy.findIdx (fun y => y.nodeId == d.1 && y.diskId == d.2) <
      busy.length := by
    refine List.findIdx_lt_length_of_exists ⟨x, hx, ?_⟩
    rw [← hd]
    exact sameDisk_self x
  have hpos : startPos busy d.1 d.2 =
      busy.findIdx fun y => y.nodeId == d.1 && y.diskId == d.2 := by
    rw [startPos]
    omega
  have hget := List.findIdx_getElem (w := hlt)
  rw [startElem, hpos, List.getD_eq_getElem _ _ hlt]
  obtain ⟨h1, h2⟩ := Bool.and_eq_true_iff.mp hget
  exact Prod.ext (beq_iff_eq.mp h1) (beq_iff_eq.mp h2)

/-- And the last element if it is not. -/
theorem startElem_of_notMem (hd : ∀ x ∈ busy, x.disk ≠ d)
    (hlast : busy.getLast? = some last) :
    startElem busy last d = last := by
  have hidx : busy.findIdx (fun y => y.nodeId == d.1 && y.diskId == d.2) =
      busy.length := by
    rw [List.findIdx_eq_length]
    intro x hx
    refine Bool.eq_false_iff.mpr fun hb => hd x hx ?_
    obtain ⟨h1, h2⟩ := Bool.and_eq_true_iff.mp hb
    exact Prod.ext (beq_iff_eq.mp h1) (beq_iff_eq.mp h2)
  have hpos : startPos busy d.1 d.2 = busy.length - 1 := by
    rw [startPos, hidx]
    omega
  rw [startElem, hpos, List.getD_eq_getElem?_getD, ← List.getLast?_eq_getElem?,
    hlast, Option.getD_some]

/-- A scan that finds nothing has seen no free disk that is light enough. -/
theorem scanTarget_none {n : Int} {xs : List CalcElem}
    (hs : SortedBy CalcElem.referNum xs) (h : scanTarget e n xs = none) :
    ∀ x ∈ xs, viewCalcPtEntryHasNodeId e x.nodeId = false →
      n ≤ x.referNum + 1 := by
  induction xs with
  | nil =>
      intro x hx
      cases hx
  | cons y ys ih =>
      obtain ⟨hy, hys⟩ := List.pairwise_cons.mp hs
      intro x hx hfree
      unfold scanTarget at h
      split at h
      · rename_i hstop
        rcases List.mem_cons.mp hx with rfl | hx
        · exact hstop
        · have := hy x hx
          omega
      · split at h
        · rename_i hhas
          rcases List.mem_cons.mp hx with rfl | hx
          · rw [hfree] at hhas
            cases hhas
          · exact ih hys h x hx hfree
        · cases h

/-- **NO MOVE**: the checks pass and no copy moves, so no free disk is lighter
    by more than one than the element at which the search ended. -/
theorem balanceTarget_none (hl : Loaded disks m c es busy) {index : Nat}
    (hpre : viewCalcBuildPreCheck core c e version = some index)
    (h : balanceTarget core c e version busy = none)
    (hlast : busy.getLast? = some last) :
    ∀ x ∈ busy, viewCalcPtEntryHasNodeId e x.nodeId = false →
      (startElem busy last (slotCopy core.copyNum e c).disk).referNum ≤
        x.referNum + 1 := by
  intro x hx hfree
  have hne : busy ≠ [] := List.ne_nil_of_mem hx
  obtain ⟨-, -, hindex, -⟩ := preCheck_some hpre
  obtain ⟨first, hfirst⟩ := Option.isSome_iff_exists.mp
    (List.isSome_head?.mpr hne)
  have hfx := hl.head_le hfirst hx
  have hstart := hl.le_last hlast
    (startElem_mem hne last (slotCopy core.copyNum e c).disk)
  unfold balanceTarget at h
  rw [hfirst, hlast] at h
  dsimp only at h
  split at h
  · omega
  · rw [hpre, Option.bind_some] at h
    split at h
    · rename_i hle
      rw [hindex] at hle
      have hle' : (startElem busy last
          (slotCopy core.copyNum e c).disk).referNum ≤ first.referNum + 1 := hle
      omega
    · have hscan := Option.map_eq_none_iff.mp h
      rw [hindex] at hscan
      have hsplit := startElem_split hne last (slotCopy core.copyNum e c).disk
      have hsorted := hl.sorted
      rw [hsplit] at hsorted hx
      obtain ⟨htake, hrest, -⟩ := List.pairwise_append.mp hsorted
      -- before, at and behind the element where the search ended
      rcases List.mem_append.mp hx with hx | hx
      · exact scanTarget_none htake hscan x hx hfree
      · rcases List.mem_cons.mp hx with rfl | hx
        · omega
        · have := (List.pairwise_cons.mp hrest).1 x hx
          omega

end Choice

/-! ## Eviction -/

/-- The copy of slot `c` has left the cluster: its node or its disk is OUT, or
    it names none. -/
def Expired (nodeList : NodeInfoList) (stateList : NodeStateList) (m : Nat)
    (e : PtEntry) (c : Nat) : Prop :=
  viewCalcCheckNodeIsFault nodeList stateList (slotCopy m e c).nodeId
    (slotCopy m e c).diskId = true

section Eviction

variable {core : CalcCore} {nodeList : NodeInfoList}
  {stateList : NodeStateList} {version c : Nat} {e : PtEntry}

theorem evictSlot_of_expired
    (h : Expired nodeList stateList core.copyNum e c) :
    evictSlot core nodeList stateList version e c =
      { e.setCopy (slotIndex core.copyNum e c) .givenUp with
        birthVersion := version } :=
  if_pos h

theorem evictSlot_of_not
    (h : ¬ Expired nodeList stateList core.copyNum e c) :
    evictSlot core nodeList stateList version e c = e :=
  if_neg h

/-- An iteration does not touch another slot. -/
theorem evictSlot_other {i : Nat} (hi : i < core.copyNum)
    (hc : c < core.copyNum) (hic : i ≠ c) :
    slotIndex core.copyNum (evictSlot core nodeList stateList version e i) c =
      slotIndex core.copyNum e c ∧
    slotCopy core.copyNum (evictSlot core nodeList stateList version e i) c =
      slotCopy core.copyNum e c := by
  by_cases hexp : Expired nodeList stateList core.copyNum e i
  · have hkeep : ∀ j, j = c ∨ j = c + core.copyNum →
        (e.setCopy (slotIndex core.copyNum e i) .givenUp).copyList j =
          e.copyList j := by
      intro j hj
      refine setCopy_of_ne e _ ?_
      rw [slotIndex]
      split
      · omega
      · omega
    have hidx : slotIndex core.copyNum
        (evictSlot core nodeList stateList version e i) c =
        slotIndex core.copyNum e c := by
      have hc' := hkeep c (Or.inl rfl)
      rw [evictSlot_of_expired hexp]
      unfold slotIndex at hc' ⊢
      rw [hc']
    refine ⟨hidx, ?_⟩
    rw [slotCopy, hidx, evictSlot_of_expired hexp]
    refine hkeep _ ?_
    rw [slotIndex]
    split
    · exact Or.inl rfl
    · exact Or.inr rfl
  · rw [evictSlot_of_not hexp]
    exact ⟨rfl, rfl⟩

theorem evictSlots_other (hc : c < core.copyNum) :
    ∀ (cs : List Nat) (e : PtEntry), (∀ i ∈ cs, i < core.copyNum ∧ i ≠ c) →
      slotIndex core.copyNum
          (cs.foldl (evictSlot core nodeList stateList version) e) c =
        slotIndex core.copyNum e c ∧
      slotCopy core.copyNum
          (cs.foldl (evictSlot core nodeList stateList version) e) c =
        slotCopy core.copyNum e c := by
  intro cs
  induction cs with
  | nil => exact fun e _ => ⟨rfl, rfl⟩
  | cons i cs ih =>
      intro e hcs
      obtain ⟨hi, hne⟩ := hcs i (List.mem_cons_self ..)
      obtain ⟨hidx, hcopy⟩ := ih (evictSlot core nodeList stateList version e i)
        fun j hj => hcs j (List.mem_cons_of_mem i hj)
      exact ⟨hidx.trans (evictSlot_other hi hc hne).1,
        hcopy.trans (evictSlot_other hi hc hne).2⟩

theorem evictSlots_birth :
    ∀ (cs : List Nat) (e : PtEntry), e.birthVersion = version →
      (cs.foldl (evictSlot core nodeList stateList version) e).birthVersion =
        version := by
  intro cs
  induction cs with
  | nil => exact fun e h => h
  | cons i cs ih =>
      intro e h
      refine ih (evictSlot core nodeList stateList version e i) ?_
      by_cases hexp : Expired nodeList stateList core.copyNum e i
      · rw [evictSlot_of_expired hexp]
      · rw [evictSlot_of_not hexp]
        exact h

/-- **EVICTED**: an expired copy is given up, and the partition is marked. -/
theorem evictEntry_of_expired (hc : c < core.copyNum)
    (hexp : Expired nodeList stateList core.copyNum e c) :
    (evictEntry core nodeList stateList version e).copyList
        (slotIndex core.copyNum e c) = .givenUp ∧
      (evictEntry core nodeList stateList version e).birthVersion =
        version := by
  obtain ⟨pre, post, hsplit⟩ := List.append_of_mem (List.mem_range.mpr hc)
  have hnd : (pre ++ c :: post).Nodup := hsplit ▸ List.nodup_range
  have hmem : ∀ i ∈ pre ++ c :: post, i < core.copyNum :=
    fun i hi => List.mem_range.mp (hsplit ▸ hi)
  have hpre : ∀ i ∈ pre, i < core.copyNum ∧ i ≠ c := by
    intro i hi
    refine ⟨hmem i (List.mem_append_left _ hi), ?_⟩
    rintro rfl
    exact (List.nodup_append.mp hnd).2.2 i hi i (List.mem_cons_self ..) rfl
  have hpost : ∀ i ∈ post, i < core.copyNum ∧ i ≠ c := by
    intro i hi
    refine ⟨hmem i (List.mem_append_right _ (List.mem_cons_of_mem c hi)), ?_⟩
    rintro rfl
    exact (List.nodup_cons.mp (List.nodup_append.mp hnd).2.1).1 hi
  obtain ⟨hidx, hcopy⟩ :
      slotIndex core.copyNum
          (pre.foldl (evictSlot core nodeList stateList version) e) c =
        slotIndex core.copyNum e c ∧
      slotCopy core.copyNum
          (pre.foldl (evictSlot core nodeList stateList version) e) c =
        slotCopy core.copyNum e c := evictSlots_other hc pre e hpre
  rw [evictEntry, hsplit, List.foldl_append, List.foldl_cons]
  -- the iteration of the slot
  have hexp' : Expired nodeList stateList core.copyNum
      (pre.foldl (evictSlot core nodeList stateList version) e) c := by
    rw [Expired, hcopy]
    exact hexp
  rw [evictSlot_of_expired hexp', hidx]
  refine ⟨?_, evictSlots_birth post _ rfl⟩
  have hgone : ({ (pre.foldl (evictSlot core nodeList stateList version)
      e).setCopy (slotIndex core.copyNum e c) .givenUp with
        birthVersion := version } : PtEntry).copyList
      (slotIndex core.copyNum e c) = .givenUp := setCopy_same ..
  rcases (evicted_foldl core nodeList stateList version post _).copies
    (slotIndex core.copyNum e c) with h | ⟨h, -⟩
  · rw [h]
    exact hgone
  · exact h

/-- An entry without expired copies is left alone. -/
theorem evictEntry_of_none
    (h : ∀ c < core.copyNum, ¬ Expired nodeList stateList core.copyNum e c) :
    evictEntry core nodeList stateList version e = e := by
  have hfold : ∀ cs : List Nat, (∀ c ∈ cs, c < core.copyNum) →
      cs.foldl (evictSlot core nodeList stateList version) e = e := by
    intro cs
    induction cs with
    | nil => exact fun _ => rfl
    | cons c cs ih =>
        intro hcs
        rw [List.foldl_cons, evictSlot_of_not (h c (hcs c
          (List.mem_cons_self ..)))]
        exact ih fun i hi => hcs i (List.mem_cons_of_mem c hi)
  exact hfold _ fun c hc => List.mem_range.mp hc

/-- A copy that has not expired stays. -/
theorem evictEntry_of_not
    (h : ¬ Expired nodeList stateList core.copyNum e c) :
    (evictEntry core nodeList stateList version e).copyList
        (slotIndex core.copyNum e c) = slotCopy core.copyNum e c := by
  rcases (evicted_evictEntry core nodeList stateList version e).copies
    (slotIndex core.copyNum e c) with hsame | ⟨-, hfault⟩
  · exact hsame
  · exact absurd hfault h

/-- The index of a live copy is that of its slot. -/
theorem Sparse.slotIndex_eq {m i : Nat} (hs : Sparse m e) (hc : c < m)
    (hi : i = c ∨ i = c + m) (hl : Live e i) : slotIndex m e c = i := by
  rcases hi with rfl | rfl
  · exact slotIndex_of_live hl
  · exact slotIndex_of_dead fun hbase => hs.once c hc hbase hl

/-- **JOINED**: after the eviction no live copy has left the cluster. -/
theorem joined_evictEntry (hs : Sparse core.copyNum e) :
    Joined nodeList stateList core.copyNum
      (evictEntry core nodeList stateList version e) := by
  intro i hlt hi
  have hi' : ((evictEntry core nodeList stateList version e).copyList
    i).state.live = true := hi
  rcases (evicted_evictEntry core nodeList stateList version e).copies i with
    hsame | ⟨hgone, -⟩
  · rw [hsame] at hi' ⊢
    obtain ⟨c, hc, hic⟩ : ∃ c < core.copyNum, i = c ∨ i = c + core.copyNum := by
      by_cases him : i < core.copyNum
      · exact ⟨i, him, Or.inl rfl⟩
      · exact ⟨i - core.copyNum, by omega, Or.inr (by omega)⟩
    have hidx := hs.slotIndex_eq hc hic hi'
    by_contra hfault
    have hexp : Expired nodeList stateList core.copyNum e c := by
      rw [Expired, slotCopy, hidx]
      simpa using hfault
    have hgone : (evictEntry core nodeList stateList version e).copyList
        (slotIndex core.copyNum e c) = .givenUp :=
      (evictEntry_of_expired hc hexp).1
    rw [hidx, hsame] at hgone
    rw [hgone] at hi'
    cases hi'
  · rw [hgone] at hi'
    cases hi'

end Eviction

/-! ## The fate of one partition -/

section Fate

variable {core : CalcCore} {version c k : Nat} {e e' : PtEntry}
  {busy : List CalcElem} {G : Nat → PtEntry → List CalcElem → Prop}

/-- A partition that this call has changed moves no copy. -/
theorem balanceTarget_of_birth (h : e.birthVersion = version) :
    balanceTarget core c e version busy = none := by
  cases htarget : balanceTarget core c e version busy with
  | none => rfl
  | some r =>
      have htarget' : balanceTarget core c e version busy =
          some (r.1, r.2) := htarget
      exact absurd h (preCheck_some (balanceTarget_some htarget').1).1

theorem buildPtEntry1_of_none
    (h : balanceTarget core c e version busy = none) :
    (viewCalcBuildPtEntry1 core c e version busy).1 = e := by
  rw [viewCalcBuildPtEntry1, h]

theorem buildPtEntry1_of_some {index : Nat} {x : CalcElem}
    (h : balanceTarget core c e version busy = some (index, x)) :
    (viewCalcBuildPtEntry1 core c e version busy).1 =
      balanceMove core c e version x := by
  rw [viewCalcBuildPtEntry1, h]

theorem fillCopy_other (x : CalcElem) {i : Nat} (hi : i ≠ c)
    (hext : i ≠ c + core.copyNum) :
    (fillCopy core c e x).copyList i = e.copyList i := by
  unfold fillCopy
  split
  · exact setCopy_of_ne e _ hi
  · exact setCopy_of_ne e _ hext

theorem fillCopy_birth (x : CalcElem) :
    (fillCopy core c e x).birthVersion = e.birthVersion := by
  unfold fillCopy
  split
  · rfl
  · rfl

/-- A refill fills what is empty and nothing else. -/
theorem refill_keeps (hs : Sparse core.copyNum e) (hc : c < core.copyNum)
    (h : Refill core c e e') :
    e'.birthVersion = e.birthVersion ∧
      ∀ i, Live e i → e'.copyList i = e.copyList i := by
  rcases refill_cases h with ⟨rfl, -⟩ | ⟨hbase, hext, x, -, rfl⟩
  · exact ⟨rfl, fun _ _ => rfl⟩
  · refine ⟨fillCopy_birth x, fun i hi => fillCopy_other x ?_ ?_⟩
    · rintro rfl
      have hi' : (e.copyList i).state.live = true := hi
      rw [hbase] at hi'
      exact nomatch hi'
    · rintro rfl
      have hnum := hs.extended c hc hi
      exact hext ⟨by omega, hi⟩

/-- A slot that is filled is not refilled. -/
theorem refill_of_filled (hs : Sparse core.copyNum e) (hc : c < core.copyNum)
    (hf : Live e c ∨ Live e (c + core.copyNum)) (h : Refill core c e e') :
    e' = e := by
  obtain ⟨busy, busy', hv⟩ := h
  rw [refillVisit_of_live hs hc hf] at hv
  exact (congrArg Prod.fst (Option.some.inj hv)).symm

/-- **NO MOVE AFTER AN EVICTION**: a partition marked by the eviction keeps
    every copy it still has. -/
theorem placing_evicted (h : Placing core version G e k e')
    (hk : k ≤ core.copyNum) (hs : Sparse core.copyNum e)
    (hbirth : e.birthVersion = version) :
    e'.birthVersion = version ∧
      ∀ i, Live e i → e'.copyList i = e.copyList i := by
  induction h with
  | start => exact ⟨hbirth, fun _ _ => rfl⟩
  | @round c e₁ e₂ e₃ hplacing hrefill hbal ih =>
      obtain ⟨hb₁, hkeep₁⟩ := ih (by omega)
      have hs₁ := (placing_placed hplacing (by omega) hs).1
      obtain ⟨hb₂, hkeep₂⟩ := refill_keeps hs₁ (by omega) hrefill
      obtain ⟨busy, -, heq⟩ := hbal
      have hb₂' : e₂.birthVersion = version := hb₂.trans hb₁
      rw [buildPtEntry1_of_none (balanceTarget_of_birth hb₂')] at heq
      rw [heq]
      refine ⟨hb₂', fun i hi => ?_⟩
      have hi₁ : Live e₁ i := by
        show (e₁.copyList i).state.live = true
        rw [hkeep₁ i hi]
        exact hi
      exact (hkeep₂ i hi₁).trans (hkeep₁ i hi)

theorem balanceMove_birth (core : CalcCore) (c : Nat) (e : PtEntry)
    (version : Nat) (x : CalcElem) :
    (balanceMove core c e version x).birthVersion = version := by
  unfold balanceMove viewCalcUpdateCopyKeepAlive
  split
  · rfl
  · rfl

/-- **ONE MOVE**: a partition with all its copies is left alone until a visit
    moves one of them, and after that again. -/
theorem placing_full (h : Placing core version G e k e')
    (hk : k ≤ core.copyNum) (hp : Placed core.copyNum e) :
    (e' = e ∧ ∀ c < k, ∃ busy, G c e busy ∧
      balanceTarget core c e version busy = none) ∨
    ∃ c < k, ∃ busy index x, G c e busy ∧
      balanceTarget core c e version busy = some (index, x) ∧
      e' = balanceMove core c e version x ∧
      ∀ i < c, ∃ busy, G i e busy ∧
        balanceTarget core i e version busy = none := by
  induction h with
  | start => exact Or.inl ⟨rfl, fun c hc => absurd hc (Nat.not_lt_zero c)⟩
  | @round c e₁ e₂ e₃ hplacing hrefill hbal ih =>
      have hc : c < core.copyNum := hk
      obtain ⟨busy, hG, heq⟩ := hbal
      rcases ih hc.le with ⟨rfl, hnone⟩ | ⟨c₁, hc₁, busy₁, index, x, hG₁,
        htarget₁, hmove, hbefore⟩
      · have hsame := refill_of_filled hp.sparse hc (hp.filled c hc) hrefill
        rw [hsame] at hG heq
        cases htarget : balanceTarget core c e₁ version busy with
        | none =>
            refine Or.inl ⟨heq.trans (buildPtEntry1_of_none htarget), ?_⟩
            intro i hi
            by_cases hic : i = c
            · rw [hic]
              exact ⟨busy, hG, htarget⟩
            · exact hnone i (by omega)
        | some r =>
            have hsome : balanceTarget core c e₁ version busy =
                some (r.1, r.2) := htarget
            exact Or.inr ⟨c, Nat.lt_succ_self c, busy, r.1, r.2, hG, htarget,
              heq.trans (buildPtEntry1_of_some hsome), hnone⟩
      · -- the partition has moved a copy in an earlier round
        obtain ⟨hs, hf⟩ : Sparse core.copyNum e₁ ∧
            FilledTo core.copyNum core.copyNum e₁ := by
          rw [hmove]
          obtain ⟨hs, hf⟩ := moveCopy_placed version
            (by omega : c₁ < core.copyNum) (Nat.le_refl _) hp.sparse hp.filled
            (balanceTarget_some htarget₁).2
          have hka := samePlace_calcKeepAlive core (moveCopy core c₁ e version x)
          exact ⟨hka.sparse hs, hka.filledTo hf⟩
        have hsame := refill_of_filled hs hc (hf c hc) hrefill
        have hbirth : e₁.birthVersion = version :=
          hmove ▸ balanceMove_birth ..
        rw [hsame, buildPtEntry1_of_none (balanceTarget_of_birth hbirth)] at heq
        exact Or.inr ⟨c₁, by omega, busy₁, index, x, hG₁, htarget₁,
          heq.trans hmove, hbefore⟩

end Fate

/-! ## Closing -/

section Closing

variable {core : CalcCore} {event : Option CmEventType} {e : PtEntry}

/-- The data-loss promotion starts a recovering copy and changes no other
    state. -/
theorem promoteEntry_state (core : CalcCore) (e : PtEntry) (i : Nat) :
    ((promoteEntry core e).copyList i).state = (e.copyList i).state ∨
    ((e.copyList i).state = .recovery ∧
      ((promoteEntry core e).copyList i).state = .running ∧
      survivorNum core e < core.minCopyNum) := by
  by_cases hlost : survivorNum core e < core.minCopyNum
  · have hind := promoteEntry_induct (P := fun e' : PtEntry =>
        (e'.copyList i).state = (e.copyList i).state ∨
        ((e.copyList i).state = .recovery ∧
          (e'.copyList i).state = .running)) core (Or.inl rfl) (by
      intro st j h
      unfold promoteSlot
      dsimp only
      split
      · exact h
      · split
        · exact h
        · split
          · rename_i hrec
            rw [setCopy_apply]
            by_cases hij : i = j
            · subst hij
              rw [if_pos rfl]
              rcases h with h | ⟨-, hrun⟩
              · exact Or.inr ⟨h.symm.trans hrec, rfl⟩
              · rw [hrec] at hrun
                exact nomatch hrun
            · rw [if_neg hij]
              exact h
          · split
            · rw [setCopy_apply]
              by_cases hij : i = j
              · subst hij
                rw [if_pos rfl]
                exact h
              · rw [if_neg hij]
                exact h
            · exact h)
    exact hind.imp id fun h => ⟨h.1, h.2, hlost⟩
  · refine Or.inl ?_
    rw [promoteEntry, if_neg hlost]

/-- A slot whose copy is where it was before the closing. -/
theorem closeEntry_slot (event : Option CmEventType) {placed : PtEntry}
    {c : Nat}
    (hs : Sparse core.copyNum placed) (hc : c < core.copyNum)
    (hl : Live placed (slotIndex core.copyNum e c))
    (hdisk : (placed.copyList (slotIndex core.copyNum e c)).disk =
      (slotCopy core.copyNum e c).disk)
    (hstate : (placed.copyList (slotIndex core.copyNum e c)).state =
      (slotCopy core.copyNum e c).state) :
    (slotCopy core.copyNum (closeEntry core event placed) c).disk =
      (slotCopy core.copyNum e c).disk ∧
    ((slotCopy core.copyNum (closeEntry core event placed) c).state =
        (slotCopy core.copyNum e c).state ∨
      ((slotCopy core.copyNum e c).state = .recovery ∧
        (slotCopy core.copyNum (closeEntry core event placed) c).state =
          .running ∧
        survivorNum core placed < core.minCopyNum)) := by
  have hsame := sameDisks_closeEntry core event placed
  have hplace := samePlace_closeEntry core event placed
  have hidx : slotIndex core.copyNum (closeEntry core event placed) c =
      slotIndex core.copyNum e c := by
    refine (hplace.sparse hs).slotIndex_eq hc ?_ (hsame.live _ hl)
    rw [slotIndex]
    split
    · exact Or.inl rfl
    · exact Or.inr rfl
  have hcopies := (closeEntry_frame core event placed).1
  rw [slotCopy, hidx]
  refine ⟨?_, ?_⟩
  · exact (Prod.ext (hsame.node _) (hsame.disk _)).trans hdisk
  · rw [hcopies, ← hstate]
    exact promoteEntry_state core placed _

end Closing

/-! ## What became of the copies -/

/-- The copy of slot `c` lies on another disk than before. -/
def Replaced (m : Nat) (e e' : PtEntry) (c : Nat) : Prop :=
  (slotCopy m e' c).disk ≠ (slotCopy m e c).disk

/-- The copy of slot `c` neither left the cluster nor lacks the data. -/
def Survivor (nodeList : NodeInfoList) (stateList : NodeStateList) (m : Nat)
    (e : PtEntry) (c : Nat) : Prop :=
  ¬ Expired nodeList stateList m e c ∧ (slotCopy m e c).holdsData = true

/-- What a rebalance can make of a partition: it loses copies to the eviction
    and keeps the others, it is left alone, or it moves one copy. -/
inductive Fate (core : CalcCore) (nodeList : NodeInfoList)
    (stateList : NodeStateList) (event : Option CmEventType) (version : Nat)
    (G : Nat → PtEntry → List CalcElem → Prop) (e : PtEntry) :
    PtEntry → Prop where
  | evicted (placed : PtEntry)
      (expired : ∃ c < core.copyNum,
        Expired nodeList stateList core.copyNum e c)
      (sparse : Sparse core.copyNum placed)
      (still : ∀ c, ¬ Expired nodeList stateList core.copyNum e c →
        c < core.copyNum → placed.copyList (slotIndex core.copyNum e c) =
          slotCopy core.copyNum e c) :
      Fate core nodeList stateList event version G e
        (closeEntry core event placed)
  | left
      (joined : ∀ c < core.copyNum,
        ¬ Expired nodeList stateList core.copyNum e c)
      (stays : ∀ c < core.copyNum, ∃ busy, G c e busy ∧
        balanceTarget core c e version busy = none) :
      Fate core nodeList stateList event version G e (closeEntry core event e)
  | moved (c : Nat) (busy : List CalcElem) (index : Nat) (x : CalcElem)
      (joined : ∀ c < core.copyNum,
        ¬ Expired nodeList stateList core.copyNum e c)
      (lt : c < core.copyNum) (visit : G c e busy)
      (target : balanceTarget core c e version busy = some (index, x))
      (before : ∀ i < c, ∃ busy, G i e busy ∧
        balanceTarget core i e version busy = none) :
      Fate core nodeList stateList event version G e
        (closeEntry core event (balanceMove core c e version x))

section Fates

variable {core : CalcCore} {nodeList : NodeInfoList}
  {stateList : NodeStateList} {event : Option CmEventType} {version : Nat}
  {G : Nat → PtEntry → List CalcElem → Prop} {e e' placed : PtEntry}

theorem Placed.live_slot {m c : Nat} (h : Placed m e) (hc : c < m) :
    Live e (slotIndex m e c) := h.live_liveIndex hc

theorem fate_of_placing (hp : Placed core.copyNum e)
    (h : Placing core version G
      (evictEntry core nodeList stateList version e) core.copyNum placed) :
    Fate core nodeList stateList event version G e
      (closeEntry core event placed) := by
  by_cases hexp : ∃ c < core.copyNum,
      Expired nodeList stateList core.copyNum e c
  · obtain ⟨c₀, hc₀, hc₀exp⟩ := hexp
    have hs : Sparse core.copyNum
        (evictEntry core nodeList stateList version e) :=
      sparse_evictEntry hp.sparse
    refine .evicted placed ⟨c₀, hc₀, hc₀exp⟩
      (placing_placed h (Nat.le_refl _) hs).1 ?_
    intro c hc hlt
    have hkept : (evictEntry core nodeList stateList version e).copyList
        (slotIndex core.copyNum e c) = slotCopy core.copyNum e c :=
      evictEntry_of_not hc
    rw [(placing_evicted h (Nat.le_refl _) hs
      (evictEntry_of_expired hc₀ hc₀exp).2).2 _ ?_, hkept]
    show PtCopyState.live _ = true
    rw [hkept]
    exact hp.live_slot hlt
  · have hnone : ∀ c < core.copyNum,
        ¬ Expired nodeList stateList core.copyNum e c :=
      fun c hc hc' => hexp ⟨c, hc, hc'⟩
    rw [evictEntry_of_none hnone] at h
    rcases placing_full h (Nat.le_refl _) hp with ⟨rfl, hstays⟩ |
      ⟨c, hc, busy, index, x, hG, htarget, rfl, hbefore⟩
    · exact .left hnone hstays
    · exact .moved c busy index x hnone hc hG htarget hbefore

/-- Without a survivor in the placed entry there was none before. -/
theorem not_survivor (hmin : core.minCopyNum = 1)
    (hstill : ∀ c, ¬ Expired nodeList stateList core.copyNum e c →
      c < core.copyNum → placed.copyList (slotIndex core.copyNum e c) =
        slotCopy core.copyNum e c)
    (hlost : survivorNum core placed < core.minCopyNum) :
    ∀ i < core.copyNum, ¬ Survivor nodeList stateList core.copyNum e i := by
  rintro i hi ⟨hexp, hdata⟩
  have hidx : slotIndex core.copyNum e i < 2 * core.copyNum := by
    rw [slotIndex]
    split
    · omega
    · omega
  have hpos : 0 < survivorNum core placed := survivorNum_pos hidx (by
    rw [hstill i hexp hi]
    exact hdata)
  omega

/-- Copies that are where they were are not replaced, and keep their state. -/
theorem still_kept (event : Option CmEventType)
    (hmin : core.minCopyNum = 1) (hp : Placed core.copyNum e)
    (hs : Sparse core.copyNum placed)
    (hstill : ∀ c, ¬ Expired nodeList stateList core.copyNum e c →
      c < core.copyNum → placed.copyList (slotIndex core.copyNum e c) =
        slotCopy core.copyNum e c)
    {c : Nat} (hc : c < core.copyNum)
    (hexp : ¬ Expired nodeList stateList core.copyNum e c) :
    ¬ Replaced core.copyNum e (closeEntry core event placed) c ∧
    ((slotCopy core.copyNum (closeEntry core event placed) c).state =
        (slotCopy core.copyNum e c).state ∨
      ((slotCopy core.copyNum e c).state = .recovery ∧
        (slotCopy core.copyNum (closeEntry core event placed) c).state =
          .running ∧
        ∀ i < core.copyNum,
          ¬ Survivor nodeList stateList core.copyNum e i)) := by
  have hcopy := hstill c hexp hc
  have hlive : Live placed (slotIndex core.copyNum e c) := by
    show PtCopyState.live _ = true
    rw [hcopy]
    exact hp.live_slot hc
  obtain ⟨hdisk, hstate⟩ := closeEntry_slot event hs hc
    hlive (congrArg PtEntryCopy.disk hcopy) (congrArg PtEntryCopy.state hcopy)
  refine ⟨fun hr => hr hdisk, hstate.imp id ?_⟩
  rintro ⟨hrec, hrun, hlost⟩
  exact ⟨hrec, hrun, not_survivor hmin hstill hlost⟩

/-- The master of a partition whose copies may move runs in another slot. -/
theorem master_slot {c index : Nat} (hp : Placed core.copyNum e)
    (hlaw : Lawful 1 core.copyNum e)
    (hpre : viewCalcBuildPreCheck core c e version = some index) :
    ∃ i < core.copyNum, i ≠ c ∧
      (slotCopy core.copyNum e i).state = .running := by
  obtain ⟨-, hstate, hindex, hmaster⟩ := preCheck_some hpre
  have hpos : 1 ≤ e.runningNum := by
    by_contra hlt
    have hfault : ptStateOf e.runningNum 1 core.copyNum = .fault :=
      if_pos (by omega)
    rcases hlaw.told with h | ⟨h, -⟩
    · rw [h, hfault] at hstate
      rcases hstate with hstate | hstate
      · exact nomatch hstate
      · exact nomatch hstate
    · rw [h] at hstate
      rcases hstate with hstate | hstate
      · exact nomatch hstate
      · exact nomatch hstate
  obtain ⟨i, hi, hnode, hdisk⟩ := hlaw.mastered
    (List.length_pos_iff.mp hpos)
  have hrun := (mem_runningList.mp hi).2
  have hlive : Live e i := by
    show PtCopyState.live _ = true
    rw [hrun]
    rfl
  have hlt := hp.sparse.runningList_lt hi
  obtain ⟨j, hj, hij⟩ : ∃ j < core.copyNum, i = j ∨ i = j + core.copyNum := by
    by_cases him : i < core.copyNum
    · exact ⟨i, him, Or.inl rfl⟩
    · exact ⟨i - core.copyNum, by omega, Or.inr (by omega)⟩
  have hidx := hp.sparse.slotIndex_eq hj hij hlive
  refine ⟨j, hj, ?_, by rw [slotCopy, hidx]; exact hrun⟩
  rintro rfl
  rw [hindex, hidx] at hmaster
  exact hmaster ⟨hnode.symm, hdisk.symm⟩

/-- **MOVED**: one copy changes its disk, and no state changes. -/
theorem moved_slots (event : Option CmEventType) {c index : Nat} {x : CalcElem} {busy : List CalcElem}
    (hmin : core.minCopyNum = 1) (hp : Placed core.copyNum e)
    (hlaw : Lawful 1 core.copyNum e) (hc : c < core.copyNum)
    (htarget : balanceTarget core c e version busy = some (index, x)) :
    (slotCopy core.copyNum (closeEntry core event
        (balanceMove core c e version x)) c).disk = x.disk ∧
    ∀ i < core.copyNum, i ≠ c →
      (slotCopy core.copyNum (closeEntry core event
          (balanceMove core c e version x)) i).disk =
        (slotCopy core.copyNum e i).disk ∧
      (slotCopy core.copyNum (closeEntry core event
          (balanceMove core c e version x)) i).state =
        (slotCopy core.copyNum e i).state := by
  have hm : 0 < core.copyNum := Nat.zero_lt_of_lt hc
  obtain ⟨hpre, hfree⟩ := balanceTarget_some htarget
  have hs : Sparse core.copyNum (balanceMove core c e version x) := by
    have hmove := (moveCopy_placed version hc (Nat.le_refl _)
      hp.sparse hp.filled hfree).1
    exact (samePlace_calcKeepAlive core _).sparse hmove
  have hother : ∀ i < core.copyNum, i ≠ c →
      ((balanceMove core c e version x).copyList
          (slotIndex core.copyNum e i)).state =
        (slotCopy core.copyNum e i).state ∧
      ((balanceMove core c e version x).copyList
          (slotIndex core.copyNum e i)).disk =
        (slotCopy core.copyNum e i).disk := by
    intro i hi hic
    obtain ⟨hidx, hcopy⟩ := slotCopy_balanceMove_ne version e hm x hi hc hic
    rw [← hidx]
    exact hcopy
  -- the master survives, so nothing is promoted
  obtain ⟨j, hj, hjc, hrun⟩ := master_slot hp hlaw hpre
  have hsurvive : ¬ survivorNum core (balanceMove core c e version x) <
      core.minCopyNum := by
    have hidx : slotIndex core.copyNum e j < 2 * core.copyNum := by
      rw [slotIndex]
      split
      · omega
      · omega
    have hdata : ((balanceMove core c e version x).copyList
        (slotIndex core.copyNum e j)).holdsData = true := by
      unfold PtEntryCopy.holdsData
      rw [(hother j hj hjc).1, hrun]
      rfl
    have hpos := survivorNum_pos hidx hdata
    omega
  refine ⟨?_, ?_⟩
  · have hplace : Live (balanceMove core c e version x)
        (c + core.copyNum) := by
      show PtCopyState.live _ = true
      rw [(balanceMove_copies x _).1, moveCopy_apply hm, if_neg (by omega),
        if_pos rfl]
      rfl
    have hidx : slotIndex core.copyNum (balanceMove core c e version x) c =
        c + core.copyNum := slotIndex_balanceMove hm x
    have hslot := closeEntry_slot event (e := balanceMove core c e version x)
      hs hc (by rw [hidx]; exact hplace) rfl rfl
    rw [hslot.1]
    exact slotCopy_balanceMove hm x
  · intro i hi hic
    have hlive : Live (balanceMove core c e version x)
        (slotIndex core.copyNum e i) := by
      show PtCopyState.live _ = true
      rw [(hother i hi hic).1]
      exact hp.live_slot hi
    obtain ⟨hdisk, hstate⟩ := closeEntry_slot event hs hi
      hlive (hother i hi hic).2 (hother i hi hic).1
    exact ⟨hdisk, hstate.resolve_right fun h => hsurvive h.2.2⟩

end Fates

end UbsIo.Pt
