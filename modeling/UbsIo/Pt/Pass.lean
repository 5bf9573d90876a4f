import UbsIo.Pt.Loads

/-! # The visits of a rebalance

    A round of `ViewCalcBuildPtEntryList1` is a loop of refill visits followed
    by a loop of balance visits.  `beforeVisit` is the entries and the busy list
    as a balance visit finds them.  With as many normal nodes as copies the pass
    comes to every such visit, and finds a busy list that counts the copies of
    the round as they are then (`beforeVisit_total`).  What the pass makes of
    one partition is the sequence of its visits (`rebalance_at`). -/

namespace UbsIo.Pt

open UbsIo.Lib

/-- The state between two rounds, `c` rounds done. -/
def roundsTo (core : CalcCore) (nodeList : NodeInfoList)
    (stateList : NodeStateList) (version diskNum : Nat)
    (st : List PtEntry × List CalcElem) (c : Nat) :
    Option (List PtEntry × List CalcElem) :=
  (List.range c).foldlM
    (rebalanceRound core nodeList stateList version diskNum) st

/-- The refill of round `c`. -/
def refilled (core : CalcCore) (nodeList : NodeInfoList)
    (stateList : NodeStateList) (c : Nat)
    (st : List PtEntry × List CalcElem) :
    Option (List PtEntry × List CalcElem) :=
  traverseSt (refillVisit core c) st.1
    (viewCalcFillBusyList core c nodeList stateList st.1 st.2)

/-- The entries and the busy list just before the balance visit of partition
    `p` in round `c`. -/
def beforeVisit (core : CalcCore) (nodeList : NodeInfoList)
    (stateList : NodeStateList) (version diskNum : Nat)
    (st : List PtEntry × List CalcElem) (c p : Nat) :
    Option (List PtEntry × List CalcElem) :=
  (roundsTo core nodeList stateList version diskNum st c).bind fun st' =>
    (refilled core nodeList stateList c st').bind fun r =>
      stopAt (balanceVisit core c version) r.1 r.2 p

/-! ## One entry during the pass -/

/-- No live copy is on a node or disk that has left the cluster. -/
def Joined (nodeList : NodeInfoList) (stateList : NodeStateList) (m : Nat)
    (e : PtEntry) : Prop :=
  ∀ i < 2 * m, Live e i → viewCalcCheckNodeIsFault nodeList stateList
    (e.copyList i).nodeId (e.copyList i).diskId = false

/-- What the pass keeps of an entry, with the slots below `k` filled. -/
structure PassEntry (nodeList : NodeInfoList) (stateList : NodeStateList)
    (m k : Nat) (e : PtEntry) : Prop where
  sparse : Sparse m e
  filled : FilledTo m k e
  blank : Blank e
  joined : Joined nodeList stateList m e

section Visits

variable {maxNodeNum : Nat} {core : CalcCore} {nodeList : NodeInfoList}
  {stateList : NodeStateList} {version c p : Nat} {e e' : PtEntry}
  {busy : List CalcElem}

/-- A changed index that takes a normal disk. -/
theorem Joined.of_copies (h : Tables maxNodeNum nodeList stateList)
    {m : Nat} (hj : Joined nodeList stateList m e) {x : CalcElem}
    (hx : NormalDisk nodeList stateList x.nodeId x.diskId)
    (hcopy : ∀ i, (e'.copyList i).disk = x.disk ∨
      (Live e' i → Live e i ∧ (e'.copyList i).disk = (e.copyList i).disk)) :
    Joined nodeList stateList m e' := by
  intro i hlt hi
  rcases hcopy i with hd | hd
  · have hn : (e'.copyList i).nodeId = x.nodeId := congrArg Prod.fst hd
    have hk : (e'.copyList i).diskId = x.diskId := congrArg Prod.snd hd
    rw [hn, hk]
    exact hx.not_fault h
  · obtain ⟨hl, hsame⟩ := hd hi
    have hn : (e'.copyList i).nodeId = (e.copyList i).nodeId :=
      congrArg Prod.fst hsame
    have hk : (e'.copyList i).diskId = (e.copyList i).diskId :=
      congrArg Prod.snd hsame
    rw [hn, hk]
    exact hj i hlt hl

theorem joined_fillCopy (h : Tables maxNodeNum nodeList stateList)
    {m : Nat} (hj : Joined nodeList stateList m e) {x : CalcElem}
    (hx : NormalDisk nodeList stateList x.nodeId x.diskId) :
    Joined nodeList stateList m (fillCopy core c e x) := by
  refine hj.of_copies h hx fun i => ?_
  have hset : ∀ k (y : PtEntryCopy), y.disk = x.disk →
      ((e.setCopy k y).copyList i).disk = x.disk ∨
      (((e.setCopy k y).copyList i).state.live = true →
        Live e i ∧ ((e.setCopy k y).copyList i).disk =
          (e.copyList i).disk) := by
    intro k y hy
    rw [setCopy_apply]
    by_cases hik : i = k
    · rw [if_pos hik]
      exact Or.inl hy
    · rw [if_neg hik]
      exact Or.inr fun hl => ⟨hl, rfl⟩
  unfold fillCopy
  split
  · exact hset c _ rfl
  · exact hset (c + core.copyNum) _ rfl

/-- A copy of an empty slot lies on no normal disk. -/
theorem Blank.notMem (h : Tables maxNodeNum nodeList stateList) {m : Nat}
    (hb : Blank e) (hext : ¬ Live e (c + m)) (hbase : ¬ Live e c) :
    (slotCopy m e c).disk ∉ candidateDisks nodeList stateList := by
  intro hmem
  rw [slotCopy, slotIndex_of_dead hbase] at hmem
  exact (NormalDisk.valid h (mem_candidateDisks.mp hmem)).2 (hb _ hext).2

/-- The refilled slot has its copy on the disk taken. -/
theorem slotCopy_fillCopy (hm : 0 < core.copyNum) (x : CalcElem)
    (hbase : ¬ Live e c) :
    (slotCopy core.copyNum (fillCopy core c e x) c).disk = x.disk := by
  unfold fillCopy
  by_cases hinit : (e.copyList c).state = .init
  · rw [if_pos hinit]
    have hlive : Live (e.setCopy c { e.copyList c with
        nodeId := x.nodeId, diskId := x.diskId, state := .running }) c := by
      show PtCopyState.live _ = true
      rw [setCopy_same]
      rfl
    rw [slotCopy, slotIndex_of_live hlive, setCopy_same]
    rfl
  · rw [if_neg hinit]
    have hdead : ¬ Live (e.setCopy (c + core.copyNum)
        { e.copyList (c + core.copyNum) with
          nodeId := x.nodeId, diskId := x.diskId, state := .recovery }) c := by
      intro hl
      have hl' : ((e.setCopy (c + core.copyNum) _).copyList c).state.live =
        true := hl
      rw [setCopy_of_ne _ _ (by omega)] at hl'
      exact hbase hl'
    show ((e.setCopy _ _).copyList (slotIndex _ (e.setCopy _ _) c)).disk = _
    rw [slotIndex_of_dead hdead, setCopy_same]
    rfl

/-- Among as many normal nodes as copies there is one without a live copy of
    an entry that has an empty slot. -/
theorem Sparse.exists_free (hs : Sparse core.copyNum e)
    (hc : c < core.copyNum)
    (hnorm : core.copyNum ≤ viewCalcNormNodeNum nodeList stateList)
    (hbase : ¬ Live e c) (hext : ¬ Live e (c + core.copyNum)) :
    ∃ x ∈ candidates nodeList stateList, liveOn e x.nodeId = false := by
  obtain ⟨x, hx, hfree⟩ : ∃ x ∈ candidates nodeList stateList,
      x.nodeId ∉ ((List.range core.copyNum).erase c).map fun i =>
        (slotCopy core.copyNum e i).nodeId := by
    refine Pt.exists_free _ ?_
    rw [List.length_map, List.length_erase_of_mem (List.mem_range.mpr hc),
      List.length_range]
    omega
  refine ⟨x, hx, Bool.eq_false_iff.mpr fun hl => hfree ?_⟩
  rw [liveOn, List.any_eq_true] at hl
  obtain ⟨i, hi, hp⟩ := hl
  obtain ⟨hlive, hnode⟩ := Bool.and_eq_true_iff.mp hp
  have hlive' : Live e i := hlive
  have hlt : i < 2 * core.copyNum := by
    rcases hs.extent with h | h
    · rw [h] at hi
      have := List.mem_range.mp hi
      omega
    · rw [h] at hi
      exact List.mem_range.mp hi
  rw [List.mem_map]
  -- the live copy is the copy of its slot
  by_cases hib : i < core.copyNum
  · refine ⟨i, ?_, ?_⟩
    · rw [List.nodup_range.mem_erase_iff, List.mem_range]
      exact ⟨fun heq => hbase (heq ▸ hlive'), hib⟩
    · rw [slotCopy, slotIndex_of_live hlive']
      exact (beq_iff_eq.mp hnode).symm
  · have hsplit : i - core.copyNum + core.copyNum = i := by omega
    have hdead : ¬ Live e (i - core.copyNum) := by
      intro hl
      refine hs.once _ (by omega) hl ?_
      rw [hsplit]
      exact hlive'
    refine ⟨i - core.copyNum, ?_, ?_⟩
    · rw [List.nodup_range.mem_erase_iff, List.mem_range]
      refine ⟨fun heq => hext ?_, by omega⟩
      rw [← heq, hsplit]
      exact hlive'
    · rw [slotCopy, slotIndex_of_dead hdead, hsplit]
      exact (beq_iff_eq.mp hnode).symm

theorem refillVisit_of_dead (hbase : ¬ Live e c)
    (hext : ¬ Live e (c + core.copyNum)) :
    refillVisit core c e busy = viewCalcBuildPtEntry core c e busy := by
  have hb : ¬ (e.copyList c).state.live = true := hbase
  rw [refillVisit, if_neg hb, if_neg fun hh => hext hh.2]

theorem refillVisit_of_live (hs : Sparse core.copyNum e)
    (hc : c < core.copyNum) (h : Live e c ∨ Live e (c + core.copyNum)) :
    refillVisit core c e busy = some (e, busy) := by
  by_cases hbase : Live e c
  · exact if_pos hbase
  · have hb : ¬ (e.copyList c).state.live = true := hbase
    have hext := h.resolve_left hbase
    have hnum := hs.extended c hc hext
    rw [refillVisit, if_neg hb, if_pos ⟨by omega, hext⟩]

/-- **REFILL VISIT**: it succeeds, fills the slot of the round, and the busy
    list stays true. -/
theorem refillVisit_loaded (h : Tables maxNodeNum nodeList stateList)
    (hnorm : core.copyNum ≤ viewCalcNormNodeNum nodeList stateList)
    {es : List PtEntry} (hlen : es.length < 2 ^ 63 - 1)
    (hc : c < core.copyNum) (he : es[p]? = some e)
    (hp : PassEntry nodeList stateList core.copyNum c e)
    (hl : Loaded (candidateDisks nodeList stateList) core.copyNum c es busy) :
    ∃ e' busy', refillVisit core c e busy = some (e', busy') ∧
      PassEntry nodeList stateList core.copyNum (c + 1) e' ∧
      Loaded (candidateDisks nodeList stateList) core.copyNum c
        (es.set p e') busy' := by
  have hpass : ∀ e' busy', refillVisit core c e busy = some (e', busy') →
      Joined nodeList stateList core.copyNum e' →
      PassEntry nodeList stateList core.copyNum (c + 1) e' := by
    intro e' busy' hvisit hj
    obtain ⟨hs, hf⟩ := refill_placed hc ⟨busy, busy', hvisit⟩ hp.sparse
      hp.filled
    exact ⟨hs, hf, blank_refill ⟨busy, busy', hvisit⟩ hp.blank, hj⟩
  by_cases hfilled : Live e c ∨ Live e (c + core.copyNum)
  · have hvisit : refillVisit core c e busy = some (e, busy) :=
      refillVisit_of_live hp.sparse hc hfilled
    refine ⟨e, busy, hvisit, hpass e busy hvisit hp.joined, ?_⟩
    rw [set_same he]
    exact hl
  · obtain ⟨hbase, hext⟩ := not_or.mp hfilled
    obtain ⟨x, hx, hfree⟩ := hp.sparse.exists_free hc hnorm hbase hext
    obtain ⟨y, hy, hyx⟩ := hl.exists_mem
      (List.mem_map_of_mem (f := CalcElem.disk) hx)
    have hsome : (busy.find? fun x => !liveOn e x.nodeId).isSome := by
      refine List.find?_isSome.mpr ⟨y, hy, ?_⟩
      have hnode : y.nodeId = x.nodeId := congrArg Prod.fst hyx
      rw [hnode, hfree]
      rfl
    obtain ⟨z, hz⟩ := Option.isSome_iff_exists.mp hsome
    have hvisit : refillVisit core c e busy = some (fillCopy core c e z,
        viewCalcFillUpdateBusyList busy z.nodeId z.diskId 1) := by
      rw [refillVisit_of_dead hbase hext, viewCalcBuildPtEntry, hz]
    have hnormal : NormalDisk nodeList stateList z.nodeId z.diskId :=
      mem_candidateDisks.mp (hl.mem_keys (List.mem_of_find?_eq_some hz))
    exact ⟨_, _, hvisit, hpass _ _ hvisit (joined_fillCopy h hp.joined hnormal),
      hl.place h.fit.candidates_nodup hlen he (hp.blank.notMem h hext hbase)
        (slotCopy_fillCopy (Nat.zero_lt_of_lt hc) z hbase)⟩

/-! ## One move -/

@[simp] theorem calcKeepAlive_state (core : CalcCore) (e : PtEntry) (i : Nat) :
    ((viewCalcUpdateCopyKeepAlive core e).copyList i).state =
      (e.copyList i).state := by
  unfold viewCalcUpdateCopyKeepAlive
  split
  · rfl
  · rw [setRunningKeepAlive_apply]
    split
    · rfl
    · rfl

/-- The copies after a move, up to the flags. -/
theorem balanceMove_copies (x : CalcElem) (i : Nat) :
    ((balanceMove core c e version x).copyList i).state =
      ((moveCopy core c e version x).copyList i).state ∧
    ((balanceMove core c e version x).copyList i).disk =
      ((moveCopy core c e version x).copyList i).disk := by
  have h := sameDisks_calcKeepAlive core (moveCopy core c e version x)
  exact ⟨calcKeepAlive_state core _ i, Prod.ext (h.node i) (h.disk i)⟩

theorem slotIndex_balanceMove (hm : 0 < core.copyNum) (x : CalcElem) :
    slotIndex core.copyNum (balanceMove core c e version x) c =
      c + core.copyNum := by
  refine slotIndex_of_dead ?_
  intro hl
  have hl' : ((balanceMove core c e version x).copyList c).state.live = true :=
    hl
  rw [(balanceMove_copies x c).1, moveCopy_apply hm, if_pos rfl] at hl'
  exact Bool.noConfusion hl'

/-- A moved copy lies on the disk taken. -/
theorem slotCopy_balanceMove (hm : 0 < core.copyNum) (x : CalcElem) :
    (slotCopy core.copyNum (balanceMove core c e version x) c).disk =
      x.disk := by
  rw [slotCopy, slotIndex_balanceMove hm, (balanceMove_copies x _).2,
    moveCopy_apply hm, if_neg (by omega), if_pos rfl]
  rfl

/-- The other slots keep their copies, up to the flags. -/
theorem slotCopy_balanceMove_ne (version : Nat) (e : PtEntry)
    (hm : 0 < core.copyNum) (x : CalcElem) {i : Nat} (hi : i < core.copyNum) (hc : c < core.copyNum) (hic : i ≠ c) :
    slotIndex core.copyNum (balanceMove core c e version x) i =
      slotIndex core.copyNum e i ∧
    (slotCopy core.copyNum (balanceMove core c e version x) i).state =
      (slotCopy core.copyNum e i).state ∧
    (slotCopy core.copyNum (balanceMove core c e version x) i).disk =
      (slotCopy core.copyNum e i).disk := by
  have hkeep : ∀ j, j ≠ c → j ≠ c + core.copyNum →
      ((balanceMove core c e version x).copyList j).state =
        (e.copyList j).state ∧
      ((balanceMove core c e version x).copyList j).disk =
        (e.copyList j).disk := by
    intro j h1 h2
    obtain ⟨hs, hd⟩ : ((balanceMove core c e version x).copyList j).state =
          ((moveCopy core c e version x).copyList j).state ∧
        ((balanceMove core c e version x).copyList j).disk =
          ((moveCopy core c e version x).copyList j).disk :=
      balanceMove_copies x j
    rw [moveCopy_apply hm, if_neg h1, if_neg h2] at hs hd
    exact ⟨hs, hd⟩
  have hidx : slotIndex core.copyNum (balanceMove core c e version x) i =
      slotIndex core.copyNum e i := by
    rw [slotIndex, slotIndex, (hkeep i hic (by omega)).1]
  refine ⟨hidx, ?_⟩
  have hne : slotIndex core.copyNum e i ≠ c ∧
      slotIndex core.copyNum e i ≠ c + core.copyNum := by
    rw [slotIndex]
    split
    · omega
    · omega
  rw [slotCopy, hidx]
  exact hkeep _ hne.1 hne.2

theorem scanTarget_mem {n : Int} {xs : List CalcElem} {x : CalcElem}
    (h : scanTarget e n xs = some x) : x ∈ xs ∧ x.referNum + 1 < n := by
  induction xs with
  | nil => cases h
  | cons y ys ih =>
      unfold scanTarget at h
      split at h
      · cases h
      · rename_i hlt
        split at h
        · exact ⟨List.mem_cons_of_mem y (ih h).1, (ih h).2⟩
        · rw [← Option.some.inj h]
          exact ⟨List.mem_cons_self .., not_le.mp hlt⟩

/-- The element at which the search for the copy's own disk ends. -/
def startElem (busy : List CalcElem) (last : CalcElem) (d : Nat × Nat) :
    CalcElem :=
  busy.getD (startPos busy d.1 d.2) last

/-- A chosen target is lighter by more than one than the element at which the
    search ended, and its node is new to the entry. -/
theorem balanceTarget_mem {index : Nat} {x : CalcElem}
    (h : balanceTarget core c e version busy = some (index, x)) :
    ∃ last, busy.getLast? = some last ∧ x ∈ busy ∧
      viewCalcPtEntryHasNodeId e x.nodeId = false ∧
      x.referNum + 1 <
        (startElem busy last (slotCopy core.copyNum e c).disk).referNum := by
  obtain ⟨hpre, hfree⟩ := balanceTarget_some h
  obtain ⟨-, -, hindex, -⟩ := preCheck_some hpre
  unfold balanceTarget at h
  split at h
  · rename_i first last _ hlast
    split at h
    · exact nomatch h
    · rw [hpre, Option.bind_some] at h
      dsimp only at h
      split at h
      · exact nomatch h
      · obtain ⟨y, hy, heq⟩ := Option.map_eq_some_iff.mp h
        have hyx : y = x := congrArg Prod.snd heq
        rw [hyx, hindex] at hy
        obtain ⟨hmem, hlt⟩ := scanTarget_mem hy
        exact ⟨last, hlast, List.mem_of_mem_take hmem, hfree, hlt⟩
  · exact nomatch h

theorem joined_balanceMove (h : Tables maxNodeNum nodeList stateList)
    {m : Nat} (hm : 0 < core.copyNum) (hj : Joined nodeList stateList m e)
    {x : CalcElem} (hx : NormalDisk nodeList stateList x.nodeId x.diskId) :
    Joined nodeList stateList m (balanceMove core c e version x) := by
  refine hj.of_copies h hx fun i => ?_
  obtain ⟨hs, hd⟩ : ((balanceMove core c e version x).copyList i).state =
        ((moveCopy core c e version x).copyList i).state ∧
      ((balanceMove core c e version x).copyList i).disk =
        ((moveCopy core c e version x).copyList i).disk :=
    balanceMove_copies x i
  have happ := moveCopy_apply hm c e version x i
  by_cases hic : i = c
  · rw [if_pos hic] at happ
    refine Or.inr fun hl => ?_
    have hl' : ((balanceMove core c e version x).copyList i).state.live =
      true := hl
    rw [hs, happ] at hl'
    exact nomatch hl'
  · rw [if_neg hic] at happ
    by_cases hie : i = c + core.copyNum
    · rw [if_pos hie] at happ
      refine Or.inl ?_
      rw [hd, happ]
      rfl
    · rw [if_neg hie] at happ
      refine Or.inr fun hl => ?_
      have hl' : ((balanceMove core c e version x).copyList i).state.live =
        true := hl
      rw [hs, happ] at hl'
      rw [hd, happ]
      exact ⟨hl', rfl⟩

/-- **BALANCE VISIT**: the entry stays sound, and the busy list true. -/
theorem balanceVisit_loaded (version : Nat)
    (h : Tables maxNodeNum nodeList stateList)
    {es : List PtEntry} (hlen : es.length < 2 ^ 63 - 1)
    (hc : c < core.copyNum) (he : es[p]? = some e)
    (hp : PassEntry nodeList stateList core.copyNum (c + 1) e)
    (hl : Loaded (candidateDisks nodeList stateList) core.copyNum c es busy) :
    PassEntry nodeList stateList core.copyNum (c + 1)
      (viewCalcBuildPtEntry1 core c e version busy).1 ∧
    Loaded (candidateDisks nodeList stateList) core.copyNum c
      (es.set p (viewCalcBuildPtEntry1 core c e version busy).1)
      (viewCalcBuildPtEntry1 core c e version busy).2 := by
  have hm : 0 < core.copyNum := Nat.zero_lt_of_lt hc
  have hbal : Balance core version anyVisit c e
      (viewCalcBuildPtEntry1 core c e version busy).1 := ⟨busy, trivial, rfl⟩
  obtain ⟨hs, hf⟩ := balance_placed hc hc hbal hp.sparse hp.filled
  refine ⟨⟨hs, hf, blank_balance hbal hp.blank, ?_⟩, ?_⟩
  · unfold viewCalcBuildPtEntry1
    split
    · exact hp.joined
    · rename_i index x htarget
      obtain ⟨-, -, hx, -⟩ := balanceTarget_mem htarget
      exact joined_balanceMove h hm hp.joined
        (mem_candidateDisks.mp (hl.mem_keys hx))
  · unfold viewCalcBuildPtEntry1
    split
    · rw [set_same he]
      exact hl
    · rename_i index x htarget
      obtain ⟨-, -, hindex, -⟩ := preCheck_some (balanceTarget_some htarget).1
      rw [hindex]
      exact hl.move h.fit.candidates_nodup hlen he (slotCopy_balanceMove hm x)

/-! ## All visits -/

/-- Round `c` is under way: the busy list counts the entries, of which entry
    `q` is filled below `k q`. -/
structure Underway (nodeList : NodeInfoList) (stateList : NodeStateList)
    (m c n : Nat) (k : Nat → Nat) (es : List PtEntry)
    (busy : List CalcElem) : Prop where
  loaded : Loaded (candidateDisks nodeList stateList) m c es busy
  length : es.length = n
  entries : ∀ q e, es[q]? = some e → PassEntry nodeList stateList m (k q) e

/-- Before round `c` the busy list is idle. -/
structure Between (nodeList : NodeInfoList) (stateList : NodeStateList)
    (m n c : Nat) (st : List PtEntry × List CalcElem) : Prop where
  idle : WorkList CalcElem.disk CalcElem.referNum
    (candidateDisks nodeList stateList) (fun _ => 0) st.2
  length : st.1.length = n
  entries : ∀ e ∈ st.1, PassEntry nodeList stateList m c e

/-- A visit replaces one entry. -/
theorem Underway.set {m n : Nat} {k k' : Nat → Nat} {es : List PtEntry}
    {busy' : List CalcElem} (h : Underway nodeList stateList m c n k es busy)
    (hl : Loaded (candidateDisks nodeList stateList) m c (es.set p e') busy')
    (he : PassEntry nodeList stateList m (k' p) e') (hk : ∀ q, q ≠ p → k' q = k q) :
    Underway nodeList stateList m c n k' (es.set p e') busy' := by
  refine ⟨hl, List.length_set.trans h.length, ?_⟩
  intro q a ha
  by_cases hqp : q = p
  · subst hqp
    rw [List.getElem?_set_self'] at ha
    obtain ⟨b, -, hb⟩ := Option.map_eq_some_iff.mp ha
    rw [← hb]
    exact he
  · rw [List.getElem?_set_ne (Ne.symm hqp)] at ha
    rw [hk q hqp]
    exact h.entries q a ha

/-- The filled busy list of a round. -/
theorem Between.fill (h : Tables maxNodeNum nodeList stateList) {n : Nat}
    (hn : n < 2 ^ 63 - 1) {st : List PtEntry × List CalcElem}
    (hb : Between nodeList stateList core.copyNum n c st) :
    Underway nodeList stateList core.copyNum c n (fun _ => c) st.1
      (viewCalcFillBusyList core c nodeList stateList st.1 st.2) := by
  refine ⟨?_, hb.length, fun q e he =>
    hb.entries e (List.mem_of_getElem? he)⟩
  refine loaded_fill h st.1 [] st.2 (hb.idle.congr fun _ _ => rfl) ?_
  rw [hb.length, List.length_nil]
  omega

section Rounds

variable {n : Nat} {st : List PtEntry × List CalcElem}

/-- The pass comes to every refill visit of a round. -/
theorem refill_stops (h : Tables maxNodeNum nodeList stateList)
    (hnorm : core.copyNum ≤ viewCalcNormNodeNum nodeList stateList)
    (hn : n < 2 ^ 63 - 1) (hc : c < core.copyNum)
    (hb : Between nodeList stateList core.copyNum n c st) :
    ∀ p ≤ n, ∃ es busy,
      stopAt (refillVisit core c) st.1
        (viewCalcFillBusyList core c nodeList stateList st.1 st.2) p =
          some (es, busy) ∧
      Underway nodeList stateList core.copyNum c n
        (fun q => if q < p then c + 1 else c) es busy := by
  intro p hp
  refine stopAt_total (P := fun p es busy => Underway nodeList stateList
    core.copyNum c n (fun q => if q < p then c + 1 else c) es busy)
    (hb.fill h hn) ?_ p (by rw [hb.length]; exact hp)
  intro p es busy e _ he hU
  have hentry := hU.entries p e he
  rw [if_neg (Nat.lt_irrefl p)] at hentry
  obtain ⟨e', busy', hvisit, hpass, hl⟩ := refillVisit_loaded h hnorm
    (by rw [hU.length]; exact hn) hc he hentry hU.loaded
  refine ⟨e', busy', hvisit, hU.set hl ?_ ?_⟩
  · rw [if_pos (Nat.lt_succ_self p)]
    exact hpass
  · intro q hq
    by_cases hqp : q < p
    · rw [if_pos hqp, if_pos (by omega)]
    · rw [if_neg hqp, if_neg (by omega)]

/-- After the refill every entry has its copy of the round. -/
theorem refilled_total (h : Tables maxNodeNum nodeList stateList)
    (hnorm : core.copyNum ≤ viewCalcNormNodeNum nodeList stateList)
    (hn : n < 2 ^ 63 - 1) (hc : c < core.copyNum)
    (hb : Between nodeList stateList core.copyNum n c st) :
    ∃ r, refilled core nodeList stateList c st = some r ∧
      Underway nodeList stateList core.copyNum c n (fun _ => c + 1)
        r.1 r.2 := by
  obtain ⟨es, busy, hstop, hU⟩ := refill_stops h hnorm hn hc hb n
    (Nat.le_refl n)
  rw [← hb.length, stopAt_length] at hstop
  refine ⟨(es, busy), hstop, hU.loaded, hU.length, ?_⟩
  intro q e he
  have hentry := hU.entries q e he
  rw [if_pos] at hentry
  · exact hentry
  · rw [← hU.length]
    exact (List.getElem?_eq_some_iff.mp he).1

/-- The pass comes to every balance visit of a round. -/
theorem balance_stops (version : Nat)
    (h : Tables maxNodeNum nodeList stateList)
    (hn : n < 2 ^ 63 - 1) (hc : c < core.copyNum)
    {r : List PtEntry × List CalcElem}
    (hU : Underway nodeList stateList core.copyNum c n (fun _ => c + 1)
      r.1 r.2) :
    ∀ p ≤ n, ∃ es busy,
      stopAt (balanceVisit core c version) r.1 r.2 p = some (es, busy) ∧
      Underway nodeList stateList core.copyNum c n (fun _ => c + 1)
        es busy := by
  intro p hp
  refine stopAt_total (P := fun _ es busy => Underway nodeList stateList
    core.copyNum c n (fun _ => c + 1) es busy) hU ?_ p
    (by rw [hU.length]; exact hp)
  intro p es busy e _ he hU
  obtain ⟨hpass, hl⟩ := balanceVisit_loaded version h
    (by rw [hU.length]; exact hn) hc he (hU.entries p e he) hU.loaded
  exact ⟨_, _, rfl, hU.set hl hpass fun _ _ => rfl⟩

/-- **ROUND**: a round succeeds. -/
theorem rebalanceRound_total (version : Nat)
    (h : Tables maxNodeNum nodeList stateList)
    (hnorm : core.copyNum ≤ viewCalcNormNodeNum nodeList stateList)
    (hn : n < 2 ^ 63 - 1) (hc : c < core.copyNum) (diskNum : Nat)
    (hb : Between nodeList stateList core.copyNum n c st) :
    ∃ st', rebalanceRound core nodeList stateList version diskNum st c =
        some st' ∧
      Between nodeList stateList core.copyNum n (c + 1) st' := by
  obtain ⟨r, hr, hU⟩ := refilled_total h hnorm hn hc hb
  obtain ⟨es, busy, hstop, hU'⟩ := balance_stops version h hn hc
    hU n (Nat.le_refl n)
  rw [← hU.length, stopAt_length] at hstop
  have hround : rebalanceRound core nodeList stateList version diskNum st c =
      some (es, viewCalcResetBusyList busy diskNum) := by
    have hr' : traverseSt (refillVisit core c) st.1
        (viewCalcFillBusyList core c nodeList stateList st.1 st.2) = some r :=
      hr
    rw [rebalanceRound, hr', Option.bind_some, hstop]
    rfl
  have hreset : Loads (candidateDisks nodeList stateList) c []
      (viewCalcResetBusyList busy diskNum) := loads_reset hU'.loaded.perm diskNum
  refine ⟨_, hround, WorkList.start hreset.perm hreset.refer, hU'.length, ?_⟩
  intro e he
  obtain ⟨q, hq⟩ := List.mem_iff_getElem?.mp he
  exact hU'.entries q e hq

theorem roundsTo_total (version : Nat)
    (h : Tables maxNodeNum nodeList stateList)
    (hnorm : core.copyNum ≤ viewCalcNormNodeNum nodeList stateList)
    (hn : n < 2 ^ 63 - 1) (diskNum : Nat)
    (hb : Between nodeList stateList core.copyNum n 0 st) :
    ∀ k ≤ core.copyNum, ∃ st',
      roundsTo core nodeList stateList version diskNum st k = some st' ∧
      Between nodeList stateList core.copyNum n k st' := by
  intro k
  induction k with
  | zero => exact fun _ => ⟨st, rfl, hb⟩
  | succ k ih =>
      intro hk
      obtain ⟨mid, hmid, hbm⟩ := ih (Nat.le_of_succ_le hk)
      obtain ⟨st', hst', hb'⟩ := rebalanceRound_total version h
        hnorm hn hk diskNum hbm
      refine ⟨st', ?_, hb'⟩
      have hmid' : (List.range k).foldlM (rebalanceRound core nodeList
          stateList version diskNum) st = some mid := hmid
      rw [roundsTo, List.range_succ, List.foldlM_append, hmid']
      show [k].foldlM _ mid = some st'
      rw [List.foldlM_cons, hst']
      rfl

/-- **VISITS**: the pass comes to every balance visit, and finds the copies of
    the round counted. -/
theorem beforeVisit_total (version : Nat)
    (h : Tables maxNodeNum nodeList stateList)
    (hnorm : core.copyNum ≤ viewCalcNormNodeNum nodeList stateList)
    (hn : n < 2 ^ 63 - 1) (diskNum : Nat)
    (hb : Between nodeList stateList core.copyNum n 0 st)
    (hc : c < core.copyNum) (hp : p ≤ n) :
    ∃ es busy, beforeVisit core nodeList stateList version diskNum st c p =
        some (es, busy) ∧
      Underway nodeList stateList core.copyNum c n (fun _ => c + 1)
        es busy := by
  obtain ⟨mid, hmid, hbm⟩ := roundsTo_total version h hnorm hn
    diskNum hb c hc.le
  obtain ⟨r, hr, hU⟩ := refilled_total h hnorm hn hc hbm
  obtain ⟨es, busy, hstop, hU'⟩ := balance_stops version h hn hc
    hU p hp
  refine ⟨es, busy, ?_, hU'⟩
  rw [beforeVisit, hmid, Option.bind_some, hr, Option.bind_some]
  exact hstop

end Rounds

/-! ## The visits of one partition -/

/-- The balance visit of partition `p` in round `c` finds this entry and this
    busy list. -/
def AtVisit (core : CalcCore) (nodeList : NodeInfoList)
    (stateList : NodeStateList) (version diskNum : Nat)
    (st : List PtEntry × List CalcElem) (p c : Nat) (e : PtEntry)
    (busy : List CalcElem) : Prop :=
  ∃ es, beforeVisit core nodeList stateList version diskNum st c p =
    some (es, busy) ∧ es[p]? = some e

/-- The rounds of a partition, visit by visit. -/
theorem rounds_at {diskNum : Nat} {st : List PtEntry × List CalcElem}
    (hp : st.1[p]? = some e) :
    ∀ k st', roundsTo core nodeList stateList version diskNum st k = some st' →
      ∃ e', st'.1[p]? = some e' ∧ Placing core version
        (AtVisit core nodeList stateList version diskNum st p) e k e' := by
  intro k
  induction k with
  | zero =>
      intro st' h
      rw [← Option.some.inj h]
      exact ⟨e, hp, .start⟩
  | succ k ih =>
      intro st' h
      rw [roundsTo, List.range_succ, List.foldlM_append] at h
      obtain ⟨mid, hmid, hround⟩ := Option.bind_eq_some_iff.mp h
      rw [List.foldlM_cons] at hround
      obtain ⟨last, hlast, hret⟩ := Option.bind_eq_some_iff.mp hround
      have hret' : last = st' := Option.some.inj hret
      subst hret'
      unfold rebalanceRound at hlast
      obtain ⟨r, hrefill, hbal⟩ := Option.bind_eq_some_iff.mp hlast
      obtain ⟨r', hr', heq⟩ := Option.map_eq_some_iff.mp hbal
      have hrest : r'.1 = last.1 := by rw [← heq]
      obtain ⟨e₁, he₁, hplacing⟩ := ih mid hmid
      obtain ⟨-, busy₁, e₂, busy₂, -, -, hvisit₁, he₂⟩ :=
        stopAt_visit hrefill he₁
      obtain ⟨es, busy₃, e₃, busy₄, hstop, hes, hvisit₃, he₃⟩ :=
        stopAt_visit hr' he₂
      have hmid' : roundsTo core nodeList stateList version diskNum st k =
          some mid := hmid
      have hrefill' : refilled core nodeList stateList k mid = some r :=
        hrefill
      have hat : AtVisit core nodeList stateList version diskNum st p k e₂
          busy₃ := by
        refine ⟨es, ?_, hes⟩
        rw [beforeVisit, hmid', Option.bind_some, hrefill', Option.bind_some]
        exact hstop
      have hmove : viewCalcBuildPtEntry1 core k e₂ version busy₃ =
          (e₃, busy₄) := Option.some.inj hvisit₃
      rw [← hrest]
      exact ⟨e₃, he₃, .round hplacing ⟨busy₁, busy₂, hvisit₁⟩
        ⟨busy₃, hat, (congrArg Prod.fst hmove).symm⟩⟩

end Visits

end UbsIo.Pt
