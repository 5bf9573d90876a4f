import UbsIo.Lib.Stops
import UbsIo.Pt.KeepAlive

/-! # Slots without a copy are blank

    The calculator looks up the disk of a slot without asking whether the copy
    is live: with a dead settled copy it reads the replacement, dead or not.
    That is harmless because every path that gives a copy up also clears its
    node and disk, so in every reachable view an index without a live copy names
    no disk (`viewBlank_reachable`). -/

namespace UbsIo.Pt

open UbsIo.Lib Relation

/-- An index without a live copy names no node and no disk. -/
def Blank (e : PtEntry) : Prop :=
  ∀ i, ¬ Live e i →
    (e.copyList i).nodeId = nodeIdInvalid ∧
    (e.copyList i).diskId = diskIdInvalid

/-- The same disks, and no live copy fewer. -/
structure SameDisks (e e' : PtEntry) : Prop where
  live : ∀ i, Live e i → Live e' i
  node : ∀ i, (e'.copyList i).nodeId = (e.copyList i).nodeId
  disk : ∀ i, (e'.copyList i).diskId = (e.copyList i).diskId

theorem SameDisks.blank {e e' : PtEntry} (h : SameDisks e e')
    (hb : Blank e) : Blank e' := by
  intro i hi
  rw [h.node, h.disk]
  exact hb i fun hl => hi (h.live i hl)

theorem SameDisks.trans {e₁ e₂ e₃ : PtEntry} (h₁ : SameDisks e₁ e₂)
    (h₂ : SameDisks e₂ e₃) : SameDisks e₁ e₃ where
  live i hi := h₂.live i (h₁.live i hi)
  node i := (h₂.node i).trans (h₁.node i)
  disk i := (h₂.disk i).trans (h₁.disk i)

theorem sameDisks_of_copies {e e' : PtEntry}
    (h : e'.copyList = e.copyList) : SameDisks e e' where
  live i hi := by
    show (e'.copyList i).state.live = true
    rw [h]
    exact hi
  node i := by rw [h]
  disk i := by rw [h]

theorem sameDisks_setCopy {e : PtEntry} {i : Nat} {c : PtEntryCopy}
    (hl : c.state.live = true) (hn : c.nodeId = (e.copyList i).nodeId)
    (hd : c.diskId = (e.copyList i).diskId) :
    SameDisks e (e.setCopy i c) where
  live j hj := by
    show ((e.setCopy i c).copyList j).state.live = true
    rw [setCopy_apply]
    split
    · exact hl
    · exact hj
  node j := by
    rw [setCopy_apply]
    split
    · rename_i h
      rw [h, hn]
    · rfl
  disk j := by
    rw [setCopy_apply]
    split
    · rename_i h
      rw [h, hd]
    · rfl

theorem sameDisks_setState {e : PtEntry} {i : Nat} {s : PtCopyState}
    (h : s.live = true) : SameDisks e (e.setState i s) :=
  sameDisks_setCopy h rfl rfl

theorem sameDisks_setRunningKeepAlive (e : PtEntry) (b : Bool) :
    SameDisks e (e.setRunningKeepAlive b) where
  live i hi := by
    show ((e.setRunningKeepAlive b).copyList i).state.live = true
    rw [setRunningKeepAlive_apply]
    split
    · exact hi
    · exact hi
  node i := by
    rw [setRunningKeepAlive_apply]
    split
    · rfl
    · rfl
  disk i := by
    rw [setRunningKeepAlive_apply]
    split
    · rfl
    · rfl

theorem sameDisks_updateCopyKeepAlive (e : PtEntry) (k : Nat) :
    SameDisks e (viewPtUpdateCopyKeepAlive e k) := by
  rcases updateCopyKeepAlive_cases e k with h | ⟨b, h⟩
  · exact sameDisks_of_copies (congrArg PtEntry.copyList h)
  · rw [h]
    exact sameDisks_setRunningKeepAlive e b

theorem sameDisks_updatePtState (e : PtEntry) (k n : Nat) :
    SameDisks e (viewPtEntryUpdatePtState e k n) :=
  sameDisks_of_copies (updatePtState_copyList e k n)

theorem sameDisks_updateCopyState (e : PtEntry) (i k : Nat) :
    SameDisks e (viewPtUpdateCopyState e i k) := by
  unfold viewPtUpdateCopyState
  split
  · exact sameDisks_setState rfl
  · split
    · exact sameDisks_setState rfl
    · exact sameDisks_setState rfl

/-! ## Reports -/

theorem sameDisks_runningDown (e : PtEntry) (i k n : Nat) :
    SameDisks e (runningDown e i k n) := by
  have hdown : SameDisks e { e.setState i .down with
      referNum := e.referNum + 1 } :=
    (sameDisks_setState rfl).trans (sameDisks_of_copies rfl)
  exact (hdown.trans (sameDisks_updateCopyKeepAlive _ k)).trans
    (sameDisks_updatePtState _ k n)

/-- The trim takes a replacement over and clears where it was. -/
theorem blank_trimmed {m : Nat} {e e' : PtEntry} (h : Trimmed m e e')
    (hb : Blank e) : Blank e' := by
  intro i hi
  have hi' : ¬ (e'.copyList i).state.live = true := hi
  have hold : ∀ j, e'.copyList i = e.copyList j →
      (e'.copyList i).nodeId = nodeIdInvalid ∧
      (e'.copyList i).diskId = diskIdInvalid := by
    intro j hj
    rw [hj] at hi' ⊢
    exact hb j hi'
  have hcopy := trimSlots_copyList e m (Nat.le_refl m) i
  rw [← h.copyList] at hcopy
  by_cases hbase : i < m
  · rw [if_pos hbase, trimmedBase] at hcopy
    split at hcopy
    · exact hold i hcopy
    · split at hcopy
      · exact hold (i + m) hcopy
      · exact hold i hcopy
  · rw [if_neg hbase] at hcopy
    split at hcopy
    · rename_i hext
      rw [trimmedExt] at hcopy
      split at hcopy
      · exact hold (i - m + m) hcopy
      · split at hcopy
        · rw [hcopy]
          exact ⟨rfl, rfl⟩
        · exact hold (i - m + m) hcopy
    · exact hold i hcopy

theorem blank_touch {l : PtEntryList} {e e' : PtEntry} (h : Touch l e e')
    (hb : Blank e) : Blank e' := by
  cases h with
  | runningDown i hi hs => exact (sameDisks_runningDown e i _ _).blank hb
  | recoveryDown i hi hs =>
      exact ((sameDisks_setState rfl).trans (sameDisks_of_copies rfl)).blank hb
  | backUp i hi hs =>
      have hrefer : SameDisks e { e with referNum := e.referNum + 1 } :=
        sameDisks_of_copies rfl
      exact ((hrefer.trans (sameDisks_updateCopyState _ i _)).trans
        (sameDisks_updatePtState _ _ _)).blank hb
  | finished i hi hs hsat masterList nodeId validNum =>
      have hstart : SameDisks e (finishStart e i l.minCopyNum) :=
        (sameDisks_setState rfl).trans (sameDisks_updateCopyKeepAlive _ _)
      rcases finishCopy_cases e i l masterList nodeId validNum with
        ⟨-, heq⟩ | ⟨-, htrim⟩
      · rw [heq]
        exact (hstart.trans (sameDisks_updatePtState _ _ _)).blank hb
      · exact blank_trimmed htrim (hstart.blank hb)

/-! ## Placement and rebalance -/

/-- Overwriting an index by a live copy or by nothing. -/
theorem blank_setCopy {e : PtEntry} {i : Nat} {c : PtEntryCopy}
    (hb : Blank e) (h : c.state.live = true ∨
      (c.nodeId = nodeIdInvalid ∧ c.diskId = diskIdInvalid)) :
    Blank (e.setCopy i c) := by
  intro j hj
  have hj' : ¬ ((e.setCopy i c).copyList j).state.live = true := hj
  rw [setCopy_apply] at hj' ⊢
  by_cases hji : j = i
  · rw [if_pos hji] at hj' ⊢
    exact h.resolve_left hj'
  · rw [if_neg hji] at hj' ⊢
    exact hb j hj'

theorem blank_evictEntry {core : CalcCore} {nodeList : NodeInfoList}
    {stateList : NodeStateList} {version : Nat} {e : PtEntry}
    (hb : Blank e) : Blank (evictEntry core nodeList stateList version e) := by
  intro j hj
  have hj' : ¬ ((evictEntry core nodeList stateList version e).copyList
    j).state.live = true := hj
  rcases (evicted_evictEntry core nodeList stateList version e).copies j with
    h | ⟨h, -⟩
  · rw [h] at hj' ⊢
    exact hb j hj'
  · rw [h]
    exact ⟨rfl, rfl⟩

theorem blank_fillCopy {core : CalcCore} {c : Nat} {e : PtEntry}
    {x : CalcElem} (hb : Blank e) : Blank (fillCopy core c e x) := by
  unfold fillCopy
  split
  · exact blank_setCopy hb (Or.inl rfl)
  · exact blank_setCopy hb (Or.inl rfl)

theorem blank_refill {core : CalcCore} {c : Nat} {e e' : PtEntry}
    (h : Refill core c e e') (hb : Blank e) : Blank e' := by
  rcases refill_cases h with ⟨heq, -⟩ | ⟨-, -, x, -, heq⟩
  · rw [heq]
    exact hb
  · rw [heq]
    exact blank_fillCopy hb

theorem sameDisks_calcKeepAlive (core : CalcCore) (e : PtEntry) :
    SameDisks e (viewCalcUpdateCopyKeepAlive core e) := by
  unfold viewCalcUpdateCopyKeepAlive
  split
  · exact sameDisks_of_copies rfl
  · exact sameDisks_setRunningKeepAlive e true

theorem blank_balanceMove {core : CalcCore} {c version : Nat} {e : PtEntry}
    {x : CalcElem} (hb : Blank e) : Blank (balanceMove core c e version x) := by
  have hmove : Blank (moveCopy core c e version x) :=
    blank_setCopy (blank_setCopy hb (Or.inr ⟨rfl, rfl⟩)) (Or.inl rfl)
  exact (sameDisks_calcKeepAlive core _).blank hmove

theorem blank_balance {core : CalcCore} {c version : Nat}
    {G : Nat → PtEntry → List CalcElem → Prop} {e e' : PtEntry}
    (h : Balance core version G c e e') (hb : Blank e) : Blank e' := by
  obtain ⟨busy, -, heq⟩ := h
  rw [heq]
  rcases buildPtEntry1_cases core c e version busy with
    ⟨-, hsame⟩ | ⟨index, x, -, hmove⟩
  · rw [hsame]
    exact hb
  · rw [hmove]
    exact blank_balanceMove hb

theorem blank_placing {core : CalcCore} {version k : Nat}
    {G : Nat → PtEntry → List CalcElem → Prop} {e e' : PtEntry}
    (h : Placing core version G e k e') (hb : Blank e) : Blank e' := by
  induction h with
  | start => exact hb
  | round _ hrefill hbal ih => exact blank_balance hbal (blank_refill hrefill ih)

theorem sameDisks_promoteSlot (st : PtEntry × Nat) (i : Nat) :
    SameDisks st.1 (promoteSlot st i).1 := by
  unfold promoteSlot
  dsimp only
  split
  · exact sameDisks_of_copies rfl
  · split
    · exact sameDisks_of_copies rfl
    · split
      · exact sameDisks_setCopy rfl rfl rfl
      · split
        · rename_i hdown
          exact sameDisks_setCopy (by rw [hdown]; rfl) rfl rfl
        · exact sameDisks_of_copies rfl

theorem sameDisks_closeEntry (core : CalcCore) (event : Option CmEventType)
    (e : PtEntry) : SameDisks e (closeEntry core event e) := by
  have hpromote : SameDisks e (promoteEntry core e) :=
    promoteEntry_induct (P := SameDisks e) core (sameDisks_of_copies rfl)
      fun st i h => h.trans (sameDisks_promoteSlot st i)
  exact hpromote.trans
    (sameDisks_of_copies (closeEntry_frame core event e).1)

theorem blank_rebalanced {core : CalcCore} {nodeList : NodeInfoList}
    {stateList : NodeStateList} {event : Option CmEventType} {version : Nat}
    {G : Nat → PtEntry → List CalcElem → Prop} {e e' : PtEntry}
    (h : Rebalanced core nodeList stateList event version G e e')
    (hb : Blank e) : Blank e' := by
  obtain ⟨placed, hplacing, heq⟩ := h
  rw [heq]
  exact (sameDisks_closeEntry core event placed).blank
    (blank_placing hplacing (blank_evictEntry hb))

/-! ## Every reachable view -/

theorem blank_buildVisit {core : CalcCore} {c : Nat} {e e' : PtEntry}
    {busy busy' : List CalcElem}
    (h : buildVisit core c e busy = some (e', busy')) (hb : Blank e) :
    Blank e' := by
  unfold buildVisit at h
  split at h
  · have heq : e = e' := congrArg Prod.fst (Option.some.inj h)
    rw [← heq]
    exact hb
  · obtain ⟨x, -, heq⟩ := buildPtEntry_cases h
    rw [heq]
    exact blank_fillCopy hb

theorem blank_buildRound {core : CalcCore} {diskNum c : Nat}
    {st st' : List PtEntry × List CalcElem} (hb : ∀ e ∈ st.1, Blank e)
    (h : buildRound core diskNum st c = some st') : ∀ e ∈ st'.1, Blank e := by
  obtain ⟨r, hr, heq⟩ := Option.map_eq_some_iff.mp h
  have hvisit : ∀ e t e' t', True → buildVisit core c e t = some (e', t') →
      Blank e → Blank e' := fun _ _ _ _ _ hv => blank_buildVisit hv
  have hall := traverseSt_forall₂ hvisit st.1 st.2 r.2 r.1
    (visits_of_forall (fun _ _ => trivial) _ _) hr
  rw [← heq]
  exact forall₂_all (fun _ _ hab => hab) hall hb

/-- Every entry is blank where it has no copy, and the number of partitions is
    that of the calculator. -/
structure ViewBlank (core : CalcCore) (l : PtEntryList) : Prop where
  blank : ∀ e ∈ l.ptEntryList, Blank e
  length : l.ptEntryList.length = core.ptNum

theorem viewBlank_initial {core : CalcCore} {nodeList : NodeInfoList}
    {stateList : NodeStateList} {version : Nat} {l : PtEntryList}
    (h : viewCalculatorInitial core nodeList stateList version = some l) :
    ViewBlank core l := by
  unfold viewCalculatorInitial at h
  split at h
  · exact nomatch h
  · obtain ⟨st, hst, heq⟩ := Option.map_eq_some_iff.mp h
    have hrounds := foldlM_some_invariant
      (I := fun st : List PtEntry × List CalcElem =>
        st.1.length = core.ptNum ∧ ∀ e ∈ st.1, Blank e)
      (f := buildRound core _) (fun t c t' hI ht => by
        obtain ⟨r, hr, hrt⟩ := Option.map_eq_some_iff.mp ht
        refine ⟨?_, blank_buildRound hI.2 ht⟩
        rw [← hrt]
        exact (traverseSt_length hr).trans hI.1) ⟨?_, ?_⟩ hst
    · rw [← heq]
      refine ⟨?_, (List.length_map _).trans hrounds.1⟩
      intro e he
      obtain ⟨e₀, he₀, rfl⟩ := List.mem_map.mp he
      exact (sameDisks_of_copies (initialUpdateEntry_frame e₀).1).blank
        (hrounds.2 e₀ he₀)
    · exact (List.length_map _).trans List.length_range
    · intro e he
      obtain ⟨ptId, -, rfl⟩ := List.mem_map.mp he
      exact fun _ _ => ⟨rfl, rfl⟩

theorem ViewBlank.of_entrywise {core : CalcCore} {l l' : PtEntryList}
    {R : PtEntry → PtEntry → Prop} (hl : ViewBlank core l)
    (h : Entrywise R l l') (hR : ∀ e e', R e e' → Blank e → Blank e') :
    ViewBlank core l' where
  blank := forall₂_all hR h.entries hl.blank
  length := h.shape.length.trans hl.length

theorem viewBlank_step {core : CalcCore} {l l' : PtEntryList} {ev : Event}
    (hl : ViewBlank core l) (h : step core l ev = some l') :
    ViewBlank core l' := by
  have htouch : ∀ e e', ReflTransGen (Touch l) e e' → Blank e → Blank e' := by
    intro e e' hr hb
    induction hr with
    | refl => exact hb
    | tail _ ht ih => exact blank_touch ht ih
  cases ev with
  | rebalance nodeList stateList event =>
      obtain ⟨-, hent⟩ := rebalance_entries
        (balanceGuarded_any core nodeList stateList _ _ _) h
      exact hl.of_entrywise hent fun _ _ => blank_rebalanced
  | nodeState nodeId state info =>
      exact hl.of_entrywise
        (step_local (by intro _ _ _ hh; exact nomatch hh) h) htouch
  | finish nodeId ptList nodeNum validNum =>
      exact hl.of_entrywise
        (step_local (by intro _ _ _ hh; exact nomatch hh) h) htouch

/-- **BLANK RUN**: in every reachable view an index without a live copy names
    no disk. -/
theorem viewBlank_reachable {core : CalcCore} {l : PtEntryList}
    (h : Reachable core l) : ViewBlank core l := by
  obtain ⟨nodeList, stateList, version, l₀, events, hinit, hrun⟩ := h
  exact runFrom_invariant (fun _ _ _ hI hs => viewBlank_step hI hs)
    (viewBlank_initial hinit) hrun

end UbsIo.Pt
