import UbsIo.Pt.Placement

/-! # The recovery protocol

    A node that sees its copy of a partition recovering starts a round, syncs
    the data, and reports the partition finished (`MirrorServerCrb`,
    `Cm::ReportPtFinish`).  Nodes work on views that lag behind the server's,
    and reports stay in flight while the server goes on rewriting its view.

    A report names the version the round began with.  The node subtracts the
    `referNum` of its view AT THE TIME OF THE REPORT, and the server compares
    the result with the partition's birth version.  A fault of the copy raises
    only the `referNum`, so a report sent before its node saw the fault still
    matches afterwards.  `Timely` excludes exactly these reports; in every run
    without them no round that a fault interrupted is taken for finished. -/

namespace UbsIo.Pt

open UbsIo.Lib Relation

/-! ## The parties -/

/-- A recovery round, with the birth version and the `referNum` its node
    observed.  `downs` is not in the program: it counts the faults of the copy
    before the round. -/
structure Round where
  nodeId : Nat
  ptId : Nat
  birthVersion : Nat
  referNum : Nat
  downs : Nat
deriving DecidableEq, Repr

/-- The version a finished round reports: the constructor of `CmPtFinish`
    takes it in 16 bits. -/
def Round.version (r : Round) : Nat := (r.birthVersion + r.referNum) % 2 ^ 16

/-- An item of a report, with the round it is for and the `referNum` that was
    subtracted from its version. -/
structure SentItem where
  finish : CmPtFinish
  round : Round
  sentRefer : Nat
deriving DecidableEq, Repr

structure Report where
  nodeId : Nat
  items : List SentItem
deriving DecidableEq, Repr

/-- The server's published views, what each node has seen of them, the rounds
    begun and the reports in flight. -/
structure Sys where
  history : Nat → PtEntryList
  /-- The position of the current view. -/
  now : Nat
  /-- The position of the view each node works on, once it has one. -/
  seen : Nat → Option Nat
  rounds : List Round
  flight : List Report
  /-- How often the copy of a partition on a node went down. -/
  downs : Nat → Nat → Nat

/-- The server's view. -/
def Sys.view (s : Sys) : PtEntryList := s.history s.now

/-- The state of a node's copy, as `Cm::FillPtCopyList` shows it. -/
def copyStateOn (l : PtEntryList) (ptId nodeId : Nat) : Option PtCopyState :=
  (l.ptEntryList[ptId]?).bind fun e =>
    (fillPtCopyList l e).bind fun copys =>
      (copys.find? (·.nodeId == nodeId)).map (·.state)

/-- A running or recovering copy of the node is down in the next view. -/
def wentDown (l l' : PtEntryList) (ptId nodeId : Nat) : Bool :=
  (copyStateOn l ptId nodeId == some .running ||
    copyStateOn l ptId nodeId == some .recovery) &&
  copyStateOn l' ptId nodeId == some .down

/-- The server publishes a new view. -/
def Sys.publish (s : Sys) (l : PtEntryList) : Sys :=
  { s with
    history := Function.update s.history (s.now + 1) l
    now := s.now + 1
    downs := fun nodeId ptId =>
      if wentDown s.view l ptId nodeId then s.downs nodeId ptId + 1
      else s.downs nodeId ptId }

/-- `Cm::ReportPtFinish` on the node's view `l`: a partition the node does not
    know is skipped, a version below the `referNum` fails the call. -/
def reportPtFinish (l : PtEntryList) : List Round → Option (List SentItem)
  | [] => some []
  | r :: rest =>
      match l.ptEntryList[r.ptId]? with
      | none => reportPtFinish l rest
      | some e =>
          if r.version < e.referNum then none
          else (reportPtFinish l rest).map fun items =>
            ⟨⟨r.version - e.referNum, r.ptId⟩, r, e.referNum⟩ :: items

inductive Action where
  /-- A node report or a rebalance at the server. -/
  | server (ev : Event)
  /-- A node receives the view at a position. -/
  | observe (nodeId pos : Nat)
  /-- A node starts a recovery round for its copy. -/
  | start (nodeId ptId : Nat)
  /-- A node reports finished rounds; failed reports are repeated, so rounds
      stay. -/
  | report (nodeId : Nat) (rounds : List Round)
  /-- The server handles one of the reports in flight. -/
  | deliver (pos nodeNum validNum : Nat)
deriving DecidableEq, Repr

/-- The server's loop over the items of a report, as far as `items`. -/
def handleItems (s : Sys) (nodeId nodeNum validNum : Nat)
    (items : List SentItem) : PtEntryList × (Nat → Nat) × Bool :=
  (items.map (·.finish)).foldl (finishItem nodeId validNum)
    (s.view, genMasterList s.view nodeNum, false)

def sysStep (core : CalcCore) (s : Sys) : Action → Option Sys
  | .server (.finish _ _ _ _) => none
  | .server ev => (step core s.view ev).map s.publish
  | .observe nodeId pos =>
      if (s.seen nodeId).getD 0 ≤ pos ∧ pos ≤ s.now then
        some { s with seen := Function.update s.seen nodeId (some pos) }
      else none
  | .start nodeId ptId =>
      (s.seen nodeId).bind fun pos =>
        ((s.history pos).ptEntryList[ptId]?).bind fun e =>
          if copyStateOn (s.history pos) ptId nodeId = some .recovery then
            some { s with rounds := ⟨nodeId, ptId, e.birthVersion, e.referNum,
              s.downs nodeId ptId⟩ :: s.rounds }
          else none
  | .report nodeId rounds =>
      (s.seen nodeId).bind fun pos =>
        if rounds.all fun r => r.nodeId == nodeId && s.rounds.contains r then
          (reportPtFinish (s.history pos) rounds).map fun items =>
            { s with flight := ⟨nodeId, items⟩ :: s.flight }
        else none
  | .deliver pos nodeNum validNum =>
      (s.flight[pos]?).map fun rep =>
        { s.publish (handleItems s rep.nodeId nodeNum validNum rep.items).1 with
          flight := s.flight.eraseIdx pos }

/-- A freshly placed view that no node has seen. -/
def Sys.start (l : PtEntryList) : Sys where
  history := fun _ => l
  now := 0
  seen := fun _ => none
  rounds := []
  flight := []
  downs := fun _ _ => 0

/-- The item is for a round that began before the copy last went down. -/
def Stale (s : Sys) (nodeId : Nat) (item : SentItem) : Prop :=
  item.round.downs < s.downs nodeId item.round.ptId

/-- The server handles a stale item and finds a recovering copy of the node to
    turn into a running one. -/
def AcceptsStale (s : Sys) : Action → Prop
  | .deliver pos nodeNum validNum =>
      ∃ rep before item after, s.flight[pos]? = some rep ∧
        rep.items = before ++ item :: after ∧ Stale s rep.nodeId item ∧
        ∃ e, (handleItems s rep.nodeId nodeNum validNum
            before).1.ptEntryList[item.finish.ptId]? = some e ∧
          (finishEntry rep.nodeId validNum item.finish.birthVersion
            (handleItems s rep.nodeId nodeNum validNum before).1
            (handleItems s rep.nodeId nodeNum validNum before).2.1 e).isSome
  | _ => False

/-- No stale item that the server handles was sent before its node saw the
    fault, while the partition is still in the life it was in: unless its copy
    is not recovering or could not finish anyway, the birth version has changed
    since the round began, or the `referNum` in the node's view had moved on
    when the report was made (or the version did not fit its 16 bits). -/
def Timely (s : Sys) : Action → Prop
  | .deliver pos _ _ =>
      ∀ rep, s.flight[pos]? = some rep → ∀ item ∈ rep.items,
        Stale s rep.nodeId item →
        ∀ e, s.view.ptEntryList[item.round.ptId]? = some e →
          (∃ i < e.copyNum, (e.copyList i).nodeId = rep.nodeId ∧
            (e.copyList i).state = .recovery) →
          s.view.minCopyNum ≤ e.runningNum →
          e.birthVersion ≠ item.round.birthVersion ∨
          item.sentRefer ≠ item.round.referNum ∨
          2 ^ 16 ≤ item.round.birthVersion + item.round.referNum
  | _ => True

/-! ## Versions only grow -/

/-- Birth versions and reference counts of an entry grow. -/
def Older (e e' : PtEntry) : Prop :=
  e.birthVersion ≤ e'.birthVersion ∧ e.referNum ≤ e'.referNum

theorem Older.trans {e₁ e₂ e₃ : PtEntry} (h₁ : Older e₁ e₂)
    (h₂ : Older e₂ e₃) : Older e₁ e₃ :=
  ⟨h₁.1.trans h₂.1, h₁.2.trans h₂.2⟩

/-- One view follows another. -/
def Follows (l l' : PtEntryList) : Prop :=
  ∀ (p : Nat) (e : PtEntry), l.ptEntryList[p]? = some e →
    ∃ e', l'.ptEntryList[p]? = some e' ∧ Older e e'

theorem Follows.refl (l : PtEntryList) : Follows l l :=
  fun _ e he => ⟨e, he, Nat.le_refl _, Nat.le_refl _⟩

theorem Follows.trans {l₁ l₂ l₃ : PtEntryList} (h₁ : Follows l₁ l₂)
    (h₂ : Follows l₂ l₃) : Follows l₁ l₃ := by
  intro p e he
  obtain ⟨e', he', ho⟩ := h₁ p e he
  obtain ⟨e'', he'', ho'⟩ := h₂ p e' he'
  exact ⟨e'', he'', ho.trans ho'⟩

theorem updateCopyKeepAlive_versions (e : PtEntry) (k : Nat) :
    (viewPtUpdateCopyKeepAlive e k).birthVersion = e.birthVersion ∧
    (viewPtUpdateCopyKeepAlive e k).referNum = e.referNum := by
  rcases updateCopyKeepAlive_cases e k with h | ⟨b, h⟩
  · rw [h]
    exact ⟨rfl, rfl⟩
  · rw [h]
    exact ⟨rfl, rfl⟩

theorem updatePtState_versions (e : PtEntry) (a b : Nat) :
    (viewPtEntryUpdatePtState e a b).birthVersion = e.birthVersion ∧
    (viewPtEntryUpdatePtState e a b).referNum = e.referNum :=
  ⟨(updateMaster_frame e).2.2.1, (updateMaster_frame e).2.2.2⟩

/-- No report changes a birth version, and none lowers a `referNum`. -/
theorem touch_versions {l : PtEntryList} {e e' : PtEntry} (h : Touch l e e') :
    e'.birthVersion = e.birthVersion ∧ e.referNum ≤ e'.referNum := by
  cases h with
  | runningDown i hi hs =>
      obtain ⟨h1, h2⟩ := updatePtState_versions (viewPtUpdateCopyKeepAlive
        { e.setState i .down with referNum := e.referNum + 1 } l.minCopyNum)
        l.minCopyNum l.maxCopyNum
      obtain ⟨h3, h4⟩ := updateCopyKeepAlive_versions
        { e.setState i .down with referNum := e.referNum + 1 } l.minCopyNum
      refine ⟨h1.trans h3, ?_⟩
      show e.referNum ≤ (viewPtEntryUpdatePtState _ _ _).referNum
      rw [h2, h4]
      exact Nat.le_succ _
  | recoveryDown i hi hs => exact ⟨rfl, Nat.le_succ _⟩
  | backUp i hi hs =>
      obtain ⟨h1, h2⟩ := updatePtState_versions (viewPtUpdateCopyState
        { e with referNum := e.referNum + 1 } i l.minCopyNum)
        l.minCopyNum l.maxCopyNum
      have hu : ∃ s, viewPtUpdateCopyState { e with referNum := e.referNum + 1 }
          i l.minCopyNum
          = ({ e with referNum := e.referNum + 1 } : PtEntry).setState i s := by
        rw [viewPtUpdateCopyState]
        split
        · exact ⟨_, rfl⟩
        · split
          · exact ⟨_, rfl⟩
          · exact ⟨_, rfl⟩
      obtain ⟨s, hs⟩ := hu
      rw [h1, h2, hs]
      exact ⟨rfl, Nat.le_succ _⟩
  | finished i hi hs hsat masterList nodeId validNum =>
      obtain ⟨h3, h4⟩ := updateCopyKeepAlive_versions (e.setState i .running)
        l.minCopyNum
      rcases finishCopy_cases e i l masterList nodeId validNum with
        ⟨-, heq⟩ | ⟨-, htrim⟩
      · obtain ⟨h1, h2⟩ := updatePtState_versions
          (finishStart e i l.minCopyNum) l.minCopyNum l.maxCopyNum
        rw [heq, h1, h2]
        exact ⟨h3, Nat.le_of_eq h4.symm⟩
      · refine ⟨htrim.birthVersion.trans h3, ?_⟩
        exact (Nat.le_of_eq h4.symm).trans htrim.referNum

theorem touches_versions {l : PtEntryList} {e e' : PtEntry}
    (h : ReflTransGen (Touch l) e e') :
    e'.birthVersion = e.birthVersion ∧ e.referNum ≤ e'.referNum := by
  induction h with
  | refl => exact ⟨rfl, Nat.le_refl _⟩
  | tail _ ht ih =>
      obtain ⟨h1, h2⟩ := touch_versions ht
      exact ⟨h1.trans ih.1, ih.2.trans h2⟩

/-- The entry keeps its `referNum`, and its birth version or gets a new one. -/
def Reborn (version : Nat) (e e' : PtEntry) : Prop :=
  (e'.birthVersion = e.birthVersion ∨ e'.birthVersion = version) ∧
  e'.referNum = e.referNum

theorem Reborn.refl (version : Nat) (e : PtEntry) : Reborn version e e :=
  ⟨Or.inl rfl, rfl⟩

theorem Reborn.trans {version : Nat} {e₁ e₂ e₃ : PtEntry}
    (h₁ : Reborn version e₁ e₂) (h₂ : Reborn version e₂ e₃) :
    Reborn version e₁ e₃ := by
  refine ⟨?_, h₂.2.trans h₁.2⟩
  rcases h₂.1 with h | h
  · rw [h]
    exact h₁.1
  · exact Or.inr h

/-- A loop whose iterations are rebirths is one. -/
theorem reborn_foldl {version : Nat} {β : Type} {f : PtEntry → β → PtEntry}
    (hf : ∀ e b, Reborn version e (f e b)) :
    ∀ (bs : List β) (e : PtEntry), Reborn version e (bs.foldl f e) := by
  intro bs
  induction bs with
  | nil => intro e; exact Reborn.refl version e
  | cons b bs ih => intro e; exact (hf e b).trans (ih (f e b))

theorem reborn_evictEntry (core : CalcCore) (nodeList : NodeInfoList)
    (stateList : NodeStateList) (version : Nat) (e : PtEntry) :
    Reborn version e (evictEntry core nodeList stateList version e) := by
  refine reborn_foldl ?_ _ e
  intro e c
  rw [evictSlot]
  split
  · exact ⟨Or.inr rfl, rfl⟩
  · exact Reborn.refl version e

theorem reborn_refill {core : CalcCore} {c version : Nat} {e e' : PtEntry}
    (h : Refill core c e e') : Reborn version e e' := by
  rcases refill_cases h with ⟨heq, -⟩ | ⟨-, -, x, -, heq⟩
  · rw [heq]
    exact Reborn.refl version e
  · rw [heq, fillCopy]
    split
    · exact ⟨Or.inl rfl, rfl⟩
    · exact ⟨Or.inl rfl, rfl⟩

theorem reborn_balance {core : CalcCore} {c version : Nat}
    {G : Nat → PtEntry → List CalcElem → Prop} {e e' : PtEntry}
    (h : Balance core version G c e e') : Reborn version e e' := by
  obtain ⟨busy, -, heq⟩ := h
  rw [heq]
  rcases buildPtEntry1_cases core c e version busy with
    ⟨-, hsame⟩ | ⟨index, x, -, hmove⟩
  · rw [hsame]
    exact Reborn.refl version e
  · rw [hmove, balanceMove, viewCalcUpdateCopyKeepAlive]
    split
    · exact ⟨Or.inr rfl, rfl⟩
    · exact ⟨Or.inr rfl, rfl⟩

theorem reborn_placing {core : CalcCore} {version k : Nat}
    {G : Nat → PtEntry → List CalcElem → Prop} {e e' : PtEntry}
    (h : Placing core version G e k e') : Reborn version e e' := by
  induction h with
  | start => exact Reborn.refl version e
  | round _ hrefill hbal ih =>
      exact (ih.trans (reborn_refill hrefill)).trans (reborn_balance hbal)

theorem reborn_promoteSlot (version : Nat) (st : PtEntry × Nat) (i : Nat) :
    Reborn version st.1 (promoteSlot st i).1 := by
  rw [promoteSlot]
  split
  · exact Reborn.refl version _
  · split
    · exact Reborn.refl version _
    · split
      · exact ⟨Or.inl rfl, rfl⟩
      · split
        · exact ⟨Or.inl rfl, rfl⟩
        · exact Reborn.refl version _

theorem reborn_closeEntry (core : CalcCore) (event : Option CmEventType)
    (version : Nat) (e : PtEntry) :
    Reborn version e (closeEntry core event e) := by
  have hfold : ∀ (is : List Nat) (st : PtEntry × Nat),
      Reborn version st.1 (is.foldl promoteSlot st).1 := by
    intro is
    induction is with
    | nil => intro st; exact Reborn.refl version _
    | cons i is ih =>
        intro st
        exact (reborn_promoteSlot version st i).trans (ih (promoteSlot st i))
  have hpromote : Reborn version e (promoteEntry core e) := by
    rw [promoteEntry]
    split
    · exact hfold _ (e, _)
    · exact Reborn.refl version e
  obtain ⟨h1, h2⟩ := updatePtState_versions (promoteEntry core e)
    core.minCopyNum core.copyNum
  have hupd : Reborn version e (viewPtEntryUpdatePtState
      (promoteEntry core e) core.minCopyNum core.copyNum) :=
    hpromote.trans ⟨Or.inl h1, h2⟩
  rw [closeEntry, bypassEntry]
  split
  · exact hupd
  · exact hupd

theorem reborn_rebalanced {core : CalcCore} {nodeList : NodeInfoList}
    {stateList : NodeStateList} {event : Option CmEventType} {version : Nat}
    {G : Nat → PtEntry → List CalcElem → Prop} {e e' : PtEntry}
    (h : Rebalanced core nodeList stateList event version G e e') :
    Reborn version e e' := by
  obtain ⟨placed, hplacing, heq⟩ := h
  rw [heq]
  exact ((reborn_evictEntry core nodeList stateList version e).trans
    (reborn_placing hplacing)).trans
    (reborn_closeEntry core event version placed)

/-- No entry was born after the current version. -/
def Born (l : PtEntryList) : Prop :=
  ∀ e ∈ l.ptEntryList, e.birthVersion ≤ l.globalVersion

/-- A change of every entry along a relation that ages it. -/
theorem follows_of_entrywise {R : PtEntry → PtEntry → Prop}
    {l l' : PtEntryList} (h : Entrywise R l l')
    (hR : ∀ e ∈ l.ptEntryList, ∀ e', R e e' → Older e e') : Follows l l' := by
  intro p e he
  obtain ⟨e', he', hr⟩ := h.getElem? he
  exact ⟨e', he', hR e (List.mem_of_getElem? he) e' hr⟩

/-- The global version of a view is changed by a rebalance only. -/
theorem globalVersion_finishItems (nodeId validNum : Nat) :
    ∀ (items : List CmPtFinish) (st : PtEntryList × (Nat → Nat) × Bool),
      (items.foldl (finishItem nodeId validNum) st).1.globalVersion
        = st.1.globalVersion := by
  intro items
  induction items with
  | nil => intro st; rfl
  | cons f items ih =>
      intro st
      rw [List.foldl_cons, ih, finishItem]
      split
      · rfl
      · split
        · rfl
        · rfl

theorem globalVersion_nodeState (nodeId : Nat) (state : NodeState)
    (info : NodeInfo) (l : PtEntryList) :
    (viewPtEntryListUpdateNodeState nodeId state info l).1.globalVersion
      = l.globalVersion := by
  cases state with
  | down => rfl
  | invalid => rfl
  | up =>
      show (viewPtEntryListUpdateNodeUp nodeId info l).1.globalVersion = _
      rw [viewPtEntryListUpdateNodeUp]
      split
      · rfl
      · rfl

/-- Births stay bounded when no birth version changes. -/
theorem born_of_entrywise {R : PtEntry → PtEntry → Prop}
    {l l' : PtEntryList} (h : Entrywise R l l')
    (hv : l.globalVersion ≤ l'.globalVersion) (hl : Born l)
    (hR : ∀ e e', R e e' → e'.birthVersion = e.birthVersion ∨
      e'.birthVersion = l'.globalVersion) : Born l' := by
  have hall : ∀ e e', R e e' → e.birthVersion ≤ l.globalVersion →
      e'.birthVersion ≤ l'.globalVersion := by
    intro e e' hr hb
    rcases hR e e' hr with h' | h'
    · rw [h']
      exact hb.trans hv
    · exact Nat.le_of_eq h'
  exact forall₂_all hall h.entries hl

/-- **VERSIONS GROW**: a call of the server ages the view. -/
theorem follows_step {core : CalcCore} {l l' : PtEntryList} {ev : Event}
    (hl : Born l) (h : step core l ev = some l') :
    Follows l l' ∧ Born l' := by
  cases ev with
  | nodeState nodeId state info =>
      have hent := step_local (by intro _ _ _ hh; exact nomatch hh) h
      rw [← Option.some.inj h] at hent ⊢
      constructor
      · refine follows_of_entrywise hent ?_
        intro e _ e' ht
        obtain ⟨h1, h2⟩ := touches_versions ht
        exact ⟨Nat.le_of_eq h1.symm, h2⟩
      · refine born_of_entrywise hent ?_ hl ?_
        · rw [globalVersion_nodeState]
        · exact fun _ _ ht => Or.inl (touches_versions ht).1
  | finish nodeId ptList nodeNum validNum =>
      have hent := step_local (by intro _ _ _ hh; exact nomatch hh) h
      rw [← Option.some.inj h] at hent ⊢
      constructor
      · refine follows_of_entrywise hent ?_
        intro e _ e' ht
        obtain ⟨h1, h2⟩ := touches_versions ht
        exact ⟨Nat.le_of_eq h1.symm, h2⟩
      · refine born_of_entrywise hent ?_ hl ?_
        · exact Nat.le_of_eq (globalVersion_finishItems nodeId validNum ptList
            (l, genMasterList l nodeNum, false)).symm
        · exact fun _ _ ht => Or.inl (touches_versions ht).1
  | rebalance nodeList stateList event =>
      obtain ⟨hver, hent⟩ := rebalance_entries
        (balanceGuarded_any core nodeList stateList _ _ _) h
      constructor
      · refine follows_of_entrywise hent ?_
        intro e he e' hr
        obtain ⟨hb, hrefer⟩ := reborn_rebalanced hr
        refine ⟨?_, Nat.le_of_eq hrefer.symm⟩
        have := hl e he
        rcases hb with hb | hb
        · exact Nat.le_of_eq hb.symm
        · omega
      · refine born_of_entrywise hent (by omega) hl ?_
        intro e e' hr
        rcases (reborn_rebalanced hr).1 with hb | hb
        · exact Or.inl hb
        · exact Or.inr (hb.trans hver.symm)

/-! ## What a report finds -/

/-- The entry has a recovering copy on the node. -/
def RecoversOn (nodeId : Nat) (e : PtEntry) : Prop :=
  ∃ i < e.copyNum, (e.copyList i).nodeId = nodeId ∧
    (e.copyList i).state = .recovery

theorem recoversOn_finishStart {nodeId i k : Nat} {e : PtEntry}
    (h : RecoversOn nodeId (finishStart e i k)) : RecoversOn nodeId e := by
  have hset : RecoversOn nodeId (e.setState i .running) := by
    rcases updateCopyKeepAlive_cases (e.setState i .running) k with
      heq | ⟨b, heq⟩
    · rw [finishStart, heq] at h
      exact h
    · rw [finishStart, heq] at h
      obtain ⟨j, hj, hnode, hrec⟩ := h
      refine ⟨j, hj, ?_, ?_⟩
      · rw [setRunningKeepAlive_apply] at hnode
        split at hnode
        · exact hnode
        · exact hnode
      · rw [setRunningKeepAlive_apply] at hrec
        split at hrec
        · exact hrec
        · exact hrec
  obtain ⟨j, hj, hnode, hrec⟩ := hset
  rw [setState_apply] at hnode hrec
  by_cases hji : j = i
  · rw [if_pos hji] at hrec
    exact nomatch hrec
  · rw [if_neg hji] at hnode hrec
    exact ⟨j, hj, hnode, hrec⟩

/-- The trim brings no recovering copy. -/
theorem recoversOn_trimmed {nodeId m : Nat} {e e' : PtEntry}
    (ht : Trimmed m e e') (hr : e.runningNum = m)
    (h : RecoversOn nodeId e') : RecoversOn nodeId e := by
  obtain ⟨j, hj, hnode, hrec⟩ := h
  rw [ht.copyNum] at hj
  rw [ht.copyList, trimSlots_copyList e m (Nat.le_refl m) j, if_pos hj,
    trimmedBase] at hnode hrec
  have hle : m ≤ e.copyNum := by
    rw [← hr]
    calc e.runningNum ≤ (List.range e.copyNum).length :=
          List.length_filter_le _ _
      _ = e.copyNum := List.length_range
  split at hrec
  · rename_i hrun
    rw [hrun] at hrec
    exact nomatch hrec
  · rename_i hnr
    split at hrec
    · rename_i hrun
      rw [hrun] at hrec
      exact nomatch hrec
    · rename_i hnx
      rw [if_neg hnr, if_neg hnx] at hnode
      exact ⟨j, by omega, hnode, hrec⟩

theorem recoversOn_finishTouch {nodeId : Nat} {l : PtEntryList}
    {e e' : PtEntry} (ht : FinishTouch l e e') (h : RecoversOn nodeId e') :
    RecoversOn nodeId e := by
  obtain ⟨i, masterList, n, validNum, -, -, heq⟩ := ht.finished
  rw [heq] at h
  rcases finishCopy_cases e i l masterList n validNum with
    ⟨-, hu⟩ | ⟨hr, htrim⟩
  · rw [hu] at h
    obtain ⟨j, hj, hnode, hrec⟩ := h
    rw [updatePtState_copyList] at hnode hrec
    rw [updatePtState_copyNum] at hj
    exact recoversOn_finishStart ⟨j, hj, hnode, hrec⟩
  · exact recoversOn_finishStart (recoversOn_trimmed htrim hr h)

/-- **BACK TO THE SERVER'S VIEW**: a copy that an item can finish could be
    finished before the report was handled. -/
theorem finishTouches_back {nodeId : Nat} {l : PtEntryList} {e e' : PtEntry}
    (h : ReflTransGen (FinishTouch l) e e') (hrec : RecoversOn nodeId e')
    (hsat : l.minCopyNum ≤ e'.runningNum) :
    e'.birthVersion = e.birthVersion ∧ RecoversOn nodeId e ∧
    l.minCopyNum ≤ e.runningNum := by
  induction h using ReflTransGen.head_induction_on with
  | refl => exact ⟨rfl, hrec, hsat⟩
  | head ht _ ih =>
      obtain ⟨hb, hr, -⟩ := ih
      exact ⟨hb.trans (touch_versions ht.touch).1,
        recoversOn_finishTouch ht hr, ht.satisfied⟩

/-! ## The invariant -/

/-- A round was begun from a view at or before position `pos`. -/
def ObservedBy (history : Nat → PtEntryList) (pos : Nat) (r : Round) : Prop :=
  ∃ k ≤ pos, ∃ e, (history k).ptEntryList[r.ptId]? = some e ∧
    e.birthVersion = r.birthVersion ∧ e.referNum = r.referNum

/-- An item carries its round's version less a later `referNum`. -/
structure ItemOk (history : Nat → PtEntryList) (now : Nat)
    (item : SentItem) : Prop where
  observed : ObservedBy history now item.round
  ptId : item.finish.ptId = item.round.ptId
  later : item.round.referNum ≤ item.sentRefer
  fits : item.sentRefer ≤ item.round.version
  birth : item.finish.birthVersion = item.round.version - item.sentRefer

structure SysInv (s : Sys) : Prop where
  born : Born s.view
  grows : ∀ j ≤ s.now, ∀ i ≤ j, Follows (s.history i) (s.history j)
  seen : ∀ n pos, s.seen n = some pos → pos ≤ s.now
  rounds : ∀ r ∈ s.rounds, ∃ pos, s.seen r.nodeId = some pos ∧
    ObservedBy s.history pos r
  flight : ∀ rep ∈ s.flight, ∀ item ∈ rep.items, ItemOk s.history s.now item

theorem sysInv_start {l : PtEntryList} (h : Born l) :
    SysInv (Sys.start l) := by
  refine ⟨h, fun _ _ _ _ => Follows.refl l, ?_, ?_, ?_⟩
  · intro n pos hn
    exact nomatch hn
  · intro r hr
    exact nomatch hr
  · intro rep hrep
    exact nomatch hrep

theorem publish_history {s : Sys} {l : PtEntryList} {k : Nat}
    (hk : k ≤ s.now) : (s.publish l).history k = s.history k :=
  Function.update_of_ne (by omega) _ _

/-- A later view does not change what has been observed. -/
theorem ObservedBy.publish {s : Sys} (l : PtEntryList) {pos pos' : Nat}
    {r : Round} (hpos : pos ≤ s.now) (hle : pos ≤ pos')
    (h : ObservedBy s.history pos r) :
    ObservedBy (s.publish l).history pos' r := by
  obtain ⟨k, hk, e, he, hb, hr⟩ := h
  refine ⟨k, by omega, e, ?_, hb, hr⟩
  rw [publish_history (by omega)]
  exact he

/-- Publishing a view that follows the current one. -/
theorem sysInv_publish {s : Sys} {l : PtEntryList} (h : SysInv s)
    (hf : Follows s.view l) (hb : Born l) : SysInv (s.publish l) := by
  have hlast : (s.publish l).history (s.now + 1) = l :=
    Function.update_self _ _ _
  refine ⟨?_, ?_, ?_, ?_, ?_⟩
  · show Born ((s.publish l).history (s.now + 1))
    rw [hlast]
    exact hb
  · intro j hj i hi
    have hj' : j ≤ s.now + 1 := hj
    by_cases hjn : j = s.now + 1
    · by_cases hin : i = s.now + 1
      · rw [hjn, hin]
        exact Follows.refl _
      · rw [hjn, hlast, publish_history (by omega)]
        exact (h.grows s.now (Nat.le_refl _) i (by omega)).trans hf
    · rw [publish_history (by omega), publish_history (by omega)]
      exact h.grows j (by omega) i hi
  · intro n pos hn
    exact Nat.le_succ_of_le (h.seen n pos hn)
  · intro r hr
    obtain ⟨pos, hseen, hobs⟩ := h.rounds r hr
    exact ⟨pos, hseen, hobs.publish l (h.seen _ _ hseen) (Nat.le_refl _)⟩
  · intro rep hrep item hitem
    have hok := h.flight rep hrep item hitem
    exact ⟨hok.observed.publish l (Nat.le_refl _) (Nat.le_succ _), hok.ptId,
      hok.later, hok.fits, hok.birth⟩

/-- What `Cm::ReportPtFinish` puts into a report. -/
theorem reportPtFinish_mem {l : PtEntryList} {rounds : List Round}
    {items : List SentItem} (h : reportPtFinish l rounds = some items)
    {item : SentItem} (hi : item ∈ items) :
    item.round ∈ rounds ∧ ∃ e, l.ptEntryList[item.round.ptId]? = some e ∧
      item.finish = ⟨item.round.version - e.referNum, item.round.ptId⟩ ∧
      item.sentRefer = e.referNum ∧ e.referNum ≤ item.round.version := by
  induction rounds generalizing items with
  | nil =>
      rw [← Option.some.inj h] at hi
      exact nomatch hi
  | cons r rest ih =>
      rw [reportPtFinish] at h
      split at h
      · obtain ⟨hmem, hrest⟩ := ih h hi
        exact ⟨List.mem_cons_of_mem _ hmem, hrest⟩
      · rename_i e he
        split at h
        · exact nomatch h
        · rename_i hver
          obtain ⟨items', hrest, heq⟩ := Option.map_eq_some_iff.mp h
          rw [← heq] at hi
          rcases List.mem_cons.mp hi with hhead | htail
          · rw [hhead]
            exact ⟨List.mem_cons_self .., e, he, rfl, rfl, Nat.le_of_not_lt hver⟩
          · obtain ⟨hmem, hr⟩ := ih hrest htail
            exact ⟨List.mem_cons_of_mem _ hmem, hr⟩

/-- Observing, starting and reporting leave the server alone. -/
theorem sysInv_report {core : CalcCore} {s s' : Sys} {nodeId : Nat}
    {rounds : List Round} (h : SysInv s)
    (hs : sysStep core s (.report nodeId rounds) = some s') : SysInv s' := by
  obtain ⟨pos, hseen, hs⟩ := Option.bind_eq_some_iff.mp hs
  split at hs
  · rename_i hall
    obtain ⟨items, hitems, heq⟩ := Option.map_eq_some_iff.mp hs
    rw [← heq]
    refine ⟨h.born, h.grows, h.seen, h.rounds, ?_⟩
    intro rep hrep item hitem
    rcases List.mem_cons.mp hrep with hnew | hold
    · rw [hnew] at hitem
      obtain ⟨hmem, e, he, hfin, hsent, hle⟩ := reportPtFinish_mem hitems hitem
      have hr := List.all_eq_true.mp hall _ hmem
      rw [Bool.and_eq_true, beq_iff_eq, List.contains_iff_mem] at hr
      obtain ⟨pos', hseen', k, hk, e₀, he₀, hb₀, hr₀⟩ :=
        h.rounds _ hr.2
      rw [hr.1, hseen] at hseen'
      have hpos : pos = pos' := Option.some.inj hseen'
      have hnow := h.seen _ _ hseen
      -- the view of the report follows the view of the round
      obtain ⟨e', he', hold'⟩ := h.grows pos hnow k (by omega) _ e₀ he₀
      have hee : e' = e := Option.some.inj (he'.symm.trans he)
      refine ⟨⟨k, ?_, e₀, he₀, hb₀, hr₀⟩, ?_, ?_, ?_, ?_⟩
      · show k ≤ s.now
        omega
      · rw [hfin]
      · rw [hsent, ← hr₀, ← hee]
        exact hold'.2
      · rw [hsent]
        exact hle
      · rw [hfin, hsent]
    · exact h.flight rep hold item hitem
  · exact nomatch hs

theorem sysInv_step {core : CalcCore} {s s' : Sys} {a : Action}
    (h : SysInv s) (hs : sysStep core s a = some s') : SysInv s' := by
  cases a with
  | server ev =>
      have hserver : ∀ l, step core s.view ev = some l →
          SysInv (s.publish l) := by
        intro l hl
        obtain ⟨hf, hb⟩ := follows_step h.born hl
        exact sysInv_publish h hf hb
      cases ev with
      | finish _ _ _ _ => exact nomatch hs
      | nodeState nodeId state info =>
          have hs' : (step core s.view (.nodeState nodeId state info)).map
              s.publish = some s' := hs
          obtain ⟨l, hl, heq⟩ := Option.map_eq_some_iff.mp hs'
          rw [← heq]
          exact hserver l hl
      | rebalance nodeList stateList event =>
          have hs' : (step core s.view (.rebalance nodeList stateList
              event)).map s.publish = some s' := hs
          obtain ⟨l, hl, heq⟩ := Option.map_eq_some_iff.mp hs'
          rw [← heq]
          exact hserver l hl
  | observe nodeId pos =>
      rw [sysStep] at hs
      split at hs
      · rename_i hpos
        rw [← Option.some.inj hs]
        refine ⟨h.born, h.grows, ?_, ?_, h.flight⟩
        · intro n p hn
          have hn : Function.update s.seen nodeId (some pos) n = some p := hn
          by_cases hnn : n = nodeId
          · rw [hnn, Function.update_self] at hn
            rw [← Option.some.inj hn]
            exact hpos.2
          · rw [Function.update_of_ne hnn] at hn
            exact h.seen n p hn
        · intro r hr
          obtain ⟨p, hp, k, hk, hrest⟩ := h.rounds r hr
          by_cases hrn : r.nodeId = nodeId
          · refine ⟨pos, ?_, k, ?_, hrest⟩
            · rw [hrn]
              exact Function.update_self _ _ _
            · -- a node's view only moves forward
              have hle := hpos.1
              rw [← hrn, hp, Option.getD_some] at hle
              omega
          · refine ⟨p, ?_, k, hk, hrest⟩
            rw [← hp]
            exact Function.update_of_ne hrn _ _
      · exact nomatch hs
  | start nodeId ptId =>
      obtain ⟨pos, hseen, hs⟩ := Option.bind_eq_some_iff.mp hs
      obtain ⟨e, he, hs⟩ := Option.bind_eq_some_iff.mp hs
      split at hs
      · rw [← Option.some.inj hs]
        refine ⟨h.born, h.grows, h.seen, ?_, h.flight⟩
        intro r hr
        rcases List.mem_cons.mp hr with hnew | hold
        · rw [hnew]
          exact ⟨pos, hseen, pos, Nat.le_refl _, e, he, rfl, rfl⟩
        · exact h.rounds r hold
      · exact nomatch hs
  | report nodeId rounds => exact sysInv_report h hs
  | deliver pos nodeNum validNum =>
      obtain ⟨rep, hrep, heq⟩ := Option.map_eq_some_iff.mp hs
      have hstep : step core s.view (.finish rep.nodeId
          (rep.items.map (·.finish)) nodeNum validNum)
          = some (handleItems s rep.nodeId nodeNum validNum rep.items).1 := rfl
      obtain ⟨hf, hb⟩ := follows_step h.born hstep
      have hpub := sysInv_publish h hf hb
      rw [← heq]
      refine ⟨hpub.born, hpub.grows, hpub.seen, hpub.rounds, ?_⟩
      intro rep' hrep' item hitem
      exact hpub.flight rep' (List.mem_of_mem_eraseIdx hrep') item hitem

/-! ## No stale finish -/

/-- What an accepted item says about its round. -/
theorem accepted_item {s : Sys} {item : SentItem} {e : PtEntry}
    (h : SysInv s) (hok : ItemOk s.history s.now item)
    (he : s.view.ptEntryList[item.round.ptId]? = some e)
    (hb : e.birthVersion = item.finish.birthVersion) :
    e.birthVersion = item.round.birthVersion ∧
    item.sentRefer = item.round.referNum ∧
    item.round.birthVersion + item.round.referNum < 2 ^ 16 := by
  obtain ⟨k, hk, e₀, he₀, hb₀, hr₀⟩ := hok.observed
  obtain ⟨e', he', hold⟩ := h.grows s.now (Nat.le_refl _) k hk _ e₀ he₀
  have hee : e' = e := Option.some.inj (he'.symm.trans he)
  rw [hee] at hold
  have hbirth := hold.1
  rw [hb₀] at hbirth
  have hmod : item.round.version
      ≤ item.round.birthVersion + item.round.referNum := Nat.mod_le _ _
  have hlt : item.round.version < 2 ^ 16 := Nat.mod_lt _ (by decide)
  have hlater := hok.later
  have hfits := hok.fits
  rw [hok.birth] at hb
  -- the server's birth version is at least the observed one, the version at
  -- most the observed sum, and at least the observed `referNum` is subtracted
  omega

theorem timely_not_stale {s : Sys} {a : Action} (h : SysInv s)
    (hT : Timely s a) : ¬ AcceptsStale s a := by
  cases a with
  | server ev => exact fun hA => hA
  | observe nodeId pos => exact fun hA => hA
  | start nodeId ptId => exact fun hA => hA
  | report nodeId rounds => exact fun hA => hA
  | deliver pos nodeNum validNum =>
      rintro ⟨rep, before, item, after, hrep, hitems, hstale, e', he', hacc⟩
      have hitem : item ∈ rep.items := by
        rw [hitems]
        exact List.mem_append_right _ (List.mem_cons_self ..)
      have hok := h.flight rep (List.mem_of_getElem? hrep) item hitem
      obtain ⟨r, hr⟩ := Option.isSome_iff_exists.mp hacc
      obtain ⟨hbirth, hft, hrec⟩ := finishEntry_touch hr
      have hent : Entrywise (ReflTransGen (FinishTouch s.view)) s.view
          (handleItems s rep.nodeId nodeNum validNum before).1 :=
        finishItems_entrywise rep.nodeId validNum
          (before.map SentItem.finish)
          (s.view, genMasterList s.view nodeNum, false)
      have hsat := hft.satisfied
      rw [hent.shape.minCopyNum] at hsat
      rw [hok.ptId] at he'
      have hlt : item.round.ptId < s.view.ptEntryList.length := by
        rw [← hent.shape.length]
        exact (List.getElem?_eq_some_iff.mp he').1
      have he := List.getElem?_eq_getElem hlt
      obtain ⟨e'', he'', htouch⟩ := hent.getElem? he
      have hee : e'' = e' := Option.some.inj (he''.symm.trans he')
      rw [hee] at htouch
      obtain ⟨hb, hrec₀, hsat₀⟩ := finishTouches_back htouch hrec hsat
      obtain ⟨h1, h2, h3⟩ := accepted_item h hok he (hb.symm.trans hbirth)
      rcases hT rep hrep item hitem hstale _ he hrec₀ hsat₀ with hc | hc | hc
      · exact hc h1
      · exact hc h2
      · omega

/-- **NO STALE FINISH**: in every run whose reports are timely, no round that
    began before its copy last went down finishes the copy. -/
theorem no_stale_finish_of_timely_run {core : CalcCore}
    {nodeList : NodeInfoList} {stateList : NodeStateList} {version : Nat}
    {l : PtEntryList} {actions : List Action}
    (hinit : viewCalculatorInitial core nodeList stateList version = some l)
    (hT : Along (sysStep core) Timely (Sys.start l) actions) :
    Along (sysStep core) (fun s a => ¬ AcceptsStale s a) (Sys.start l)
      actions := by
  have hborn : Born l := by
    obtain ⟨-, -, hver, hent⟩ := initial_entries hinit
    intro e he
    rw [hver, (hent e he).1.birth]
  exact along_of_invariant (fun _ _ _ hI hs => sysInv_step hI hs)
    (fun _ _ hI hG => timely_not_stale hI hG) actions (Sys.start l)
    (sysInv_start hborn) hT

/-! ## A stale report -/

/-- Two nodes; the copy on node 1 fails and comes back recovering. -/
def faultOfNode1 : List Action :=
  [.server (.nodeState 1 .down ⟨[], []⟩),
   .server (.nodeState 1 .up ⟨[⟨0, .normal⟩], []⟩)]

/-- Node 1 starts a round and reports it, and only then fails again. -/
def staleActions : List Action :=
  faultOfNode1 ++ [.observe 1 2, .start 1 0, .report 1 [⟨1, 0, 1, 2, 1⟩]] ++
  faultOfNode1

/-- The protocol on a pool of two nodes, started at a version. -/
def runProtocol (version : Nat) (actions : List Action) : Option Sys :=
  (viewCalculatorInitial twoCopyCore (uniformPool 2)
    (poolStates [(.up, .stateIn), (.up, .stateIn)]) version).bind fun l =>
      runFrom (sysStep twoCopyCore) (Sys.start l) actions

theorem runProtocol_some {version : Nat} {actions : List Action} {s : Sys}
    (h : runProtocol version actions = some s) :
    ∃ l, viewCalculatorInitial twoCopyCore (uniformPool 2)
        (poolStates [(.up, .stateIn), (.up, .stateIn)]) version = some l ∧
      runFrom (sysStep twoCopyCore) (Sys.start l) actions = some s :=
  Option.bind_eq_some_iff.mp h

/-- The report left over from before the second fault turns the recovering
    copy into a running one. -/
theorem stale_finish_accepted :
    ∃ l s s', viewCalculatorInitial twoCopyCore (uniformPool 2)
        (poolStates [(.up, .stateIn), (.up, .stateIn)]) 0 = some l ∧
      runFrom (sysStep twoCopyCore) (Sys.start l) staleActions = some s ∧
      AcceptsStale s (.deliver 0 2 2) ∧
      copyStateOn s.view 0 1 = some .recovery ∧
      sysStep twoCopyCore s (.deliver 0 2 2) = some s' ∧
      copyStateOn s'.view 0 1 = some .running := by
  have hcheck : (runProtocol 0 staleActions).any (fun s =>
      (s.flight[0]?).any (fun rep => (rep.items.head?).any fun item =>
        rep.items == [item] &&
        decide (item.round.downs < s.downs rep.nodeId item.round.ptId) &&
        (s.view.ptEntryList[item.finish.ptId]?).any fun e =>
          (finishEntry rep.nodeId 2 item.finish.birthVersion s.view
            (genMasterList s.view 2) e).isSome) &&
      copyStateOn s.view 0 1 == some .recovery &&
      (sysStep twoCopyCore s (.deliver 0 2 2)).any fun s' =>
        copyStateOn s'.view 0 1 == some .running) = true := by decide +kernel
  obtain ⟨s, hs, hall⟩ := (Option.any_eq_true _ _).mp hcheck
  obtain ⟨l, hinit, hrun⟩ := runProtocol_some hs
  simp only [Bool.and_eq_true, beq_iff_eq] at hall
  obtain ⟨⟨hacc, hrec⟩, hafter⟩ := hall
  obtain ⟨rep, hrep, hacc⟩ := (Option.any_eq_true _ _).mp hacc
  obtain ⟨item, -, hitem⟩ := (Option.any_eq_true _ _).mp hacc
  simp only [Bool.and_eq_true, beq_iff_eq, decide_eq_true_eq] at hitem
  obtain ⟨⟨hitems, hstale⟩, hfin⟩ := hitem
  obtain ⟨e, he, hfin⟩ := (Option.any_eq_true _ _).mp hfin
  obtain ⟨s', hs', hrun'⟩ := (Option.any_eq_true _ _).mp hafter
  exact ⟨l, s, s', hinit, hrun,
    ⟨rep, [], item, [], hrep, hitems, hstale, e, he, hfin⟩, hrec, hs',
    beq_iff_eq.mp hrun'⟩

/-- The same, but node 1 sees its second fault before it reports. -/
def timelyActions : List Action :=
  faultOfNode1 ++ [.observe 1 2, .start 1 0] ++ faultOfNode1 ++
  [.observe 1 4, .report 1 [⟨1, 0, 11, 2, 1⟩]]

theorem no_stale_finish_of_timely_run_seen :
    ∃ l s, viewCalculatorInitial twoCopyCore (uniformPool 2)
        (poolStates [(.up, .stateIn), (.up, .stateIn)]) 10 = some l ∧
      runFrom (sysStep twoCopyCore) (Sys.start l) timelyActions = some s ∧
      (∃ rep item, s.flight = [rep] ∧ rep.items = [item] ∧
        Stale s rep.nodeId item) ∧
      ¬ AcceptsStale s (.deliver 0 2 2) := by
  have hcheck : (runProtocol 10 timelyActions).any (fun s =>
      (s.flight.head?).any fun rep => (rep.items.head?).any fun item =>
        s.flight == [rep] && rep.items == [item] &&
        decide (item.round.downs < s.downs rep.nodeId item.round.ptId) &&
        item.sentRefer != item.round.referNum) = true := by decide +kernel
  obtain ⟨s, hs, hall⟩ := (Option.any_eq_true _ _).mp hcheck
  obtain ⟨l, hinit, hrun⟩ := runProtocol_some hs
  obtain ⟨rep, -, hall⟩ := (Option.any_eq_true _ _).mp hall
  obtain ⟨item, -, hall⟩ := (Option.any_eq_true _ _).mp hall
  simp only [Bool.and_eq_true, beq_iff_eq, decide_eq_true_eq, bne_iff_ne]
    at hall
  obtain ⟨⟨⟨hflight, hitems⟩, hstale⟩, hsent⟩ := hall
  refine ⟨l, s, hinit, hrun, ⟨rep, item, hflight, hitems, hstale⟩, ?_⟩
  have hT : Along (sysStep twoCopyCore) Timely (Sys.start l)
      (timelyActions ++ [.deliver 0 2 2]) := by
    refine along_append.mpr ⟨?_, ?_⟩
    · -- nothing is delivered before
      exact ⟨trivial, fun _ _ => ⟨trivial, fun _ _ => ⟨trivial, fun _ _ =>
        ⟨trivial, fun _ _ => ⟨trivial, fun _ _ => ⟨trivial, fun _ _ =>
        ⟨trivial, fun _ _ => ⟨trivial, fun _ _ => trivial⟩⟩⟩⟩⟩⟩⟩⟩
    · intro t ht
      have hts : s = t := Option.some.inj (hrun.symm.trans ht)
      subst hts
      refine ⟨?_, fun _ _ => trivial⟩
      intro rep' hrep' item' hitem' _ _ _ _ _
      rw [hflight] at hrep'
      rw [← Option.some.inj hrep', hitems] at hitem'
      rw [List.mem_singleton.mp hitem']
      exact Or.inr (Or.inl hsent)
  have hall := no_stale_finish_of_timely_run hinit hT
  exact ((along_append.mp hall).2 s hrun).1

end UbsIo.Pt
