import UbsIo.Sequence.Migrate

/-! # The lists of a migration

    What `GetSeqNoList2Slv` names of the numbers a copy has saved, and what
    `MergeSeqNoList` makes of the lists of several copies.  The first looks at
    one slot only, as often as there are numbers between the two marks of the
    copy; the second refuses the full window. -/

namespace UbsIo.Sequence

open UbsIo.Lib UbsIo.Cache

variable {n : Nat} {δ : Type}

/-! ## The list of one copy -/

/-- The list names every saved number behind the horizon, in ascending order,
    each once, and has room for all of them. -/
structure NegoQueue.Listed (q : NegoQueue δ) : Prop where
  mem_iff : ∀ t, t ∈ getSeqNoList2Slv q ↔ q.negoSeqNo < t ∧ q.Saved t
  ascending : (getSeqNoList2Slv q).Pairwise (· < ·)
  length_le : (getSeqNoList2Slv q).length ≤ seqQueueLen

/-- The last number a copy has committed is still saved, unless all are
    done. -/
def NegoQueue.LastSaved (q : NegoQueue δ) : Prop :=
  q.commitSeqNo = q.negoSeqNo ∨ q.Saved q.commitSeqNo

/-- Saving a message behind the horizon that is discarded up to. -/
theorem NegoQueue.LastSaved.saves {left right : Nat} {q : NegoQueue δ}
    {accepted : List Nat} (hlast : q.LastSaved)
    (h : SlaveInv left right q accepted) {m : Message δ}
    (hlt : left < m.seqNo) (hnego : m.negoSeqNo ≤ left)
    (hempty : q.valueList (seqIdx m.seqNo) = none)
    (hin : m.seqNo ≤ q.negoSeqNo + 16) :
    (discard (m.negoSeqNo - q.negoSeqNo)
      (q.put m.seqNo m.data)).LastSaved := by
  have hhor := h.horizon_le
  have hd := discard_spec (m.negoSeqNo - q.negoSeqNo)
    (h.windowed.put m.seqNo m.data (by omega) hin)
  set q' := discard (m.negoSeqNo - q.negoSeqNo) (q.put m.seqNo m.data)
  have hle : q'.negoSeqNo ≤ q.negoSeqNo + (m.negoSeqNo - q.negoSeqNo) :=
    hd.horizon_le
  have hcommit : q'.commitSeqNo = max q.commitSeqNo m.seqNo := hd.commit_eq
  right
  rw [NegoQueue.Saved, hcommit]
  by_cases hnew : q.commitSeqNo ≤ m.seqNo
  · refine ⟨⟨m.seqNo, m.data⟩, (hd.holds _).mpr ⟨?_, ?_⟩, ?_⟩
    · exact (NegoQueue.put_holds hempty _).mpr (.inl rfl)
    · show q'.negoSeqNo < m.seqNo
      omega
    · exact (max_eq_right hnew).symm
  · obtain heq | ⟨v, hv, hseq⟩ := hlast
    · omega
    · refine ⟨v, (hd.holds v).mpr ⟨?_, by omega⟩, ?_⟩
      · exact (NegoQueue.put_holds hempty v).mpr (.inr hv)
      · rw [hseq, max_eq_left (by omega)]

theorem lastSaved_step {s s' : State n δ} {e : Event n δ} (h : Inv s)
    (hlast : ∀ i, (s.slaves i).LastSaved) (hs : step s e = some s') :
    ∀ i, (s'.slaves i).LastSaved := by
  obtain ⟨data, -, rfl | ⟨-, rfl⟩⟩ | ⟨i, k, b, m, -, hm, rfl⟩ |
    ⟨seqNo, -, -, rfl⟩ := step_cases hs
  · exact hlast
  · exact hlast
  · intro j
    show (Function.update s.slaves i (s.call i m b).2 j).LastSaved
    by_cases hj : j = i
    · subst hj
      rw [Function.update_self]
      obtain ⟨hlt, -, hnego⟩ := h.message hm
      obtain ⟨hq, -⟩ | ⟨-, hempty, hq⟩ := s.call_cases j m b
      · rw [hq]
        exact hlast j
      · rw [hq]
        exact (hlast j).saves (h.slave j) hlt hnego hempty
          (h.in_window hm hempty)
    · rw [Function.update_of_ne hj]
      exact hlast j
  · exact hlast

/-- Every reachable copy. -/
theorem reachable_lastSaved {es : List (Event n δ)} {s : State n δ}
    (hrun : runFrom step .init es = some s) :
    Inv s ∧ ∀ i, (s.slaves i).LastSaved :=
  runFrom_invariant (I := fun s => Inv s ∧ ∀ i, (s.slaves i).LastSaved)
    (fun _ _ _ h hs => ⟨h.1.step hs, lastSaved_step h.1 h.2 hs⟩)
    ⟨.init, fun _ => .inl rfl⟩ hrun

/-- **ONE COPY**: the list is exact if and only if nothing but the first number
    behind the horizon has been committed. -/
theorem listed_iff {left right : Nat} {q : NegoQueue δ} {accepted : List Nat}
    (h : SlaveInv left right q accepted) (hlast : q.LastSaved) :
    q.Listed ↔ q.commitSeqNo ≤ q.negoSeqNo + 1 := by
  have hhor := h.horizon_commit
  have hmem := fun t => mem_getSeqNoList2Slv h.windowed (t := t)
  have hlen : (getSeqNoList2Slv q).length ≤ q.commitSeqNo - q.negoSeqNo :=
    (List.length_filterMap_le _ _).trans_eq List.length_range'
  constructor
  · intro hl
    obtain heq | hsaved := hlast
    · omega
    · by_cases hall : q.commitSeqNo = q.negoSeqNo
      · omega
      · have hin := (hl.mem_iff q.commitSeqNo).mpr ⟨by omega, hsaved⟩
        have hfirst := ((hmem q.commitSeqNo).mp hin).1
        omega
  · intro hcommit
    refine ⟨?_, ?_, ?_⟩
    · intro t
      rw [hmem t]
      constructor
      · rintro ⟨rfl, hsaved⟩
        exact ⟨Nat.lt_succ_self _, hsaved⟩
      · rintro ⟨hlt, v, hv, rfl⟩
        have hle := h.windowed.commit hv
        exact ⟨by omega, v, hv, rfl⟩
    · -- a list of one number at most
      have hone : (getSeqNoList2Slv q).length ≤ 1 := by omega
      match getSeqNoList2Slv q, hone with
      | [], _ => exact .nil
      | [t], _ => exact List.pairwise_singleton _ _
    · exact hlen.trans (by rw [seqQueueLen]; omega)

/-! ## The merged list -/

/-- The fold over the lists succeeds, with their sorted union. -/
def MergesAll (lists : List (Fin n × List Nat)) : Prop :=
  ∃ nego, mergeLists lists = .ok nego ∧ MergedAll lists nego

/-- All numbers lie in the window behind `w`. -/
def Window (w : Nat) (l : List (Nat × Fin n)) : Prop :=
  ∀ t ∈ l.map Prod.fst, w < t ∧ t ≤ w + seqQueueLen

/-- An ascending list without one number of its window is shorter than it. -/
theorem length_lt_of_free {l : List (Nat × Fin n)} {w t : Nat}
    (hl : Increasing l) (hw : Window w l) (ht : w < t ∧ t ≤ w + seqQueueLen)
    (hfree : t ∉ l.map Prod.fst) : l.length < seqQueueLen := by
  have hnodup : (l.map Prod.fst).Nodup :=
    List.pairwise_map.mpr (hl.imp fun h => Nat.ne_of_lt h)
  have hsub : (l.map Prod.fst).toFinset
      ⊆ (Finset.Ioc w (w + seqQueueLen)).erase t := by
    intro u hu
    rw [List.mem_toFinset] at hu
    refine Finset.mem_erase.mpr ⟨?_, Finset.mem_Ioc.mpr (hw u hu)⟩
    rintro rfl
    exact hfree hu
  have hcard := Finset.card_le_card hsub
  rw [List.toFinset_card_of_nodup hnodup, List.length_map,
    Finset.card_erase_of_mem (Finset.mem_Ioc.mpr ht), Nat.card_Ioc,
    Nat.add_sub_cancel_left] at hcard
  have hpos : 0 < seqQueueLen := by decide
  omega

/-- A list with all numbers of a window is as long as it. -/
theorem length_ge_of_full {l : List (Nat × Fin n)} {w : Nat}
    (hfull : ∀ t, w < t → t ≤ w + seqQueueLen → t ∈ l.map Prod.fst) :
    seqQueueLen ≤ l.length := by
  have hsub : Finset.Ioc w (w + seqQueueLen) ⊆ (l.map Prod.fst).toFinset := by
    intro t ht
    obtain ⟨hlt, hle⟩ := Finset.mem_Ioc.mp ht
    exact List.mem_toFinset.mpr (hfull t hlt hle)
  calc seqQueueLen = (Finset.Ioc w (w + seqQueueLen)).card := by
        rw [Nat.card_Ioc, Nat.add_sub_cancel_left]
    _ ≤ (l.map Prod.fst).toFinset.card := Finset.card_le_card hsub
    _ ≤ (l.map Prod.fst).length := List.toFinset_card_le _
    _ = l.length := List.length_map _

/-- What `MergeSeqNoList` lets through is shorter than the window. -/
theorem mergeLists_length {lists : List (Fin n × List Nat)}
    {nego : List (Nat × Fin n)} (h : mergeLists lists = .ok nego) :
    nego.length < seqQueueLen := by
  have hnil : 0 < seqQueueLen := by decide
  refine foldlM_ok_prefix (P := fun _ nego => nego.length < seqQueueLen) ?_
    hnil h
  intro _ node _ nego nego' _ _ hstep
  simp only [mergeSeqNoList] at hstep
  split at hstep
  · cases hstep
  · rename_i hlen
    cases hstep
    exact not_le.mp hlen

/-- The fold goes on as long as a number of the window is free. -/
theorem mergeFold_ok {w t : Nat} (ht : w < t ∧ t ≤ w + seqQueueLen) :
    ∀ {lists : List (Fin n × List Nat)} {nego : List (Nat × Fin n)},
      (∀ node ∈ lists, node.2.Pairwise (· < ·) ∧
        (∀ u ∈ node.2, w < u ∧ u ≤ w + seqQueueLen) ∧ t ∉ node.2) →
      Increasing nego → Window w nego → t ∉ nego.map Prod.fst →
      ∃ nego', lists.foldlM
        (fun nego node => mergeSeqNoList nego node.2 node.1) nego
          = Except.ok nego' := by
  intro lists
  induction lists with
  | nil => exact fun _ _ _ _ => ⟨_, rfl⟩
  | cons node lists ih =>
      intro nego hlists hn hw hfree
      obtain ⟨hs, hsw, hst⟩ := hlists node (List.mem_cons_self ..)
      have hm := mergeLoop_spec node.1 _ (le_refl _) .nil
        (fun p hp => by cases hp) (hn.imp le_of_lt) (hs.imp le_of_lt)
      obtain ⟨merged, hmerged⟩ : ∃ merged, merged = mergeLoop node.1
          (nego.length + node.2.length) [] nego node.2 := ⟨_, rfl⟩
      rw [← hmerged] at hm
      have hmw : Window w merged := by
        intro u hu
        obtain hu | hu | hu := (hm.mem_iff u).mp hu
        · cases hu
        · exact hw u hu
        · exact hsw u hu
      have hmfree : t ∉ merged.map Prod.fst := by
        intro h
        obtain h | h | h := (hm.mem_iff t).mp h
        · cases h
        · exact hfree h
        · exact hst h
      have hlen := length_lt_of_free hm.increasing hmw ht hmfree
      have hstep : mergeSeqNoList nego node.2 node.1 = .ok merged := by
        rw [mergeSeqNoList, ← hmerged]
        exact if_neg (not_le.mpr hlen)
      obtain ⟨nego', hrest⟩ :=
        ih (fun x hx => hlists x (List.mem_cons_of_mem _ hx))
          hm.increasing hmw hmfree
      refine ⟨nego', ?_⟩
      rw [List.foldlM_cons, hstep]
      exact hrest

/-- **ALL COPIES**: lists of one window are merged if and only if a number of
    the window is in none of them. -/
theorem mergesAll_iff {lists : List (Fin n × List Nat)} {w : Nat}
    (hasc : ∀ node ∈ lists, node.2.Pairwise (· < ·))
    (hw : ∀ node ∈ lists, ∀ t ∈ node.2, w < t ∧ t ≤ w + seqQueueLen) :
    MergesAll lists ↔
      ∃ t, (w < t ∧ t ≤ w + seqQueueLen) ∧ ∀ node ∈ lists, t ∉ node.2 := by
  constructor
  · rintro ⟨nego, hmerge, hall⟩
    by_contra hfull
    push Not at hfull
    have hge : seqQueueLen ≤ nego.length := by
      refine length_ge_of_full (w := w) fun t hlt hle => ?_
      exact (hall.mem_iff t).mpr (hfull t ⟨hlt, hle⟩)
    have hlt := mergeLists_length hmerge
    omega
  · rintro ⟨t, ht, hfree⟩
    obtain ⟨nego, hmerge⟩ : ∃ nego, mergeLists lists = .ok nego :=
      mergeFold_ok ht
        (fun node hnode => ⟨hasc node hnode, hw node hnode, hfree node hnode⟩)
        .nil (fun u hu => by cases hu) (fun h => by cases h)
    exact ⟨nego, hmerge, mergeLists_ok
      (fun node hnode => (hasc node hnode).imp le_of_lt) hmerge⟩

/-- **LISTS OF A MIGRATION**: a reachable copy lists what it has saved exactly
    if at most the first number behind its horizon has been committed, and
    lists of one window are merged exactly if they leave a number of it
    free. -/
theorem seqNoLists_iff {es : List (Event n δ)} {s : State n δ}
    (hrun : runFrom step .init es = some s) (i : Fin n)
    (lists : List (Fin n × List Nat)) (w : Nat)
    (hasc : ∀ node ∈ lists, node.2.Pairwise (· < ·))
    (hw : ∀ node ∈ lists, ∀ t ∈ node.2, w < t ∧ t ≤ w + seqQueueLen) :
    ((s.slaves i).Listed ↔
        (s.slaves i).commitSeqNo ≤ (s.slaves i).negoSeqNo + 1) ∧
      (MergesAll lists ↔
        ∃ t, (w < t ∧ t ≤ w + seqQueueLen) ∧
          ∀ node ∈ lists, t ∉ node.2) := by
  obtain ⟨hinv, hlast⟩ := reachable_lastSaved hrun
  exact ⟨listed_iff (hinv.slave i) (hlast i), mergesAll_iff hasc hw⟩

/-- One number that the first copy has accepted. -/
def oneAccepted : List (Event 2 Unit) :=
  [.apply (), .deliver (two 0) 0 true]

theorem seqNoLists_once :
    ∃ s, runFrom step .init oneAccepted = some s ∧
      (s.slaves (two 0)).Listed ∧
      MergesAll [(two 0, [1, 2]), (two 1, [2, 4])] := by
  obtain ⟨s, hrun⟩ : ∃ s, runFrom step .init oneAccepted = some s := ⟨_, rfl⟩
  have hlists := seqNoLists_iff hrun (two 0)
    [(two 0, [1, 2]), (two 1, [2, 4])] 0 (by decide) (by decide)
  refine ⟨s, hrun, hlists.1.mpr ?_, hlists.2.mpr ⟨3, by decide, by decide⟩⟩
  cases hrun
  exact le_refl _

/-- Two numbers that the first copy has accepted. -/
def twoAccepted : List (Event 2 Unit) :=
  [.apply (), .apply (), .deliver (two 0) 0 true, .deliver (two 0) 1 true]

/-- Of two saved numbers the list names the first one twice, and a full window
    is not merged. -/
theorem seqNoLists_first_twice :
    (∃ s, runFrom step .init twoAccepted = some s ∧
      (s.slaves (two 0)).Saved 1 ∧ (s.slaves (two 0)).Saved 2 ∧
      (s.slaves (two 0)).negoSeqNo = 0 ∧
      getSeqNoList2Slv (s.slaves (two 0)) = [1, 1]) ∧
    mergeLists [(two 0, List.range' 1 16)] = .error .err := by
  refine ⟨⟨_, rfl, ⟨⟨1, ()⟩, rfl, rfl⟩, ⟨⟨2, ()⟩, rfl, rfl⟩, rfl, rfl⟩, ?_⟩
  rfl

end UbsIo.Sequence
