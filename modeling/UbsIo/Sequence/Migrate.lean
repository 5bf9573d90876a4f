import UbsIo.Lib.Traverse
import UbsIo.Sequence.Window

/-! # Master migration

    `NotifyPtMigrateImpl`: a node that becomes the master of a partition asks
    the running copies which requests they have saved, merges the lists, hands
    the requests on and sets its own counter.

    `GetSeqNoList2Slv` names only the first number behind a copy's horizon, and
    `PutSeqNoData` sends a request back to the copy it has just been fetched
    from, so the copies are left as they were (`syncLoop_same`).  The migration
    has done its work exactly when there was nothing to do (`Settled`). -/

namespace UbsIo.Sequence

open UbsIo.Lib UbsIo.Cache

variable {n g : Nat} {δ : Type}

/-! ## Merging -/

section Merge

variable {α : Type}

/-- One entry behind the merged list, unless it is the last one already. -/
def push (merge : List (Nat × α)) (p : Nat × α) : List (Nat × α) :=
  if merge.getLast?.map Prod.fst = some p.1 then merge else merge ++ [p]

/-- The three loops of `MergeSeqNoList`, with enough rounds for the entries
    that are left. -/
def mergeLoop (remoteId : α) :
    Nat → List (Nat × α) → List (Nat × α) → List Nat → List (Nat × α)
  | 0, merge, _, _ => merge
  | k + 1, merge, p :: nego, t :: seqs =>
      if p.1 < t then mergeLoop remoteId k (push merge p) nego (t :: seqs)
      else if p.1 > t then
        mergeLoop remoteId k (push merge (t, remoteId)) (p :: nego) seqs
      else mergeLoop remoteId k (push merge p) nego seqs
  | k + 1, merge, p :: nego, [] =>
      mergeLoop remoteId k (push merge p) nego []
  | k + 1, merge, [], t :: seqs =>
      mergeLoop remoteId k (push merge (t, remoteId)) [] seqs
  | _ + 1, merge, [], [] => merge

/-- `MergeSeqNoList`. -/
def mergeSeqNoList (nego : List (Nat × α)) (seqs : List Nat) (remoteId : α) :
    Except BResult (List (Nat × α)) :=
  let merge := mergeLoop remoteId (nego.length + seqs.length) [] nego seqs
  if merge.length ≥ seqQueueLen then .error .err else .ok merge

/-- The numbers increase. -/
def Increasing (l : List (Nat × α)) : Prop :=
  l.Pairwise fun p q => p.1 < q.1

/-- No number of `merge` is above one of `nego` and `seqs`. -/
def Before (merge nego : List (Nat × α)) (seqs : List Nat) : Prop :=
  ∀ p ∈ merge, (∀ q ∈ nego, p.1 ≤ q.1) ∧ ∀ t ∈ seqs, p.1 ≤ t

theorem push_spec {merge : List (Nat × α)} (hm : Increasing merge)
    {p : Nat × α} (hp : ∀ q ∈ merge, q.1 ≤ p.1) :
    Increasing (push merge p) ∧
      (∀ t, t ∈ (push merge p).map Prod.fst ↔
        t = p.1 ∨ t ∈ merge.map Prod.fst) ∧
      ∀ q ∈ push merge p, q = p ∨ q ∈ merge := by
  rw [push]
  split
  · rename_i hlast
    obtain ⟨q, hq, hfst⟩ := Option.map_eq_some_iff.mp hlast
    have hmem := List.mem_of_getLast? hq
    refine ⟨hm, ?_, fun q hq => .inr hq⟩
    intro t
    constructor
    · exact .inr
    · rintro (rfl | ht)
      · rw [← hfst]
        exact List.mem_map_of_mem hmem
      · exact ht
  · rename_i hlast
    refine ⟨?_, ?_, ?_⟩
    · refine List.pairwise_append.mpr ⟨hm, List.pairwise_singleton _ _, ?_⟩
      intro q hq p' hp'
      rw [List.mem_singleton.mp hp']
      -- a number equal to the new one would be the last of the list
      obtain ⟨init, last, rfl⟩ : ∃ init last, merge = init ++ [last] :=
        ⟨_, _, (List.dropLast_append_getLast (List.ne_nil_of_mem hq)).symm⟩
      rw [List.getLast?_concat] at hlast
      have hle := hp last (by simp)
      have hne : last.1 ≠ p.1 := fun h => hlast (by rw [Option.map_some, h])
      obtain hq | hq := List.mem_append.mp hq
      · have := (List.pairwise_append.mp hm).2.2 q hq last (by simp)
        omega
      · rw [List.mem_singleton.mp hq]
        omega
    · intro t
      simp [or_comm]
    · intro q hq
      obtain hq | hq := List.mem_append.mp hq
      · exact .inr hq
      · exact .inl (List.mem_singleton.mp hq)

/-- What the merged list contains. -/
structure Merged (remoteId : α) (merge nego : List (Nat × α))
    (seqs : List Nat) (merged : List (Nat × α)) : Prop where
  increasing : Increasing merged
  mem_iff : ∀ t, t ∈ merged.map Prod.fst ↔
    t ∈ merge.map Prod.fst ∨ t ∈ nego.map Prod.fst ∨ t ∈ seqs
  origin : ∀ p ∈ merged,
    p ∈ merge ∨ p ∈ nego ∨ p.1 ∈ seqs ∧ p.2 = remoteId

/-- Taking the entry `p` from the front of `nego`, of `seqs` or of both. -/
theorem Merged.push {remoteId : α} {merge nego nego' : List (Nat × α)}
    {seqs seqs' : List Nat} {p : Nat × α} {merged : List (Nat × α)}
    (hm : Increasing merge) (hp : ∀ q ∈ merge, q.1 ≤ p.1)
    (hp' : p ∈ nego ∨ p.1 ∈ seqs ∧ p.2 = remoteId)
    (hnego : ∀ q, q ∈ nego → q = p ∨ q ∈ nego')
    (hnego' : ∀ q ∈ nego', q ∈ nego)
    (hseqs : ∀ t, t ∈ seqs → t = p.1 ∨ t ∈ seqs')
    (hseqs' : ∀ t ∈ seqs', t ∈ seqs)
    (h : Merged remoteId (push merge p) nego' seqs' merged) :
    Merged remoteId merge nego seqs merged := by
  obtain ⟨-, hmem, horigin⟩ := push_spec hm hp
  refine ⟨h.increasing, ?_, ?_⟩
  · intro t
    rw [h.mem_iff, hmem]
    constructor
    · rintro ((rfl | ht) | ht | ht)
      · obtain hp' | ⟨hp', -⟩ := hp'
        · exact .inr (.inl (List.mem_map_of_mem hp'))
        · exact .inr (.inr hp')
      · exact .inl ht
      · obtain ⟨q, hq, rfl⟩ := List.mem_map.mp ht
        exact .inr (.inl (List.mem_map_of_mem (hnego' q hq)))
      · exact .inr (.inr (hseqs' t ht))
    · rintro (ht | ht | ht)
      · exact .inl (.inr ht)
      · obtain ⟨q, hq, rfl⟩ := List.mem_map.mp ht
        obtain rfl | hq := hnego q hq
        · exact .inl (.inl rfl)
        · exact .inr (.inl (List.mem_map_of_mem hq))
      · obtain rfl | ht := hseqs t ht
        · exact .inl (.inl rfl)
        · exact .inr (.inr ht)
  · intro q hq
    obtain hq | hq | ⟨hq, hloc⟩ := h.origin q hq
    · obtain rfl | hq := horigin q hq
      · exact .inr hp'
      · exact .inl hq
    · exact .inr (.inl (hnego' q hq))
    · exact .inr (.inr ⟨hseqs' _ hq, hloc⟩)

/-- An entry below everything that is left can be pushed. -/
theorem Before.push {merge nego : List (Nat × α)} {seqs : List Nat}
    {p : Nat × α} (hm : Increasing merge) (hp : ∀ q ∈ merge, q.1 ≤ p.1)
    (hb : Before merge nego seqs) (hnego : ∀ q ∈ nego, p.1 ≤ q.1)
    (hseqs : ∀ t ∈ seqs, p.1 ≤ t) : Before (push merge p) nego seqs := by
  intro q hq
  obtain rfl | hq := (push_spec hm hp).2.2 q hq
  · exact ⟨hnego, hseqs⟩
  · exact hb q hq

theorem mergeLoop_spec (remoteId : α) (k : Nat) :
    ∀ {merge nego : List (Nat × α)} {seqs : List Nat},
      nego.length + seqs.length ≤ k → Increasing merge →
      Before merge nego seqs → nego.Pairwise (fun p q => p.1 ≤ q.1) →
      seqs.Pairwise (· ≤ ·) →
      Merged remoteId merge nego seqs
        (mergeLoop remoteId k merge nego seqs) := by
  have hstop : ∀ {merge : List (Nat × α)}, Increasing merge →
      Merged remoteId merge [] [] merge := by
    intro merge hm
    exact ⟨hm, fun t => by simp, fun p hp => .inl hp⟩
  induction k with
  | zero =>
      intro merge nego seqs hk hm hb hn hs
      obtain rfl := List.length_eq_zero_iff.mp (show nego.length = 0 by omega)
      obtain rfl := List.length_eq_zero_iff.mp (show seqs.length = 0 by omega)
      exact hstop hm
  | succ k ih =>
      intro merge nego seqs hk hm hb hn hs
      match nego, seqs with
      | [], [] => exact hstop hm
      | p :: nego, [] =>
          obtain ⟨hn1, hn2⟩ := List.pairwise_cons.mp hn
          have hp : ∀ q ∈ merge, q.1 ≤ p.1 := fun q hq =>
            (hb q hq).1 p List.mem_cons_self
          have hb' : Before (push merge p) nego [] :=
            .push hm hp (fun q hq => ⟨fun r hr =>
              (hb q hq).1 r (List.mem_cons_of_mem _ hr), nofun⟩) hn1 nofun
          exact Merged.push hm hp (.inl List.mem_cons_self)
            (fun q hq => List.mem_cons.mp hq)
            (fun q hq => List.mem_cons_of_mem _ hq) (by simp) (by simp)
            (ih (by simp only [List.length_cons] at hk ⊢; omega)
              (push_spec hm hp).1 hb' hn2 hs)
      | [], t :: seqs =>
          obtain ⟨hs1, hs2⟩ := List.pairwise_cons.mp hs
          have hp : ∀ q ∈ merge, q.1 ≤ (t, remoteId).1 := fun q hq =>
            (hb q hq).2 t List.mem_cons_self
          have hb' : Before (push merge (t, remoteId)) [] seqs :=
            .push hm hp (fun q hq => ⟨nofun, fun u hu =>
              (hb q hq).2 u (List.mem_cons_of_mem _ hu)⟩) nofun hs1
          exact Merged.push hm hp (.inr ⟨List.mem_cons_self, rfl⟩) (by simp)
            (by simp) (fun u hu => List.mem_cons.mp hu)
            (fun u hu => List.mem_cons_of_mem _ hu)
            (ih (by simp only [List.length_cons] at hk ⊢; omega)
              (push_spec hm hp).1 hb' hn hs2)
      | p :: nego, t :: seqs =>
          obtain ⟨hn1, hn2⟩ := List.pairwise_cons.mp hn
          obtain ⟨hs1, hs2⟩ := List.pairwise_cons.mp hs
          have hp : ∀ q ∈ merge, q.1 ≤ p.1 := fun q hq =>
            (hb q hq).1 p List.mem_cons_self
          have ht : ∀ q ∈ merge, q.1 ≤ (t, remoteId).1 := fun q hq =>
            (hb q hq).2 t List.mem_cons_self
          simp only [List.length_cons] at hk
          simp only [mergeLoop]
          split
          · rename_i hlt
            have hb' : Before (push merge p) nego (t :: seqs) := by
              refine .push hm hp (fun q hq => ⟨fun r hr =>
                (hb q hq).1 r (List.mem_cons_of_mem _ hr), (hb q hq).2⟩) hn1 ?_
              intro u hu
              obtain rfl | hu := List.mem_cons.mp hu
              · omega
              · have := hs1 u hu
                omega
            exact Merged.push hm hp (.inl List.mem_cons_self)
              (fun q hq => List.mem_cons.mp hq)
              (fun q hq => List.mem_cons_of_mem _ hq) (fun u hu => .inr hu)
              (fun u hu => hu)
              (ih (by simp only [List.length_cons]; omega)
                (push_spec hm hp).1 hb' hn2 hs)
          · split
            · rename_i hgt
              have hb' : Before (push merge (t, remoteId)) (p :: nego)
                  seqs := by
                refine .push hm ht (fun q hq => ⟨(hb q hq).1, fun u hu =>
                  (hb q hq).2 u (List.mem_cons_of_mem _ hu)⟩) ?_ hs1
                intro q hq
                show t ≤ q.1
                obtain rfl | hq := List.mem_cons.mp hq
                · omega
                · have := hn1 q hq
                  omega
              exact Merged.push hm ht (.inr ⟨List.mem_cons_self, rfl⟩)
                (fun q hq => .inr hq) (fun q hq => hq)
                (fun u hu => List.mem_cons.mp hu)
                (fun u hu => List.mem_cons_of_mem _ hu)
                (ih (by simp only [List.length_cons]; omega)
                  (push_spec hm ht).1 hb' hn hs2)
            · have heq : t = p.1 := by omega
              have hb' : Before (push merge p) nego seqs :=
                .push hm hp (fun q hq =>
                  ⟨fun r hr => (hb q hq).1 r (List.mem_cons_of_mem _ hr),
                    fun u hu => (hb q hq).2 u (List.mem_cons_of_mem _ hu)⟩)
                  hn1 (heq ▸ hs1)
              refine Merged.push hm hp (.inl List.mem_cons_self)
                (fun q hq => List.mem_cons.mp hq)
                (fun q hq => List.mem_cons_of_mem _ hq) ?_
                (fun u hu => List.mem_cons_of_mem _ hu)
                (ih (by omega) (push_spec hm hp).1 hb' hn2 hs2)
              intro u hu
              obtain rfl | hu := List.mem_cons.mp hu
              · exact .inl heq
              · exact .inr hu

theorem mergeSeqNoList_spec {remoteId : α} {nego merged : List (Nat × α)}
    {seqs : List Nat} (hn : Increasing nego) (hs : seqs.Pairwise (· ≤ ·))
    (h : mergeSeqNoList nego seqs remoteId = .ok merged) :
    Merged remoteId [] nego seqs merged := by
  simp only [mergeSeqNoList] at h
  split at h
  · cases h
  · cases h
    exact mergeLoop_spec remoteId _ (le_refl _) .nil nofun
      (hn.imp le_of_lt) hs

/-- The last number of an increasing list is its largest. -/
theorem Increasing.le_getLast {l : List (Nat × α)} (hl : Increasing l)
    {last : Nat × α} (h : l.getLast? = some last) {t : Nat}
    (ht : t ∈ l.map Prod.fst) : t ≤ last.1 := by
  obtain ⟨q, hq, rfl⟩ := List.mem_map.mp ht
  obtain ⟨init, rfl⟩ := List.getLast?_eq_some_iff.mp h
  obtain hq | hq := List.mem_append.mp hq
  · exact le_of_lt ((List.pairwise_append.mp hl).2.2 q hq last (by simp))
  · rw [List.mem_singleton.mp hq]

end Merge

/-! ## Model -/

/-- The requests that carry numbers, by `opcode`. -/
inductive Opcode where
  | put
  | multiPut
  | update
  | multiUpdate
  | delete
  | multiDelete
  | replace
  | multiReplace
deriving DecidableEq

/-- `IoDataRequest`: its opcode, and the items of any form. -/
structure IoDataRequest (β : Type) where
  opcode : Opcode
  items : β

/-- What happens outside of the queues while the master asks around: how each
    call over the net ends, which copies of data get memory, and with what code
    the items of a request are applied.  A call is made for a worker group, and
    but for the first also for a number and a copy. -/
structure Answers (n g : Nat) where
  list : Fin g → Fin n → BResult
  fetch : Fin g → Nat → Fin n → BResult
  dataTmp : Fin g → Nat → Fin n → Bool
  apply : Fin g → Nat → Fin n → BResult

/-- For each worker group the copies, and the queue of the new master. -/
structure Cluster (n g : Nat) (β : Type) where
  copies : Fin g → State n (IoDataRequest β)
  queues : Fin g → SlidingQueue

variable {β : Type}

section Migrate

variable (a : Answers n g) (localId : Fin n) (group : Fin g)

/-- `GetSeqNoList`. -/
def getSeqNoList (s : State n δ) (nid : Fin n) : Except BResult (List Nat) :=
  let seqList := getSeqNoList2Slv (s.slaves nid)
  if nid = localId then .ok seqList
  else if a.list group nid ≠ .ok then .error (a.list group nid)
  else if seqList.length > seqQueueLen then .error .invalidParam
  else .ok seqList

/-- `GetSeqNoData`; a copy elsewhere answers `MMS_INNER_ERR` when it does not
    have the number. -/
def getSeqNoData (s : State n δ) (negoSeqNo : Nat) (negoLocId remoteId : Fin n) :
    Except BResult δ :=
  if a.fetch group negoSeqNo remoteId ≠ .ok then
    .error (a.fetch group negoSeqNo remoteId)
  else
    match getSeqNoData2Slv (s.slaves negoLocId) negoSeqNo with
    | .ok data => .ok data
    | .error ret => .error (if negoLocId = localId then ret else .innerErr)

/-- `PutSeqNoData`, which has the holder of the number as its only target.  At
    the target the request goes to `NegoSeqNo2Slv` first, and then its items
    are applied. -/
def putSeqNoData (s : State n (IoDataRequest β)) (negoSeqNo : Nat)
    (negoLocId remoteId : Fin n) (data : IoDataRequest β) :
    Except BResult (State n (IoDataRequest β)) :=
  if negoLocId = localId ∧ data.opcode ≠ .put ∧ data.opcode ≠ .update ∧
      data.opcode ≠ .delete then .error .err
  else
    let r := s.call negoLocId ⟨negoSeqNo, negoSeqNo - 1, data⟩
      (a.dataTmp group negoSeqNo remoteId)
    if r.1 ≠ .ok then .error r.1
    else if a.apply group negoSeqNo remoteId ≠ .ok then
      .error (a.apply group negoSeqNo remoteId)
    else .ok (s.answer negoLocId negoSeqNo r)

/-- `SyncSeqNoData`, for a copy and its list. -/
def syncSeqNoData (nego : Nat × Fin n) (s : State n (IoDataRequest β))
    (node : Fin n × List Nat) : Except BResult (State n (IoDataRequest β)) :=
  if nego.1 ∈ node.2 then .ok s
  else do
    let data ← getSeqNoData a localId group s nego.1 nego.2 node.1
    putSeqNoData a localId group s nego.1 nego.2 node.1 data

/-- The two loops around `SyncSeqNoData`. -/
def syncLoop (lists : List (Fin n × List Nat)) (nego : List (Nat × Fin n))
    (s : State n (IoDataRequest β)) :
    Except BResult (State n (IoDataRequest β)) :=
  nego.foldlM (fun s p => lists.foldlM (syncSeqNoData a localId group p) s) s

/-- The loop over `MergeSeqNoList`. -/
def mergeLists (lists : List (Fin n × List Nat)) :
    Except BResult (List (Nat × Fin n)) :=
  lists.foldlM (fun nego node => mergeSeqNoList nego node.2 node.1) []

/-- The loop over `GetSeqNoList`. -/
def getLists (s : State n δ) (nodeList : List (Fin n)) :
    Except BResult (List (Fin n × List Nat)) :=
  nodeList.foldlM (fun lists nid => do
    let seqList ← getSeqNoList a localId group s nid
    pure (lists ++ [(nid, seqList)])) []

end Migrate

/-- One round of `NotifyPtMigrateImpl`, for a worker group. -/
def migrateGroup (a : Answers n g) (localId : Fin n) (nodeList : List (Fin n))
    (c : Cluster n g β) (group : Fin g) : Except BResult (Cluster n g β) := do
  let lists ← getLists a localId group (c.copies group) nodeList
  let nego ← mergeLists lists
  let s ← syncLoop a localId group lists nego (c.copies group)
  pure
    { copies := Function.update c.copies group s
      queues :=
        match nego.getLast? with
        | some last =>
            Function.update c.queues group (resetSeqNoState2Mst last.1)
        | none => c.queues }

/-- `NotifyPtMigrateImpl`, for the copies that are `CM_COPY_RUNNING`. -/
def notifyPtMigrateImpl (a : Answers n g) (localId : Fin n)
    (nodeList : List (Fin n)) (c : Cluster n g β) :
    Except BResult (Cluster n g β) :=
  (List.finRange g).foldlM (migrateGroup a localId nodeList) c

/-! ## Lists -/

/-- The only number a copy can name is the first one behind its horizon. -/
theorem mem_getSeqNoList2Slv {q : NegoQueue δ} (hq : q.Windowed) {t : Nat} :
    t ∈ getSeqNoList2Slv q ↔ t = q.negoSeqNo + 1 ∧ q.Saved t := by
  rw [getSeqNoList2Slv, List.mem_filterMap]
  constructor
  · rintro ⟨_, -, hslot⟩
    obtain ⟨v, hv, rfl⟩ := Option.map_eq_some_iff.mp hslot
    have hfirst := hq.first hv
    refine ⟨hfirst, v, ?_, rfl⟩
    rw [NegoQueue.Holds, hfirst]
    exact hv
  · rintro ⟨rfl, v, hv, hseq⟩
    rw [NegoQueue.Holds, hseq] at hv
    refine ⟨q.negoSeqNo, ?_, by rw [hv, Option.map_some, hseq]⟩
    have := hq.commit hv
    have := hq.above hv
    rw [List.mem_range'_1]
    omega

theorem pairwise_getSeqNoList2Slv {q : NegoQueue δ} (hq : q.Windowed) :
    (getSeqNoList2Slv q).Pairwise (· ≤ ·) := by
  refine List.pairwise_of_forall_mem_list ?_
  intro t ht u hu
  have h1 := ((mem_getSeqNoList2Slv hq).mp ht).1
  have h2 := ((mem_getSeqNoList2Slv hq).mp hu).1
  omega

theorem getSeqNoList_ok {a : Answers n g} {localId : Fin n} {group : Fin g}
    {s : State n δ} {nid : Fin n} {seqList : List Nat}
    (h : getSeqNoList a localId group s nid = .ok seqList) :
    seqList = getSeqNoList2Slv (s.slaves nid) := by
  simp only [getSeqNoList] at h
  split at h
  · exact (Except.ok.inj h).symm
  · split at h
    · cases h
    · split at h
      · cases h
      · exact (Except.ok.inj h).symm

theorem getLists_ok {a : Answers n g} {localId : Fin n} {group : Fin g}
    {s : State n δ} {nodeList : List (Fin n)}
    {lists : List (Fin n × List Nat)}
    (h : getLists a localId group s nodeList = .ok lists) :
    lists = nodeList.map fun i => (i, getSeqNoList2Slv (s.slaves i)) := by
  refine foldlM_ok_prefix (P := fun done lists =>
    lists = done.map fun i => (i, getSeqNoList2Slv (s.slaves i))) ?_ rfl h
  intro done i todo lists lists' _ hP hstep
  obtain ⟨seqList, hlist, hstep⟩ := bind_ok hstep
  cases hstep
  rw [List.map_append, hP, getSeqNoList_ok hlist]
  rfl

/-- What the merged list of all copies contains. -/
structure MergedAll (lists : List (Fin n × List Nat))
    (nego : List (Nat × Fin n)) : Prop where
  increasing : Increasing nego
  mem_iff : ∀ t, t ∈ nego.map Prod.fst ↔ ∃ node ∈ lists, t ∈ node.2
  origin : ∀ p ∈ nego, ∃ node ∈ lists, p.1 ∈ node.2 ∧ p.2 = node.1

theorem mergeLists_ok {lists : List (Fin n × List Nat)}
    {nego : List (Nat × Fin n)}
    (hsorted : ∀ node ∈ lists, node.2.Pairwise (· ≤ ·))
    (h : mergeLists lists = .ok nego) : MergedAll lists nego := by
  refine foldlM_ok_prefix (P := MergedAll) ?_
    ⟨.nil, fun t => by simp, nofun⟩ h
  intro done node todo nego nego' hl hP hstep
  have hm := mergeSeqNoList_spec hP.increasing
    (hsorted node (by rw [hl]; simp)) hstep
  refine ⟨hm.increasing, ?_, ?_⟩
  · intro t
    rw [hm.mem_iff, hP.mem_iff]
    simp [or_and_right, exists_or]
  · intro p hp
    obtain hp | hp | ⟨hp, hloc⟩ := hm.origin p hp
    · cases hp
    · obtain ⟨node', hmem, hp⟩ := hP.origin p hp
      exact ⟨node', List.mem_append_left _ hmem, hp⟩
    · exact ⟨node, by simp, hp, hloc⟩

/-! ## Handing on -/

/-- The copies hold the same, and each has accepted the same numbers. -/
structure State.Same (s s' : State n δ) : Prop where
  slaves : s'.slaves = s.slaves
  accepted : ∀ i t, t ∈ s'.accepted i ↔ t ∈ s.accepted i

theorem State.Same.refl (s : State n δ) : s.Same s := ⟨rfl, fun _ _ => .rfl⟩

theorem State.Same.trans {s s' s'' : State n δ} (h : s.Same s')
    (h' : s'.Same s'') : s.Same s'' :=
  ⟨h'.slaves.trans h.slaves, fun i t => (h'.accepted i t).trans (h.accepted i t)⟩

/-- A copy that gets a number again which it has saved does not change. -/
theorem State.same_answer {s : State n δ} {i : Fin n} {m : Message δ}
    {b : Bool} (hsaved : (s.slaves i).Saved m.seqNo)
    (hacc : m.seqNo ∈ s.accepted i) :
    s.Same (s.answer i m.seqNo (s.call i m b)) := by
  have hq : (s.call i m b).2 = s.slaves i := by
    obtain ⟨hq, -⟩ | ⟨-, hempty, -⟩ := s.call_cases i m b
    · exact hq
    · obtain ⟨v, hv, hseq⟩ := hsaved
      rw [NegoQueue.Holds, hseq, hempty] at hv
      cases hv
  refine ⟨?_, ?_⟩
  · simp only [State.answer, hq, Function.update_eq_self]
  · intro j t
    simp only [State.answer]
    split
    · by_cases hj : j = i
      · subst hj
        rw [Function.update_self, List.mem_cons]
        refine ⟨?_, .inr⟩
        rintro (rfl | ht)
        · exact hacc
        · exact ht
      · rw [Function.update_of_ne hj]
    · exact .rfl

section Sync

variable {a : Answers n g} {localId : Fin n} {group : Fin g}
  {s s' : State n (IoDataRequest β)}

theorem syncSeqNoData_same {p : Nat × Fin n} {node : Fin n × List Nat}
    (hsaved : (s.slaves p.2).Saved p.1) (hacc : p.1 ∈ s.accepted p.2)
    (h : syncSeqNoData a localId group p s node = .ok s') : s.Same s' := by
  simp only [syncSeqNoData] at h
  split at h
  · cases h
    exact .refl s
  · obtain ⟨data, -, h⟩ := bind_ok h
    simp only [putSeqNoData] at h
    split at h
    · cases h
    · split at h
      · cases h
      · split at h
        · cases h
        · cases h
          exact State.same_answer (m := ⟨p.1, p.1 - 1, data⟩) hsaved hacc

/-- **NOTHING IS HANDED ON**: when every number is held where it is looked for,
    the loops leave the copies as they are. -/
theorem syncLoop_same {lists : List (Fin n × List Nat)}
    {nego : List (Nat × Fin n)}
    (hsaved : ∀ p ∈ nego, (s.slaves p.2).Saved p.1)
    (hacc : ∀ p ∈ nego, p.1 ∈ s.accepted p.2)
    (h : syncLoop a localId group lists nego s = .ok s') : s.Same s' := by
  refine foldlM_ok_prefix (P := fun _ s' => s.Same s') ?_ (.refl s) h
  intro _ p todo t t' hl hsame hstep
  have hp : p ∈ nego := by
    rw [hl]
    simp
  refine foldlM_ok_prefix (P := fun _ t' => s.Same t') ?_ hsame hstep
  intro _ node _ u u' _ hsame hstep
  refine hsame.trans (syncSeqNoData_same ?_ ?_ hstep)
  · rw [hsame.slaves]
    exact hsaved p hp
  · exact (hsame.accepted _ _).mpr (hacc p hp)

end Sync

/-! ## The new master's numbers -/

/-- The queue of a master: fresh, or after any calls. -/
inductive SlidingQueue.Reached : SlidingQueue → Prop
  | fresh : Reached .fresh
  | reset (seqNo : Nat) : Reached (resetSeqNoState2Mst seqNo)
  | apply {q q' : SlidingQueue} {seqNo negoSeqNo : Nat} : Reached q →
      applyForSeqNo2Mst q = .ok (seqNo, negoSeqNo, q') → Reached q'
  | release {q : SlidingQueue} (seqNo : Nat) : Reached q →
      Reached (releaseSeqNo2Mst q seqNo)

/-- What a master does with its queue while it serves. -/
inductive MasterCall where
  | apply
  | release (seqNo : Nat)

/-- The numbers that a master issues. -/
def issued : SlidingQueue → List MasterCall → List Nat
  | _, [] => []
  | q, .apply :: calls =>
      match applyForSeqNo2Mst q with
      | .ok (seqNo, _, q') => seqNo :: issued q' calls
      | .error _ => issued q calls
  | q, .release seqNo :: calls => issued (releaseSeqNo2Mst q seqNo) calls

theorem slide_bounds (k : Nat) (q : SlidingQueue) :
    q.left ≤ (slide k q).left ∧ (slide k q).right = q.right := by
  induction k generalizing q with
  | zero => exact ⟨le_refl _, rfl⟩
  | succ k ih =>
      simp only [slide]
      split
      · obtain ⟨hleft, hright⟩ := ih { q with
          left := q.left + 1
          finish := Function.update q.finish (seqIdx (q.left + 1)) false }
        exact ⟨le_trans (Nat.le_succ _) hleft, hright⟩
      · exact ⟨le_refl _, rfl⟩

theorem release_bounds (q : SlidingQueue) (seqNo : Nat) :
    q.left ≤ (releaseSeqNo2Mst q seqNo).left ∧
      (releaseSeqNo2Mst q seqNo).right = q.right := by
  rw [releaseSeqNo2Mst]
  exact slide_bounds (q.right - q.left)
    { q with finish := Function.update q.finish (seqIdx seqNo) true }

theorem apply_ok {q q' : SlidingQueue} {seqNo negoSeqNo : Nat}
    (h : applyForSeqNo2Mst q = .ok (seqNo, negoSeqNo, q')) :
    seqNo = q.right + 1 ∧ q' = { q with right := q.right + 1 } ∧
      q.right - q.left < 16 := by
  simp only [applyForSeqNo2Mst] at h
  split at h
  · rename_i hroom
    cases h
    exact ⟨rfl, rfl, hroom⟩
  · cases h

theorem SlidingQueue.Reached.right_le {q : SlidingQueue} (h : q.Reached) :
    q.right ≤ q.left + 16 := by
  induction h with
  | fresh => exact Nat.zero_le _
  | reset seqNo => exact Nat.le_add_right _ _
  | @apply q _ _ _ _ hok ih =>
      obtain ⟨-, rfl, hroom⟩ := apply_ok hok
      show q.right + 1 ≤ q.left + 16
      omega
  | @release q seqNo _ ih =>
      obtain ⟨hleft, hright⟩ := release_bounds q seqNo
      omega

/-- Every number a master issues is behind its counter. -/
theorem lt_of_mem_issued {q : SlidingQueue} {calls : List MasterCall}
    {t : Nat} (h : t ∈ issued q calls) : q.right < t := by
  induction calls generalizing q with
  | nil => cases h
  | cons call calls ih =>
      cases call with
      | release seqNo =>
          have := ih (q := releaseSeqNo2Mst q seqNo) h
          rwa [(release_bounds q seqNo).2] at this
      | apply =>
          cases hok : applyForSeqNo2Mst q with
          | error e =>
              simp only [issued, hok] at h
              exact ih h
          | ok r =>
              obtain ⟨seqNo, negoSeqNo, q'⟩ := r
              obtain ⟨rfl, rfl, -⟩ := apply_ok hok
              simp only [issued, hok] at h
              obtain rfl | h := List.mem_cons.mp h
              · exact Nat.lt_succ_self _
              · have : q.right + 1 < t := ih h
                omega

/-- A master can issue the number behind its counter, if need be after one
    release. -/
theorem exists_issued {q : SlidingQueue} (hq : q.right ≤ q.left + 16) :
    ∃ calls, q.right + 1 ∈ issued q calls := by
  have hroom : ∀ q : SlidingQueue, q.right - q.left < 16 →
      q.right + 1 ∈ issued q [.apply] := by
    intro q hq
    have hok : applyForSeqNo2Mst q =
        .ok (q.right + 1, q.left, { q with right := q.right + 1 }) := by
      simp only [applyForSeqNo2Mst, seqQueueLen]
      exact if_pos hq
    simp only [issued, hok]
    exact List.mem_cons_self
  by_cases hfull : q.right - q.left < 16
  · exact ⟨_, hroom q hfull⟩
  · -- releasing the oldest number makes room
    have hleft : q.left + 1 ≤ (releaseSeqNo2Mst q (q.left + 1)).left := by
      rw [releaseSeqNo2Mst, show q.right - q.left = 15 + 1 by omega, slide,
        if_pos (Function.update_self ..)]
      exact (slide_bounds 15 ⟨q.left + 1, q.right, _⟩).1
    have hright := (release_bounds q (q.left + 1)).2
    refine ⟨[.release (q.left + 1), .apply], ?_⟩
    have := hroom (releaseSeqNo2Mst q (q.left + 1)) (by omega)
    rwa [hright] at this

/-- Every later number is larger than `t` exactly when the counter is at least
    `t`. -/
theorem issued_above_iff {q : SlidingQueue} (hq : q.right ≤ q.left + 16)
    {t : Nat} : (∀ calls, ∀ u ∈ issued q calls, t < u) ↔ t ≤ q.right := by
  constructor
  · intro h
    obtain ⟨calls, hmem⟩ := exists_issued hq
    exact Nat.lt_succ_iff.mp (h calls _ hmem)
  · intro hle calls u hu
    exact lt_of_le_of_lt hle (lt_of_mem_issued hu)

/-! ## Results -/

/-- A running copy has saved the first number behind its horizon, which is
    `t`. -/
def State.First (s : State n δ) (running : List (Fin n)) (t : Nat) : Prop :=
  ∃ i ∈ running, t = (s.slaves i).negoSeqNo + 1 ∧ (s.slaves i).Saved t

/-- What one round leaves: the copies as they were, and the counter at the
    largest number of `First`, if there is one. -/
structure Migrated (running : List (Fin n)) (s s' : State n δ)
    (q q' : SlidingQueue) : Prop where
  same : s.Same s'
  queue : (∃ last, s.First running last ∧
      (∀ t, s.First running t → t ≤ last) ∧ q' = resetSeqNoState2Mst last) ∨
    ((∀ t, ¬ s.First running t) ∧ q' = q)

theorem migrateGroup_ok {a : Answers n g} {localId : Fin n}
    {running : List (Fin n)} {c c' : Cluster n g β} {group : Fin g}
    (hinv : Inv (c.copies group))
    (h : migrateGroup a localId running c group = .ok c') :
    Migrated running (c.copies group) (c'.copies group) (c.queues group)
        (c'.queues group) ∧
      ∀ other, other ≠ group → c'.copies other = c.copies other ∧
        c'.queues other = c.queues other := by
  obtain ⟨lists, hlists, h⟩ := bind_ok h
  obtain ⟨nego, hnego, h⟩ := bind_ok h
  obtain ⟨s, hsync, h⟩ := bind_ok h
  cases h
  obtain rfl := getLists_ok hlists
  have hall := mergeLists_ok (by
    intro node hnode
    obtain ⟨i, -, rfl⟩ := List.mem_map.mp hnode
    exact pairwise_getSeqNoList2Slv (hinv.slave i).windowed) hnego
  have hfirst : ∀ t, t ∈ nego.map Prod.fst ↔
      (c.copies group).First running t := by
    intro t
    rw [hall.mem_iff]
    constructor
    · rintro ⟨node, hnode, ht⟩
      obtain ⟨i, hi, rfl⟩ := List.mem_map.mp hnode
      exact ⟨i, hi, (mem_getSeqNoList2Slv (hinv.slave i).windowed).mp ht⟩
    · rintro ⟨i, hi, ht⟩
      exact ⟨_, List.mem_map_of_mem hi,
        (mem_getSeqNoList2Slv (hinv.slave i).windowed).mpr ht⟩
  have hsaved : ∀ p ∈ nego, ((c.copies group).slaves p.2).Saved p.1 := by
    intro p hp
    obtain ⟨node, hnode, hmem, hloc⟩ := hall.origin p hp
    obtain ⟨i, -, rfl⟩ := List.mem_map.mp hnode
    rw [hloc]
    exact ((mem_getSeqNoList2Slv (hinv.slave i).windowed).mp hmem).2
  have hsame := syncLoop_same hsaved
    (fun p hp => ((hinv.slave p.2).accepted_iff _).mpr (.inr (hsaved p hp)))
    hsync
  refine ⟨⟨by simpa only [Function.update_self] using hsame, ?_⟩, ?_⟩
  · cases hlast : nego.getLast? with
    | none =>
        right
        obtain rfl := List.getLast?_eq_none_iff.mp hlast
        refine ⟨fun t ht => ?_, rfl⟩
        cases (hfirst t).mpr ht
    | some last =>
        left
        refine ⟨last.1, ?_, ?_, Function.update_self ..⟩
        · exact (hfirst _).mp
            (List.mem_map_of_mem (List.mem_of_getLast? hlast))
        · exact fun t ht => hall.increasing.le_getLast hlast ((hfirst t).mpr ht)
  · intro other hne
    refine ⟨Function.update_of_ne hne .., ?_⟩
    cases nego.getLast? with
    | none => rfl
    | some last => exact Function.update_of_ne hne ..

theorem notifyPtMigrateImpl_ok {a : Answers n g} {localId : Fin n}
    {running : List (Fin n)} {c c' : Cluster n g β}
    (hinv : ∀ group, Inv (c.copies group))
    (h : notifyPtMigrateImpl a localId running c = .ok c') (group : Fin g) :
    Migrated running (c.copies group) (c'.copies group) (c.queues group)
      (c'.queues group) := by
  -- a group is migrated when its round is over, and untouched before
  have hall := foldlM_ok_prefix
    (P := fun done c' => ∀ group,
      (group ∈ done → Migrated running (c.copies group) (c'.copies group)
        (c.queues group) (c'.queues group)) ∧
      (group ∉ done → c'.copies group = c.copies group ∧
        c'.queues group = c.queues group))
    (by
      intro done next todo c1 c2 hl hP hstep group
      have hnodup := hl ▸ List.nodup_finRange g
      have hnext : next ∉ done := by
        intro hmem
        exact (List.nodup_append.mp hnodup).2.2 next hmem next (by simp) rfl
      obtain ⟨hcopies, hqueues⟩ := (hP next).2 hnext
      obtain ⟨hm, hframe⟩ := migrateGroup_ok
        (by rw [hcopies]; exact hinv next) hstep
      rw [hcopies, hqueues] at hm
      by_cases heq : group = next
      · subst heq
        refine ⟨fun _ => hm, fun hnot => absurd ?_ hnot⟩
        simp
      · obtain ⟨hc, hq⟩ := hframe group heq
        rw [hc, hq]
        simpa [heq] using hP group)
    (fun group => ⟨nofun, fun _ => ⟨rfl, rfl⟩⟩) h
  exact (hall group).1 (List.mem_finRange group)

/-- What the migration is for: each number that a running copy has saved is
    applied at every running copy, and every later number is larger. -/
def Completed (running : List (Fin n)) (c c' : Cluster n g β) : Prop :=
  ∀ group, ∀ i ∈ running, ∀ t, ((c.copies group).slaves i).Saved t →
    (∀ j ∈ running, t ∈ (c'.copies group).accepted j) ∧
    ∀ calls, ∀ u ∈ issued (c'.queues group) calls, t < u

/-- There is nothing to do: each number that a running copy has saved is saved
    at every running copy or behind its horizon, and it is not above the
    largest number of `First`, or, when there is none, not above the counter of
    the new master. -/
def Settled (running : List (Fin n)) (c : Cluster n g β) : Prop :=
  ∀ group, ∀ i ∈ running, ∀ t, ((c.copies group).slaves i).Saved t →
    (∀ j ∈ running, t ≤ ((c.copies group).slaves j).negoSeqNo ∨
      ((c.copies group).slaves j).Saved t) ∧
    ((∃ u, (c.copies group).First running u ∧ t ≤ u) ∨
      (∀ u, ¬ (c.copies group).First running u) ∧
        t ≤ (c.queues group).right)

theorem Inv.accepted_of_saved {s : State n δ} (h : Inv s) {i : Fin n}
    {t : Nat} (ht : (s.slaves i).Saved t) (j : Fin n) :
    t ∈ s.accepted j ↔
      t ≤ (s.slaves j).negoSeqNo ∨ (s.slaves j).Saved t := by
  have hpos : 0 < t := by
    obtain ⟨v, hv, rfl⟩ := ht
    have := (h.slave i).windowed.above hv
    omega
  rw [(h.slave j).accepted_iff]
  simp [hpos]

/-- **MIGRATION**: when every copy is in a state of the protocol and the call
    returns `MMS_OK`, it has completed what was under way exactly when there
    was nothing to do. -/
theorem migrate_completes_iff (a : Answers n g) (localId : Fin n)
    (running : List (Fin n)) (c c' : Cluster n g β)
    (hcopies : ∀ group, ∃ es, runFrom step .init es = some (c.copies group))
    (hqueues : ∀ group, (c.queues group).Reached)
    (hret : notifyPtMigrateImpl a localId running c = .ok c') :
    Completed running c c' ↔ Settled running c := by
  have hinv : ∀ group, Inv (c.copies group) := by
    intro group
    obtain ⟨es, hes⟩ := hcopies group
    exact runFrom_invariant (fun s e s' h hs => Inv.step h hs) Inv.init hes
  refine forall_congr' fun group => forall₂_congr fun i hi =>
    forall₂_congr fun t ht => ?_
  have hm := notifyPtMigrateImpl_ok hinv hret group
  refine and_congr ?_ ?_
  · refine forall₂_congr fun j hj => ?_
    rw [hm.same.accepted]
    exact (hinv group).accepted_of_saved ht j
  · obtain ⟨last, hlast, hmax, hq⟩ | ⟨hnone, hq⟩ := hm.queue
    · rw [hq, issued_above_iff (Nat.le_add_right _ _)]
      show t ≤ last ↔ _
      constructor
      · exact fun hle => .inl ⟨last, hlast, hle⟩
      · rintro (⟨u, hu, hle⟩ | ⟨hnone, -⟩)
        · exact le_trans hle (hmax u hu)
        · exact absurd hlast (hnone last)
    · rw [hq, issued_above_iff (hqueues group).right_le]
      constructor
      · exact fun hle => .inr ⟨hnone, hle⟩
      · rintro (⟨u, hu, -⟩ | ⟨-, hle⟩)
        · exact absurd hu (hnone u)
        · exact hle

/-- Two copies and one worker group, after the events; the second copy is the
    new master. -/
def clusterAfter (es : List (Event 2 (IoDataRequest Unit))) :
    Cluster 2 1 Unit :=
  ⟨fun _ => (runFrom step .init es).getD .init, fun _ => .fresh⟩

/-- Every call gets through. -/
def allWell : Answers 2 1 :=
  ⟨fun _ _ => .ok, fun _ _ _ => .ok, fun _ _ _ => true, fun _ _ _ => .ok⟩

/-- One put that both copies have accepted. -/
def bothAccepted : List (Event 2 (IoDataRequest Unit)) :=
  [.apply ⟨.put, ()⟩, .deliver (two 0) 0 true, .deliver (two 1) 0 true]

theorem migrate_completes_both_accepted :
    ∃ c', notifyPtMigrateImpl allWell 1 [0, 1] (clusterAfter bothAccepted) =
        .ok c' ∧ Completed [0, 1] (clusterAfter bothAccepted) c' := by
  have hret : (notifyPtMigrateImpl allWell 1 [0, 1]
      (clusterAfter bothAccepted)).isOk = true := by decide +kernel
  cases hc : notifyPtMigrateImpl allWell 1 [0, 1]
      (clusterAfter bothAccepted) with
  | error e =>
      rw [hc] at hret
      cases hret
  | ok c' =>
      refine ⟨c', rfl, (migrate_completes_iff allWell 1 [0, 1] _ c'
        (fun _ => ⟨bothAccepted, rfl⟩) (fun _ => .fresh) hc).mpr ?_⟩
      intro group i _ t ht
      have hone : ∀ (i : Fin 2) (idx : Fin 16),
          (((clusterAfter bothAccepted).copies group).slaves i).valueList
            idx = if idx = 1 then some ⟨1, .put, ()⟩ else none := by
        intro i idx
        fin_cases i <;> fin_cases idx <;> rfl
      have ht : t = 1 := by
        obtain ⟨v, hv, rfl⟩ := ht
        rw [NegoQueue.Holds, hone] at hv
        split at hv
        · cases hv
          rfl
        · cases hv
      have hsaved : ∀ i : Fin 2,
          (((clusterAfter bothAccepted).copies group).slaves i).Saved 1 := by
        intro i
        exact ⟨⟨1, .put, ()⟩, hone i 1, rfl⟩
      subst ht
      exact ⟨fun j _ => .inr (hsaved j),
        .inl ⟨1, ⟨0, by simp, rfl, hsaved 0⟩, le_refl _⟩⟩

/-- One put that only the first copy has accepted. -/
def firstAccepted : List (Event 2 (IoDataRequest Unit)) :=
  [.apply ⟨.put, ()⟩, .deliver (two 0) 0 true]

/-- The call returns `MMS_OK`, and the second copy still does not have the
    put. -/
theorem migrate_leaves_second_copy :
    (∀ group, ∃ es, runFrom step .init es =
      some ((clusterAfter firstAccepted).copies group)) ∧
    (∀ group, ((clusterAfter firstAccepted).queues group).Reached) ∧
    ∃ c', notifyPtMigrateImpl allWell 1 [0, 1] (clusterAfter firstAccepted) =
        .ok c' ∧ ¬ Completed [0, 1] (clusterAfter firstAccepted) c' := by
  refine ⟨fun _ => ⟨firstAccepted, rfl⟩, fun _ => .fresh, ?_⟩
  have hret : ((notifyPtMigrateImpl allWell 1 [0, 1]
      (clusterAfter firstAccepted)).map fun c' =>
        (c'.copies 0).accepted 1).toOption = some [] := by decide +kernel
  cases hc : notifyPtMigrateImpl allWell 1 [0, 1]
      (clusterAfter firstAccepted) with
  | error e =>
      rw [hc] at hret
      cases hret
  | ok c' =>
      rw [hc] at hret
      refine ⟨c', rfl, fun hdone => ?_⟩
      have hacc := (hdone 0 0 (by simp) 1 ⟨⟨1, .put, ()⟩, rfl, rfl⟩).1 1
        (by simp)
      have hnone : (c'.copies 0).accepted 1 = [] := Option.some.inj hret
      rw [hnone] at hacc
      cases hacc

end UbsIo.Sequence
