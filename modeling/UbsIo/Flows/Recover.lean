import UbsIo.Flows.Address
import UbsIo.Lib.Traverse

/-! # Recovery of disk flows

    `FlowManager::Recover` scans the chunks that the disks have in use, gives
    each to the flow it was allocated for, and then checks that the chunks of
    every flow follow one another (`RecoverCheck`).

    `TruncateOffset` takes chunks off the list under the lock and frees them
    afterwards.  Two calls can overtake each other there, and a crash in
    between leaves a gap.  As long as every chunk that is freed is the lowest
    one of its flow, the chunks in use are a piece of the flow (`Kept`). -/

namespace UbsIo.Flows

open UbsIo.Lib

/-! ## Model -/

/-- What `BdmGetNextUsedChunkId` returns. -/
structure UsedChunk where
  chunkId : Nat
  chunkSize : Nat
  flowId : Nat
  flowOffset : Nat
deriving DecidableEq, Repr

/-- A disk, with its chunks in use in the order of the scan. -/
structure Disk where
  fault : Bool
  used : List UsedChunk
deriving DecidableEq, Repr

/-- `mDiskObjManager` while the disks are scanned: the flows in the order of
    their creation, and the `mRecoverList` of each, which is ordered by
    offsets. -/
structure DiskObjManager where
  flowIds : List Nat
  recoverList : Nat → List (Nat × Nat)

/-- `Flow::RecoverChunk`. -/
def recoverInto (l : List (Nat × Nat)) (offset chunkId : Nat) :
    Option (List (Nat × Nat)) :=
  if l.any fun e => e.1 == offset then none
  else some (l.orderedInsert (fun a b => a.1 ≤ b.1) (offset, chunkId))

/-- `FlowManager::RecoverChunk`, with `CreateObject`. -/
def recoverChunk (m : DiskObjManager) (u : UsedChunk) :
    Option DiskObjManager :=
  (recoverInto (m.recoverList u.flowId) u.flowOffset u.chunkId).map fun l =>
    { flowIds :=
        if u.flowId ∈ m.flowIds then m.flowIds else m.flowIds ++ [u.flowId]
      recoverList := Function.update m.recoverList u.flowId l }

/-- A flow after `RecoverCheck`. -/
structure Recovered where
  chunkList : List Nat
  truncateOffset : Nat
  preLoadOffset : Nat
deriving DecidableEq, Repr

/-- The loop of `RecoverCheck` after its first iteration. -/
def recoverCheckFrom (chunkSize : Nat) : Nat → List (Nat × Nat) → Option Nat
  | preLoadOffset, [] => some preLoadOffset
  | preLoadOffset, e :: rest =>
      if preLoadOffset ≠ e.1 then none
      else recoverCheckFrom chunkSize (wrap64 (e.1 + chunkSize)) rest

/-- `RecoverCheck`. -/
def recoverCheck (chunkSize : Nat) :
    List (Nat × Nat) → Option Recovered
  | [] => some ⟨[], 0, 0⟩
  | e :: rest =>
      (recoverCheckFrom chunkSize (wrap64 (e.1 + chunkSize)) rest).map
        fun preLoadOffset => ⟨(e :: rest).map Prod.snd, e.1, preLoadOffset⟩

/-- The chunks that `Recover` comes across: faulty disks are left out. -/
def scanned (disks : List Disk) : List UsedChunk :=
  (disks.filter fun disk => !disk.fault).flatMap Disk.used

/-- `FlowManager::Recover`: the flows, or `none` for `BIO_ERR`. -/
def recover (segment : Nat) (disks : List Disk) :
    Option (List (Nat × Recovered)) := do
  let m ← (scanned disks).foldlM (fun m u =>
    if u.chunkSize ≠ segment then none else recoverChunk m u) ⟨[], fun _ => []⟩
  m.flowIds.mapM fun flowId =>
    (recoverCheck segment (m.recoverList flowId)).map fun r => (flowId, r)

/-! ## A node with many flows -/

/-- One step of one of the flows. -/
def nodeStep {ι : Type} [DecidableEq ι] (d : Dims) (n : Nat → Flow ι)
    (e : Nat × Event ι) : Option (Nat → Flow ι) :=
  (step d (n e.1) e.2).map fun s => Function.update n e.1 s

/-- What the disks have in use when the node crashes: the chunks of every flow
    on the disk of that flow, each once, in any order. -/
structure Holds {ι : Type} (d : Dims) (mediaId : Nat → Nat)
    (n : Nat → Flow ι) (disks : List Disk) : Prop where
  nodup : ∀ disk ∈ disks, disk.used.Nodup
  used : ∀ (k : Nat) (disk : Disk), disks[k]? = some disk →
    ∀ u, u ∈ disk.used ↔ u.chunkSize = d.chunkSize ∧
      mediaId u.flowId = k ∧ (u.flowOffset, u.chunkId) ∈ (n u.flowId).media

/-! ## The chunks in use -/

variable {ι : Type} [DecidableEq ι] {d : Dims} {s s' : Flow ι} {t u : ι}

/-- The chunks in use are those from the `j`-th on, and the ones that wait to
    be freed are before the truncate offset; none waits twice. -/
structure Kept (d : Dims) (s : Flow ι) (j : Nat) : Prop where
  mapped : Mapped d s
  le : j ≤ s.truncateOffset / d.chunkSize
  media : s.media = s.log.drop j
  nodup : (s.media.map Prod.snd).Nodup
  free : ∀ u cleanList, s.threads u = .free cleanList → cleanList.Nodup ∧
    ∀ c ∈ cleanList, ∃ i, j ≤ i ∧ i < s.truncateOffset / d.chunkSize ∧
      (s.log.map Prod.snd)[i]? = some c
  disjoint : ∀ u v l l', s.threads u = .free l → s.threads v = .free l' →
    u ≠ v → ∀ c ∈ l, c ∉ l'

/-- The steps that free the chunks of a flow in their order, with offsets that
    fit. -/
def FreesInOrder (d : Dims) (s : Flow ι) (e : Event ι) : Prop :=
  Fits d s e ∧ match e with
    | .go t => ∀ c cleanList, s.threads t = .free (c :: cleanList) →
        ∀ x ∈ s.media, x.2 = c → ∀ y ∈ s.media, x.1 ≤ y.1
    | _ => True

variable {j : Nat}

omit [DecidableEq ι] in
/-- A chunk in use has one place in the log. -/
theorem Kept.index_inj (hk : Kept d s j) {i i' c : Nat} (hi : j ≤ i)
    (hi' : j ≤ i') (hc : (s.log.map Prod.snd)[i]? = some c)
    (hc' : (s.log.map Prod.snd)[i']? = some c) : i = i' := by
  have hnodup := hk.nodup
  rw [hk.media, List.map_drop] at hnodup
  have hdrop : ∀ a, j ≤ a → ((s.log.map Prod.snd).drop j)[a - j]? =
      (s.log.map Prod.snd)[a]? := by
    intro a ha
    rw [List.getElem?_drop, Nat.add_sub_cancel' ha]
  rw [← hdrop i hi] at hc
  rw [← hdrop i' hi'] at hc'
  obtain ⟨hlt, hget⟩ := List.getElem?_eq_some_iff.mp hc
  obtain ⟨hlt', hget'⟩ := List.getElem?_eq_some_iff.mp hc'
  have heq := (List.Nodup.getElem_inj_iff hnodup).mp (hget.trans hget'.symm)
  omega

/-- A step that neither takes chunks off nor frees one. -/
theorem Kept.keep {p : Phase} (hk : Kept d s j) (hm : Mapped d s')
    (hthreads : s'.threads = Function.update s.threads t p)
    (hp : ∀ l, p ≠ .free l)
    (htrunc : s'.truncateOffset = s.truncateOffset)
    (hmedia : s'.media = s.media) (hlog : s'.log = s.log) :
    Kept d s' j := by
  have hold : ∀ u l, s'.threads u = .free l → s.threads u = .free l := by
    intro u l hu
    rw [hthreads] at hu
    by_cases hut : u = t
    · rw [hut, Function.update_self] at hu
      exact absurd hu (hp l)
    · rw [Function.update_of_ne hut] at hu
      exact hu
  refine ⟨hm, ?_, ?_, ?_, ?_, ?_⟩
  · rw [htrunc]
    exact hk.le
  · rw [hmedia, hlog]
    exact hk.media
  · rw [hmedia]
    exact hk.nodup
  · intro u l hu
    rw [htrunc, hlog]
    exact hk.free u l (hold u l hu)
  · intro u v l l' hu hv
    exact hk.disjoint u v l l' (hold u l hu) (hold v l' hv)

omit [DecidableEq ι] in
theorem Kept.le_length (hk : Kept d s j) : j ≤ s.log.length := by
  obtain ⟨gone, rest, hgone, hsplit, -⟩ := hk.mapped.chunks
  have hlen := congrArg List.length hsplit
  rw [List.length_map, List.length_append, List.length_append, hgone] at hlen
  have hle := hk.le
  omega

theorem Kept.allocated {offset chunkId : Nat} (hk : Kept d s j)
    (hfresh : chunkId ∉ s.media.map Prod.snd)
    (hm : Mapped d (Flow.goto
      { s with
        media := s.media ++ [(offset, chunkId)]
        log := s.log ++ [(offset, chunkId)] }
      t (.push chunkId))) :
    Kept d (Flow.goto
      { s with
        media := s.media ++ [(offset, chunkId)]
        log := s.log ++ [(offset, chunkId)] }
      t (.push chunkId)) j := by
  have hold : ∀ u l, (Flow.goto
      { s with
        media := s.media ++ [(offset, chunkId)]
        log := s.log ++ [(offset, chunkId)] }
      t (.push chunkId)).threads u = .free l → s.threads u = .free l := by
    intro u l hu
    by_cases hut : u = t
    · rw [hut, goto_threads_self] at hu
      exact nomatch hu
    · rw [goto_threads_ne _ _ hut] at hu
      exact hu
  refine ⟨hm, hk.le, ?_, ?_, ?_, ?_⟩
  · show s.media ++ [(offset, chunkId)] =
      (s.log ++ [(offset, chunkId)]).drop j
    rw [List.drop_append_of_le_length hk.le_length, hk.media]
  · show ((s.media ++ [(offset, chunkId)]).map Prod.snd).Nodup
    rw [List.map_append, List.nodup_append]
    refine ⟨hk.nodup, List.nodup_singleton _, ?_⟩
    intro a ha b hb hab
    rw [List.map_cons, List.map_nil, List.mem_singleton] at hb
    rw [hab, hb] at ha
    exact hfresh ha
  · intro u l hu
    obtain ⟨hnodup, hmem⟩ := hk.free u l (hold u l hu)
    refine ⟨hnodup, fun c hc => ?_⟩
    obtain ⟨i, hji, hi, hget⟩ := hmem c hc
    refine ⟨i, hji, hi, ?_⟩
    show ((s.log ++ [(offset, chunkId)]).map Prod.snd)[i]? = some c
    rw [List.map_append, List.getElem?_append_left
      (List.getElem?_eq_some_iff.mp hget).1]
    exact hget
  · intro u v l l' hu hv
    exact hk.disjoint u v l l' (hold u l hu) (hold v l' hv)

/-- The chunks that a truncation takes off lie between the old offset and the
    new one. -/
theorem Kept.truncated {offset : Nat} (hpos : 0 < d.chunkSize)
    (hk : Kept d s j) (hlt : s.truncateOffset < offset)
    (hm : Mapped d (Flow.goto
      { s with
        chunkList := (truncated d s offset).2
        truncateOffset := offset }
      t (.free (truncated d s offset).1))) :
    Kept d (Flow.goto
      { s with
        chunkList := (truncated d s offset).2
        truncateOffset := offset }
      t (.free (truncated d s offset).1)) j := by
  have hle : s.truncateOffset / d.chunkSize ≤ offset / d.chunkSize :=
    Nat.div_le_div_right (Nat.le_of_lt hlt)
  -- the chunks taken off are a piece of the log from the old offset on
  have hnew : ∀ a c, (Flows.truncated d s offset).1[a]? = some c →
      s.truncateOffset / d.chunkSize + a < offset / d.chunkSize ∧
      (s.log.map Prod.snd)[s.truncateOffset / d.chunkSize + a]? = some c := by
    intro a c ha
    obtain ⟨gone, rest, hgone, hsplit, -⟩ := hk.mapped.chunks
    rw [hk.mapped.truncated_eq hpos, List.getElem?_take] at ha
    split at ha
    · rename_i hlt
      refine ⟨by omega, ?_⟩
      rw [hsplit, List.append_assoc, List.getElem?_append_right (by
        rw [hgone]
        exact Nat.le_add_right ..), hgone, Nat.add_sub_cancel_left,
        List.getElem?_append_left (List.getElem?_eq_some_iff.mp ha).1]
      exact ha
    · exact nomatch ha
  have hold : ∀ u l, u ≠ t → (Flow.goto
      { s with
        chunkList := (Flows.truncated d s offset).2
        truncateOffset := offset }
      t (.free (Flows.truncated d s offset).1)).threads u = .free l →
      s.threads u = .free l := by
    intro u l hut hu
    rw [goto_threads_ne _ _ hut] at hu
    exact hu
  have hapart : ∀ u l, u ≠ t → s.threads u = .free l →
      ∀ c ∈ l, c ∉ (Flows.truncated d s offset).1 := by
    intro u l hut hu c hc hmem
    obtain ⟨i, hji, hi, hget⟩ := (hk.free u l hu).2 c hc
    obtain ⟨a, ha⟩ := List.mem_iff_getElem?.mp hmem
    obtain ⟨-, hget'⟩ := hnew a c ha
    have heq := hk.index_inj hji (Nat.le_trans hk.le (Nat.le_add_right ..))
      hget hget'
    omega
  refine ⟨hm, Nat.le_trans hk.le hle, hk.media, hk.nodup, ?_, ?_⟩
  · intro u l hu
    by_cases hut : u = t
    · rw [hut, goto_threads_self] at hu
      cases hu
      refine ⟨?_, ?_⟩
      · rw [List.nodup_iff_getElem?_ne_getElem?]
        intro a b hab hb heq
        rw [List.getElem?_eq_getElem hb] at heq
        obtain ⟨-, hga⟩ := hnew a _ heq
        obtain ⟨-, hgb⟩ := hnew b _ (List.getElem?_eq_getElem hb)
        have hidx := hk.index_inj
          (Nat.le_trans hk.le (Nat.le_add_right ..))
          (Nat.le_trans hk.le (Nat.le_add_right ..)) hga hgb
        omega
      · intro c hc
        obtain ⟨a, ha⟩ := List.mem_iff_getElem?.mp hc
        obtain ⟨hlt', hget⟩ := hnew a c ha
        exact ⟨s.truncateOffset / d.chunkSize + a,
          Nat.le_trans hk.le (Nat.le_add_right ..), hlt', hget⟩
    · obtain ⟨hnodup, hmem⟩ := hk.free u l (hold u l hut hu)
      refine ⟨hnodup, fun c hc => ?_⟩
      obtain ⟨i, hji, hi, hget⟩ := hmem c hc
      exact ⟨i, hji, Nat.lt_of_lt_of_le hi hle, hget⟩
  · intro u v l l' hu hv huv c hc hc'
    by_cases hut : u = t
    · rw [hut, goto_threads_self] at hu
      cases hu
      have hvt : v ≠ t := fun h => huv (hut.trans h.symm)
      exact hapart v l' hvt (hold v l' hvt hv) c hc' hc
    · have hu' := hold u l hut hu
      by_cases hvt : v = t
      · rw [hvt, goto_threads_self] at hv
        cases hv
        exact hapart u l hut hu' c hc hc'
      · exact hk.disjoint u v l l' hu' (hold v l' hvt hv) huv c hc hc'

/-- The lowest chunk in use is freed. -/
theorem Kept.freed {chunkId : Nat} {cleanList : List Nat}
    (hpos : 0 < d.chunkSize) (hk : Kept d s j)
    (ht : s.threads t = .free (chunkId :: cleanList))
    (hlow : ∀ x ∈ s.media, x.2 = chunkId → ∀ y ∈ s.media, x.1 ≤ y.1)
    (hm : Mapped d (Flow.goto
      { s with media := s.media.filter fun e => decide (e.2 ≠ chunkId) }
      t (.free cleanList))) :
    Kept d (Flow.goto
      { s with media := s.media.filter fun e => decide (e.2 ≠ chunkId) }
      t (.free cleanList)) (j + 1) := by
  obtain ⟨hclean, hmem⟩ := hk.free t _ ht
  obtain ⟨i, hji, hi, hget⟩ := hmem chunkId (List.mem_cons_self ..)
  rw [List.getElem?_map] at hget
  obtain ⟨e, he, hec⟩ := Option.map_eq_some_iff.mp hget
  obtain ⟨hlen, hgete⟩ := List.getElem?_eq_some_iff.mp he
  have hcons : s.log.drop j = s.log[j] :: s.log.drop (j + 1) :=
    List.drop_eq_getElem_cons (Nat.lt_of_le_of_lt hji hlen)
  -- it is the `j`-th: none has a lower offset
  have hij : i = j := by
    have hin : e ∈ s.media := by
      rw [hk.media]
      refine List.mem_iff_getElem?.mpr ⟨i - j, ?_⟩
      rw [List.getElem?_drop, Nat.add_sub_cancel' hji]
      exact he
    have hfirst : s.log[j] ∈ s.media := by
      rw [hk.media, hcons]
      exact List.mem_cons_self ..
    have hle := hlow e hin hec _ hfirst
    rw [hk.mapped.inOrder i e he, hk.mapped.inOrder j _
      (List.getElem?_eq_getElem (Nat.lt_of_le_of_lt hji hlen))] at hle
    exact Nat.le_antisymm (Nat.le_of_mul_le_mul_right hle hpos) hji
  subst hij
  have hhead : s.log[i].2 = chunkId := by
    rw [hgete]
    exact hec
  have hmedia : s.media.filter (fun e => decide (e.2 ≠ chunkId)) =
      s.log.drop (i + 1) := by
    have hnodup := hk.nodup
    rw [hk.media, hcons, List.map_cons, List.nodup_cons, hhead] at hnodup
    rw [hk.media, hcons, List.filter_cons_of_neg (by simp [hhead]),
      List.filter_eq_self]
    intro x hx
    refine decide_eq_true fun heq => hnodup.1 ?_
    rw [← heq]
    exact List.mem_map_of_mem hx
  have hself := goto_threads_self
    { s with media := s.media.filter fun e => decide (e.2 ≠ chunkId) }
    t (.free cleanList)
  -- a chunk that still waits is not the one just freed
  have hwaits : ∀ u l, s.threads u = .free l → ∀ c ∈ l, c ≠ chunkId →
      ∃ a, i + 1 ≤ a ∧ a < s.truncateOffset / d.chunkSize ∧
        (s.log.map Prod.snd)[a]? = some c := by
    intro u l hu c hc hne
    obtain ⟨a, hja, ha, hgeta⟩ := (hk.free u l hu).2 c hc
    refine ⟨a, ?_, ha, hgeta⟩
    refine Nat.lt_of_le_of_ne hja fun hia => hne ?_
    rw [← hia, List.getElem?_map, he] at hgeta
    rw [← Option.some.inj hgeta]
    exact hec
  refine ⟨hm, hi, hmedia, ?_, ?_, ?_⟩
  · exact hk.nodup.sublist (List.filter_sublist.map _)
  · intro u l hu
    by_cases hut : u = t
    · rw [hut, hself] at hu
      cases hu
      obtain ⟨hnot, hrest⟩ := List.nodup_cons.mp hclean
      refine ⟨hrest, fun c hc => ?_⟩
      refine hwaits t _ ht c (List.mem_cons_of_mem _ hc) ?_
      rintro rfl
      exact hnot hc
    · rw [goto_threads_ne _ _ hut] at hu
      refine ⟨(hk.free u l hu).1, fun c hc => hwaits u l hu c hc ?_⟩
      rintro rfl
      exact hk.disjoint u t l _ hu ht hut c hc (List.mem_cons_self ..)
  · intro u v l l' hu hv huv c hc hc'
    by_cases hut : u = t
    · rw [hut, hself] at hu
      cases hu
      rw [goto_threads_ne _ _ (fun h => huv (hut.trans h.symm))] at hv
      exact hk.disjoint t v _ l' ht hv (fun h => huv (hut.trans h)) c
        (List.mem_cons_of_mem _ hc) hc'
    · rw [goto_threads_ne _ _ hut] at hu
      by_cases hvt : v = t
      · rw [hvt, hself] at hv
        cases hv
        exact hk.disjoint u t l _ hu ht hut c hc
          (List.mem_cons_of_mem _ hc')
      · rw [goto_threads_ne _ _ hvt] at hv
        exact hk.disjoint u v l l' hu hv huv c hc hc'

theorem next_not_free (k : Caller) (l : List Nat) : k.next ≠ .free l := by
  cases k with
  | holdWait r => exact nofun
  | getAddr => exact nofun

omit [DecidableEq ι] in
theorem Advance.not_free {p q : Phase} (h : Advance s p q) (l : List Nat) :
    q ≠ .free l := by
  cases h with
  | valid r _ _ => exact nofun
  | ahead r _ => exact nofun
  | loaded r => exact nofun
  | truncPreLoad offset _ => exact nofun
  | truncWriten offset => exact nofun

/-- **A STEP LEAVES NO GAP**, if chunks are freed in order. -/
theorem Kept.trans {e : Event ι} (hpos : 0 < d.chunkSize) (hk : Kept d s j)
    (hg : FreesInOrder d s e) (ht : Trans d s e s') :
    ∃ j', Kept d s' j' := by
  have hm : Mapped d s' := hk.mapped.trans hpos hg.1 ht
  cases ht with
  | truncated t offset hp hlt => exact ⟨j, hk.truncated hpos hlt hm⟩
  | freed t chunkId cleanList hp =>
      exact ⟨j + 1, hk.freed hpos hp (hg.2 chunkId cleanList hp) hm⟩
  | allocated t offset chunkId hp hfresh => exact ⟨j, hk.allocated hfresh hm⟩
  | advance t p hp => exact ⟨j, hk.keep (t := t) hm rfl hp.not_free rfl rfl rfl⟩
  | ready t k hp hready =>
      exact ⟨j, hk.keep (t := t) hm rfl (next_not_free k) rfl rfl rfl⟩
  | busy t k hp hflag =>
      exact ⟨j, hk.keep (t := t) hm rfl (next_not_free k) rfl rfl rfl⟩
  | submitted t k hp =>
      exact ⟨j, hk.keep (t := t) hm rfl (next_not_free k) rfl rfl rfl⟩
  | submitFailed t k hp =>
      exact ⟨j, hk.keep (t := t) hm rfl (next_not_free k) rfl rfl rfl⟩
  | woken t r p hp hpost hp' =>
      refine ⟨j, hk.keep (t := t) hm rfl ?_ rfl rfl rfl⟩
      rcases hp' with rfl | rfl
      · exact nofun
      · exact nofun
  | cleaned t offset b hp =>
      refine ⟨j, hk.keep (t := t) hm rfl ?_ rfl rfl rfl⟩
      cases b with
      | true => exact nofun
      | false => exact nofun
  | call t r hp => exact ⟨j, hk.keep (t := t) hm rfl nofun rfl rfl rfl⟩
  | truncCall t offset hp =>
      exact ⟨j, hk.keep (t := t) hm rfl nofun rfl rfl rfl⟩
  | leave t hp => exact ⟨j, hk.keep (t := t) hm rfl nofun rfl rfl rfl⟩
  | holdLoaded t r hp => exact ⟨j, hk.keep (t := t) hm rfl nofun rfl rfl rfl⟩
  | register t r hp hneed =>
      exact ⟨j, hk.keep (t := t) hm rfl nofun rfl rfl rfl⟩
  | notReady t k hp => exact ⟨j, hk.keep (t := t) hm rfl nofun rfl rfl rfl⟩
  | take t k hp hflag => exact ⟨j, hk.keep (t := t) hm rfl nofun rfl rfl rfl⟩
  | written t r hp => exact ⟨j, hk.keep (t := t) hm rfl nofun rfl rfl rfl⟩
  | built t r flowAddr hp hbuild =>
      exact ⟨j, hk.keep (t := t) hm rfl nofun rfl rfl rfl⟩
  | start t hp hq => exact ⟨j, hk.keep (t := t) hm rfl nofun rfl rfl rfl⟩
  | load t hp => exact ⟨j, hk.keep (t := t) hm rfl nofun rfl rfl rfl⟩
  | allocFailed t offset hp =>
      exact ⟨j, hk.keep (t := t) hm rfl nofun rfl rfl rfl⟩
  | pushed t chunkId hp => exact ⟨j, hk.keep (t := t) hm rfl nofun rfl rfl rfl⟩
  | cleanedAll t hp => exact ⟨j, hk.keep (t := t) hm rfl nofun rfl rfl rfl⟩

omit [DecidableEq ι] in
theorem kept_init (d : Dims) : Kept d (Flow.init ι) 0 :=
  ⟨mapped_init d, Nat.zero_le _, rfl, List.nodup_nil, nofun, nofun⟩

/-! ## The scan -/

/-- The lists after the chunks of `done` have been scanned. -/
structure Gathered (done : List UsedChunk) (m : DiskObjManager) : Prop where
  flowIds : ∀ f, f ∈ m.flowIds ↔ ∃ u ∈ done, u.flowId = f
  mem : ∀ f e, e ∈ m.recoverList f ↔
    ∃ u ∈ done, u.flowId = f ∧ (u.flowOffset, u.chunkId) = e
  sorted : ∀ f, (m.recoverList f).Pairwise fun a b => a.1 < b.1

theorem orderedInsert_sorted {e : Nat × Nat} :
    ∀ {l : List (Nat × Nat)}, (l.Pairwise fun a b => a.1 < b.1) →
      (∀ x ∈ l, x.1 ≠ e.1) →
      (l.orderedInsert (fun a b => a.1 ≤ b.1) e).Pairwise
        fun a b => a.1 < b.1 := by
  intro l
  induction l with
  | nil => intro _ _; exact List.pairwise_singleton _ _
  | cons x l ih =>
      intro hs hne
      obtain ⟨hx, hl⟩ := List.pairwise_cons.mp hs
      have hxe := hne x (List.mem_cons_self ..)
      rw [List.orderedInsert_cons]
      split
      · rename_i hle
        refine List.pairwise_cons.mpr ⟨?_, hs⟩
        intro y hy
        rcases List.mem_cons.mp hy with rfl | hy
        · exact Nat.lt_of_le_of_ne hle hxe.symm
        · have hxy := hx y hy
          omega
      · rename_i hle
        refine List.pairwise_cons.mpr ⟨?_,
          ih hl fun y hy => hne y (List.mem_cons_of_mem _ hy)⟩
        intro y hy
        rcases (List.mem_orderedInsert _).mp hy with rfl | hy
        · omega
        · exact hx y hy

/-- One more chunk, for an offset of its flow that has not come before. -/
theorem Gathered.chunk {done : List UsedChunk} {m : DiskObjManager}
    {u : UsedChunk} (h : Gathered done m)
    (hnew : ∀ u' ∈ done, ¬(u'.flowId = u.flowId ∧
      u'.flowOffset = u.flowOffset)) :
    ∃ m', recoverChunk m u = some m' ∧ Gathered (done ++ [u]) m' := by
  have hfresh : ∀ x ∈ m.recoverList u.flowId, x.1 ≠ u.flowOffset := by
    intro x hx heq
    obtain ⟨u', hu', hf, hx'⟩ := (h.mem _ x).mp hx
    refine hnew u' hu' ⟨hf, ?_⟩
    rw [← heq, ← hx']
  have hany : ¬((m.recoverList u.flowId).any fun e =>
      e.1 == u.flowOffset) = true := by
    intro hany
    obtain ⟨x, hx, heq⟩ := List.any_eq_true.mp hany
    exact hfresh x hx (beq_iff_eq.mp heq)
  have happ : ∀ f (p : UsedChunk → Prop), (∃ u' ∈ done ++ [u],
      u'.flowId = f ∧ p u') ↔ (∃ u' ∈ done, u'.flowId = f ∧ p u') ∨
        u.flowId = f ∧ p u := by
    intro f p
    simp only [List.mem_append, List.mem_singleton, or_and_right, exists_or,
      exists_eq_left]
  refine ⟨_, by rw [recoverChunk, recoverInto, if_neg hany]; rfl, ?_, ?_, ?_⟩
  · intro f
    have hids := happ f fun _ => True
    simp only [and_true] at hids
    rw [hids, ← h.flowIds f]
    dsimp only
    split
    · rename_i hin
      constructor
      · exact Or.inl
      · rintro (hf | rfl)
        · exact hf
        · exact hin
    · rw [List.mem_append, List.mem_singleton, eq_comm (a := f)]
  · intro f e
    rw [happ f, ← h.mem f e]
    by_cases hf : f = u.flowId
    · subst hf
      simp only [Function.update_self, List.mem_orderedInsert, true_and]
      rw [or_comm, eq_comm (a := e)]
    · simp only [Function.update_of_ne hf]
      constructor
      · exact Or.inl
      · rintro (he | ⟨hf', -⟩)
        · exact he
        · exact absurd hf'.symm hf
  · intro f
    by_cases hf : f = u.flowId
    · subst hf
      simp only [Function.update_self]
      exact orderedInsert_sorted (h.sorted _) hfresh
    · simp only [Function.update_of_ne hf]
      exact h.sorted f

/-- **THE SCAN** succeeds if no offset of a flow comes twice. -/
theorem scan_gathers {segment : Nat} :
    ∀ {todo done : List UsedChunk} {m : DiskObjManager},
      Gathered done m → (∀ u ∈ todo, u.chunkSize = segment) →
      ((done ++ todo).Pairwise fun u u' => ¬(u.flowId = u'.flowId ∧
        u.flowOffset = u'.flowOffset)) →
      ∃ m', todo.foldlM (fun m u => if u.chunkSize ≠ segment then none
          else recoverChunk m u) m = some m' ∧ Gathered (done ++ todo) m' := by
  intro todo
  induction todo with
  | nil =>
      intro done m h _ _
      rw [List.append_nil]
      exact ⟨m, rfl, h⟩
  | cons u todo ih =>
      intro done m h hsize hpair
      have hnew : ∀ u' ∈ done, ¬(u'.flowId = u.flowId ∧
          u'.flowOffset = u.flowOffset) :=
        fun u' hu' => (List.pairwise_append.mp hpair).2.2 u' hu' u
          (List.mem_cons_self ..)
      obtain ⟨m₁, hm₁, h₁⟩ := h.chunk hnew
      have hassoc : done ++ u :: todo = done ++ [u] ++ todo := by
        rw [List.append_assoc]
        rfl
      rw [hassoc] at hpair ⊢
      obtain ⟨m', hm', h'⟩ := ih h₁
        (fun x hx => hsize x (List.mem_cons_of_mem _ hx)) hpair
      refine ⟨m', ?_, h'⟩
      rw [List.foldlM_cons, if_neg (not_not.mpr
        (hsize u (List.mem_cons_self ..))), hm₁]
      exact hm'

/-! ## The check -/

/-- Chunks that follow one another pass the check. -/
theorem recoverCheckFrom_ok {chunkSize : Nat} :
    ∀ {l : List (Nat × Nat)} {k : Nat},
      (∀ i e, l[i]? = some e → e.1 = (k + i) * chunkSize ∧ e.1 < 2 ^ 64) →
      ∀ p, (l ≠ [] → p = k * chunkSize) →
      ∃ q, recoverCheckFrom chunkSize p l = some q := by
  intro l
  induction l with
  | nil => intro k _ p _; exact ⟨p, rfl⟩
  | cons e l ih =>
      intro k hl p hp
      obtain ⟨he, -⟩ := hl 0 e rfl
      rw [Nat.add_zero] at he
      have hrest : ∀ i x, l[i]? = some x →
          x.1 = (k + 1 + i) * chunkSize ∧ x.1 < 2 ^ 64 := by
        intro i x hx
        have h := hl (i + 1) x hx
        rw [Nat.add_right_comm, Nat.add_assoc]
        exact h
      obtain ⟨q, hq⟩ := ih hrest (wrap64 (e.1 + chunkSize)) (by
        intro hne
        obtain ⟨x, l', rfl⟩ := List.exists_cons_of_ne_nil hne
        obtain ⟨hx, hlt⟩ := hrest 0 x rfl
        rw [he, ← Nat.succ_mul]
        rw [hx] at hlt
        exact Nat.mod_eq_of_lt hlt)
      refine ⟨q, ?_⟩
      rw [recoverCheckFrom, if_neg (not_not.mpr (by
        rw [hp (List.cons_ne_nil _ _), he]))]
      exact hq

theorem recoverCheck_ok {chunkSize k : Nat} {l : List (Nat × Nat)}
    (hne : l ≠ [])
    (hl : ∀ i e, l[i]? = some e → e.1 = (k + i) * chunkSize ∧
      e.1 < 2 ^ 64) :
    ∃ r, recoverCheck chunkSize l = some r ∧ r.chunkList = l.map Prod.snd ∧
      r.truncateOffset = k * chunkSize := by
  obtain ⟨e, l', rfl⟩ := List.exists_cons_of_ne_nil hne
  obtain ⟨he, -⟩ := hl 0 e rfl
  rw [Nat.add_zero] at he
  have hrest : ∀ i x, l'[i]? = some x →
      x.1 = (k + 1 + i) * chunkSize ∧ x.1 < 2 ^ 64 := by
    intro i x hx
    have h := hl (i + 1) x hx
    rw [Nat.add_right_comm, Nat.add_assoc]
    exact h
  obtain ⟨q, hq⟩ := recoverCheckFrom_ok hrest (wrap64 (e.1 + chunkSize)) (by
    intro hne'
    obtain ⟨x, l'', rfl⟩ := List.exists_cons_of_ne_nil hne'
    obtain ⟨hx, hlt⟩ := hrest 0 x rfl
    rw [he, ← Nat.succ_mul]
    rw [hx] at hlt
    exact Nat.mod_eq_of_lt hlt)
  exact ⟨⟨(e :: l').map Prod.snd, e.1, q⟩, by rw [recoverCheck, hq]; rfl, rfl,
    he⟩

/-! ## The chunks of a crash -/

omit [DecidableEq ι] in
/-- The offsets of the chunks in use follow one another. -/
theorem Kept.entry (hk : Kept d s j) {i : Nat} {e : Nat × Nat} (hi : s.media[i]? = some e) :
    e.1 = (j + i) * d.chunkSize ∧ e.1 < 2 ^ 64 := by
  rw [hk.media, List.getElem?_drop] at hi
  have he := hk.mapped.inOrder (j + i) e hi
  refine ⟨he, ?_⟩
  obtain ⟨gone, rest, hgone, hsplit, hpend⟩ := hk.mapped.chunks
  have hrest : rest.length ≤ 1 := by
    rcases hpend with ⟨h, -⟩ | ⟨u, c, h, -⟩
    · rw [h]
      exact Nat.zero_le 1
    · rw [h]
      exact Nat.le_refl 1
  have hlen := congrArg List.length hsplit
  rw [List.length_map, List.length_append, List.length_append, hgone] at hlen
  have hlt := (List.getElem?_eq_some_iff.mp hi).1
  have hle : (j + i) * d.chunkSize ≤ s.preLoadOffset := by
    rw [hk.mapped.preLoad]
    exact Nat.mul_le_mul_right _ (by omega)
  rw [he]
  exact Nat.lt_of_le_of_lt hle hk.mapped.preLoad_lt

omit [DecidableEq ι] in
theorem Kept.sorted (hpos : 0 < d.chunkSize) (hk : Kept d s j) :
    s.media.Pairwise fun a b => a.1 < b.1 := by
  rw [List.pairwise_iff_getElem]
  intro a b ha hb hab
  rw [(hk.entry (List.getElem?_eq_getElem ha)).1,
    (hk.entry (List.getElem?_eq_getElem hb)).1]
  exact Nat.mul_lt_mul_of_pos_right (Nat.add_lt_add_left hab j) hpos

omit [DecidableEq ι] in
/-- One chunk for an offset. -/
theorem Kept.offset_inj (hpos : 0 < d.chunkSize) (hk : Kept d s j)
    {e e' : Nat × Nat} (he : e ∈ s.media) (he' : e' ∈ s.media)
    (heq : e.1 = e'.1) : e = e' := by
  obtain ⟨a, ha⟩ := List.mem_iff_getElem?.mp he
  obtain ⟨b, hb⟩ := List.mem_iff_getElem?.mp he'
  have hidx := heq
  rw [(hk.entry ha).1, (hk.entry hb).1] at hidx
  have hab : a = b := by
    have h := Nat.eq_of_mul_eq_mul_right hpos hidx
    omega
  rw [hab, hb] at ha
  exact (Option.some.inj ha).symm

omit [DecidableEq ι] in
/-- The chunks on the list are a piece of the chunks in use. -/
theorem Kept.chunkList (hk : Kept d s j) :
    ∃ pre post, s.media.map Prod.snd = pre ++ s.chunkList ++ post ∧
      j + pre.length = s.truncateOffset / d.chunkSize := by
  obtain ⟨gone, rest, hgone, hsplit, -⟩ := hk.mapped.chunks
  have hle : j ≤ gone.length := by
    rw [hgone]
    exact hk.le
  refine ⟨gone.drop j, rest, ?_, ?_⟩
  · rw [hk.media, List.map_drop, hsplit, List.append_assoc,
      List.drop_append_of_le_length hle, List.append_assoc]
  · rw [List.length_drop, hgone]
    exact Nat.add_sub_cancel' hk.le

variable {n : Nat → Flow ι} {disks : List Disk} {mediaId : Nat → Nat}

omit [DecidableEq ι] in
/-- What the scan comes across: the chunks in use on the disks that work. -/
theorem Holds.mem_scanned (hd : Holds d mediaId n disks) (u : UsedChunk) :
    u ∈ scanned disks ↔ u.chunkSize = d.chunkSize ∧
      (u.flowOffset, u.chunkId) ∈ (n u.flowId).media ∧
      ∃ disk, disks[mediaId u.flowId]? = some disk ∧ disk.fault = false := by
  rw [scanned, List.mem_flatMap]
  constructor
  · rintro ⟨disk, hdisk, hu⟩
    obtain ⟨hmem, hok⟩ := List.mem_filter.mp hdisk
    obtain ⟨k, hk⟩ := List.mem_iff_getElem?.mp hmem
    obtain ⟨hsize, hmedia, hin⟩ := (hd.used k disk hk u).mp hu
    refine ⟨hsize, hin, disk, by rw [hmedia]; exact hk, ?_⟩
    rw [Bool.not_eq_true'] at hok
    exact hok
  · rintro ⟨hsize, hin, disk, hk, hok⟩
    refine ⟨disk, List.mem_filter.mpr ⟨List.mem_of_getElem? hk, ?_⟩,
      (hd.used _ disk hk u).mpr ⟨hsize, rfl, hin⟩⟩
    rw [hok]
    rfl

omit [DecidableEq ι] in
/-- No offset of a flow comes twice in the scan. -/
theorem Holds.pairwise (hpos : 0 < d.chunkSize)
    (hkept : ∀ f, ∃ j, Kept d (n f) j) (hd : Holds d mediaId n disks) :
    (scanned disks).Pairwise fun u u' => ¬(u.flowId = u'.flowId ∧
      u.flowOffset = u'.flowOffset) := by
  rw [scanned, List.pairwise_flatMap]
  constructor
  · intro disk hdisk
    have hmem := (List.mem_filter.mp hdisk).1
    obtain ⟨k, hk⟩ := List.mem_iff_getElem?.mp hmem
    refine (hd.nodup disk hmem).imp_of_mem ?_
    rintro ⟨c, size, f, o⟩ ⟨c', size', f', o'⟩ hu hu' hne ⟨hf, ho⟩
    obtain ⟨hs, -, hin⟩ := (hd.used k disk hk _).mp hu
    obtain ⟨hs', -, hin'⟩ := (hd.used k disk hk _).mp hu'
    dsimp only at hf ho hs hs' hin hin'
    subst hf ho hs hs'
    obtain ⟨j, hkj⟩ := hkept f
    have hc := congrArg Prod.snd (hkj.offset_inj hpos hin hin' rfl)
    dsimp only at hc
    subst hc
    exact hne rfl
  · -- a flow has its chunks on one disk
    refine List.Pairwise.filter _ (List.pairwise_iff_getElem.mpr ?_)
    intro a b ha hb hab u hu u' hu' hboth
    have hka := ((hd.used a _ (List.getElem?_eq_getElem ha) u).mp hu).2.1
    have hkb := ((hd.used b _ (List.getElem?_eq_getElem hb) u').mp hu').2.1
    rw [hboth.1, hkb] at hka
    omega

omit [DecidableEq ι] in
/-- What the scan leaves for a flow that has come up: its chunks in use. -/
theorem Gathered.recoverList_eq {m : DiskObjManager} (hpos : 0 < d.chunkSize)
    (hd : Holds d mediaId n disks) (hg : Gathered (scanned disks) m) {f : Nat}
    (hf : f ∈ m.flowIds) (hk : Kept d (n f) j) :
    m.recoverList f = (n f).media := by
  obtain ⟨u, hu, huf⟩ := (hg.flowIds f).mp hf
  obtain ⟨-, -, disk, hdisk, hok⟩ := (hd.mem_scanned u).mp hu
  rw [huf] at hdisk
  have hmem : ∀ e, e ∈ m.recoverList f ↔ e ∈ (n f).media := by
    intro e
    rw [hg.mem f e]
    constructor
    · rintro ⟨v, hv, rfl, rfl⟩
      exact ((hd.mem_scanned v).mp hv).2.1
    · intro he
      exact ⟨⟨e.2, d.chunkSize, f, e.1⟩,
        (hd.mem_scanned _).mpr ⟨rfl, he, disk, hdisk, hok⟩, rfl, rfl⟩
  have hsorted := hg.sorted f
  have hsorted' := hk.sorted hpos
  have hnodup : ∀ l : List (Nat × Nat),
      (l.Pairwise fun a b => a.1 < b.1) → l.Nodup := by
    intro l hl
    refine hl.imp ?_
    rintro a b hab rfl
    exact Nat.lt_irrefl _ hab
  have hperm := (List.perm_ext_iff_of_nodup (hnodup _ hsorted)
    (hnodup _ hsorted')).mpr hmem
  exact hperm.eq_of_pairwise
    (fun a b _ _ hab hba => absurd hab (Nat.lt_asymm hba)) hsorted hsorted'

/-- What `Recover` makes of the flow `s`: the chunks are in use for the offsets
    from `truncateOffset` on, and those on the list before the crash are among
    them. -/
def Restores (d : Dims) (s : Flow ι) (r : Recovered) : Prop :=
  ∃ j pre post, r.truncateOffset = j * d.chunkSize ∧
    (∀ i c, r.chunkList[i]? = some c →
      ((j + i) * d.chunkSize, c) ∈ s.media) ∧
    r.chunkList = pre ++ s.chunkList ++ post ∧
    j + pre.length = s.truncateOffset / d.chunkSize

omit [DecidableEq ι] in
/-- The check of the chunks in use of a flow. -/
theorem Kept.recoverCheck (hk : Kept d s j) (hne : s.media ≠ []) :
    ∃ r, recoverCheck d.chunkSize s.media = some r ∧ Restores d s r := by
  obtain ⟨r, hr, hchunks, htrunc⟩ := recoverCheck_ok hne fun i e hi =>
    hk.entry hi
  obtain ⟨pre, post, hsplit, hlen⟩ := hk.chunkList
  refine ⟨r, hr, j, pre, post, htrunc, ?_, by rw [hchunks, hsplit], hlen⟩
  intro i c hi
  rw [hchunks, List.getElem?_map] at hi
  obtain ⟨e, he, hec⟩ := Option.map_eq_some_iff.mp hi
  rw [← hec, ← (hk.entry he).1]
  exact List.mem_of_getElem? he

omit [DecidableEq ι] in
/-- **RECOVERY** of a node whose flows have no gaps. -/
theorem recover_ok (hpos : 0 < d.chunkSize)
    (hkept : ∀ f, ∃ j, Kept d (n f) j) (hd : Holds d mediaId n disks) :
    ∃ objs, recover d.chunkSize disks = some objs ∧
      (∀ f, f ∈ objs.map Prod.fst ↔ (n f).media ≠ [] ∧
        ∃ disk, disks[mediaId f]? = some disk ∧ disk.fault = false) ∧
      ∀ e ∈ objs, Restores d (n e.1) e.2 := by
  have hempty : Gathered [] ⟨[], fun _ => []⟩ :=
    ⟨fun f => by simp, fun f e => by simp, fun f => List.Pairwise.nil⟩
  obtain ⟨m, hm, hg⟩ := scan_gathers hempty
    (fun u hu => ((hd.mem_scanned u).mp hu).1) (hd.pairwise hpos hkept)
  rw [List.nil_append] at hg
  have hids : ∀ f, f ∈ m.flowIds ↔ (n f).media ≠ [] ∧
      ∃ disk, disks[mediaId f]? = some disk ∧ disk.fault = false := by
    intro f
    rw [hg.flowIds f]
    constructor
    · rintro ⟨u, hu, rfl⟩
      obtain ⟨-, hin, hdisk⟩ := (hd.mem_scanned u).mp hu
      exact ⟨List.ne_nil_of_mem hin, hdisk⟩
    · rintro ⟨hne, hdisk⟩
      obtain ⟨e, he⟩ := List.exists_mem_of_ne_nil _ hne
      exact ⟨⟨e.2, d.chunkSize, f, e.1⟩,
        (hd.mem_scanned _).mpr ⟨rfl, he, hdisk⟩, rfl⟩
  have hcheck : ∀ f, ∃ r, f ∈ m.flowIds →
      recoverCheck d.chunkSize (m.recoverList f) = some r ∧
      Restores d (n f) r := by
    intro f
    by_cases hf : f ∈ m.flowIds
    · obtain ⟨j, hk⟩ := hkept f
      rw [hg.recoverList_eq hpos hd hf hk]
      obtain ⟨r, hr⟩ := hk.recoverCheck ((hids f).mp hf).1
      exact ⟨r, fun _ => hr⟩
    · exact ⟨⟨[], 0, 0⟩, fun h => absurd h hf⟩
  choose r hr using hcheck
  refine ⟨m.flowIds.map fun f => (f, r f), ?_, ?_, ?_⟩
  · rw [recover, hm]
    refine mapM_some_of_forall fun f hf => ?_
    rw [(hr f hf).1]
    rfl
  · intro f
    rw [List.map_map, ← hids f]
    show f ∈ m.flowIds.map id ↔ _
    rw [List.map_id]
  · intro e he
    obtain ⟨f, hf, rfl⟩ := List.mem_map.mp he
    exact (hr f hf).2

theorem kept_nodeStep {n n' : Nat → Flow ι} {e : Nat × Event ι}
    (hpos : 0 < d.chunkSize) (hkept : ∀ f, ∃ j, Kept d (n f) j)
    (hg : FreesInOrder d (n e.1) e.2) (h : nodeStep d n e = some n') :
    ∀ f, ∃ j, Kept d (n' f) j := by
  obtain ⟨s', hs, rfl⟩ := Option.map_eq_some_iff.mp h
  intro f
  by_cases hf : f = e.1
  · subst hf
    rw [Function.update_self]
    obtain ⟨j, hk⟩ := hkept e.1
    exact hk.trans hpos hg (trans_of_step hs)
  · rw [Function.update_of_ne hf]
    exact hkept f

/-- **CRASH RECOVERY**: if the threads of every flow free its chunks in the
    order of their offsets, then after a crash at any point `Recover` succeeds.
    It finds every flow that has chunks in use on a disk that works; the chunk
    list of a flow is then a contiguous run that contains the list before the
    crash, and its truncate offset is at most the one before the crash, rounded
    down to a chunk. -/
theorem crash_recovers {es : List (Nat × Event ι)} (hpos : 0 < d.chunkSize)
    (hgood : Along (nodeStep d) (fun n e => FreesInOrder d (n e.1) e.2)
      (fun _ => Flow.init ι) es)
    (hrun : runFrom (nodeStep d) (fun _ => Flow.init ι) es = some n)
    (hd : Holds d mediaId n disks) :
    ∃ objs, recover d.chunkSize disks = some objs ∧
      (∀ f, f ∈ objs.map Prod.fst ↔ (n f).media ≠ [] ∧
        ∃ disk, disks[mediaId f]? = some disk ∧ disk.fault = false) ∧
      ∀ e ∈ objs, ∃ j pre post, e.2.truncateOffset = j * d.chunkSize ∧
        (∀ i c, e.2.chunkList[i]? = some c →
          ((j + i) * d.chunkSize, c) ∈ (n e.1).media) ∧
        e.2.chunkList = pre ++ (n e.1).chunkList ++ post ∧
        j + pre.length = (n e.1).truncateOffset / d.chunkSize ∧
        e.2.truncateOffset ≤
          (n e.1).truncateOffset / d.chunkSize * d.chunkSize := by
  have hkept := runFrom_invariant_along
    (I := fun n : Nat → Flow ι => ∀ f, ∃ j, Kept d (n f) j)
    (fun _ _ _ hI hg hs => kept_nodeStep hpos hI hg hs) es
    (fun _ => Flow.init ι) n (fun _ => ⟨0, kept_init d⟩) hgood hrun
  obtain ⟨objs, hobjs, hids, hall⟩ := recover_ok hpos hkept hd
  refine ⟨objs, hobjs, hids, ?_⟩
  intro e he
  obtain ⟨j, pre, post, htrunc, hmem, hsplit, hlen⟩ := hall e he
  refine ⟨j, pre, post, htrunc, hmem, hsplit, hlen, ?_⟩
  rw [htrunc]
  exact Nat.mul_le_mul_right _ (by omega)

/-! ## Two crashes -/

/-- The chunks in use of flow `0`, as the scan finds them. -/
def usedOf (d : Dims) (s : Flow ι) : List UsedChunk :=
  s.media.map fun e => ⟨e.2, d.chunkSize, 0, e.1⟩

omit [DecidableEq ι] in
/-- A node with one disk and chunks in use of flow `0` only. -/
theorem holds_usedOf (hother : ∀ f, f ≠ 0 → (n f).media = [])
    (hnodup : (n 0).media.Nodup) :
    Holds d (fun _ => 0) n [⟨false, usedOf d (n 0)⟩] := by
  constructor
  · intro disk hdisk
    rw [List.mem_singleton.mp hdisk]
    refine hnodup.map ?_
    intro a b hab
    rw [UsedChunk.mk.injEq] at hab
    exact Prod.ext hab.2.2.2 hab.1
  · intro k disk hk u
    obtain ⟨hlt, hget⟩ := List.getElem?_eq_some_iff.mp hk
    obtain rfl : k = 0 := by simpa using hlt
    rw [← hget]
    show u ∈ usedOf d (n 0) ↔ _
    rw [usedOf, List.mem_map]
    constructor
    · rintro ⟨e, he, rfl⟩
      exact ⟨rfl, rfl, he⟩
    · rintro ⟨hsize, -, hin⟩
      have hf : u.flowId = 0 := by
        by_contra hne
        rw [hother _ hne] at hin
        exact nomatch hin
      rw [hf] at hin
      refine ⟨_, hin, ?_⟩
      rw [← hsize, ← hf]

/-- A flow without steps stays as it is. -/
theorem nodeRun_other {es : List (Event ι)} {m : Nat → Flow ι}
    (hrun : runFrom (nodeStep d) m (es.map fun e => (0, e)) = some n) {f : Nat}
    (hf : f ≠ 0) : n f = m f := by
  rw [runFrom_map] at hrun
  refine runFrom_invariant (I := fun n => n f = m f) ?_ rfl hrun
  intro n e n' hn h
  obtain ⟨s', -, rfl⟩ := Option.map_eq_some_iff.mp h
  rw [Function.update_of_ne hf]
  exact hn

/-- A disk flow with chunks of one byte. -/
def tinyDims : Dims := .of 1 2

/-- Four chunks are preloaded, and two are taken off by threads `0` and `2`. -/
def twoTruncations : List (Event (Fin 3)) :=
  [.getAddrByOffset (three 0) (.of 0 2), .go (three 0), .go (three 0),
   .go (three 0), .go (three 0), .go (three 0), .preLoadObject (three 0) true,
   .start (three 1), .go (three 1), .mediaAlloc (three 1) (some 70),
   .go (three 1), .go (three 1), .go (three 1), .mediaAlloc (three 1) (some 71),
   .go (three 1), .go (three 1), .go (three 1), .mediaAlloc (three 1) (some 72),
   .go (three 1), .go (three 1), .go (three 1), .mediaAlloc (three 1) (some 73),
   .go (three 1), .go (three 1), .go (three 0), .go (three 0), .go (three 0),
   .go (three 0), .truncateOffset (three 0) 1, .go (three 0), .go (three 0),
   .go (three 0), .truncateOffset (three 2) 2, .go (three 2), .go (three 2),
   .go (three 2)]

/-- The node after a run on flow `0`. -/
def nodeRun (es : List (Event (Fin 3))) : Option (Nat → Flow (Fin 3)) :=
  runFrom (nodeStep tinyDims) (fun _ => Flow.init (Fin 3))
    (es.map fun e => (0, e))

/-- The second truncation frees its chunk first. -/
def overtaking : List (Event (Fin 3)) :=
  twoTruncations ++ [.go (three 2)]

/-- The first truncation frees its chunk first. -/
def inTurn : List (Event (Fin 3)) :=
  twoTruncations ++ [.go (three 0)]

/-- After the truncation that overtakes the other: the crash leaves a gap, and
    the node does not come up. -/
theorem gap_not_recovered :
    ∃ n disks, nodeRun overtaking = some n ∧
      Holds tinyDims (fun _ => 0) n disks ∧
      recover tinyDims.chunkSize disks = none := by
  have hcheck : (nodeRun overtaking).any (fun n =>
      decide ((n 0).media = [(0, 70), (2, 72), (3, 73)])) = true := by
    decide +kernel
  obtain ⟨n, hn, hcheck⟩ := (Option.any_eq_true _ _).mp hcheck
  have hmedia := of_decide_eq_true hcheck
  have hother : ∀ f, f ≠ 0 → (n f).media = [] := by
    intro f hf
    rw [nodeRun_other hn hf]
    rfl
  refine ⟨n, _, hn, holds_usedOf hother (by rw [hmedia]; decide), ?_⟩
  rw [usedOf, hmedia]
  decide +kernel

/-- A check that is enough for a step to free in order. -/
def freesInOrderB (s : Flow (Fin 3)) : Event (Fin 3) → Bool
  | .go t => decide (s.preLoadOffset + 1 < 2 ^ 64) &&
      match s.threads t with
      | .free (c :: _) => s.media.all fun x => s.media.all fun y =>
          decide (x.2 = c → x.1 ≤ y.1)
      | _ => true
  | _ => true

theorem freesInOrder_of_freesInOrderB {s : Flow (Fin 3)} {e : Event (Fin 3)}
    (hcheck : freesInOrderB s e = true) : FreesInOrder tinyDims s e := by
  cases e with
  | go t =>
      obtain ⟨hfit, hfree⟩ := Bool.and_eq_true_iff.mp hcheck
      refine ⟨fun _ _ => of_decide_eq_true hfit, ?_⟩
      intro c cleanList hp x hx hxc y hy
      rw [hp] at hfree
      exact of_decide_eq_true
        (List.all_eq_true.mp (List.all_eq_true.mp hfree x hx) y hy) hxc
  | getAddrByOffset t r => exact ⟨trivial, trivial⟩
  | truncateOffset t offset => exact ⟨trivial, trivial⟩
  | start t => exact ⟨trivial, trivial⟩
  | mediaAlloc t result => exact ⟨trivial, trivial⟩
  | preLoadObject t ok => exact ⟨trivial, trivial⟩

theorem crash_recovers_inTurn :
    ∃ n disks, nodeRun inTurn = some n ∧
      ∃ objs, recover tinyDims.chunkSize disks = some objs ∧
        ∀ e ∈ objs, ∃ j pre post, e.2.truncateOffset = j * 1 ∧
          e.2.chunkList = pre ++ (n e.1).chunkList ++ post ∧
          j + pre.length = (n e.1).truncateOffset / 1 := by
  have hcheck : (nodeRun inTurn).any (fun n =>
      decide (n 0).media.Nodup) = true := by
    decide +kernel
  have hgood : alongB (nodeStep tinyDims)
      (fun (n : Nat → Flow (Fin 3)) (e : Nat × Event (Fin 3)) =>
        freesInOrderB (n e.1) e.2) (fun _ => Flow.init (Fin 3))
      (inTurn.map fun e => (0, e)) = true := by
    decide +kernel
  have hgood' : Along (nodeStep tinyDims)
      (fun n e => FreesInOrder tinyDims (n e.1) e.2)
      (fun _ => Flow.init (Fin 3)) (inTurn.map fun e => (0, e)) :=
    along_of_alongB (fun _ _ h => freesInOrder_of_freesInOrderB h) _ _ hgood
  obtain ⟨n, hn, hcheck⟩ := (Option.any_eq_true _ _).mp hcheck
  have hother : ∀ f, f ≠ 0 → (n f).media = [] := by
    intro f hf
    rw [nodeRun_other hn hf]
    rfl
  obtain ⟨objs, hobjs, -, hall⟩ := crash_recovers (d := tinyDims) (by decide)
    hgood' hn (holds_usedOf hother (of_decide_eq_true hcheck))
  refine ⟨n, _, hn, objs, hobjs, fun e he => ?_⟩
  obtain ⟨j, pre, post, htrunc, -, hsplit, hlen, -⟩ := hall e he
  exact ⟨j, pre, post, htrunc, hsplit, hlen⟩

end UbsIo.Flows
