import UbsIo.Wcache.Place

/-! # Deletes and restarts

    `WCache::Delete` marks the record of a slice in the tier that the reference
    shows, and `WCache::Recover` reports the keys of the records on disk that
    have no mark.  A slice is `Dead` when its record on disk has the mark, or
    will have it when it is written.  What a `Delete` has to find is that all
    slices of the key are `Dead` once it has put its mark; from then on they
    stay so.

    It does not find that when the record has already been copied to disk and
    the slice still waits for its readers, and not when the key has another
    slice: `Insert` keeps the first of two. -/

namespace UbsIo.Wcache

open UbsIo.Lib

variable {ι κ β : Type}

/-! ## Recovery -/

/-- `sizeof(WFlowSliceMeta)`. -/
def sliceMetaSize : Nat := 512

/-- What the flows of the disk tier are after a restart; `getMetaSlice` tells
    for which slices `GetMetaSlice` finds the chunk. -/
structure DiskCache where
  metaEvictOffset : Nat
  metaVirCapacity : Nat
  dataEvictOffset : Nat
  dataVirCapacity : Nat
  getMetaSlice : Nat → Bool

def DiskCache.startIndex (d : DiskCache) : Nat :=
  (d.metaEvictOffset + sliceMetaSize - 1) / sliceMetaSize

def DiskCache.count (d : DiskCache) : Nat :=
  let count := d.metaVirCapacity / sliceMetaSize
  if d.metaEvictOffset % sliceMetaSize + sliceMetaSize * count >
      d.metaVirCapacity then
    (count + 2 ^ 64 - 1) % 2 ^ 64
  else count

/-- What `Recover` makes of a record: the reference that it puts into the queue
    of the disk tier, and the key that it reports.  Where no record has been
    written the magic is not that of the flow. -/
def recoverSlice (n : Node ι κ β) (d : DiskCache) (s : Slot) :
    Option (Slot × SliceRef κ × Option κ) :=
  match n.records .disk s with
  | none => none
  | some m =>
      if m.magic ≠ s.flowId then none
      else if m.offset < d.dataEvictOffset ∨
          m.offset + m.length > d.dataEvictOffset + d.dataVirCapacity then none
      else
        some (s, ⟨some .disk, none, 0, false, !m.hasEvict⟩,
          if m.hasEvict then none else some m.key)

/-- `WCache::Recover`, as far as the records can be read. -/
def recover (n : Node ι κ β) (d : DiskCache) (flowId : Nat) :
    List (Slot × SliceRef κ × Option κ) :=
  (((List.range d.count).map (d.startIndex + ·)).takeWhile
    d.getMetaSlice).filterMap fun i => recoverSlice n d ⟨flowId, i⟩

/-- The keys that are given to `recoverCallback`. -/
def reported (n : Node ι κ β) (d : DiskCache) (flowId : Nat) : List κ :=
  (recover n d flowId).filterMap fun x => x.2.2

/-- A key is reported for a record that has no mark. -/
theorem reported_record {n : Node ι κ β} {d : DiskCache} {flowId : Nat}
    {key : κ} (h : key ∈ reported n d flowId) :
    ∃ s m, n.records .disk s = some m ∧ m.key = key ∧ m.hasEvict = false := by
  obtain ⟨x, hx, hkey⟩ := List.mem_filterMap.mp h
  obtain ⟨i, -, hi⟩ := List.mem_filterMap.mp hx
  simp only [recoverSlice] at hi
  split at hi
  · exact nomatch hi
  next m hm =>
    split at hi
    · exact nomatch hi
    · split at hi
      · exact nomatch hi
      · cases hi
        simp only at hkey
        split at hkey
        · exact nomatch hkey
        next hno =>
          cases hkey
          exact ⟨_, m, hm, rfl, Bool.eq_false_iff.mpr hno⟩

/-! ## Marks -/

/-- The slice has been written for this key. -/
def Keyed (n : Node ι κ β) (s : Slot) (key : κ) : Prop :=
  ∃ m, n.records .memory s = some m ∧ m.key = key

/-- The record of the slice on disk has the mark, or will have it. -/
structure Dead (n : Node ι κ β) (s : Slot) : Prop where
  disk : ∀ m, n.records .disk s = some m → m.hasEvict = true
  memory : n.records .disk s = none →
    ∀ m, n.records .memory s = some m → m.hasEvict = true

def AllDead (n : Node ι κ β) (key : κ) : Prop :=
  ∀ s, Keyed n s key → Dead n s

/-- A `Delete` that puts its mark, and no `Put` of the key since it has been
    called, finds the other slices of the key marked; and if its slice is in
    memory, no record without a mark has been copied to disk. -/
def MarksLast (n : Node ι κ β) (e : Event ι κ β) : Prop :=
  ∀ t key s, e = .go t →
    n.threads t = .deleteMark key s (some (n.history.called key)) →
    (∀ s' ∈ n.used, s' ≠ s → Keyed n s' key → Dead n s') ∧
    ∀ r, n.refs s = some r → r.slice = some .memory →
      ∀ m, n.records .disk s = some m → m.hasEvict = true

variable [DecidableEq ι] [DecidableEq κ] {L : Layout} {isMaster : Bool}
  {n n' : Node ι κ β} {e : Event ι κ β} {loc : Slot → Loc ι} {key : κ}
  {s : Slot}

/-- What a step does to the records. -/
theorem Trans.records (h : Trans L isMaster n e n') :
    n'.records = n.records ∨
    (∃ t p, n.threads t = .write p ∧ n'.records =
      (n.setRecord .memory p.slot ⟨p.key, L.offset p.slot, L.length p.slot,
        p.slot.flowId, false⟩).records) ∨
    (∃ t j s m, n.threads t = .copy j s ∧ n.records .memory s = some m ∧
      n'.records = (n.setRecord .disk s m).records) ∨
    ∃ tier s m, n.records tier s = some m ∧
      n'.records = (n.setRecord tier s { m with hasEvict := true }).records := by
  cases h with
  | wrote t p hp => exact .inr (.inl ⟨t, p, hp, rfl⟩)
  | copied t j s r m b hp hr hslice hm hb =>
      exact .inr (.inr (.inl ⟨t, j, s, m, hp, getMeta_eq_some hm, rfl⟩))
  | marked t j s m hp hm =>
      exact .inr (.inr (.inr ⟨.disk, s, m, getMeta_eq_some hm, rfl⟩))
  | deleteMarked t key s stamp r tier m hp hr hslice hm =>
      exact .inr (.inr (.inr ⟨tier, s, m, getMeta_eq_some hm, rfl⟩))
  | _ => exact .inl rfl

omit [DecidableEq ι] [DecidableEq κ] in
/-- A slice has its key from its `Put`. -/
theorem keyed_setRecord {tier : Tier} {m : SliceMeta κ}
    (hm : n.records tier s = some m) {s' : Slot}
    (h : Keyed (n.setRecord tier s { m with hasEvict := true }) s' key) :
    Keyed n s' key := by
  obtain ⟨m', hm', hkey⟩ := h
  by_cases hs : s' = s
  · rw [hs] at hm' ⊢
    by_cases ht : Tier.memory = tier
    · subst ht
      rw [setRecord_self] at hm'
      cases hm'
      exact ⟨m, hm, hkey⟩
    · rw [setRecord_of_tier tier .memory _ ht] at hm'
      exact ⟨m', hm', hkey⟩
  · rw [setRecord_of_ne _ _ hs] at hm'
    exact ⟨m', hm', hkey⟩

omit [DecidableEq ι] [DecidableEq κ] in
/-- A mark kills no slice and revives none. -/
theorem Dead.mark {tier : Tier} {m : SliceMeta κ} (h : Dead n s) {s' : Slot} :
    Dead (n.setRecord tier s' { m with hasEvict := true }) s := by
  by_cases hs : s = s'
  · subst hs
    cases tier with
    | memory =>
        refine ⟨h.disk, fun _ m' hm' => ?_⟩
        rw [setRecord_self] at hm'
        cases hm'
        rfl
    | disk =>
        refine ⟨fun m' hm' => ?_, fun hnone => ?_⟩
        · rw [setRecord_self] at hm'
          cases hm'
          rfl
        · rw [setRecord_self] at hnone
          exact nomatch hnone
  · refine ⟨?_, ?_⟩
    · rw [setRecord_of_ne _ _ hs]
      exact h.disk
    · rw [setRecord_of_ne _ _ hs, setRecord_of_ne _ _ hs]
      exact h.memory

omit [DecidableEq ι] [DecidableEq κ] in
theorem Dead.congr (h : Dead n s)
    (hrecords : ∀ tier, n'.records tier s = n.records tier s) : Dead n' s where
  disk := hrecords .disk ▸ h.disk
  memory := hrecords .disk ▸ hrecords .memory ▸ h.memory

omit [DecidableEq ι] [DecidableEq κ] in
theorem Keyed.congr (h : Keyed n' s key)
    (hrecords : n'.records .memory s = n.records .memory s) :
    Keyed n s key := by
  obtain ⟨m, hm, hkey⟩ := h
  exact ⟨m, hrecords ▸ hm, hkey⟩

/-- **THE DEAD STAY DEAD**, as long as no `Put` of the key runs. -/
theorem AllDead.trans (h : AllDead n key) (hl : Placed n loc)
    (hrunning : ∀ t p, n.threads t = .write p → p.key ≠ key)
    (ht : Trans L isMaster n e n') : AllDead n' key := by
  intro s hs
  rcases ht.records with hrec | ⟨t, p, hp, hrec⟩ | ⟨t, j, x, m, hp, hm, hrec⟩ |
    ⟨tier, x, m, hm, hrec⟩
  · exact (h s (hs.congr (by rw [hrec]))).congr fun _ => by rw [hrec]
  · have hne : s ≠ p.slot := by
      rintro rfl
      obtain ⟨m, hm, hkey⟩ := hs
      rw [hrec, setRecord_self] at hm
      cases hm
      exact hrunning t p hp hkey
    have hsame (tier) : n'.records tier s = n.records tier s := by
      rw [hrec, setRecord_of_ne _ _ hne]
    exact (h s (hs.congr (hsame _))).congr hsame
  · have hmem : n'.records .memory = n.records .memory := by
      rw [hrec, setRecord_of_tier .disk .memory _ nofun]
    have hd := h s (hs.congr (by rw [hmem]))
    by_cases hx : s = x
    · -- the copy is of a record with a mark
      subst hx
      have hfits := hl.fits s
      rw [hl.at hp rfl] at hfits
      have hnone := Option.isSome_eq_false_iff.mp hfits.disk
      refine ⟨fun m' hm' => ?_, fun h' => ?_⟩
      · rw [hrec, setRecord_self] at hm'
        cases hm'
        exact hd.memory (Option.isNone_iff_eq_none.mp hnone) m hm
      · rw [hrec, setRecord_self] at h'
        exact nomatch h'
    · exact hd.congr fun _ => by rw [hrec, setRecord_of_ne _ _ hx]
  · have hs' : Keyed (n.setRecord tier x { m with hasEvict := true }) s key :=
      hs.congr (by rw [hrec])
    exact (h s (keyed_setRecord hm hs')).mark.congr fun _ => by rw [hrec]

/-- The record on disk has the key of the slice. -/
def SameKey (n : Node ι κ β) : Prop :=
  ∀ s m, n.records .disk s = some m → Keyed n s m.key

omit [DecidableEq ι] [DecidableEq κ] in
theorem Keyed.mark {tier : Tier} {m : SliceMeta κ}
    (hm : n.records tier s = some m) {s' : Slot} (h : Keyed n s' key) :
    Keyed (n.setRecord tier s { m with hasEvict := true }) s' key := by
  obtain ⟨m', hm', hkey⟩ := h
  by_cases hs : s' = s
  · subst hs
    by_cases ht : Tier.memory = tier
    · subst ht
      rw [hm] at hm'
      cases hm'
      exact ⟨_, setRecord_self _ _, hkey⟩
    · exact ⟨m', by rw [setRecord_of_tier tier .memory _ ht, hm'], hkey⟩
  · exact ⟨m', by rw [setRecord_of_ne _ _ hs, hm'], hkey⟩

theorem SameKey.trans (h : SameKey n) (hl : Placed n loc)
    (ht : Trans L isMaster n e n') : SameKey n' := by
  intro s m hm
  rcases ht.records with hrec | ⟨t, p, hp, hrec⟩ | ⟨t, j, x, m', hp, hm', hrec⟩ |
    ⟨tier, x, m', hm', hrec⟩
  · exact (h s m (hrec ▸ hm)).congr (by rw [hrec])
  · have hdisk : n'.records .disk = n.records .disk := by
      rw [hrec, setRecord_of_tier .memory .disk _ nofun]
    rw [hdisk] at hm
    refine (h s m hm).congr ?_
    rw [hrec]
    refine (setRecord_of_ne .memory _ fun hs => ?_).symm
    -- what has not been written has no record on disk
    subst hs
    have hfits := hl.fits p.slot
    rw [hl.at hp rfl] at hfits
    have hdisk := hfits.disk
    rw [hm] at hdisk
    exact nomatch hdisk
  · have hmem : n'.records .memory = n.records .memory := by
      rw [hrec, setRecord_of_tier .disk .memory _ nofun]
    by_cases hs : s = x
    · subst hs
      rw [hrec, setRecord_self] at hm
      cases hm
      exact ⟨m, by rw [hmem, hm'], rfl⟩
    · rw [hrec, setRecord_of_ne _ _ hs] at hm
      exact (h s m hm).congr (by rw [hmem])
  · have hold : Keyed n s m.key := by
      rw [hrec] at hm
      by_cases hs : s = x
      · subst hs
        by_cases hx : Tier.disk = tier
        · subst hx
          rw [setRecord_self] at hm
          cases hm
          exact h s m' hm'
        · rw [setRecord_of_tier tier .disk _ hx] at hm
          exact h s m hm
      · rw [setRecord_of_ne _ _ hs] at hm
        exact h s m hm
    exact (hold.mark hm').congr (by rw [hrec])

/-! ## Calls -/

/-- A `Delete` that was called after `c` `Put`s of the key. -/
def Stamped (n : Node ι κ β) (key : κ) (c : Nat) : Prop :=
  c ≤ n.history.called key ∧
    (c = n.history.called key → n.history.running key = [])

/-- What a step does to the calls. -/
theorem Trans.history (h : Trans L isMaster n e n') :
    n'.history = n.history ∨
    (∃ (t : ι) (p : PutArgs κ β), e = .put t p ∧ n'.history = n.history.call t p.key) ∨
    (∃ (t : ι) (p : PutArgs κ β), n'.threads t = .idle ∧
      (n'.history = n.history.failed t p.key ∨
        n'.history = n.history.done t p.key p.slot p.value)) ∨
    ∃ t key stamp s, n.threads t = .back (.delete key stamp true) s ∧
      n'.history = n.history.delete key stamp := by
  cases h with
  | putCall t p hp hnew => exact .inr (.inl ⟨t, p, rfl, rfl⟩)
  | putRequeued t tier p s hp =>
      exact .inr (.inr (.inl ⟨t, p, Function.update_self .., .inl rfl⟩))
  | inserted t p hp =>
      exact .inr (.inr (.inl ⟨t, p, Function.update_self .., .inr rfl⟩))
  | putFailed t p hp =>
      exact .inr (.inr (.inl ⟨t, p, Function.update_self .., .inl rfl⟩))
  | deleted t key stamp s hp =>
      exact .inr (.inr (.inr ⟨t, key, stamp, s, hp, rfl⟩))
  | _ => exact .inl rfl

theorem Trans.put_history {t : ι} {p : PutArgs κ β}
    (h : Trans L isMaster n (.put t p) n') :
    n'.history = n.history.call t p.key := by
  cases h with
  | putCall => rfl
  | missed _ _ _ he =>
      obtain ⟨_, h | h, -⟩ := he
      all_goals exact nomatch h
  | moves _ _ _ he => exact he.elim nofun nofun
  | markFailed _ _ _ _ he => exact he.elim nofun nofun
  | ended _ _ _ _ _ he => exact he.elim nofun nofun

omit [DecidableEq ι] [DecidableEq κ] in
theorem Stamped.congr {c : Nat} (h : Stamped n key c)
    (hcalled : n'.history.called key = n.history.called key)
    (hrunning : n.history.running key = [] → n'.history.running key = []) :
    Stamped n' key c := by
  refine ⟨hcalled ▸ h.1, fun hc => hrunning (h.2 (hcalled ▸ hc))⟩

theorem Stamped.trans {c : Nat} (h : Stamped n key c)
    (ht : Trans L isMaster n e n') : Stamped n' key c := by
  have herase (k : κ) (t : ι) (hk : n.history.running key = []) :
      (n.history.failed t k).running key = [] := by
    show Function.update n.history.running k _ key = []
    by_cases hkey : key = k
    · subst hkey
      rw [Function.update_self, hk]
      rfl
    · rw [Function.update_of_ne hkey]
      exact hk
  rcases ht.history with hh | ⟨t, p, -, hh⟩ | ⟨t, p, -, hh | hh⟩ |
    ⟨t, k, stamp, x, -, hh⟩
  · exact h.congr (by rw [hh]) (by rw [hh]; exact id)
  · by_cases hkey : key = p.key
    · subst hkey
      have hc : n'.history.called p.key = n.history.called p.key + 1 := by
        rw [hh]
        exact Function.update_self ..
      refine ⟨hc ▸ Nat.le_succ_of_le h.1, fun hc' => ?_⟩
      have := h.1
      omega
    · refine h.congr ?_ ?_
      · rw [hh]
        exact Function.update_of_ne hkey ..
      · rw [hh]
        exact fun hk => (Function.update_of_ne hkey ..).trans hk
  · exact h.congr (by rw [hh]; rfl) (by rw [hh]; exact herase p.key t)
  · exact h.congr (by rw [hh]; rfl) (by rw [hh]; exact herase p.key t)
  · exact h.congr (by rw [hh]; rfl) (by rw [hh]; exact id)

omit [DecidableEq ι] [DecidableEq κ] in
theorem delete_of_erased {p : Phase κ β} {x : κ × Option Nat}
    (h : p.erased? = some x) : p.delete? = some x := by
  have hret (r : Ret κ β) (h : r.erased? = some x) : r.delete? = some x := by
    cases r with
    | delete key stamp ok =>
        cases ok with
        | true => exact h
        | false => exact nomatch h
    | _ => exact nomatch h
  cases p with
  | setState key s stamp => exact h
  | deleteUnlock key s stamp ok =>
      cases ok with
      | true => exact h
      | false => exact nomatch h
  | release r s => exact hret r h
  | cursor c r s => exact hret r h
  | truncate c r s i => exact hret r h
  | finish c r s => exact hret r h
  | back r s => exact hret r h
  | _ => exact nomatch h

omit [DecidableEq ι] [DecidableEq κ] in
theorem delete_of_marked {p : Phase κ β} {x : κ × Option Nat}
    (h : p.marked? = some x) : p.delete? = some x := by
  cases p with
  | deleteIndex key s stamp => exact h
  | setState key s stamp => exact h
  | deleteUnlock key s stamp ok => exact delete_of_erased h
  | release r s => exact delete_of_erased h
  | cursor c r s => exact delete_of_erased h
  | truncate c r s i => exact delete_of_erased h
  | finish c r s => exact delete_of_erased h
  | back r s => exact delete_of_erased h
  | _ => exact nomatch h

omit [DecidableEq ι] in
theorem mem_deleted {h : History ι κ β} {k : κ} {stamp : Option Nat} {c : Nat}
    (hc : c ∈ (h.delete k stamp).deleted key) :
    c ∈ h.deleted key ∨ key = k ∧ stamp = some c := by
  have hc' : c ∈ Function.update h.deleted k
      (h.deleted k ++ stamp.toList) key := hc
  by_cases hk : key = k
  · subst hk
    rw [Function.update_self, List.mem_append] at hc'
    exact hc'.imp_right fun h' => ⟨rfl, Option.mem_toList.mp h'⟩
  · rw [Function.update_of_ne hk] at hc'
    exact .inl hc'

/-! ## The invariant -/

structure Buried (n : Node ι κ β) : Prop where
  same : SameKey n
  running : ∀ t p, (n.threads t).put = some p →
    t ∈ n.history.running p.key
  stamp : ∀ t key c, (n.threads t).delete? = some (key, some c) →
    Stamped n key c
  stamps : ∀ key, ∀ c ∈ n.history.deleted key, Stamped n key c
  marked : ∀ t key,
    (n.threads t).marked? = some (key, some (n.history.called key)) →
    AllDead n key
  deleted : ∀ key, n.history.called key ∈ n.history.deleted key →
    AllDead n key

theorem running_trans
    (h : ∀ t p, (n.threads t).put = some p → t ∈ n.history.running p.key)
    (ht : Trans L isMaster n e n') :
    ∀ t p, (n'.threads t).put = some p → t ∈ n'.history.running p.key := by
  intro u p hp
  -- a call that goes on is still there
  have hold (hu : u ∈ n.history.running p.key) :
      u ∈ n'.history.running p.key := by
    have herase (t : ι) (k : κ) (hidle : n'.threads t = .idle) :
        u ∈ (n.history.failed t k).running p.key := by
      have hne : u ≠ t := by
        rintro rfl
        rw [hidle] at hp
        exact nomatch hp
      show u ∈ Function.update n.history.running k _ p.key
      by_cases hk : p.key = k
      · subst hk
        rw [Function.update_self]
        exact (List.mem_erase_of_ne hne).mpr hu
      · rw [Function.update_of_ne hk]
        exact hu
    rcases ht.history with hh | ⟨t, q, -, hh⟩ | ⟨t, q, hidle, hh | hh⟩ |
      ⟨t, k, stamp, x, -, hh⟩
    · rw [hh]
      exact hu
    · rw [hh]
      show u ∈ Function.update n.history.running q.key _ p.key
      by_cases hk : p.key = q.key
      · rw [hk, Function.update_self]
        exact List.mem_cons_of_mem _ (hk ▸ hu)
      · rw [Function.update_of_ne hk]
        exact hu
    · rw [hh]
      exact herase t q.key hidle
    · rw [hh]
      exact herase t q.key hidle
    · rw [hh]
      exact hu
  rcases ht.follows with hsame | ⟨t, q, hsame, hf⟩
  · exact hold (h u p (hsame ▸ hp))
  · by_cases hu : u = t
    · subst hu
      rw [hsame, Function.update_self] at hp
      rcases hf.put with hq | hq | ⟨a, rfl, hq⟩
      · rw [hp] at hq
        exact nomatch hq
      · exact hold (h u p (hq ▸ hp))
      · rw [hp] at hq
        cases hq
        rw [ht.put_history]
        show u ∈ Function.update n.history.running p.key _ p.key
        rw [Function.update_self]
        exact List.mem_cons_self ..
    · rw [hsame, Function.update_of_ne hu] at hp
      exact hold (h u p hp)

theorem stamp_trans
    (h : ∀ t key c, (n.threads t).delete? = some (key, some c) →
      Stamped n key c) (ht : Trans L isMaster n e n') :
    ∀ t key c, (n'.threads t).delete? = some (key, some c) →
      Stamped n' key c := by
  intro u key c hu
  refine Stamped.trans ?_ ht
  rcases ht.follows with hsame | ⟨t, q, hsame, hf⟩
  · exact h u key c (hsame ▸ hu)
  · by_cases hut : u = t
    · subst hut
      rw [hsame, Function.update_self] at hu
      rcases hf.delete with hq | hq | ⟨k, -, hq⟩
      · rw [hu] at hq
        exact nomatch hq
      · exact h u key c (hq ▸ hu)
      · -- the `Delete` has just been called
        rw [hu] at hq
        obtain ⟨rfl, hc⟩ := Prod.mk.inj (Option.some.inj hq)
        simp only [History.stamp] at hc
        split at hc
        next hrunning =>
          cases hc
          exact ⟨le_rfl, fun _ => hrunning⟩
        · exact nomatch hc
    · rw [hsame, Function.update_of_ne hut] at hu
      exact h u key c hu

theorem stamps_trans
    (hstamp : ∀ t key c, (n.threads t).delete? = some (key, some c) →
      Stamped n key c)
    (h : ∀ key, ∀ c ∈ n.history.deleted key, Stamped n key c)
    (ht : Trans L isMaster n e n') :
    ∀ key, ∀ c ∈ n'.history.deleted key, Stamped n' key c := by
  intro key c hc
  refine Stamped.trans ?_ ht
  rcases ht.history with hh | ⟨t, p, -, hh⟩ | ⟨t, p, -, hh | hh⟩ |
    ⟨t, k, stamp, x, hback, hh⟩
  · exact h key c (hh ▸ hc)
  · exact h key c (by rwa [hh] at hc)
  · exact h key c (by rwa [hh] at hc)
  · exact h key c (by rwa [hh] at hc)
  · rw [hh] at hc
    rcases mem_deleted hc with hc | ⟨rfl, rfl⟩
    · exact h key c hc
    · exact hstamp t key c (by rw [hback]; rfl)

omit [DecidableEq ι] [DecidableEq κ] in
/-- **THE MARK**: a `Delete` that marks the last slice of a key leaves no slice
    of the key alive. -/
theorem allDead_marked (hl : Placed n loc) (hg : MarksLast n e) {t : ι}
    (he : e = .go t)
    (hp : n.threads t = .deleteMark key s (some (n.history.called key)))
    (hm : MarksRecord n n' s) : AllDead n' key := by
  obtain ⟨hothers, hmem⟩ := hg t key s he hp
  have hused {s'} (hk : Keyed n s' key) : s' ∈ n.used := by
    obtain ⟨m, hm, -⟩ := hk
    refine (hl.fits s').used_of fun habs => ?_
    have hsome := (hl.fits s').memory
    rw [hm, habs] at hsome
    exact nomatch hsome
  intro s' hs'
  obtain ⟨r, hr, ⟨hslice, hrec⟩ | ⟨tier, m, hslice, hmeta, hrec⟩⟩ := hm
  · have hk : Keyed n s' key := hs'.congr (by rw [hrec])
    refine Dead.congr (n := n) ?_ fun _ => by rw [hrec]
    by_cases hs : s' = s
    · -- what has left the disk has its mark
      subst hs
      have hstage : (loc s').stage = .gone := by
        have := (hl.fits s').slice_of hr
        rw [hslice] at this
        cases hg : (loc s').stage with
        | gone => rfl
        | _ =>
            rw [hg] at this
            exact nomatch this
      have hfits := hl.fits s'
      refine ⟨hfits.marked (by rw [hstage]; rfl), fun hnone => ?_⟩
      have hdisk := hfits.disk
      rw [hnone, hstage] at hdisk
      exact nomatch hdisk
    · exact hothers s' (hused hk) hs hk
  · have hrecord := getMeta_eq_some hmeta
    have hk : Keyed n s' key := by
      refine keyed_setRecord hrecord (s := s) (hs'.congr ?_)
      rw [hrec]
    by_cases hs : s' = s
    · subst hs
      refine Dead.congr (n := n.setRecord tier s' { m with hasEvict := true })
        ?_ fun _ => by rw [hrec]
      cases tier with
      | memory =>
          refine ⟨hmem r hr hslice, fun _ m' hm' => ?_⟩
          rw [setRecord_self] at hm'
          cases hm'
          rfl
      | disk =>
          refine ⟨fun m' hm' => ?_, fun hnone => ?_⟩
          · rw [setRecord_self] at hm'
            cases hm'
            rfl
          · rw [setRecord_self] at hnone
            exact nomatch hnone
    · exact (hothers s' (hused hk) hs hk).congr fun _ => by
        rw [hrec, setRecord_of_ne _ _ hs]

theorem Buried.trans (h : Buried n) (hl : Placed n loc)
    (hg : MarksLast n e) (ht : Trans L isMaster n e n') : Buried n' := by
  have hdead {key} (hr : n.history.running key = []) (hd : AllDead n key) :
      AllDead n' key := by
    refine hd.trans hl (fun t p hp hkey => ?_) ht
    have hmem := h.running t p (by rw [hp]; rfl)
    rw [hkey, hr] at hmem
    exact nomatch hmem
  -- no `Put` has been called since
  have hcalled {key} (hs : Stamped n key (n'.history.called key)) :
      n'.history.called key = n.history.called key := by
    refine le_antisymm hs.1 ?_
    rcases ht.history with hh | ⟨t, p, -, hh⟩ | ⟨t, p, -, hh | hh⟩ |
      ⟨t, k, stamp, x, -, hh⟩
    · rw [hh]
    · rw [hh]
      show _ ≤ Function.update n.history.called p.key _ key
      by_cases hk : key = p.key
      · rw [hk, Function.update_self]
        exact Nat.le_succ _
      · rw [Function.update_of_ne hk]
    · rw [hh]
      rfl
    · rw [hh]
      rfl
    · rw [hh]
      rfl
  refine ⟨h.same.trans hl ht, running_trans h.running ht,
    stamp_trans h.stamp ht, stamps_trans h.stamp h.stamps ht, ?_, ?_⟩
  case refine_1 =>
    intro u key hu
    have hold (hu : (n.threads u).marked? =
        some (key, some (n'.history.called key))) : AllDead n' key := by
      have hs := h.stamp u key _ (delete_of_marked hu)
      have hc := hcalled hs
      exact hdead (hs.2 hc) (h.marked u key (hc ▸ hu))
    rcases ht.follows with hsame | ⟨t, q, hsame, hf⟩
    · exact hold (hsame ▸ hu)
    · by_cases hut : u = t
      · subst hut
        rw [hsame, Function.update_self] at hu
        rcases hf.marked with hq | hq | ⟨k, s, stamp, hp, he, hq, hm⟩
        · rw [hu] at hq
          exact nomatch hq
        · exact hold (hq ▸ hu)
        · rw [hu] at hq
          obtain ⟨rfl, rfl⟩ := Prod.mk.inj (Option.some.inj hq)
          have hs := h.stamp u key _ (by rw [hp]; rfl)
          rw [hcalled hs] at hp
          exact allDead_marked hl hg he hp hm
      · rw [hsame, Function.update_of_ne hut] at hu
        exact hold hu
  case refine_2 =>
    intro key hdel
    have hold (hdel : n'.history.called key ∈ n.history.deleted key) :
        AllDead n' key := by
      have hs := h.stamps key _ hdel
      have hc := hcalled hs
      exact hdead (hs.2 hc) (h.deleted key (hc ▸ hdel))
    rcases ht.history with hh | ⟨t, p, -, hh⟩ | ⟨t, p, -, hh | hh⟩ |
      ⟨t, k, stamp, x, hback, hh⟩
    · exact hold (by rwa [← hh])
    · have : n'.history.deleted = n.history.deleted := by rw [hh]; rfl
      exact hold (this ▸ hdel)
    · have : n'.history.deleted = n.history.deleted := by rw [hh]; rfl
      exact hold (this ▸ hdel)
    · have : n'.history.deleted = n.history.deleted := by rw [hh]; rfl
      exact hold (this ▸ hdel)
    · have hc : n'.history.called = n.history.called := by rw [hh]; rfl
      rw [hc] at hdel
      rw [hh] at hdel
      rcases mem_deleted hdel with hdel | ⟨rfl, rfl⟩
      · exact hold (by rwa [hc])
      · have hmarked : (n.threads t).marked? =
            some (key, some (n.history.called key)) := by
          rw [hback]
          rfl
        exact hdead ((h.stamp t key _ (delete_of_marked hmarked)).2 rfl)
          (h.marked t key hmarked)

omit [DecidableEq ι] [DecidableEq κ] in
theorem buried_init : Buried (Node.init ι κ β) where
  same := nofun
  running := nofun
  stamp := nofun
  stamps := fun _ _ h => nomatch h
  marked := nofun
  deleted := fun _ h => nomatch h

/-- **DELETES SURVIVE A RESTART**: when every `Delete` that puts its mark finds
    the last slice of its key without one, no key is reported after a `Delete`
    that no `Put` has followed. -/
theorem deletes_survive {es : List (Event ι κ β)}
    (hg : Along (step L isMaster) MarksLast (Node.init ι κ β) es)
    (hr : runFrom (step L isMaster) (Node.init ι κ β) es = some n)
    (hdel : n.history.called key ∈ n.history.deleted key) (d : DiskCache)
    (flowId : Nat) : key ∉ reported n d flowId := by
  have hinv : Buried n ∧ ∃ loc, Placed n loc := by
    refine runFrom_invariant_along (G := MarksLast)
      (I := fun n => Buried n ∧ ∃ loc, Placed n loc) ?_ es _ n
      ⟨buried_init, _, placed_init⟩ hg hr
    rintro n e n' ⟨hb, loc, hl⟩ hG hs
    exact ⟨hb.trans hl hG (trans_of_step hs), hl.trans (trans_of_step hs)⟩
  intro hrep
  obtain ⟨s, m, hm, rfl, hno⟩ := reported_record hrep
  have hdead := hinv.1.deleted m.key hdel s (hinv.1.same s m hm)
  rw [hdead.disk m hm] at hno
  exact nomatch hno

/-! ## Two runs -/

/-- The condition, evaluated. -/
def marksLast (n : Node ι κ β) : Event ι κ β → Bool
  | .go t =>
      match n.threads t with
      | .deleteMark key s _ =>
          n.used.all (fun s' => s' = s ||
            (n.records .memory s').all (fun m => m.key ≠ key) ||
            (n.records .disk s').any SliceMeta.hasEvict) &&
            (n.records .disk s).all SliceMeta.hasEvict
      | _ => true
  | _ => true

omit [DecidableEq ι] in
theorem marksLast_of_eval (n : Node ι κ β) (e : Event ι κ β)
    (h : marksLast n e = true) : MarksLast n e := by
  rintro t key s rfl hp
  simp only [marksLast, hp, Bool.and_eq_true, List.all_eq_true,
    Bool.or_eq_true, decide_eq_true_eq] at h
  refine ⟨fun s' hs' hne hk => ?_, fun r _ _ m hm => ?_⟩
  · obtain ⟨m, hm, hkey⟩ := hk
    rcases h.1 s' hs' with (heq | hkeys) | hmark
    · exact absurd heq hne
    · rw [hm, Option.all_some, decide_eq_true_eq] at hkeys
      exact absurd hkey hkeys
    · refine ⟨fun m' hm' => ?_, fun hnone => ?_⟩
      · rw [hm', Option.any_some] at hmark
        exact hmark
      · rw [hnone] at hmark
        exact nomatch hmark
  · have hall := h.2
    rw [hm, Option.all_some] at hall
    exact hall

/-- Slices of one byte. -/
def bytes : Layout := ⟨fun _ i => i, fun _ i => Nat.lt_succ_self i⟩

/-- The disk tier with the record of the first slice. -/
def oneRecord : DiskCache := ⟨0, 512, 0, 1, fun _ => true⟩

/-- Thread `true` puts a value under key 7, and the copies agree on its
    eviction. -/
def putSeven : List (Event Bool Nat Nat) :=
  [.put true ⟨⟨0, 0⟩, 7, 70, .memBack, true⟩, .go true, .go true, .go true,
    .negotiated ⟨0, 0⟩]

/-- It evicts the slice from memory to disk. -/
def evictSeven : List (Event Bool Nat Nat) :=
  .evictAll true .memory 0 none :: List.replicate 6 (.go true)

/-- It deletes the key. -/
def deleteSeven : List (Event Bool Nat Nat) :=
  .delete true 7 :: List.replicate 7 (.go true)

theorem deletes_survive_unread :
    ∃ n, runFrom (step bytes true) (Node.init Bool Nat Nat)
      (putSeven ++ deleteSeven ++ evictSeven) = some n ∧
      7 ∉ reported n oneRecord 0 := by
  have hrun : (runFrom (step bytes true) (Node.init Bool Nat Nat)
      (putSeven ++ deleteSeven ++ evictSeven)).map
        (fun n => decide (n.history.called 7 ∈ n.history.deleted 7)) =
      some true := by decide +kernel
  obtain ⟨n, hn, hdel⟩ := Option.map_eq_some_iff.mp hrun
  refine ⟨n, hn, deletes_survive (along_of_alongB marksLast_of_eval _ _ ?_) hn
    (of_decide_eq_true hdel) _ _⟩
  decide +kernel

/-- A reader has the slice when it is copied to disk, and the `Delete` marks the
    record in memory alone. -/
theorem read_slice_reported :
    ¬ ∀ (es : List (Event Bool Nat Nat)) (n : Node Bool Nat Nat),
      runFrom (step bytes true) (Node.init Bool Nat Nat) es = some n →
      ∀ key, n.history.called key ∈ n.history.deleted key →
        ∀ d flowId, key ∉ reported n d flowId := by
  intro h
  have hrun : (runFrom (step bytes true) (Node.init Bool Nat Nat)
      (putSeven ++ [.get false 7] ++ evictSeven ++ deleteSeven)).map
        (fun n => (decide (n.history.called 7 ∈ n.history.deleted 7),
          reported n oneRecord 0)) = some (true, [7]) := by decide +kernel
  obtain ⟨n, hn, heq⟩ := Option.map_eq_some_iff.mp hrun
  obtain ⟨hdel, hrep⟩ := Prod.mk.inj heq
  refine h _ n hn 7 (of_decide_eq_true hdel) oneRecord 0 ?_
  rw [hrep]
  exact List.mem_singleton_self 7

end UbsIo.Wcache
