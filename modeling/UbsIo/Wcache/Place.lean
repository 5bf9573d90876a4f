import UbsIo.Wcache.Steps

/-! # Where the slices are

    A slice is in one place at a time: with a thread, in the map of the
    negotiation, in the queue of a tier, or with its own reference, which keeps
    the callback of an eviction until the last reader has gone.  What its
    reference and its records look like follows from the place. -/

namespace UbsIo.Wcache

open UbsIo.Lib

variable {ι κ β : Type}

inductive Loc (ι : Type) where
  | absent
  -- its `Put` has failed before anything was written
  | lost
  | thread (t : ι) (o : Own)
  | negotiate
  | queue (tier : Tier)
  -- the callback waits for the readers
  | waits (tier : Tier)
  | gone

/-- How far a slice has come. -/
inductive Stage where
  | unwritten
  | inMemory | leavingMemory
  | onDisk | leavingDisk
  | gone
deriving DecidableEq, Repr

def Own.stage : Own → Stage
  | .write => .unwritten
  | .put => .inMemory
  | .evict .memory => .inMemory
  | .leave .memory => .leavingMemory
  | .call .memory => .onDisk
  | .evict .disk => .onDisk
  | .leave .disk => .leavingDisk
  | .call .disk => .gone

def Loc.stage : Loc ι → Stage
  | .absent => .unwritten
  | .lost => .unwritten
  | .thread _ o => o.stage
  | .negotiate => .inMemory
  | .queue .memory => .inMemory
  | .queue .disk => .onDisk
  | .waits .memory => .leavingMemory
  | .waits .disk => .leavingDisk
  | .gone => .gone

/-- The slice of the reference, if there is one. -/
def Stage.slice : Stage → Option (Option Tier)
  | .unwritten => none
  | .inMemory => some (some .memory)
  | .leavingMemory => some (some .memory)
  | .onDisk => some (some .disk)
  | .leavingDisk => some (some .disk)
  | .gone => some none

/-- The slice has a record on disk. -/
def Stage.copied : Stage → Bool
  | .unwritten => false
  | .inMemory => false
  | _ => true

/-- The record on disk has been marked by the eviction. -/
def Stage.marked : Stage → Bool
  | .leavingDisk => true
  | .gone => true
  | _ => false

/-- The tier that the slice leaves once its readers have gone. -/
def Loc.waiting : Loc ι → Option Tier
  | .waits tier => some tier
  | _ => none

/-- What is known of a slice in a place. -/
structure Fits (n : Node ι κ β) (s : Slot) (l : Loc ι) : Prop where
  slice : (n.refs s).map SliceRef.slice = l.stage.slice
  waiting : ((n.refs s).bind SliceRef.setSliceCallback).map Callback.tier =
    l.waiting
  memory : (n.records .memory s).isSome = l.stage.slice.isSome
  disk : (n.records .disk s).isSome = l.stage.copied
  marked : l.stage.marked = true →
    ∀ m, n.records .disk s = some m → m.hasEvict = true
  used : s ∉ n.used → l = .absent

def Owned (threads : ι → Phase κ β) (loc : Slot → Loc ι) : Prop :=
  ∀ t o s, (threads t).owns = some (o, s) ↔ loc s = .thread t o

def Negotiating (evictNegotiateMap : List Slot) (loc : Slot → Loc ι) : Prop :=
  ∀ s, s ∈ evictNegotiateMap ↔ loc s = .negotiate

def Queued (evictSliceQueue : Tier → Nat → List Slot) (loc : Slot → Loc ι) :
    Prop :=
  ∀ tier flowId, (evictSliceQueue tier flowId).Nodup ∧
    ∀ s, s ∈ evictSliceQueue tier flowId ↔
      loc s = .queue tier ∧ s.flowId = flowId

/-- Every slice is where `loc` has it. -/
structure Placed (n : Node ι κ β) (loc : Slot → Loc ι) : Prop where
  owned : Owned n.threads loc
  negotiating : Negotiating n.evictNegotiateMap loc
  queued : Queued n.evictSliceQueue loc
  fits : ∀ s, Fits n s (loc s)

/-! ## A slice goes to another place -/

section

variable {threads : ι → Phase κ β} {loc : Slot → Loc ι} {t : ι}
  {q : Phase κ β} {s : Slot} {l : Loc ι}

theorem Owned.keep [DecidableEq ι] (h : Owned threads loc)
    (hq : q.owns = (threads t).owns) :
    Owned (Function.update threads t q) loc := by
  intro u o s'
  by_cases hu : u = t
  · rw [hu, Function.update_self, hq]
    exact h t o s'
  · rw [Function.update_of_ne hu]
    exact h u o s'

/-- Only thread `t` and slice `s` are concerned. -/
theorem Owned.move [DecidableEq ι] (h : Owned threads loc)
    (hs : ∀ u o, loc s = .thread u o → u = t)
    (hp : ∀ o s', (threads t).owns = some (o, s') → s' = s)
    (hl : ∀ u o, l = .thread u o ↔ u = t ∧ q.owns = some (o, s))
    (hq : ∀ o s', q.owns = some (o, s') → s' = s) :
    Owned (Function.update threads t q) (Function.update loc s l) := by
  intro u o s'
  by_cases hu : u = t
  · rw [hu, Function.update_self]
    by_cases hs' : s' = s
    · rw [hs', Function.update_self, hl t o]
      exact ⟨fun h' => ⟨rfl, h'⟩, fun h' => h'.2⟩
    · rw [Function.update_of_ne hs', ← h t o s']
      exact ⟨fun h' => absurd (hq o s' h') hs',
        fun h' => absurd (hp o s' h') hs'⟩
  · rw [Function.update_of_ne hu]
    by_cases hs' : s' = s
    · rw [hs', Function.update_self, hl u o, h u o s]
      exact ⟨fun h' => absurd (hs u o h') hu, fun h' => absurd h'.1 hu⟩
    · rw [Function.update_of_ne hs']
      exact h u o s'

theorem Owned.take [DecidableEq ι] {o : Own} (h : Owned threads loc)
    (hp : (threads t).owns = none) (hs : ∀ u o', loc s ≠ .thread u o')
    (hq : q.owns = some (o, s)) :
    Owned (Function.update threads t q)
      (Function.update loc s (.thread t o)) := by
  refine h.move (fun u o' h' => absurd h' (hs u o')) ?_ ?_ ?_
  · rw [hp]
    exact nofun
  · intro u o'
    rw [hq]
    constructor
    · rintro ⟨⟩
      exact ⟨rfl, rfl⟩
    · rintro ⟨rfl, ⟨⟩⟩
      rfl
  · rw [hq]
    rintro o' s' ⟨⟩
    rfl

theorem Owned.pass [DecidableEq ι] {o o' : Own} (h : Owned threads loc)
    (hp : (threads t).owns = some (o, s)) (hq : q.owns = some (o', s)) :
    Owned (Function.update threads t q)
      (Function.update loc s (.thread t o')) := by
  refine h.move ?_ ?_ ?_ ?_
  · intro u x hx
    rw [(h t o s).mp hp] at hx
    cases hx
    rfl
  · rw [hp]
    rintro x s' ⟨⟩
    rfl
  · intro u x
    rw [hq]
    constructor
    · rintro ⟨⟩
      exact ⟨rfl, rfl⟩
    · rintro ⟨rfl, ⟨⟩⟩
      rfl
  · rw [hq]
    rintro x s' ⟨⟩
    rfl

theorem Owned.give [DecidableEq ι] {o : Own} (h : Owned threads loc)
    (hp : (threads t).owns = some (o, s)) (hq : q.owns = none)
    (hl : ∀ u o', l ≠ .thread u o') :
    Owned (Function.update threads t q) (Function.update loc s l) := by
  refine h.move ?_ ?_ ?_ ?_
  · intro u x hx
    rw [(h t o s).mp hp] at hx
    cases hx
    rfl
  · rw [hp]
    rintro x s' ⟨⟩
    rfl
  · intro u x
    rw [hq]
    exact ⟨fun h' => absurd h' (hl u x), fun h' => nomatch h'.2⟩
  · rw [hq]
    exact nofun

/-- The place of a slice that no thread has. -/
theorem Owned.place (h : Owned threads loc)
    (hs : ∀ u o, loc s ≠ .thread u o) (hl : ∀ u o, l ≠ .thread u o) :
    Owned threads (Function.update loc s l) := by
  intro u o s'
  by_cases hs' : s' = s
  · rw [hs', Function.update_self, h u o s]
    exact ⟨fun h' => absurd h' (hs u o), fun h' => absurd h' (hl u o)⟩
  · rw [Function.update_of_ne hs']
    exact h u o s'

variable {map : List Slot}

theorem Negotiating.keep (h : Negotiating map loc) (hs : loc s ≠ .negotiate)
    (hl : l ≠ .negotiate) : Negotiating map (Function.update loc s l) := by
  intro s'
  by_cases hs' : s' = s
  · rw [hs', Function.update_self, h s]
    exact ⟨fun h' => absurd h' hs, fun h' => absurd h' hl⟩
  · rw [Function.update_of_ne hs']
    exact h s'

theorem Negotiating.add (h : Negotiating map loc) :
    Negotiating (map ++ [s]) (Function.update loc s .negotiate) := by
  intro s'
  rw [List.mem_append, List.mem_singleton]
  by_cases hs' : s' = s
  · rw [hs', Function.update_self]
    exact ⟨fun _ => rfl, fun _ => .inr rfl⟩
  · rw [Function.update_of_ne hs', ← h s']
    exact ⟨fun h' => h'.resolve_right hs', .inl⟩

theorem Negotiating.remove (h : Negotiating map loc) (hl : l ≠ .negotiate) :
    Negotiating (map.filter fun s' => decide (s' ≠ s))
      (Function.update loc s l) := by
  intro s'
  rw [List.mem_filter, decide_eq_true_eq]
  by_cases hs' : s' = s
  · rw [hs', Function.update_self]
    exact ⟨fun h' => absurd rfl h'.2, fun h' => absurd h' hl⟩
  · rw [Function.update_of_ne hs', ← h s']
    exact ⟨fun h' => h'.1, fun h' => ⟨h', hs'⟩⟩

variable {queue : Tier → Nat → List Slot} {tier : Tier}

theorem Queued.keep (h : Queued queue loc) (hs : ∀ x, loc s ≠ .queue x)
    (hl : ∀ x, l ≠ .queue x) : Queued queue (Function.update loc s l) := by
  intro x f
  refine ⟨(h x f).1, fun s' => ?_⟩
  by_cases hs' : s' = s
  · rw [hs', Function.update_self, (h x f).2 s]
    exact ⟨fun h' => absurd h'.1 (hs x), fun h' => absurd h'.1 (hl x)⟩
  · rw [Function.update_of_ne hs']
    exact (h x f).2 s'

/-- The queue of one flow has other slices; the rest is as before. -/
theorem Queued.set {flowId : Nat} {new : List Slot} (h : Queued queue loc)
    (hnodup : new.Nodup) (hs : ∀ x, loc s = .queue x → x = tier ∧
      s.flowId = flowId) (hl : ∀ x, l = .queue x → x = tier)
    (hmem : ∀ s', s' ≠ s → (s' ∈ new ↔ s' ∈ queue tier flowId))
    (hself : s ∈ new ↔ l = .queue tier ∧ s.flowId = flowId)
    (hflow : ∀ x, l = .queue x → s.flowId = flowId) :
    Queued (Function.update queue tier
      (Function.update (queue tier) flowId new)) (Function.update loc s l) := by
  intro x f
  by_cases hx : x = tier ∧ f = flowId
  · obtain ⟨rfl, rfl⟩ := hx
    rw [Function.update_self, Function.update_self]
    refine ⟨hnodup, fun s' => ?_⟩
    by_cases hs' : s' = s
    · rw [hs', Function.update_self]
      exact hself
    · rw [Function.update_of_ne hs', hmem s' hs']
      exact (h x f).2 s'
  · have hq : Function.update queue tier
        (Function.update (queue tier) flowId new) x f = queue x f := by
      by_cases hx' : x = tier
      · rw [hx', Function.update_self,
          Function.update_of_ne fun hf => hx ⟨hx', hf⟩]
      · rw [Function.update_of_ne hx']
    rw [hq]
    refine ⟨(h x f).1, fun s' => ?_⟩
    by_cases hs' : s' = s
    · rw [hs', Function.update_self, (h x f).2 s]
      constructor
      · rintro ⟨h1, h2⟩
        obtain ⟨h3, h4⟩ := hs x h1
        exact absurd ⟨h3, h2.symm.trans h4⟩ hx
      · rintro ⟨h1, h2⟩
        exact absurd ⟨hl x h1, h2.symm.trans (hflow x h1)⟩ hx
    · rw [Function.update_of_ne hs']
      exact (h x f).2 s'

/-- The first slice of a queue is taken. -/
theorem Queued.pop {flowId : Nat} {rest : List Slot} (h : Queued queue loc)
    (hq : queue tier flowId = s :: rest) (hl : ∀ x, l ≠ .queue x) :
    Queued (Function.update queue tier
      (Function.update (queue tier) flowId rest))
      (Function.update loc s l) := by
  have hnodup : (s :: rest).Nodup := hq ▸ (h tier flowId).1
  have hs : loc s = .queue tier ∧ s.flowId = flowId :=
    ((h tier flowId).2 s).mp (hq ▸ List.mem_cons_self ..)
  refine h.set (List.nodup_cons.mp hnodup).2 ?_ (fun x h' => absurd h' (hl x))
    ?_ ?_ (fun x h' => absurd h' (hl x))
  · intro x hx
    rw [hs.1] at hx
    cases hx
    exact ⟨rfl, hs.2⟩
  · intro s' hs'
    rw [hq, List.mem_cons]
    exact ⟨.inr, fun h' => h'.resolve_left hs'⟩
  · exact ⟨fun h' => absurd h' (List.nodup_cons.mp hnodup).1,
      fun h' => absurd h'.1 (hl tier)⟩

/-- A slice is put before or behind the others. -/
theorem Queued.push {new : List Slot} (h : Queued queue loc)
    (hs : ∀ x, loc s ≠ .queue x)
    (hnew : new = s :: queue tier s.flowId ∨
      new = queue tier s.flowId ++ [s]) :
    Queued (Function.update queue tier
      (Function.update (queue tier) s.flowId new))
      (Function.update loc s (.queue tier)) := by
  have hnot : s ∉ queue tier s.flowId := fun h' =>
    hs tier (((h tier s.flowId).2 s).mp h').1
  have hnodup := (h tier s.flowId).1
  have hmem (s') : s' ∈ new ↔ s' = s ∨ s' ∈ queue tier s.flowId := by
    rcases hnew with rfl | rfl
    · exact List.mem_cons
    · rw [List.mem_append, List.mem_singleton]
      exact Or.comm
  refine h.set ?_ (fun x h' => absurd h' (hs x)) ?_ ?_ ?_ (fun _ _ => rfl)
  · rcases hnew with rfl | rfl
    · exact List.nodup_cons.mpr ⟨hnot, hnodup⟩
    · exact List.nodup_append.mpr ⟨hnodup, List.nodup_singleton s,
        fun a ha b hb h' =>
          hnot ((h'.trans (List.mem_singleton.mp hb)) ▸ ha)⟩
  · rintro x ⟨⟩
    rfl
  · intro s' hs'
    rw [hmem]
    exact ⟨fun h' => h'.resolve_left hs', .inr⟩
  · rw [hmem]
    exact ⟨fun _ => ⟨rfl, rfl⟩, fun _ => .inl rfl⟩

end

/-! ## Parts of a step -/

variable [DecidableEq ι] {n n' : Node ι κ β} {loc : Slot → Loc ι} {t : ι}
  {s : Slot} {l : Loc ι}

section

omit [DecidableEq ι]

@[simp] theorem setRef_records (r : SliceRef κ) :
    (n.setRef s r).records = n.records := rfl

@[simp] theorem setContent_records (tier : Tier) (b : β) :
    (n.setContent tier s b).records = n.records := rfl

@[simp] theorem setRef_self (r : SliceRef κ) :
    (n.setRef s r).refs s = some r := Function.update_self ..

theorem setRef_of_ne (r : SliceRef κ) {s' : Slot} (h : s' ≠ s) :
    (n.setRef s r).refs s' = n.refs s' := Function.update_of_ne h ..

@[simp] theorem setRecord_self (tier : Tier) (m : SliceMeta κ) :
    (n.setRecord tier s m).records tier s = some m := by
  show Function.update n.records tier
    (Function.update (n.records tier) s (some m)) tier s = some m
  rw [Function.update_self, Function.update_self]

@[simp] theorem setContent_self (tier : Tier) (b : β) :
    (n.setContent tier s b).contents tier s = some b := by
  show Function.update n.contents tier
    (Function.update (n.contents tier) s (some b)) tier s = some b
  rw [Function.update_self, Function.update_self]

theorem setRecord_of_tier (tier x : Tier) (m : SliceMeta κ)
    (h : x ≠ tier) : (n.setRecord tier s m).records x = n.records x :=
  Function.update_of_ne h ..

theorem setRecord_of_ne (tier : Tier) (m : SliceMeta κ) {x : Tier} {s' : Slot}
    (h : s' ≠ s) : (n.setRecord tier s m).records x s' = n.records x s' := by
  by_cases hx : x = tier
  · show Function.update n.records tier
      (Function.update (n.records tier) s (some m)) x s' = n.records x s'
    rw [hx, Function.update_self, Function.update_of_ne h]
  · rw [setRecord_of_tier tier x m hx]

theorem getMeta_eq_some {tier : Tier} {m : SliceMeta κ}
    (h : n.getMeta tier s = some m) : n.records tier s = some m := by
  simp only [Node.getMeta] at h
  split at h
  · exact nomatch h
  · exact h

theorem aquire_eq_some {key : κ} {r : SliceRef κ}
    (h : n.aquire key = some (s, r)) :
    ∃ r₀, n.index key = some s ∧ n.refs s = some r₀ ∧ r₀.slice ≠ none ∧
      r₀.valid = true ∧ r = { r₀ with ref := r₀.ref + 1 } := by
  simp only [Node.aquire] at h
  split at h
  · exact nomatch h
  next s' hindex =>
    split at h
    · exact nomatch h
    next r₀ hr =>
      split at h
      next hv =>
        cases h
        exact ⟨r₀, hindex, hr, hv.1, hv.2, rfl⟩
      · exact nomatch h

/-- Nothing has changed but for slice `s`. -/
structure Frame (n n' : Node ι κ β) (s : Slot) : Prop where
  refs : ∀ s', s' ≠ s → n'.refs s' = n.refs s'
  records : ∀ tier s', s' ≠ s → n'.records tier s' = n.records tier s'
  used : ∀ s', s' ≠ s → s' ∈ n.used → s' ∈ n'.used

theorem Frame.same (hrefs : n'.refs = n.refs) (hrecords : n'.records = n.records)
    (hused : n'.used = n.used) : Frame n n' s :=
  ⟨fun _ _ => hrefs ▸ rfl, fun _ _ _ => hrecords ▸ rfl,
    fun _ _ => hused ▸ id⟩

theorem Frame.setRef {r : SliceRef κ} (hrefs : n'.refs = (n.setRef s r).refs)
    (hrecords : n'.records = n.records) (hused : n'.used = n.used) :
    Frame n n' s :=
  ⟨fun _ h => hrefs ▸ setRef_of_ne r h, fun _ _ _ => hrecords ▸ rfl,
    fun _ _ => hused ▸ id⟩

theorem Frame.setRecord {tier : Tier} {m : SliceMeta κ}
    (hrefs : n'.refs = n.refs)
    (hrecords : n'.records = (n.setRecord tier s m).records)
    (hused : n'.used = n.used) : Frame n n' s :=
  ⟨fun _ _ => hrefs ▸ rfl,
    fun _ _ h => hrecords ▸ setRecord_of_ne tier m h,
    fun _ _ => hused ▸ id⟩

/-- The references and records of a slice decide whether it fits. -/
theorem Fits.congr (h : Fits n s l) (hrefs : n'.refs s = n.refs s)
    (hrecords : ∀ tier, n'.records tier s = n.records tier s)
    (hused : s ∈ n.used → s ∈ n'.used) : Fits n' s l where
  slice := hrefs ▸ h.slice
  waiting := hrefs ▸ h.waiting
  memory := hrecords .memory ▸ h.memory
  disk := hrecords .disk ▸ h.disk
  marked := hrecords .disk ▸ h.marked
  used := fun h' => h.used fun h'' => h' (hused h'')

/-- The reference is replaced by one with the same slice and callback. -/
theorem Fits.setRef {r r' : SliceRef κ} (h : Fits n s l)
    (hr : n.refs s = some r) (hslice : r'.slice = r.slice)
    (hcall : r'.setSliceCallback = r.setSliceCallback)
    (hrefs : n'.refs = (n.setRef s r').refs) (hrecords : n'.records = n.records)
    (hused : n'.used = n.used) : Fits n' s l where
  slice := by
    rw [hrefs, setRef_self, ← h.slice, hr]
    exact congrArg some hslice
  waiting := by
    rw [hrefs, setRef_self, ← h.waiting, hr]
    exact congrArg (Option.map Callback.tier) hcall
  memory := hrecords ▸ h.memory
  disk := hrecords ▸ h.disk
  marked := hrecords ▸ h.marked
  used := hused ▸ h.used

theorem Fits.slice_of {r : SliceRef κ} (h : Fits n s l)
    (hr : n.refs s = some r) : l.stage.slice = some r.slice := by
  rw [← h.slice, hr]
  rfl

theorem Fits.no_callback {r : SliceRef κ} (h : Fits n s l)
    (hl : l.waiting = none) (hr : n.refs s = some r) :
    r.setSliceCallback = none := by
  have hw := h.waiting
  rw [hl, hr] at hw
  exact Option.map_eq_none_iff.mp hw

theorem Fits.callback {r : SliceRef κ} {c : Callback κ} (h : Fits n s l)
    (hr : n.refs s = some r) (hc : r.setSliceCallback = some c) :
    l = .waits c.tier := by
  have hw := h.waiting
  rw [hr, show (some r).bind SliceRef.setSliceCallback = some c from hc] at hw
  cases l with
  | waits tier => exact congrArg Loc.waits (Option.some.inj hw).symm
  | _ => exact nomatch hw

/-- A slice leaves its tier. -/
theorem Fits.leave {c : Callback κ} {r : SliceRef κ} (h : Fits n s l)
    (hl : l.stage = (Own.leave c.tier).stage) (hr : n'.refs s = some r)
    (hslice : r.slice = c.newSlice) (hcall : r.setSliceCallback = none)
    (hrecords : n'.records = n.records) (hused : n'.used = n.used)
    (hnew : l ≠ .absent) (t : ι) :
    Fits n' s (.thread t (.call c.tier)) where
  slice := by
    rw [hr]
    cases c with
    | toDisk => exact congrArg some hslice
    | toUnderFs key => exact congrArg some hslice
  waiting := by
    rw [hr]
    exact congrArg (Option.map Callback.tier) hcall
  memory := by
    rw [hrecords, h.memory, hl]
    cases c
    all_goals rfl
  disk := by
    rw [hrecords, h.disk, hl]
    cases c
    all_goals rfl
  marked := by
    rw [hrecords]
    intro hm
    cases c with
    | toDisk => exact nomatch hm
    | toUnderFs key => exact h.marked (hl ▸ rfl)
  used := fun h' => absurd (h.used (hused ▸ h')) hnew

/-- The callback waits for the readers. -/
theorem Fits.wait {c : Callback κ} {r : SliceRef κ} (h : Fits n s l)
    (hl : l.stage = (Own.leave c.tier).stage) (hr : n.refs s = some r)
    (hr' : n'.refs s = some { r with setSliceCallback := some c })
    (hrecords : n'.records = n.records) (hused : n'.used = n.used)
    (hnew : l ≠ .absent) : Fits n' s (.waits c.tier : Loc ι) := by
  have hstage : (Loc.waits c.tier : Loc ι).stage = l.stage := by
    rw [hl]
    cases c
    all_goals rfl
  refine ⟨?_, ?_, ?_, ?_, ?_, fun h' => absurd (h.used (hused ▸ h')) hnew⟩
  · rw [hr', hstage, ← h.slice, hr]
    rfl
  · rw [hr']
    rfl
  · rw [hrecords, hstage]
    exact h.memory
  · rw [hrecords, hstage]
    exact h.disk
  · rw [hrecords, hstage]
    exact h.marked

/-- A record is marked. -/
theorem Fits.mark {tier : Tier} {m : SliceMeta κ} (h : Fits n s l)
    (hm : n.records tier s = some m)
    (hrefs : n'.refs = n.refs)
    (hrecords : n'.records =
      (n.setRecord tier s { m with hasEvict := true }).records)
    (hused : n'.used = n.used) : Fits n' s l := by
  have hsome (x) : (n'.records x s).isSome = (n.records x s).isSome := by
    rw [hrecords]
    by_cases hx : x = tier
    · rw [hx, setRecord_self, hm]
      rfl
    · rw [setRecord_of_tier tier _ _ hx]
  refine ⟨hrefs ▸ h.slice, hrefs ▸ h.waiting, (hsome _).trans h.memory,
    (hsome _).trans h.disk, fun hl m' hm' => ?_, hused ▸ h.used⟩
  rw [hrecords] at hm'
  by_cases hx : Tier.disk = tier
  · subst hx
    rw [setRecord_self] at hm'
    cases hm'
    rfl
  · rw [setRecord_of_tier tier _ _ hx] at hm'
    exact h.marked hl m' hm'

theorem Fits.used_of (h : Fits n s l) (hl : l ≠ .absent) : s ∈ n.used :=
  by_contra fun h' => hl (h.used h')

/-- The stage and the callback are all that counts of the place. -/
theorem Fits.place (h : Fits n s l) (hnew : l ≠ .absent) {l' : Loc ι}
    (hstage : l'.stage = l.stage) (hwaiting : l'.waiting = l.waiting)
    (hrefs : n'.refs = n.refs) (hrecords : n'.records = n.records)
    (hused : n'.used = n.used) : Fits n' s l' where
  slice := by
    rw [hrefs, hstage]
    exact h.slice
  waiting := by
    rw [hrefs, hwaiting]
    exact h.waiting
  memory := by
    rw [hrecords, hstage]
    exact h.memory
  disk := by
    rw [hrecords, hstage]
    exact h.disk
  marked := by
    rw [hrecords, hstage]
    exact h.marked
  used := fun h' => absurd (h.used (hused ▸ h')) hnew

theorem Placed.move (h : Placed n loc)
    (howned : Owned n'.threads (Function.update loc s l))
    (hmap : Negotiating n'.evictNegotiateMap (Function.update loc s l))
    (hqueue : Queued n'.evictSliceQueue (Function.update loc s l))
    (hfits : Fits n' s l) (hframe : Frame n n' s) :
    Placed n' (Function.update loc s l) := by
  refine ⟨howned, hmap, hqueue, fun s' => ?_⟩
  by_cases hs' : s' = s
  · rw [hs', Function.update_self]
    exact hfits
  · rw [Function.update_of_ne hs']
    exact (h.fits s').congr (hframe.refs s' hs')
      (fun tier => hframe.records tier s' hs') (hframe.used s' hs')

end

@[simp] theorem goto_refs (q : Phase κ β) : (n.goto t q).refs = n.refs := rfl

@[simp] theorem goto_records (q : Phase κ β) :
    (n.goto t q).records = n.records := rfl

theorem goto_setRef_self (r : SliceRef κ) (q : Phase κ β) :
    ((n.setRef s r).goto t q).refs s = some r := setRef_self r

/-- A thread goes on, and the references and records are as before. -/
theorem Placed.goes {q : Phase κ β} (h : Placed n loc)
    (hthreads : n'.threads = Function.update n.threads t q)
    (hq : q.owns = (n.threads t).owns)
    (hmap : n'.evictNegotiateMap = n.evictNegotiateMap)
    (hqueue : n'.evictSliceQueue = n.evictSliceQueue)
    (hrefs : n'.refs = n.refs) (hrecords : n'.records = n.records)
    (hused : n'.used = n.used) : Placed n' loc where
  owned := hthreads ▸ h.owned.keep hq
  negotiating := hmap ▸ h.negotiating
  queued := hqueue ▸ h.queued
  fits s := (h.fits s).congr (hrefs ▸ rfl) (fun _ => hrecords ▸ rfl)
    (hused ▸ id)

/-- A thread goes on and replaces a reference, but not its slice. -/
theorem Placed.setRef {q : Phase κ β} {r r' : SliceRef κ} (h : Placed n loc)
    (hq : q.owns = (n.threads t).owns) (hr : n.refs s = some r)
    (hslice : r'.slice = r.slice)
    (hcall : r'.setSliceCallback = r.setSliceCallback) :
    Placed ((n.setRef s r').goto t q) loc where
  owned := h.owned.keep hq
  negotiating := h.negotiating
  queued := h.queued
  fits s' := by
    by_cases hs' : s' = s
    · rw [hs']
      exact (h.fits s).setRef hr hslice hcall rfl rfl rfl
    · exact (h.fits s').congr (setRef_of_ne r' hs') (fun _ => rfl) id

omit [DecidableEq ι] in
/-- What a thread has is where the thread has it. -/
theorem Placed.at {p : Phase κ β} {o : Own} (h : Placed n loc)
    (hp : n.threads t = p) (ho : p.owns = some (o, s)) :
    loc s = .thread t o :=
  (h.owned t o s).mp (hp ▸ ho)

/-- A thread passes the slice that it has on to its next phase. -/
theorem Placed.pass {p q : Phase κ β} {o o' : Own} (h : Placed n loc)
    (hp : n.threads t = p) (ho : p.owns = some (o, s))
    (hthreads : n'.threads = Function.update n.threads t q)
    (hq : q.owns = some (o', s))
    (hmap : n'.evictNegotiateMap = n.evictNegotiateMap)
    (hqueue : n'.evictSliceQueue = n.evictSliceQueue)
    (hfits : Fits n' s (.thread t o')) (hframe : Frame n n' s) :
    Placed n' (Function.update loc s (.thread t o')) := by
  have hat : loc s = .thread t o := h.at hp ho
  refine h.move ?_ ?_ ?_ hfits hframe
  · rw [hthreads]
    exact h.owned.pass (hp ▸ ho) hq
  · rw [hmap]
    refine h.negotiating.keep ?_ nofun
    rw [hat]
    exact nofun
  · rw [hqueue]
    refine h.queued.keep (fun x => ?_) nofun
    rw [hat]
    exact nofun

/-- A thread lets go of the slice that it has. -/
theorem Placed.give {p q : Phase κ β} {o : Own} (h : Placed n loc)
    (hp : n.threads t = p) (ho : p.owns = some (o, s))
    (hthreads : n'.threads = Function.update n.threads t q)
    (hq : q.owns = none)
    (hl : l = .lost ∨ l = .gone ∨ ∃ tier, l = .waits tier)
    (hmap : n'.evictNegotiateMap = n.evictNegotiateMap)
    (hqueue : n'.evictSliceQueue = n.evictSliceQueue)
    (hfits : Fits n' s l) (hframe : Frame n n' s) :
    Placed n' (Function.update loc s l) := by
  have hat : loc s = .thread t o := h.at hp ho
  refine h.move ?_ ?_ ?_ hfits hframe
  · rw [hthreads]
    refine h.owned.give (hp ▸ ho) hq fun u o' => ?_
    rcases hl with rfl | rfl | ⟨tier, rfl⟩
    all_goals exact nofun
  · rw [hmap]
    refine h.negotiating.keep ?_ ?_
    · rw [hat]
      exact nofun
    · rcases hl with rfl | rfl | ⟨tier, rfl⟩
      all_goals exact nofun
  · rw [hqueue]
    refine h.queued.keep (fun x => ?_) fun x => ?_
    · rw [hat]
      exact nofun
    · rcases hl with rfl | rfl | ⟨tier, rfl⟩
      all_goals exact nofun

/-- A thread puts the slice that it has into a queue. -/
theorem Placed.push {p q : Phase κ β} {o : Own} {tier : Tier}
    {new : List Slot} (h : Placed n loc)
    (hp : n.threads t = p) (ho : p.owns = some (o, s))
    (hstage : o.stage = (Loc.queue tier : Loc ι).stage)
    (hq : q.owns = none)
    (hnew : new = s :: n.evictSliceQueue tier s.flowId ∨
      new = n.evictSliceQueue tier s.flowId ++ [s])
    (hthreads : n'.threads = Function.update n.threads t q)
    (hmap : n'.evictNegotiateMap = n.evictNegotiateMap)
    (hqueue : n'.evictSliceQueue =
      (n.setQueue tier s.flowId new).evictSliceQueue)
    (hrefs : n'.refs = n.refs) (hrecords : n'.records = n.records)
    (hused : n'.used = n.used) :
    Placed n' (Function.update loc s (.queue tier)) := by
  have hat : loc s = .thread t o := h.at hp ho
  have hfits : Fits n s (.thread t o) := hat ▸ h.fits s
  refine h.move ?_ ?_ ?_ ?_ (.same hrefs hrecords hused)
  · rw [hthreads]
    exact h.owned.give (hp ▸ ho) hq nofun
  · rw [hmap]
    refine h.negotiating.keep ?_ nofun
    rw [hat]
    exact nofun
  · rw [hqueue]
    refine h.queued.push (fun x => ?_) hnew
    rw [hat]
    exact nofun
  · exact hfits.place nofun hstage.symm rfl hrefs hrecords hused

variable [DecidableEq κ] {L : Layout} {isMaster : Bool} {e : Event ι κ β}

omit [DecidableEq ι] [DecidableEq κ] in
theorem afterEvict_owns (tier : Tier) (j : Job κ β) :
    (afterEvict tier s j).owns = none := by
  cases j with
  | background glob => rfl
  | front p =>
      simp only [afterEvict]
      split
      · rfl
      · rfl

/-- **PLACES**: every step keeps every slice in one place. -/
theorem Placed.trans (h : Placed n loc) (ht : Trans L isMaster n e n') :
    ∃ loc', Placed n' loc' := by
  cases ht with
  | putCall t p hp hnew =>
      have hl : loc p.slot = .absent := (h.fits p.slot).used hnew
      have hfits : Fits n p.slot .absent := hl ▸ h.fits p.slot
      refine ⟨_, h.move (s := p.slot) (l := .thread t .write) ?_ ?_ ?_ ?_ ?_⟩
      case refine_1 =>
        refine h.owned.take (by rw [hp]; rfl) (fun u o => ?_) rfl
        rw [hl]
        exact nofun
      case refine_2 =>
        refine h.negotiating.keep ?_ nofun
        rw [hl]
        exact nofun
      case refine_3 =>
        refine h.queued.keep (fun x => ?_) nofun
        rw [hl]
        exact nofun
      case refine_4 =>
        exact ⟨hfits.slice, hfits.waiting, hfits.memory, hfits.disk,
          nofun, fun h' => absurd (List.mem_append_right _
            (List.mem_singleton_self _)) h'⟩
      case refine_5 =>
        exact ⟨fun _ _ => rfl, fun _ _ _ => rfl,
          fun _ _ => List.mem_append_left _⟩
  | missed t e hp he => exact ⟨loc, h⟩
  | got t key s r hp hr =>
      obtain ⟨r₀, -, hr₀, -, -, rfl⟩ := aquire_eq_some hr
      exact ⟨loc, h.setRef (by rw [hp]; rfl) hr₀ rfl rfl⟩
  | deleteCall t key s r hp hr =>
      obtain ⟨r₀, -, hr₀, -, -, rfl⟩ := aquire_eq_some hr
      exact ⟨loc, h.setRef (by rw [hp]; rfl) hr₀ rfl rfl⟩
  | started t tier f glob hp =>
      exact ⟨loc, h.goes rfl (by rw [hp]; rfl) rfl rfl rfl rfl rfl⟩
  | moves t e q he hm =>
      exact ⟨loc, h.goes rfl hm.owns rfl rfl rfl rfl rfl⟩
  | wrote t p hp =>
      have hfits : Fits n p.slot (.thread t .write) :=
        h.at hp rfl ▸ h.fits p.slot
      refine ⟨_, h.pass hp rfl rfl rfl rfl rfl ?_ ?_⟩
      · refine ⟨?_, ?_, ?_, ?_, nofun, fun h' => absurd ?_ h'⟩
        · rw [goto_refs, setRef_self]
          rfl
        · rw [goto_refs, setRef_self]
          rfl
        · rw [goto_records, setRef_records, setContent_records,
            setRecord_self]
          rfl
        · rw [goto_records, setRef_records, setContent_records,
            setRecord_of_tier .memory .disk _ nofun]
          exact hfits.disk
        · exact hfits.used_of nofun
      · exact ⟨fun _ h' => setRef_of_ne _ h',
          fun _ _ h' => setRecord_of_ne _ _ h',
          fun _ _ => id⟩
  | negotiating t p q hp hq =>
      have hat : loc p.slot = .thread t .put := h.at hp rfl
      have hfits : Fits n p.slot (.thread t .put) := hat ▸ h.fits p.slot
      refine ⟨_, h.move (l := .negotiate) ?_
        (h.negotiating.add (s := p.slot)) ?_ ?_
        (.same rfl rfl rfl)⟩
      case refine_1 =>
        refine h.owned.give (o := .put) (by rw [hp]; rfl) ?_ nofun
        rcases hq with rfl | rfl
        all_goals rfl
      case refine_2 =>
        refine h.queued.keep (fun x => ?_) nofun
        rw [hat]
        exact nofun
      case refine_3 =>
        exact hfits.place nofun rfl rfl rfl rfl rfl
  | popped t tier f s rest q hp _ _ hqueue hq =>
      have hat := ((h.queued tier f).2 s).mp (hqueue ▸ List.mem_cons_self ..)
      have hfits : Fits n s (.queue tier) := hat.1 ▸ h.fits s
      refine ⟨_, h.move (s := s) (l := .thread t (.evict tier)) ?_ ?_ ?_ ?_
        (.same rfl rfl rfl)⟩
      case refine_1 =>
        refine h.owned.take hp (fun u o => ?_) hq
        rw [hat.1]
        exact nofun
      case refine_2 =>
        refine h.negotiating.keep ?_ nofun
        rw [hat.1]
        exact nofun
      case refine_3 => exact h.queued.pop hqueue nofun
      case refine_4 =>
        refine hfits.place nofun ?_ rfl rfl rfl rfl
        cases tier
        all_goals rfl
  | dropped t f s rest r glob hp hqueue hr hslice =>
      -- a slice in the queue is on disk
      have hat := ((h.queued .disk f).2 s).mp (hqueue ▸ List.mem_cons_self ..)
      have hs := (h.fits s).slice_of hr
      rw [hat.1, hslice] at hs
      exact nomatch hs
  | locked t tier j s r hp hr =>
      refine ⟨loc, h.setRef ?_ hr rfl rfl⟩
      rw [hp]
      cases tier
      all_goals rfl
  | copied t j s r m b hp hr hslice hm hb =>
      have hfits : Fits n s (.thread t (.evict .memory)) :=
        h.at hp rfl ▸ h.fits s
      refine ⟨_, h.pass hp rfl rfl rfl rfl rfl ?_ ?_⟩
      · refine ⟨hfits.slice, hfits.waiting, ?_, ?_, nofun,
          fun h' => absurd (hfits.used_of nofun) h'⟩
        · rw [goto_records, setRecord_of_tier .disk .memory _ nofun]
          exact hfits.memory
        · rw [goto_records, setRecord_self]
          rfl
      · exact .setRecord rfl rfl rfl
  | flushed t j s r hp hr hvalid hmaster =>
      exact ⟨loc, h.goes rfl (by rw [hp]; rfl) rfl rfl rfl rfl rfl⟩
  | passed t j s r hp hr hnot =>
      exact ⟨loc, h.goes rfl (by rw [hp]; rfl) rfl rfl rfl rfl rfl⟩
  | marked t j s m hp hm =>
      have hfits : Fits n s (.thread t (.evict .disk)) :=
        h.at hp rfl ▸ h.fits s
      refine ⟨_, h.pass hp rfl rfl rfl rfl rfl ?_ ?_⟩
      · refine ⟨hfits.slice, hfits.waiting, ?_, ?_, fun _ m' hm' => ?_,
          fun h' => absurd (hfits.used_of nofun) h'⟩
        · rw [goto_records, setRecord_of_tier .disk .memory _ nofun]
          exact hfits.memory
        · rw [goto_records, setRecord_self]
          rfl
        · rw [goto_records, setRecord_self] at hm'
          cases hm'
          rfl
      · exact .setRecord rfl rfl rfl
  | markFailed t e j s he hp =>
      exact ⟨loc, h.goes rfl (by rw [hp]; rfl) rfl rfl rfl rfl rfl⟩
  | replaced t c j s r hp hr href =>
      have hfits : Fits n s (.thread t (.leave c.tier)) :=
        h.at hp rfl ▸ h.fits s
      refine ⟨_, h.pass hp rfl rfl rfl rfl rfl ?_ (.setRef rfl rfl rfl)⟩
      exact hfits.leave (r := { r with slice := c.newSlice }) rfl
        (goto_setRef_self _ _) rfl (hfits.no_callback (r := r) rfl hr) rfl rfl
        nofun t
  | deferred t c j s r hp hr href =>
      have hfits : Fits n s (.thread t (.leave c.tier)) :=
        h.at hp rfl ▸ h.fits s
      refine ⟨_, h.give hp rfl rfl rfl (.inr (.inr ⟨c.tier, rfl⟩)) rfl rfl ?_
        (.setRef rfl rfl rfl)⟩
      exact hfits.wait rfl hr (setRef_self _) rfl rfl nofun
  | unlocked t tier j s ok r hp hr =>
      refine ⟨loc, h.setRef ?_ hr rfl rfl⟩
      rw [hp]
      cases ok with
      | true => exact afterEvict_owns tier j
      | false => rfl
  | requeued t tier glob s hp =>
      refine ⟨_, h.push hp rfl ?_ rfl (.inl rfl) rfl rfl rfl rfl rfl rfl⟩
      cases tier
      all_goals rfl
  | putRequeued t tier p s hp =>
      refine ⟨_, h.push hp rfl ?_ rfl (.inl rfl) rfl rfl rfl rfl rfl rfl⟩
      cases tier
      all_goals rfl
  | cursor t c r s q hp hq =>
      refine ⟨loc, h.goes rfl ?_ rfl rfl rfl rfl rfl⟩
      rw [hp]
      rcases hq with rfl | rfl
      all_goals rfl
  | truncated t c r s index hp =>
      exact ⟨loc, h.goes rfl (by rw [hp]; rfl) rfl rfl rfl rfl rfl⟩
  | enqueued t r s hp =>
      exact ⟨_, h.push hp rfl rfl rfl (.inr rfl) rfl rfl rfl rfl rfl rfl⟩
  | ended t e key r s he hp =>
      have ho : (n.threads t).owns = some (.call .disk, s) := by
        rcases hp with hp | ⟨i, hp⟩
        all_goals rw [hp]; rfl
      have hfits : Fits n s (.thread t (.call .disk)) :=
        h.at rfl ho ▸ h.fits s
      refine ⟨_, h.give rfl ho rfl rfl (.inr (.inl rfl)) rfl rfl ?_
        (.same rfl rfl rfl)⟩
      exact hfits.place nofun rfl rfl rfl rfl rfl
  | unindexed t key r s ref hp hr hvalid hindex =>
      have hfits : Fits n s (.thread t (.call .disk)) :=
        h.at hp rfl ▸ h.fits s
      refine ⟨_, h.give hp rfl rfl rfl (.inr (.inl rfl)) rfl rfl ?_
        (.same rfl rfl rfl)⟩
      exact hfits.place nofun rfl rfl rfl rfl rfl
  | deleted t key stamp s hp =>
      exact ⟨loc, h.goes rfl (by rw [hp]; rfl) rfl rfl rfl rfl rfl⟩
  | released t r s ref hp hr hkeep =>
      exact ⟨loc, h.setRef (by rw [hp]; rfl) hr rfl rfl⟩
  | switched t c r s ref hp hr hc hlast =>
      have hat : loc s = .waits c.tier := (h.fits s).callback hr hc
      have hfits : Fits n s (.waits c.tier) := hat ▸ h.fits s
      refine ⟨_, h.move (s := s) (l := .thread t (.call c.tier)) ?_ ?_ ?_ ?_
        (.setRef rfl rfl rfl)⟩
      case refine_1 =>
        refine h.owned.take (by rw [hp]; rfl) (fun u o => ?_) rfl
        rw [hat]
        exact nofun
      case refine_2 =>
        refine h.negotiating.keep ?_ nofun
        rw [hat]
        exact nofun
      case refine_3 =>
        refine h.queued.keep (fun x => ?_) nofun
        rw [hat]
        exact nofun
      case refine_4 =>
        refine hfits.leave (r := ⟨c.newSlice, none, 0, ref.opLock, ref.valid⟩)
          ?_ (goto_setRef_self _ _) rfl rfl rfl rfl nofun t
        cases c
        all_goals rfl
  | opLocked t key s stamp r hp hr =>
      exact ⟨loc, h.setRef (by rw [hp]; rfl) hr rfl rfl⟩
  | deleteMarked t key s stamp r tier m hp hr hslice hm =>
      refine ⟨loc, h.owned.keep (by rw [hp]; rfl), h.negotiating, h.queued,
        fun s' => ?_⟩
      by_cases hs' : s' = s
      · rw [hs']
        exact (h.fits s).mark (getMeta_eq_some hm) rfl rfl rfl
      · exact (h.fits s').congr rfl (fun _ => setRecord_of_ne _ _ hs') id
  | deletePassed t key s stamp r hp hr hslice =>
      exact ⟨loc, h.goes rfl (by rw [hp]; rfl) rfl rfl rfl rfl rfl⟩
  | deleteErased t key s stamp hp hindex =>
      exact ⟨loc, h.goes rfl (by rw [hp]; rfl) rfl rfl rfl rfl rfl⟩
  | deleteExpired t key s s' stamp hp hindex hne =>
      exact ⟨loc, h.goes rfl (by rw [hp]; rfl) rfl rfl rfl rfl rfl⟩
  | invalidated t key s stamp r hp hr =>
      exact ⟨loc, h.setRef (by rw [hp]; rfl) hr rfl rfl⟩
  | deleteUnlocked t key s stamp ok r hp hr =>
      exact ⟨loc, h.setRef (by rw [hp]; rfl) hr rfl rfl⟩
  | inserted t p hp =>
      exact ⟨loc, h.goes rfl (by rw [hp]; rfl) rfl rfl rfl rfl rfl⟩
  | putFailed t p hp =>
      rcases hp with hp | hp
      · have hfits : Fits n p.slot (.thread t .write) :=
          h.at hp rfl ▸ h.fits p.slot
        refine ⟨_, h.give hp rfl rfl rfl (.inl rfl) rfl rfl ?_
          (.same rfl rfl rfl)⟩
        exact hfits.place nofun rfl rfl rfl rfl rfl
      · exact ⟨loc, h.goes rfl (by rw [hp]; rfl) rfl rfl rfl rfl rfl⟩
  | negotiated s hs =>
      have hat : loc s = .negotiate := (h.negotiating s).mp hs
      have hfits : Fits n s .negotiate := hat ▸ h.fits s
      refine ⟨_, h.move (s := s) (l := .queue .memory)
        (h.owned.place ?_ nofun) (h.negotiating.remove nofun)
        (h.queued.push ?_ (.inr rfl))
        (hfits.place nofun rfl rfl rfl rfl rfl) (.same rfl rfl rfl)⟩
      · intro u o
        rw [hat]
        exact nofun
      · intro x
        rw [hat]
        exact nofun
  | elsewhere s =>
      exact ⟨loc, h.owned, h.negotiating, h.queued, fun s' =>
        (h.fits s').congr rfl (fun _ => rfl) id⟩

omit [DecidableEq κ] [DecidableEq ι] in
theorem placed_init : Placed (Node.init ι κ β) fun _ => .absent where
  owned := fun _ _ _ => ⟨nofun, nofun⟩
  negotiating := fun _ => ⟨nofun, nofun⟩
  queued := fun _ _ => ⟨List.nodup_nil, fun _ => ⟨nofun, nofun⟩⟩
  fits := fun _ => ⟨rfl, rfl, rfl, rfl, nofun, fun _ => rfl⟩

/-- **ONE PLACE**: in every run every slice is in one place. -/
theorem placed_run {es : List (Event ι κ β)}
    (hr : runFrom (step L isMaster) (Node.init ι κ β) es = some n) :
    ∃ loc, Placed n loc :=
  runFrom_invariant (I := fun n => ∃ loc, Placed n loc)
    (fun _ _ _ h hs => h.elim fun _ h => h.trans (trans_of_step hs))
    ⟨_, placed_init⟩ hr

end UbsIo.Wcache
