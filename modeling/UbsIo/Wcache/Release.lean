import UbsIo.Wcache.Restart

/-! # What the standby releases

    A master and a standby have a write cache of one flow each, with the same
    slices.  Only the master puts slices into UnderFs.  A task of the standby
    asks the master for the offset up to which it has truncated its disk tier,
    and leaves alone every slice that ends behind it; a slice before that offset
    has left the master's disk tier, so it has been put into UnderFs or was
    deleted (`Truncated`, `LetGo`).

    A `Put` that writes through takes the first slice of the disk queue without
    asking.  `FrontAllowed` is the condition that the standby's `Put`s find only
    slices there that the master has done with. -/

namespace UbsIo.Wcache

open UbsIo.Lib

variable {ι κ β : Type} [DecidableEq ι] [DecidableEq κ] {L : Layout}
  {isMaster : Bool} {n n' : Node ι κ β} {e : Event ι κ β}
  {loc : Slot → Loc ι}

/-! ## The references after a step -/

/-- What a step does to the reference of a slice. -/
inductive RefStep (n n' : Node ι κ β) (s : Slot) : Prop where
  | same (h : n'.refs s = n.refs s)
  | kept (r r' : SliceRef κ) (hr : n.refs s = some r)
      (hr' : n'.refs s = some r') (hslice : r'.slice = r.slice)
      (hcall : r'.setSliceCallback = r.setSliceCallback)
      (hvalid : r'.valid = r.valid ∨ r'.valid = false ∧
        ∃ t key stamp, n.threads t = .setState key s stamp)
  | wrote (t : ι) (p : PutArgs κ β) (hp : n.threads t = .write p)
      (hs : p.slot = s)
      (hr' : n'.refs s = some ⟨some .memory, none, 0, false, true⟩)
  | replaced (t : ι) (c : Callback κ) (j : Job κ β) (r : SliceRef κ)
      (hp : n.threads t = .setSlice c j s) (hr : n.refs s = some r)
      (hr' : n'.refs s = some { r with slice := c.newSlice })
  | deferred (t : ι) (c : Callback κ) (j : Job κ β) (r : SliceRef κ)
      (hp : n.threads t = .setSlice c j s) (hr : n.refs s = some r)
      (hr' : n'.refs s = some { r with setSliceCallback := some c })
  | switched (c : Callback κ) (r : SliceRef κ) (hr : n.refs s = some r)
      (hc : r.setSliceCallback = some c)
      (hr' : n'.refs s = some
        { r with ref := 0, slice := c.newSlice, setSliceCallback := none })

omit [DecidableEq ι] [DecidableEq κ] in
/-- A reference that is replaced keeps its slice and its callback. -/
theorem RefStep.of_setRef {s' : Slot} {r : SliceRef κ} (r' : SliceRef κ)
    (hr : n.refs s' = some r) (hrefs : n'.refs = (n.setRef s' r').refs)
    (hslice : r'.slice = r.slice)
    (hcall : r'.setSliceCallback = r.setSliceCallback)
    (hvalid : r'.valid = r.valid ∨ r'.valid = false ∧
      ∃ t key stamp, n.threads t = .setState key s' stamp) (s : Slot) :
    RefStep n n' s := by
  by_cases hs : s = s'
  · subst hs
    exact .kept r r' hr (by rw [hrefs]; exact setRef_self r') hslice hcall
      hvalid
  · exact .same (by rw [hrefs]; exact setRef_of_ne r' hs)

theorem Trans.refStep (h : Trans L isMaster n e n') (s : Slot) :
    RefStep n n' s := by
  cases h with
  | got t key s' r hp hr =>
      obtain ⟨r₀, -, hr₀, -, -, rfl⟩ := aquire_eq_some hr
      exact .of_setRef { r₀ with ref := r₀.ref + 1 } hr₀ (by rfl) rfl rfl
        (.inl rfl) s
  | deleteCall t key s' r hp hr =>
      obtain ⟨r₀, -, hr₀, -, -, rfl⟩ := aquire_eq_some hr
      exact .of_setRef { r₀ with ref := r₀.ref + 1 } hr₀ (by rfl) rfl rfl
        (.inl rfl) s
  | wrote t p hp =>
      by_cases hs : s = p.slot
      · subst hs
        exact .wrote t p hp rfl (setRef_self _)
      · exact .same (setRef_of_ne _ hs)
  | locked t tier j s' r hp hr =>
      exact .of_setRef { r with opLock := true } hr (by rfl) rfl rfl
        (.inl rfl) s
  | replaced t c j s' r hp hr href =>
      by_cases hs : s = s'
      · subst hs
        exact .replaced t c j r hp hr (setRef_self _)
      · exact .same (setRef_of_ne _ hs)
  | deferred t c j s' r hp hr href =>
      by_cases hs : s = s'
      · subst hs
        exact .deferred t c j r hp hr (setRef_self _)
      · exact .same (setRef_of_ne _ hs)
  | unlocked t tier j s' ok r hp hr =>
      exact .of_setRef { r with opLock := false } hr (by rfl) rfl rfl
        (.inl rfl) s
  | released t r s' ref hp hr hkeep =>
      exact .of_setRef { ref with ref := ref.ref - 1 } hr (by rfl) rfl rfl
        (.inl rfl) s
  | switched t c r s' ref hp hr hc hlast =>
      by_cases hs : s = s'
      · subst hs
        exact .switched c ref hr hc (setRef_self _)
      · exact .same (setRef_of_ne _ hs)
  | opLocked t key s' stamp r hp hr =>
      exact .of_setRef { r with opLock := true } hr (by rfl) rfl rfl
        (.inl rfl) s
  | invalidated t key s' stamp r hp hr =>
      exact .of_setRef { r with valid := false } hr (by rfl) rfl rfl
        (.inr ⟨rfl, t, key, stamp, hp⟩) s
  | deleteUnlocked t key s' stamp ok r hp hr =>
      exact .of_setRef { r with opLock := false } hr (by rfl) rfl rfl
        (.inl rfl) s
  | _ => exact .same rfl

omit [DecidableEq ι] [DecidableEq κ] in
/-- The slice of a reference that is to be written has none yet. -/
theorem Placed.unwritten (hl : Placed n loc) {t : ι} {p : PutArgs κ β}
    (hp : n.threads t = .write p) : n.refs p.slot = none := by
  have hat := hl.at hp (o := .write) rfl
  have hs := (hl.fits p.slot).slice
  rw [hat] at hs
  exact Option.map_eq_none_iff.mp hs

omit [DecidableEq ι] [DecidableEq κ] in
/-- A slice with a callback, or about to get one, is in its tier. -/
theorem Placed.slice_leaving (hl : Placed n loc) {s : Slot} {r : SliceRef κ}
    {c : Callback κ} (hr : n.refs s = some r)
    (h : r.setSliceCallback = some c ∨
      ∃ t j, n.threads t = .setSlice c j s) : r.slice = some c.tier := by
  have hs := (hl.fits s).slice_of hr
  rcases h with hc | ⟨t, j, hp⟩
  · rw [(hl.fits s).callback hr hc] at hs
    cases c
    all_goals exact (Option.some.inj hs).symm
  · rw [hl.at hp (o := .leave c.tier) rfl] at hs
    cases c
    all_goals exact (Option.some.inj hs).symm

/-! ## What has left the disk tier -/

/-- The reference of the slice has lost it. -/
def Gone (n : Node ι κ β) (s : Slot) : Prop :=
  ∃ r, n.refs s = some r ∧ r.slice = none

/-- What is gone stays gone. -/
theorem Gone.trans {s : Slot} (h : Gone n s) (hl : Placed n loc)
    (ht : Trans L isMaster n e n') : Gone n' s := by
  obtain ⟨r, hr, hslice⟩ := h
  cases ht.refStep s with
  | same heq => exact ⟨r, heq.trans hr, hslice⟩
  | kept r₀ r' hr₀ hr' hs =>
      rw [hr] at hr₀
      cases hr₀
      exact ⟨r', hr', hs.trans hslice⟩
  | wrote t p hp hs hr' =>
      subst hs
      rw [hl.unwritten hp] at hr
      cases hr
  | replaced t c j r₀ hp hr₀ hr' =>
      have hin := hl.slice_leaving hr₀ (.inr ⟨t, j, hp⟩)
      rw [hr] at hr₀
      cases hr₀
      rw [hslice] at hin
      cases hin
  | deferred t c j r₀ hp hr₀ hr' =>
      have hin := hl.slice_leaving hr₀ (.inr ⟨t, j, hp⟩)
      rw [hr] at hr₀
      cases hr₀
      rw [hslice] at hin
      cases hin
  | switched c r₀ hr₀ hc hr' =>
      have hin := hl.slice_leaving hr₀ (.inl hc)
      rw [hr] at hr₀
      cases hr₀
      rw [hslice] at hin
      cases hin

/-- `D` is what is known of every slice that is about to leave for UnderFs,
    waits for its readers, or has left. -/
structure LetGo (D : Slot → Prop) (n : Node ι κ β) : Prop where
  passed : ∀ t s, (n.threads t).passed = some s → D s
  callback : ∀ s r key, n.refs s = some r →
    r.setSliceCallback = some (.toUnderFs key) → D s
  gone : ∀ s, Gone n s → D s

/-- **RELEASE**: it is enough to know it of the slices that a step passes. -/
theorem LetGo.trans {D D' : Slot → Prop} (h : LetGo D n)
    (ht : Trans L isMaster n e n') (hD : ∀ s, D s → D' s)
    (hpass : ∀ t j s, n.threads t = .underFs j s → e = .go t →
      (s ∈ n'.flushed ∨ ∃ r, n.refs s = some r ∧
        (r.valid = false ∨ isMaster = false)) → D' s) : LetGo D' n' := by
  refine ⟨?_, ?_, ?_⟩
  · intro t s hs
    rcases ht.follows with heq | ⟨u, q, heq, hfol⟩
    · rw [heq] at hs
      exact hD s (h.passed t s hs)
    · rw [heq] at hs
      by_cases hu : t = u
      · subst hu
        rw [Function.update_self] at hs
        rcases hfol.passed with hq | hq | ⟨j, s', hp, he, hq, hwhy⟩
        · rw [hq] at hs
          cases hs
        · exact hD s (h.passed t s (hq ▸ hs))
        · rw [hq] at hs
          cases hs
          exact hpass t j s hp he hwhy
      · rw [Function.update_of_ne hu] at hs
        exact hD s (h.passed t s hs)
  · intro s r key hr hc
    cases ht.refStep s with
    | same heq =>
        rw [heq] at hr
        exact hD s (h.callback s r key hr hc)
    | kept r₀ r' hr₀ hr' _ hcall =>
        rw [hr'] at hr
        cases hr
        exact hD s (h.callback s r₀ key hr₀ (hcall ▸ hc))
    | wrote t p hp hs hr' =>
        rw [hr'] at hr
        cases hr
        cases hc
    | replaced t c j r₀ hp hr₀ hr' =>
        rw [hr'] at hr
        cases hr
        exact hD s (h.callback s r₀ key hr₀ hc)
    | deferred t c j r₀ hp hr₀ hr' =>
        rw [hr'] at hr
        cases hr
        cases hc
        refine hD s (h.passed t s ?_)
        rw [hp]
        rfl
    | switched c r₀ hr₀ hc₀ hr' =>
        rw [hr'] at hr
        cases hr
        cases hc
  · rintro s ⟨r, hr, hslice⟩
    cases ht.refStep s with
    | same heq =>
        rw [heq] at hr
        exact hD s (h.gone s ⟨r, hr, hslice⟩)
    | kept r₀ r' hr₀ hr' hs =>
        rw [hr'] at hr
        cases hr
        exact hD s (h.gone s ⟨r₀, hr₀, hs ▸ hslice⟩)
    | wrote t p hp hs hr' =>
        rw [hr'] at hr
        cases hr
        cases hslice
    | replaced t c j r₀ hp hr₀ hr' =>
        rw [hr'] at hr
        cases hr
        cases c with
        | toDisk => cases hslice
        | toUnderFs key =>
            refine hD s (h.passed t s ?_)
            rw [hp]
            rfl
    | deferred t c j r₀ hp hr₀ hr' =>
        rw [hr'] at hr
        cases hr
        exact hD s (h.gone s ⟨r₀, hr₀, hslice⟩)
    | switched c r₀ hr₀ hc₀ hr' =>
        rw [hr'] at hr
        cases hr
        cases c with
        | toDisk => cases hslice
        | toUnderFs key => exact hD s (h.callback s r₀ key hr₀ hc₀)

/-! ## The end of the disk tier -/

/-- What a step does to the evicted slices and the truncation of the disk
    tier. -/
inductive DiskTail (n n' : Node ι κ β) : Prop where
  | same (hevicted : n'.evictedSlices .disk = n.evictedSlices .disk)
      (hpre : n'.preTruncateSliceIndex .disk = n.preTruncateSliceIndex .disk)
      (htruncate : n'.truncateIndex .disk = n.truncateIndex .disk)
      (hthreads : ∀ t x, (n'.threads t).truncates = some x →
        (n.threads t).truncates = some x)
  | cursor (t : ι) (key : κ) (r : Ret κ β) (s : Slot) (a : Nat × List Nat)
      (hp : n.threads t = .cursor (.toUnderFs key) r s)
      (ha : a = advance (n.preTruncateSliceIndex .disk s.flowId)
        ((n.evictedSlices .disk s.flowId).orderedInsert (· ≤ ·)
          s.indexInFlow))
      (hevicted : n'.evictedSlices .disk =
        Function.update (n.evictedSlices .disk) s.flowId a.2)
      (hpre : n'.preTruncateSliceIndex .disk =
        Function.update (n.preTruncateSliceIndex .disk) s.flowId a.1)
      (htruncate : n'.truncateIndex .disk = n.truncateIndex .disk)
      (hthreads : ∀ t x, (n'.threads t).truncates = some x →
        (n.threads t).truncates = some x ∨ x = (s.flowId, a.1))
  | truncated (t : ι) (flowId index : Nat)
      (hp : (n.threads t).truncates = some (flowId, index))
      (hevicted : n'.evictedSlices .disk = n.evictedSlices .disk)
      (hpre : n'.preTruncateSliceIndex .disk = n.preTruncateSliceIndex .disk)
      (htruncate : n'.truncateIndex .disk = Function.update
        (n.truncateIndex .disk) flowId (max (n.truncateIndex .disk flowId)
          index))
      (hthreads : ∀ t x, (n'.threads t).truncates = some x →
        (n.threads t).truncates = some x)

omit [DecidableEq κ] in
/-- A thread that goes on does not truncate unless it says so. -/
theorem truncates_update {threads : ι → Phase κ β} {t : ι} {q : Phase κ β}
    (hq : q.truncates = none) (u : ι) (x : Nat × Nat)
    (h : (Function.update threads t q u).truncates = some x) :
    (threads u).truncates = some x := by
  by_cases hu : u = t
  · subst hu
    rw [Function.update_self, hq] at h
    cases h
  · rwa [Function.update_of_ne hu] at h

omit [DecidableEq ι] [DecidableEq κ] in
theorem truncates_of_evict {q : Phase κ β} {tier : Tier} {s : Slot}
    (h : q.owns = some (.evict tier, s)) : q.truncates = none := by
  cases q with
  | truncate c r s' index => cases h
  | _ => rfl

omit [DecidableEq ι] [DecidableEq κ] in
theorem truncates_afterEvict (tier : Tier) (s : Slot) (j : Job κ β) :
    (afterEvict tier s j).truncates = none := by
  cases j with
  | background glob => rfl
  | front p =>
      rw [afterEvict]
      split
      all_goals rfl

theorem Trans.diskTail (h : Trans L isMaster n e n') : DiskTail n n' := by
  cases h with
  | missed t e hp he => exact .same rfl rfl rfl fun _ _ h => h
  | negotiated s hs => exact .same rfl rfl rfl fun _ _ h => h
  | elsewhere s => exact .same rfl rfl rfl fun _ _ h => h
  | moves t e q he hm =>
      exact .same rfl rfl rfl (truncates_update hm.truncates)
  | negotiating t p q hp hq =>
      refine .same rfl rfl rfl (truncates_update ?_)
      rcases hq with rfl | rfl
      all_goals rfl
  | popped t tier f s rest q _ _ _ _ hq =>
      exact .same rfl rfl rfl (truncates_update (truncates_of_evict hq))
  | locked t tier j s r hp hr =>
      refine .same rfl rfl rfl (truncates_update ?_)
      cases tier
      all_goals rfl
  | unlocked t tier j s ok r hp hr =>
      refine .same rfl rfl rfl (truncates_update ?_)
      cases ok with
      | true => exact truncates_afterEvict tier s j
      | false => rfl
  | cursor t c r s q hp hq =>
      cases c with
      | toDisk =>
          refine .same rfl rfl rfl (truncates_update ?_)
          rcases hq with rfl | rfl
          all_goals rfl
      | toUnderFs key =>
          refine .cursor t key r s _ hp rfl ?_ ?_ rfl fun u x hx => ?_
          · show Function.update n.evictedSlices .disk _ .disk = _
            rw [Function.update_self]
            rfl
          · show Function.update n.preTruncateSliceIndex .disk _ .disk = _
            rw [Function.update_self]
            rfl
          · change (Function.update n.threads t q u).truncates = some x at hx
            by_cases hu : u = t
            · rw [hu, Function.update_self] at hx
              rcases hq with rfl | rfl
              · cases hx
              · exact .inr (Option.some.inj hx).symm
            · rw [Function.update_of_ne hu] at hx
              exact .inl hx
  | truncated t c r s index hp =>
      cases c with
      | toDisk => exact .same rfl rfl rfl (truncates_update rfl)
      | toUnderFs key =>
          refine .truncated t s.flowId index (by rw [hp]; rfl) rfl rfl ?_
            (truncates_update rfl)
          show Function.update n.truncateIndex .disk _ .disk = _
          rw [Function.update_self]
          rfl
  | _ => exact .same rfl rfl rfl (truncates_update rfl)

/-- What `advance` passes was there, and so was what it leaves. -/
theorem advance_spec :
    ∀ (l : List Nat) (index : Nat), index ≤ (advance index l).1 ∧
      (∀ i, i < (advance index l).1 → i < index ∨ i ∈ l) ∧
      ∀ i ∈ (advance index l).2, i ∈ l := by
  intro l
  induction l with
  | nil => exact fun index => ⟨Nat.le_refl _, fun i hi => .inl hi, nofun⟩
  | cons x l ih =>
      intro index
      rw [advance]
      split
      · rename_i hx
        obtain ⟨hle, hpass, hleft⟩ := ih (index + 1)
        refine ⟨by omega, fun i hi => ?_, fun i hi =>
          List.mem_cons_of_mem _ (hleft i hi)⟩
        rcases hpass i hi with hlt | hmem
        · rcases Nat.lt_succ_iff_lt_or_eq.mp hlt with hlt | rfl
          · exact .inl hlt
          · exact .inr (hx ▸ List.mem_cons_self ..)
        · exact .inr (List.mem_cons_of_mem _ hmem)
      · exact ⟨Nat.le_refl _, fun i hi => .inl hi, fun i hi => hi⟩

/-- The disk tier is truncated up to slices that are gone. -/
structure Truncated (n : Node ι κ β) : Prop where
  evicted : ∀ f, ∀ i ∈ n.evictedSlices .disk f, Gone n ⟨f, i⟩
  passed : ∀ f i, i < n.preTruncateSliceIndex .disk f → Gone n ⟨f, i⟩
  threads : ∀ t f i, (n.threads t).truncates = some (f, i) →
    i ≤ n.preTruncateSliceIndex .disk f
  truncated : ∀ f, n.truncateIndex .disk f ≤ n.preTruncateSliceIndex .disk f

theorem Truncated.trans (h : Truncated n) (hl : Placed n loc)
    (ht : Trans L isMaster n e n') : Truncated n' := by
  cases ht.diskTail with
  | same hevicted hpre htruncate hthreads =>
      refine ⟨?_, ?_, ?_, ?_⟩
      · intro f i hi
        rw [hevicted] at hi
        exact (h.evicted f i hi).trans hl ht
      · intro f i hi
        rw [hpre] at hi
        exact (h.passed f i hi).trans hl ht
      · intro t f i hi
        rw [hpre]
        exact h.threads t f i (hthreads t _ hi)
      · intro f
        rw [hpre, htruncate]
        exact h.truncated f
  | cursor t key r s a hp ha hevicted hpre htruncate hthreads =>
      -- the slice whose callback runs is gone
      have hself : Gone n s := by
        have hs := (hl.fits s).slice
        rw [hl.at hp (o := .call .disk) rfl] at hs
        exact Option.map_eq_some_iff.mp hs
      have hin : ∀ i ∈ (n.evictedSlices .disk s.flowId).orderedInsert (· ≤ ·)
          s.indexInFlow, Gone n ⟨s.flowId, i⟩ := by
        intro i hi
        rcases (List.mem_orderedInsert ..).mp hi with rfl | hi
        · exact hself
        · exact h.evicted s.flowId i hi
      obtain ⟨hle, hadv, hleft⟩ := advance_spec
        ((n.evictedSlices .disk s.flowId).orderedInsert (· ≤ ·)
          s.indexInFlow) (n.preTruncateSliceIndex .disk s.flowId)
      rw [← ha] at hle hadv hleft
      have hgrow : ∀ f, n.preTruncateSliceIndex .disk f ≤
          n'.preTruncateSliceIndex .disk f := by
        intro f
        rw [hpre]
        by_cases hf : f = s.flowId
        · rw [hf, Function.update_self]
          exact hle
        · rw [Function.update_of_ne hf]
      refine ⟨?_, ?_, ?_, ?_⟩
      · intro f i hi
        rw [hevicted] at hi
        by_cases hf : f = s.flowId
        · subst hf
          rw [Function.update_self] at hi
          exact (hin i (hleft i hi)).trans hl ht
        · rw [Function.update_of_ne hf] at hi
          exact (h.evicted f i hi).trans hl ht
      · intro f i hi
        rw [hpre] at hi
        by_cases hf : f = s.flowId
        · subst hf
          rw [Function.update_self] at hi
          rcases hadv i hi with hi | hi
          · exact (h.passed _ i hi).trans hl ht
          · exact (hin i hi).trans hl ht
        · rw [Function.update_of_ne hf] at hi
          exact (h.passed f i hi).trans hl ht
      · intro u f i hi
        rcases hthreads u _ hi with hi | heq
        · exact Nat.le_trans (h.threads u f i hi) (hgrow f)
        · cases heq
          rw [hpre, Function.update_self]
      · intro f
        rw [htruncate]
        exact Nat.le_trans (h.truncated f) (hgrow f)
  | truncated t flowId index hp hevicted hpre htruncate hthreads =>
      refine ⟨?_, ?_, ?_, ?_⟩
      · intro f i hi
        rw [hevicted] at hi
        exact (h.evicted f i hi).trans hl ht
      · intro f i hi
        rw [hpre] at hi
        exact (h.passed f i hi).trans hl ht
      · intro t f i hi
        rw [hpre]
        exact h.threads t f i (hthreads t _ hi)
      · intro f
        rw [hpre, htruncate]
        by_cases hf : f = flowId
        · subst hf
          rw [Function.update_self]
          exact Nat.max_le.mpr ⟨h.truncated f, h.threads t f index hp⟩
        · rw [Function.update_of_ne hf]
          exact h.truncated f

/-- The disk tier is only truncated further. -/
theorem Trans.truncateIndex_le (ht : Trans L isMaster n e n') (f : Nat) :
    n.truncateIndex .disk f ≤ n'.truncateIndex .disk f := by
  cases ht.diskTail with
  | same _ _ htruncate _ => rw [htruncate]
  | cursor _ _ _ _ _ _ _ _ _ htruncate _ => rw [htruncate]
  | truncated t flowId index _ _ _ htruncate _ =>
      rw [htruncate]
      by_cases hf : f = flowId
      · rw [hf, Function.update_self]
        exact Nat.le_max_left ..
      · rw [Function.update_of_ne hf]

/-! ## What the master has done with -/

/-- A `Delete` has made the slice invalid. -/
def Deleted (n : Node ι κ β) (s : Slot) : Prop :=
  ∃ r, n.refs s = some r ∧ r.valid = false

/-- The slice has been put into UnderFs, or need not be. -/
def Evicted (n : Node ι κ β) (s : Slot) : Prop :=
  s ∈ n.flushed ∨ Deleted n s

theorem Deleted.trans {s : Slot} (h : Deleted n s) (hl : Placed n loc)
    (ht : Trans L isMaster n e n') : Deleted n' s := by
  obtain ⟨r, hr, hinvalid⟩ := h
  cases ht.refStep s with
  | same heq => exact ⟨r, heq.trans hr, hinvalid⟩
  | kept r₀ r' hr₀ hr' _ _ hvalid =>
      rw [hr] at hr₀
      cases hr₀
      rcases hvalid with hvalid | ⟨hvalid, -⟩
      · exact ⟨r', hr', hvalid.trans hinvalid⟩
      · exact ⟨r', hr', hvalid⟩
  | wrote t p hp hs hr' =>
      subst hs
      rw [hl.unwritten hp] at hr
      cases hr
  | replaced t c j r₀ hp hr₀ hr' =>
      rw [hr] at hr₀
      cases hr₀
      exact ⟨_, hr', hinvalid⟩
  | deferred t c j r₀ hp hr₀ hr' =>
      rw [hr] at hr₀
      cases hr₀
      exact ⟨_, hr', hinvalid⟩
  | switched c r₀ hr₀ hc hr' =>
      rw [hr] at hr₀
      cases hr₀
      exact ⟨_, hr', hinvalid⟩

theorem Trans.flushed_mono {s : Slot} (h : Trans L isMaster n e n')
    (hs : s ∈ n.flushed) : s ∈ n'.flushed := by
  cases h with
  | flushed => exact List.mem_append_left _ hs
  | elsewhere => exact List.mem_append_left _ hs
  | _ => exact hs

theorem Evicted.trans {s : Slot} (h : Evicted n s) (hl : Placed n loc)
    (ht : Trans L isMaster n e n') : Evicted n' s :=
  h.imp ht.flushed_mono fun h => h.trans hl ht

omit [DecidableEq ι] [DecidableEq κ] in
theorem LetGo.mono {D D' : Slot → Prop} (h : LetGo D n)
    (hD : ∀ s, D s → D' s) : LetGo D' n :=
  ⟨fun t s hs => hD s (h.passed t s hs),
    fun s r key hr hc => hD s (h.callback s r key hr hc),
    fun s hs => hD s (h.gone s hs)⟩

/-! ## What has been acknowledged -/

/-- The slice has been written to the memory tier. -/
def Written (n : Node ι κ β) (s : Slot) : Prop :=
  ∃ r, n.refs s = some r

theorem Written.trans {s : Slot} (h : Written n s)
    (ht : Trans L isMaster n e n') : Written n' s := by
  cases ht.refStep s with
  | same heq => exact h.imp fun r hr => heq.trans hr
  | kept _ r' _ hr' => exact ⟨r', hr'⟩
  | wrote _ _ _ _ hr' => exact ⟨_, hr'⟩
  | replaced _ _ _ _ _ _ hr' => exact ⟨_, hr'⟩
  | deferred _ _ _ _ _ _ hr' => exact ⟨_, hr'⟩
  | switched _ _ _ _ hr' => exact ⟨_, hr'⟩

/-- The thread that an event is about. -/
def Event.thread : Event ι κ β → Option ι
  | .put t _ => some t
  | .get t _ => some t
  | .delete t _ => some t
  | .evictAll t _ _ _ => some t
  | .go t => some t
  | .fail t => some t
  | .negotiated _ => none
  | .flushed _ => none

/-- The other threads stay where they are. -/
theorem Trans.threads_of_ne {u : ι} (h : Trans L isMaster n e n')
    (hu : e.thread ≠ some u) : n'.threads u = n.threads u := by
  cases h with
  | missed => rfl
  | negotiated => rfl
  | elsewhere => rfl
  | moves t e q he hm =>
      refine Function.update_of_ne ?_ ..
      rintro rfl
      rcases he with rfl | rfl
      all_goals exact hu rfl
  | markFailed t e j s he hp =>
      refine Function.update_of_ne ?_ ..
      rintro rfl
      rcases he with rfl | rfl
      all_goals exact hu rfl
  | ended t e key r s he hp =>
      refine Function.update_of_ne ?_ ..
      rintro rfl
      rcases he with rfl | rfl
      all_goals exact hu rfl
  | _ =>
      refine Function.update_of_ne ?_ ..
      rintro rfl
      exact hu rfl

/-- A `Put` that goes on has written its slice, with its key and its value. -/
theorem write_step {t : ι} {p : PutArgs κ β}
    (h : step L isMaster n e = some n') (hp : n.threads t = .write p) :
    n'.threads t = .write p ∨ (n'.threads t).put = none ∨
      Written n' p.slot ∧ Keyed n' p.slot p.key ∧
        n'.contents .memory p.slot = some p.value := by
  by_cases ht : e.thread = some t
  · cases e with
    | go u =>
        cases ht
        simp only [step, hp, resume, Option.some.injEq] at h
        subst h
        refine .inr (.inr ⟨⟨_, setRef_self _⟩, ⟨⟨p.key, L.offset p.slot,
          L.length p.slot, p.slot.flowId, false⟩, ?_, rfl⟩, ?_⟩)
        · rw [goto_records, setRef_records, setContent_records,
            setRecord_self]
        · exact setContent_self (n := n.setRecord .memory p.slot _) .memory
            p.value
    | fail u =>
        cases ht
        simp only [step, hp, interrupt, Option.some.injEq] at h
        subst h
        refine .inr (.inl ?_)
        show Phase.put (Function.update n.threads t Phase.idle t) = none
        rw [Function.update_self]
        rfl
    | negotiated s => cases ht
    | flushed s => cases ht
    | _ =>
        cases ht
        simp only [step, hp] at h
        cases h
  · exact .inl (((trans_of_step h).threads_of_ne ht).trans hp)

theorem Trans.lastPut (h : Trans L isMaster n e n') :
    n'.history.lastPut = n.history.lastPut ∨
      ∃ t p, n.threads t = .insert p ∧ n'.history.lastPut =
        Function.update n.history.lastPut p.key (some (p.slot, p.value)) := by
  cases h with
  | inserted t p hp => exact .inr ⟨t, p, hp, rfl⟩
  | _ => exact .inl rfl

/-- `W` holds of the slice, the key and the value of every `Put` that has
    written its slice, and of the last one of every key. -/
structure Returned (W : Slot → κ → β → Prop) (n : Node ι κ β) : Prop where
  running : ∀ t p, (n.threads t).put = some p →
    n.threads t = .write p ∨ W p.slot p.key p.value
  last : ∀ key s b, n.history.lastPut key = some (s, b) → W s key b

/-- **RETURNED**: it is enough to know it of the slices that a step writes. -/
theorem Returned.step {W W' : Slot → κ → β → Prop} (h : Returned W n)
    (hs : step L isMaster n e = some n')
    (hW : ∀ s key b, W s key b → W' s key b)
    (hwrite : ∀ p : PutArgs κ β, Written n' p.slot → Keyed n' p.slot p.key →
      n'.contents .memory p.slot = some p.value →
      W' p.slot p.key p.value) : Returned W' n' := by
  have ht := trans_of_step hs
  refine ⟨?_, ?_⟩
  · intro u p hput
    have hold (hput' : (n.threads u).put = some p) :
        n'.threads u = .write p ∨ W' p.slot p.key p.value := by
      rcases h.running u p hput' with hw | hw
      · rcases write_step hs hw with hw' | hnone | ⟨hw', hkey, hvalue⟩
        · exact .inl hw'
        · rw [hput] at hnone
          cases hnone
        · exact .inr (hwrite p hw' hkey hvalue)
      · exact .inr (hW _ _ _ hw)
    rcases ht.follows with heq | ⟨t, q, heq, hfol⟩
    · exact hold (heq ▸ hput)
    · by_cases hu : u = t
      · subst hu
        rw [heq, Function.update_self] at hput
        rcases hfol.put with hq | hq | ⟨a, rfl, hq⟩
        · rw [hput] at hq
          cases hq
        · exact hold (hq ▸ hput)
        · -- the `Put` has just been called
          rw [hput] at hq
          cases hq
          left
          simp only [Wcache.step] at hs
          split at hs
          · split at hs
            · cases hs
            · cases hs
              exact Function.update_self ..
          · cases hs
      · exact hold (by rwa [heq, Function.update_of_ne hu] at hput)
  · intro key s b hlast
    rcases ht.lastPut with heq | ⟨t, p, hp, heq⟩
    · exact hW _ _ _ (h.last key s b (heq ▸ hlast))
    · rw [heq] at hlast
      by_cases hk : key = p.key
      · subst hk
        rw [Function.update_self] at hlast
        cases hlast
        rcases h.running t p (by rw [hp]; rfl) with hw | hw
        · rw [hp] at hw
          cases hw
        · exact hW _ _ _ hw
      · rw [Function.update_of_ne hk] at hlast
        exact hW _ _ _ (h.last key s b hlast)

/-- What has been acknowledged has been written. -/
structure Acknowledged (n : Node ι κ β) : Prop where
  running : ∀ t p, (n.threads t).put = some p →
    n.threads t = .write p ∨ Written n p.slot
  returned : ∀ key s b, n.history.lastPut key = some (s, b) → Written n s

theorem Acknowledged.step (h : Acknowledged n)
    (hs : step L isMaster n e = some n') : Acknowledged n' := by
  have hreturned : Returned (fun s _ _ => Written n' s) n' :=
    Returned.step (W := fun s _ _ => Written n s) ⟨h.running, h.returned⟩ hs
      (fun _ _ _ hw => hw.trans (trans_of_step hs)) fun _ hw _ _ => hw
  exact ⟨hreturned.running, hreturned.last⟩

/-- There is no `Delete`. -/
structure NoDelete (n : Node ι κ β) : Prop where
  threads : ∀ t, (n.threads t).delete? = none
  refs : ∀ s r, n.refs s = some r → r.valid = true

omit [DecidableEq ι] [DecidableEq κ] in
theorem noDelete_init : NoDelete (Node.init ι κ β) where
  threads := fun _ => rfl
  refs := by
    intro s r hr
    cases hr

theorem NoDelete.trans (h : NoDelete n) (he : ∀ t key, e ≠ .delete t key)
    (ht : Trans L isMaster n e n') : NoDelete n' := by
  refine ⟨?_, ?_⟩
  · intro u
    rcases ht.follows with heq | ⟨t, q, heq, hfol⟩
    · rw [heq]
      exact h.threads u
    · rw [heq]
      by_cases hu : u = t
      · subst hu
        rw [Function.update_self]
        rcases hfol.delete with hq | hq | ⟨key, hdel, -⟩
        · exact hq
        · rw [hq]
          exact h.threads u
        · exact absurd hdel (he u key)
      · rw [Function.update_of_ne hu]
        exact h.threads u
  · intro s r hr
    cases ht.refStep s with
    | same heq => exact h.refs s r (heq ▸ hr)
    | kept r₀ r' hr₀ hr' _ _ hvalid =>
        rw [hr'] at hr
        cases hr
        rcases hvalid with hvalid | ⟨-, t, key, stamp, hp⟩
        · rw [hvalid]
          exact h.refs s r₀ hr₀
        · have hnone := h.threads t
          rw [hp] at hnone
          cases hnone
    | wrote _ _ _ _ hr' =>
        rw [hr'] at hr
        cases hr
        rfl
    | replaced t c j r₀ _ hr₀ hr' =>
        rw [hr'] at hr
        cases hr
        exact h.refs s r₀ hr₀
    | deferred t c j r₀ _ hr₀ hr' =>
        rw [hr'] at hr
        cases hr
        exact h.refs s r₀ hr₀
    | switched c r₀ hr₀ _ hr' =>
        rw [hr'] at hr
        cases hr
        exact h.refs s r₀ hr₀

/-! ## The two nodes -/

structure Pair (ι κ β : Type) where
  master : Node ι κ β
  standby : Node ι κ β

def Pair.init (ι κ β : Type) : Pair ι κ β :=
  ⟨Node.init ι κ β, Node.init ι κ β⟩

inductive PairEvent (ι κ β : Type) where
  | onMaster (e : Event ι κ β)
  | onStandby (e : Event ι κ β)

/-- The event at one of the two: a task of the disk tier gets its offset from
    `EvictAllDiskSliceToUnderFs`, and nobody else puts slices into UnderFs. -/
def Event.atNode (globEvictOffset : Nat → Option Nat) :
    Event ι κ β → Option (Event ι κ β)
  | .evictAll t .disk flowId _ =>
      some (.evictAll t .disk flowId (globEvictOffset flowId))
  | .flushed _ => none
  | e => some e

/-- A step of one of the two.  The standby asks the master when its task
    starts; the master has no bound. -/
def pairStep (L : Layout) (p : Pair ι κ β) :
    PairEvent ι κ β → Option (Pair ι κ β)
  | .onMaster e => do
      let e ← e.atNode fun _ => none
      let master ← step L true p.master e
      return { p with master }
  | .onStandby e => do
      let e ← e.atNode fun flowId => some (p.master.evictOffset L flowId)
      let standby ← step L false p.standby e
      return { p with standby }

/-! ## The invariant -/

/-- A thread that is about to evict at the standby does so for a slice that
    the master has done with. -/
structure Retained (L : Layout) (p : Pair ι κ β) : Prop where
  placed : ∃ loc, Placed p.master loc
  placed' : ∃ loc, Placed p.standby loc
  letGo : LetGo (Evicted p.master) p.master
  truncated : Truncated p.master
  letGo' : LetGo (Evicted p.master) p.standby
  releases : ∀ t s, (p.standby.threads t).releases = some s →
    Evicted p.master s
  task : ∀ t flowId glob,
    (p.standby.threads t).task = some (.disk, flowId, glob) →
    ∃ offset, glob = some offset ∧ offset ≤ p.master.evictOffset L flowId
  acknowledged : Acknowledged p.standby

/-- A `Put` of the standby that writes through finds a slice at the head of
    the disk queue that the master has done with. -/
def FrontAllowed (p : Pair ι κ β) : PairEvent ι κ β → Prop
  | .onStandby (.go t) => ∀ a s rest, p.standby.threads t = .frontDisk a →
      p.standby.evictSliceQueue .disk a.slot.flowId = s :: rest →
      Evicted p.master s
  | _ => True

theorem Layout.strictMono (L : Layout) (flowId : Nat) :
    StrictMono (L.start flowId) :=
  strictMono_nat_of_lt_succ (L.start_lt flowId)

omit [DecidableEq ι] [DecidableEq κ] in
/-- **TRUNCATED**: what ends before the offset of the master is gone there. -/
theorem Truncated.gone (h : Truncated n) {s : Slot} {offset : Nat}
    (hle : offset ≤ n.evictOffset L s.flowId)
    (hs : isBehind L s (some offset) = false) : Gone n s := by
  have hend : L.offset s + L.length s =
      L.start s.flowId (s.indexInFlow + 1) := by
    have hlt := L.start_lt s.flowId s.indexInFlow
    rw [Layout.offset, Layout.length]
    omega
  rw [isBehind, decide_eq_false_iff_not, hend, Nat.not_lt] at hs
  have hin := (L.strictMono s.flowId).le_iff_le.mp (Nat.le_trans hs hle)
  exact h.passed s.flowId s.indexInFlow
    (Nat.lt_of_succ_le (Nat.le_trans hin (h.truncated s.flowId)))

theorem evictOffset_mono (ht : Trans L isMaster n e n') (flowId : Nat) :
    n.evictOffset L flowId ≤ n'.evictOffset L flowId :=
  (L.strictMono flowId).monotone (ht.truncateIndex_le flowId)

/-- The master goes on, and does with more slices. -/
theorem Retained.onMaster {p : Pair ι κ β} {master : Node ι κ β}
    (h : Retained L p) (ht : Trans L true p.master e master) :
    Retained L { p with master } := by
  obtain ⟨loc, hl⟩ := h.placed
  have hmono : ∀ s, Evicted p.master s → Evicted master s :=
    fun s hs => hs.trans hl ht
  refine ⟨hl.trans ht, h.placed', ?_, h.truncated.trans hl ht,
    h.letGo'.mono hmono, fun t s hs => hmono s (h.releases t s hs), ?_,
    h.acknowledged⟩
  case refine_1 =>
    refine h.letGo.trans ht hmono ?_
    rintro t j s - - (hs | ⟨r, hr, hs | hs⟩)
    · exact .inl hs
    · exact hmono s (.inr ⟨r, hr, hs⟩)
    · cases hs
  case refine_2 =>
    intro t flowId glob htask
    obtain ⟨offset, hglob, hle⟩ := h.task t flowId glob htask
    exact ⟨offset, hglob, Nat.le_trans hle (evictOffset_mono ht flowId)⟩

/-- The tasks of the standby have been answered by the master. -/
theorem Retained.task_trans {p : Pair ι κ β} {standby : Node ι κ β}
    (h : Retained L p) (ht : Trans L false p.standby e standby)
    (he : ∀ t flowId glob, e = .evictAll t .disk flowId glob →
      glob = some (p.master.evictOffset L flowId)) :
    ∀ t flowId glob, (standby.threads t).task = some (.disk, flowId, glob) →
      ∃ offset, glob = some offset ∧
        offset ≤ p.master.evictOffset L flowId := by
  intro u flowId glob htask
  rcases ht.follows with heq | ⟨t, q, heq, hfol⟩
  · exact h.task u flowId glob (heq ▸ htask)
  · by_cases hu : u = t
    · subst hu
      rw [heq, Function.update_self] at htask
      rcases hfol.task with hq | hq | ⟨tier, f, g, rfl, hq⟩ |
        ⟨tier, f, g, s, hp, hs, hq⟩
      · rw [htask] at hq
        cases hq
      · exact h.task u flowId glob (hq ▸ htask)
      · rw [htask] at hq
        cases hq
        exact ⟨_, he u flowId glob rfl, Nat.le_refl _⟩
      · -- the task takes a slice of its flow
        rw [htask] at hq
        cases hq
        obtain ⟨loc, hl⟩ := h.placed'
        rw [(((hl.queued .disk f).2 s).mp hs).2]
        exact h.task u f glob hp
    · rw [heq, Function.update_of_ne hu] at htask
      exact h.task u flowId glob htask

/-- **BOTH PATHS**: a task takes what lies before the offset that the master
    has answered, and a `Put` what the condition allows. -/
theorem Retained.releases_trans {p : Pair ι κ β} {standby : Node ι κ β}
    (h : Retained L p) (hg : FrontAllowed p (.onStandby e))
    (ht : Trans L false p.standby e standby) :
    ∀ t s, (standby.threads t).releases = some s → Evicted p.master s := by
  intro u s hs
  rcases ht.follows with heq | ⟨t, q, heq, hfol⟩
  · exact h.releases u s (heq ▸ hs)
  · by_cases hu : u = t
    · subst hu
      rw [heq, Function.update_self] at hs
      rcases hfol.releases with hq | hq | ⟨f, s', rest, hqueue, rfl, hq, hby⟩
      · rw [hs] at hq
        cases hq
      · exact h.releases u s (hq ▸ hs)
      · rw [hs] at hq
        cases hq
        rcases hby with ⟨a, hp, rfl⟩ | ⟨glob, hp, hbehind⟩
        · exact hg a s rest hp hqueue
        · obtain ⟨offset, rfl, hle⟩ := h.task u f glob (by rw [hp]; rfl)
          obtain ⟨loc, hl⟩ := h.placed'
          have hflow : s.flowId = f :=
            (((hl.queued .disk f).2 s).mp (hqueue ▸ List.mem_cons_self ..)).2
          rw [← hflow] at hle
          exact h.letGo.gone s (h.truncated.gone hle hbehind)
    · rw [heq, Function.update_of_ne hu] at hs
      exact h.releases u s hs

/-- The standby goes on, and gives up only what the master has done with. -/
theorem Retained.onStandby {p : Pair ι κ β} {standby : Node ι κ β}
    (h : Retained L p) (hg : FrontAllowed p (.onStandby e))
    (he : ∀ t flowId glob, e = .evictAll t .disk flowId glob →
      glob = some (p.master.evictOffset L flowId))
    (hs : step L false p.standby e = some standby) :
    Retained L { p with standby } := by
  obtain ⟨loc, hl⟩ := h.placed'
  have ht := trans_of_step hs
  refine ⟨h.placed, hl.trans ht, h.letGo, h.truncated, ?_,
    h.releases_trans hg ht, h.task_trans ht he, h.acknowledged.step hs⟩
  refine h.letGo'.trans ht (fun _ hs => hs) ?_
  intro t j s hp _ _
  exact h.releases t s (by rw [hp]; rfl)

omit [DecidableEq ι] [DecidableEq κ] in
theorem retained_init : Retained L (Pair.init ι κ β) where
  placed := ⟨_, placed_init⟩
  placed' := ⟨_, placed_init⟩
  letGo := ⟨nofun, nofun, nofun⟩
  truncated := ⟨nofun, nofun, nofun, fun _ => Nat.le_refl _⟩
  letGo' := ⟨nofun, nofun, nofun⟩
  releases := nofun
  task := nofun
  acknowledged := ⟨nofun, nofun⟩

omit [DecidableEq ι] [DecidableEq κ] in
/-- What happens at a node is what was to happen, but for the offset. -/
theorem atNode_eq_some {globEvictOffset : Nat → Option Nat}
    {e e' : Event ι κ β} (h : e.atNode globEvictOffset = some e') :
    (∀ t flowId glob, e' = .evictAll t .disk flowId glob →
      glob = globEvictOffset flowId) ∧
    (∀ t, e' = .go t → e = .go t) ∧
    ∀ t key, e' = .delete t key → e = .delete t key := by
  cases e with
  | evictAll t tier flowId glob =>
      cases tier
      all_goals
        cases h
        refine ⟨?_, nofun, nofun⟩
        rintro u f g ⟨⟩
        try rfl
  | flushed s => cases h
  | go t =>
      cases h
      exact ⟨nofun, fun _ h => h, nofun⟩
  | delete t key =>
      cases h
      exact ⟨nofun, nofun, fun _ _ h => h⟩
  | _ =>
      cases h
      exact ⟨nofun, nofun, nofun⟩

/-- A step of the two is a step of one. -/
theorem pairStep_eq_some {p p' : Pair ι κ β} {x : PairEvent ι κ β}
    (h : pairStep L p x = some p') :
    (∃ e e' master, x = .onMaster e ∧ e.atNode (fun _ => none) = some e' ∧
      step L true p.master e' = some master ∧ p' = { p with master }) ∨
    ∃ e e' standby, x = .onStandby e ∧
      e.atNode (fun flowId => some (p.master.evictOffset L flowId)) =
        some e' ∧
      step L false p.standby e' = some standby ∧ p' = { p with standby } := by
  cases x with
  | onMaster e =>
      rw [pairStep] at h
      obtain ⟨e', he, h⟩ := Option.bind_eq_some_iff.mp h
      obtain ⟨master, hs, h⟩ := Option.bind_eq_some_iff.mp h
      cases h
      exact .inl ⟨e, e', master, rfl, he, hs, rfl⟩
  | onStandby e =>
      rw [pairStep] at h
      obtain ⟨e', he, h⟩ := Option.bind_eq_some_iff.mp h
      obtain ⟨standby, hs, h⟩ := Option.bind_eq_some_iff.mp h
      cases h
      exact .inr ⟨e, e', standby, rfl, he, hs, rfl⟩

/-- **RETENTION**: a step that the condition allows keeps the invariant. -/
theorem Retained.step {p p' : Pair ι κ β} {x : PairEvent ι κ β}
    (h : Retained L p) (hg : FrontAllowed p x)
    (hstep : pairStep L p x = some p') : Retained L p' := by
  rcases pairStep_eq_some hstep with ⟨e, e', master, rfl, -, hs, rfl⟩ |
    ⟨e, e', standby, rfl, he, hs, rfl⟩
  · exact h.onMaster (trans_of_step hs)
  · obtain ⟨hoffset, hgo, -⟩ := atNode_eq_some he
    refine h.onStandby ?_ hoffset hs
    cases e' with
    | go t =>
        rw [hgo t rfl] at hg
        exact hg
    | _ => exact trivial

/-- Without a `Delete` all slices of the master stay valid. -/
theorem noDelete_run {p : Pair ι κ β} {es : List (PairEvent ι κ β)}
    (hr : runFrom (pairStep L) (Pair.init ι κ β) es = some p)
    (hes : ∀ x ∈ es, ∀ t key, x ≠ .onMaster (.delete t key)) :
    NoDelete p.master := by
  refine runFrom_invariant_along (I := fun p => NoDelete p.master)
    (G := fun _ x => ∀ t key, x ≠ .onMaster (.delete t key)) ?_ es _ p
    noDelete_init (along_of_forall _ hes) hr
  intro p x p' h hx hstep
  rcases pairStep_eq_some hstep with ⟨e, e', master, rfl, he, hs, rfl⟩ |
    ⟨e, e', standby, rfl, -, -, rfl⟩
  · refine h.trans ?_ (trans_of_step hs)
    rintro t key rfl
    exact hx t key (congrArg _ ((atNode_eq_some he).2.2 t key rfl))
  · exact h

/-- **NO SLICE IS LOST**: as long as the standby's `Put`s find only slices at
    the head of its disk queue that the master has done with, what the standby
    has given up has been put into UnderFs, or deleted; what has been
    acknowledged is there or still held; and without a `Delete` it has been put
    into UnderFs. -/
theorem standby_retains {p : Pair ι κ β} {es : List (PairEvent ι κ β)}
    (hg : Along (pairStep L) FrontAllowed (Pair.init ι κ β) es)
    (hr : runFrom (pairStep L) (Pair.init ι κ β) es = some p) :
    (∀ s, Gone p.standby s → s ∈ p.master.flushed ∨ Deleted p.master s) ∧
    (∀ key s b, p.standby.history.lastPut key = some (s, b) →
      s ∈ p.master.flushed ∨ Deleted p.master s ∨
        ∃ r tier, p.standby.refs s = some r ∧ r.slice = some tier) ∧
    ((∀ x ∈ es, ∀ t key, x ≠ .onMaster (.delete t key)) →
      ∀ s, Gone p.standby s → s ∈ p.master.flushed) := by
  have hinv : Retained L p := runFrom_invariant_along
    (fun _ _ _ h hg hs => h.step hg hs) es _ p retained_init hg hr
  refine ⟨hinv.letGo'.gone, ?_, ?_⟩
  · intro key s b hlast
    obtain ⟨r, hs⟩ := hinv.acknowledged.returned key s b hlast
    cases hslice : r.slice with
    | some tier => exact .inr (.inr ⟨r, tier, hs, hslice⟩)
    | none =>
        exact (hinv.letGo'.gone s ⟨r, hs, hslice⟩).imp_right .inl
  · intro hes s hgone
    rcases hinv.letGo'.gone s hgone with hflushed | ⟨r, hs, hinvalid⟩
    · exact hflushed
    · rw [(noDelete_run hr hes).refs s r hs] at hinvalid
      cases hinvalid

/-! ## Two runs -/

/-- The condition, evaluated. -/
def frontAllowed (p : Pair ι κ β) : PairEvent ι κ β → Bool
  | .onStandby (.go t) =>
      match p.standby.threads t with
      | .frontDisk a =>
          match p.standby.evictSliceQueue .disk a.slot.flowId with
          | [] => true
          | s :: _ => decide (s ∈ p.master.flushed) ||
              (p.master.refs s).any fun r => !r.valid
      | _ => true
  | _ => true

omit [DecidableEq ι] [DecidableEq κ] in
theorem frontAllowed_of_eval (p : Pair ι κ β) (x : PairEvent ι κ β)
    (h : frontAllowed p x = true) : FrontAllowed p x := by
  cases x with
  | onMaster e => exact trivial
  | onStandby e =>
      cases e with
      | go t =>
          intro a s rest hp hqueue
          simp only [frontAllowed, hp, hqueue, Bool.or_eq_true,
            decide_eq_true_eq] at h
          refine h.imp_right fun h => ?_
          obtain ⟨r, hs, hr⟩ := Option.any_eq_true _ _ |>.mp h
          exact ⟨r, hs, Bool.not_eq_true' _ |>.mp hr⟩
      | _ => exact trivial

/-- Thread `true` puts a value under key 7 at both nodes, and the copies agree
    on its eviction. -/
def putBoth : List (PairEvent Bool Nat Nat) :=
  putSeven.map .onMaster ++ putSeven.map .onStandby

/-- It puts a value under key 8 that writes through, as far as `k` sections. -/
def putEight (k : Nat) : List (Event Bool Nat Nat) :=
  .put true ⟨⟨0, 1⟩, 8, 80, .underFsBack, true⟩ ::
    List.replicate k (.go true)

/-- The master is first: the slice of key 7 is in UnderFs when the standby gives
    it up. -/
theorem standby_retains_behind :
    ∃ p, runFrom (pairStep bytes) (Pair.init Bool Nat Nat)
      (putBoth ++ (putEight 14).map .onMaster ++
        (putEight 14).map .onStandby) = some p ∧
      Gone p.standby ⟨0, 0⟩ ∧ (⟨0, 0⟩ ∈ p.master.flushed ∨
        Deleted p.master ⟨0, 0⟩) := by
  have hrun : (runFrom (pairStep bytes) (Pair.init Bool Nat Nat)
      (putBoth ++ (putEight 14).map .onMaster ++
        (putEight 14).map .onStandby)).map (fun p =>
          (p.standby.refs ⟨0, 0⟩).map SliceRef.slice) =
      some (some none) := by decide +kernel
  obtain ⟨p, hp, hslice⟩ := Option.map_eq_some_iff.mp hrun
  have hgone : Gone p.standby ⟨0, 0⟩ := Option.map_eq_some_iff.mp hslice
  refine ⟨p, hp, hgone, (standby_retains
    (along_of_alongB frontAllowed_of_eval _ _ ?_) hp).1 _ hgone⟩
  decide +kernel

/-- The standby is first: its `Put` of key 8 takes the slice of key 7 out of its
    disk queue, and the master has it in memory alone. -/
theorem standby_gives_up :
    ¬ ∀ (es : List (PairEvent Bool Nat Nat)) (p : Pair Bool Nat Nat),
      runFrom (pairStep bytes) (Pair.init Bool Nat Nat) es = some p →
      ∀ s, Gone p.standby s → s ∈ p.master.flushed ∨ Deleted p.master s := by
  intro h
  have hrun : (runFrom (pairStep bytes) (Pair.init Bool Nat Nat)
      (putBoth ++ (putEight 1).map .onMaster ++
        (putEight 14).map .onStandby)).map (fun p =>
          ((p.standby.refs ⟨0, 0⟩).map SliceRef.slice, p.master.flushed,
            (p.master.refs ⟨0, 0⟩).map SliceRef.valid)) =
      some (some none, [], some true) := by decide +kernel
  obtain ⟨p, hp, heq⟩ := Option.map_eq_some_iff.mp hrun
  obtain ⟨hslice, heq⟩ := Prod.mk.inj heq
  obtain ⟨hflushed, hvalid⟩ := Prod.mk.inj heq
  rcases h _ p hp ⟨0, 0⟩ (Option.map_eq_some_iff.mp hslice) with
    hin | ⟨r, hr, hinvalid⟩
  · rw [hflushed] at hin
    cases hin
  · rw [hr, Option.map_some, hinvalid] at hvalid
    cases hvalid

end UbsIo.Wcache
