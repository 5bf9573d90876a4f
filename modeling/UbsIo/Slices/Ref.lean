import UbsIo.Lib.Run

/-! # References of slices

    `SliceRef` of `slice.h`: a slice with the number of those who hold it.
    `SetSlice` replaces a slice that nobody holds; otherwise the new slice
    waits for the last `Release`.  The callback that gets the old slice runs
    outside of the lock.

    Any number of threads call; the locked section of a call is one step, and
    so is a callback.  `SetState` may come at any time.  `S` is a pointer, with
    `none` for `nullptr`; every callback that a caller passes can be called. -/

namespace UbsIo.Slices.Ref

open UbsIo.Lib

/-! ## Model -/

inductive SliceState where
  | valid
  | invalid
deriving DecidableEq, Repr

structure SliceRef (σ κ : Type) where
  mSlice : Option σ
  mNewSlice : Option σ
  mSetSliceCallback : Option κ
  mRef : Nat
  mState : SliceState

variable {σ κ : Type}

def SliceRef.new (slice : Option σ) : SliceRef σ κ :=
  ⟨slice, none, none, 0, .valid⟩

/-- `execSliceCallback` and `execSlice`, when a section leaves them. -/
abbrev Exec (σ κ : Type) := Option (κ × Option σ)

/-- `Aquire`. -/
def aquire (r : SliceRef σ κ) : SliceRef σ κ × Bool :=
  if r.mSlice.isSome ∧ r.mState = .valid then
    ({ r with mRef := r.mRef + 1 }, true)
  else (r, false)

/-- The locked section of `Release`. -/
def release (r : SliceRef σ κ) : SliceRef σ κ × Exec σ κ :=
  if r.mRef - 1 = 0 then
    match r.mSetSliceCallback with
    | some setSliceCallback =>
        ({ r with
          mRef := r.mRef - 1
          mSlice := r.mNewSlice
          mNewSlice := none
          mSetSliceCallback := none }, some (setSliceCallback, r.mSlice))
    | none => ({ r with mRef := r.mRef - 1 }, none)
  else ({ r with mRef := r.mRef - 1 }, none)

/-- The locked section of `SetSlice`. -/
def setSlice (r : SliceRef σ κ) (newSlice : Option σ) (setSliceCallback : κ) :
    SliceRef σ κ × Exec σ κ :=
  if r.mRef = 0 then
    ({ r with mSlice := newSlice }, some (setSliceCallback, r.mSlice))
  else
    ({ r with
      mNewSlice := newSlice
      mSetSliceCallback := some setSliceCallback }, none)

/-! ## The callers -/

/-- A call of `SetSlice`: the slice that was there before, and the new one. -/
structure SetCall (σ : Type) where
  oldSlice : Option σ
  newSlice : Option σ

/-- Someone between `Aquire` and `Release`, with the slice that was there at
    `Aquire`.  The first slice has the number 0, that of the `k`-th call of
    `SetSlice` the number `k + 1`. -/
structure Holder (σ : Type) where
  number : Nat
  slice : Option σ
deriving DecidableEq

/-- The reference, those who hold it, the number of the slice in it, the calls
    of `SetSlice` so far, the callbacks that are left to run and those that
    have run, each with its call and the slice it gets. -/
structure Sys (σ : Type) where
  ref : SliceRef σ Nat
  holders : List (Holder σ)
  number : Nat
  issued : List (SetCall σ)
  executing : List (Nat × Option σ)
  ran : List (Nat × Option σ)

def Sys.init (slice : Option σ) : Sys σ := ⟨.new slice, [], 0, [], [], []⟩

/-- After a section that may have replaced the slice. -/
def Sys.after (s : Sys σ) (r : SliceRef σ Nat × Exec σ Nat) : Sys σ :=
  match r.2 with
  | some exec =>
      { s with
        ref := r.1
        number := s.number + 1
        executing := s.executing ++ [exec] }
  | none => { s with ref := r.1 }

inductive Event (σ : Type) where
  | aquire
  | release (i : Nat)
  | setSlice (newSlice : Option σ)
  | callback (i : Nat)
  | setState (state : SliceState)

/-- The callback of the call of `SetSlice` before this one has run. -/
def Sys.MaySet (s : Sys σ) : Prop :=
  s.issued.length = 0 ∨ s.issued.length - 1 ∈ s.ran.map Prod.fst

instance (s : Sys σ) : Decidable s.MaySet :=
  inferInstanceAs (Decidable (_ ∨ _))

def step (s : Sys σ) : Event σ → Option (Sys σ)
  | .aquire =>
      let r := aquire s.ref
      if r.2 then
        some { s with
          ref := r.1
          holders := s.holders ++ [⟨s.number, r.1.mSlice⟩] }
      else some s
  | .release i =>
      if i < s.holders.length then
        some (Sys.after { s with holders := s.holders.eraseIdx i }
          (release s.ref))
      else none
  | .setSlice newSlice =>
      if s.MaySet then
        some (Sys.after
          { s with issued := s.issued ++ [⟨s.ref.mSlice, newSlice⟩] }
          (setSlice s.ref newSlice s.issued.length))
      else none
  | .callback i =>
      s.executing[i]?.map fun exec =>
        { s with
          executing := s.executing.eraseIdx i
          ran := s.ran ++ [exec] }
  | .setState state => some { s with ref := { s.ref with mState := state } }

/-! ## Invariant -/

/-- What the callbacks of these calls get, in the order of the calls. -/
def logOf (calls : List (SetCall σ)) : List (Nat × Option σ) :=
  calls.mapIdx fun k c => (k, c.oldSlice)

theorem logOf_concat (calls : List (SetCall σ)) (c : SetCall σ) :
    logOf (calls ++ [c]) = logOf calls ++ [(calls.length, c.oldSlice)] :=
  List.mapIdx_concat

theorem length_logOf (calls : List (SetCall σ)) :
    (logOf calls).length = calls.length :=
  List.length_mapIdx

theorem fst_logOf (calls : List (SetCall σ)) :
    (logOf calls).map Prod.fst = List.range calls.length := by
  refine List.ext_getElem ?_ ?_
  · rw [List.length_map, length_logOf, List.length_range]
  · intro k hk hk'
    simp [logOf]

theorem mem_logOf {calls : List (SetCall σ)} {e : Nat × Option σ} :
    e ∈ logOf calls ↔ ∃ c, calls[e.1]? = some c ∧ c.oldSlice = e.2 := by
  rw [logOf, List.mem_mapIdx]
  constructor
  · rintro ⟨k, hk, rfl⟩
    exact ⟨calls[k], List.getElem?_eq_getElem hk, rfl⟩
  · rintro ⟨c, hc, hold⟩
    obtain ⟨hlt, rfl⟩ := List.getElem?_eq_some_iff.mp hc
    exact ⟨e.1, hlt, Prod.ext rfl hold⟩

/-- How far the last call of `SetSlice` has come: its callback has run, is left
    to run, or waits in the reference for those who hold the slice. -/
inductive Stage (s : Sys σ) : Prop
  | settled (hexec : s.executing = [])
      (hwait : s.ref.mSetSliceCallback = none)
      (hran : s.ran = logOf s.issued) (hnumber : s.number = s.issued.length)
      (hnew : ∀ c, s.issued.getLast? = some c → s.ref.mSlice = c.newSlice)
  | left (done : List (SetCall σ)) (c : SetCall σ)
      (hissued : s.issued = done ++ [c])
      (hexec : s.executing = [(done.length, c.oldSlice)])
      (hwait : s.ref.mSetSliceCallback = none)
      (hran : s.ran = logOf done) (hnumber : s.number = done.length + 1)
      (hnew : s.ref.mSlice = c.newSlice)
  | parked (done : List (SetCall σ)) (c : SetCall σ)
      (hissued : s.issued = done ++ [c]) (hexec : s.executing = [])
      (hwait : s.ref.mSetSliceCallback = some done.length)
      (hran : s.ran = logOf done) (hnumber : s.number = done.length)
      (hold : s.ref.mSlice = c.oldSlice) (hnew : s.ref.mNewSlice = c.newSlice)
      (hheld : s.holders ≠ [])

structure Inv (s : Sys σ) : Prop where
  count : s.ref.mRef = s.holders.length
  held : ∀ h ∈ s.holders, h = ⟨s.number, s.ref.mSlice⟩
  stage : Stage s

theorem Inv.init (slice : Option σ) : Inv (Sys.init slice) :=
  ⟨rfl, fun _ h => absurd h List.not_mem_nil,
    .settled rfl rfl rfl rfl fun _ h => by cases h⟩

/-- A stage does not depend on the number of holders, or on the state. -/
theorem Stage.congr {s s' : Sys σ} (h : Stage s)
    (hslice : s'.ref.mSlice = s.ref.mSlice)
    (hnewSlice : s'.ref.mNewSlice = s.ref.mNewSlice)
    (hcallback : s'.ref.mSetSliceCallback = s.ref.mSetSliceCallback)
    (hnumber : s'.number = s.number) (hissued : s'.issued = s.issued)
    (hexec : s'.executing = s.executing) (hran : s'.ran = s.ran)
    (hheld : s.holders ≠ [] → s'.holders ≠ [] ∨
      s.ref.mSetSliceCallback = none) : Stage s' := by
  cases h with
  | settled h₁ h₂ h₃ h₄ h₅ =>
      refine .settled (hexec.trans h₁) (hcallback.trans h₂) ?_ ?_ ?_
      · rw [hran, hissued]
        exact h₃
      · rw [hnumber, hissued]
        exact h₄
      · rw [hissued, hslice]
        exact h₅
  | left done c h₁ h₂ h₃ h₄ h₅ h₆ =>
      exact .left done c (hissued.trans h₁) (hexec.trans h₂)
        (hcallback.trans h₃) (hran.trans h₄) (hnumber.trans h₅)
        (hslice.trans h₆)
  | parked done c h₁ h₂ h₃ h₄ h₅ h₆ h₇ h₈ =>
      refine .parked done c (hissued.trans h₁) (hexec.trans h₂)
        (hcallback.trans h₃) (hran.trans h₄) (hnumber.trans h₅)
        (hslice.trans h₆) (hnewSlice.trans h₇) ?_
      refine (hheld h₈).resolve_right ?_
      rw [h₃]
      exact Option.some_ne_none _

theorem Inv.aquire {s : Sys σ} (h : Inv s) :
    Inv { s with
      ref := { s.ref with mRef := s.ref.mRef + 1 }
      holders := s.holders ++ [⟨s.number, s.ref.mSlice⟩] } := by
  refine ⟨?_, ?_, h.stage.congr rfl rfl rfl rfl rfl rfl rfl ?_⟩
  · show s.ref.mRef + 1 = (s.holders ++ [_]).length
    rw [h.count, List.length_append]
    rfl
  · intro x hx
    rcases List.mem_append.mp hx with hx | hx
    · exact h.held x hx
    · exact List.mem_singleton.mp hx
  · exact fun _ => .inl (List.append_ne_nil_of_right_ne_nil _
      (List.cons_ne_nil _ _))

/-- The last holder carries out what waits. -/
theorem Inv.release {s : Sys σ} (h : Inv s) {i : Nat}
    (hi : i < s.holders.length) :
    Inv (Sys.after { s with holders := s.holders.eraseIdx i }
      (release s.ref)) := by
  have hlen : (s.holders.eraseIdx i).length = s.ref.mRef - 1 := by
    rw [List.length_eraseIdx_of_lt hi, h.count]
  have hheld : ∀ x ∈ s.holders.eraseIdx i, x = ⟨s.number, s.ref.mSlice⟩ :=
    fun x hx => h.held x (List.mem_of_mem_eraseIdx hx)
  by_cases hlast : s.ref.mRef - 1 = 0
  · have hnil : s.holders.eraseIdx i = [] :=
      List.length_eq_zero_iff.mp (hlen.trans hlast)
    cases h.stage with
    | settled h₁ h₂ h₃ h₄ h₅ =>
        have hsec : Ref.release s.ref =
            ({ s.ref with mRef := s.ref.mRef - 1 }, none) := by
          simp only [Ref.release, hlast, if_true, h₂]
        rw [hsec]
        exact ⟨hlen.symm, hheld, .settled h₁ h₂ h₃ h₄ h₅⟩
    | left done c h₁ h₂ h₃ h₄ h₅ h₆ =>
        have hsec : Ref.release s.ref =
            ({ s.ref with mRef := s.ref.mRef - 1 }, none) := by
          simp only [Ref.release, hlast, if_true, h₃]
        rw [hsec]
        exact ⟨hlen.symm, hheld, .left done c h₁ h₂ h₃ h₄ h₅ h₆⟩
    | parked done c h₁ h₂ h₃ h₄ h₅ h₆ h₇ h₈ =>
        have hsec : Ref.release s.ref =
            ({ s.ref with
              mRef := s.ref.mRef - 1
              mSlice := s.ref.mNewSlice
              mNewSlice := none
              mSetSliceCallback := none },
             some (done.length, s.ref.mSlice)) := by
          simp only [Ref.release, hlast, if_true, h₃]
        rw [hsec]
        refine ⟨hlen.symm, ?_, .left done c h₁ ?_ rfl h₄ ?_ h₇⟩
        · intro x hx
          change x ∈ s.holders.eraseIdx i at hx
          rw [hnil] at hx
          cases hx
        · show s.executing ++ [(done.length, s.ref.mSlice)] = _
          rw [h₂, h₆]
          rfl
        · show s.number + 1 = done.length + 1
          rw [h₅]
  · have hsec : Ref.release s.ref =
        ({ s.ref with mRef := s.ref.mRef - 1 }, none) := by
      simp only [Ref.release, hlast, if_false]
    rw [hsec]
    refine ⟨hlen.symm, hheld,
      h.stage.congr rfl rfl rfl rfl rfl rfl rfl fun _ => .inl ?_⟩
    intro hnil
    change s.holders.eraseIdx i = [] at hnil
    rw [hnil] at hlen
    exact hlast hlen.symm

/-- Before a call nothing is left to run, and nothing waits. -/
theorem Inv.settled {s : Sys σ} (h : Inv s) (hmay : s.MaySet) :
    s.executing = [] ∧ s.ref.mSetSliceCallback = none ∧
      s.ran = logOf s.issued ∧ s.number = s.issued.length := by
  have hnot : ∀ (done : List (SetCall σ)) (c : SetCall σ),
      s.issued = done ++ [c] → s.ran ≠ logOf done := by
    intro done c hissued hran
    rw [Sys.MaySet, hissued, hran, fst_logOf, List.length_append,
      List.mem_range] at hmay
    simp at hmay
  cases h.stage with
  | settled h₁ h₂ h₃ h₄ h₅ => exact ⟨h₁, h₂, h₃, h₄⟩
  | left done c h₁ h₂ h₃ h₄ h₅ h₆ => exact absurd h₄ (hnot done c h₁)
  | parked done c h₁ h₂ h₃ h₄ h₅ h₆ h₇ h₈ => exact absurd h₄ (hnot done c h₁)

theorem Inv.setSlice {s : Sys σ} (h : Inv s) (hmay : s.MaySet)
    (newSlice : Option σ) :
    Inv (Sys.after
      { s with issued := s.issued ++ [⟨s.ref.mSlice, newSlice⟩] }
      (setSlice s.ref newSlice s.issued.length)) := by
  obtain ⟨hexec, hwait, hran, hnumber⟩ := h.settled hmay
  by_cases hfree : s.ref.mRef = 0
  · have hsec : Ref.setSlice s.ref newSlice s.issued.length =
        ({ s.ref with mSlice := newSlice },
          some (s.issued.length, s.ref.mSlice)) := if_pos hfree
    have hnil : s.holders = [] :=
      List.length_eq_zero_iff.mp (h.count.symm.trans hfree)
    rw [hsec]
    refine ⟨h.count, ?_, .left s.issued ⟨s.ref.mSlice, newSlice⟩ rfl ?_ hwait
      hran ?_ rfl⟩
    · intro x hx
      change x ∈ s.holders at hx
      rw [hnil] at hx
      cases hx
    · show s.executing ++ [(s.issued.length, s.ref.mSlice)] = _
      rw [hexec]
      rfl
    · show s.number + 1 = s.issued.length + 1
      rw [hnumber]
  · have hsec : Ref.setSlice s.ref newSlice s.issued.length =
        ({ s.ref with
          mNewSlice := newSlice
          mSetSliceCallback := some s.issued.length }, none) := if_neg hfree
    rw [hsec]
    refine ⟨h.count, h.held, .parked s.issued ⟨s.ref.mSlice, newSlice⟩ rfl
      hexec rfl hran hnumber rfl rfl ?_⟩
    intro hnil
    change s.holders = [] at hnil
    refine hfree (h.count.trans ?_)
    rw [hnil]
    rfl

theorem Inv.callback {s : Sys σ} (h : Inv s) {i : Nat}
    {exec : Nat × Option σ} (hi : s.executing[i]? = some exec) :
    Inv { s with
      executing := s.executing.eraseIdx i
      ran := s.ran ++ [exec] } := by
  refine ⟨h.count, h.held, ?_⟩
  cases h.stage with
  | settled h₁ h₂ h₃ h₄ h₅ =>
      rw [h₁] at hi
      cases hi
  | left done c h₁ h₂ h₃ h₄ h₅ h₆ =>
      rw [h₂] at hi
      obtain ⟨hlt, rfl⟩ := List.getElem?_eq_some_iff.mp hi
      have hzero : i = 0 := Nat.lt_one_iff.mp hlt
      subst hzero
      refine .settled ?_ h₃ ?_ ?_ ?_
      · show s.executing.eraseIdx 0 = []
        rw [h₂]
        rfl
      · show s.ran ++ [(done.length, c.oldSlice)] = logOf s.issued
        rw [h₁, logOf_concat, h₄]
      · show s.number = s.issued.length
        rw [h₁, h₅, List.length_append]
        rfl
      · intro c' hc'
        change s.issued.getLast? = some c' at hc'
        rw [h₁, List.getLast?_concat] at hc'
        cases hc'
        exact h₆
  | parked done c h₁ h₂ h₃ h₄ h₅ h₆ h₇ h₈ =>
      rw [h₂] at hi
      cases hi

/-- **STEP**: every section keeps the invariant. -/
theorem Inv.step {s s' : Sys σ} {e : Event σ} (h : Inv s)
    (hs : step s e = some s') : Inv s' := by
  cases e with
  | aquire =>
      simp only [Ref.step] at hs
      split at hs
      · rename_i hok
        cases hs
        by_cases hcan : s.ref.mSlice.isSome ∧ s.ref.mState = .valid
        · rw [Ref.aquire, if_pos hcan]
          exact h.aquire
        · rw [Ref.aquire, if_neg hcan] at hok
          cases hok
      · cases hs
        exact h
  | release i =>
      simp only [Ref.step] at hs
      split at hs
      · rename_i hi
        cases hs
        exact h.release hi
      · cases hs
  | setSlice newSlice =>
      simp only [Ref.step] at hs
      split at hs
      · rename_i hmay
        cases hs
        exact h.setSlice hmay newSlice
      · cases hs
  | callback i =>
      obtain ⟨exec, hi, rfl⟩ := Option.map_eq_some_iff.mp hs
      exact h.callback hi
  | setState state =>
      cases hs
      exact ⟨h.count, h.held,
        h.stage.congr rfl rfl rfl rfl rfl rfl rfl fun hne => .inl hne⟩

/-! ## Results -/

/-- What is left to run or has run belongs to a slice that nobody holds any
    more. -/
theorem Inv.replaced {s : Sys σ} (h : Inv s) {e : Nat × Option σ}
    (he : e ∈ s.executing ++ s.ran) :
    (∃ c, s.issued[e.1]? = some c ∧ c.oldSlice = e.2) ∧
      ∀ x ∈ s.holders, e.1 < x.number := by
  have hnumber : ∀ n, e.1 < n → s.number = n →
      ∀ x ∈ s.holders, e.1 < x.number := by
    intro n hlt hn x hx
    rw [h.held x hx]
    show e.1 < s.number
    omega
  have hlog : ∀ calls : List (SetCall σ), e ∈ logOf calls →
      e.1 < calls.length := by
    intro calls hmem
    obtain ⟨c, hc, -⟩ := mem_logOf.mp hmem
    exact (List.getElem?_eq_some_iff.mp hc).1
  cases h.stage with
  | settled h₁ h₂ h₃ h₄ h₅ =>
      rw [h₁, h₃, List.nil_append] at he
      exact ⟨mem_logOf.mp he, hnumber _ (hlog _ he) h₄⟩
  | left done c h₁ h₂ h₃ h₄ h₅ h₆ =>
      have hall : e ∈ logOf (done ++ [c]) := by
        rw [h₂, h₄] at he
        rw [logOf_concat, List.mem_append, or_comm]
        exact List.mem_append.mp he
      have hlt := hlog _ hall
      rw [List.length_append] at hlt
      rw [h₁]
      exact ⟨mem_logOf.mp hall, hnumber _ hlt h₅⟩
  | parked done c h₁ h₂ h₃ h₄ h₅ h₆ h₇ h₈ =>
      rw [h₂, h₄, List.nil_append] at he
      have hall : e ∈ logOf (done ++ [c]) := by
        rw [logOf_concat]
        exact List.mem_append_left _ he
      rw [h₁]
      exact ⟨mem_logOf.mp hall, hnumber _ (hlog _ he) h₅⟩

theorem Inv.ran_nodup {s : Sys σ} (h : Inv s) :
    (s.ran.map Prod.fst).Nodup := by
  cases h.stage with
  | settled h₁ h₂ h₃ h₄ h₅ =>
      rw [h₃, fst_logOf]
      exact List.nodup_range
  | left done c h₁ h₂ h₃ h₄ h₅ h₆ =>
      rw [h₄, fst_logOf]
      exact List.nodup_range
  | parked done c h₁ h₂ h₃ h₄ h₅ h₆ h₇ h₈ =>
      rw [h₄, fst_logOf]
      exact List.nodup_range

theorem Inv.quiet {s : Sys σ} (h : Inv s) (hheld : s.holders = [])
    (hexec : s.executing = []) :
    s.ran.map Prod.fst = List.range s.issued.length ∧
      ∀ c, s.issued.getLast? = some c → s.ref.mSlice = c.newSlice := by
  cases h.stage with
  | settled h₁ h₂ h₃ h₄ h₅ =>
      rw [h₃, fst_logOf]
      exact ⟨rfl, h₅⟩
  | left done c h₁ h₂ h₃ h₄ h₅ h₆ =>
      rw [hexec] at h₂
      cases h₂
  | parked done c h₁ h₂ h₃ h₄ h₅ h₆ h₇ h₈ => exact absurd hheld h₈

/-- **SLICE REFERENCES**: in every run nothing changes for those who hold the
    slice, and `mRef` counts them; a callback runs at most once, with the slice
    that was there before its call, when nobody holds it any more; and where
    nobody holds a slice and no callback is left to run, every one has run and
    the last new slice is there. -/
theorem sliceRef_run (slice : Option σ) (es : List (Event σ)) (s : Sys σ)
    (h : runFrom step (Sys.init slice) es = some s) :
    (∀ x ∈ s.holders, x.number = s.number ∧ x.slice = s.ref.mSlice) ∧
    s.ref.mRef = s.holders.length ∧
    (s.ran.map Prod.fst).Nodup ∧
    (∀ e ∈ s.executing ++ s.ran,
      (∃ c, s.issued[e.1]? = some c ∧ c.oldSlice = e.2) ∧
      ∀ x ∈ s.holders, e.1 < x.number) ∧
    (s.holders = [] → s.executing = [] →
      s.ran.map Prod.fst = List.range s.issued.length ∧
      ∀ c, s.issued.getLast? = some c → s.ref.mSlice = c.newSlice) := by
  have hinv : Inv s :=
    runFrom_invariant (fun _ _ _ hI hs => hI.step hs) (Inv.init slice) h
  refine ⟨?_, hinv.count, hinv.ran_nodup, fun e he => hinv.replaced he,
    hinv.quiet⟩
  intro x hx
  rw [hinv.held x hx]
  exact ⟨rfl, rfl⟩

/-- A slice is replaced while two hold it; the second to leave swaps it, and a
    new holder comes before the callback. -/
def parkedSwap : List (Event Nat) :=
  [.aquire, .aquire, .setSlice (some 20), .release 0, .release 0, .aquire,
    .callback 0]

theorem sliceRef_run_parked :
    ∃ s, runFrom step (Sys.init (some 10)) parkedSwap = some s ∧
      s.ran = [(0, some 10)] ∧ s.holders = [⟨1, some 20⟩] ∧
      s.ref.mRef = 1 := by
  have hrun : (runFrom step (Sys.init (some 10)) parkedSwap).any
      (fun s => s.ran = [(0, some 10)] ∧ s.holders = [⟨1, some 20⟩]) = true := by
    decide +kernel
  obtain ⟨s, hs, hall⟩ := (Option.any_eq_true _ _).mp hrun
  obtain ⟨hran, hheld⟩ := of_decide_eq_true hall
  obtain ⟨-, hcount, -⟩ := sliceRef_run (some 10) parkedSwap s hs
  rw [hheld] at hcount
  exact ⟨s, hs, hran, hheld, hcount⟩

end UbsIo.Slices.Ref
