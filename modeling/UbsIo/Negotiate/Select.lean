import UbsIo.Negotiate.Tiers

/-! # The slices of a round

    `GetNegotiateSlice` walks over the cells from `mCurNegotiateIndex` on, array
    after array, and takes the indices whose count is pending.  It counts the
    arrays, but looks up the first one every time.  So it stops where a cell of
    the first array is not pending, whatever the next arrays hold. -/

namespace UbsIo.Negotiate

open UbsIo.Lib

/-! ## The loops -/

/-- A cell that lets its index pass. -/
def isPending (refNum : Nat) : Bool :=
  decide (refNum ≠ invalidRefNum ∧ 0 < refNum)

/-- The inner loop, with the number of cells left: the indices, and whether the
    function returns there. -/
def selectInArray (array : Nat → Nat) (limit indexInMap : Nat) :
    Nat → Nat → List Nat → List Nat × Bool
  | 0, _, indexVec => (indexVec, false)
  | n + 1, indexInArray, indexVec =>
      if isPending (array indexInArray) then
        let indexVec := indexVec ++ [indexInMap * arraySize + indexInArray]
        if indexVec.length = limit then (indexVec, true)
        else selectInArray array limit indexInMap n (indexInArray + 1) indexVec
      else (indexVec, true)

/-- The outer loop, for at most `fuel` arrays. -/
def selectInMap (t : Tier) (limit startIndexInMap : Nat) :
    Nat → Nat → Nat → List Nat → Option (List Nat)
  | 0, _, _, _ => none
  | fuel + 1, indexInMap, startIndexInArray, indexVec =>
      match t.negotiateIndexMap startIndexInMap with
      | none => some indexVec
      | some array =>
          let out := selectInArray array limit indexInMap
            (arraySize - startIndexInArray) startIndexInArray indexVec
          if out.2 then some out.1
          else selectInMap t limit startIndexInMap fuel (indexInMap + 1) 0 out.1

/-- `GetNegotiateSlice`, loop by loop. -/
def selectSlices (t : Tier) (limit fuel : Nat) : Option (List Nat) :=
  selectInMap t limit (t.curNegotiateIndex / arraySize) fuel
    (t.curNegotiateIndex / arraySize) (t.curNegotiateIndex % arraySize) []

/-! ## Runs of indices -/

/-- The indices from `cur` on, up to the first one without `p`, but not more
    than `limit`. -/
def IsRun (p : Nat → Prop) (cur limit : Nat) (indexVec : List Nat) : Prop :=
  ∃ k ≤ limit, indexVec = List.range' cur k ∧ (∀ j < k, p (cur + j)) ∧
    (k < limit → ¬ p (cur + k))

/-- Two conditions agree on every index that a run of the first one looks at. -/
def AgreeAlong (p q : Nat → Prop) (cur limit : Nat) : Prop :=
  ∀ k < limit, (∀ j < k, p (cur + j)) → (q (cur + k) ↔ p (cur + k))

variable {p q : Nat → Prop} {cur limit : Nat} {indexVec : List Nat}

/-- A run of one condition is a run of the other one if and only if they agree
    on what it looks at. -/
theorem isRun_iff (h : IsRun q cur limit indexVec) :
    IsRun p cur limit indexVec ↔ AgreeAlong p q cur limit := by
  obtain ⟨k, hk, hvec, hq, hend⟩ := h
  constructor
  · rintro ⟨k', hk', hvec', hp, hend'⟩ m hm hbefore
    have hlen : k' = k := by
      have hlength := congrArg List.length (hvec'.symm.trans hvec)
      rwa [List.length_range', List.length_range'] at hlength
    subst hlen
    have hle : m ≤ k' := by
      by_contra hlt
      exact hend' (by omega) (hbefore k' (by omega))
    by_cases heq : m = k'
    · subst heq
      exact ⟨fun h => absurd h (hend hm), fun h => absurd h (hend' hm)⟩
    · exact ⟨fun _ => hp m (by omega), fun _ => hq m (by omega)⟩
  · intro hagree
    have hp : ∀ n ≤ k, ∀ j < n, p (cur + j) := by
      intro n
      induction n with
      | zero => exact fun _ _ hj => absurd hj (Nat.not_lt_zero _)
      | succ n ih =>
          intro hn j hj
          have hbefore := ih (by omega)
          rcases Nat.lt_succ_iff_lt_or_eq.mp hj with hj | rfl
          · exact hbefore j hj
          · exact (hagree j (by omega) hbefore).mp (hq j (by omega))
    refine ⟨k, hk, hvec, hp k (Nat.le_refl _), ?_⟩
    intro hlt hpk
    exact hend hlt ((hagree k hlt (hp k (Nat.le_refl _))).mpr hpk)

/-- There is only one run. -/
theorem IsRun.unique {other : List Nat} (h : IsRun p cur limit indexVec)
    (h' : IsRun p cur limit other) : indexVec = other := by
  obtain ⟨k, hk, hvec, hp, hend⟩ := h
  obtain ⟨k', hk', hvec', hp', hend'⟩ := h'
  rcases Nat.lt_trichotomy k k' with hlt | rfl | hlt
  · exact absurd (hp' k hlt) (hend (Nat.lt_of_lt_of_le hlt hk'))
  · rw [hvec, hvec']
  · exact absurd (hp k' hlt) (hend' (Nat.lt_of_lt_of_le hlt hk))

/-- The index is pending in the array that it belongs to. -/
def Tier.Pending (t : Tier) (i : Nat) : Prop :=
  ∃ refNum, t.cell i = some refNum ∧ isPending refNum

/-- The index is pending by the cell at its place in the array of
    `mCurNegotiateIndex`. -/
def Tier.PendingInFirst (t : Tier) (i : Nat) : Prop :=
  ∃ array, t.negotiateIndexMap (t.curNegotiateIndex / arraySize) =
    some array ∧ isPending (array (i % arraySize))

/-! ## What the loops do -/

variable {t : Tier} {array : Nat → Nat}

/-- One array: the run goes on from the next array, or it is over. -/
theorem selectInArray_spec (array : Nat → Nat) (indexInMap : Nat) : ∀ {n indexInArray : Nat} {indexVec : List Nat},
    indexInArray + n = arraySize → indexVec.length < limit →
    ∃ k ≤ n, (selectInArray array limit indexInMap n indexInArray indexVec).1 =
        indexVec ++ List.range' (indexInMap * arraySize + indexInArray) k ∧
      (∀ j < k, isPending (array (indexInArray + j))) ∧
      (if (selectInArray array limit indexInMap n indexInArray indexVec).2 then
        indexVec.length + k = limit ∨
          indexVec.length + k < limit ∧ k < n ∧
            ¬ isPending (array (indexInArray + k))
      else indexVec.length + k < limit ∧ k = n) := by
  intro n
  induction n with
  | zero =>
      intro indexInArray indexVec _ hlen
      refine ⟨0, Nat.le_refl _, (List.append_nil _).symm, nofun, ?_⟩
      exact ⟨hlen, rfl⟩
  | succ n ih =>
      intro indexInArray indexVec hsum hlen
      by_cases hpend : isPending (array indexInArray)
      · by_cases hfull : (indexVec ++
            [indexInMap * arraySize + indexInArray]).length = limit
        · simp only [selectInArray, if_pos hpend, if_pos hfull]
          refine ⟨1, by omega, rfl, ?_, Or.inl ?_⟩
          · intro j hj
            rw [Nat.lt_one_iff.mp hj]
            exact hpend
          · rw [← hfull, List.length_append]
            rfl
        · have hlen' : (indexVec ++
              [indexInMap * arraySize + indexInArray]).length < limit := by
            rw [List.length_append, List.length_singleton] at hfull ⊢
            omega
          obtain ⟨k, hk, hvec, hall, hend⟩ := ih
            (show indexInArray + 1 + n = arraySize by omega) hlen'
          simp only [selectInArray, if_pos hpend, if_neg hfull]
          refine ⟨k + 1, by omega, ?_, ?_, ?_⟩
          · rw [hvec, List.append_assoc, List.range'_succ,
              List.singleton_append, Nat.add_assoc]
          · intro j hj
            cases j with
            | zero => exact hpend
            | succ j =>
                have hj := hall j (by omega)
                rwa [Nat.add_right_comm, Nat.add_assoc] at hj
          · rw [List.length_append, List.length_singleton] at hend
            rw [show indexInArray + (k + 1) = indexInArray + 1 + k by omega]
            split at hend
            · rename_i hout
              rw [if_pos hout]
              rcases hend with hend | ⟨hlt, hkn, hnot⟩
              · exact Or.inl (by omega)
              · exact Or.inr ⟨by omega, by omega, hnot⟩
            · rename_i hout
              rw [if_neg hout]
              exact ⟨by omega, by omega⟩
      · simp only [selectInArray, if_neg hpend]
        refine ⟨0, Nat.zero_le _, (List.append_nil _).symm, nofun, Or.inr ?_⟩
        exact ⟨by omega, by omega, hpend⟩

/-- The outer loop: with enough arrays it ends, and what it adds is a run by the
    cells of one array. -/
theorem selectInMap_spec
    (harray : t.negotiateIndexMap (t.curNegotiateIndex / arraySize) =
      some array) : ∀ {fuel indexInMap indexInArray : Nat}
    {indexVec : List Nat}, indexInArray < arraySize →
    indexVec.length < limit → limit - indexVec.length ≤ fuel →
    ∃ k ≤ limit - indexVec.length,
      selectInMap t limit (t.curNegotiateIndex / arraySize) fuel indexInMap
          indexInArray indexVec =
        some (indexVec ++
          List.range' (indexInMap * arraySize + indexInArray) k) ∧
      (∀ j < k, isPending (array ((indexInArray + j) % arraySize))) ∧
      (k < limit - indexVec.length →
        ¬ isPending (array ((indexInArray + k) % arraySize))) := by
  intro fuel
  induction fuel with
  | zero => intro _ _ _ _ hlen hfuel; omega
  | succ fuel ih =>
      intro indexInMap indexInArray indexVec hin hlen hfuel
      obtain ⟨k, hk, hvec, hall, hend⟩ := selectInArray_spec array
        indexInMap (Nat.add_sub_cancel' (Nat.le_of_lt hin)) hlen
      have hcells : ∀ j < k,
          isPending (array ((indexInArray + j) % arraySize)) := by
        intro j hj
        rw [Nat.mod_eq_of_lt (by omega)]
        exact hall j hj
      simp only [selectInMap, harray]
      split
      · rename_i hout
        rw [if_pos hout] at hend
        refine ⟨k, ?_, by rw [hvec], hcells, ?_⟩
        · rcases hend with hend | hend <;> omega
        · intro hlt
          rcases hend with hend | ⟨-, hkn, hnot⟩
          · omega
          · rw [Nat.mod_eq_of_lt (by omega)]
            exact hnot
      · -- the array is used up, and the next round reads it again
        rename_i hout
        rw [if_neg hout] at hend
        obtain ⟨hlt, hkn⟩ := hend
        have hlen' : (indexVec ++ List.range'
            (indexInMap * arraySize + indexInArray) k).length =
            indexVec.length + k := by
          rw [List.length_append, List.length_range']
        have hwhole : indexInMap * arraySize + indexInArray + k =
            (indexInMap + 1) * arraySize + 0 := by
          rw [Nat.succ_mul]
          omega
        have hshift : ∀ j, (indexInArray + (k + j)) % arraySize =
            (0 + j) % arraySize := by
          intro j
          rw [show indexInArray + (k + j) = 0 + j + arraySize by omega,
            Nat.add_mod_right]
        obtain ⟨k', hk', hsel, hall', hend'⟩ := ih
          (show 0 < arraySize by decide)
          (show _ < limit by rw [hlen']; exact hlt)
          (show limit - _ ≤ fuel by rw [hlen']; omega)
        rw [hlen'] at hk' hend'
        rw [hvec]
        refine ⟨k + k', by omega, ?_, ?_, ?_⟩
        · rw [hsel, List.append_assoc, ← hwhole, List.range'_append_1]
        · intro j hj
          by_cases hjk : j < k
          · exact hcells j hjk
          · have hj' := hall' (j - k) (by omega)
            rw [← hshift, Nat.add_sub_cancel' (Nat.not_lt.mp hjk)] at hj'
            exact hj'
        · intro hlt'
          rw [hshift]
          exact hend' (by omega)

/-- **WHAT IS SELECTED** is a run by the cells of the first array. -/
theorem selectSlices_spec (hlimit : 1 ≤ limit) {fuel : Nat}
    (hfuel : limit ≤ fuel) :
    ∃ indexVec, selectSlices t limit fuel = some indexVec ∧
      IsRun t.PendingInFirst t.curNegotiateIndex limit indexVec := by
  rw [selectSlices]
  cases harray : t.negotiateIndexMap (t.curNegotiateIndex / arraySize) with
  | none =>
      refine ⟨[], ?_, 0, Nat.zero_le _, rfl, nofun, ?_⟩
      · cases fuel with
        | zero => omega
        | succ fuel => simp only [selectInMap, harray]
      · rintro _ ⟨array, h, -⟩
        rw [harray] at h
        cases h
  | some array =>
      have hcur : t.curNegotiateIndex / arraySize * arraySize +
          t.curNegotiateIndex % arraySize = t.curNegotiateIndex :=
        Nat.div_add_mod' ..
      have hcell : ∀ j, (t.curNegotiateIndex % arraySize + j) % arraySize =
          (t.curNegotiateIndex + j) % arraySize := fun j => Nat.mod_add_mod ..
      obtain ⟨k, hk, hsel, hall, hend⟩ := selectInMap_spec harray
        (Nat.mod_lt t.curNegotiateIndex (by decide)) hlimit
        (show limit - ([] : List Nat).length ≤ fuel from hfuel)
      rw [hcur] at hsel
      refine ⟨_, hsel, k, hk, rfl, ?_, ?_⟩
      · intro j hj
        have hj := hall j hj
        rw [hcell] at hj
        exact ⟨array, harray, hj⟩
      · rintro hlt ⟨array', harray', hpend⟩
        rw [harray] at harray'
        cases harray'
        have hnot := hend hlt
        rw [hcell] at hnot
        exact hnot hpend

/-- The rounds of the copies are made of these calls. -/
theorem negotiateSliceFrom_spec (array : Nat → Nat) :
    ∀ {limit : Nat} (indexInMap : Nat) {indexInArray : Nat},
    indexInArray < arraySize →
    ∃ k ≤ limit, negotiateSliceFrom array limit indexInMap indexInArray =
        List.range' (indexInMap * arraySize + indexInArray) k ∧
      (∀ j < k, isPending (array ((indexInArray + j) % arraySize))) ∧
      (k < limit →
        ¬ isPending (array ((indexInArray + k) % arraySize))) := by
  intro limit
  induction limit with
  | zero =>
      intro indexInMap indexInArray _
      exact ⟨0, Nat.le_refl _, rfl, nofun, nofun⟩
  | succ limit ih =>
      intro indexInMap indexInArray hin
      by_cases hpend : isPending (array indexInArray)
      · have hcond := of_decide_eq_true hpend
        -- the next cell, in this array or at the front of the same one again
        obtain ⟨m, i, hi, hnext, hmod, heq⟩ : ∃ m i, i < arraySize ∧
            m * arraySize + i = indexInMap * arraySize + indexInArray + 1 ∧
            (∀ j, (i + j) % arraySize =
              (indexInArray + (j + 1)) % arraySize) ∧
            negotiateSliceFrom array (limit + 1) indexInMap indexInArray =
              (indexInMap * arraySize + indexInArray) ::
                negotiateSliceFrom array limit m i := by
          by_cases hlast : indexInArray + 1 < arraySize
          · refine ⟨indexInMap, indexInArray + 1, hlast, ?_, ?_, ?_⟩
            · rw [Nat.add_assoc]
            · intro j
              rw [Nat.add_assoc, Nat.add_comm 1]
            · rw [negotiateSliceFrom, if_pos hcond, if_pos hlast]
          · refine ⟨indexInMap + 1, 0, by decide, ?_, ?_, ?_⟩
            · rw [Nat.succ_mul]
              omega
            · intro j
              rw [show indexInArray + (j + 1) = 0 + j + arraySize by omega,
                Nat.add_mod_right]
            · rw [negotiateSliceFrom, if_pos hcond, if_neg hlast]
        obtain ⟨k, hk, hrest, hall, hend⟩ := ih m hi
        refine ⟨k + 1, by omega, ?_, ?_, ?_⟩
        · rw [heq, hrest, List.range'_succ, hnext]
        · intro j hj
          cases j with
          | zero => rwa [Nat.add_zero, Nat.mod_eq_of_lt hin]
          | succ j =>
              rw [← hmod]
              exact hall j (by omega)
        · intro hlt
          rw [← hmod]
          exact hend (by omega)
      · refine ⟨0, Nat.zero_le _, ?_, nofun, ?_⟩
        · rw [negotiateSliceFrom,
            if_neg fun h => hpend (decide_eq_true h)]
          rfl
        · intro _
          rwa [Nat.add_zero, Nat.mod_eq_of_lt hin]

/-- What the copies ask for is what the loops select. -/
theorem selectSlices_eq (t : Tier) {limit fuel : Nat} (hlimit : 1 ≤ limit)
    (hfuel : limit ≤ fuel) :
    selectSlices t limit fuel = some (getNegotiateSlice t limit) := by
  obtain ⟨indexVec, hsel, hrun⟩ := selectSlices_spec (t := t) hlimit hfuel
  have hslice : IsRun t.PendingInFirst t.curNegotiateIndex limit
      (getNegotiateSlice t limit) := by
    rw [getNegotiateSlice]
    cases harray : t.negotiateIndexMap (t.curNegotiateIndex / arraySize) with
    | none =>
        refine ⟨0, Nat.zero_le _, rfl, ?_, ?_⟩
        · intro j hj
          exact absurd hj (Nat.not_lt_zero j)
        rintro _ ⟨array, h, -⟩
        rw [harray] at h
        cases h
    | some array =>
        obtain ⟨k, hk, heq, hall, hend⟩ := negotiateSliceFrom_spec array
          (t.curNegotiateIndex / arraySize) (Nat.mod_lt t.curNegotiateIndex (by decide))
        refine ⟨k, hk, ?_, ?_, ?_⟩
        · dsimp only
          rw [heq, Nat.div_add_mod']
        · intro j hj
          have hj := hall j hj
          rw [Nat.mod_add_mod] at hj
          exact ⟨array, harray, hj⟩
        · rintro hlt ⟨array', harray', hpend⟩
          rw [harray] at harray'
          cases harray'
          have hnot := hend hlt
          rw [Nat.mod_add_mod] at hnot
          exact hnot hpend
  rw [hsel, hrun.unique hslice]

/-- **NEGOTIATION BATCHES**: `GetNegotiateSlice` returns, and what it returns is
    the run of the pending indices if and only if the cells of the first array
    are pending where those of the right arrays are, as far as the run looks. -/
theorem selectSlices_iff (t : Tier) {limit fuel : Nat} (hlimit : 1 ≤ limit)
    (hfuel : limit ≤ fuel) :
    ∃ indexVec, selectSlices t limit fuel = some indexVec ∧
      (IsRun t.Pending t.curNegotiateIndex limit indexVec ↔
        AgreeAlong t.Pending t.PendingInFirst t.curNegotiateIndex limit) := by
  obtain ⟨indexVec, hsel, hrun⟩ := selectSlices_spec (t := t) hlimit hfuel
  exact ⟨indexVec, hsel, isRun_iff hrun⟩

/-- A batch that stays in the first array is right. -/
theorem agreeAlong_of_le
    (h : t.curNegotiateIndex % arraySize + limit ≤ arraySize) :
    AgreeAlong t.Pending t.PendingInFirst t.curNegotiateIndex limit := by
  intro k hk _
  have hdiv : (t.curNegotiateIndex + k) / arraySize =
      t.curNegotiateIndex / arraySize := by
    rw [arraySize] at h ⊢
    omega
  rw [Tier.PendingInFirst, Tier.Pending, Tier.cell, hdiv]
  cases t.negotiateIndexMap (t.curNegotiateIndex / arraySize) with
  | none => simp
  | some array => simp

/-- The last cell of an array and the first one of the next array. -/
def acrossArrays : Tier :=
  { addEvictNegotiateIndexMap (addEvictNegotiateIndexMap Tier.init 255 1) 256 1
    with curNegotiateIndex := 255 }

/-- The batch ends with the array, though the next index is pending. -/
theorem next_array_not_selected :
    ∃ indexVec, selectSlices acrossArrays maxEvictConsultSize
        maxEvictConsultSize = some indexVec ∧
      ¬ IsRun acrossArrays.Pending acrossArrays.curNegotiateIndex
        maxEvictConsultSize indexVec := by
  refine ⟨[255], by decide, ?_⟩
  rintro ⟨k, -, hvec, -, hend⟩
  have hk : k = 1 := (List.length_range' ..).symm.trans
    (congrArg List.length hvec).symm
  subst hk
  exact hend (by decide) ⟨1, by decide, by decide⟩

/-- Two pending indices inside of an array. -/
def insideArray : Tier :=
  { addEvictNegotiateIndexMap (addEvictNegotiateIndexMap Tier.init 3 1) 4 2
    with curNegotiateIndex := 3 }

theorem selectSlices_iff_insideArray :
    selectSlices insideArray 50 50 = some [3, 4] ∧
      IsRun insideArray.Pending 3 50 [3, 4] := by
  have hsel : selectSlices insideArray 50 50 = some [3, 4] := by decide
  obtain ⟨indexVec, hvec, hiff⟩ := selectSlices_iff insideArray
    (show 1 ≤ 50 by decide) (Nat.le_refl 50)
  cases hsel.symm.trans hvec
  exact ⟨hsel, hiff.mpr (agreeAlong_of_le (by decide))⟩

end UbsIo.Negotiate
