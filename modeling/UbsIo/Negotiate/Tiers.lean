import UbsIo.Negotiate.Model

/-! # The tiers of the negotiation

    What one call does to the cells of a tier, and what holds of the tier of a
    slave: the cells before `mCurNegotiateIndex` are done, those of the held
    slices from there on are `1`. -/

namespace UbsIo.Negotiate

open UbsIo.Lib

variable {t t' : Tier} {i k v n : Nat}

/-- The cell of an index, if its array is there. -/
def Tier.cell (t : Tier) (i : Nat) : Option Nat :=
  (t.negotiateIndexMap (i / arraySize)).map fun array => array (i % arraySize)

theorem index_eq {i k : Nat} (hdiv : i / arraySize = k / arraySize)
    (hmod : i % arraySize = k % arraySize) : i = k := by
  rw [← Nat.div_add_mod i arraySize, hdiv, hmod, Nat.div_add_mod]

theorem decRefNum_pos (hpos : 0 < v) (hlt : v < 256) :
    decRefNum v = v - 1 := by
  rw [decRefNum]
  omega

/-! ## Adding -/

theorem cell_add_self (t : Tier) (i refNum : Nat) :
    (addEvictNegotiateIndexMap t i refNum).cell i = some refNum := by
  simp only [Tier.cell, addEvictNegotiateIndexMap, Function.update_self,
    Option.map_some]

/-- A new array is filled with invalid cells; the others stay. -/
theorem cell_add_ne (t : Tier) {i k : Nat} (refNum : Nat) (hk : k ≠ i) :
    (addEvictNegotiateIndexMap t i refNum).cell k = t.cell k ∨
      t.cell k = none ∧ k / arraySize = i / arraySize ∧
        (addEvictNegotiateIndexMap t i refNum).cell k = some invalidRefNum := by
  by_cases hdiv : k / arraySize = i / arraySize
  · have hmod : k % arraySize ≠ i % arraySize := fun h => hk (index_eq hdiv h)
    simp only [Tier.cell, addEvictNegotiateIndexMap, hdiv,
      Function.update_self, Option.map_some, Function.update_of_ne hmod]
    cases t.negotiateIndexMap (i / arraySize) with
    | none => exact Or.inr ⟨rfl, trivial, rfl⟩
    | some array => exact Or.inl rfl
  · left
    simp only [Tier.cell, addEvictNegotiateIndexMap,
      Function.update_of_ne hdiv]

/-! ## `UpdateNegotiateState` -/

/-- What a decrement of a cell with value `v` does. -/
structure Updated (t t' : Tier) (i v : Nat) : Prop where
  cells : ∀ k, t'.cell k =
    if i % arraySize = arraySize - 1 ∧ k / arraySize = i / arraySize then none
    else if k = i then some (decRefNum v) else t.cell k
  queue : ∀ k, k ∈ t'.evictSliceQueue ↔ k ∈ t.evictSliceQueue ∨
    k = i ∧ decRefNum v = 0 ∧ i ∈ t.evictNegotiateMap
  map : ∀ k, k ∈ t'.evictNegotiateMap ↔ k ∈ t.evictNegotiateMap ∧
    ¬(k = i ∧ decRefNum v = 0)
  cur : t'.curNegotiateIndex =
    if decRefNum v = 0 then min t.curNegotiateIndex i + 1
    else t.curNegotiateIndex
  added : t'.added = t.added
  held : t'.held = t.held

theorem mem_moveToQueue_queue (t : Tier) (i k : Nat) :
    k ∈ (moveToQueue t i).evictSliceQueue ↔ k ∈ t.evictSliceQueue ∨
      k = i ∧ i ∈ t.evictNegotiateMap := by
  simp only [moveToQueue, evictNegotiateMapToQueue]
  split
  · rename_i hi
    simp only [List.mem_append, List.mem_singleton, hi, and_true]
  · rename_i hi
    simp only [hi, and_false, or_false]

theorem mem_moveToQueue_map (t : Tier) (i k : Nat) :
    k ∈ (moveToQueue t i).evictNegotiateMap ↔
      k ∈ t.evictNegotiateMap ∧ k ≠ i := by
  simp only [moveToQueue, evictNegotiateMapToQueue]
  split
  · simp only [List.mem_filter, decide_eq_true_eq]
  · rename_i hi
    constructor
    · intro hk
      refine ⟨hk, ?_⟩
      rintro rfl
      exact hi hk
    · exact And.left

theorem moveToQueue_indexMap (t : Tier) (i : Nat) :
    (moveToQueue t i).negotiateIndexMap = t.negotiateIndexMap := by
  simp only [moveToQueue, evictNegotiateMapToQueue]
  split
  · rfl
  · rfl

theorem moveToQueue_ghosts (t : Tier) (i : Nat) :
    (moveToQueue t i).added = t.added ∧ (moveToQueue t i).held = t.held := by
  simp only [moveToQueue, evictNegotiateMapToQueue]
  split
  · exact ⟨rfl, rfl⟩
  · exact ⟨rfl, rfl⟩

/-- The last cell of an array takes the array with it. -/
theorem cell_delEvictIndexArray (t : Tier) (i k : Nat) :
    (delEvictIndexArray t i).cell k =
      if i % arraySize = arraySize - 1 ∧ k / arraySize = i / arraySize then
        none
      else t.cell k := by
  rw [delEvictIndexArray]
  by_cases hlast : i % arraySize = arraySize - 1
  · rw [if_pos hlast]
    by_cases hdiv : k / arraySize = i / arraySize
    · rw [if_pos ⟨hlast, hdiv⟩, Tier.cell]
      simp only [hdiv, Function.update_self, Option.map_none]
    · rw [if_neg fun h => hdiv h.2, Tier.cell]
      simp only [Function.update_of_ne hdiv]
      rfl
  · rw [if_neg hlast, if_neg fun h => hlast h.1]

theorem delEvictIndexArray_others (t : Tier) (i : Nat) :
    (delEvictIndexArray t i).evictSliceQueue = t.evictSliceQueue ∧
    (delEvictIndexArray t i).evictNegotiateMap = t.evictNegotiateMap ∧
    (delEvictIndexArray t i).curNegotiateIndex = t.curNegotiateIndex ∧
    (delEvictIndexArray t i).added = t.added ∧
    (delEvictIndexArray t i).held = t.held := by
  rw [delEvictIndexArray]
  split
  · exact ⟨rfl, rfl, rfl, rfl, rfl⟩
  · exact ⟨rfl, rfl, rfl, rfl, rfl⟩

/-- **A VALID CELL** is decremented. -/
theorem update_of_cell (hcell : t.cell i = some v) (hv : v ≠ invalidRefNum) :
    ∃ t', updateNegotiateState t i = some t' ∧ Updated t t' i v := by
  obtain ⟨array, harray, hget⟩ := Option.map_eq_some_iff.mp hcell
  have hvalid : array (i % arraySize) ≠ invalidRefNum := by
    rw [hget]
    exact hv
  -- the tier after the decrement
  have hdec : ∀ k, (if k = i then some (decRefNum v) else t.cell k) =
      (Tier.cell { t with
        negotiateIndexMap := Function.update t.negotiateIndexMap
          (i / arraySize)
          (some (Function.update array (i % arraySize) (decRefNum v))) } k) := by
    intro k
    by_cases hk : k = i
    · subst hk
      rw [if_pos rfl]
      simp only [Tier.cell, Function.update_self, Option.map_some]
    · rw [if_neg hk]
      by_cases hdiv : k / arraySize = i / arraySize
      · have hmod : k % arraySize ≠ i % arraySize :=
          fun h => hk (index_eq hdiv h)
        simp only [Tier.cell, hdiv, harray, Function.update_self,
          Option.map_some, Function.update_of_ne hmod]
      · simp only [Tier.cell, Function.update_of_ne hdiv]
  refine ⟨_, by rw [updateNegotiateState, harray]; exact if_neg hvalid, ?_⟩
  rw [hget]
  refine ⟨?_, ?_, ?_, ?_, ?_, ?_⟩
  · intro k
    rw [cell_delEvictIndexArray, hdec k]
    congr 1
    split
    · rw [Tier.cell, moveToQueue_indexMap]
      rfl
    · rfl
  · intro k
    rw [(delEvictIndexArray_others _ i).1]
    split
    · rename_i hzero
      rw [mem_moveToQueue_queue, hzero]
      simp only [true_and]
    · rename_i hzero
      simp only [hzero, false_and, and_false, or_false]
  · intro k
    rw [(delEvictIndexArray_others _ i).2.1]
    split
    · rename_i hzero
      rw [mem_moveToQueue_map, hzero]
      simp only [and_true, ne_eq]
    · rename_i hzero
      simp only [hzero, and_false, not_false_eq_true, and_true]
  · rw [(delEvictIndexArray_others _ i).2.2.1]
    split
    · rfl
    · rfl
  · rw [(delEvictIndexArray_others _ i).2.2.2.1]
    split
    · exact (moveToQueue_ghosts _ i).1
    · rfl
  · rw [(delEvictIndexArray_others _ i).2.2.2.2]
    split
    · exact (moveToQueue_ghosts _ i).2
    · rfl

/-- Without a valid cell nothing happens. -/
theorem cell_of_update (h : updateNegotiateState t i = some t') :
    ∃ v, t.cell i = some v ∧ v ≠ invalidRefNum ∧ Updated t t' i v := by
  cases hcell : t.cell i with
  | none =>
      rw [Tier.cell, Option.map_eq_none_iff] at hcell
      rw [updateNegotiateState, hcell] at h
      exact nomatch h
  | some v =>
      by_cases hv : v = invalidRefNum
      · obtain ⟨array, harray, hget⟩ := Option.map_eq_some_iff.mp hcell
        rw [updateNegotiateState, harray] at h
        simp only [hget, hv, if_true] at h
        exact nomatch h
      · obtain ⟨t'', ht, hup⟩ := update_of_cell hcell hv
        rw [h] at ht
        rw [Option.some.inj ht]
        exact ⟨v, rfl, hv, hup⟩

/-! ## The tier of a slave -/

/-- What holds of the tier of a slave at all times. -/
structure SlaveTier (t : Tier) : Prop where
  done : ∀ i < t.curNegotiateIndex,
    i / arraySize = t.curNegotiateIndex / arraySize → t.cell i = some 0
  ready : ∀ i ∈ t.held, t.curNegotiateIndex ≤ i → t.cell i = some 1
  free : ∀ i, i ∉ t.held → t.cell i = none ∨ t.cell i = some invalidRefNum
  passed : ∀ i < t.curNegotiateIndex, i ∈ t.held
  queue : ∀ i, i ∈ t.evictSliceQueue ↔ i < t.curNegotiateIndex
  map : ∀ i ∈ t.added, t.curNegotiateIndex ≤ i → i ∈ t.evictNegotiateMap
  added : ∀ i ∈ t.held, i ∈ t.added

theorem SlaveTier.addMap (h : SlaveTier t) (i : Nat) :
    SlaveTier (addEvictNegotiateMap t i) := by
  refine ⟨h.done, h.ready, h.free, h.passed, h.queue, ?_, ?_⟩
  · intro k hk hcur
    rcases List.mem_append.mp hk with hk | hk
    · exact List.mem_append_left _ (h.map k hk hcur)
    · exact List.mem_append_right _ hk
  · intro k hk
    exact List.mem_append_left _ (h.added k hk)

theorem SlaveTier.addIndexMap (h : SlaveTier t) (hadded : i ∈ t.added)
    (hheld : i ∉ t.held) : SlaveTier (addEvictNegotiateIndexMap t i 1) := by
  have hmem : ∀ k, k ∈ t.held → k ≠ i := by
    rintro k hk rfl
    exact hheld hk
  -- a cell that has a value keeps it
  have hkeep : ∀ k v, k ≠ i → t.cell k = some v →
      (addEvictNegotiateIndexMap t i 1).cell k = some v := by
    intro k v hk hv
    rcases cell_add_ne t 1 hk with heq | ⟨hnone, -⟩
    · rw [heq, hv]
    · rw [hv] at hnone
      exact nomatch hnone
  refine ⟨?_, ?_, ?_, ?_, h.queue, h.map, ?_⟩
  · intro k hk hdiv
    exact hkeep k 0 (hmem k (h.passed k hk)) (h.done k hk hdiv)
  · intro k hk hcur
    rcases List.mem_append.mp hk with hk | hk
    · exact hkeep k 1 (hmem k hk) (h.ready k hk hcur)
    · rw [List.mem_singleton.mp hk]
      exact cell_add_self t i 1
  · intro k hk
    have hne : k ≠ i := by
      rintro rfl
      exact hk (List.mem_append_right _ (List.mem_singleton_self k))
    rcases cell_add_ne t 1 hne with heq | ⟨-, -, hnew⟩
    · rw [heq]
      exact h.free k fun hin => hk (List.mem_append_left _ hin)
    · exact Or.inr hnew
  · intro k hk
    exact List.mem_append_left _ (h.passed k hk)
  · intro k hk
    rcases List.mem_append.mp hk with hk | hk
    · exact h.added k hk
    · rw [List.mem_singleton.mp hk]
      exact hadded

/-- A slave moves the slice that is next. -/
theorem SlaveTier.apply (h : SlaveTier t)
    (hheld : t.curNegotiateIndex ∈ t.held) :
    ∃ t', updateNegotiateState t t.curNegotiateIndex = some t' ∧
      SlaveTier t' ∧ t'.curNegotiateIndex = t.curNegotiateIndex + 1 ∧
      t'.held = t.held ∧ t'.added = t.added := by
  have hcell := h.ready _ hheld (Nat.le_refl _)
  obtain ⟨t', ht, hup⟩ := update_of_cell hcell (by decide)
  have hcur : t'.curNegotiateIndex = t.curNegotiateIndex + 1 := by
    rw [hup.cur, if_pos (show decRefNum 1 = 0 from rfl), Nat.min_self]
  have hmap := h.map _ (h.added _ hheld) (Nat.le_refl _)
  -- what the last cell takes with it lies before the next index
  have hgone : ∀ k, t.curNegotiateIndex % arraySize = arraySize - 1 →
      k / arraySize = t.curNegotiateIndex / arraySize →
      k / arraySize < (t.curNegotiateIndex + 1) / arraySize := by
    intro k hlast hdiv
    rw [hdiv]
    simp only [arraySize] at hlast ⊢
    omega
  refine ⟨t', ht, ⟨?_, ?_, ?_, ?_, ?_, ?_, ?_⟩, hcur, hup.held, hup.added⟩
  · intro k hk hdiv
    rw [hcur] at hk hdiv
    rw [hup.cells]
    split
    · rename_i hlast
      exact absurd hdiv (Nat.ne_of_lt (hgone k hlast.1 hlast.2))
    · rename_i hlast
      split
      · rfl
      · rename_i hne
        have hlt : k < t.curNegotiateIndex := by omega
        refine h.done k hlt ?_
        simp only [arraySize] at hdiv hlast ⊢
        omega
  · intro k hk hle
    rw [hup.held] at hk
    rw [hcur] at hle
    rw [hup.cells]
    split
    · rename_i hlast
      have hlt := hgone k hlast.1 hlast.2
      have hmono := Nat.div_le_div_right (c := arraySize) hle
      exact absurd hlt (Nat.not_lt_of_le hmono)
    · rw [if_neg (by omega)]
      exact h.ready k hk (by omega)
  · intro k hk
    rw [hup.held] at hk
    rw [hup.cells]
    split
    · exact Or.inl rfl
    · have hne : k ≠ t.curNegotiateIndex := by
        rintro rfl
        exact hk hheld
      rw [if_neg hne]
      exact h.free k hk
  · intro k hk
    rw [hup.held]
    rw [hcur] at hk
    rcases Nat.lt_succ_iff_lt_or_eq.mp hk with hk | rfl
    · exact h.passed k hk
    · exact hheld
  · intro k
    rw [hup.queue, hcur, Nat.lt_succ_iff_lt_or_eq, h.queue k]
    constructor
    · rintro (hk | ⟨hk, -⟩)
      · exact Or.inl hk
      · exact Or.inr hk
    · rintro (hk | hk)
      · exact Or.inl hk
      · exact Or.inr ⟨hk, rfl, hmap⟩
  · intro k hk hle
    rw [hup.added] at hk
    rw [hcur] at hle
    exact (hup.map k).mpr ⟨h.map k hk (by omega), fun heq => by omega⟩
  · intro k hk
    rw [hup.held] at hk
    rw [hup.added]
    exact h.added k hk

/-! ## `GetNegotiateSlice` -/

theorem SlaveTier.sliceFrom {array : Nat → Nat} (h : SlaveTier t)
    (harray : t.negotiateIndexMap (t.curNegotiateIndex / arraySize) =
      some array) :
    ∀ {limit col : Nat}, col < arraySize →
      t.curNegotiateIndex % arraySize ≤ col →
      limit + (col - t.curNegotiateIndex % arraySize) ≤
        maxEvictConsultSize →
      ∃ len, negotiateSliceFrom array limit
          (t.curNegotiateIndex / arraySize) col =
        List.range' (t.curNegotiateIndex / arraySize * arraySize + col) len ∧
        ∀ k < len, t.curNegotiateIndex / arraySize * arraySize + col + k ∈
          t.held := by
  -- the cells of the array
  have hcells : ∀ col < arraySize, t.cell
      (t.curNegotiateIndex / arraySize * arraySize + col) =
        some (array col) := by
    intro col hcol
    have hdiv : (t.curNegotiateIndex / arraySize * arraySize + col) /
        arraySize = t.curNegotiateIndex / arraySize := by
      rw [Nat.mul_comm, Nat.mul_add_div (by decide), Nat.div_eq_of_lt hcol,
        Nat.add_zero]
    have hmod : (t.curNegotiateIndex / arraySize * arraySize + col) %
        arraySize = col := by
      rw [Nat.mul_comm, Nat.mul_add_mod, Nat.mod_eq_of_lt hcol]
    rw [Tier.cell, hdiv, hmod, harray]
    rfl
  intro limit
  induction limit with
  | zero => intro col _ _ _; exact ⟨0, rfl, nofun⟩
  | succ limit ih =>
      intro col hcol hle hlimit
      rw [negotiateSliceFrom]
      split
      · rename_i hvalid
        have hheld : t.curNegotiateIndex / arraySize * arraySize + col ∈
            t.held := by
          by_contra hnot
          rcases h.free _ hnot with hc | hc
          · rw [hcells col hcol] at hc
            exact nomatch hc
          · rw [hcells col hcol] at hc
            exact hvalid.1 (Option.some.inj hc)
        split
        · rename_i hnext
          obtain ⟨len, hlen, hall⟩ := ih hnext (Nat.le_succ_of_le hle)
            (by omega)
          refine ⟨len + 1, ?_, ?_⟩
          · rw [hlen, List.range'_succ, Nat.add_assoc]
          · intro k hk
            cases k with
            | zero =>
                rw [Nat.add_zero]
                exact hheld
            | succ k =>
                have hin := hall k (by omega)
                rw [Nat.add_assoc, Nat.add_assoc, Nat.add_comm 1 k] at hin
                rw [Nat.add_assoc]
                exact hin
        · rename_i hlast
          -- the array is looked at from its start again: that is done
          have hempty : negotiateSliceFrom array limit
              (t.curNegotiateIndex / arraySize + 1) 0 = [] := by
            cases limit with
            | zero => rfl
            | succ limit =>
                have hpos : 0 < t.curNegotiateIndex % arraySize := by
                  simp only [arraySize, maxEvictConsultSize] at *
                  omega
                have hzero : array 0 = 0 := by
                  have hcell := hcells 0 (by decide)
                  rw [Nat.add_zero, h.done _ (by
                    have hdiv := Nat.div_add_mod t.curNegotiateIndex arraySize
                    rw [Nat.mul_comm] at hdiv
                    omega) (Nat.mul_div_cancel _ (by decide))] at hcell
                  exact (Option.some.inj hcell).symm
                rw [negotiateSliceFrom, hzero]
                exact if_neg fun hc => Nat.lt_irrefl 0 hc.2
          refine ⟨1, ?_, ?_⟩
          · rw [hempty]
            rfl
          · intro k hk
            obtain rfl : k = 0 := by omega
            rw [Nat.add_zero]
            exact hheld
      · exact ⟨0, rfl, nofun⟩

/-- **THE SLICES OF A ROUND** are the next ones, as far as they are held. -/
theorem SlaveTier.getNegotiateSlice (h : SlaveTier t) :
    ∃ len, getNegotiateSlice t maxEvictConsultSize =
        List.range' t.curNegotiateIndex len ∧
      (∀ k < len, t.curNegotiateIndex + k ∈ t.held) ∧
      (t.curNegotiateIndex ∈ t.held → 0 < len) := by
  have hstart : t.curNegotiateIndex / arraySize * arraySize +
      t.curNegotiateIndex % arraySize = t.curNegotiateIndex := by
    rw [Nat.mul_comm, Nat.div_add_mod]
  have hmod : t.curNegotiateIndex % arraySize < arraySize :=
    Nat.mod_lt _ (by decide)
  cases harray : t.negotiateIndexMap (t.curNegotiateIndex / arraySize) with
  | none =>
      refine ⟨0, by rw [Negotiate.getNegotiateSlice, harray]; rfl, nofun, ?_⟩
      intro hheld
      have hcell := h.ready _ hheld (Nat.le_refl _)
      rw [Tier.cell, harray] at hcell
      exact nomatch hcell
  | some array =>
      have hfit : maxEvictConsultSize + (t.curNegotiateIndex % arraySize -
          t.curNegotiateIndex % arraySize) ≤ maxEvictConsultSize := by
        omega
      obtain ⟨len, hlen, hall⟩ := h.sliceFrom harray hmod (Nat.le_refl _) hfit
      rw [hstart] at hlen hall
      refine ⟨len, by rw [Negotiate.getNegotiateSlice, harray]; exact hlen,
        hall, ?_⟩
      intro hheld
      have hcell := h.ready _ hheld (Nat.le_refl _)
      rw [Tier.cell, harray] at hcell
      have hone : array (t.curNegotiateIndex % arraySize) = 1 :=
        Option.some.inj hcell
      refine Nat.pos_of_ne_zero ?_
      rintro rfl
      rw [maxEvictConsultSize, negotiateSliceFrom, hone,
        if_pos ⟨by decide, Nat.one_pos⟩] at hlen
      exact nomatch hlen

end UbsIo.Negotiate
