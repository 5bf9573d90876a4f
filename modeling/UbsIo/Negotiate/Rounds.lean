import UbsIo.Negotiate.Tiers

/-! # Rounds of the negotiation

    `front u` is the first index for which the master has not confirmed slave
    `u`, or has confirmed it in a response that got lost.  The cell of an index
    on the master is the number of slaves with their front at or before it:
    as long as no response for that index has been lost.  A lost response costs
    one decrement, and the 8 bits of a cell stand exactly one: the last slave
    finds `0` and leaves `255`.

    `Negotiating` is the invariant of the protocol; `Confirms` are the steps
    that keep it. -/

namespace UbsIo.Negotiate

open UbsIo.Lib

variable {refNum : Nat}

/-! ## Slaves that have not been confirmed -/

/-- The number of slaves with their front at or before an index. -/
def unconfirmed (front : Fin refNum → Nat) (i : Nat) : Nat :=
  (Finset.univ.filter fun u => front u ≤ i).card

variable {front : Fin refNum → Nat} {u : Fin refNum} {i k x : Nat}

theorem unconfirmed_le (front : Fin refNum → Nat) (i : Nat) :
    unconfirmed front i ≤ refNum := by
  have h := Finset.card_le_univ (Finset.univ.filter fun u => front u ≤ i)
  rw [Fintype.card_fin] at h
  exact h

theorem unconfirmed_all (h : ∀ u, front u ≤ i) :
    unconfirmed front i = refNum := by
  rw [unconfirmed, Finset.filter_true_of_mem fun u _ => h u, Finset.card_univ,
    Fintype.card_fin]

theorem unconfirmed_none (h : ∀ u, i < front u) : unconfirmed front i = 0 := by
  rw [unconfirmed, Finset.filter_false_of_mem fun u _ => Nat.not_le.mpr (h u),
    Finset.card_empty]

theorem unconfirmed_pos (h : front u ≤ i) : 0 < unconfirmed front i :=
  Finset.card_pos.mpr ⟨u, Finset.mem_filter.mpr ⟨Finset.mem_univ u, h⟩⟩

/-- The front of one slave moves, but not over the index. -/
theorem unconfirmed_update (h : x ≤ i ↔ front u ≤ i) :
    unconfirmed (Function.update front u x) i = unconfirmed front i := by
  rw [unconfirmed, unconfirmed]
  congr 1
  ext w
  simp only [Finset.mem_filter, Finset.mem_univ, true_and]
  by_cases hw : w = u
  · rw [hw, Function.update_self]
    exact h
  · rw [Function.update_of_ne hw]

/-- The front of one slave moves over the index. -/
theorem unconfirmed_over (hle : front u ≤ i) (hlt : i < x) :
    unconfirmed (Function.update front u x) i + 1 = unconfirmed front i := by
  have herase : (Finset.univ.filter fun w => Function.update front u x w ≤ i) =
      (Finset.univ.filter fun w => front w ≤ i).erase u := by
    ext w
    simp only [Finset.mem_filter, Finset.mem_univ, true_and, Finset.mem_erase]
    by_cases hw : w = u
    · rw [hw, Function.update_self]
      constructor
      · intro hx
        exact absurd hlt (Nat.not_lt_of_le hx)
      · intro hne
        exact absurd rfl hne.1
    · rw [Function.update_of_ne hw]
      exact ⟨fun h => ⟨hw, h⟩, And.right⟩
  rw [unconfirmed, herase]
  exact Finset.card_erase_add_one
    (Finset.mem_filter.mpr ⟨Finset.mem_univ u, hle⟩)

/-! ## The round of a slave -/

/-- What the master has confirmed in this round. -/
def Stage.confirmed : Stage → List Nat
  | .serving done _ => done
  | .answered confirmed => confirmed
  | .applying todo => todo
  | _ => []

/-- What the master has yet to look at. -/
def Stage.todo : Stage → List Nat
  | .asked indexVec => indexVec
  | .serving _ todo => todo
  | _ => []

structure Round (t : Tier) (p : Stage) : Prop where
  tier : SlaveTier t
  confirmed : p.confirmed =
    List.range' t.curNegotiateIndex p.confirmed.length
  todo : p.todo =
    List.range' (t.curNegotiateIndex + p.confirmed.length) p.todo.length
  held : ∀ i < t.curNegotiateIndex + p.confirmed.length + p.todo.length,
    i ∈ t.held
  asked : ∀ indexVec, p = .asked indexVec → indexVec ≠ []

variable {t : Tier} {p : Stage}

theorem Round.of_idle (h : SlaveTier t) : Round t .idle :=
  ⟨h, rfl, rfl, fun i hi => h.passed i hi, nofun⟩

/-- A round that keeps what is confirmed and what is to do, or drops the
    latter. -/
theorem Round.goto (h : Round t p) {q : Stage}
    (hconf : q.confirmed = p.confirmed) (htodo : q.todo = p.todo ∨ q.todo = [])
    (hasked : ∀ indexVec, q ≠ .asked indexVec) : Round t q := by
  refine ⟨h.tier, by rw [hconf]; exact h.confirmed, ?_, ?_,
    fun v hv => absurd hv (hasked v)⟩
  · rcases htodo with heq | heq
    · rw [heq, hconf]
      exact h.todo
    · rw [heq]
      rfl
  · intro i hi
    refine h.held i (Nat.lt_of_lt_of_le hi ?_)
    rw [hconf]
    rcases htodo with heq | heq
    · rw [heq]
    · rw [heq]
      exact Nat.le_add_right ..

theorem Round.begin (h : SlaveTier t) {indexVec : List Nat}
    (hvec : getNegotiateSlice t maxEvictConsultSize = indexVec)
    (hne : indexVec ≠ []) : Round t (.asked indexVec) := by
  obtain ⟨len, hlen, hall, -⟩ := h.getNegotiateSlice
  rw [hvec] at hlen
  have hlength : indexVec.length = len := by rw [hlen, List.length_range']
  refine ⟨h, rfl, ?_, ?_, ?_⟩
  · show indexVec = List.range' t.curNegotiateIndex indexVec.length
    rw [hlength]
    exact hlen
  · intro i hi
    by_cases hcur : i < t.curNegotiateIndex
    · exact h.passed i hcur
    · have hi' : i < t.curNegotiateIndex + len := by
        rw [← hlength]
        exact hi
      have hmem := hall (i - t.curNegotiateIndex) (by omega)
      rw [Nat.add_sub_cancel' (Nat.le_of_not_lt hcur)] at hmem
      exact hmem
  · intro v hv
    rw [← Stage.asked.inj hv]
    exact hne

/-- A slave comes to hold one more slice. -/
theorem Round.mono {t' : Tier} (h : Round t p) (htier : SlaveTier t')
    (hcur : t'.curNegotiateIndex = t.curNegotiateIndex)
    (hheld : ∀ i ∈ t.held, i ∈ t'.held) : Round t' p := by
  refine ⟨htier, ?_, ?_, ?_, h.asked⟩
  · rw [hcur]
    exact h.confirmed
  · rw [hcur]
    exact h.todo
  · intro i hi
    rw [hcur] at hi
    exact hheld i (h.held i hi)

/-- The master confirms the next index. -/
theorem Round.confirm {done todo : List Nat}
    (h : Round t (.serving done (i :: todo))) :
    i = t.curNegotiateIndex + done.length ∧
      Round t (.serving (done ++ [i]) todo) := by
  have htodo := h.todo
  have hconf := h.confirmed
  simp only [Stage.todo, Stage.confirmed, List.length_cons,
    List.range'_succ, List.cons.injEq] at htodo hconf
  obtain ⟨hi, hrest⟩ := htodo
  refine ⟨hi, h.tier, ?_, ?_, ?_, nofun⟩
  · simp only [Stage.confirmed, List.length_append, List.length_singleton]
    rw [List.range'_concat, ← hconf, hi, Nat.one_mul]
  · simp only [Stage.confirmed, Stage.todo, List.length_append,
      List.length_singleton]
    rw [← Nat.add_assoc]
    exact hrest
  · intro k hk
    refine h.held k ?_
    simp only [Stage.confirmed, Stage.todo, List.length_append,
      List.length_cons, List.length_nil] at hk ⊢
    omega

/-- The slave moves the next confirmed slice. -/
theorem Round.apply {todo : List Nat} (h : Round t (.applying (i :: todo))) :
    ∃ t', updateNegotiateState t i = some t' ∧ Round t' (.applying todo) ∧
      t'.curNegotiateIndex = t.curNegotiateIndex + 1 ∧ t'.held = t.held := by
  have hconf := h.confirmed
  simp only [Stage.confirmed, List.length_cons, List.range'_succ,
    List.cons.injEq] at hconf
  obtain ⟨rfl, hrest⟩ := hconf
  have hheld : t.curNegotiateIndex ∈ t.held := by
    refine h.held _ ?_
    simp only [Stage.confirmed, Stage.todo, List.length_cons]
    omega
  obtain ⟨t', ht, htier, hcur, hsame, -⟩ := h.tier.apply hheld
  refine ⟨t', ht, ⟨htier, ?_, rfl, ?_, nofun⟩, hcur, hsame⟩
  · rw [hcur]
    exact hrest
  · intro k hk
    rw [hsame]
    refine h.held k ?_
    simp only [Stage.confirmed, Stage.todo, List.length_cons, hcur] at hk ⊢
    omega

/-! ## The master -/

/-- The value of a valid array's cell for a slice that the master holds. -/
def countOf (front : Fin refNum → Nat) (lost : List Nat) (i : Nat) : Nat :=
  if i ∈ lost then
    if unconfirmed front i = 0 then invalidRefNum
    else unconfirmed front i - 1
  else unconfirmed front i

/-- The slice is in the queue of the master. -/
def Moved (front : Fin refNum → Nat) (lost : List Nat) (i : Nat) : Prop :=
  unconfirmed front i = 0 ∨ i ∈ lost ∧ unconfirmed front i = 1

/-- The last index of an array. -/
def lastOf (i : Nat) : Nat := i / arraySize * arraySize + (arraySize - 1)

theorem le_lastOf (i : Nat) : i ≤ lastOf i := by
  rw [lastOf]
  simp only [arraySize]
  omega

theorem lastOf_mod (i : Nat) : lastOf i % arraySize = arraySize - 1 := by
  rw [lastOf]
  simp only [arraySize]
  omega

structure MasterTier (t : Tier) (front : Fin refNum → Nat)
    (lost : List Nat) : Prop where
  cell : ∀ i ∈ t.held, ∀ v, t.cell i = some v → v = countOf front lost i
  erased : ∀ i ∈ t.held, t.cell i = none → ∀ u, lastOf i < front u
  free : ∀ i, i ∉ t.held → t.cell i = none ∨ t.cell i = some invalidRefNum
  moved : ∀ i, i ∈ t.evictSliceQueue ↔ i ∈ t.held ∧ Moved front lost i
  map : ∀ i ∈ t.added, i ∉ t.evictSliceQueue → i ∈ t.evictNegotiateMap
  added : ∀ i ∈ t.held, i ∈ t.added
  front : ∀ u, ∀ i < front u, i ∈ t.held
  lost : ∀ i ∈ lost, i ∈ t.held
  short : refNum ≠ 1 → ∀ i ∈ t.held, i % arraySize ≠ arraySize - 1

variable {lost : List Nat}

theorem MasterTier.addMap (h : MasterTier t front lost) (i : Nat) :
    MasterTier (addEvictNegotiateMap t i) front lost := by
  refine ⟨h.cell, h.erased, h.free, h.moved, ?_, ?_, h.front, h.lost,
    h.short⟩
  · intro k hk hnot
    rcases List.mem_append.mp hk with hk | hk
    · exact List.mem_append_left _ (h.map k hk hnot)
    · exact List.mem_append_right _ hk
  · intro k hk
    exact List.mem_append_left _ (h.added k hk)

/-- No slave is confirmed for a slice that the master does not hold. -/
theorem MasterTier.front_le (h : MasterTier t front lost) (hi : i ∉ t.held)
    (u : Fin refNum) : front u ≤ i :=
  Nat.le_of_not_lt fun hlt => hi (h.front u i hlt)

theorem MasterTier.addIndexMap (h : MasterTier t front lost)
    (hpos : 1 ≤ refNum) (hadded : i ∈ t.added) (hheld : i ∉ t.held)
    (hshort : refNum ≠ 1 → i % arraySize ≠ arraySize - 1) :
    MasterTier (addEvictNegotiateIndexMap t i refNum) front lost := by
  have hall : unconfirmed front i = refNum :=
    unconfirmed_all (h.front_le hheld)
  have hlost : i ∉ lost := fun hin => hheld (h.lost i hin)
  have hne : ∀ k ∈ t.held, k ≠ i := by
    rintro k hk rfl
    exact hheld hk
  have hmem : ∀ k, k ∈ (addEvictNegotiateIndexMap t i refNum).held ↔
      k ∈ t.held ∨ k = i := by
    intro k
    simp only [addEvictNegotiateIndexMap, List.mem_append,
      List.mem_singleton]
  -- an erased array has no index to come
  have hcell : ∀ k ∈ t.held,
      (addEvictNegotiateIndexMap t i refNum).cell k = t.cell k := by
    intro k hk
    rcases cell_add_ne t refNum (hne k hk) with heq | ⟨hnone, hdiv, -⟩
    · exact heq
    · refine absurd ?_ hheld
      refine h.front ⟨0, hpos⟩ i (Nat.lt_of_le_of_lt ?_
        (h.erased k hk hnone ⟨0, hpos⟩))
      rw [lastOf, hdiv]
      exact le_lastOf i
  refine ⟨?_, ?_, ?_, ?_, h.map, ?_, ?_, ?_, ?_⟩
  · intro k hk v hv
    rcases (hmem k).mp hk with hk | rfl
    · rw [hcell k hk] at hv
      exact h.cell k hk v hv
    · rw [cell_add_self] at hv
      rw [countOf, if_neg hlost, hall]
      exact (Option.some.inj hv).symm
  · intro k hk hnone
    rcases (hmem k).mp hk with hk | rfl
    · rw [hcell k hk] at hnone
      exact h.erased k hk hnone
    · rw [cell_add_self] at hnone
      cases hnone
  · intro k hk
    rw [hmem k, not_or] at hk
    rcases cell_add_ne t refNum hk.2 with heq | ⟨-, -, hnew⟩
    · rw [heq]
      exact h.free k hk.1
    · exact Or.inr hnew
  · intro k
    show k ∈ t.evictSliceQueue ↔ _
    rw [h.moved k, hmem k]
    constructor
    · rintro ⟨hk, hm⟩
      exact ⟨Or.inl hk, hm⟩
    · rintro ⟨hk | rfl, hm⟩
      · exact ⟨hk, hm⟩
      · rcases hm with hm | ⟨hin, -⟩
        · omega
        · exact absurd hin hlost
  · intro k hk
    rcases (hmem k).mp hk with hk | rfl
    · exact h.added k hk
    · exact hadded
  · intro w k hk
    exact (hmem k).mpr (Or.inl (h.front w k hk))
  · intro k hk
    exact (hmem k).mpr (Or.inl (h.lost k hk))
  · intro hone k hk
    rcases (hmem k).mp hk with hk | rfl
    · exact h.short hone k hk
    · exact hshort hone

/-- A slave that has not been confirmed finds a valid cell. -/
theorem MasterTier.valid (h : MasterTier t front lost) (hlt : refNum < 255)
    (hi : i ∈ t.held) (hu : front u ≤ i) :
    t.cell i = some (countOf front lost i) ∧
      countOf front lost i ≠ invalidRefNum ∧
      countOf front lost i + (if i ∈ lost then 1 else 0) =
        unconfirmed front i := by
  have hpos := unconfirmed_pos hu
  have hle := unconfirmed_le front i
  have hcount : countOf front lost i + (if i ∈ lost then 1 else 0) =
      unconfirmed front i := by
    rw [countOf]
    split
    · rw [if_neg (Nat.ne_of_gt hpos)]
      omega
    · rfl
  refine ⟨?_, ?_, hcount⟩
  · cases hcell : t.cell i with
    | some v => rw [h.cell i hi v hcell]
    | none =>
        have hlast := h.erased i hi hcell u
        have hle' := le_lastOf i
        omega
  · rw [invalidRefNum]
    omega

/-- **A CONFIRMATION**: the count of the index goes down by one, and the
    front of the slave goes on. -/
theorem MasterTier.confirm {t' : Tier} (h : MasterTier t front lost)
    (hlt : refNum < 255) (hup : updateNegotiateState t (front u) = some t') :
    front u ∈ t.held ∧
      MasterTier t' (Function.update front u (front u + 1)) lost ∧
      (∀ k, k ∈ t'.evictSliceQueue → k ∈ t.evictSliceQueue ∨
        k = front u ∧ t.cell (front u) = some 1) ∧
      t'.held = t.held := by
  obtain ⟨v, hcell, hv, hupd⟩ := cell_of_update hup
  have hheld : front u ∈ t.held := by
    by_contra hnot
    rcases h.free _ hnot with hc | hc
    · rw [hc] at hcell
      cases hcell
    · rw [hc] at hcell
      exact hv (Option.some.inj hcell).symm
  obtain ⟨hcell', -, hcount⟩ := h.valid (u := u) hlt hheld (Nat.le_refl _)
  rw [hcell] at hcell'
  rw [← Option.some.inj hcell'] at hcount
  have hover : unconfirmed (Function.update front u (front u + 1)) (front u) +
      1 = unconfirmed front (front u) :=
    unconfirmed_over (Nat.le_refl (front u)) (Nat.lt_succ_self (front u))
  have hsame : ∀ k, k ≠ front u →
      unconfirmed (Function.update front u (front u + 1)) k =
        unconfirmed front k := by
    intro k hk
    refine unconfirmed_update ⟨fun hle => by omega, fun hle => by omega⟩
  have hle := unconfirmed_le front (front u)
  have hsmall : v < 255 := by
    split at hcount
    · omega
    · omega
  -- the new count of the index, and whether it is moved now
  have hnew : decRefNum v =
      countOf (Function.update front u (front u + 1)) lost (front u) := by
    rw [countOf]
    by_cases hin : front u ∈ lost
    · rw [if_pos hin] at hcount ⊢
      by_cases hzero : v = 0
      · rw [hzero, if_pos (by omega)]
        rfl
      · rw [if_neg (by omega), decRefNum_pos (Nat.pos_of_ne_zero hzero)
          (by omega)]
        omega
    · rw [if_neg hin] at hcount ⊢
      rw [decRefNum_pos (by omega) (by omega)]
      omega
  have hone : decRefNum v = 0 ↔ v = 1 := by
    rw [decRefNum]
    omega
  have hmoved : Moved (Function.update front u (front u + 1)) lost
      (front u) ↔ Moved front lost (front u) ∨ v = 1 := by
    rw [Moved, Moved]
    by_cases hin : front u ∈ lost
    · rw [if_pos hin] at hcount
      simp only [hin, true_and]
      omega
    · rw [if_neg hin] at hcount
      simp only [hin, false_and, or_false]
      omega
  have hqueue : front u ∉ t.evictSliceQueue → front u ∈ t.evictNegotiateMap :=
    h.map _ (h.added _ hheld)
  refine ⟨hheld, ⟨?_, ?_, ?_, ?_, ?_, ?_, ?_, ?_, ?_⟩, ?_, hupd.held⟩
  · intro k hk x hx
    rw [hupd.held] at hk
    rw [hupd.cells] at hx
    split at hx
    · cases hx
    · split at hx
      · rename_i heq
        rw [← Option.some.inj hx, heq]
        exact hnew
      · rename_i hne
        rw [countOf, hsame k hne]
        exact h.cell k hk x hx
  · intro k hk hnone w
    rw [hupd.held] at hk
    rw [hupd.cells] at hnone
    split at hnone
    · rename_i hlast
      -- only with one slave are there last cells
      have honly : refNum = 1 := by
        by_contra hne
        exact h.short hne _ hheld hlast.1
      subst honly
      have hw : w = u := Subsingleton.elim w u
      rw [hw, Function.update_self, lastOf, hlast.2]
      have hdiv := Nat.div_add_mod (front u) arraySize
      rw [hlast.1, Nat.mul_comm] at hdiv
      omega
    · split at hnone
      · cases hnone
      · have hbefore := h.erased k hk hnone w
        by_cases hw : w = u
        · rw [hw] at hbefore
          rw [hw, Function.update_self]
          exact Nat.lt_succ_of_lt hbefore
        · rw [Function.update_of_ne hw]
          exact hbefore
  · intro k hk
    rw [hupd.held] at hk
    rw [hupd.cells]
    split
    · exact Or.inl rfl
    · have hne : k ≠ front u := by
        rintro rfl
        exact hk hheld
      rw [if_neg hne]
      exact h.free k hk
  · intro k
    rw [hupd.queue, hupd.held, h.moved k, hone]
    by_cases hk : k = front u
    · subst hk
      rw [hmoved]
      simp only [hheld, true_and]
      constructor
      · rintro (hm | ⟨hv1, -⟩)
        · exact Or.inl hm
        · exact Or.inr hv1
      · rintro (hm | hv1)
        · exact Or.inl hm
        · by_cases hq : front u ∈ t.evictSliceQueue
          · exact Or.inl ((h.moved _).mp hq).2
          · exact Or.inr ⟨hv1, hqueue hq⟩
    · rw [Moved, Moved, hsame k hk]
      simp only [hk, false_and, or_false]
  · intro k hk hnot
    rw [hupd.added] at hk
    rw [hupd.queue, not_or] at hnot
    have hmap := h.map k hk hnot.1
    refine (hupd.map k).mpr ⟨hmap, ?_⟩
    rintro ⟨rfl, hzero⟩
    exact hnot.2 ⟨rfl, hzero, hmap⟩
  · intro k hk
    rw [hupd.held] at hk
    rw [hupd.added]
    exact h.added k hk
  · intro w k hk
    rw [hupd.held]
    by_cases hw : w = u
    · rw [hw, Function.update_self] at hk
      rcases Nat.lt_succ_iff_lt_or_eq.mp hk with hk | rfl
      · exact h.front u k hk
      · exact hheld
    · rw [Function.update_of_ne hw] at hk
      exact h.front w k hk
  · intro k hk
    rw [hupd.held]
    exact h.lost k hk
  · intro hne k hk
    rw [hupd.held] at hk
    exact h.short hne k hk
  · intro k hk
    rcases (hupd.queue k).mp hk with hk | ⟨rfl, hzero, -⟩
    · exact Or.inl hk
    · exact Or.inr ⟨rfl, by rw [hcell, hone.mp hzero]⟩

/-- **A LOST RESPONSE**: the front of the slave goes back over indices that
    have not been lost before, and that are not the last of an array. -/
theorem MasterTier.lose (h : MasterTier t front lost) {cur len : Nat}
    (hfront : front u = cur + len)
    (hfirst : ∀ i ∈ List.range' cur len, i ∉ lost ∧
      i % arraySize ≠ arraySize - 1) :
    MasterTier t (Function.update front u cur)
      (lost ++ List.range' cur len) := by
  have hmem : ∀ k, k ∈ List.range' cur len ↔ cur ≤ k ∧ k < front u := by
    intro k
    rw [hfront, List.mem_range'_1]
  have hsame : ∀ k, k ∉ List.range' cur len →
      unconfirmed (Function.update front u cur) k = unconfirmed front k := by
    intro k hk
    rw [hmem k] at hk
    refine unconfirmed_update ⟨fun hle => ?_, fun hle => ?_⟩
    · by_contra hnot
      exact hk ⟨hle, Nat.lt_of_not_le hnot⟩
    · omega
  have hmore : ∀ k, k ∈ List.range' cur len →
      unconfirmed (Function.update front u cur) k =
        unconfirmed front k + 1 := by
    intro k hk
    obtain ⟨hge, hlt⟩ := (hmem k).mp hk
    have hle : Function.update front u cur u ≤ k := by
      rw [Function.update_self]
      exact hge
    have hover := unconfirmed_over hle hlt
    rw [Function.update_idem, Function.update_eq_self] at hover
    exact hover.symm
  have hcount : ∀ k, countOf (Function.update front u cur)
      (lost ++ List.range' cur len) k = countOf front lost k := by
    intro k
    rw [countOf, countOf]
    by_cases hk : k ∈ List.range' cur len
    · rw [if_pos (List.mem_append_right _ hk), if_neg (hfirst k hk).1,
        hmore k hk, if_neg (Nat.succ_ne_zero _), Nat.add_sub_cancel]
    · simp only [List.mem_append, hk, or_false, hsame k hk]
  refine ⟨?_, ?_, h.free, ?_, h.map, h.added, ?_, ?_, h.short⟩
  · intro k hk v hv
    rw [hcount k]
    exact h.cell k hk v hv
  · intro k hk hnone w
    have hbefore := h.erased k hk hnone w
    by_cases hw : w = u
    · rw [hw] at hbefore
      rw [hw, Function.update_self]
      by_contra hnot
      exact (hfirst (lastOf k) ((hmem _).mpr
        ⟨Nat.le_of_not_lt hnot, hbefore⟩)).2 (lastOf_mod k)
    · rw [Function.update_of_ne hw]
      exact hbefore
  · intro k
    rw [h.moved k]
    by_cases hk : k ∈ List.range' cur len
    · have hfresh := (hfirst k hk).1
      refine and_congr_right fun _ => ?_
      simp only [Moved, hmore k hk, List.mem_append, hk, hfresh, or_true,
        true_and, false_and, or_false]
      omega
    · simp only [Moved, hsame k hk, List.mem_append, hk, or_false]
  · intro w k hk
    by_cases hw : w = u
    · rw [hw, Function.update_self] at hk
      exact h.front u k (by omega)
    · rw [Function.update_of_ne hw] at hk
      exact h.front w k hk
  · intro k hk
    rcases List.mem_append.mp hk with hk | hk
    · exact h.lost k hk
    · exact h.front u k ((hmem k).mp hk).2

end UbsIo.Negotiate
