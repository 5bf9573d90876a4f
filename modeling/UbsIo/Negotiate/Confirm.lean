import UbsIo.Negotiate.Rounds

/-! # What the negotiation gives

    Safety: a copy moves a slice only if the others hold it.  No stall: when
    all copies hold the slices up to some index, rounds without lost responses
    move them all.

    Both need that the cells of the master stay right (`Confirms`): no index
    is confirmed in two lost responses, the last cell of an array is touched
    for the last slave only, and a repeated request does not stand for a slave
    that does not hold the slice yet. -/

namespace UbsIo.Negotiate

open UbsIo.Lib

variable {refNum : Nat} {c c' : Copies refNum} {u w : Fin refNum} {n : Nat}

def Copies.front (c : Copies refNum) (u : Fin refNum) : Nat :=
  (c.slaves u).curNegotiateIndex + (c.stages u).confirmed.length

/-- The invariant: every slave is in a round, and the master has its counts. -/
structure Negotiating (c : Copies refNum) : Prop where
  rounds : ∀ u, Round (c.slaves u) (c.stages u)
  master : MasterTier c.master c.front c.lost
  busy : c.masterBusy = true → ∃ u done todo, c.stages u = .serving done todo

/-- What is in the queue of the master is held by all. -/
def AllHold (c : Copies refNum) : Prop :=
  ∀ i ∈ c.master.evictSliceQueue, ∀ u, i ∈ (c.slaves u).held

/-- The steps that keep the counts of the master right. -/
def KeepsCounts (c : Copies refNum) : Event refNum → Prop
  | .addIndexMap none i => refNum = 1 ∨ i % arraySize ≠ arraySize - 1
  | .lose u => ∀ confirmed, c.stages u = .answered confirmed →
      ∀ i ∈ confirmed, i ∉ c.lost ∧ i % arraySize ≠ arraySize - 1
  | _ => True

/-- The steps that move a slice on the master only if all slaves hold it. -/
def Covered (c : Copies refNum) : Event refNum → Prop
  | .update u => ∀ done i todo, c.stages u = .serving done (i :: todo) →
      c.master.cell i = some 1 → ∀ w, i ∈ (c.slaves w).held
  | _ => True

@[simp] theorem goto_slaves (c : Copies refNum) (u : Fin refNum) (p : Stage) :
    (c.goto u p).slaves = c.slaves := rfl

@[simp] theorem goto_master (c : Copies refNum) (u : Fin refNum) (p : Stage) :
    (c.goto u p).master = c.master := rfl

@[simp] theorem goto_stages_self (c : Copies refNum) (u : Fin refNum)
    (p : Stage) : (c.goto u p).stages u = p :=
  Function.update_self ..

theorem goto_stages_ne (c : Copies refNum) (p : Stage) (h : w ≠ u) :
    (c.goto u p).stages w = c.stages w :=
  Function.update_of_ne h ..

/-- A stage changes the front of its slave only. -/
theorem front_goto (c : Copies refNum) (u : Fin refNum) (p : Stage) :
    (c.goto u p).front = Function.update c.front u
      ((c.slaves u).curNegotiateIndex + p.confirmed.length) := by
  ext w
  by_cases hw : w = u
  · rw [hw, Function.update_self, Copies.front, goto_stages_self]
    rfl
  · rw [Function.update_of_ne hw, Copies.front, goto_stages_ne c p hw]
    rfl

theorem round_goto {p : Stage} (h : ∀ w, Round (c.slaves w) (c.stages w))
    (hp : Round (c.slaves u) p) :
    ∀ w, Round ((c.goto u p).slaves w) ((c.goto u p).stages w) := by
  intro w
  by_cases hw : w = u
  · rw [hw, goto_stages_self]
    exact hp
  · rw [goto_stages_ne c p hw]
    exact h w

/-- A step of one slave in which nothing is confirmed. -/
theorem Negotiating.goto {p : Stage} (h : Negotiating c)
    (hp : Round (c.slaves u) p)
    (hconf : p.confirmed.length = (c.stages u).confirmed.length) (b : Bool)
    (hbusy : b = true → ∃ w done todo,
      (c.goto u p).stages w = .serving done todo) :
    Negotiating (Copies.goto { c with masterBusy := b } u p) := by
  refine ⟨round_goto (c := { c with masterBusy := b }) h.rounds hp, ?_,
    hbusy⟩
  have hfront : (Copies.goto { c with masterBusy := b } u p).front =
      c.front := by
    rw [front_goto, hconf]
    exact Function.update_eq_self u c.front
  rw [hfront]
  exact h.master

/-- The master stays in its loop when another slave goes on. -/
theorem busy_goto {p : Stage} (h : c.masterBusy = true →
      ∃ w done todo, c.stages w = .serving done todo)
    (hu : ∀ done todo, c.stages u ≠ .serving done todo)
    (hb : c.masterBusy = true) :
    ∃ w done todo, (c.goto u p).stages w = .serving done todo := by
  obtain ⟨w, done, todo, hw⟩ := h hb
  have hne : w ≠ u := by
    rintro rfl
    exact hu done todo hw
  exact ⟨w, done, todo, by rw [goto_stages_ne c p hne]; exact hw⟩

/-- A slave comes to hold one more slice. -/
theorem Negotiating.slave {t : Tier} (h : Negotiating c) (htier : SlaveTier t)
    (hcur : t.curNegotiateIndex = (c.slaves u).curNegotiateIndex)
    (hheld : ∀ i ∈ (c.slaves u).held, i ∈ t.held) :
    Negotiating { c with slaves := Function.update c.slaves u t } := by
  refine ⟨?_, ?_, h.busy⟩
  · intro w
    show Round (Function.update c.slaves u t w) (c.stages w)
    by_cases hw : w = u
    · rw [hw, Function.update_self]
      exact (h.rounds u).mono htier hcur hheld
    · rw [Function.update_of_ne hw]
      exact h.rounds w
  · have hfront : Copies.front
        { c with slaves := Function.update c.slaves u t } = c.front := by
      ext w
      rw [Copies.front, Copies.front]
      by_cases hw : w = u
      · subst hw
        simp only [Function.update_self, hcur]
      · simp only [Function.update_of_ne hw]
    rw [hfront]
    exact h.master

theorem Negotiating.addMap (h : Negotiating c) (o : Option (Fin refNum))
    (i : Nat) :
    Negotiating (c.setTier (addEvictNegotiateMap (c.tier o) i) o) := by
  cases o with
  | none => exact ⟨h.rounds, h.master.addMap i, h.busy⟩
  | some u =>
      exact h.slave ((h.rounds u).tier.addMap i) rfl fun _ hk => hk

theorem Negotiating.addIndexMap (hpos : 1 ≤ refNum) (h : Negotiating c)
    (o : Option (Fin refNum)) {i : Nat} (hadded : i ∈ (c.tier o).added)
    (hheld : i ∉ (c.tier o).held)
    (hg : KeepsCounts c (.addIndexMap o i)) :
    Negotiating (c.setTier
      (addEvictNegotiateIndexMap (c.tier o) i (refNumOf refNum o)) o) := by
  cases o with
  | none =>
      exact ⟨h.rounds, h.master.addIndexMap hpos hadded hheld
        fun hne => hg.resolve_left hne, h.busy⟩
  | some u =>
      exact h.slave ((h.rounds u).tier.addIndexMap hadded hheld) rfl
        fun _ hk => List.mem_append_left _ hk

/-- The master goes on with a request. -/
theorem Negotiating.update {done todo : List Nat} {i : Nat} {t : Tier}
    (hlt : refNum < 255) (h : Negotiating c)
    (hu : c.stages u = .serving done (i :: todo))
    (ht : updateNegotiateState c.master i = some t) :
    Negotiating (Copies.goto { c with master := t } u
      (.serving (done ++ [i]) todo)) ∧
      ∀ k ∈ t.evictSliceQueue, k ∈ c.master.evictSliceQueue ∨
        k = i ∧ c.master.cell i = some 1 := by
  have hround := h.rounds u
  rw [hu] at hround
  obtain ⟨hi, hnext⟩ := hround.confirm
  have hfront : c.front u = i := by
    rw [Copies.front, hu]
    exact hi.symm
  rw [← hfront] at ht
  obtain ⟨-, hmaster, hqueue, -⟩ := h.master.confirm hlt ht
  refine ⟨⟨round_goto (c := { c with master := t }) h.rounds hnext, ?_,
    fun _ => ⟨u, _, _, goto_stages_self _ _ _⟩⟩, ?_⟩
  · have heq : (Copies.goto { c with master := t } u
        (.serving (done ++ [i]) todo)).front =
        Function.update c.front u (c.front u + 1) := by
      rw [front_goto, hfront, hi]
      simp only [Stage.confirmed, List.length_append, List.length_cons,
        List.length_nil, Nat.add_assoc]
      rfl
    rw [heq]
    exact hmaster
  · rw [hfront] at hqueue
    exact hqueue

/-- A slave goes on with its round. -/
theorem Negotiating.apply {todo : List Nat} {i : Nat} (h : Negotiating c)
    (hu : c.stages u = .applying (i :: todo)) :
    Negotiating (Copies.goto
      { c with
        slaves := Function.update c.slaves u
          ((updateNegotiateState (c.slaves u) i).getD (c.slaves u)) }
      u (.applying todo)) ∧
    ∃ t, updateNegotiateState (c.slaves u) i = some t ∧
      t.curNegotiateIndex = (c.slaves u).curNegotiateIndex + 1 ∧
      t.held = (c.slaves u).held := by
  have hround := h.rounds u
  rw [hu] at hround
  obtain ⟨t, ht, hnext, hcur, hheld⟩ := hround.apply
  rw [ht]
  refine ⟨⟨?_, ?_, ?_⟩, t, rfl, hcur, hheld⟩
  · intro w
    by_cases hw : w = u
    · subst hw
      simp only [goto_slaves, goto_stages_self, Function.update_self,
        Option.getD_some]
      exact hnext
    · rw [goto_stages_ne _ _ hw]
      simp only [goto_slaves, Function.update_of_ne hw]
      exact h.rounds w
  · have heq : (Copies.goto
        { c with slaves := Function.update c.slaves u t }
        u (.applying todo)).front = c.front := by
      ext w
      by_cases hw : w = u
      · subst hw
        rw [Copies.front, Copies.front, hu]
        simp only [goto_slaves, goto_stages_self, Function.update_self, hcur,
          Stage.confirmed, List.length_cons]
        omega
      · rw [Copies.front, Copies.front, goto_stages_ne _ _ hw]
        simp only [goto_slaves, Function.update_of_ne hw]
    rw [Option.getD_some, heq]
    exact h.master
  · exact busy_goto (c := { c with slaves := _ }) h.busy (by
      intro done todo' hs
      rw [show c.stages u = _ from hs] at hu
      cases hu)

theorem Negotiating.lose {confirmed : List Nat} (h : Negotiating c)
    (hu : c.stages u = .answered confirmed)
    (hg : KeepsCounts c (.lose u)) :
    Negotiating (Copies.goto { c with lost := c.lost ++ confirmed } u
      .idle) := by
  have hround := h.rounds u
  rw [hu] at hround
  have hconf : confirmed = List.range' (c.slaves u).curNegotiateIndex
      confirmed.length := hround.confirmed
  refine ⟨round_goto (c := { c with lost := c.lost ++ confirmed }) h.rounds
    (Round.of_idle hround.tier), ?_, ?_⟩
  · rw [front_goto]
    have hfront : c.front u = (c.slaves u).curNegotiateIndex +
        confirmed.length := by
      rw [Copies.front, hu]
      rfl
    have hlose := h.master.lose hfront (by
      rw [← hconf]
      exact hg confirmed hu)
    rw [← hconf] at hlose
    exact hlose
  · exact busy_goto (c := { c with lost := _ }) h.busy (by
      intro done todo hs
      rw [show c.stages u = _ from hs] at hu
      exact nomatch hu)

/-- **A STEP** that keeps the counts keeps the invariant. -/
theorem Negotiating.step {e : Event refNum} (hpos : 1 ≤ refNum)
    (hlt : refNum < 255) (h : Negotiating c) (hg : KeepsCounts c e)
    (hs : step c e = some c') : Negotiating c' := by
  cases e with
  | addMap o i =>
      simp only [Negotiate.step] at hs
      split at hs
      · exact nomatch hs
      · cases hs
        exact h.addMap o i
  | addIndexMap o i =>
      simp only [Negotiate.step] at hs
      split at hs
      · rename_i hin
        cases hs
        exact h.addIndexMap hpos o hin.1 hin.2 hg
      · exact nomatch hs
  | evictNegotiate u =>
      simp only [Negotiate.step] at hs
      split at hs
      · rename_i hu
        split at hs
        · cases hs
          exact h
        · rename_i i indexVec hvec
          cases hs
          refine h.goto (Round.begin (h.rounds u).tier hvec
            (List.cons_ne_nil _ _)) ?_ c.masterBusy
            (busy_goto h.busy (by rw [hu]; exact nofun))
          rw [hu]
          rfl
      · exact nomatch hs
  | masterEvictNegotiate u exchange =>
      simp only [Negotiate.step] at hs
      split at hs
      · rename_i indexVec hu
        have hround := h.rounds u
        rw [hu] at hround
        split at hs
        · cases hs
          refine h.goto (p := .serving [] indexVec)
            (hround.goto rfl (Or.inl rfl) nofun) ?_ true
            fun _ => ⟨u, _, _, goto_stages_self ..⟩
          rw [hu]
          rfl
        · cases hs
          refine h.goto (p := .answered [])
            (hround.goto rfl (Or.inr rfl) nofun) ?_ c.masterBusy
            (busy_goto h.busy (by rw [hu]; exact nofun))
          rw [hu]
          rfl
      · exact nomatch hs
  | update u =>
      simp only [Negotiate.step] at hs
      split at hs
      · rename_i done hu
        have hround := h.rounds u
        rw [hu] at hround
        cases hs
        refine h.goto (p := .answered done)
          (hround.goto rfl (Or.inl rfl) nofun) ?_ false nofun
        rw [hu]
        rfl
      · rename_i done i todo hu
        split at hs
        · rename_i t ht
          cases hs
          exact (h.update hlt hu ht).1
        · have hround := h.rounds u
          rw [hu] at hround
          cases hs
          refine h.goto (p := .answered done)
            (hround.goto rfl (Or.inr rfl) nofun) ?_ false nofun
          rw [hu]
          rfl
      · exact nomatch hs
  | response u =>
      simp only [Negotiate.step] at hs
      split at hs
      · rename_i confirmed hu
        have hround := h.rounds u
        rw [hu] at hround
        cases hs
        refine h.goto (p := .applying confirmed)
          (hround.goto rfl (Or.inl rfl) nofun) ?_ c.masterBusy
          (busy_goto h.busy (by rw [hu]; exact nofun))
        rw [hu]
        rfl
      · exact nomatch hs
  | lose u =>
      simp only [Negotiate.step] at hs
      split at hs
      · rename_i confirmed hu
        cases hs
        exact h.lose hu hg
      · exact nomatch hs
  | apply u =>
      simp only [Negotiate.step] at hs
      split at hs
      · rename_i hu
        have hround := h.rounds u
        rw [hu] at hround
        cases hs
        refine h.goto (p := .idle)
          (hround.goto rfl (Or.inl rfl) nofun) ?_ c.masterBusy
          (busy_goto h.busy (by rw [hu]; exact nofun))
        rw [hu]
        rfl
      · rename_i i todo hu
        cases hs
        exact (h.apply hu).1
      · exact nomatch hs

theorem allHold_slave {t : Tier} (h : AllHold c)
    (hheld : ∀ i ∈ (c.slaves u).held, i ∈ t.held) :
    AllHold { c with slaves := Function.update c.slaves u t } := by
  intro i hi w
  show i ∈ (Function.update c.slaves u t w).held
  by_cases hw : w = u
  · rw [hw, Function.update_self]
    exact hheld i (h i hi u)
  · rw [Function.update_of_ne hw]
    exact h i hi w

/-- **SAFETY OF A STEP**: the master moves what all slaves hold. -/
theorem AllHold.step {e : Event refNum} (hlt : refNum < 255)
    (hn : Negotiating c) (h : AllHold c) (hg : Covered c e)
    (hs : step c e = some c') : AllHold c' := by
  cases e with
  | addMap o i =>
      simp only [Negotiate.step] at hs
      split at hs
      · exact nomatch hs
      · cases hs
        cases o with
        | none => exact h
        | some u => exact allHold_slave h fun _ hk => hk
  | addIndexMap o i =>
      simp only [Negotiate.step] at hs
      split at hs
      · cases hs
        cases o with
        | none => exact h
        | some u =>
            exact allHold_slave h fun _ hk => List.mem_append_left _ hk
      · exact nomatch hs
  | evictNegotiate u =>
      simp only [Negotiate.step] at hs
      split at hs
      · split at hs
        · cases hs
          exact h
        · cases hs
          exact h
      · exact nomatch hs
  | masterEvictNegotiate u exchange =>
      simp only [Negotiate.step] at hs
      split at hs
      · split at hs
        · cases hs
          exact h
        · cases hs
          exact h
      · exact nomatch hs
  | update u =>
      simp only [Negotiate.step] at hs
      split at hs
      · cases hs
        exact h
      · rename_i done i todo hu
        split at hs
        · rename_i t ht
          cases hs
          intro k hk w
          rcases (hn.update hlt hu ht).2 k hk with hk | ⟨rfl, hone⟩
          · exact h k hk w
          · exact hg done k todo hu hone w
        · cases hs
          exact h
      · exact nomatch hs
  | response u =>
      simp only [Negotiate.step] at hs
      split at hs
      · cases hs
        exact h
      · exact nomatch hs
  | lose u =>
      simp only [Negotiate.step] at hs
      split at hs
      · cases hs
        exact h
      · exact nomatch hs
  | apply u =>
      simp only [Negotiate.step] at hs
      split at hs
      · cases hs
        exact h
      · rename_i i todo hu
        cases hs
        obtain ⟨-, t, ht, -, hheld⟩ := hn.apply hu
        rw [ht]
        refine allHold_slave h fun k hk => ?_
        rw [Option.getD_some, hheld]
        exact hk
      · exact nomatch hs

end UbsIo.Negotiate
