import UbsIo.Negotiate.Confirm

/-! # Progress of the negotiation

    Rounds whose requests are served and whose responses arrive (`Served`) move
    at least one slice each, as long as all copies hold the next one.  `pledge`
    counts a round that has begun and has confirmed nothing yet. -/

namespace UbsIo.Negotiate

open UbsIo.Lib

variable {refNum : Nat} {c c' : Copies refNum} {u w : Fin refNum} {n : Nat}

/-- The steps of rounds whose requests are served and whose responses
    arrive. -/
def Served (c : Copies refNum) : Event refNum → Prop
  | .addMap _ _ => False
  | .addIndexMap _ _ => False
  | .lose _ => False
  | .masterEvictNegotiate _ exchange => exchange = true ∧ c.masterBusy = false
  | _ => True

/-- All copies hold the slices up to `n`. -/
def HoldUpTo (c : Copies refNum) (n : Nat) : Prop :=
  ∀ i ≤ n, i ∈ c.master.held ∧ ∀ u, i ∈ (c.slaves u).held

/-- A round that has begun and has confirmed nothing yet. -/
def Stage.pledge : Stage → Nat
  | .asked _ => 1
  | .serving [] (_ :: _) => 1
  | _ => 0

/-- The front of a slave when its round has confirmed a slice. -/
def Copies.goal (c : Copies refNum) (u : Fin refNum) : Nat :=
  c.front u + (c.stages u).pledge

theorem keepsCounts_of_served {e : Event refNum} (h : Served c e) :
    KeepsCounts c e := by
  cases e with
  | addMap o i => exact h.elim
  | addIndexMap o i => exact h.elim
  | lose u => exact h.elim
  | _ => exact trivial

/-- The slices that are held stay held. -/
theorem HoldUpTo.step {e : Event refNum}
    (hn : Negotiating c) (h : HoldUpTo c n) (hg : Served c e)
    (hs : step c e = some c') : HoldUpTo c' n := by
  cases e with
  | addMap o i => exact hg.elim
  | addIndexMap o i => exact hg.elim
  | lose u => exact hg.elim
  | evictNegotiate u =>
      simp only [Negotiate.step] at hs
      split at hs
      · split at hs
        · cases hs
          exact h
        · cases hs
          exact h
      · cases hs
  | masterEvictNegotiate u exchange =>
      simp only [Negotiate.step] at hs
      split at hs
      · split at hs
        · cases hs
          exact h
        · cases hs
          exact h
      · cases hs
  | update u =>
      simp only [Negotiate.step] at hs
      split at hs
      · cases hs
        exact h
      · rename_i done i todo hu
        split at hs
        · rename_i t ht
          cases hs
          obtain ⟨_, _, _, hupd⟩ := cell_of_update ht
          intro k hk
          obtain ⟨hm, hall⟩ := h k hk
          refine ⟨?_, hall⟩
          rw [← hupd.held] at hm
          exact hm
        · cases hs
          exact h
      · cases hs
  | response u =>
      simp only [Negotiate.step] at hs
      split at hs
      · cases hs
        exact h
      · cases hs
  | apply u =>
      simp only [Negotiate.step] at hs
      split at hs
      · cases hs
        exact h
      · rename_i i todo hu
        cases hs
        obtain ⟨-, t, ht, -, hheld⟩ := hn.apply hu
        intro k hk
        obtain ⟨hm, hall⟩ := h k hk
        refine ⟨hm, fun w => ?_⟩
        show k ∈ (Function.update c.slaves u _ w).held
        by_cases hw : w = u
        · rw [hw, Function.update_self, ht, Option.getD_some, hheld]
          exact hall u
        · rw [Function.update_of_ne hw]
          exact hall w
      · cases hs

/-- The steps of one slave leave the rounds of the others alone. -/
theorem goal_goto_ne (c : Copies refNum) (p : Stage) (h : w ≠ u) :
    (c.goto u p).goal w = c.goal w := by
  rw [Copies.goal, Copies.goal, front_goto, Function.update_of_ne h,
    goto_stages_ne c p h]

theorem goal_goto_self (c : Copies refNum) (u : Fin refNum) (p : Stage) :
    (c.goto u p).goal u = (c.slaves u).curNegotiateIndex +
      p.confirmed.length + p.pledge := by
  rw [Copies.goal, front_goto, Function.update_self, goto_stages_self]

/-- A slave that goes on with its round keeps its goal. -/
theorem goal_apply {todo : List Nat} {i : Nat} (hn : Negotiating c)
    (hu : c.stages u = .applying (i :: todo)) (w : Fin refNum) :
    (Copies.goto
      { c with
        slaves := Function.update c.slaves u
          ((updateNegotiateState (c.slaves u) i).getD (c.slaves u)) }
      u (.applying todo)).goal w = c.goal w := by
  obtain ⟨-, t, ht, hcur, -⟩ := hn.apply hu
  rw [ht, Option.getD_some]
  by_cases hw : w = u
  · subst hw
    rw [goal_goto_self, Copies.goal, Copies.front, hu]
    simp only [Function.update_self, hcur, Stage.confirmed, Stage.pledge,
      List.length_cons]
    omega
  · rw [goal_goto_ne _ _ hw, Copies.goal, Copies.goal, Copies.front,
      Copies.front]
    simp only [Function.update_of_ne hw]

/-- **PROGRESS OF A STEP**: a goal up to `n` is not given up, and a new round
    adds to it. -/
theorem goal_step {e : Event refNum} (hlt : refNum < 255)
    (hn : Negotiating c) (h : HoldUpTo c n) (hg : Served c e)
    (hs : step c e = some c') (w : Fin refNum) :
    min (n + 1) (c.goal w + if e = .evictNegotiate w then 1 else 0) ≤
      c'.goal w := by
  cases e with
  | addMap o i => exact hg.elim
  | addIndexMap o i => exact hg.elim
  | lose u => exact hg.elim
  | evictNegotiate u =>
      simp only [Negotiate.step] at hs
      split at hs
      · rename_i hu
        have hidle : c.goal u = (c.slaves u).curNegotiateIndex := by
          rw [Copies.goal, Copies.front, hu]
          rfl
        split at hs
        · rename_i hvec
          cases hs
          split
          · rename_i heq
            have hw : u = w := Event.evictNegotiate.inj heq
            subst hw
            -- nothing to ask for: the slave is past `n`
            obtain ⟨len, hlen, -, hpos⟩ := (hn.rounds u).tier.getNegotiateSlice
            rw [hvec] at hlen
            have hcur : ¬(c.slaves u).curNegotiateIndex ≤ n := by
              intro hle
              have hlen' := hpos ((h _ hle).2 u)
              rw [eq_comm, List.range'_eq_nil_iff] at hlen
              omega
            omega
          · exact Nat.min_le_right ..
        · cases hs
          by_cases hw : w = u
          · subst hw
            rw [goal_goto_self, hidle, if_pos rfl]
            exact Nat.min_le_right ..
          · rw [goal_goto_ne c _ hw, if_neg fun heq =>
              hw (Event.evictNegotiate.inj heq).symm]
            exact Nat.min_le_right ..
      · cases hs
  | masterEvictNegotiate u exchange =>
      obtain ⟨rfl, hfree⟩ := hg
      simp only [Negotiate.step, hfree] at hs
      split at hs
      · rename_i indexVec hu
        cases hs
        rw [if_neg (by intro h; cases h)]
        by_cases hw : w = u
        · subst hw
          have hround := (hn.rounds w).asked indexVec hu
          rw [goal_goto_self, Copies.goal, Copies.front, hu]
          obtain ⟨i, v, rfl⟩ := List.exists_cons_of_ne_nil hround
          exact Nat.min_le_right ..
        · rw [goal_goto_ne _ _ hw]
          exact Nat.min_le_right ..
      · cases hs
  | update u =>
      simp only [Negotiate.step] at hs
      rw [if_neg (by intro h; cases h), Nat.add_zero]
      split at hs
      · rename_i done hu
        cases hs
        by_cases hw : w = u
        · subst hw
          rw [goal_goto_self, Copies.goal, Copies.front, hu]
          cases done with
          | nil => exact Nat.min_le_right ..
          | cons j done => exact Nat.min_le_right ..
        · rw [goal_goto_ne _ _ hw]
          exact Nat.min_le_right ..
      · rename_i done i todo hu
        have hround := hn.rounds u
        rw [hu] at hround
        have hi := hround.confirm.1
        have hgoal : c.goal u ≤ i + 1 := by
          rw [Copies.goal, Copies.front, hu]
          cases done with
          | nil => exact Nat.le_of_eq (by rw [hi]; rfl)
          | cons j done =>
              rw [hi]
              exact Nat.le_succ _
        split at hs
        · rename_i t ht
          cases hs
          by_cases hw : w = u
          · subst hw
            rw [goal_goto_self]
            simp only [Stage.confirmed, List.length_append, List.length_cons,
              List.length_nil]
            omega
          · rw [goal_goto_ne _ _ hw]
            exact Nat.min_le_right ..
        · rename_i ht
          cases hs
          by_cases hw : w = u
          · subst hw
            -- the master refuses only what it does not hold
            have hpast : n < i := by
              by_contra hle
              have hfront : c.front w = i := by
                rw [Copies.front, hu]
                exact hi.symm
              obtain ⟨hcell, hvalid, -⟩ := hn.master.valid (u := w) hlt
                (h i (Nat.le_of_not_lt hle)).1 (Nat.le_of_eq hfront)
              obtain ⟨t, ht', -⟩ := update_of_cell hcell hvalid
              rw [ht] at ht'
              cases ht'
            rw [goal_goto_self]
            simp only [Stage.confirmed]
            omega
          · rw [goal_goto_ne _ _ hw]
            exact Nat.min_le_right ..
      · cases hs
  | response u =>
      simp only [Negotiate.step] at hs
      rw [if_neg (by intro h; cases h), Nat.add_zero]
      split at hs
      · rename_i confirmed hu
        cases hs
        by_cases hw : w = u
        · subst hw
          rw [goal_goto_self, Copies.goal, Copies.front, hu]
          exact Nat.min_le_right ..
        · rw [goal_goto_ne _ _ hw]
          exact Nat.min_le_right ..
      · cases hs
  | apply u =>
      simp only [Negotiate.step] at hs
      rw [if_neg (by intro h; cases h), Nat.add_zero]
      split at hs
      · rename_i hu
        cases hs
        by_cases hw : w = u
        · subst hw
          rw [goal_goto_self, Copies.goal, Copies.front, hu]
          exact Nat.min_le_right ..
        · rw [goal_goto_ne _ _ hw]
          exact Nat.min_le_right ..
      · rename_i i todo hu
        cases hs
        rw [goal_apply hn hu w]
        exact Nat.min_le_right ..
      · cases hs

/-! ## Further rounds -/

/-- Further rounds, from one state to another. -/
def Leads (c : Copies refNum) (es : List (Event refNum))
    (c' : Copies refNum) : Prop :=
  Along step Served c es ∧ runFrom step c es = some c'

theorem Leads.nil (c : Copies refNum) : Leads c [] c := ⟨trivial, rfl⟩

theorem Leads.cons {c₁ : Copies refNum} {e : Event refNum}
    {es : List (Event refNum)} (hg : Served c e) (hs : step c e = some c₁)
    (h : Leads c₁ es c') : Leads c (e :: es) c' := by
  refine ⟨⟨hg, ?_⟩, runFrom_cons.mpr ⟨c₁, hs, h.2⟩⟩
  intro c₂ hs'
  rw [hs] at hs'
  rw [← Option.some.inj hs']
  exact h.1

theorem Leads.append {c₁ : Copies refNum} {es fs : List (Event refNum)}
    (h : Leads c es c₁) (h' : Leads c₁ fs c') : Leads c (es ++ fs) c' := by
  refine ⟨along_append.mpr ⟨h.1, ?_⟩, runFrom_append.mpr ⟨c₁, h.2, h'.2⟩⟩
  intro c₂ hr
  rw [h.2] at hr
  rw [← Option.some.inj hr]
  exact h'.1

theorem Leads.goal (hpos : 1 ≤ refNum) (hlt : refNum < 255) :
    ∀ {es : List (Event refNum)} {c : Copies refNum}, Leads c es c' →
      Negotiating c → HoldUpTo c n →
      Negotiating c' ∧ HoldUpTo c' n ∧
        ∀ w, min (n + 1) (c.goal w + es.count (.evictNegotiate w)) ≤
          c'.goal w := by
  intro es
  induction es with
  | nil =>
      intro c h hn hhold
      rw [← Option.some.inj h.2]
      exact ⟨hn, hhold, fun w => Nat.min_le_right ..⟩
  | cons e es ih =>
      intro c h hn hhold
      obtain ⟨c₁, hs, hr⟩ := runFrom_cons.mp h.2
      have hn₁ := hn.step hpos hlt (keepsCounts_of_served h.1.1) hs
      obtain ⟨hn', hhold', hgoal⟩ := ih ⟨h.1.2 c₁ hs, hr⟩ hn₁
        (hhold.step hn h.1.1 hs)
      refine ⟨hn', hhold', fun w => ?_⟩
      have hfirst := goal_step hlt hn hhold h.1.1 hs w
      have hrest := hgoal w
      rw [List.count_cons]
      simp only [beq_iff_eq]
      omega

/-- A slave past `n` whose round is over has moved the slices, and when all
    are the master has. -/
theorem Negotiating.moved (hn : Negotiating c) (hhold : HoldUpTo c n)
    (hidle : ∀ u, c.stages u = .idle) (hgoal : ∀ u, n + 1 ≤ c.goal u) :
    ∀ i ≤ n, i ∈ c.master.evictSliceQueue ∧
      ∀ u, i ∈ (c.slaves u).evictSliceQueue := by
  have hfront : ∀ u, c.front u = (c.slaves u).curNegotiateIndex := by
    intro u
    rw [Copies.front, hidle u]
    rfl
  have hcur : ∀ u, n + 1 ≤ (c.slaves u).curNegotiateIndex := by
    intro u
    have h := hgoal u
    rw [Copies.goal, hfront, hidle u] at h
    exact h
  intro i hi
  constructor
  · refine (hn.master.moved i).mpr ⟨(hhold i hi).1, Or.inl ?_⟩
    refine unconfirmed_none fun u => ?_
    rw [hfront]
    have h := hcur u
    omega
  · intro u
    have h := hcur u
    exact ((hn.rounds u).tier.queue i).mpr (by omega)

/-! ## Rounds come to their end -/

end UbsIo.Negotiate
