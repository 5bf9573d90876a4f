import UbsIo.Lib.Run
import UbsIo.Sequence.Model

/-! # The sequence window

    One master and any number of copies, all fresh at first.  A request is a
    message with its number and how far the master was done when it was
    numbered; until it is released, it can reach every copy in any order and
    more than once.  The master releases a number once every copy has accepted
    it.

    A copy has room for a number exactly when its own horizon is less than
    sixteen behind (`conflict_iff`), and the horizon that a message brings is
    applied after the slot has been looked at.  What a copy throws away is
    always released. -/

namespace UbsIo.Sequence

open UbsIo.Lib UbsIo.Cache

/-! ## Model -/

/-- A numbered request. -/
structure Message (δ : Type) where
  seqNo : Nat
  negoSeqNo : Nat
  data : δ
deriving DecidableEq

/-- The master, the copies, what has been sent, which numbers each copy has
    accepted and which ones are released. -/
structure State (n : Nat) (δ : Type) where
  master : SlidingQueue
  slaves : Fin n → NegoQueue δ
  sent : List (Message δ)
  accepted : Fin n → List Nat
  released : List Nat

variable {n : Nat} {δ : Type}

def State.init : State n δ :=
  ⟨.fresh, fun _ => .fresh, [], fun _ => [], []⟩

/-- What can happen. -/
inductive Event (n : Nat) (δ : Type) where
  | apply (data : δ)
  | deliver (i : Fin n) (k : Nat) (dataTmp : Bool)
  | release (seqNo : Nat)

/-- The `k`-th message, as long as it can still arrive. -/
def State.message (s : State n δ) (k : Nat) : Option (Message δ) :=
  s.sent[k]?.filter fun m => m.seqNo ∉ s.released

/-- The call of `NegoSeqNo2Slv` when a message reaches a copy. -/
def State.call (s : State n δ) (i : Fin n) (m : Message δ) (dataTmp : Bool) :
    BResult × NegoQueue δ :=
  negoSeqNo2Slv (s.slaves i) m.seqNo m.data dataTmp m.negoSeqNo

/-- The state after a copy has answered. -/
def State.answer (s : State n δ) (i : Fin n) (seqNo : Nat)
    (r : BResult × NegoQueue δ) : State n δ :=
  { s with
    slaves := Function.update s.slaves i r.2
    accepted :=
      if r.1 = .ok then
        Function.update s.accepted i (seqNo :: s.accepted i)
      else s.accepted }

/-- A number may be released: it is handed out, not released yet, and accepted
    everywhere. -/
def State.Releasable (s : State n δ) (seqNo : Nat) : Prop :=
  (∃ m ∈ s.sent, m.seqNo = seqNo) ∧ seqNo ∉ s.released ∧
    ∀ i, seqNo ∈ s.accepted i

instance (s : State n δ) (seqNo : Nat) : Decidable (s.Releasable seqNo) :=
  inferInstanceAs (Decidable (_ ∧ _ ∧ _))

def step (s : State n δ) : Event n δ → Option (State n δ)
  | .apply data =>
      match applyForSeqNo2Mst s.master with
      | .error _ => some s
      | .ok (seqNo, negoSeqNo, master) =>
          some { s with
            master, sent := s.sent ++ [⟨seqNo, negoSeqNo, data⟩] }
  | .deliver i k dataTmp =>
      (s.message k).map fun m => s.answer i m.seqNo (s.call i m dataTmp)
  | .release seqNo =>
      if s.Releasable seqNo then
        some { s with
          master := releaseSeqNo2Mst s.master seqNo
          released := seqNo :: s.released }
      else none

/-- Everything a step can do. -/
theorem step_cases {s s' : State n δ} {e : Event n δ}
    (h : step s e = some s') :
    (∃ data, e = .apply data ∧
      (s' = s ∨ s.master.right - s.master.left < seqQueueLen ∧
        s' = { s with
          master := { s.master with right := s.master.right + 1 }
          sent := s.sent ++ [⟨s.master.right + 1, s.master.left, data⟩] })) ∨
    (∃ i k b m, e = .deliver i k b ∧ s.message k = some m ∧
      s' = s.answer i m.seqNo (s.call i m b)) ∨
    (∃ seqNo, e = .release seqNo ∧ s.Releasable seqNo ∧
      s' = { s with
        master := releaseSeqNo2Mst s.master seqNo
        released := seqNo :: s.released }) := by
  cases e with
  | apply data =>
      refine .inl ⟨data, rfl, ?_⟩
      simp only [step, applyForSeqNo2Mst] at h
      by_cases hw : s.master.right - s.master.left < seqQueueLen
      · rw [if_pos hw] at h
        exact .inr ⟨hw, (Option.some.inj h).symm⟩
      · rw [if_neg hw] at h
        exact .inl (Option.some.inj h).symm
  | deliver i k b =>
      obtain ⟨m, hm, rfl⟩ := Option.map_eq_some_iff.mp h
      exact .inr (.inl ⟨i, k, b, m, rfl, hm, rfl⟩)
  | release seqNo =>
      simp only [step] at h
      by_cases hr : s.Releasable seqNo
      · rw [if_pos hr] at h
        exact .inr (.inr ⟨seqNo, rfl, hr, (Option.some.inj h).symm⟩)
      · rw [if_neg hr] at h
        cases h

/-- A message that can arrive has been sent and is not released. -/
theorem State.message_eq_some {s : State n δ} {k : Nat} {m : Message δ}
    (h : s.message k = some m) : m ∈ s.sent ∧ m.seqNo ∉ s.released := by
  obtain ⟨hk, hr⟩ := Option.filter_eq_some_iff.mp h
  exact ⟨List.mem_of_getElem? hk, of_decide_eq_true hr⟩

/-! ## Slots -/

/-- Numbers of one window lie in different slots. -/
theorem eq_of_seqIdx_eq {a b w : Nat} (h : seqIdx a = seqIdx b)
    (ha : w < a ∧ a ≤ w + 16) (hb : w < b ∧ b ≤ w + 16) : a = b := by
  have hmod : a % 16 = b % 16 := by
    have := congrArg Fin.val h
    simpa [seqIdx, Fin.ofNat] using this
  omega

theorem seqIdx_add (a : Nat) : seqIdx (a + 16) = seqIdx a := by
  apply Fin.ext
  simp [seqIdx, Fin.ofNat]

/-- What a copy has saved lies in its slot, within its window. -/
structure NegoQueue.Windowed (q : NegoQueue δ) : Prop where
  slot : ∀ {idx v}, q.valueList idx = some v → seqIdx v.seqNo = idx
  above : ∀ {idx v}, q.valueList idx = some v → q.negoSeqNo < v.seqNo
  below : ∀ {idx v}, q.valueList idx = some v → v.seqNo ≤ q.negoSeqNo + 16
  commit : ∀ {idx v}, q.valueList idx = some v → v.seqNo ≤ q.commitSeqNo

/-- The copy has the value saved. -/
def NegoQueue.Holds (q : NegoQueue δ) (v : SeqValue δ) : Prop :=
  q.valueList (seqIdx v.seqNo) = some v

/-- The copy has a value with the number saved. -/
def NegoQueue.Saved (q : NegoQueue δ) (seqNo : Nat) : Prop :=
  ∃ v, q.Holds v ∧ v.seqNo = seqNo

/-- The first slot behind the horizon holds the first number behind it. -/
theorem NegoQueue.Windowed.first {q : NegoQueue δ} (hq : q.Windowed)
    {v : SeqValue δ} (h : q.valueList (seqIdx (q.negoSeqNo + 1)) = some v) :
    v.seqNo = q.negoSeqNo + 1 :=
  eq_of_seqIdx_eq (hq.slot h) ⟨hq.above h, hq.below h⟩ ⟨by omega, by omega⟩

/-- One round of `discard`. -/
def NegoQueue.drop (q : NegoQueue δ) : NegoQueue δ :=
  { q with
    valueList := Function.update q.valueList (seqIdx (q.negoSeqNo + 1)) none
    negoSeqNo := q.negoSeqNo + 1 }

theorem NegoQueue.drop_slot {q : NegoQueue δ} {idx : Fin 16}
    {v : SeqValue δ} :
    q.drop.valueList idx = some v ↔
      idx ≠ seqIdx (q.negoSeqNo + 1) ∧ q.valueList idx = some v := by
  by_cases h : idx = seqIdx (q.negoSeqNo + 1)
  · simp [NegoQueue.drop, h]
  · simp [NegoQueue.drop, h]

theorem NegoQueue.Windowed.drop {q : NegoQueue δ} (hq : q.Windowed) :
    q.drop.Windowed where
  slot h := hq.slot (NegoQueue.drop_slot.mp h).2
  above := by
    intro idx v h
    obtain ⟨hne, hv⟩ := NegoQueue.drop_slot.mp h
    have habove := hq.above hv
    have hslot := hq.slot hv
    -- the first number behind the old horizon lies in the slot just emptied
    have hfirst : v.seqNo ≠ q.negoSeqNo + 1 := by
      intro heq
      rw [heq] at hslot
      exact hne hslot.symm
    show q.negoSeqNo + 1 < v.seqNo
    omega
  below := by
    intro idx v h
    have := hq.below (NegoQueue.drop_slot.mp h).2
    show v.seqNo ≤ q.negoSeqNo + 1 + 16
    omega
  commit h := hq.commit (NegoQueue.drop_slot.mp h).2

/-- What `discard` leaves: the horizon moves up to `k` rounds, and a slot keeps
    its value when its number is behind the new horizon. -/
structure Discarded (q q' : NegoQueue δ) (k : Nat) : Prop where
  windowed : q'.Windowed
  horizon_ge : q.negoSeqNo ≤ q'.negoSeqNo
  horizon_le : q'.negoSeqNo ≤ q.negoSeqNo + k
  commit_eq : q'.commitSeqNo = q.commitSeqNo
  holds : ∀ v, q'.Holds v ↔ q.Holds v ∧ q'.negoSeqNo < v.seqNo

theorem Discarded.refl {q : NegoQueue δ} (hq : q.Windowed) (k : Nat) :
    Discarded q q k :=
  ⟨hq, le_refl _, by omega, rfl,
    fun _ => ⟨fun h => ⟨h, hq.above h⟩, fun h => h.1⟩⟩

theorem NegoQueue.drop_holds {q : NegoQueue δ} (hq : q.Windowed)
    (v : SeqValue δ) :
    q.drop.Holds v ↔ q.Holds v ∧ q.negoSeqNo + 1 < v.seqNo := by
  constructor
  · intro hv
    exact ⟨(NegoQueue.drop_slot.mp hv).2, hq.drop.above hv⟩
  · rintro ⟨hv, hlt⟩
    refine NegoQueue.drop_slot.mpr ⟨?_, hv⟩
    intro hslot
    have := eq_of_seqIdx_eq hslot ⟨hq.above hv, hq.below hv⟩
      ⟨by omega, by omega⟩
    omega

theorem discard_spec (k : Nat) {q : NegoQueue δ} (hq : q.Windowed) :
    Discarded q (discard k q) k := by
  induction k generalizing q with
  | zero => exact .refl hq 0
  | succ k ih =>
      cases hv : q.valueList (seqIdx (q.negoSeqNo + 1)) with
      | none =>
          rw [show discard (k + 1) q = q by simp only [discard, hv]]
          exact .refl hq (k + 1)
      | some v =>
          rw [show discard (k + 1) q = discard k q.drop by
            simp only [discard, hv, NegoQueue.drop]]
          have hrest := ih hq.drop
          have hge : q.negoSeqNo + 1 ≤ _ := hrest.horizon_ge
          have hle : _ ≤ q.negoSeqNo + 1 + k := hrest.horizon_le
          refine ⟨hrest.windowed, by omega, by omega, hrest.commit_eq, ?_⟩
          intro v
          rw [hrest.holds, NegoQueue.drop_holds hq]
          constructor
          · rintro ⟨⟨hs, -⟩, hlt⟩
            exact ⟨hs, hlt⟩
          · rintro ⟨hs, hlt⟩
            exact ⟨⟨hs, by omega⟩, hlt⟩

/-- The slot of a number, with the number put into it. -/
def NegoQueue.put (q : NegoQueue δ) (seqNo : Nat) (data : δ) : NegoQueue δ :=
  { q with
    valueList :=
      Function.update q.valueList (seqIdx seqNo) (some ⟨seqNo, data⟩)
    commitSeqNo := max q.commitSeqNo seqNo }

theorem NegoQueue.Windowed.put {q : NegoQueue δ} (hq : q.Windowed)
    (seqNo : Nat) (data : δ) (habove : q.negoSeqNo < seqNo)
    (hbelow : seqNo ≤ q.negoSeqNo + 16) : (q.put seqNo data).Windowed := by
  have hcases : ∀ {idx : Fin 16} {v : SeqValue δ},
      (q.put seqNo data).valueList idx = some v →
        idx = seqIdx seqNo ∧ v.seqNo = seqNo ∨ q.valueList idx = some v := by
    intro idx v h
    by_cases hidx : idx = seqIdx seqNo
    · subst hidx
      simp only [NegoQueue.put, Function.update_self] at h
      cases h
      exact .inl ⟨rfl, rfl⟩
    · simp only [NegoQueue.put, Function.update_of_ne hidx] at h
      exact .inr h
  constructor
  · intro idx v h
    obtain ⟨rfl, hv⟩ | hv := hcases h
    · rw [hv]
    · exact hq.slot hv
  · intro idx v h
    obtain ⟨-, hv⟩ | hv := hcases h
    · rw [hv]
      exact habove
    · exact hq.above hv
  · intro idx v h
    obtain ⟨-, hv⟩ | hv := hcases h
    · rw [hv]
      exact hbelow
    · exact hq.below hv
  · intro idx v h
    show v.seqNo ≤ max q.commitSeqNo seqNo
    obtain ⟨-, hv⟩ | hv := hcases h
    · rw [hv]
      exact le_max_right _ _
    · exact le_max_of_le_left (hq.commit hv)

theorem NegoQueue.put_holds {q : NegoQueue δ} {seqNo : Nat} {data : δ}
    (hempty : q.valueList (seqIdx seqNo) = none) (v : SeqValue δ) :
    (q.put seqNo data).Holds v ↔ v = ⟨seqNo, data⟩ ∨ q.Holds v := by
  by_cases hidx : seqIdx v.seqNo = seqIdx seqNo
  · simp only [NegoQueue.Holds, NegoQueue.put, hidx, Function.update_self,
      hempty]
    simp [eq_comm]
  · have hne : v ≠ ⟨seqNo, data⟩ := fun h => hidx (by rw [h])
    simp only [NegoQueue.Holds, NegoQueue.put, Function.update_of_ne hidx, hne,
      false_or]

/-- `discard` does not look at `commitSeqNo`. -/
theorem discard_commit (k : Nat) (q : NegoQueue δ) (c : Nat) :
    discard k { q with commitSeqNo := c } =
      { discard k q with commitSeqNo := c } := by
  induction k generalizing q with
  | zero => rfl
  | succ k ih =>
      cases hv : q.valueList (seqIdx (q.negoSeqNo + 1)) with
      | none => simp only [discard, hv]
      | some v =>
          simp only [discard, hv]
          exact ih q.drop

theorem discard_commitSeqNo (k : Nat) (q : NegoQueue δ) :
    (discard k q).commitSeqNo = q.commitSeqNo := by
  have h := congrArg NegoQueue.commitSeqNo (discard_commit k q q.commitSeqNo)
  exact h

/-- `commitSeqNo` can as well be set first. -/
theorem negoSeqNoHandle_eq (q : NegoQueue δ) (seqNo negoSeqNo : Nat) :
    negoSeqNoHandle q seqNo negoSeqNo =
      discard (negoSeqNo - q.negoSeqNo)
        { q with commitSeqNo := max q.commitSeqNo seqNo } := by
  have hc := discard_commitSeqNo (negoSeqNo - q.negoSeqNo) q
  rw [discard_commit]
  simp only [negoSeqNoHandle, hc]
  by_cases hlt : q.commitSeqNo < seqNo
  · rw [if_pos hlt, max_eq_right hlt.le]
  · rw [if_neg hlt, max_eq_left (by omega), ← hc]

/-- A request that finds its slot empty is put there, and what its horizon
    covers is discarded. -/
theorem negoSeqNo2Slv_empty {q : NegoQueue δ} {seqNo : Nat} (data : δ)
    (negoSeqNo : Nat) (hempty : q.valueList (seqIdx seqNo) = none) :
    negoSeqNo2Slv q seqNo data true negoSeqNo =
      (.ok, discard (negoSeqNo - q.negoSeqNo) (q.put seqNo data)) := by
  simp only [negoSeqNo2Slv, hempty, negoSeqNoHandle_eq]
  rfl

/-! ## The master's window -/

/-- The master's window tells which numbers are released: all up to `left`, and
    behind it those whose place is marked. -/
structure SlidingQueue.Tracks (q : SlidingQueue) (released : List Nat) :
    Prop where
  left_le : q.left ≤ q.right
  right_le : q.right ≤ q.left + 16
  marked : ∀ {t}, q.left < t → t ≤ q.left + 16 →
    (q.finish (seqIdx t) = true ↔ t ∈ released)
  done : ∀ {t}, 0 < t → t ≤ q.left → t ∈ released
  handed : ∀ {t}, t ∈ released → 0 < t ∧ t ≤ q.right

theorem SlidingQueue.Tracks.slide {q : SlidingQueue} {released : List Nat}
    (k : Nat) (hq : q.Tracks released) (hk : q.left + k ≤ q.right) :
    (slide k q).Tracks released ∧ q.left ≤ (Sequence.slide k q).left ∧
      (Sequence.slide k q).right = q.right := by
  induction k generalizing q with
  | zero => exact ⟨hq, le_refl _, rfl⟩
  | succ k ih =>
      by_cases hf : q.finish (seqIdx (q.left + 1)) = true
      · set q' : SlidingQueue :=
          { q with
            left := q.left + 1
            finish :=
              Function.update q.finish (seqIdx (q.left + 1)) false } with hq'
        rw [show Sequence.slide (k + 1) q = Sequence.slide k q' by
          simp only [Sequence.slide, hf, if_true, hq']]
        have hmem : q.left + 1 ∈ released :=
          (hq.marked (by omega) (by omega)).mp hf
        have htracks : q'.Tracks released := by
          refine ⟨by show q.left + 1 ≤ q.right; omega,
            by have := hq.right_le; show q.right ≤ q.left + 1 + 16; omega,
            ?_, ?_, hq.handed⟩
          · intro t hlt hle
            have hlt' : q.left + 1 < t := hlt
            have hle' : t ≤ q.left + 1 + 16 := hle
            by_cases hlast : t = q.left + 1 + 16
            · -- the place just cleared is the one of the newest number
              have hnot : t ∉ released := by
                intro h
                have := (hq.handed h).2
                have := hq.right_le
                omega
              simp [hq', hlast, seqIdx_add, hlast ▸ hnot]
            · have hne : seqIdx t ≠ seqIdx (q.left + 1) := by
                intro h
                have := eq_of_seqIdx_eq h (w := q.left) ⟨by omega, by omega⟩
                  ⟨by omega, by omega⟩
                omega
              simp only [hq', Function.update_of_ne hne]
              exact hq.marked (by omega) (by omega)
          · intro t hpos hle
            have hle' : t ≤ q.left + 1 := hle
            by_cases hlast : t = q.left + 1
            · rw [hlast]
              exact hmem
            · exact hq.done hpos (by omega)
        obtain ⟨h1, h2, h3⟩ := ih htracks
          (by show q.left + 1 + k ≤ q.right; omega)
        have h2' : q.left + 1 ≤ (Sequence.slide k q').left := h2
        exact ⟨h1, by omega, h3⟩
      · rw [show Sequence.slide (k + 1) q = q by
          simp [Sequence.slide, hf]]
        exact ⟨hq, le_refl _, rfl⟩

/-- A release keeps the window true. -/
theorem SlidingQueue.Tracks.release {q : SlidingQueue} {released : List Nat}
    (hq : q.Tracks released) {seqNo : Nat} (hlt : q.left < seqNo)
    (hle : seqNo ≤ q.right) :
    (releaseSeqNo2Mst q seqNo).Tracks (seqNo :: released) ∧
      q.left ≤ (releaseSeqNo2Mst q seqNo).left ∧
      (releaseSeqNo2Mst q seqNo).right = q.right := by
  have hright := hq.right_le
  have hmark : SlidingQueue.Tracks
      { q with finish := Function.update q.finish (seqIdx seqNo) true }
      (seqNo :: released) := by
    refine ⟨hq.left_le, hq.right_le, ?_, ?_, ?_⟩
    · intro t ht ht'
      by_cases heq : t = seqNo
      · simp [heq]
      · have hne : seqIdx t ≠ seqIdx seqNo := by
          intro h
          exact heq (eq_of_seqIdx_eq h (w := q.left) ⟨ht, ht'⟩
            ⟨hlt, by omega⟩)
        simp only [Function.update_of_ne hne, List.mem_cons, heq, false_or]
        exact hq.marked ht ht'
    · intro t hpos ht
      exact List.mem_cons_of_mem _ (hq.done hpos ht)
    · intro t ht
      obtain rfl | ht := List.mem_cons.mp ht
      · exact ⟨by omega, hle⟩
      · exact hq.handed ht
  exact hmark.slide (q.right - q.left) (by
    have := hq.left_le
    show q.left + (q.right - q.left) ≤ q.right
    omega)

/-! ## Invariant -/

/-- One copy, as the master's window sees it. -/
structure SlaveInv (left right : Nat) (q : NegoQueue δ) (accepted : List Nat) :
    Prop where
  windowed : q.Windowed
  horizon_le : q.negoSeqNo ≤ left
  horizon_commit : q.negoSeqNo ≤ q.commitSeqNo
  commit_le : q.commitSeqNo ≤ q.negoSeqNo + 16
  accepted_iff : ∀ t, t ∈ accepted ↔ 0 < t ∧ t ≤ q.negoSeqNo ∨ q.Saved t
  accepted_le : ∀ t ∈ accepted, t ≤ right

structure Inv (s : State n δ) : Prop where
  tracks : s.master.Tracks s.released
  sent : ∀ m ∈ s.sent, 0 < m.seqNo ∧ m.seqNo ≤ s.master.right ∧
    m.negoSeqNo ≤ s.master.left
  everywhere : ∀ t ∈ s.released, ∀ i, t ∈ s.accepted i
  slave : ∀ i, SlaveInv s.master.left s.master.right (s.slaves i)
    (s.accepted i)

theorem SlaveInv.mono {left right left' right' : Nat} {q : NegoQueue δ}
    {accepted : List Nat} (h : SlaveInv left right q accepted)
    (hl : left ≤ left') (hr : right ≤ right') :
    SlaveInv left' right' q accepted :=
  ⟨h.windowed, le_trans h.horizon_le hl, h.horizon_commit, h.commit_le,
    h.accepted_iff, fun t ht => le_trans (h.accepted_le t ht) hr⟩

theorem Inv.init : Inv (State.init : State n δ) := by
  refine ⟨⟨le_refl _, Nat.zero_le _, ?_, ?_, ?_⟩, ?_, ?_, ?_⟩
  · intro t _ _
    simp [State.init, SlidingQueue.fresh]
  · intro t hpos hle
    have : t ≤ 0 := hle
    omega
  · intro t ht
    cases ht
  · intro m hm
    cases hm
  · intro t ht
    cases ht
  · intro i
    refine ⟨⟨nofun, nofun, nofun, nofun⟩, le_refl _, le_refl _,
      Nat.zero_le _, ?_, nofun⟩
    intro t
    constructor
    · intro ht
      cases ht
    · rintro (⟨hpos, hle⟩ | ⟨v, hv, -⟩)
      · have : t ≤ 0 := hle
        omega
      · cases hv

/-- A message that can arrive is behind everything that is done. -/
theorem Inv.message {s : State n δ} (h : Inv s) {k : Nat} {m : Message δ}
    (hm : s.message k = some m) :
    s.master.left < m.seqNo ∧ m.seqNo ≤ s.master.right ∧
      m.negoSeqNo ≤ s.master.left := by
  obtain ⟨hsent, hnot⟩ := State.message_eq_some hm
  obtain ⟨hpos, hle, hnego⟩ := h.sent m hsent
  refine ⟨?_, hle, hnego⟩
  by_contra hgt
  exact hnot (h.tracks.done hpos (by omega))

/-- When the slot of a message is empty, the message is within the copy's
    window: the number sixteen before it is done, so the copy accepted it, and
    it would be in this slot otherwise. -/
theorem Inv.in_window {s : State n δ} (h : Inv s) {k : Nat} {m : Message δ}
    (hm : s.message k = some m) {i : Fin n}
    (hempty : (s.slaves i).valueList (seqIdx m.seqNo) = none) :
    m.seqNo ≤ (s.slaves i).negoSeqNo + 16 := by
  by_contra hfar
  obtain ⟨hlt, hle, -⟩ := h.message hm
  have hright := h.tracks.right_le
  have hdone : m.seqNo - 16 ∈ s.released :=
    h.tracks.done (by omega) (by omega)
  have hacc := h.everywhere _ hdone i
  have hidx : seqIdx (m.seqNo - 16) = seqIdx m.seqNo := by
    rw [← seqIdx_add (m.seqNo - 16), Nat.sub_add_cancel (by omega)]
  obtain ⟨-, hold⟩ | ⟨v, hv, hseq⟩ := ((h.slave i).accepted_iff _).mp hacc
  · omega
  · rw [NegoQueue.Holds, hseq, hidx, hempty] at hv
    cases hv

/-- **WHEN A COPY CONFLICTS**: exactly when the message is more than a window
    ahead of the copy's horizon. -/
theorem Inv.conflict_iff {s : State n δ} (h : Inv s) {k : Nat}
    {m : Message δ} (hm : s.message k = some m) (i : Fin n) :
    (s.call i m true).1 = .keyConflict ↔
      (s.slaves i).negoSeqNo + 16 < m.seqNo := by
  have hslave := h.slave i
  obtain ⟨hlt, hle, -⟩ := h.message hm
  cases hv : (s.slaves i).valueList (seqIdx m.seqNo) with
  | none =>
      have hin := h.in_window hm hv
      rw [State.call, negoSeqNo2Slv_empty _ _ hv]
      constructor
      · intro hcall
        cases hcall
      · intro hfar
        omega
  | some v =>
      have hslot := hslave.windowed.slot hv
      have habove := hslave.windowed.above hv
      have hbelow := hslave.windowed.below hv
      have hhor := hslave.horizon_le
      simp only [State.call, negoSeqNo2Slv, hv, Bool.not_true,
        Bool.false_eq_true, if_false]
      by_cases heq : v.seqNo = m.seqNo
      · rw [if_pos heq]
        constructor
        · intro hcall
          cases hcall
        · intro hfar
          omega
      · rw [if_neg heq]
        refine ⟨fun _ => ?_, fun _ => rfl⟩
        by_contra hin
        exact heq (eq_of_seqIdx_eq hslot ⟨habove, hbelow⟩
          ⟨by omega, by omega⟩)

/-- What the answer of a copy can be: it keeps its queue, and accepts only what
    it has saved, or it saves the message and discards up to a horizon that the
    master is done with. -/
theorem State.call_cases (s : State n δ) (i : Fin n) (m : Message δ)
    (b : Bool) :
    ((s.call i m b).2 = s.slaves i ∧
      ((s.call i m b).1 = .ok → (s.slaves i).Saved m.seqNo)) ∨
    ((s.call i m b).1 = .ok ∧
      (s.slaves i).valueList (seqIdx m.seqNo) = none ∧
      (s.call i m b).2 = discard (m.negoSeqNo - (s.slaves i).negoSeqNo)
        ((s.slaves i).put m.seqNo m.data)) := by
  cases b with
  | false =>
      refine .inl ⟨rfl, ?_⟩
      intro hok
      cases hok
  | true =>
      cases hv : (s.slaves i).valueList (seqIdx m.seqNo) with
      | none =>
          refine .inr ⟨?_, rfl, ?_⟩
          · rw [State.call, negoSeqNo2Slv_empty _ _ hv]
          · rw [State.call, negoSeqNo2Slv_empty _ _ hv]
      | some v =>
          left
          simp only [State.call, negoSeqNo2Slv, hv, Bool.not_true,
            Bool.false_eq_true, if_false]
          by_cases heq : v.seqNo = m.seqNo
          · rw [if_pos heq]
            refine ⟨rfl, fun _ => ⟨v, ?_, heq⟩⟩
            rw [NegoQueue.Holds, heq]
            exact hv
          · rw [if_neg heq]
            refine ⟨rfl, ?_⟩
            intro hok
            cases hok

/-- A copy that saves a message and discards keeps its invariant. -/
theorem SlaveInv.saves {left right : Nat} {q : NegoQueue δ}
    {accepted : List Nat} (h : SlaveInv left right q accepted)
    (hdone : ∀ t, 0 < t → t ≤ left → t ∈ accepted) {m : Message δ}
    (hlt : left < m.seqNo) (hle : m.seqNo ≤ right) (hnego : m.negoSeqNo ≤ left)
    (hempty : q.valueList (seqIdx m.seqNo) = none)
    (hin : m.seqNo ≤ q.negoSeqNo + 16) :
    SlaveInv left right
      (discard (m.negoSeqNo - q.negoSeqNo) (q.put m.seqNo m.data))
      (m.seqNo :: accepted) := by
  have hhor := h.horizon_le
  have hd := discard_spec (m.negoSeqNo - q.negoSeqNo)
    (h.windowed.put m.seqNo m.data (by omega) hin)
  set q' := discard (m.negoSeqNo - q.negoSeqNo) (q.put m.seqNo m.data)
  have hge : q.negoSeqNo ≤ q'.negoSeqNo := hd.horizon_ge
  have hle' : q'.negoSeqNo ≤ q.negoSeqNo + (m.negoSeqNo - q.negoSeqNo) :=
    hd.horizon_le
  have hcommit : q'.commitSeqNo = max q.commitSeqNo m.seqNo := hd.commit_eq
  have hold := h.commit_le
  refine ⟨hd.windowed, by omega, by omega, by omega, ?_, ?_⟩
  · intro t
    constructor
    · intro ht
      obtain rfl | ht := List.mem_cons.mp ht
      · refine .inr ⟨⟨m.seqNo, m.data⟩, (hd.holds _).mpr ⟨?_, ?_⟩, rfl⟩
        · exact (NegoQueue.put_holds hempty _).mpr (.inl rfl)
        · show q'.negoSeqNo < m.seqNo
          omega
      · obtain ⟨hpos, htle⟩ | ⟨v, hv, rfl⟩ := (h.accepted_iff t).mp ht
        · exact .inl ⟨hpos, by omega⟩
        · -- what was saved is still there, or the new horizon covers it
          by_cases hcov : v.seqNo ≤ q'.negoSeqNo
          · have := h.windowed.above hv
            exact .inl ⟨by omega, hcov⟩
          · refine .inr ⟨v, (hd.holds v).mpr ⟨?_, by omega⟩, rfl⟩
            exact (NegoQueue.put_holds hempty v).mpr (.inr hv)
    · rintro (⟨hpos, htle⟩ | ⟨v, hv, rfl⟩)
      · exact List.mem_cons_of_mem _ (hdone t hpos (by omega))
      · obtain rfl | hv := (NegoQueue.put_holds hempty v).mp
          ((hd.holds v).mp hv).1
        · exact List.mem_cons_self
        · exact List.mem_cons_of_mem _
            ((h.accepted_iff _).mpr (.inr ⟨v, hv, rfl⟩))
  · intro t ht
    obtain rfl | ht := List.mem_cons.mp ht
    · exact hle
    · exact h.accepted_le t ht

/-- A copy that accepts again what it has saved keeps its invariant. -/
theorem SlaveInv.again {left right : Nat} {q : NegoQueue δ}
    {accepted : List Nat} (h : SlaveInv left right q accepted) {t : Nat}
    (ht : q.Saved t) : SlaveInv left right q (t :: accepted) := by
  have hmem : t ∈ accepted := (h.accepted_iff t).mpr (.inr ht)
  have hsame : ∀ u, u ∈ t :: accepted ↔ u ∈ accepted := by
    intro u
    constructor
    · intro hu
      obtain rfl | hu := List.mem_cons.mp hu
      · exact hmem
      · exact hu
    · exact List.mem_cons_of_mem _
  exact ⟨h.windowed, h.horizon_le, h.horizon_commit, h.commit_le,
    fun u => (hsame u).trans (h.accepted_iff u),
    fun u hu => h.accepted_le u ((hsame u).mp hu)⟩

theorem Inv.answer {s : State n δ} (h : Inv s) {k : Nat} {m : Message δ}
    (hm : s.message k = some m) (i : Fin n) (b : Bool) :
    Inv (s.answer i m.seqNo (s.call i m b)) := by
  obtain ⟨hlt, hle, hnego⟩ := h.message hm
  have hmem : ∀ t j, t ∈ s.accepted j →
      t ∈ (s.answer i m.seqNo (s.call i m b)).accepted j := by
    intro t j ht
    simp only [State.answer]
    split
    · by_cases hj : j = i
      · subst hj
        rw [Function.update_self]
        exact List.mem_cons_of_mem _ ht
      · rwa [Function.update_of_ne hj]
    · exact ht
  refine ⟨h.tracks, h.sent, fun t ht j => hmem t j (h.everywhere t ht j), ?_⟩
  intro j
  by_cases hj : j = i
  · subst hj
    show SlaveInv s.master.left s.master.right
      (Function.update s.slaves j (s.call j m b).2 j) _
    rw [Function.update_self]
    simp only [State.answer]
    obtain ⟨hq, hok⟩ | ⟨hok, hempty, hq⟩ := s.call_cases j m b
    · rw [hq]
      split
      · rename_i hret
        rw [Function.update_self]
        exact (h.slave j).again (hok hret)
      · exact h.slave j
    · rw [hq, if_pos hok, Function.update_self]
      exact (h.slave j).saves
        (fun t hpos ht => h.everywhere t (h.tracks.done hpos ht) j) hlt hle
        hnego hempty (h.in_window hm hempty)
  · show SlaveInv s.master.left s.master.right
      (Function.update s.slaves i (s.call i m b).2 j) _
    rw [Function.update_of_ne hj]
    simp only [State.answer]
    split
    · rw [Function.update_of_ne hj]
      exact h.slave j
    · exact h.slave j

theorem Inv.step {s s' : State n δ} {e : Event n δ} (h : Inv s)
    (hs : step s e = some s') : Inv s' := by
  obtain ⟨data, -, rfl | ⟨hroom, rfl⟩⟩ | ⟨i, k, b, m, -, hm, rfl⟩ |
    ⟨seqNo, -, ⟨⟨m, hm, rfl⟩, hnot, hall⟩, rfl⟩ := step_cases hs
  · exact h
  · have hleft := h.tracks.left_le
    have hroom' : s.master.right - s.master.left < 16 := hroom
    refine ⟨⟨?_, ?_, h.tracks.marked, h.tracks.done, ?_⟩, ?_, h.everywhere, ?_⟩
    · show s.master.left ≤ s.master.right + 1
      omega
    · show s.master.right + 1 ≤ s.master.left + 16
      omega
    · intro t ht
      obtain ⟨hpos, hle⟩ := h.tracks.handed ht
      exact ⟨hpos, Nat.le_succ_of_le hle⟩
    · intro m hm
      obtain hm | hm := List.mem_append.mp hm
      · obtain ⟨hpos, hle, hnego⟩ := h.sent m hm
        exact ⟨hpos, Nat.le_succ_of_le hle, hnego⟩
      · rw [List.mem_singleton.mp hm]
        exact ⟨Nat.succ_pos _, le_refl _, le_refl _⟩
    · exact fun i => (h.slave i).mono (le_refl _) (Nat.le_succ _)
  · exact h.answer hm i b
  · obtain ⟨hpos, hle, -⟩ := h.sent m hm
    have hlt : s.master.left < m.seqNo := by
      by_contra hge
      exact hnot (h.tracks.done hpos (by omega))
    obtain ⟨htracks, hleft, hright⟩ := h.tracks.release hlt hle
    refine ⟨htracks, ?_, ?_, ?_⟩
    · intro m' hm'
      obtain ⟨hpos', hle', hnego'⟩ := h.sent m' hm'
      exact ⟨hpos', hright.symm ▸ hle', le_trans hnego' hleft⟩
    · intro t ht i
      obtain rfl | ht := List.mem_cons.mp ht
      · exact hall i
      · exact h.everywhere t ht i
    · exact fun i => (h.slave i).mono hleft (le_of_eq hright.symm)

/-! ## Results -/

/-- No call of the step returns `MMS_KEY_CONFLICT`. -/
def NoConflict (s : State n δ) : Event n δ → Prop
  | .deliver i k b => ∀ m, s.message k = some m →
      (s.call i m b).1 ≠ .keyConflict
  | _ => True

/-- What a copy has saved it still has after the step, unless the master has
    released it. -/
def KeepsUnreleased (s : State n δ) (e : Event n δ) : Prop :=
  ∀ s', step s e = some s' → ∀ i v, (s.slaves i).Holds v →
    v.seqNo ∉ s.released → (s'.slaves i).Holds v

/-- The message that arrives is at most a window ahead of the copy's horizon;
    a call that gets no memory does not come that far. -/
def InWindow (s : State n δ) : Event n δ → Prop
  | .deliver i k b => ∀ m, s.message k = some m → b = true →
      m.seqNo ≤ (s.slaves i).negoSeqNo + 16
  | _ => True

theorem Inv.noConflict_iff {s : State n δ} (h : Inv s) (e : Event n δ) :
    NoConflict s e ↔ InWindow s e := by
  cases e with
  | apply data => exact Iff.rfl
  | release seqNo => exact Iff.rfl
  | deliver i k b =>
      constructor
      · rintro hno m hm rfl
        by_contra hfar
        exact hno m hm ((h.conflict_iff hm i).mpr (by omega))
      · intro hin m hm hcall
        cases b with
        | false => cases hcall
        | true =>
            have := (h.conflict_iff hm i).mp hcall
            have := hin m hm rfl
            omega

/-- What a copy discards is released. -/
theorem Inv.keepsUnreleased {s : State n δ} (h : Inv s) (e : Event n δ) :
    KeepsUnreleased s e := by
  intro s' hs j v hv hnot
  obtain ⟨data, -, rfl | ⟨-, rfl⟩⟩ | ⟨i, k, b, m, -, hm, rfl⟩ |
    ⟨seqNo, -, -, rfl⟩ := step_cases hs
  · exact hv
  · exact hv
  · show (Function.update s.slaves i (s.call i m b).2 j).Holds v
    by_cases hj : j = i
    · subst hj
      rw [Function.update_self]
      obtain ⟨hq, -⟩ | ⟨-, hempty, hq⟩ := s.call_cases j m b
      · rwa [hq]
      · obtain ⟨hlt, hle, hnego⟩ := h.message hm
        have hhor := (h.slave j).horizon_le
        have hd := discard_spec (m.negoSeqNo - (s.slaves j).negoSeqNo)
          ((h.slave j).windowed.put m.seqNo m.data (by omega)
            (h.in_window hm hempty))
        rw [hq]
        refine (hd.holds v).mpr ⟨?_, ?_⟩
        · exact (NegoQueue.put_holds hempty v).mpr (.inr hv)
        · -- the new horizon is one the master had reached
          have hhor' := hd.horizon_le
          simp only [NegoQueue.put] at hhor'
          have hpos := (h.slave j).windowed.above hv
          by_contra hcov
          refine hnot (h.tracks.done (by omega) ?_)
          simp only [NegoQueue.put] at hcov
          omega
    · rwa [Function.update_of_ne hj]
  · exact hv

/-- **THE SEQUENCE WINDOW**: in every run no copy discards what is not
    released; and no call conflicts exactly when every message arrives at most
    a window ahead of the copy's horizon. -/
theorem window_kept_iff (es : List (Event n δ)) :
    Along step (fun s e => NoConflict s e ∧ KeepsUnreleased s e) State.init es ↔
      Along step InWindow State.init es := by
  constructor
  · exact along_of_invariant (fun s e s' h hs => Inv.step h hs)
      (fun s e h hG => (h.noConflict_iff e).mp hG.1) es State.init Inv.init
  · exact along_of_invariant (fun s e s' h hs => Inv.step h hs)
      (fun s e h hG => ⟨(h.noConflict_iff e).mpr hG, h.keepsUnreleased e⟩) es
      State.init Inv.init

/-- Sixteen requests reach the only copy, the first one is released, and the
    seventeenth is numbered with it as its horizon. -/
def fullWindow : List (Event 1 Unit) :=
  [List.replicate 16 (.apply ()),
    (List.range 16).map fun k => .deliver 0 k true,
    [.release 1, .apply ()]].flatten

/-- The seventeenth request conflicts, although its horizon frees its slot. -/
theorem full_window_conflicts :
    ¬ Along step (fun s e => NoConflict s e ∧ KeepsUnreleased s e) State.init
      (fullWindow ++ [.deliver 0 16 true]) := by
  intro h
  obtain ⟨-, hlast⟩ := along_append.mp h
  have hcall : ((runFrom step State.init fullWindow).bind fun t =>
      (t.message 16).map fun m => (t.call 0 m true).1) =
        some .keyConflict := by decide +kernel
  obtain ⟨t, ht, hcall⟩ := Option.bind_eq_some_iff.mp hcall
  obtain ⟨m, hm, hconflict⟩ := Option.map_eq_some_iff.mp hcall
  exact (hlast t ht).1.1 m hm hconflict

end UbsIo.Sequence
