import UbsIo.Rcache.Held

/-! # How the tiers of the read cache advance

    An eviction takes the first chunk of its tier out of the truncate list, and
    moves `mDataTruncOffset` behind it.  `Ordered` says that no range that
    somebody holds is left behind; the disk tier keeps it in every run, the
    memory tier as long as the chunk on disk has the offset it had in
    memory. -/

namespace UbsIo.Rcache

open UbsIo.Lib

variable {ι κ β : Type} {n n' : Cache ι κ β} {tier : Tier} {c : Nat}

/-- The chunk that a thread has taken out of the list of a tier. -/
def Phase.passes : Phase κ β → Tier → Option Nat
  | .unqueued _ _ c _, .mem => some c
  | .unlisted _ _ c _, .mem => some c
  | .moved _ _ c _, .mem => some c
  | .dropped _ _ c, .disk => some c
  | _, _ => none

/-- No range of the tier is left behind. -/
structure Ordered (n : Cache ι κ β) (tier : Tier) : Prop where
  behind : (n.flow tier).truncateOffset ≤ (n.flow tier).dataTruncOffset
  within : (n.flow tier).dataTruncOffset ≤ (n.flow tier).offset
  ahead : ∀ w v, n.claim tier w = some v →
    (n.flow tier).dataTruncOffset ≤ v.flowOffset
  passed : ∀ t c k, (n.threads t).passes tier = some c →
    n.chunks c = some k →
    (n.flow tier).dataTruncOffset + k.value.length ≤ (n.flow tier).offset ∧
      ∀ w v, n.claim tier w = some v →
        (n.flow tier).dataTruncOffset + k.value.length ≤ v.flowOffset

theorem ordered_init (blank : β) (tier : Tier) :
    Ordered (Cache.init blank : Cache ι κ β) tier where
  behind := le_rfl
  within := le_rfl
  ahead := by
    intro w v h
    cases w <;> cases h
  passed := by
    intro t c k h
    cases h

/-- What a step does to the offsets up to which the flows are given up. -/
inductive OffsetStep (n n' : Cache ι κ β) : Prop where
  | same (hdata : ∀ tier, (n'.flow tier).dataTruncOffset =
        (n.flow tier).dataTruncOffset)
      (htrunc : ∀ tier, (n'.flow tier).truncateOffset =
        (n.flow tier).truncateOffset)
  | advance (t : ι) (tier : Tier) (c : Nat) (k : Chunk ι κ β)
      (hp : (n.threads t).passes tier = some c) (hk : n.chunks c = some k)
      (hv : tier = .mem → (n.threads t).claim .disk = some k.value)
      (hp' : ∀ x, (n'.threads t).passes x = none)
      (hclaim' : ∀ x, (n'.threads t).claim x = none)
      (hdata : (n'.flow tier).dataTruncOffset = k.value.reach)
      (hothers : ∀ x, x ≠ tier → (n'.flow x).dataTruncOffset =
        (n.flow x).dataTruncOffset)
      (htrunc : ∀ x, (n'.flow x).truncateOffset = (n.flow x).truncateOffset)
  | truncate (hdata : ∀ tier, (n'.flow tier).dataTruncOffset =
        (n.flow tier).dataTruncOffset)
      (hle : ∀ tier, (n.flow tier).truncateOffset ≤
        (n'.flow tier).truncateOffset)
      (hmax : ∀ tier, (n'.flow tier).truncateOffset ≤
        max (n.flow tier).truncateOffset (n.flow tier).dataTruncOffset)

theorem Same.offsets {m : Cache ι κ β} (h : Same n m) : OffsetStep n m :=
  .same (fun tier => (h.flow tier).dataTruncOffset)
    fun tier => (h.flow tier).truncateOffset

/-- Only the flows matter. -/
theorem OffsetStep.congr {m : Cache ι κ β} (h : Same n m)
    (hflow : n'.flow = m.flow) : OffsetStep n n' :=
  .same (fun tier => hflow ▸ (h.flow tier).dataTruncOffset)
    fun tier => hflow ▸ (h.flow tier).truncateOffset

/-- A flow has the same offsets. -/
theorem OffsetStep.setFlow (tier : Tier) {m : Cache ι κ β} {f : RCacheFlow β}
    (h : Same n m) (hdata : f.dataTruncOffset = (m.flow tier).dataTruncOffset)
    (htrunc : f.truncateOffset = (m.flow tier).truncateOffset)
    (hflow : n'.flow = (m.setFlow tier f).flow) : OffsetStep n n' := by
  refine .same ?_ ?_
  · intro x
    rw [hflow]
    exact (setFlow_congr (·.dataTruncOffset) hdata x).trans
      (h.flow x).dataTruncOffset
  · intro x
    rw [hflow]
    exact (setFlow_congr (·.truncateOffset) htrunc x).trans
      (h.flow x).truncateOffset

variable [DecidableEq ι] [DecidableEq κ] {e : Event ι κ β}

theorem Good.offsetStep (h : Good n) (ht : Trans n e n') : OffsetStep n n' := by
  cases ht with
  | quiet _ m hsame => exact hsame.offsets
  | moves t _ q m hsame hq => exact .congr hsame rfl
  | relocks t _ q m c k k' hsame hc hk hq => exact .congr hsame rfl
  | reserved t _ f v hp hf =>
      exact .setFlow .mem (.refl n) hf.dataTruncOffset hf.truncateOffset rfl
  | written t _ v data hp hlen =>
      exact .setFlow .mem
        (f := (n.flow .mem).write v.flowOffset data) (.refl n) rfl rfl rfl
  | returned t _ tier m hsame hp => exact .congr hsame rfl
  | allocated t _ needEvict haveEvict c k f v hp hk hlock hf hlen =>
      exact .setFlow .disk (.refl n) hf.dataTruncOffset hf.truncateOffset rfl
  | failed t _ needEvict haveEvict c k v m hsame hp hk he =>
      exact .congr hsame rfl
  | copied t _ needEvict haveEvict c k v m hsame hp hk hmem =>
      exact .setFlow .disk
        (f := (m.flow .disk).write v.flowOffset _) hsame rfl rfl rfl
  | moved t _ needEvict haveEvict c k v m hsame hp hk => exact .congr hsame rfl
  | arrived t _ needEvict haveEvict c k v hp hk =>
      obtain ⟨k', hk', -, -, -, hv⟩ : Fits n t (.moved needEvict haveEvict
        c v) := hp ▸ h.fits t
      obtain rfl := Option.some.inj (hk.symm.trans hk')
      refine .advance t .mem c k (by rw [hp]; rfl) hk ?_ ?_ ?_ ?_ ?_ ?_
      · intro _
        rw [hp, hv]
        rfl
      · intro x
        rw [goto_threads_self]
        cases x <;> rfl
      · intro x
        rw [goto_threads_self]
        cases x <;> rfl
      · exact congrArg RCacheFlow.dataTruncOffset (setFlow_self n ..)
      · intro x hx
        exact congrArg RCacheFlow.dataTruncOffset (setFlow_of_ne n _ hx)
      · intro x
        exact setFlow_congr (f := (n.flow .mem).updateDataTruncOffset k.value)
          (·.truncateOffset) rfl x
  | gone t _ needEvict haveEvict c k m hsame hp hk =>
      refine .advance t .disk c k (by rw [hp]; rfl) hk nofun ?_ ?_ ?_ ?_ ?_
      · intro x
        rw [goto_threads_self]
        cases x <;> rfl
      · intro x
        rw [goto_threads_self]
        cases x <;> rfl
      · exact congrArg RCacheFlow.dataTruncOffset (setFlow_self m ..)
      · intro x hx
        exact (congrArg RCacheFlow.dataTruncOffset
          (setFlow_of_ne m _ hx)).trans (hsame.flow x).dataTruncOffset
      · intro x
        exact (setFlow_congr (f := (m.flow .disk).updateDataTruncOffset k.value)
          (·.truncateOffset) rfl x).trans (hsame.flow x).truncateOffset
  | truncated t _ tier haveEvict f hp hf =>
      refine .truncate ?_ ?_ ?_
      · exact fun x => setFlow_congr (·.dataTruncOffset) hf.dataTruncOffset x
      · intro x
        show _ ≤ ((n.setFlow tier f).flow x).truncateOffset
        by_cases hx : x = tier
        · subst hx
          rw [setFlow_self]
          exact hf.le
        · rw [show (n.setFlow tier f).flow x = n.flow x from
            Function.update_of_ne hx ..]
      · intro x
        show ((n.setFlow tier f).flow x).truncateOffset ≤ _
        by_cases hx : x = tier
        · subst hx
          rw [setFlow_self]
          exact hf.le_max
        · rw [show (n.setFlow tier f).flow x = n.flow x from
            Function.update_of_ne hx ..]
          exact Nat.le_max_left ..
  | _ => exact .same (fun _ => rfl) fun _ => rfl

/-- What all ranges begin behind, they begin behind after the step. -/
theorem Good.bound_step (h : Good n) (ht : Trans n e n') {B : Nat}
    (hB : B ≤ (n.flow tier).offset)
    (hall : ∀ w v, n.claim tier w = some v → B ≤ v.flowOffset) :
    B ≤ (n'.flow tier).offset ∧
      ∀ w v, n'.claim tier w = some v → B ≤ v.flowOffset := by
  cases h.rangeStep ht with
  | same hclaim hindex hoffset =>
      rw [hoffset, hclaim]
      exact ⟨hB, hall⟩
  | push t x v hnone hself hothers htiers htook hflows _ =>
      by_cases hx : tier = x
      · subst hx
        have hv : B ≤ v.flowOffset := htook.value_offset ▸ hB
        refine ⟨htook.offset ▸ hv.trans v.lt_reach.le, ?_⟩
        intro w u hw
        by_cases hwt : w = .thread t
        · rw [hwt, hself] at hw
          rw [← Option.some.inj hw]
          exact hv
        · exact hall w u (hothers w hwt ▸ hw)
      · rw [hflows tier hx, htiers tier hx]
        exact ⟨hB, hall⟩
  | pass x w y v hne _ hw hw' hy hy' hothers htiers hindex hoffset =>
      rw [hoffset]
      refine ⟨hB, ?_⟩
      intro z u hz
      by_cases hx : tier = x
      · subst hx
        by_cases hzw : z = w
        · rw [hzw, hw'] at hz
          cases hz
        · by_cases hzy : z = y
          · rw [hzy, hy'] at hz
            rw [← Option.some.inj hz]
            exact hall w v hw
          · exact hall z u (hothers z hzw hzy ▸ hz)
      · exact hall z u (htiers tier hx ▸ hz)
  | drop x c hc hc' hothers htiers hindex hoffset =>
      rw [hoffset]
      refine ⟨hB, ?_⟩
      intro z u hz
      by_cases hx : tier = x
      · subst hx
        by_cases hzc : z = .chunk c
        · rw [hzc, hc'] at hz
          cases hz
        · exact hall z u (hothers z hzc ▸ hz)
      · exact hall z u (htiers tier hx ▸ hz)

omit [DecidableEq ι] [DecidableEq κ] in
theorem Phase.evicts_of_passes {p : Phase κ β} (h : p.passes tier = some c) :
    p.evicts = some tier := by
  cases p <;> cases tier <;> first | rfl | cases h

omit [DecidableEq ι] [DecidableEq κ] in
/-- A chunk that a thread has taken out of a list is locked. -/
theorem Good.passes_locked (h : Good n) {u : ι}
    (hu : (n.threads u).passes tier = some c) :
    ∃ k, n.chunks c = some k ∧ k.lock = some u ∧ Unqueued n c := by
  have hfit := h.fits u
  cases hp : n.threads u <;> rw [hp] at hu hfit <;> cases tier <;> cases hu
  case unqueued.mem.refl =>
    obtain ⟨k, hk, hlock, hc, -⟩ := hfit
    exact ⟨k, hk, hlock, hc⟩
  case unlisted.mem.refl =>
    obtain ⟨k, hk, hlock, hc, -⟩ := hfit
    exact ⟨k, hk, hlock, hc⟩
  case moved.mem.refl =>
    obtain ⟨k, hk, hlock, hc, -⟩ := hfit
    exact ⟨k, hk, hlock, hc⟩
  case dropped.disk.refl =>
    obtain ⟨k, hk, hlock, hc, -⟩ := hfit
    exact ⟨k, hk, hlock, hc⟩

/-- Who has taken a chunk out of a list has had it before, or did so with this
    step. -/
theorem Good.passes_step (h : Good n) (ht : Trans n e n') {u : ι}
    (hu : (n'.threads u).passes tier = some c) :
    (n.threads u).passes tier = some c ∨
    ∃ k, c ∈ n.truncateQ tier ∧ n.chunks c = some k ∧
      k.value.flowOffset = (n.flow tier).dataTruncOffset ∧
      (∀ k', n'.chunks c = some k' → k' = k) ∧ n'.flow = n.flow ∧
      n'.claim tier (.chunk c) = none ∧
      ∀ w, w ≠ .chunk c → n'.claim tier w = n.claim tier w := by
  -- the step that takes a chunk out
  have htake : ∀ {x : Tier} {k : Chunk ι κ β} {p q : Phase κ β},
      n.threads u = p → (∀ y, q.claim y = p.claim y) → c ∈ n.truncateQ x →
      n.chunks c = some k → Due n x k → x = tier →
      n' = (n.setTruncateQ x ((n.truncateQ x).erase c)).goto u q →
      ∃ k, c ∈ n.truncateQ tier ∧ n.chunks c = some k ∧
        k.value.flowOffset = (n.flow tier).dataTruncOffset ∧
        (∀ k', n'.chunks c = some k' → k' = k) ∧ n'.flow = n.flow ∧
        n'.claim tier (.chunk c) = none ∧
        ∀ w, w ≠ .chunk c → n'.claim tier w = n.claim tier w := by
    rintro x k p q hp hclaim hc hk hdue rfl rfl
    refine ⟨k, hc, hk, hdue.2, ?_, rfl, ?_, ?_⟩
    · intro k' hk'
      exact Option.some.inj (hk'.symm.trans hk)
    · exact if_neg (h.unqueued_erase hk hdue.1 x)
    · exact fun w hw => claim_erase hp hclaim x w fun _ => hw
  rcases ht.phase u with hsame | hstep
  · exact Or.inl (hsame ▸ hu)
  have hfit := h.fits u
  generalize hp : n.threads u = p at hstep hfit
  generalize n'.threads u = q at hstep hu
  cases hstep with
  | moves hq => cases hq <;> cases tier <;> exact Or.inl hu
  | relocks hq => cases hq <;> cases tier <;> exact Or.inl hu
  | moved needEvict haveEvict c₀ v => cases tier <;> exact Or.inl hu
  | unqueued needEvict haveEvict c₀ v hn =>
      obtain ⟨k, hk, -, hc₀, hdue, -⟩ := hfit
      cases tier with
      | mem =>
          obtain rfl := Option.some.inj hu
          exact Or.inr
            (htake hp (fun x => by cases x <;> rfl) hc₀ hk hdue rfl hn)
      | disk => cases hu
  | dropped needEvict haveEvict c₀ hn =>
      obtain ⟨k, hk, -, hc₀, hdue, -⟩ := hfit
      cases tier with
      | mem => cases hu
      | disk =>
          obtain rfl := Option.some.inj hu
          exact Or.inr
            (htake hp (fun x => by cases x <;> rfl) hc₀ hk hdue rfl hn)
  | _ => cases tier <;> cases hu

omit [DecidableEq ι] [DecidableEq κ] in
/-- The chunk that leaves the disk tier is the first of its flow. -/
theorem Good.dropped_due (h : Good n) {u : ι} {k : Chunk ι κ β}
    (hu : (n.threads u).passes .disk = some c) (hk : n.chunks c = some k) :
    k.value.flowOffset = (n.flow .disk).dataTruncOffset := by
  have hfit := h.fits u
  cases hp : n.threads u <;> rw [hp] at hu hfit <;> cases hu
  obtain ⟨k', hk', -, -, hdue, -⟩ := hfit
  obtain rfl := Option.some.inj (hk.symm.trans hk')
  exact hdue.2

/-- The chunk that goes from a tier has had its range at the offset up to which
    the tier is given up. -/
def Level (n : Cache ι κ β) : Prop :=
  ∀ t v, (n.threads t).claim .disk = some v →
    v.flowOffset = (n.flow .mem).dataTruncOffset

/-- **NO RANGE IS LEFT BEHIND** by a step. -/
theorem Ordered.step (ho : Ordered n tier) (h : Good n) (ht : Trans n e n')
    (hlevel : tier = .mem → Level n) : Ordered n' tier := by
  have hb := h.bound_step ht ho.within ho.ahead
  -- the end of the range that is given up, if there is one
  have hend : ∀ t c k, (n.threads t).passes tier = some c →
      n.chunks c = some k →
      (n.flow tier).dataTruncOffset + k.value.length ≤ (n'.flow tier).offset ∧
        ∀ w v, n'.claim tier w = some v →
          (n.flow tier).dataTruncOffset + k.value.length ≤ v.flowOffset :=
    fun t c k hp hk => h.bound_step ht (ho.passed t c k hp hk).1
      (ho.passed t c k hp hk).2
  have hpassed : (n'.flow tier).dataTruncOffset =
      (n.flow tier).dataTruncOffset →
      ∀ u c k', (n'.threads u).passes tier = some c → n'.chunks c = some k' →
        (n'.flow tier).dataTruncOffset + k'.value.length ≤
          (n'.flow tier).offset ∧
        ∀ w v, n'.claim tier w = some v →
          (n'.flow tier).dataTruncOffset + k'.value.length ≤ v.flowOffset := by
    intro hdata u c k' hu hk'
    rw [hdata]
    rcases h.passes_step ht hu with hold |
      ⟨k, hc, hk, hoff, heq, hflow, hnone, hothers⟩
    · obtain ⟨k, hk, -⟩ := h.passes_locked hold
      obtain ⟨k₁, hk₁, hkeeps⟩ := h.keeps ht hk
      obtain rfl := Option.some.inj (hk'.symm.trans hk₁)
      rw [hkeeps.length]
      exact hend u c k hold hk
    · obtain rfl := heq k' hk'
      have hclaim := claim_chunk hc hk
      have hreach : (n.flow tier).dataTruncOffset + k'.value.length =
          k'.value.reach := by rw [← hoff]; rfl
      rw [hreach]
      have hwithin : k'.value.reach ≤ (n.flow tier).offset :=
        ((h.handed tier).below _ _ hclaim).2.2
      refine ⟨hflow ▸ hwithin, ?_⟩
      intro w v hw
      have hne : w ≠ .chunk c := by
        rintro rfl
        rw [hnone] at hw
        cases hw
      have hw' := hothers w hne ▸ hw
      exact (h.handed tier).behind_le hne.symm hclaim hw'
        (hoff.trans_le (ho.ahead w v hw'))
  cases h.offsetStep ht with
  | same hdata htrunc =>
      refine ⟨?_, ?_, ?_, hpassed (hdata tier)⟩
      · rw [htrunc, hdata]
        exact ho.behind
      · rw [hdata]
        exact hb.1
      · rw [hdata]
        exact hb.2
  | truncate hdata hle hmax =>
      refine ⟨?_, ?_, ?_, hpassed (hdata tier)⟩
      · rw [hdata]
        exact (hmax tier).trans (max_le ho.behind le_rfl)
      · rw [hdata]
        exact hb.1
      · rw [hdata]
        exact hb.2
  | advance t x c k hp hk hv hp' _ hdata hothers htrunc =>
      by_cases hx : tier = x
      · subst hx
        have hoff : k.value.flowOffset = (n.flow tier).dataTruncOffset := by
          cases tier with
          | mem => exact hlevel rfl t k.value (hv rfl)
          | disk => exact h.dropped_due hp hk
        have hnew : (n'.flow tier).dataTruncOffset =
            (n.flow tier).dataTruncOffset + k.value.length := by
          rw [hdata, ← hoff]
          rfl
        have hmove := hend t c k hp hk
        have hpos := k.value.length_pos
        have hbehind := ho.behind
        refine ⟨?_, ?_, ?_, ?_⟩
        · rw [htrunc, hnew]
          omega
        · rw [hnew]
          exact hmove.1
        · rw [hnew]
          exact hmove.2
        · intro u c' k' hu
          rcases h.passes_step ht hu with hold | ⟨-, -, -, -, -, hflow, -, -⟩
          · have hut := h.alone u t tier (Phase.evicts_of_passes hold)
              (Phase.evicts_of_passes hp)
            rw [hut, hp'] at hu
            cases hu
          · rw [hflow] at hnew
            omega
      · refine ⟨?_, ?_, ?_, hpassed (hothers tier hx)⟩
        · rw [htrunc, hothers tier hx]
          exact ho.behind
        · rw [hothers tier hx]
          exact hb.1
        · rw [hothers tier hx]
          exact hb.2

end UbsIo.Rcache
