import UbsIo.Rcache.Contents

/-! # The two tiers in step

    `EvictMemData` gives the memory flow up to the offset that the chunk has on
    disk.  That is right as long as both flows have the same offsets: a chunk
    goes to disk at the offset it had in memory, since nothing else ever takes
    a range of the disk flow.  A copy that fails behind its `AllocOffset`
    breaks it; in the runs without, no range of either flow is left behind. -/

namespace UbsIo.Rcache

open UbsIo.Lib

variable {ι κ β : Type} {n n' : Cache ι κ β} {tier : Tier} {c : Nat}

/-- No copy to disk fails once it has its range. -/
def Copying (n : Cache ι κ β) : Event ι κ β → Prop
  | .fail t => ∀ needEvict haveEvict c v,
      n.threads t ≠ .allocated needEvict haveEvict c v
  | _ => True

/-- Besides, the callers of `Put` know the CRC of what they have written, and
    reading it again does not fail. -/
structure Sound (crc : Option (List β → Nat)) (n : Cache ι κ β)
    (e : Event ι κ β) : Prop where
  copying : Copying n e
  certified : ∀ t key dataCrc v data f, e = .insert t key dataCrc →
    n.threads t = .written v data → crc = some f → dataCrc = f data
  verified : ∀ t q c realLen, e = .fail t →
    n.threads t ≠ .addressed q c realLen

/-- `Sound`, to be evaluated. -/
def soundB (crc : Option (List β → Nat)) (n : Cache ι κ β) :
    Event ι κ β → Bool
  | .insert t _ dataCrc =>
      match n.threads t, crc with
      | .written _ data, some f => dataCrc == f data
      | _, _ => true
  | .fail t =>
      match n.threads t with
      | .allocated _ _ _ _ => false
      | .addressed _ _ _ => false
      | _ => true
  | _ => true

theorem sound_of_soundB {crc : Option (List β → Nat)} {e : Event ι κ β}
    (h : soundB crc n e = true) : Sound crc n e := by
  refine ⟨?_, ?_, ?_⟩
  · cases e with
    | fail t =>
        intro needEvict haveEvict c v hp
        simp only [soundB, hp] at h
        cases h
    | _ => trivial
  · rintro t key dataCrc v data f rfl hp hf
    simp only [soundB, hp, hf] at h
    exact eq_of_beq h
  · rintro t q c realLen rfl hp
    simp only [soundB, hp] at h
    cases h

/-- Both tiers in step. -/
structure Lockstep (n : Cache ι κ β) : Prop where
  mem : Ordered n .mem
  disk : Ordered n .disk
  level : Level n
  even : (∀ t, (n.threads t).claim .disk = none) →
    (n.flow .disk).offset = (n.flow .mem).dataTruncOffset

theorem lockstep_init (blank : β) :
    Lockstep (Cache.init blank : Cache ι κ β) where
  mem := ordered_init blank .mem
  disk := ordered_init blank .disk
  level := by
    intro t v h
    cases h
  even := fun _ => rfl

theorem Lockstep.ordered (h : Lockstep n) : ∀ tier, Ordered n tier
  | .mem => h.mem
  | .disk => h.disk

/-- The flows have all ranges that somebody holds. -/
theorem Lockstep.placed (hl : Lockstep n) {w : Holder ι} {v : Value}
    (hw : n.claim tier w = some v) :
    (n.flow tier).truncateOffset ≤ v.flowOffset :=
  (hl.ordered tier).behind.trans ((hl.ordered tier).ahead w v hw)

/-- The addresses of a range that somebody holds are found. -/
theorem Lockstep.getAddr (hl : Lockstep n) (h : Good n) {w : Holder ι}
    {v : Value} (hw : n.claim tier w = some v) {offset reach : Nat}
    (hlow : v.flowOffset ≤ offset) (hhigh : reach ≤ v.reach) (loaded : Nat) :
    ((n.flow tier).getAddrByOffset offset reach loaded).2 = true := by
  refine RCacheFlow.getAddr_ok ((hl.placed hw).trans hlow) ?_
  exact hhigh.trans ((((h.handed tier).below w v hw).2.2).trans (h.loaded tier))

variable [DecidableEq ι] [DecidableEq κ] {e : Event ι κ β}
  {crc : Option (List β → Nat)}

/-- The range on disk stays with the thread, or the chunk arrives there, or the
    copy has failed. -/
theorem Good.claim_disk_step (h : Good n) (ht : Trans n e n') {t : ι}
    {v : Value} (hv : (n.threads t).claim .disk = some v) :
    (n'.threads t).claim .disk = some v ∨
    ((n'.flow .mem).dataTruncOffset = v.reach ∧
      (n'.flow .disk).offset = (n.flow .disk).offset) ∨
    ∃ needEvict haveEvict c k,
      n.threads t = .allocated needEvict haveEvict c v ∧ n.chunks c = some k ∧
      (e = .fail t ∨ ∃ loaded stale, e = .go t loaded stale ∧
        (((n.flow .mem).getAddrByOffset k.value.flowOffset k.value.reach
            loaded).2 = false ∨
          ((n.flow .disk).getAddrByOffset v.flowOffset v.reach loaded).2 =
            false)) := by
  rcases ht.phase t with hsame | hstep
  · exact Or.inl (hsame ▸ hv)
  have hfit := h.fits t
  generalize n.threads t = p at hstep hv hfit ⊢
  generalize n'.threads t = q at hstep ⊢
  cases hstep with
  | moves hq => exact Or.inl ((hq.claim .disk).trans hv)
  | relocks hq => exact Or.inl ((hq.claim .disk).trans hv)
  | copied needEvict haveEvict c v₀ k m hk hmem hchunks hn => exact Or.inl hv
  | unqueued needEvict haveEvict c v₀ hn => exact Or.inl hv
  | moved needEvict haveEvict c v₀ => exact Or.inl hv
  | failed needEvict haveEvict c v₀ k hk he =>
      obtain rfl := Option.some.inj hv
      exact Or.inr (Or.inr ⟨needEvict, haveEvict, c, k, rfl, hk, he⟩)
  | arrived needEvict haveEvict got c v₀ k hk hn =>
      obtain ⟨k', hk', -, -, -, hval⟩ := hfit
      obtain rfl := Option.some.inj (hk.symm.trans hk')
      obtain rfl := Option.some.inj hv
      subst hn
      refine Or.inr (Or.inl ⟨?_, ?_⟩)
      · rw [← hval]
        exact congrArg RCacheFlow.dataTruncOffset (setFlow_self n ..)
      · exact congrArg RCacheFlow.offset
          (setFlow_of_ne n ((n.flow .mem).updateDataTruncOffset k.value)
            (show Tier.disk ≠ Tier.mem from nofun))
  | _ => cases hv

/-- A range on disk that a thread has after the step is one it had, or the next
    of the flow. -/
theorem Good.claim_disk_old (h : Good n) (ht : Trans n e n') {t : ι} {v : Value}
    (hv : (n'.threads t).claim .disk = some v) :
    (n.threads t).claim .disk = some v ∨
      (∀ u, (n.threads u).claim .disk = none) ∧
        v.flowOffset = (n.flow .disk).offset ∧
        (n'.flow .mem) = (n.flow .mem) := by
  have hclaim : n'.claim .disk (.thread t) = some v := hv
  cases h.rangeStep ht with
  | same hsame _ _ =>
      rw [hsame] at hclaim
      exact Or.inl hclaim
  | push u x w hnone hself hothers htiers htook hflows hevicts =>
      cases x with
      | mem =>
          rw [htiers .disk nofun] at hclaim
          exact Or.inl hclaim
      | disk =>
          by_cases htu : t = u
          · subst htu
            rw [hself] at hclaim
            obtain rfl := Option.some.inj hclaim
            refine Or.inr ⟨?_, htook.value_offset, hflows .mem nofun⟩
            intro y
            cases hy : (n.threads y).claim .disk with
            | none => rfl
            | some z =>
                obtain rfl := h.alone y t .mem (Phase.evicts_of_claim hy)
                  (hevicts rfl)
                have hnone' : (n.threads y).claim .disk = none := hnone
                rw [hy] at hnone'
                cases hnone'
          · rw [hothers _ fun heq => htu (Holder.thread.inj heq)] at hclaim
            exact Or.inl hclaim
  | pass x w y v' hne hthread hw hw' hy hy' hothers htiers _ _ =>
      left
      by_cases hx : Tier.disk = x
      · subst hx
        by_cases hte : Holder.thread t = w
        · rw [hte, hw'] at hclaim
          cases hclaim
        · rw [hothers _ hte (hthread t).symm] at hclaim
          exact hclaim
      · rw [htiers .disk hx] at hclaim
        exact hclaim
  | drop x c hc hc' hothers htiers _ _ =>
      left
      by_cases hx : Tier.disk = x
      · subst hx
        rw [hothers (.thread t) nofun] at hclaim
        exact hclaim
      · rw [htiers .disk hx] at hclaim
        exact hclaim

omit [DecidableEq ι] [DecidableEq κ] in
/-- Such a step loses no copy. -/
theorem Lockstep.not_failed (hl : Lockstep n) (h : Good n) {t : ι}
    {needEvict haveEvict : Nat} {v : Value} {k : Chunk ι κ β}
    (hp : n.threads t = .allocated needEvict haveEvict c v)
    (hk : n.chunks c = some k) (hcopying : Copying n e) :
    ¬ (e = .fail t ∨ ∃ loaded stale, e = .go t loaded stale ∧
      (((n.flow .mem).getAddrByOffset k.value.flowOffset k.value.reach
          loaded).2 = false ∨
        ((n.flow .disk).getAddrByOffset v.flowOffset v.reach loaded).2 =
          false)) := by
  rintro (rfl | ⟨loaded, stale, -, hbad⟩)
  · exact hcopying _ _ _ _ hp
  · obtain ⟨k', hk', -, hc, -⟩ :
      Fits n t (.allocated needEvict haveEvict c v) := hp ▸ h.fits t
    obtain rfl := Option.some.inj (hk.symm.trans hk')
    rcases hbad with hbad | hbad
    · rw [hl.getAddr h (claim_chunk hc hk) le_rfl le_rfl] at hbad
      cases hbad
    · have hclaim : n.claim .disk (.thread t) = some v :=
        (congrArg (Phase.claim · Tier.disk) hp).trans rfl
      rw [hl.getAddr h hclaim le_rfl le_rfl] at hbad
      cases hbad

/-- **IN STEP**: a step that loses no copy keeps the tiers in step. -/
theorem Lockstep.step (hl : Lockstep n) (h : Good n) (ht : Trans n e n')
    (hcopying : Copying n e) : Lockstep n' where
  mem := hl.mem.step h ht fun _ => hl.level
  disk := hl.disk.step h ht nofun
  level := by
    intro t v hv
    rcases h.claim_disk_old ht hv with hold | ⟨hnone, hoff, hflow⟩
    · rw [hl.level t v hold]
      cases h.offsetStep ht with
      | same hdata _ => exact (hdata .mem).symm
      | truncate hdata _ _ => exact (hdata .mem).symm
      | advance u x c k hp hk hv' hp' hclaim' hdata hothers htrunc =>
          cases x with
          | disk => exact (hothers .mem nofun).symm
          | mem =>
              obtain rfl := h.alone t u .mem (Phase.evicts_of_claim hold)
                (Phase.evicts_of_passes hp)
              rw [hclaim'] at hv
              cases hv
    · rw [hoff, hflow]
      exact hl.even hnone
  even := by
    intro hnone
    by_cases hex : ∃ t v, (n.threads t).claim .disk = some v
    · obtain ⟨t, v, hv⟩ := hex
      rcases h.claim_disk_step ht hv with hkept | ⟨hdata, hoff⟩ |
        ⟨need, got, c, k, hp, hk, hfail⟩
      · rw [hnone t] at hkept
        cases hkept
      · rw [hdata, hoff]
        exact (h.last t v hv).2
      · exact absurd hfail (hl.not_failed h hp hk hcopying)
    · have hold : ∀ t, (n.threads t).claim .disk = none := by
        intro t
        by_contra hne
        obtain ⟨v, hv⟩ := Option.ne_none_iff_exists'.mp hne
        exact hex ⟨t, v, hv⟩
      have hdata : (n'.flow .mem).dataTruncOffset =
          (n.flow .mem).dataTruncOffset := by
        cases h.offsetStep ht with
        | same hdata _ => exact hdata .mem
        | truncate hdata _ _ => exact hdata .mem
        | advance u x c k hp hk hv hp' hclaim' hdata hothers htrunc =>
            cases x with
            | disk => exact hothers .mem nofun
            | mem =>
                rw [hold u] at hv
                cases hv rfl
      have hoff : (n'.flow .disk).offset = (n.flow .disk).offset := by
        cases h.rangeStep ht with
        | same _ _ hoffset => exact hoffset .disk
        | pass x w y v hne _ hw hw' hy hy' _ _ _ hoffset => exact hoffset .disk
        | drop x c hc hc' _ _ _ hoffset => exact hoffset .disk
        | push u x w hnone' hself hothers htiers htook hflows _ =>
            cases x with
            | mem => rw [hflows .disk nofun]
            | disk =>
                have hself' : (n'.threads u).claim .disk = some w := hself
                rw [hnone u] at hself'
                cases hself'
      rw [hoff, hdata]
      exact hl.even hold

end UbsIo.Rcache
