import UbsIo.Rcache.Answers

/-! # What an eviction never gets past

    A chunk leaves its tier when its range begins where the tier is given up
    to.  A range that comes to nothing, and a chunk that stays locked, are there
    for ever, and so is all that is behind them. -/

namespace UbsIo.Rcache

open UbsIo.Lib

variable {ι κ β : Type} {n n' : Cache ι κ β} {tier : Tier} {c : Nat}
  [DecidableEq ι] [DecidableEq κ] {e : Event ι κ β}
  {crc : Option (List β → Nat)}

/-! ## Runs -/

/-- All that holds in every run. -/
structure Kempt (n : Cache ι κ β) : Prop where
  good : Good n
  disk : Ordered n .disk

omit [DecidableEq ι] [DecidableEq κ] in
theorem kempt_init (blank : β) : Kempt (Cache.init blank : Cache ι κ β) :=
  ⟨good_init blank, ordered_init blank .disk⟩

theorem Kempt.step (h : Kempt n) (hs : step crc n e = some n') : Kempt n' :=
  ⟨h.good.step (step_trans hs), h.disk.step h.good (step_trans hs) nofun⟩

theorem kempt_run (blank : β) {es : List (Event ι κ β)}
    (hrun : runFrom (step crc) (Cache.init blank) es = some n) : Kempt n :=
  runFrom_invariant (fun _ _ _ h hs => h.step hs) (kempt_init blank) hrun

/-- **THE TRUNCATE LISTS**, in every run: from the last range to the first, and
    every chunk in the list of its tier, deleted, or with the one thread that
    has locked it.  A chunk that comes from memory is put first on disk,
    whichever list the loop would have gone on along. -/
theorem lists_in_order (crc : Option (List β → Nat)) (blank : β)
    (es : List (Event ι κ β)) (n : Cache ι κ β)
    (hrun : runFrom (step crc) (Cache.init blank) es = some n) :
    (∀ tier, (n.truncateQ tier).Pairwise fun a b => ∃ k k',
      n.chunks a = some k ∧ n.chunks b = some k' ∧ k.tier = tier ∧
        k'.tier = tier ∧ k'.value.reach ≤ k.value.flowOffset) ∧
    (∀ c k, n.chunks c = some k → c ∈ n.truncateQ k.tier ∨ k.state = true ∨
      ∃ t, (n.threads t).carries = some c ∧ k.lock = some t) ∧
    ∀ t needEvict haveEvict c v,
      n.threads t = .moved needEvict haveEvict c v →
        n.addToTruncateList .disk c = c :: n.truncateQ .disk := by
  have h := (kempt_run blank hrun).good
  refine ⟨?_, ?_, ?_⟩
  · intro tier
    refine List.Pairwise.imp_of_mem ?_
      ((h.sorted tier).and (h.nodup tier))
    rintro a b ha hb ⟨hlater, hne⟩
    obtain ⟨k, hk, htier⟩ := h.queued tier a ha
    obtain ⟨k', hk', htier'⟩ := h.queued tier b hb
    refine ⟨k, k', hk, hk', htier, htier', ?_⟩
    have hle : k'.value.indexInFlow ≤ k.value.indexInFlow := by
      unfold Later Cache.indexInFlow at hlater
      rw [hk, hk'] at hlater
      exact hlater
    rcases (h.handed tier).apart (.chunk b) (.chunk a) _ _
      (fun heq => hne (Holder.chunk.inj heq).symm) (claim_chunk hb hk')
      (claim_chunk ha hk) with hb' | ha'
    · exact hb'.2
    · exact absurd ha'.1 (Nat.not_lt.mpr hle)
  · intro c k hk
    rcases h.placed c k hk with hc | hstate | ⟨t, ht⟩
    · exact Or.inl hc
    · exact Or.inr (Or.inl hstate)
    · right; right
      refine ⟨t, ht, ?_⟩
      have hholds : (n.threads t).holds = some c := by
        generalize n.threads t = p at ht
        cases p <;> cases ht <;> rfl
      obtain ⟨k', hk', hlock⟩ := (h.fits t).lock hholds
      obtain rfl := Option.some.inj (hk.symm.trans hk')
      exact hlock
  · intro t needEvict haveEvict c v hp
    rw [h.add_arrived hp]
    cases hq : n.truncateQ .disk with
    | nil => rfl
    | cons x l =>
        refine List.orderedInsert_cons_of_le _ _ ?_
        exact h.arrives_last hp x (hq ▸ List.mem_cons_self)

/-- One of two values is on disk, and the other on its way there. -/
def secondMoves : List (Event Nat Nat Nat) :=
  puts 0 7 [1, 2] 3 ++ puts 0 8 [3, 4] 7 ++ .evict 1 .mem 4 :: goes 1 13

theorem lists_in_order_moves :
    ∃ n : Cache Nat Nat Nat,
      runFrom (step (some List.sum)) (Cache.init 0) secondMoves = some n ∧
        n.addToTruncateList .disk 1 = 1 :: n.truncateQ .disk := by
  obtain ⟨n, hn, hp⟩ := Option.map_eq_some_iff.mp
    (show (runFrom (step (some List.sum)) (Cache.init 0) secondMoves).map
      (·.threads 1) = some (.moved 4 2 1 ⟨1, 2, 2, by decide⟩) by
      decide +kernel)
  exact ⟨n, hn, (lists_in_order (some List.sum) 0 secondMoves n hn).2.2 1 _ _ _
    _ hp⟩

/-! ## What stays in its tier -/

/-- A chunk that is not due, or that nobody evicts, stays in its list, with its
    range. -/
theorem Good.stays (h : Good n) (ht : Trans n e n') {k : Chunk ι κ β}
    (hc : c ∈ n.truncateQ tier) (hk : n.chunks c = some k)
    (hne : k.value.flowOffset ≠ (n.flow tier).dataTruncOffset ∨
      ∀ t, (n.threads t).evicts = some tier → (n.threads t).holds ≠ some c) :
    c ∈ n'.truncateQ tier ∧
      ∃ k', n'.chunks c = some k' ∧ k'.value = k.value := by
  constructor
  · cases h.queueStep ht with
    | same hq => exact hq ▸ hc
    | add x c₀ k₀ _ _ _ _ hq =>
        rw [hq]
        by_cases hx : tier = x
        · subst hx
          rw [Function.update_self, List.mem_orderedInsert]
          exact Or.inr hc
        · rw [Function.update_of_ne hx]
          exact hc
    | erase x c₀ _ hq hdue =>
        rw [hq]
        by_cases hx : tier = x
        · subst hx
          rw [Function.update_self, List.mem_erase_of_ne ?_]
          · exact hc
          rintro rfl
          obtain ⟨t, k', hevicts, hholds, hk', hdue⟩ := hdue
          obtain rfl := Option.some.inj (hk.symm.trans hk')
          rcases hne with hne | hnone
          · exact hne hdue.2
          · exact hnone t hevicts hholds
        · rw [Function.update_of_ne hx]
          exact hc
  · obtain ⟨k', hk', hkeeps⟩ := h.keeps ht hk
    exact ⟨k', hk', (hkeeps.place fun hun => hun tier hc).1⟩

/-- The chunk is in the list of the tier, with its range. -/
def Listed (n : Cache ι κ β) (tier : Tier) (c : Nat) (v : Value) : Prop :=
  c ∈ n.truncateQ tier ∧ ∃ k, n.chunks c = some k ∧ k.value = v

omit [DecidableEq ι] [DecidableEq κ] in
theorem listed_iff_claim {v : Value} :
    Listed n tier c v ↔ n.claim tier (.chunk c) = some v := by
  constructor
  · rintro ⟨hc, k, hk, rfl⟩
    exact claim_chunk hc hk
  · intro h
    have hc : c ∈ n.truncateQ tier := by
      by_contra hc
      rw [Cache.claim, if_neg hc] at h
      cases h
    rw [Cache.claim, if_pos hc] at h
    exact ⟨hc, Option.map_eq_some_iff.mp h⟩

/-- What is behind a range that somebody holds stays in its tier. -/
theorem Ordered.stays_behind (ho : Ordered n tier) (h : Good n)
    (ht : Trans n e n') {w : Holder ι} {v u : Value}
    (hw : n.claim tier w = some v) (hc : Listed n tier c u)
    (hlt : v.flowOffset < u.flowOffset) : Listed n' tier c u := by
  obtain ⟨hc, k, hk, rfl⟩ := hc
  have hahead := ho.ahead w v hw
  have hne : k.value.flowOffset ≠ (n.flow tier).dataTruncOffset := by omega
  exact h.stays ht hc hk (Or.inl hne)

/-! ## Ranges that come to nothing -/

/-- What is lost stays so. -/
theorem Trans.lost_mem (ht : Trans n e n') {v : Value}
    (hv : v ∈ n.lost tier) : v ∈ n'.lost tier := by
  have hlose : ∀ {m : Cache ι κ β} {x : Tier} {u : Value},
      m.lost = n.lost → v ∈ (m.lose x u).lost tier := by
    intro m x u hm
    show v ∈ Function.update m.lost x (m.lost x ++ [u]) tier
    by_cases hx : tier = x
    · subst hx
      rw [Function.update_self, hm]
      exact List.mem_append_left _ hv
    · rw [Function.update_of_ne hx, hm]
      exact hv
  cases ht with
  | quiet _ m hs => exact hs.lost ▸ hv
  | moves t _ q m hs hq => exact hs.lost.symm ▸ hv
  | relocks t _ q m x k k' hs hc hk hq => exact hs.lost.symm ▸ hv
  | lost t _ u hp => exact hlose rfl
  | returned t _ tier m hs hp => exact hs.lost.symm ▸ hv
  | failed t _ needEvict haveEvict x k u m hs hp hk he => exact hlose hs.lost
  | copied t _ needEvict haveEvict x k u m hs hp hk hmem =>
      exact hs.lost.symm ▸ hv
  | moved t _ needEvict haveEvict x k u m hs hp hk => exact hs.lost.symm ▸ hv
  | gone t _ needEvict haveEvict x k m hs hp hk => exact hs.lost.symm ▸ hv
  | _ => exact hv

omit [DecidableEq ι] [DecidableEq κ] in
/-- A range that has come to nothing is held, by nobody. -/
theorem claim_lost {v : Value} (hv : v ∈ n.lost tier) :
    ∃ w, n.claim tier w = some v := by
  obtain ⟨i, hi, heq⟩ := List.mem_iff_getElem.mp hv
  exact ⟨.lost i, heq ▸ List.getElem?_eq_getElem hi⟩

/-- Copies may fail as long as it is the disk tier that matters. -/
def Steady (tier : Tier) (n : Cache ι κ β) (e : Event ι κ β) : Prop :=
  tier = .mem → Copying n e

/-- No range of the tier is left behind, and how that is known. -/
structure Tidy (n : Cache ι κ β) (tier : Tier) : Prop where
  good : Good n
  ordered : Ordered n tier
  lockstep : tier = .mem → Lockstep n

omit [DecidableEq ι] [DecidableEq κ] in
theorem tidy_init (blank : β) (tier : Tier) :
    Tidy (Cache.init blank : Cache ι κ β) tier :=
  ⟨good_init blank, ordered_init blank tier, fun _ => lockstep_init blank⟩

theorem Tidy.step (h : Tidy n tier) (hsteady : Steady tier n e)
    (hs : step crc n e = some n') : Tidy n' tier := by
  have ht := step_trans hs
  exact ⟨h.good.step ht, h.ordered.step h.good ht
    fun hmem => (h.lockstep hmem).level,
    fun hmem => (h.lockstep hmem).step h.good ht (hsteady hmem)⟩

theorem tidy_run (blank : β) (tier : Tier) {es : List (Event ι κ β)}
    (hrun : runFrom (step crc) (Cache.init blank) es = some n)
    (halong : Along (step crc) (Steady tier) (Cache.init blank) es) :
    Tidy n tier :=
  runFrom_invariant_along (I := (Tidy · tier))
    (fun _ _ _ h hsteady hs => h.step hsteady hs) es _ n
    (tidy_init blank tier) halong hrun

/-- **A RANGE THAT HAS COME TO NOTHING** is the end of what the tier gives up:
    all chunks behind it stay there for ever.  In memory that holds of the runs
    in which no copy to disk fails, on disk of all. -/
theorem lost_range_blocks (crc : Option (List β → Nat)) (blank : β)
    (tier : Tier) (es es' : List (Event ι κ β)) (n n' : Cache ι κ β)
    (hrun : runFrom (step crc) (Cache.init blank) es = some n)
    (hrun' : runFrom (step crc) n es' = some n')
    (halong : Along (step crc) (Steady tier) (Cache.init blank) (es ++ es'))
    (v : Value) (hv : v ∈ n.lost tier) :
    (n'.flow tier).dataTruncOffset ≤ v.flowOffset ∧
      (n'.flow tier).truncateOffset ≤ v.flowOffset ∧
      ∀ c u, Listed n tier c u → v.flowOffset < u.flowOffset →
        Listed n' tier c u := by
  obtain ⟨hfirst, hrest⟩ := along_append.mp halong
  have hall := runFrom_invariant_along
    (I := fun m => Tidy m tier ∧ v ∈ m.lost tier ∧
      ∀ c u, Listed n tier c u → v.flowOffset < u.flowOffset →
        Listed m tier c u) ?_ es' n n'
    ⟨tidy_run blank tier hrun hfirst, hv, fun _ _ h _ => h⟩ (hrest n hrun) hrun'
  · obtain ⟨htidy, hv', hlisted⟩ := hall
    obtain ⟨w, hw⟩ := claim_lost hv'
    have hahead := htidy.ordered.ahead w v hw
    exact ⟨hahead, htidy.ordered.behind.trans hahead, hlisted⟩
  · rintro m e m' ⟨htidy, hv', hlisted⟩ hsteady hs
    obtain ⟨w, hw⟩ := claim_lost hv'
    exact ⟨htidy.step hsteady hs, (step_trans hs).lost_mem hv',
      fun c u hc hlt => htidy.ordered.stays_behind htidy.good (step_trans hs)
        hw (hlisted c u hc hlt) hlt⟩

/-- The first range of memory comes to nothing. -/
def lostFirst : List (Event Nat Nat Nat) :=
  .reserve 0 4 100 :: .fail 0 :: puts 0 7 [1, 2] 3

theorem lost_range_blocks_first :
    ∃ n n' : Cache Nat Nat Nat,
      runFrom (step (some List.sum)) (Cache.init 0) lostFirst = some n ∧
      runFrom (step (some List.sum)) n (.evict 1 .mem 10 :: goes 1 1) =
        some n' ∧
      Listed n' .mem 0 ⟨1, 4, 2, by decide⟩ := by
  obtain ⟨n', hn', -⟩ := Option.map_eq_some_iff.mp
    (show (runFrom (step (some List.sum)) (Cache.init 0)
      (lostFirst ++ .evict 1 .mem 10 :: goes 1 1)).map (·.count) = some 1 by
      decide +kernel)
  obtain ⟨n, hn, hrun⟩ := runFrom_append.mp hn'
  have hfacts : (runFrom (step (some List.sum)) (Cache.init 0) lostFirst).map
      (fun n => (n.lost .mem, n.claim .mem (.chunk 0))) =
        some ([⟨0, 0, 4, by decide⟩], some ⟨1, 4, 2, by decide⟩) := by
    decide +kernel
  rw [hn, Option.map_some] at hfacts
  obtain ⟨hlost, hclaim⟩ := Prod.mk.inj (Option.some.inj hfacts)
  have halong : alongB (step (some List.sum)) (soundB (some List.sum))
      (Cache.init 0) (lostFirst ++ .evict 1 .mem 10 :: goes 1 1) = true := by
    decide +kernel
  refine ⟨n, n', hn, hrun, (lost_range_blocks (some List.sum) 0 .mem lostFirst
    _ n n' hn hrun (along_of_alongB
      (fun _ _ h _ => (sound_of_soundB h).copying) _ _ halong)
    ⟨0, 0, 4, by decide⟩ ?_).2.2 0 _ (listed_iff_claim.mpr hclaim)
      (by decide)⟩
  rw [hlost]
  exact List.mem_singleton_self _

/-! ## Chunks that stay locked -/

/-- Thread `t` has gone on, and left the chunk locked. -/
structure Orphan (n : Cache ι κ β) (c : Nat) (k : Chunk ι κ β) (t : ι) :
    Prop where
  chunk : n.chunks c = some k
  lock : k.lock = some t
  left : (n.threads t).holds ≠ some c

omit [DecidableEq ι] [DecidableEq κ] in
/-- Nobody holds it. -/
theorem Orphan.free {k : Chunk ι κ β} {t : ι} (ho : Orphan n c k t)
    (h : Good n) (u : ι) : (n.threads u).holds ≠ some c := by
  intro hu
  obtain ⟨k', hk', hlock⟩ := (h.fits u).lock hu
  obtain rfl := Option.some.inj (ho.chunk.symm.trans hk')
  obtain rfl := Option.some.inj (ho.lock.symm.trans hlock)
  exact ho.left hu

theorem Orphan.step {k : Chunk ι κ β} {t : ι} (ho : Orphan n c k t)
    (h : Good n) (ht : Trans n e n') : Orphan n' c k t := by
  have hlock : ∀ k', n.chunks c = some k' → k'.lock ≠ none := by
    intro k' hk' hnone
    obtain rfl := Option.some.inj (ho.chunk.symm.trans hk')
    rw [ho.lock] at hnone
    cases hnone
  refine ⟨?_, ho.lock, ?_⟩
  · cases h.chunkStep ht with
    | same hchunks _ _ => exact hchunks ▸ ho.chunk
    | update x k₁ k₂ hk₁ hchunks _ _ _ hheld =>
        by_cases hx : c = x
        · subst hx
          rcases hheld with hnone | ⟨u, hu⟩
          · exact absurd hnone (hlock k₁ hk₁)
          · exact absurd hu (ho.free h u)
        · rw [hchunks, Function.update_of_ne hx]
          exact ho.chunk
    | insert _ _ _ _ _ _ _ hchunks _ _ _ =>
        have hx : c ≠ n.count := by
          rintro rfl
          cases (h.fresh n.count le_rfl).symm.trans ho.chunk
        rw [hchunks, Function.update_of_ne hx]
        exact ho.chunk
  · -- nobody gets a lock that is not free
    rcases ht.phase t with hsame | hstep
    · exact hsame ▸ ho.left
    have hleft := ho.left
    generalize n.threads t = p at hstep hleft
    generalize n'.threads t = q at hstep ⊢
    cases hstep with
    | moves hm _ =>
        cases hm with
        | indexed => exact hleft
        | verified => exact hleft
        | served => exact hleft
        | unlisted => exact hleft
        | _ => exact nofun
    | relocks hr hat hk =>
        cases hr with
        | addressed q c₁ hnone _ _ =>
            intro heq
            obtain rfl := Option.some.inj (hat.symm.trans heq)
            exact hlock _ hk hnone
        | _ => exact nofun
    | inserted v data _ =>
        intro heq
        obtain rfl := Option.some.inj heq
        cases (h.fresh n.count le_rfl).symm.trans ho.chunk
    | allocated _ _ c₁ _ k₁ hk₁ hnone =>
        intro heq
        obtain rfl := Option.some.inj heq
        exact hlock k₁ hk₁ hnone
    | erased _ _ c₁ k₁ hk₁ hnone =>
        intro heq
        obtain rfl := Option.some.inj heq
        exact hlock k₁ hk₁ hnone
    | copied => exact hleft
    | unqueued => exact hleft
    | moved => exact hleft
    | dropped => exact hleft
    | _ => exact nofun

/-- Whoever wants a chunk that is locked waits. -/
theorem waits_locked {k : Chunk ι κ β} {t u : ι} {loaded : Nat}
    {stale : List β} (hk : n.chunks c = some k) (hlock : k.lock = some t)
    (hu : (∃ q, n.threads u = .found q c) ∨ n.threads u = .deleting c ∨
      ∃ tier needEvict haveEvict,
        n.threads u = .victim tier needEvict haveEvict c) :
    step crc n (.go u loaded stale) = none := by
  have hne : k.lock ≠ none := by
    rw [hlock]
    exact nofun
  rcases hu with ⟨q, hp⟩ | hp | ⟨tier, needEvict, haveEvict, hp⟩
  · simp only [step, hp, resume, hk, Option.bind_eq_bind, Option.bind_some,
      if_pos hne]
  · simp only [step, hp, resume, hk, Option.bind_eq_bind, Option.bind_some,
      if_pos hne]
  · cases tier <;>
      simp only [step, hp, resume, hk, Option.bind_eq_bind, Option.bind_some,
        if_pos hne]

/-- A `Get` whose check of the CRC fails leaves the chunk locked. -/
theorem Good.orphan (h : Good n) (ht : Trans n e n') {t : ι} {q : Query κ}
    {realLen : Nat} {k : Chunk ι κ β}
    (hp : n.threads t = .addressed q c realLen) (hk : n.chunks c = some k)
    (hp' : n'.threads t = .idle) : Orphan n' c k t := by
  obtain ⟨k', hk', hlock, -⟩ : Fits n t (.addressed q c realLen) :=
    hp ▸ h.fits t
  obtain rfl := Option.some.inj (hk.symm.trans hk')
  have hchunks : n'.chunks = n.chunks := by
    rcases ht.phase t with hsame | hstep
    · rw [hp, hp'] at hsame
      cases hsame
    · rw [hp, hp'] at hstep
      cases hstep with
      | moves _ hchunks => exact hchunks
      | relocks _ hat _ => cases hat
  exact ⟨hchunks ▸ hk, hlock, by rw [hp']; exact nofun⟩

/-- **A CHECK OF THE CRC THAT FAILS** is the end of the chunk: it is locked for
    ever, nobody can read it, delete it or evict it any more, and it stays in
    its tier with all that is behind it there. -/
theorem crc_failed_blocks (crc : Option (List β → Nat)) (blank : β)
    (es es' : List (Event ι κ β)) (n n₁ n' : Cache ι κ β) (e : Event ι κ β)
    (hrun : runFrom (step crc) (Cache.init blank) es = some n)
    (hs : step crc n e = some n₁) (hrun' : runFrom (step crc) n₁ es' = some n')
    (t : ι) (q : Query κ) (c realLen : Nat) (k : Chunk ι κ β)
    (hp : n.threads t = .addressed q c realLen) (hk : n.chunks c = some k)
    (hp' : n₁.threads t = .idle) :
    n'.chunks c = some k ∧ k.lock = some t ∧ c ∈ n'.truncateQ k.tier ∧
      (∀ u loaded stale, (∃ q', n'.threads u = .found q' c) ∨
        n'.threads u = .deleting c ∨ (∃ tier needEvict haveEvict,
          n'.threads u = .victim tier needEvict haveEvict c) →
            step crc n' (.go u loaded stale) = none) ∧
      (Along (step crc) (Steady k.tier) (Cache.init blank) (es ++ e :: es') →
        ∀ c' u, Listed n k.tier c' u → k.value.flowOffset < u.flowOffset →
          Listed n' k.tier c' u) := by
  have h := (kempt_run blank hrun).good
  have ht := step_trans hs
  obtain ⟨k', hk', hlock, -, hstate, -⟩ : Fits n t (.addressed q c realLen) :=
    hp ▸ h.fits t
  obtain rfl := Option.some.inj (hk.symm.trans hk')
  have hc := h.listed_of_query (by rw [hp]; rfl) hk hlock hstate
  have hc₁ : c ∈ n₁.truncateQ k.tier := by
    refine (h.stays ht hc hk (Or.inr ?_)).1
    intro u hu hholds
    obtain ⟨k₁, hk₁, hlock₁⟩ := (h.fits u).lock hholds
    obtain rfl := Option.some.inj (hk.symm.trans hk₁)
    obtain rfl := Option.some.inj (hlock.symm.trans hlock₁)
    rw [hp] at hu
    cases hu
  have ho₁ := h.orphan ht hp hk hp'
  -- the chunk stays locked, and in its list
  have hstay : ∀ m₁ (e : Event ι κ β) m₂, Good m₁ ∧ Orphan m₁ c k t ∧
      c ∈ m₁.truncateQ k.tier → step crc m₁ e = some m₂ →
        Good m₂ ∧ Orphan m₂ c k t ∧ c ∈ m₂.truncateQ k.tier := by
    rintro m₁ e m₂ ⟨hm, ho, hc⟩ hs
    exact ⟨hm.step (step_trans hs), ho.step hm (step_trans hs),
      (hm.stays (step_trans hs) hc ho.chunk (Or.inr fun u _ => ho.free hm u)).1⟩
  obtain ⟨-, ho', hc'⟩ := runFrom_invariant hstay ⟨h.step ht, ho₁, hc₁⟩ hrun'
  refine ⟨ho'.chunk, hlock, hc', fun u _ _ => waits_locked ho'.chunk hlock, ?_⟩
  intro halong c' u hlisted hlt
  obtain ⟨hfirst, hrest⟩ := along_append.mp halong
  obtain ⟨hsteady, hrest⟩ := hrest n hrun
  have htidy := tidy_run blank k.tier hrun hfirst
  refine (runFrom_invariant_along
    (I := fun m => Tidy m k.tier ∧ Orphan m c k t ∧ c ∈ m.truncateQ k.tier ∧
      Listed m k.tier c' u) ?_ es' n₁ n' ⟨htidy.step hsteady hs, ho₁, hc₁,
        htidy.ordered.stays_behind h ht (claim_chunk hc hk) hlisted hlt⟩
    (hrest n₁ hs) hrun').2.2.2
  rintro m e m' ⟨htidy, ho, hc, hlisted⟩ hsteady hs
  obtain ⟨-, ho', hc'⟩ := hstay m e m' ⟨htidy.good, ho, hc⟩ hs
  exact ⟨htidy.step hsteady hs, ho', hc', htidy.ordered.stays_behind htidy.good
    (step_trans hs) (claim_chunk hc ho.chunk) hlisted hlt⟩

/-- The CRC of a value is not that of what was put, and it is read. -/
def badCrc : List (Event Nat Nat Nat) :=
  puts 0 7 [1, 2] 4 ++ .get 1 7 0 2 :: goes 1 1

theorem crc_failed_blocks_delete :
    ∃ n n₁ n' : Cache Nat Nat Nat,
      runFrom (step (some List.sum)) (Cache.init 0) badCrc = some n ∧
      step (some List.sum) n (.go 1 100 []) = some n₁ ∧
      runFrom (step (some List.sum)) n₁ [.delete 2 7] = some n' ∧
      n'.threads 2 = .deleting 0 ∧
      step (some List.sum) n' (.go 2 0 []) = none := by
  obtain ⟨n', hn', hdeleting⟩ := Option.map_eq_some_iff.mp
    (show (runFrom (step (some List.sum)) (Cache.init 0)
      (badCrc ++ [.go 1 100 [], .delete 2 7])).map (·.threads 2) =
        some (.deleting 0) by decide +kernel)
  obtain ⟨n, hn, hrun⟩ := runFrom_append.mp hn'
  obtain ⟨n₁, hs, hrun'⟩ := runFrom_cons.mp hrun
  obtain ⟨m, hm, hp⟩ := Option.map_eq_some_iff.mp
    (show (runFrom (step (some List.sum)) (Cache.init 0) badCrc).map
      (·.threads 1) = some (.addressed ⟨7, 0, 2, 1⟩ 0 2) by decide +kernel)
  obtain rfl := Option.some.inj (hn.symm.trans hm)
  obtain ⟨m, hm, hp'⟩ := Option.map_eq_some_iff.mp
    (show (runFrom (step (some List.sum)) (Cache.init 0)
      (badCrc ++ [.go 1 100 []])).map (·.threads 1) = some .idle by
      decide +kernel)
  obtain ⟨m', hm', hlast⟩ := runFrom_append.mp hm
  obtain rfl := Option.some.inj (hn.symm.trans hm')
  obtain ⟨m', hm', hlast⟩ := runFrom_cons.mp hlast
  obtain rfl := Option.some.inj (hs.symm.trans hm')
  obtain rfl := Option.some.inj hlast
  obtain ⟨k, hk, -⟩ : Fits n 1 (.addressed ⟨7, 0, 2, 1⟩ 0 2) :=
    hp ▸ (kempt_run 0 hn).good.fits 1
  exact ⟨n, _, n', hn, hs, hrun', hdeleting,
    (crc_failed_blocks (some List.sum) 0 badCrc _ n _ n' _ hn hs hrun' 1 _ 0 2 k
      hp hk hp').2.2.2.1 2 0 [] (Or.inr (Or.inl hdeleting))⟩

end UbsIo.Rcache
