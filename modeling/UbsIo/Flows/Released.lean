import UbsIo.Flows.Balance

/-! # What a seal releases

    `Seal` has released everything when its truncation has come up to
    `mPreLoadOffset` and nothing is put on the list afterwards.  It may come
    short of `mPreLoadOffset`, and a worker may put a chunk on the list after
    it; in both cases nobody gives the chunk back. -/

namespace UbsIo.Flows

open UbsIo.Lib

variable {ι : Type} [DecidableEq ι] {d : Dims}

/-! ## The states of a seal -/

variable {s s' : Sealing ι}

omit [DecidableEq ι] in
/-- `Seal` has come past the locked section of `TruncateOffset`. -/
def Sealing.Past (s : Sealing ι) : Prop :=
  ∃ t, (s.sealer = some (t, .truncating) ∧
      ∃ cleanList, s.flow.threads t = .free cleanList) ∨
    s.sealer = some (t, .returned .ok)

/-- While `Seal` is called or after it, only its thread truncates, and only
    while `Seal` is there. -/
structure Alone (s : Sealing ι) : Prop where
  unsealed : ∀ t, s.sealer = some (t, .check) → s.sealed = false
  uncalled : s.sealer = none → s.sealed = false
  idle : ∀ t p, s.sealer = some (t, p) → p.before = true →
    s.flow.threads t = .idle
  truncs : ∀ t p, s.sealer = some (t, p) → ∀ u,
    (s.flow.threads u).truncs = true ↔ u = t ∧ p = .truncating

structure Sound (d : Dims) (s : Sealing ι) : Prop where
  mapped : Mapped d s.flow
  balanced : Balanced d s.flow s.freed
  alone : Alone s

/-- Everything that has been preloaded has been truncated. -/
def Sealing.Done (s : Sealing ι) : Prop :=
  s.Past → s.flow.truncateOffset = s.flow.preLoadOffset

/-- The runs in question: offsets fit 64 bits, and the only `TruncateOffset`
    from the call of `Seal` on is its own. -/
def Undisturbed (d : Dims) (s : Sealing ι) : SealEvent ι → Prop
  | .flow e => Fits d s.flow e ∧
      ∀ t offset, e = .truncateOffset t offset → s.sealer = none
  | .callSeal _ => ∀ u, (s.flow.threads u).truncs = false
  | _ => True

/-- The steps that release everything: no chunk is put on the list once `Seal`
    has come past the locked section of `TruncateOffset`, and in that section
    nothing is preloaded beyond what it truncates. -/
def Releases (s : Sealing ι) : SealEvent ι → Prop
  | .flow (.go t) =>
      (∀ chunkId, s.flow.threads t = .push chunkId → ¬ s.Past) ∧
      ∀ offset, s.sealer = some (t, .truncating) →
        s.flow.threads t = .truncate offset →
          s.flow.preLoadOffset ≤ max offset s.flow.truncateOffset
  | _ => True

theorem Mapped.seen (hm : Mapped d s.flow) (t : ι) : Mapped d (s.seen t) := by
  rw [Sealing.seen]
  split
  · exact ⟨hm.held, hm.inOrder, hm.chunks, hm.preLoad, hm.preLoad_lt,
      hm.trunc_le, hm.alloc, hm.trunc⟩
  · exact hm

theorem Balanced.seen {freed : List Nat} (hb : Balanced d s.flow freed)
    (t : ι) : Balanced d (s.seen t) freed := by
  rw [Sealing.seen]
  split
  · exact hb
  · exact hb

/-- What a thread sees of the flow. -/
theorem seen_eq (s : Sealing ι) (t : ι) :
    (s.seen t).threads = s.flow.threads ∧
      (s.seen t).truncateOffset = s.flow.truncateOffset ∧
      (s.seen t).preLoadOffset = s.flow.preLoadOffset := by
  rw [Sealing.seen]
  split
  · exact ⟨rfl, rfl, rfl⟩
  · exact ⟨rfl, rfl, rfl⟩

theorem freedBy_seen (s : Sealing ι) (t : ι) (e : Event ι) :
    freedBy (s.seen t) e = freedBy s.flow e := by
  cases e with
  | go u => simp only [freedBy, (seen_eq s t).1]
  | _ => rfl

theorem fits_seen (s : Sealing ι) (t : ι) {e : Event ι}
    (h : Fits d s.flow e) : Fits d (s.seen t) e := by
  cases e with
  | go u =>
      intro c hc
      rw [(seen_eq s t).1] at hc
      rw [(seen_eq s t).2.2]
      exact h c hc
  | _ => exact trivial

/-- What a step of the flow is. -/
theorem flow_step {e : Event ι} (h : sealStep d s (.flow e) = some s') :
    s.allows e = true ∧ ∃ flow, step d (s.seen e.thread) e = some flow ∧
      s' = s.afterFlow e flow := by
  simp only [sealStep] at h
  split at h
  case isTrue hallows =>
      obtain ⟨flow, hflow, rfl⟩ := Option.map_eq_some_iff.mp h
      exact ⟨hallows, flow, hflow, rfl⟩
  case isFalse => cases h

theorem sealerAfter_own {t : ι} {flow : Flow ι}
    (h : s.sealer = some (t, .truncating)) :
    s.sealerAfter t flow =
      some (t, .after (s.flow.threads t) (flow.threads t)) := by
  simp only [Sealing.sealerAfter, h, if_true]

theorem sealerAfter_other {t : ι} {flow : Flow ι}
    (h : s.sealer ≠ some (t, .truncating)) :
    s.sealerAfter t flow = s.sealer := by
  rw [Sealing.sealerAfter]
  split
  · rename_i u hu
    rw [if_neg]
    rintro rfl
    exact h hu
  · rfl

/-- A step of the flow, from where `Seal` looks at it: one of `Seal` itself in
    `TruncateOffset`, or one of a thread that is not there. -/
theorem step_cases {e : Event ι} {flow : Flow ι} (ha : Alone s)
    (hH : Undisturbed d s (.flow e))
    (h : step d (s.seen e.thread) e = some flow) (hcalled : s.sealer ≠ none) :
    (∃ t, e = .go t ∧ s.sealer = some (t, .truncating) ∧
      Inside d (s.seen t) t flow ∧
      (s.afterFlow e flow).sealer =
        some (t, .after (s.flow.threads t) (flow.threads t))) ∨
    (s.sealer ≠ some (e.thread, .truncating) ∧
      Outside d (s.seen e.thread) e flow ∧
      (s.afterFlow e flow).sealer = s.sealer) := by
  obtain ⟨⟨t, p⟩, hsealer⟩ := Option.ne_none_iff_exists'.mp hcalled
  have htruncs := ha.truncs t p hsealer
  have hthreads := (seen_eq s e.thread).1
  by_cases hown : s.sealer = some (e.thread, .truncating)
  · have hin : ((s.seen e.thread).threads e.thread).truncs = true := by
      rw [hthreads]
      rw [hsealer, Option.some.injEq, Prod.mk.injEq] at hown
      exact (htruncs e.thread).mpr ⟨hown.1.symm, hown.2⟩
    obtain ⟨u, rfl, hinside⟩ := inside_of_step hin h
    exact .inl ⟨u, rfl, hown, hinside, sealerAfter_own hown⟩
  · have hout : ((s.seen e.thread).threads e.thread).truncs = false := by
      rw [hthreads]
      refine Bool.eq_false_iff.mpr fun htrue => hown ?_
      obtain ⟨ht, hp⟩ := (htruncs e.thread).mp htrue
      rw [hsealer, ht, hp]
    refine .inr ⟨hown, (trans_of_step h).outside hout ?_,
      sealerAfter_other hown⟩
    intro t' o he
    exact hcalled (hH.2 t' o he)

/-- Where the thread of `Seal` is after a step in `TruncateOffset`. -/
theorem Inside.phase {s flow : Flow ι} {t : ι} (h : Inside d s t flow) :
    flow.threads t = .idle ∨ (flow.threads t).truncs = true := by
  cases h with
  | checked offset p hp hnext heq =>
      rw [heq, goto_threads_self]
      rcases hnext with rfl | rfl | rfl
      · exact .inl rfl
      · exact .inr rfl
      · exact .inr rfl
  | passed offset hp hle heq =>
      rw [heq, goto_threads_self]
      exact .inl rfl
  | taken offset hp hlt heq =>
      rw [heq, goto_threads_self]
      exact .inr rfl
  | freed chunkId cleanList hp heq =>
      rw [heq, goto_threads_self]
      exact .inr rfl
  | finished hp heq =>
      rw [heq, goto_threads_self]
      exact .inl rfl

theorem Alone.flow {e : Event ι} {flow : Flow ι} (ha : Alone s)
    (hH : Undisturbed d s (.flow e)) (hallows : s.allows e = true)
    (h : step d (s.seen e.thread) e = some flow) :
    Alone (s.afterFlow e flow) := by
  by_cases hcalled : s.sealer = none
  · have hsealer : (s.afterFlow e flow).sealer = none :=
      (sealerAfter_other (by rw [hcalled]; exact nofun)).trans hcalled
    refine ⟨?_, fun _ => ha.uncalled hcalled, ?_, ?_⟩
    · intro t ht
      rw [hsealer] at ht
      cases ht
    · intro t p ht
      rw [hsealer] at ht
      cases ht
    · intro t p ht
      rw [hsealer] at ht
      cases ht
  · have hothers : ∀ u, u ≠ e.thread →
        flow.threads u = s.flow.threads u := by
      intro u hu
      rw [(trans_of_step h).others hu, (seen_eq s e.thread).1]
    rcases step_cases ha hH h hcalled with ⟨t, rfl, hown, hinside, hsealer⟩ |
      ⟨hown, hout, hsealer⟩
    · have htruncs := ha.truncs t _ hown
      have hafter : ∀ u p, (s.afterFlow (.go t) flow).sealer = some (u, p) →
          p.before = false := by
        intro u p hu
        rw [hsealer, Option.some.injEq, Prod.mk.injEq, SealPhase.after] at hu
        rw [← hu.2]
        split
        · rfl
        · rfl
      refine ⟨?_, fun hnone => ?_, ?_, ?_⟩
      · intro u hu
        cases hafter u _ hu
      · rw [hsealer] at hnone
        cases hnone
      · intro u p hu hbefore
        rw [hafter u p hu] at hbefore
        cases hbefore
      · intro t' p ht' u
        rw [hsealer, Option.some.injEq, Prod.mk.injEq] at ht'
        obtain ⟨rfl, rfl⟩ := ht'
        show (flow.threads u).truncs = true ↔ _
        by_cases hu : u = t
        · subst hu
          rcases hinside.phase with hidle | htrue
          · rw [hidle, SealPhase.after, if_pos rfl]
            exact ⟨nofun, fun h => nomatch h.2⟩
          · have hne : flow.threads u ≠ .idle := by
              intro hidle
              rw [hidle] at htrue
              cases htrue
            rw [SealPhase.after, if_neg hne]
            exact ⟨fun _ => ⟨rfl, rfl⟩, fun _ => htrue⟩
        · rw [hothers u hu, htruncs u]
          exact ⟨fun h => absurd h.1 hu, fun h => absurd h.1 hu⟩
    · refine ⟨?_, fun hnone => ?_, ?_, ?_⟩
      · intro t ht
        rw [hsealer] at ht
        exact ha.unsealed t ht
      · rw [hsealer] at hnone
        exact absurd hnone hcalled
      · intro t p ht hbefore
        rw [hsealer] at ht
        -- the thread of `Seal` does nothing else before `TruncateOffset`
        have hne : t ≠ e.thread := by
          intro heq
          simp only [Sealing.allows, ht, heq, hbefore, decide_true,
            Bool.and_true, Bool.not_true, Bool.false_and] at hallows
          cases hallows
        show flow.threads t = .idle
        rw [hothers t hne]
        exact ha.idle t p ht hbefore
      · intro t p ht u
        rw [hsealer] at ht
        show (flow.threads u).truncs = true ↔ _
        by_cases hu : u = e.thread
        · rw [hu, hout.truncs]
          refine ⟨nofun, ?_⟩
          rintro ⟨heq, rfl⟩
          rw [heq] at hown
          exact absurd ht hown
        · rw [hothers u hu]
          exact ha.truncs t p ht u

/-- `Seal` goes on before `TruncateOffset`. -/
theorem goSeal_cases {t : ι} {p : SealPhase} (h : goSeal s t p = some s') :
    p.before = true ∧ s'.freed = s.freed ∧ s'.writing = s.writing ∧
    ((p = .check ∧ s.sealed = true) ∨
      (p ≠ .call ∧ ∃ p', p'.before = true ∧ p' ≠ .check ∧
        s'.sealer = some (t, p') ∧
        ∃ w, s'.flow = { s.flow with writenOffset := w }) ∨
      (p = .call ∧ s'.sealer = some (t, .truncating) ∧
        s'.flow = s.flow.goto t (.truncPreLoad s.flow.writenOffset))) := by
  cases p with
  | check =>
      simp only [goSeal] at h
      split at h
      case isTrue hsealed =>
          cases h
          exact ⟨rfl, rfl, rfl, .inl ⟨rfl, hsealed⟩⟩
      case isFalse =>
          cases h
          exact ⟨rfl, rfl, rfl, .inr (.inl ⟨nofun, .set, rfl, nofun, rfl,
            s.flow.writenOffset, rfl⟩)⟩
  | set =>
      cases h
      exact ⟨rfl, rfl, rfl, .inr (.inl ⟨nofun, .load, rfl, nofun, rfl,
        s.flow.writenOffset, rfl⟩)⟩
  | load =>
      cases h
      exact ⟨rfl, rfl, rfl, .inr (.inl ⟨nofun, .store _, rfl, nofun, rfl,
        s.flow.writenOffset, rfl⟩)⟩
  | store w =>
      cases h
      exact ⟨rfl, rfl, rfl, .inr (.inl ⟨nofun, .call, rfl, nofun, rfl, w,
        rfl⟩)⟩
  | call =>
      cases h
      exact ⟨rfl, rfl, rfl, .inr (.inr ⟨rfl, rfl, rfl⟩)⟩
  | truncating => cases h
  | returned ret => cases h

/-- **SOUND**: a step of a run in question keeps the invariant. -/
theorem Sound.step {e : SealEvent ι} (hpos : 0 < d.chunkSize)
    (hs : Sound d s) (hH : Undisturbed d s e)
    (h : sealStep d s e = some s') : Sound d s' := by
  cases e with
  | flow e =>
      obtain ⟨hallows, flow, hflow, rfl⟩ := flow_step h
      refine ⟨?_, ?_, hs.alone.flow hH hallows hflow⟩
      · exact (hs.mapped.seen e.thread).trans hpos (fits_seen s e.thread hH.1)
          (trans_of_step hflow)
      · have hb := (hs.balanced.seen e.thread).step hpos
          (hs.mapped.seen e.thread) hflow
        rw [freedBy_seen] at hb
        exact hb
  | compare t =>
      simp only [sealStep] at h
      split at h
      · split at h
        · cases h
          exact ⟨hs.mapped, hs.balanced, hs.alone.unsealed, hs.alone.uncalled,
            hs.alone.idle, hs.alone.truncs⟩
        · cases h
      · cases h
  | callSeal t =>
      simp only [sealStep] at h
      split at h
      case isTrue hnew =>
          cases h
          refine ⟨hs.mapped, hs.balanced, ?_, nofun, ?_, ?_⟩
          · exact fun _ _ => hs.alone.uncalled hnew.1
          · intro u p hu _
            rw [Option.some.injEq, Prod.mk.injEq] at hu
            rw [← hu.1]
            exact hnew.2
          · intro u p hu v
            rw [Option.some.injEq, Prod.mk.injEq] at hu
            rw [hH v, ← hu.2]
            exact ⟨nofun, fun h => nomatch h.2⟩
      case isFalse => cases h
  | goSeal =>
      simp only [sealStep] at h
      split at h
      · rename_i t p hsealer
        obtain ⟨hbefore, hfreed, -, hcases⟩ := goSeal_cases h
        have hidle := hs.alone.idle t p hsealer hbefore
        have htruncs := hs.alone.truncs t p hsealer
        rcases hcases with ⟨rfl, hsealed⟩ |
          ⟨-, p', hbefore', hcheck, hsealer', w, hflow⟩ |
          ⟨rfl, hsealer', hflow⟩
        · rw [hs.alone.unsealed t hsealer] at hsealed
          cases hsealed
        · have hmapped : Mapped d s'.flow := by
            rw [hflow]
            exact ⟨hs.mapped.held, hs.mapped.inOrder, hs.mapped.chunks,
              hs.mapped.preLoad, hs.mapped.preLoad_lt, hs.mapped.trunc_le,
              hs.mapped.alloc, hs.mapped.trunc⟩
          have hbalanced : Balanced d s'.flow s'.freed := by
            rw [hflow, hfreed]
            exact hs.balanced
          refine ⟨hmapped, hbalanced, ?_, ?_, ?_, ?_⟩
          · intro u hu
            rw [hsealer', Option.some.injEq, Prod.mk.injEq] at hu
            exact absurd hu.2 hcheck
          · intro hnone
            rw [hsealer'] at hnone
            cases hnone
          · intro u q hu _
            rw [hsealer', Option.some.injEq, Prod.mk.injEq] at hu
            rw [hflow, ← hu.1]
            exact hidle
          · intro u q hu v
            rw [hsealer', Option.some.injEq, Prod.mk.injEq] at hu
            rw [hflow, ← hu.2]
            show (s.flow.threads v).truncs = true ↔ _
            rw [htruncs v]
            constructor
            · rintro ⟨-, rfl⟩
              cases hbefore
            · rintro ⟨-, rfl⟩
              cases hbefore'
        · have ht : Trans d s.flow (.truncateOffset t s.flow.writenOffset)
              (s.flow.goto t (.truncPreLoad s.flow.writenOffset)) :=
            .truncCall t _ hidle
          refine ⟨?_, ?_, ?_, ?_, ?_, ?_⟩
          · rw [hflow]
            exact Mapped.trans (e := .truncateOffset t s.flow.writenOffset) hpos
              hs.mapped trivial ht
          · rw [hflow, hfreed]
            exact hs.balanced.keep (cleanLists_same (by rw [hidle]; rfl)) rfl
              rfl
          · intro u hu
            rw [hsealer'] at hu
            cases hu
          · intro hnone
            rw [hsealer'] at hnone
            cases hnone
          · intro u q hu hbefore'
            rw [hsealer', Option.some.injEq, Prod.mk.injEq] at hu
            rw [← hu.2] at hbefore'
            cases hbefore'
          · intro u q hu v
            rw [hsealer', Option.some.injEq, Prod.mk.injEq] at hu
            obtain ⟨rfl, rfl⟩ := hu
            rw [hflow]
            by_cases hv : v = t
            · rw [hv, goto_threads_self]
              exact ⟨fun _ => ⟨rfl, rfl⟩, fun _ => rfl⟩
            · rw [goto_threads_ne _ _ hv, htruncs v]
              exact ⟨fun h => absurd h.1 hv, fun h => absurd h.1 hv⟩
      · cases h

/-! ## Whether everything is released -/

omit [DecidableEq ι] in
theorem not_past_of_none (h : s.sealer = none) : ¬ s.Past := by
  rintro ⟨t, ⟨ht, -⟩ | ht⟩
  · cases h.symm.trans ht
  · cases h.symm.trans ht

omit [DecidableEq ι] in
theorem not_past_of_before {t : ι} {p : SealPhase}
    (h : s.sealer = some (t, p)) (hp : p.before = true) : ¬ s.Past := by
  rintro ⟨u, ⟨hu, -⟩ | hu⟩
  · cases h.symm.trans hu
    cases hp
  · cases h.symm.trans hu
    cases hp

omit [DecidableEq ι] in
theorem not_past_of_phase {t : ι} (h : s.sealer = some (t, .truncating))
    (hp : ∀ l, s.flow.threads t ≠ .free l) : ¬ s.Past := by
  rintro ⟨u, ⟨hu, l, hl⟩ | hu⟩
  · cases h.symm.trans hu
    exact hp l hl
  · cases h.symm.trans hu

/-- A step of a thread that is not `Seal`'s in `TruncateOffset`. -/
theorem past_other {e : Event ι} {flow : Flow ι}
    (h : step d (s.seen e.thread) e = some flow)
    (hown : s.sealer ≠ some (e.thread, .truncating))
    (hsealer : (s.afterFlow e flow).sealer = s.sealer) :
    (s.afterFlow e flow).Past ↔ s.Past := by
  have hsame : ∀ t, s.sealer = some (t, .truncating) →
      flow.threads t = s.flow.threads t := by
    intro t ht
    have hne : t ≠ e.thread := by
      rintro rfl
      exact hown ht
    rw [(trans_of_step h).others hne, (seen_eq s e.thread).1]
  constructor
  · rintro ⟨t, ⟨ht, l, hl⟩ | ht⟩
    · rw [hsealer] at ht
      exact ⟨t, .inl ⟨ht, l, (hsame t ht).symm.trans hl⟩⟩
    · exact ⟨t, .inr (hsealer ▸ ht)⟩
  · rintro ⟨t, ⟨ht, l, hl⟩ | ht⟩
    · exact ⟨t, .inl ⟨hsealer.trans ht, l, (hsame t ht).trans hl⟩⟩
    · exact ⟨t, .inr (hsealer.trans ht)⟩

/-- A step of `Seal` in `TruncateOffset`, with the offsets after it: it is one
    of the checks, the locked section, or comes after that. -/
theorem own_cases {t : ι} {flow : Flow ι}
    (hown : s.sealer = some (t, .truncating))
    (hinside : Inside d (s.seen t) t flow)
    (hsealer : (s.afterFlow (.go t) flow).sealer =
      some (t, .after (s.flow.threads t) (flow.threads t))) :
    flow.preLoadOffset = s.flow.preLoadOffset ∧
    ((¬ s.Past ∧ ¬ (s.afterFlow (.go t) flow).Past ∧
        ∀ o, s.flow.threads t ≠ .truncate o) ∨
      (∃ o, s.flow.threads t = .truncate o ∧ ¬ s.Past ∧
        (s.afterFlow (.go t) flow).Past ∧
        flow.truncateOffset = max o s.flow.truncateOffset) ∨
      (s.Past ∧ (s.afterFlow (.go t) flow).Past ∧
        flow.truncateOffset = s.flow.truncateOffset ∧
        ∀ o, s.flow.threads t ≠ .truncate o)) := by
  obtain ⟨hthreads, htrunc, hpre⟩ := seen_eq s t
  cases hinside with
  | checked offset p hp hnext heq =>
      rw [hthreads] at hp
      have hphase : flow.threads t = p := by
        rw [heq, goto_threads_self]
      have hpast : ¬ s.Past := by
        refine not_past_of_phase hown fun l hl => ?_
        rcases hp with hp | hp
        · cases hp.symm.trans hl
        · cases hp.symm.trans hl
      have herr : truncateResult (s.flow.threads t) = .err := by
        rcases hp with hp | hp
        · rw [hp]
          rfl
        · rw [hp]
          rfl
      refine ⟨by rw [heq]; exact hpre, .inl ⟨hpast, ?_, ?_⟩⟩
      · rintro ⟨u, ⟨hu, l, hl⟩ | hu⟩
        · rw [hsealer, Option.some.injEq, Prod.mk.injEq] at hu
          rw [← hu.1] at hl
          have hl' := hphase.symm.trans hl
          rcases hnext with rfl | rfl | rfl
          · cases hl'
          · cases hl'
          · cases hl'
        · rw [hsealer, Option.some.injEq, Prod.mk.injEq, SealPhase.after,
            herr] at hu
          have hafter := hu.2
          split at hafter
          · cases hafter
          · cases hafter
      · intro o ho
        rcases hp with hp | hp
        · cases hp.symm.trans ho
        · cases hp.symm.trans ho
  | passed offset hp hle heq =>
      rw [hthreads] at hp
      rw [htrunc] at hle
      have hphase : flow.threads t = .idle := by
        rw [heq, goto_threads_self]
      refine ⟨by rw [heq]; exact hpre, .inr (.inl ⟨offset, hp, ?_, ?_, ?_⟩)⟩
      · exact not_past_of_phase hown (by rw [hp]; exact nofun)
      · refine ⟨t, .inr ?_⟩
        rw [hsealer, hphase, hp]
        rfl
      · rw [heq, Nat.max_eq_right hle]
        exact htrunc
  | taken offset hp hlt heq =>
      rw [hthreads] at hp
      rw [htrunc] at hlt
      have hphase : ∃ l, flow.threads t = .free l := by
        rw [heq, goto_threads_self]
        exact ⟨_, rfl⟩
      refine ⟨by rw [heq]; exact hpre, .inr (.inl ⟨offset, hp, ?_, ?_, ?_⟩)⟩
      · exact not_past_of_phase hown (by rw [hp]; exact nofun)
      · obtain ⟨l, hl⟩ := hphase
        refine ⟨t, .inl ⟨?_, l, hl⟩⟩
        rw [hsealer, hl]
        rfl
      · rw [heq, Nat.max_eq_left (Nat.le_of_lt hlt)]
        rfl
  | freed chunkId cleanList hp heq =>
      rw [hthreads] at hp
      have hphase : flow.threads t = .free cleanList := by
        rw [heq, goto_threads_self]
      refine ⟨by rw [heq]; exact hpre, .inr (.inr ⟨?_, ?_, ?_, ?_⟩)⟩
      · exact ⟨t, .inl ⟨hown, _, hp⟩⟩
      · refine ⟨t, .inl ⟨?_, cleanList, hphase⟩⟩
        rw [hsealer, hphase]
        rfl
      · rw [heq]
        exact htrunc
      · rw [hp]
        exact nofun
  | finished hp heq =>
      rw [hthreads] at hp
      have hphase : flow.threads t = .idle := by
        rw [heq, goto_threads_self]
      refine ⟨by rw [heq]; exact hpre, .inr (.inr ⟨?_, ?_, ?_, ?_⟩)⟩
      · exact ⟨t, .inl ⟨hown, _, hp⟩⟩
      · refine ⟨t, .inr ?_⟩
        rw [hsealer, hphase, hp]
        rfl
      · rw [heq]
        exact htrunc
      · rw [hp]
        exact nofun

/-- A step of a thread that is not `Seal`'s in `TruncateOffset` changes
    `mPreLoadOffset` at most, and only when it pushes a chunk. -/
theorem offsets_other {e : Event ι} {flow : Flow ι} (hpos : 0 < d.chunkSize)
    (hfits : Fits d s.flow e) (hout : Outside d (s.seen e.thread) e flow) :
    flow.truncateOffset = s.flow.truncateOffset ∧
    ((flow.preLoadOffset = s.flow.preLoadOffset ∧
        ∀ c, e = .go e.thread → s.flow.threads e.thread ≠ .push c) ∨
      ∃ t c, e = .go t ∧ s.flow.threads t = .push c ∧
        s.flow.preLoadOffset < flow.preLoadOffset) := by
  obtain ⟨hthreads, htrunc, hpre⟩ := seen_eq s e.thread
  refine ⟨hout.truncateOffset.trans htrunc, ?_⟩
  rcases hout.preLoadOffset with ⟨hsame, hpush⟩ | ⟨c, hgo, hpush, hmore⟩
  · refine .inl ⟨hsame.trans hpre, fun c hgo h => hpush c hgo ?_⟩
    rw [hthreads]
    exact h
  · rw [hthreads] at hpush
    refine .inr ⟨e.thread, c, hgo, hpush, ?_⟩
    rw [hgo] at hfits
    have hlt := hfits c hpush
    rw [hmore, hpre, wrap64, Nat.mod_eq_of_lt hlt]
    omega

/-- **EXACTLY**: a step goes on with everything released exactly if it is one
    of the steps that release everything. -/
theorem Sealing.Done.step {e : SealEvent ι} (hpos : 0 < d.chunkSize)
    (hs : Sound d s) (hH : Undisturbed d s e) (h : sealStep d s e = some s')
    (hdone : s.Done) : s'.Done ↔ Releases s e := by
  have hvoid : ¬ s'.Past → Releases s e → (s'.Done ↔ Releases s e) :=
    fun hnot hrel => ⟨fun _ => hrel, fun _ hpast => absurd hpast hnot⟩
  cases e with
  | compare t =>
      simp only [sealStep] at h
      split at h
      · split at h
        · cases h
          exact ⟨fun _ => trivial, fun _ => hdone⟩
        · cases h
      · cases h
  | callSeal t =>
      simp only [sealStep] at h
      split at h
      · cases h
        exact hvoid (not_past_of_before (t := t) (p := .check) rfl rfl) trivial
      · cases h
  | goSeal =>
      simp only [sealStep] at h
      split at h
      · rename_i t p hsealer
        obtain ⟨hbefore, -, -, hcases⟩ := goSeal_cases h
        rcases hcases with ⟨rfl, hsealed⟩ | ⟨-, p', hbefore', -, hsealer', -⟩ |
          ⟨rfl, hsealer', hflow⟩
        · rw [hs.alone.unsealed t hsealer] at hsealed
          cases hsealed
        · exact hvoid (not_past_of_before hsealer' hbefore') trivial
        · refine hvoid (not_past_of_phase hsealer' ?_) trivial
          rw [hflow, goto_threads_self]
          exact nofun
      · cases h
  | flow e =>
      obtain ⟨-, flow, hflow, rfl⟩ := flow_step h
      by_cases hcalled : s.sealer = none
      · have hsealer : (s.afterFlow e flow).sealer = none :=
          (sealerAfter_other (by rw [hcalled]; exact nofun)).trans hcalled
        refine hvoid (not_past_of_none hsealer) ?_
        cases e with
        | go t =>
            refine ⟨fun _ _ => not_past_of_none hcalled, fun o hown => ?_⟩
            rw [hcalled] at hown
            cases hown
        | _ => exact trivial
      · rcases step_cases hs.alone hH hflow hcalled with
          ⟨t, rfl, hown, hinside, hsealer⟩ | ⟨hown, hout, hsealer⟩
        · have hpush : ∀ c, s.flow.threads t ≠ .push c := by
            intro c hc
            have htruncs := (hs.alone.truncs t _ hown t).mpr ⟨rfl, rfl⟩
            rw [hc] at htruncs
            cases htruncs
          obtain ⟨hpre, ⟨-, hnot, hphase⟩ | ⟨o, ho, -, hpast, htrunc⟩ |
            ⟨hpast, hpast', htrunc, hphase⟩⟩ := own_cases hown hinside hsealer
          · exact hvoid hnot ⟨fun c hc => absurd hc (hpush c),
              fun o _ ho => absurd ho (hphase o)⟩
          · -- the locked section of `TruncateOffset`
            have hle : o ≤ s.flow.preLoadOffset :=
              hs.mapped.trunc t o (.inr ho)
            have htle := hs.mapped.trunc_le
            constructor
            · intro hdone'
              refine ⟨fun c hc => absurd hc (hpush c), ?_⟩
              intro o' _ ho'
              cases ho.symm.trans ho'
              rw [← htrunc, ← hpre]
              exact Nat.le_of_eq (hdone' hpast).symm
            · intro hrel _
              show flow.truncateOffset = flow.preLoadOffset
              have hmax := hrel.2 o hown ho
              rw [htrunc, hpre]
              omega
          · refine ⟨fun _ => ⟨fun c hc => absurd hc (hpush c),
              fun o _ ho => absurd ho (hphase o)⟩, fun _ _ => ?_⟩
            show flow.truncateOffset = flow.preLoadOffset
            rw [htrunc, hpre]
            exact hdone hpast
        · have hpast := past_other hflow hown hsealer
          obtain ⟨htrunc, ⟨hpre, hpush⟩ | ⟨t, c, rfl, hpush, hlt⟩⟩ :=
            offsets_other hpos hH.1 hout
          · constructor
            · intro _
              cases e with
              | go t =>
                  exact ⟨fun c hc => absurd hc (hpush c rfl),
                    fun o ht _ => absurd ht hown⟩
              | _ => exact trivial
            · intro _ hpast'
              show flow.truncateOffset = flow.preLoadOffset
              rw [htrunc, hpre]
              exact hdone (hpast.mp hpast')
          · -- a chunk is put on the list
            constructor
            · intro hdone'
              refine ⟨fun _ _ hp => ?_, fun o ht _ => absurd ht hown⟩
              have hafter : flow.truncateOffset = flow.preLoadOffset :=
                hdone' (hpast.mpr hp)
              have hbefore := hdone hp
              omega
            · intro hrel hpast'
              exact absurd (hpast.mp hpast') (hrel.1 c hpush)

/-- **LOST**: what `Seal` has left, nobody gives back. -/
theorem Sealing.Done.lost {e : SealEvent ι} (hpos : 0 < d.chunkSize)
    (hs : Sound d s) (hH : Undisturbed d s e) (h : sealStep d s e = some s')
    (hdone : ¬ s.Done) : ¬ s'.Done := by
  obtain ⟨hpast, hne⟩ := Classical.not_imp.mp hdone
  have hlt : s.flow.truncateOffset < s.flow.preLoadOffset :=
    Nat.lt_of_le_of_ne hs.mapped.trunc_le hne
  cases e with
  | compare t =>
      simp only [sealStep] at h
      split at h
      · split at h
        · cases h
          exact hdone
        · cases h
      · cases h
  | callSeal t =>
      simp only [sealStep] at h
      split at h
      case isTrue hnew => exact absurd hpast (not_past_of_none hnew.1)
      case isFalse => cases h
  | goSeal =>
      simp only [sealStep] at h
      split at h
      · rename_i t p hsealer
        exact absurd hpast
          (not_past_of_before hsealer (goSeal_cases h).1)
      · cases h
  | flow e =>
      obtain ⟨-, flow, hflow, rfl⟩ := flow_step h
      have hcalled : s.sealer ≠ none := fun h => not_past_of_none h hpast
      intro hdone'
      rcases step_cases hs.alone hH hflow hcalled with
        ⟨t, rfl, hown, hinside, hsealer⟩ | ⟨hown, hout, hsealer⟩
      · obtain ⟨hpre, ⟨hnot, -⟩ | ⟨o, -, hnot, -⟩ | ⟨-, hpast', htrunc, -⟩⟩ :=
          own_cases hown hinside hsealer
        · exact hnot hpast
        · exact hnot hpast
        · have hafter : flow.truncateOffset = flow.preLoadOffset :=
            hdone' hpast'
          omega
      · have hafter : flow.truncateOffset = flow.preLoadOffset :=
          hdone' ((past_other hflow hown hsealer).mpr hpast)
        obtain ⟨htrunc, ⟨hpre, -⟩ | ⟨t, c, -, -, hmore⟩⟩ :=
          offsets_other hpos hH.1 hout
        · omega
        · omega

/-! ## Whole runs -/

omit [DecidableEq ι] in
theorem sound_init (d : Dims) : Sound d (Sealing.init ι) where
  mapped := mapped_init d
  balanced := by
    refine ⟨[], holdings_nil, ?_⟩
    show (List.take _ []).Perm []
    rw [List.take_nil]
  alone := ⟨nofun, fun _ => rfl, nofun, nofun⟩

/-- `Seal` has returned `BIO_OK`, and no preload is queued or running. -/
structure Settled (s : Sealing ι) : Prop where
  returned : ∃ t, s.sealer = some (t, .returned .ok)
  queued : s.flow.queued = 0
  running : ∀ t, (s.flow.threads t).handles = false

/-- The flow has no chunk left, and every chunk that was ever allocated has
    been freed once for each time that it was. -/
structure Released (s : Sealing ι) : Prop where
  chunkList : s.flow.chunkList = []
  freed : s.freed.Perm (s.flow.log.map Prod.snd)

omit [DecidableEq ι] in
/-- When all is settled, everything is released exactly if everything that has
    been preloaded has been truncated. -/
theorem Settled.released_iff (hpos : 0 < d.chunkSize) (hs : Sound d s)
    (hset : Settled s) : Released s ↔ s.Done := by
  obtain ⟨t, hreturned⟩ := hset.returned
  have hpre := hs.mapped.preLoad
  constructor
  · intro h _
    rw [h.chunkList, List.length_nil, Nat.add_zero] at hpre
    refine Nat.le_antisymm hs.mapped.trunc_le ?_
    rw [hpre]
    exact Nat.div_mul_le_self ..
  · intro hdone
    have heq := hdone ⟨t, .inr hreturned⟩
    have hlen : s.flow.chunkList.length = 0 := by
      rw [heq] at hpre
      have hq := congrArg (· / d.chunkSize) hpre
      simp only [Nat.mul_div_cancel _ hpos] at hq
      omega
    have hempty := List.eq_nil_of_length_eq_zero hlen
    refine ⟨hempty, ?_⟩
    obtain ⟨gone, rest, hgone, hsplit, hpend⟩ := hs.mapped.chunks
    -- no worker has a chunk, and nobody has one to free
    have hrest : rest = [] := by
      rcases hpend with ⟨hrest, -⟩ | ⟨u, c, -, hu⟩
      · exact hrest
      · have hhandles := hset.running u
        rw [hu] at hhandles
        cases hhandles
    obtain ⟨held, hheld, hperm⟩ := hs.balanced
    have hnone : held = [] := by
      refine hheld.eq_nil fun u => cleanList_of_not_truncs ?_
      refine Bool.eq_false_iff.mpr fun htrue => ?_
      cases ((hs.alone.truncs t _ hreturned u).mp htrue).2
    rw [hrest, hempty, List.append_nil, List.append_nil] at hsplit
    rw [hnone, List.append_nil, ← hgone, hsplit, List.take_length] at hperm
    rw [hsplit]
    exact hperm.symm

/-- **SEALED**: when `Seal` has returned `BIO_OK` and no preload is queued or
    running any more, the flow has given all its chunks back, each once,
    exactly if no chunk has been put on the list after the locked section of
    `Seal`'s `TruncateOffset` and nothing was preloaded beyond its offset in
    that section. -/
theorem seal_releases {es : List (SealEvent ι)} (hpos : 1 ≤ d.chunkSize)
    (hH : Along (sealStep d) (Undisturbed d) (Sealing.init ι) es)
    (hrun : runFrom (sealStep d) (Sealing.init ι) es = some s)
    (hset : Settled s) :
    Released s ↔ Along (sealStep d) Releases (Sealing.init ι) es := by
  have hinit : (Sealing.init ι).Done := fun h =>
    absurd h (not_past_of_none rfl)
  have hsound : Sound d s :=
    runFrom_invariant_along (I := Sound d)
      (fun _ _ _ hs hg h => hs.step hpos hg h) es _ s (sound_init d) hH hrun
  rw [hset.released_iff hpos hsound]
  exact final_iff_along (J := Sound d) (Q := Sealing.Done)
    (fun _ _ _ hs hg h => hs.step hpos hg h)
    (fun _ _ _ hs hg h hdone => hdone.step hpos hs hg h)
    (fun _ _ _ hs hg h hdone => Sealing.Done.lost hpos hs hg h hdone)
    es _ s (sound_init d) hinit hH hrun

/-! ## Two runs -/

def fourDims : Dims := .of 4 0

/-- A writer waits for its first chunk, and a worker has got it. -/
def chunkInHand : List (SealEvent (Fin 3)) :=
  [.flow (.getAddrByOffset (three 0) (.of 0 4)), .flow (.go (three 0)),
   .flow (.go (three 0)), .flow (.go (three 0)), .flow (.go (three 0)),
   .flow (.go (three 0)), .flow (.preLoadObject (three 0) true),
   .flow (.start (three 1)), .flow (.go (three 1)),
   .flow (.mediaAlloc (three 1) (some 70))]

/-- The worker puts the chunk on the list and is ready. -/
def chunkOnList : List (SealEvent (Fin 3)) :=
  [.flow (.go (three 1)), .flow (.go (three 1))]

/-- `Seal`, up to the locked section of `TruncateOffset`. -/
def sealUp : List (SealEvent (Fin 3)) :=
  [.callSeal (three 2), .goSeal, .goSeal, .goSeal, .goSeal, .goSeal,
   .flow (.go (three 2)), .flow (.go (three 2)), .flow (.go (three 2))]

theorem settled_of_check {s : Sealing (Fin 3)}
    (h : (decide (s.sealer = some (2, .returned .ok)) &&
      decide (s.flow.queued = 0) &&
        decide (∀ t, (s.flow.threads t).handles = false)) = true) :
    Settled s := by
  obtain ⟨h, hrunning⟩ := Bool.and_eq_true_iff.mp h
  obtain ⟨hreturned, hqueued⟩ := Bool.and_eq_true_iff.mp h
  exact ⟨⟨2, of_decide_eq_true hreturned⟩, of_decide_eq_true hqueued,
    of_decide_eq_true hrunning⟩

/-- `Seal` truncates up to nothing while the worker has its chunk in hand; the
    chunk comes to the list of the sealed flow and stays there. -/
theorem sealed_with_chunk :
    ∃ s, runFrom (sealStep fourDims) (Sealing.init (Fin 3))
        (chunkInHand ++ sealUp ++ chunkOnList) = some s ∧
      Settled s ∧ ¬ Released s := by
  have hcheck : (runFrom (sealStep fourDims) (Sealing.init (Fin 3))
      (chunkInHand ++ sealUp ++ chunkOnList)).any (fun s =>
        (decide (s.sealer = some (2, .returned .ok)) &&
          decide (s.flow.queued = 0) &&
            decide (∀ t, (s.flow.threads t).handles = false)) &&
        decide (s.flow.chunkList = [70])) = true := by
    decide +kernel
  obtain ⟨s, hs, hcheck⟩ := (Option.any_eq_true _ _).mp hcheck
  obtain ⟨hset, hlist⟩ := Bool.and_eq_true_iff.mp hcheck
  refine ⟨s, hs, settled_of_check hset, fun h => ?_⟩
  have hempty := h.chunkList
  rw [of_decide_eq_true hlist] at hempty
  cases hempty

/-- A check that is enough for a step to be undisturbed and to release. -/
def releasesB (d : Dims) (s : Sealing (Fin 3)) : SealEvent (Fin 3) → Bool
  | .flow (.truncateOffset _ _) => decide (s.sealer = none)
  | .flow (.go t) =>
      decide (s.flow.preLoadOffset + d.chunkSize < 2 ^ 64) &&
        match s.flow.threads t with
        | .push _ => decide (s.sealer = none)
        | .truncate offset =>
            decide (s.flow.preLoadOffset ≤ max offset s.flow.truncateOffset)
        | _ => true
  | .callSeal _ => decide (∀ u, (s.flow.threads u).truncs = false)
  | _ => true

theorem undisturbed_of_releasesB {s : Sealing (Fin 3)}
    {e : SealEvent (Fin 3)} (h : releasesB d s e = true) :
    Undisturbed d s e := by
  cases e with
  | flow e =>
      cases e with
      | truncateOffset t offset =>
          exact ⟨trivial, fun _ _ _ => of_decide_eq_true h⟩
      | go t =>
          refine ⟨fun _ _ => ?_, nofun⟩
          exact of_decide_eq_true (Bool.and_eq_true_iff.mp h).1
      | _ => exact ⟨trivial, nofun⟩
  | callSeal t =>
      exact of_decide_eq_true (p := ∀ u, (s.flow.threads u).truncs = false) h
  | _ => exact trivial

theorem releases_of_releasesB {s : Sealing (Fin 3)} {e : SealEvent (Fin 3)}
    (h : releasesB d s e = true) : Releases s e := by
  cases e with
  | flow e =>
      cases e with
      | go t =>
          have hphase := (Bool.and_eq_true_iff.mp h).2
          refine ⟨fun c hc => ?_, fun offset _ ho => ?_⟩
          · rw [hc] at hphase
            exact not_past_of_none (of_decide_eq_true hphase)
          · rw [ho] at hphase
            exact of_decide_eq_true hphase
      | _ => exact trivial
  | _ => exact trivial

/-- The worker is ready before `Seal` comes, and `Seal` frees its chunk. -/
theorem seal_releases_ready :
    ∃ s, runFrom (sealStep fourDims) (Sealing.init (Fin 3))
        (chunkInHand ++ chunkOnList ++ sealUp ++
          [.flow (.go (three 2)), .flow (.go (three 2))]) = some s ∧
      s.freed = [70] ∧ Settled s ∧ Released s := by
  have hcheck : (runFrom (sealStep fourDims) (Sealing.init (Fin 3))
      (chunkInHand ++ chunkOnList ++ sealUp ++
        [.flow (.go (three 2)), .flow (.go (three 2))])).any (fun s =>
        (decide (s.sealer = some (2, .returned .ok)) &&
          decide (s.flow.queued = 0) &&
            decide (∀ t, (s.flow.threads t).handles = false)) &&
        decide (s.freed = [70])) = true := by
    decide +kernel
  have hgood : alongB (sealStep fourDims) (releasesB fourDims)
      (Sealing.init (Fin 3)) (chunkInHand ++ chunkOnList ++ sealUp ++
        [.flow (.go (three 2)), .flow (.go (three 2))]) = true := by
    decide +kernel
  obtain ⟨s, hs, hcheck⟩ := (Option.any_eq_true _ _).mp hcheck
  obtain ⟨hset, hfreed⟩ := Bool.and_eq_true_iff.mp hcheck
  have hset := settled_of_check hset
  refine ⟨s, hs, of_decide_eq_true hfreed, hset, ?_⟩
  exact (seal_releases (d := fourDims) (by decide)
    (along_of_alongB (fun _ _ h => undisturbed_of_releasesB h) _ _ hgood) hs
    hset).mpr
    (along_of_alongB (fun _ _ h => releases_of_releasesB h) _ _ hgood)

end UbsIo.Flows
