import UbsIo.Flows.Sealing

/-! # The balance of chunks

    `TruncateOffset` takes chunks off the list under the lock and frees them
    afterwards, one by one.  At every moment the chunks below the truncate
    offset are those that have been freed and those that some thread is going
    to free (`Balanced`).

    A step of a flow is one of a thread in `TruncateOffset` (`Inside`), or it
    takes nothing off the list and frees nothing (`Outside`). -/

namespace UbsIo.Flows

open UbsIo.Lib

variable {ι : Type} [DecidableEq ι] {d : Dims}

/-! ## Chunks that wait to be freed -/

/-- The chunks that a thread has taken off the list and not freed yet. -/
def Phase.cleanList : Phase → List Nat
  | .free cleanList => cleanList
  | _ => []

/-- The thread is in `TruncateOffset`. -/
def Phase.truncs : Phase → Bool
  | .truncPreLoad _ => true
  | .truncWriten _ => true
  | .truncate _ => true
  | .free _ => true
  | _ => false

section steps

variable {s s' : Flow ι} {t u : ι} {e : Event ι}

/-- A step of a thread that is not in `TruncateOffset` and does not call it:
    it stays outside, and of the offsets it changes `mPreLoadOffset` at most,
    when it pushes a chunk. -/
structure Outside (d : Dims) (s : Flow ι) (e : Event ι) (s' : Flow ι) :
    Prop where
  truncs : (s'.threads e.thread).truncs = false
  freed : freedBy s e = []
  truncateOffset : s'.truncateOffset = s.truncateOffset
  log : s'.log = s.log ∨ ∃ x, s'.log = s.log ++ [x]
  preLoadOffset : (s'.preLoadOffset = s.preLoadOffset ∧
      ∀ c, e = .go e.thread → s.threads e.thread ≠ .push c) ∨
    ∃ c, e = .go e.thread ∧ s.threads e.thread = .push c ∧
      s'.preLoadOffset = wrap64 (s.preLoadOffset + d.chunkSize)

/-- The other threads stay where they are. -/
theorem Trans.others (ht : Trans d s e s') (hu : u ≠ e.thread) :
    s'.threads u = s.threads u := by
  cases ht <;> exact Function.update_of_ne hu ..

theorem next_not_truncs (k : Caller) : k.next.truncs = false := by
  cases k with
  | holdWait r => rfl
  | getAddr => rfl

omit [DecidableEq ι] in
/-- A step that changes no offset. -/
theorem Outside.still {p : Phase} (hp : s.threads e.thread = p)
    (hpush : ∀ c, p ≠ .push c) (hfree : ∀ l, p ≠ .free l)
    (hafter : (s'.threads e.thread).truncs = false)
    (htrunc : s'.truncateOffset = s.truncateOffset)
    (hpre : s'.preLoadOffset = s.preLoadOffset)
    (hlog : s'.log = s.log ∨ ∃ x, s'.log = s.log ++ [x]) :
    Outside d s e s' := by
  refine ⟨hafter, ?_, htrunc, hlog, .inl ⟨hpre, fun c _ h => ?_⟩⟩
  · cases e with
    | go t =>
        have ht : s.threads t = p := hp
        simp only [freedBy, ht]
        cases p with
        | free l => exact absurd rfl (hfree l)
        | _ => rfl
    | _ => rfl
  · exact hpush c (hp.symm.trans h)

/-- The phase of a thread that has gone on. -/
theorem goto_truncs {s : Flow ι} {t : ι} {p : Phase} (hp : p.truncs = false) :
    ((s.goto t p).threads t).truncs = false := by
  rw [goto_threads_self]
  exact hp

theorem Trans.outside (ht : Trans d s e s')
    (hout : (s.threads e.thread).truncs = false)
    (hcall : ∀ t o, e ≠ .truncateOffset t o) : Outside d s e s' := by
  cases ht with
  | call t r hp =>
      exact .still hp nofun nofun (goto_truncs rfl) rfl rfl (.inl rfl)
  | truncCall t offset hp => exact absurd rfl (hcall t offset)
  | leave t hp =>
      have hp' : ∀ q, s.threads t = q → q.mayLeave = true := by
        rintro q rfl
        exact hp
      refine .still (p := s.threads t) rfl ?_ ?_ (goto_truncs rfl) rfl rfl
        (.inl rfl)
      · intro c hc
        exact nomatch hp' _ hc
      · intro l hl
        have hfree : (s.threads t).truncs = false := hout
        rw [hl] at hfree
        cases hfree
  | advance t p hp =>
      have hfrom : (s.threads t).truncs = false := hout
      generalize hq : s.threads t = q at hp hfrom
      cases hp with
      | valid r _ _ =>
          exact .still hq nofun nofun (goto_truncs rfl) rfl rfl (.inl rfl)
      | ahead r _ =>
          exact .still hq nofun nofun (goto_truncs rfl) rfl rfl (.inl rfl)
      | loaded r =>
          exact .still hq nofun nofun (goto_truncs rfl) rfl rfl (.inl rfl)
      | truncPreLoad offset _ => cases hfrom
      | truncWriten offset => cases hfrom
  | holdLoaded t r hp =>
      exact .still hp nofun nofun (goto_truncs rfl) rfl rfl (.inl rfl)
  | register t r hp hneed =>
      exact .still hp nofun nofun (goto_truncs rfl) rfl rfl (.inl rfl)
  | ready t k hp hready =>
      exact .still hp nofun nofun (goto_truncs (next_not_truncs k)) rfl rfl
        (.inl rfl)
  | notReady t k hp =>
      exact .still hp nofun nofun (goto_truncs rfl) rfl rfl (.inl rfl)
  | busy t k hp hflag =>
      exact .still hp nofun nofun (goto_truncs (next_not_truncs k)) rfl rfl
        (.inl rfl)
  | take t k hp hflag =>
      exact .still hp nofun nofun (goto_truncs rfl) rfl rfl (.inl rfl)
  | woken t r p hp hpost hp' =>
      refine .still hp nofun nofun (goto_truncs ?_) rfl rfl (.inl rfl)
      rcases hp' with rfl | rfl
      · rfl
      · rfl
  | written t r hp =>
      exact .still hp nofun nofun (goto_truncs rfl) rfl rfl (.inl rfl)
  | built t r flowAddr hp hbuild =>
      exact .still hp nofun nofun (goto_truncs rfl) rfl rfl (.inl rfl)
  | truncated t offset hp hlt =>
      have hfrom : (s.threads t).truncs = false := hout
      rw [hp] at hfrom
      cases hfrom
  | freed t chunkId cleanList hp =>
      have hfrom : (s.threads t).truncs = false := hout
      rw [hp] at hfrom
      cases hfrom
  | start t hp hq =>
      exact .still hp nofun nofun (goto_truncs rfl) rfl rfl (.inl rfl)
  | load t hp =>
      exact .still hp nofun nofun (goto_truncs rfl) rfl rfl (.inl rfl)
  | allocated t offset chunkId hp hfresh =>
      exact .still hp nofun nofun (goto_truncs rfl) rfl rfl (.inr ⟨_, rfl⟩)
  | allocFailed t offset hp =>
      exact .still hp nofun nofun (goto_truncs rfl) rfl rfl (.inl rfl)
  | pushed t chunkId hp =>
      refine ⟨goto_truncs rfl, ?_, rfl, .inl rfl,
        .inr ⟨chunkId, rfl, hp, rfl⟩⟩
      simp only [freedBy, hp]
  | cleaned t offset b hp =>
      refine .still hp nofun nofun (goto_truncs ?_) rfl rfl (.inl rfl)
      cases b with
      | true => rfl
      | false => rfl
  | cleanedAll t hp =>
      exact .still hp nofun nofun (goto_truncs rfl) rfl rfl (.inl rfl)
  | submitted t k hp =>
      exact .still hp nofun nofun (goto_truncs (next_not_truncs k)) rfl rfl
        (.inl rfl)
  | submitFailed t k hp =>
      exact .still hp nofun nofun (goto_truncs (next_not_truncs k)) rfl rfl
        (.inl rfl)

/-- What a step in `TruncateOffset` does. -/
inductive Inside (d : Dims) (s : Flow ι) (t : ι) (s' : Flow ι) : Prop where
  /-- one of the two checks, which may end the call -/
  | checked (offset : Nat) (p : Phase)
      (h : s.threads t = .truncPreLoad offset ∨
        s.threads t = .truncWriten offset)
      (hp : p = .idle ∨ p = .truncWriten offset ∨ p = .truncate offset)
      (heq : s' = s.goto t p)
  /-- all of it is truncated already -/
  | passed (offset : Nat) (h : s.threads t = .truncate offset)
      (hle : offset ≤ s.truncateOffset) (heq : s' = s.goto t .idle)
  | taken (offset : Nat) (h : s.threads t = .truncate offset)
      (hlt : s.truncateOffset < offset)
      (heq : s' = Flow.goto
        { s with
          chunkList := (truncated d s offset).2
          truncateOffset := offset }
        t (.free (truncated d s offset).1))
  | freed (chunkId : Nat) (cleanList : List Nat)
      (h : s.threads t = .free (chunkId :: cleanList))
      (heq : s' = Flow.goto
        { s with media := s.media.filter fun e => decide (e.2 ≠ chunkId) }
        t (.free cleanList))
  | finished (h : s.threads t = .free []) (heq : s' = s.goto t .idle)

theorem inside_of_step (hin : (s.threads e.thread).truncs = true)
    (h : step d s e = some s') :
    ∃ t, e = .go t ∧ Inside d s t s' := by
  cases e with
  | getAddrByOffset t r =>
      simp only [step] at h
      split at h
      case isTrue hidle =>
          have hfrom : (s.threads t).truncs = true := hin
          rw [hidle] at hfrom
          cases hfrom
      case isFalse => cases h
  | truncateOffset t offset =>
      simp only [step] at h
      split at h
      case isTrue hidle =>
          have hfrom : (s.threads t).truncs = true := hin
          rw [hidle] at hfrom
          cases hfrom
      case isFalse => cases h
  | start t =>
      simp only [step] at h
      split at h
      case isTrue hidle =>
          have hfrom : (s.threads t).truncs = true := hin
          rw [hidle.1] at hfrom
          cases hfrom
      case isFalse => cases h
  | mediaAlloc t result =>
      have hfrom : (s.threads t).truncs = true := hin
      simp only [step] at h
      split at h
      case h_1 hp => rw [hp] at hfrom; cases hfrom
      case h_2 hp => rw [hp] at hfrom; cases hfrom
      case h_3 => cases h
  | preLoadObject t ok =>
      have hfrom : (s.threads t).truncs = true := hin
      simp only [step] at h
      split at h
      case h_1 hp => rw [hp] at hfrom; cases hfrom
      case h_2 => cases h
  | go t =>
      refine ⟨t, rfl, ?_⟩
      have hfrom : (s.threads t).truncs = true := hin
      have hgo : resume d s t (s.threads t) = some s' := h
      cases hp : s.threads t with
      | truncPreLoad offset =>
          rw [hp] at hgo
          simp only [resume] at hgo
          split at hgo
          · exact .checked offset _ (.inl hp) (.inl rfl)
              (Option.some.inj hgo).symm
          · exact .checked offset _ (.inl hp) (.inr (.inl rfl))
              (Option.some.inj hgo).symm
      | truncWriten offset =>
          rw [hp] at hgo
          simp only [resume] at hgo
          split at hgo
          · exact .checked offset _ (.inr hp) (.inl rfl)
              (Option.some.inj hgo).symm
          · exact .checked offset _ (.inr hp) (.inr (.inr rfl))
              (Option.some.inj hgo).symm
      | truncate offset =>
          rw [hp] at hgo
          simp only [resume] at hgo
          split at hgo
          case isTrue hle =>
              exact .passed offset hp hle (Option.some.inj hgo).symm
          case isFalse hlt =>
              exact .taken offset hp (Nat.lt_of_not_le hlt)
                (Option.some.inj hgo).symm
      | free cleanList =>
          rw [hp] at hgo
          cases cleanList with
          | nil => exact .finished hp (Option.some.inj hgo).symm
          | cons chunkId cleanList =>
              exact .freed chunkId cleanList hp (Option.some.inj hgo).symm
      | _ =>
          rw [hp] at hfrom
          cases hfrom

/-! ## Every chunk is freed once -/

/-- The chunks below the truncate offset have been freed, or a thread is going
    to free them. -/
def Balanced (d : Dims) (s : Flow ι) (freed : List Nat) : Prop :=
  ∃ held, Holdings (fun u => (s.threads u).cleanList) held ∧
    ((s.log.map Prod.snd).take (s.truncateOffset / d.chunkSize)).Perm
      (freed ++ held)

variable {freed : List Nat}

theorem cleanList_of_not_truncs {p : Phase} (hp : p.truncs = false) :
    p.cleanList = [] := by
  cases p with
  | free l => cases hp
  | _ => rfl

/-- The holdings after a step of thread `t`. -/
theorem cleanLists_goto (s : Flow ι) (t : ι) (p : Phase) :
    (fun u => ((s.goto t p).threads u).cleanList) =
      Function.update (fun u => (s.threads u).cleanList) t p.cleanList := by
  funext u
  by_cases hu : u = t
  · rw [hu, goto_threads_self, Function.update_self]
  · rw [goto_threads_ne _ _ hu, Function.update_of_ne hu]

omit [DecidableEq ι] in
/-- A step that takes nothing off the list and frees nothing. -/
theorem Balanced.keep (hb : Balanced d s freed)
    (hsame : ∀ u, (s'.threads u).cleanList = (s.threads u).cleanList)
    (htrunc : s'.truncateOffset = s.truncateOffset)
    (hlog : (s'.log.map Prod.snd).take (s.truncateOffset / d.chunkSize) =
      (s.log.map Prod.snd).take (s.truncateOffset / d.chunkSize)) :
    Balanced d s' freed := by
  obtain ⟨held, hheld, hperm⟩ := hb
  refine ⟨held, ?_, ?_⟩
  · rw [funext hsame]
    exact hheld
  · rw [htrunc, hlog]
    exact hperm

omit [DecidableEq ι] in
/-- The chunks below the truncate offset are all allocated. -/
theorem Mapped.truncated_le_log (hm : Mapped d s) :
    s.truncateOffset / d.chunkSize ≤ s.log.length := by
  obtain ⟨gone, rest, hgone, hsplit, -⟩ := hm.chunks
  have hlen := congrArg List.length hsplit
  rw [List.length_map, List.length_append, List.length_append, hgone] at hlen
  omega

omit [DecidableEq ι] in
/-- The chunks below the new offset are those below the old one and those that
    are taken off. -/
theorem Mapped.take_truncated {offset : Nat} (hpos : 0 < d.chunkSize)
    (hm : Mapped d s) (hlt : s.truncateOffset < offset)
    (hle : offset ≤ s.preLoadOffset) :
    (s.log.map Prod.snd).take (offset / d.chunkSize) =
      (s.log.map Prod.snd).take (s.truncateOffset / d.chunkSize) ++
        (truncated d s offset).1 := by
  obtain ⟨gone, rest, hgone, hsplit, -⟩ := hm.chunks
  obtain ⟨k, hk⟩ := Nat.exists_eq_add_of_le
    (Nat.div_le_div_right (c := d.chunkSize) (Nat.le_of_lt hlt))
  have hlen : k ≤ s.chunkList.length := by
    have hq := Nat.div_le_div_right (c := d.chunkSize) hle
    rw [hm.preLoad, Nat.mul_div_cancel _ hpos, hk] at hq
    omega
  have htaken : (truncated d s offset).1 = s.chunkList.take k := by
    rw [hm.truncated_eq hpos, hk, Nat.add_sub_cancel_left]
  rw [htaken, hk, hsplit, List.append_assoc, ← hgone, List.take_left,
    List.take_length_add_append, List.take_append_of_le_length hlen]

omit [DecidableEq ι] in
theorem freedBy_nil (h : ∀ c l, s.threads t ≠ .free (c :: l)) :
    freedBy s (.go t) = [] := by
  rw [freedBy]
  split
  · rename_i c l hp
    exact absurd hp (h c l)
  · rfl

/-- A thread goes on and holds what it has held. -/
theorem cleanLists_same {p : Phase} (hp : p.cleanList =
    (s.threads t).cleanList) (u : ι) :
    ((s.goto t p).threads u).cleanList = (s.threads u).cleanList := by
  by_cases hu : u = t
  · rw [hu, goto_threads_self]
    exact hp
  · rw [goto_threads_ne _ _ hu]

/-- **ONCE**: a step of the flow keeps the balance. -/
theorem Balanced.step (hpos : 0 < d.chunkSize) (hm : Mapped d s)
    (hb : Balanced d s freed) (h : step d s e = some s') :
    Balanced d s' (freed ++ freedBy s e) := by
  by_cases hin : (s.threads e.thread).truncs = true
  · obtain ⟨t, rfl, hinside⟩ := inside_of_step hin h
    obtain ⟨held, hheld, hperm⟩ := hb
    obtain ⟨rest, hsplit, hnew⟩ := hheld.update t
    cases hinside with
    | checked offset p hp hnext heq =>
        subst heq
        have hphase : ∀ c l, s.threads t ≠ .free (c :: l) := by
          intro c l hfree
          rcases hp with hp | hp
          · cases hp.symm.trans hfree
          · cases hp.symm.trans hfree
        rw [freedBy_nil hphase, List.append_nil]
        refine Balanced.keep ⟨held, hheld, hperm⟩ (cleanLists_same ?_) rfl rfl
        have hold : (s.threads t).cleanList = [] := by
          rcases hp with hp | hp
          · exact congrArg Phase.cleanList hp
          · exact congrArg Phase.cleanList hp
        rw [hold]
        rcases hnext with rfl | rfl | rfl
        · rfl
        · rfl
        · rfl
    | passed offset hp hle heq =>
        subst heq
        rw [freedBy_nil (by rw [hp]; exact nofun), List.append_nil]
        exact Balanced.keep ⟨held, hheld, hperm⟩
          (cleanLists_same (by rw [hp]; rfl)) rfl rfl
    | taken offset hp hlt heq =>
        subst heq
        rw [freedBy_nil (by rw [hp]; exact nofun), List.append_nil]
        refine ⟨(truncated d s offset).1 ++ rest, ?_, ?_⟩
        · have hlists := hnew (Phase.free (truncated d s offset).1).cleanList
          rw [← cleanLists_goto] at hlists
          exact hlists
        · show ((s.log.map Prod.snd).take (offset / d.chunkSize)).Perm _
          have hnone : (s.threads t).cleanList ++ rest = rest := by
            rw [hp]
            rfl
          rw [hnone] at hsplit
          rw [hm.take_truncated hpos hlt (hm.trunc t offset (.inr hp))]
          calc _ = _ ++ (truncated d s offset).1 := rfl
            List.Perm _ ((freed ++ rest) ++ (truncated d s offset).1) :=
              (hperm.trans (hsplit.append_left freed)).append_right _
            List.Perm _ (freed ++ ((truncated d s offset).1 ++ rest)) := by
              rw [List.append_assoc]
              exact List.perm_append_comm.append_left freed
    | freed chunkId cleanList hp heq =>
        subst heq
        have hone : freedBy s (.go t) = [chunkId] := by
          simp only [freedBy, hp]
        rw [hone]
        refine ⟨cleanList ++ rest, ?_, ?_⟩
        · have hlists := hnew (Phase.free cleanList).cleanList
          rw [← cleanLists_goto] at hlists
          exact hlists
        · have hfirst : (s.threads t).cleanList ++ rest =
              [chunkId] ++ (cleanList ++ rest) := by
            rw [hp]
            rfl
          rw [hfirst] at hsplit
          rw [List.append_assoc]
          exact hperm.trans (hsplit.append_left freed)
    | finished hp heq =>
        subst heq
        rw [freedBy_nil (by rw [hp]; exact nofun), List.append_nil]
        exact Balanced.keep ⟨held, hheld, hperm⟩
          (cleanLists_same (by rw [hp]; rfl)) rfl rfl
  · have hfrom : (s.threads e.thread).truncs = false :=
      Bool.eq_false_iff.mpr hin
    have ht := trans_of_step h
    by_cases hcall : ∃ t o, e = .truncateOffset t o
    · obtain ⟨t, o, rfl⟩ := hcall
      cases ht with
      | truncCall _ _ hp =>
          show Balanced d _ (freed ++ [])
          rw [List.append_nil]
          exact hb.keep (cleanLists_same (by rw [hp]; rfl)) rfl rfl
    · have hout := ht.outside hfrom fun t o he => hcall ⟨t, o, he⟩
      rw [hout.freed, List.append_nil]
      refine hb.keep ?_ hout.truncateOffset ?_
      · intro u
        by_cases hu : u = e.thread
        · rw [hu, cleanList_of_not_truncs hout.truncs,
            cleanList_of_not_truncs hfrom]
        · rw [ht.others hu]
      · rcases hout.log with hlog | ⟨x, hlog⟩
        · rw [hlog]
        · rw [hlog, List.map_append, List.take_append_of_le_length]
          rw [List.length_map]
          exact hm.truncated_le_log

end steps

end UbsIo.Flows
