import UbsIo.Rcache.Lists

/-! # The ranges of the read cache

    What a step does to the ranges held (`RangeStep`) and to the truncate lists
    (`QueueStep`), and from both the invariant of every run. -/

namespace UbsIo.Rcache

open UbsIo.Lib

variable {ι κ β : Type} {n n' : Cache ι κ β} {tier : Tier} {c : Nat}

/-! ## The ranges -/

/-- What a step does to the ranges held. -/
inductive RangeStep (n n' : Cache ι κ β) : Prop where
  | same (hclaim : ∀ tier, n'.claim tier = n.claim tier)
      (hindex : ∀ tier, (n'.flow tier).index = (n.flow tier).index)
      (hoffset : ∀ tier, (n'.flow tier).offset = (n.flow tier).offset)
  | push (t : ι) (tier : Tier) (v : Value)
      (hnone : n.claim tier (.thread t) = none)
      (hself : n'.claim tier (.thread t) = some v)
      (hothers : ∀ w, w ≠ .thread t → n'.claim tier w = n.claim tier w)
      (htiers : ∀ x, x ≠ tier → n'.claim x = n.claim x)
      (htook : (n.flow tier).Took (n'.flow tier) v)
      (hflows : ∀ x, x ≠ tier → n'.flow x = n.flow x)
      (hevicts : tier = .disk → (n.threads t).evicts = some .mem)
  | pass (tier : Tier) (w x : Holder ι) (v : Value) (hne : w ≠ x)
      (hthread : ∀ t, x ≠ .thread t)
      (hw : n.claim tier w = some v) (hw' : n'.claim tier w = none)
      (hx : n.claim tier x = none) (hx' : n'.claim tier x = some v)
      (hothers : ∀ y, y ≠ w → y ≠ x → n'.claim tier y = n.claim tier y)
      (htiers : ∀ y, y ≠ tier → n'.claim y = n.claim y)
      (hindex : ∀ y, (n'.flow y).index = (n.flow y).index)
      (hoffset : ∀ y, (n'.flow y).offset = (n.flow y).offset)
  | drop (tier : Tier) (c : Nat) (hc : c ∈ n.truncateQ tier)
      (hc' : n'.claim tier (.chunk c) = none)
      (hothers : ∀ y, y ≠ .chunk c → n'.claim tier y = n.claim tier y)
      (htiers : ∀ y, y ≠ tier → n'.claim y = n.claim y)
      (hindex : ∀ y, (n'.flow y).index = (n.flow y).index)
      (hoffset : ∀ y, (n'.flow y).offset = (n.flow y).offset)

theorem Moves.claim {p q : Phase κ β} (h : Moves n p q) (tier : Tier) :
    q.claim tier = p.claim tier := by
  cases h <;> cases tier <;> rfl

theorem Relocks.claim {t : ι} {k k' : Chunk ι κ β} {p q : Phase κ β}
    (h : Relocks t k k' p q) (tier : Tier) : q.claim tier = p.claim tier := by
  cases h <;> cases tier <;> rfl

/-- A chunk gets another lock or mark. -/
theorem value_setChunk {m : Cache ι κ β} {k j : Chunk ι κ β}
    (hchunks : m.chunks = n.chunks) (hk : n.chunks c = some k)
    (hvalue : j.value = k.value) (x : Nat) :
    ((m.setChunk c j).chunks x).map (·.value) =
      (n.chunks x).map (·.value) := by
  by_cases hx : x = c
  · subst hx
    rw [setChunk_self, hk, Option.map_some, Option.map_some, hvalue]
  · rw [setChunk_of_ne _ _ hx, hchunks]

section

variable [DecidableEq ι]

theorem goto_threads_self (m : Cache ι κ β) (t : ι) (q : Phase κ β) :
    (m.goto t q).threads t = q :=
  Function.update_self ..

theorem goto_threads_ne {m : Cache ι κ β} {t u : ι} (q : Phase κ β)
    (hthreads : m.threads = n.threads) (hu : u ≠ t) :
    (m.goto t q).threads u = n.threads u := by
  rw [← hthreads]
  exact Function.update_of_ne hu ..

theorem claim_goto {m : Cache ι κ β} {t : ι} {q : Phase κ β}
    (hthreads : m.threads = n.threads) (hqueue : m.truncateQ = n.truncateQ)
    (hlost : m.lost = n.lost)
    (hvalue : ∀ c ∈ n.truncateQ tier,
      (m.chunks c).map (·.value) = (n.chunks c).map (·.value))
    (w : Holder ι) (hw : w ≠ .thread t) :
    (m.goto t q).claim tier w = n.claim tier w := by
  cases w with
  | thread u =>
      have hu : u ≠ t := fun h => hw (h ▸ rfl)
      dsimp only [Cache.claim, Cache.goto]
      rw [Function.update_of_ne hu, hthreads]
  | chunk c =>
      dsimp only [Cache.claim, Cache.goto]
      rw [hqueue]
      by_cases hc : c ∈ n.truncateQ tier
      · rw [if_pos hc, if_pos hc, hvalue c hc]
      · rw [if_neg hc, if_neg hc]
  | lost i =>
      dsimp only [Cache.claim, Cache.goto]
      rw [hlost]

theorem claim_goto_self (m : Cache ι κ β) (t : ι) (q : Phase κ β)
    (tier : Tier) : (m.goto t q).claim tier (.thread t) = q.claim tier := by
  dsimp only [Cache.claim, Cache.goto]
  rw [Function.update_self]

/-- A thread goes on with the same ranges. -/
theorem rangeStep_goto {m : Cache ι κ β} {t : ι} {q : Phase κ β}
    (hq : ∀ tier, q.claim tier = (n.threads t).claim tier)
    (hthreads : m.threads = n.threads) (hqueue : m.truncateQ = n.truncateQ)
    (hlost : m.lost = n.lost)
    (hvalue : ∀ tier, ∀ c ∈ n.truncateQ tier,
      (m.chunks c).map (·.value) = (n.chunks c).map (·.value))
    (hindex : ∀ tier, (m.flow tier).index = (n.flow tier).index)
    (hoffset : ∀ tier, (m.flow tier).offset = (n.flow tier).offset) :
    RangeStep n (m.goto t q) := by
  refine .same ?_ hindex hoffset
  intro tier
  funext w
  by_cases hw : w = .thread t
  · subst hw
    rw [claim_goto_self, hq]
    rfl
  · exact claim_goto hthreads hqueue hlost (hvalue tier) w hw

/-- A thread gives up its range. -/
theorem rangeStep_lose (tier : Tier) {m : Cache ι κ β} {t : ι} {q : Phase κ β}
    {v : Value}
    (hv : (n.threads t).claim tier = some v)
    (hother : ∀ x, x ≠ tier → (n.threads t).claim x = none)
    (hq : ∀ x, q.claim x = none)
    (hthreads : m.threads = n.threads) (hqueue : m.truncateQ = n.truncateQ)
    (hlost : m.lost = (n.lose tier v).lost)
    (hvalue : ∀ x, ∀ c ∈ n.truncateQ x,
      (m.chunks c).map (·.value) = (n.chunks c).map (·.value))
    (hindex : ∀ x, (m.flow x).index = (n.flow x).index)
    (hoffset : ∀ x, (m.flow x).offset = (n.flow x).offset) :
    RangeStep n (m.goto t q) := by
  have hlostx : ∀ x, x ≠ tier → m.lost x = n.lost x := by
    intro x hx
    rw [hlost]
    exact Function.update_of_ne hx ..
  have hlostt : m.lost tier = n.lost tier ++ [v] := by
    rw [hlost]
    exact Function.update_self ..
  -- all but the thread and the lists of lost ranges are as before
  have hsame : ∀ x w, w ≠ .thread t → (∀ i, w ≠ .lost i) →
      (m.goto t q).claim x w = n.claim x w := by
    intro x w hw hi
    cases w with
    | thread u =>
        have hu : u ≠ t := fun h => hw (h ▸ rfl)
        dsimp only [Cache.claim, Cache.goto]
        rw [Function.update_of_ne hu, hthreads]
    | chunk c =>
        dsimp only [Cache.claim, Cache.goto]
        rw [hqueue]
        by_cases hc : c ∈ n.truncateQ x
        · rw [if_pos hc, if_pos hc, hvalue x c hc]
        · rw [if_neg hc, if_neg hc]
    | lost i => exact absurd rfl (hi i)
  refine .pass tier (.thread t) (.lost (n.lost tier).length) v nofun nofun hv
    ?_ ?_ ?_ ?_ ?_ hindex hoffset
  · rw [claim_goto_self, hq]
  · exact List.getElem?_eq_none le_rfl
  · show (m.lost tier)[(n.lost tier).length]? = some v
    rw [hlostt, List.getElem?_append_right le_rfl, Nat.sub_self]
    rfl
  · intro w hw hi
    by_cases hlw : ∃ i, w = .lost i
    · obtain ⟨i, rfl⟩ := hlw
      have hne : i ≠ (n.lost tier).length := fun h => hi (h ▸ rfl)
      show (m.lost tier)[i]? = (n.lost tier)[i]?
      rw [hlostt]
      rcases Nat.lt_or_ge i (n.lost tier).length with hlt | hge
      · rw [List.getElem?_append_left hlt]
      · rw [List.getElem?_eq_none hge, List.getElem?_eq_none]
        rw [List.length_append, List.length_singleton]
        omega
    · exact hsame tier w hw fun i h => hlw ⟨i, h⟩
  · intro x hx
    funext w
    by_cases hw : w = .thread t
    · subst hw
      rw [claim_goto_self, hq]
      exact (hother x hx).symm
    · by_cases hlw : ∃ i, w = .lost i
      · obtain ⟨i, rfl⟩ := hlw
        show (m.lost x)[i]? = (n.lost x)[i]?
        rw [hlostx x hx]
      · exact hsame x w hw fun i h => hlw ⟨i, h⟩

/-- A thread takes the next range of a flow. -/
theorem rangeStep_take (tier : Tier) {m : Cache ι κ β} {t : ι} {q : Phase κ β}
    {v : Value} {f : RCacheFlow β} (hp : ∀ x, (n.threads t).claim x = none)
    (hq : q.claim tier = some v) (hother : ∀ x, x ≠ tier → q.claim x = none)
    (hf : (n.flow tier).Took f v) (hflow : m.flow = (n.setFlow tier f).flow)
    (hthreads : m.threads = n.threads) (hqueue : m.truncateQ = n.truncateQ)
    (hlost : m.lost = n.lost)
    (hvalue : ∀ x, ∀ c ∈ n.truncateQ x,
      (m.chunks c).map (·.value) = (n.chunks c).map (·.value))
    (hevicts : tier = .disk → (n.threads t).evicts = some .mem) :
    RangeStep n (m.goto t q) := by
  refine .push t tier v (hp tier) ?_ ?_ ?_ ?_ ?_ hevicts
  · rw [claim_goto_self, hq]
  · exact claim_goto hthreads hqueue hlost (hvalue tier)
  · intro x hx
    funext w
    by_cases hw : w = .thread t
    · subst hw
      rw [claim_goto_self, hother x hx]
      exact (hp x).symm
    · exact claim_goto hthreads hqueue hlost (hvalue x) w hw
  · have hself : (m.goto t q).flow tier = f := by
      show m.flow tier = f
      rw [hflow]
      exact Function.update_self ..
    rw [hself]
    exact hf
  · intro x hx
    show m.flow x = n.flow x
    rw [hflow]
    exact Function.update_of_ne hx ..

/-- A thread gives its range to a chunk in a truncate list. -/
theorem rangeStep_give (tier : Tier) {m : Cache ι κ β} {t : ι} {q : Phase κ β}
    {k : Chunk ι κ β} {l : List Nat}
    (hv : (n.threads t).claim tier = some k.value)
    (hother : ∀ x, x ≠ tier → (n.threads t).claim x = none)
    (hq : ∀ x, q.claim x = none) (hc : c ∉ n.truncateQ tier)
    (hl : ∀ x, x ∈ l ↔ x = c ∨ x ∈ n.truncateQ tier)
    (hqueue : m.truncateQ = (n.setTruncateQ tier l).truncateQ)
    (hthreads : m.threads = n.threads) (hlost : m.lost = n.lost)
    (hvalue : ∀ x, (m.chunks x).map (·.value) = (n.chunks x).map (·.value))
    (hk : n.chunks c = some k)
    (hindex : ∀ x, (m.flow x).index = (n.flow x).index)
    (hoffset : ∀ x, (m.flow x).offset = (n.flow x).offset) :
    RangeStep n (m.goto t q) := by
  have hqt : m.truncateQ tier = l := by
    rw [hqueue]
    exact Function.update_self ..
  have hqx : ∀ x, x ≠ tier → m.truncateQ x = n.truncateQ x := by
    intro x hx
    rw [hqueue]
    exact Function.update_of_ne hx ..
  refine .pass tier (.thread t) (.chunk c) k.value nofun nofun hv ?_ ?_ ?_ ?_ ?_
    hindex hoffset
  · rw [claim_goto_self, hq]
  · exact if_neg hc
  · show (if c ∈ m.truncateQ tier then (m.chunks c).map (·.value)
      else none) = _
    rw [if_pos (by rw [hqt, hl]; exact Or.inl rfl), hvalue, hk]
    rfl
  · intro w hw hwc
    cases w with
    | thread u =>
        have hu : u ≠ t := fun h => hw (h ▸ rfl)
        dsimp only [Cache.claim, Cache.goto]
        rw [Function.update_of_ne hu, hthreads]
    | chunk x =>
        have hx : x ≠ c := fun h => hwc (h ▸ rfl)
        have hiff : x ∈ m.truncateQ tier ↔ x ∈ n.truncateQ tier := by
          rw [hqt, hl, or_iff_right hx]
        simp only [Cache.claim, Cache.goto, hiff, hvalue]
    | lost i => exact congrFun (congrArg _ (congrFun hlost tier)) i
  · intro x hx
    funext w
    cases w with
    | thread u =>
        by_cases hu : u = t
        · subst hu
          rw [claim_goto_self, hq]
          exact (hother x hx).symm
        · dsimp only [Cache.claim, Cache.goto]
          rw [Function.update_of_ne hu, hthreads]
    | chunk y => simp only [Cache.claim, Cache.goto, hqx x hx, hvalue]
    | lost i => exact congrFun (congrArg _ (congrFun hlost x)) i

/-- A chunk leaves its truncate list: all others hold what they held. -/
theorem claim_erase {t : ι} {p q : Phase κ β} (hp : n.threads t = p)
    (hq : ∀ x, q.claim x = p.claim x) (x : Tier) (w : Holder ι)
    (hw : x = tier → w ≠ .chunk c) :
    ((n.setTruncateQ tier ((n.truncateQ tier).erase c)).goto t q).claim x w =
      n.claim x w := by
  cases w with
  | thread u =>
      by_cases hu : u = t
      · subst hu
        rw [claim_goto_self, hq, ← hp]
        rfl
      · dsimp only [Cache.claim, Cache.goto, Cache.setTruncateQ]
        rw [Function.update_of_ne hu]
  | chunk y =>
      have hiff : y ∈ (n.setTruncateQ tier
          ((n.truncateQ tier).erase c)).truncateQ x ↔ y ∈ n.truncateQ x := by
        by_cases hx : x = tier
        · subst hx
          have hy : y ≠ c := fun h => hw rfl (h ▸ rfl)
          rw [show (n.setTruncateQ x _).truncateQ x = _ from
            Function.update_self .., List.mem_erase_of_ne hy]
        · rw [show (n.setTruncateQ tier _).truncateQ x = _ from
            Function.update_of_ne hx ..]
      simp only [Cache.claim, Cache.goto, hiff]
      rfl
  | lost i => rfl

theorem rangeStep_drop {t : ι} {p q : Phase κ β}
    (hp : n.threads t = p) (hq : ∀ x, q.claim x = p.claim x)
    (hc : c ∈ n.truncateQ tier) (hnodup : (n.truncateQ tier).Nodup) :
    RangeStep n
      ((n.setTruncateQ tier ((n.truncateQ tier).erase c)).goto t q) := by
  refine .drop tier c hc ?_ (fun w hw => claim_erase hp hq tier w fun _ => hw)
    ?_ (fun _ => rfl) fun _ => rfl
  · show (if c ∈ (n.setTruncateQ tier _).truncateQ tier then _ else none) =
      none
    rw [show (n.setTruncateQ tier _).truncateQ tier = _ from
      Function.update_self .., if_neg hnodup.not_mem_erase]
  · intro x hx
    funext w
    exact claim_erase hp hq x w fun h => absurd h hx

end

variable [DecidableEq ι] [DecidableEq κ] {e : Event ι κ β}

/-- Where thread `u` goes with a step of its own, and what the step does where
    it matters to the thread. -/
inductive PhaseStep (n : Cache ι κ β) (e : Event ι κ β) (n' : Cache ι κ β)
    (u : ι) : Phase κ β → Phase κ β → Prop where
  | moves {p q : Phase κ β} (h : Moves n p q) (hchunks : n'.chunks = n.chunks) :
      PhaseStep n e n' u p q
  | relocks {p q : Phase κ β} {c : Nat} {k k' : Chunk ι κ β}
      (h : Relocks u k k' p q) (hc : p.at_ = some c)
      (hk : n.chunks c = some k) :
      PhaseStep n e n' u p q
  | reserved (v : Value) : PhaseStep n e n' u .idle (.reserved v)
  | lost (v : Value) : PhaseStep n e n' u (.reserved v) .idle
  | unwritten (v : Value) (data : List β) :
      PhaseStep n e n' u (.written v data) .idle
  | written (v : Value) (data : List β) (hlen : data.length = v.length)
      (hn : n' = (n.setFlow .mem
        ((n.flow .mem).write v.flowOffset data)).goto u (.written v data)) :
      PhaseStep n e n' u (.reserved v) (.written v data)
  | inserted (v : Value) (data : List β)
      (hdata : (n'.chunks n.count).map (·.data) = some data) :
      PhaseStep n e n' u (.written v data) (.indexed n.count v)
  | listed (c : Nat) (v : Value) (k : Chunk ι κ β) (hk : n.chunks c = some k)
      (hn : n' = ((n.setTruncateQ .mem
        (n.addToTruncateList .mem c)).setChunk c
          { k with lock := none }).goto u .idle) :
      PhaseStep n e n' u (.listed c v) .idle
  | started (tier : Tier) (needEvict : Nat) :
      PhaseStep n e n' u .idle (.evict tier needEvict 0)
  | returned (tier : Tier) (needEvict haveEvict : Nat) :
      PhaseStep n e n' u (.evict tier needEvict haveEvict) .idle
  | refused (tier : Tier) (needEvict haveEvict c : Nat) :
      PhaseStep n e n' u (.victim tier needEvict haveEvict c) .idle
  | allocated (needEvict haveEvict c : Nat) (v : Value) (k : Chunk ι κ β)
      (hk : n.chunks c = some k) (hlock : k.lock = none) :
      PhaseStep n e n' u (.victim .mem needEvict haveEvict c)
        (.allocated needEvict haveEvict c v)
  | failed (needEvict haveEvict c : Nat) (v : Value) (k : Chunk ι κ β)
      (hk : n.chunks c = some k)
      (he : e = .fail u ∨ ∃ loaded stale, e = .go u loaded stale ∧
        (((n.flow .mem).getAddrByOffset k.value.flowOffset k.value.reach
            loaded).2 = false ∨
          ((n.flow .disk).getAddrByOffset v.flowOffset v.reach loaded).2 =
            false)) :
      PhaseStep n e n' u (.allocated needEvict haveEvict c v) .idle
  | copied (needEvict haveEvict c : Nat) (v : Value) (k : Chunk ι κ β)
      (m : Cache ι κ β) (hk : n.chunks c = some k)
      (hmem : (n.flow .mem).truncateOffset ≤ k.value.flowOffset)
      (hchunks : n'.chunks = n.chunks)
      (hn : n'.flow .disk = (m.flow .disk).write v.flowOffset
        ((n.flow .mem).read k.value.flowOffset k.value.length)) :
      PhaseStep n e n' u (.allocated needEvict haveEvict c v)
        (.copied needEvict haveEvict c v)
  | unqueued (needEvict haveEvict c : Nat) (v : Value)
      (hn : n' = (n.setTruncateQ .mem ((n.truncateQ .mem).erase c)).goto u
        (.unqueued needEvict haveEvict c v)) :
      PhaseStep n e n' u (.copied needEvict haveEvict c v)
        (.unqueued needEvict haveEvict c v)
  | moved (needEvict haveEvict c : Nat) (v : Value) :
      PhaseStep n e n' u (.unlisted needEvict haveEvict c v)
        (.moved needEvict haveEvict c v)
  | arrived (needEvict haveEvict got c : Nat) (v : Value) (k : Chunk ι κ β)
      (hk : n.chunks c = some k)
      (hn : n' = (((n.setTruncateQ .disk
        (n.addToTruncateList .disk c)).setFlow .mem
          ((n.flow .mem).updateDataTruncOffset k.value)).setChunk c
            { k with lock := none }).goto u (.evict .mem needEvict got)) :
      PhaseStep n e n' u (.moved needEvict haveEvict c v)
        (.evict .mem needEvict got)
  | erased (needEvict haveEvict c : Nat) (k : Chunk ι κ β)
      (hk : n.chunks c = some k) (hlock : k.lock = none) :
      PhaseStep n e n' u (.victim .disk needEvict haveEvict c)
        (.erased needEvict haveEvict c)
  | dropped (needEvict haveEvict c : Nat)
      (hn : n' = (n.setTruncateQ .disk ((n.truncateQ .disk).erase c)).goto u
        (.dropped needEvict haveEvict c)) :
      PhaseStep n e n' u (.erased needEvict haveEvict c)
        (.dropped needEvict haveEvict c)
  | gone (needEvict haveEvict got c : Nat) :
      PhaseStep n e n' u (.dropped needEvict haveEvict c)
        (.evict .disk needEvict got)
  | truncated (tier : Tier) (haveEvict : Nat) :
      PhaseStep n e n' u (.truncate tier haveEvict) .idle

/-- A thread stays where it is, or goes on. -/
theorem Trans.phase (ht : Trans n e n') (u : ι) :
    n'.threads u = n.threads u ∨
      PhaseStep n e n' u (n.threads u) (n'.threads u) := by
  have hgoto : ∀ {m : Cache ι κ β} {t : ι} {q : Phase κ β},
      n' = m.goto t q → m.threads = n.threads →
      PhaseStep n e n' t (n.threads t) q →
      n'.threads u = n.threads u ∨
        PhaseStep n e n' u (n.threads u) (n'.threads u) := by
    intro m t q hn hthreads hq
    by_cases hut : u = t
    · subst hut
      have hu : n'.threads u = q := hn ▸ goto_threads_self ..
      rw [hu]
      exact Or.inr hq
    · exact Or.inl (hn ▸ goto_threads_ne q hthreads hut)
  cases ht with
  | quiet _ m hsame => exact Or.inl (hsame.threads ▸ rfl)
  | moves t _ q m hsame hq =>
      exact hgoto rfl hsame.threads (.moves hq hsame.chunks)
  | relocks t _ q m c k k' hsame hc hk hq =>
      exact hgoto (m := m.setChunk c k') rfl hsame.threads
        (.relocks hq hc hk)
  | reserved t _ f v hp hf =>
      exact hgoto (m := n.setFlow .mem f) rfl rfl (hp ▸ .reserved v)
  | lost t _ v hp =>
      refine hgoto (m := n.lose .mem v) rfl rfl ?_
      rcases hp with hp | ⟨data, hp⟩ <;> rw [hp]
      · exact .lost v
      · exact .unwritten v data
  | written t _ v data hp hlen =>
      exact hgoto (m := n.setFlow .mem _) rfl rfl
        (hp ▸ .written v data hlen rfl)
  | inserted t key dataCrc v data hp =>
      refine hgoto (m := { n.setChunk n.count _ with index := _, count := _ })
        rfl rfl (hp ▸ .inserted v data ?_)
      exact congrArg (Option.map Chunk.data) (setChunk_self n n.count
        ⟨key, v, .mem, dataCrc, false, some t, data⟩)
  | listed t _ c v k hp hk =>
      exact hgoto (m := (n.setTruncateQ .mem _).setChunk c _) rfl rfl
        (hp ▸ .listed c v k hk rfl)
  | started t _ tier needEvict hp hfree =>
      exact hgoto (m := n.setEvicting tier true) rfl rfl (hp ▸ .started tier _)
  | returned t _ tier m hsame hp =>
      refine hgoto (m := m.setEvicting tier false) rfl hsame.threads ?_
      rcases hp with ⟨need, got, hp⟩ | ⟨need, got, c, hp⟩ <;> rw [hp]
      · exact .returned tier need got
      · exact .refused tier need got c
  | allocated t _ needEvict haveEvict c k f v hp hk hlock hf hlen =>
      exact hgoto (m := (n.setFlow .disk f).setChunk c _) rfl rfl
        (hp ▸ .allocated needEvict haveEvict c v k hk hlock)
  | failed t _ needEvict haveEvict c k v m hsame hp hk he =>
      exact hgoto (m := ((m.lose .disk v).setChunk c
        { k with lock := none }).setEvicting .mem false) rfl hsame.threads
        (hp ▸ .failed needEvict haveEvict c v k hk he)
  | copied t _ needEvict haveEvict c k v m hsame hp hk hmem =>
      exact hgoto (m := m.setFlow .disk _) rfl hsame.threads
        (hp ▸ .copied needEvict haveEvict c v k m hk hmem hsame.chunks
          (setFlow_self m .disk ((m.flow .disk).write v.flowOffset
            ((n.flow .mem).read k.value.flowOffset k.value.length))))
  | unqueued t _ needEvict haveEvict c v hp =>
      exact hgoto (m := n.setTruncateQ .mem _) rfl rfl
        (hp ▸ .unqueued needEvict haveEvict c v rfl)
  | moved t _ needEvict haveEvict c k v m hsame hp hk =>
      exact hgoto (m := m.setChunk c _) rfl hsame.threads
        (hp ▸ .moved needEvict haveEvict c v)
  | arrived t _ needEvict haveEvict c k v hp hk =>
      exact hgoto (m := ((n.setTruncateQ .disk _).setFlow .mem _).setChunk c _)
        rfl rfl (hp ▸ .arrived needEvict haveEvict _ c v k hk rfl)
  | erased t _ needEvict haveEvict c k index hp hk hlock hindex =>
      exact hgoto (m := Cache.setChunk { n with index := index } c _) rfl rfl
        (hp ▸ .erased needEvict haveEvict c k hk hlock)
  | dropped t _ needEvict haveEvict c hp =>
      exact hgoto (m := n.setTruncateQ .disk _) rfl rfl
        (hp ▸ .dropped needEvict haveEvict c rfl)
  | gone t _ needEvict haveEvict c k m hsame hp hk =>
      exact hgoto (m := (m.setFlow .disk _).setChunk c _) rfl hsame.threads
        (hp ▸ .gone needEvict haveEvict _ c)
  | truncated t _ tier haveEvict f hp hf =>
      exact hgoto (m := (n.setFlow tier f).setEvicting tier false) rfl rfl
        (hp ▸ .truncated tier haveEvict)

theorem Good.rangeStep (h : Good n) (ht : Trans n e n') : RangeStep n n' := by
  cases ht with
  | quiet _ m hsame =>
      refine .same ?_ (fun tier => (hsame.flow tier).index)
        fun tier => (hsame.flow tier).offset
      intro tier
      funext w
      cases w <;>
        simp only [Cache.claim, hsame.threads, hsame.truncateQ, hsame.chunks,
          hsame.lost]
  | moves t _ q m hsame hq =>
      exact rangeStep_goto hq.claim hsame.threads hsame.truncateQ hsame.lost
        (fun _ x _ => by rw [hsame.chunks])
        (fun tier => (hsame.flow tier).index)
        fun tier => (hsame.flow tier).offset
  | relocks t _ q m c k k' hsame hc hk hq =>
      exact rangeStep_goto (m := m.setChunk c k') hq.claim hsame.threads
        hsame.truncateQ hsame.lost
        (fun _ x _ => value_setChunk hsame.chunks hk hq.same.2.1 x)
        (fun tier => (hsame.flow tier).index)
        fun tier => (hsame.flow tier).offset
  | reserved t _ f v hp hf =>
      refine rangeStep_take .mem (v := v) (f := f)
        (m := n.setFlow .mem f) ?_ rfl ?_ hf rfl rfl rfl rfl
        (fun _ _ _ => rfl) fun hx => by cases hx
      · intro x
        rw [hp]
        cases x <;> rfl
      · intro x hx
        cases x with
        | mem => exact absurd rfl hx
        | disk => rfl
  | lost t _ v hp =>
      refine rangeStep_lose .mem (v := v) ?_ ?_ (fun _ => rfl) rfl rfl
        rfl (fun _ _ _ => rfl) (fun _ => rfl) fun _ => rfl
      · rcases hp with hp | ⟨data, hp⟩ <;> rw [hp] <;> rfl
      · intro x hx
        cases x with
        | mem => exact absurd rfl hx
        | disk => rcases hp with hp | ⟨data, hp⟩ <;> rw [hp] <;> rfl
  | written t _ v data hp hlen =>
      refine rangeStep_goto (m := n.setFlow .mem _) ?_ rfl rfl rfl
        (fun _ _ _ => rfl)
        (setFlow_congr (f := (n.flow .mem).write v.flowOffset data)
          (·.index) rfl)
        (setFlow_congr (f := (n.flow .mem).write v.flowOffset data)
          (·.offset) rfl)
      intro x
      rw [hp]
      cases x <;> rfl
  | inserted t key dataCrc v data hp =>
      refine rangeStep_goto (m := { n.setChunk n.count _ with
        index := _, count := _ }) ?_ rfl rfl rfl ?_ (fun _ => rfl) fun _ => rfl
      · intro x
        rw [hp]
        cases x <;> rfl
      · intro tier x hx
        have hne : x ≠ n.count := by
          rintro rfl
          obtain ⟨k, hk, -⟩ := h.queued tier _ hx
          rw [h.fresh n.count le_rfl] at hk
          cases hk
        dsimp only
        rw [setChunk_of_ne _ _ hne]
  | listed t _ c v k hp hk =>
      obtain ⟨k', hk', hlock, hv, -, hc⟩ : Fits n t (.listed c v) :=
        hp ▸ h.fits t
      obtain rfl := Option.some.inj (hk.symm.trans hk')
      refine rangeStep_give .mem (k := k)
        (m := (n.setTruncateQ .mem (n.addToTruncateList .mem c)).setChunk c
          { k with lock := none }) ?_ ?_ (fun _ => rfl) (hc .mem) ?_ rfl rfl rfl
        (value_setChunk (m := n.setTruncateQ .mem _) rfl hk rfl) hk
        (fun _ => rfl) fun _ => rfl
      · rw [hp, hv]
        rfl
      · intro x hx
        rw [hp]
        cases x with
        | mem => exact absurd rfl hx
        | disk => rfl
      · intro x
        rw [addToTruncateList_eq (Or.inl rfl), List.mem_orderedInsert]
  | started t _ tier needEvict hp hfree =>
      refine rangeStep_goto (m := n.setEvicting tier true) ?_ rfl rfl rfl
        (fun _ _ _ => rfl) (fun _ => rfl) fun _ => rfl
      intro x
      rw [hp]
      cases x <;> rfl
  | returned t _ tier m hsame hp =>
      refine rangeStep_goto (m := m.setEvicting tier false) ?_ hsame.threads
        hsame.truncateQ hsame.lost (fun _ x _ => by
          rw [show (m.setEvicting tier false).chunks = n.chunks from
            hsame.chunks]) (fun tier => (hsame.flow tier).index)
        fun tier => (hsame.flow tier).offset
      intro x
      rcases hp with ⟨need, got, hp⟩ | ⟨need, got, c, hp⟩ <;> rw [hp] <;>
        cases x <;> rfl
  | allocated t _ needEvict haveEvict c k f v hp hk hlock hf hlen =>
      refine rangeStep_take .disk (v := v) (f := f)
        (m := (n.setFlow .disk f).setChunk c { k with lock := some t }) ?_ rfl
        ?_ hf rfl rfl rfl rfl (fun _ x _ =>
          value_setChunk (m := n.setFlow .disk f)
            (j := { k with lock := some t }) rfl hk rfl x)
        fun _ => by rw [hp]; rfl
      · intro x
        rw [hp]
        cases x <;> rfl
      · intro x hx
        cases x with
        | mem => rfl
        | disk => exact absurd rfl hx
  | failed t _ needEvict haveEvict c k v m hsame hp hk he =>
      refine rangeStep_lose .disk (v := v)
        (m := ((m.lose .disk v).setChunk c
          { k with lock := none }).setEvicting .mem false) ?_ ?_
        (fun _ => rfl) hsame.threads hsame.truncateQ ?_
        (fun _ x _ => value_setChunk (m := m.lose .disk v)
          (j := { k with lock := none }) hsame.chunks hk rfl x)
        (fun tier => (hsame.flow tier).index)
        fun tier => (hsame.flow tier).offset
      · rw [hp]
        rfl
      · intro x hx
        rw [hp]
        cases x with
        | mem => rfl
        | disk => exact absurd rfl hx
      · show Function.update m.lost _ _ = Function.update n.lost _ _
        rw [hsame.lost]
  | copied t _ needEvict haveEvict c k v m hsame hp hk hmem =>
      refine rangeStep_goto (m := m.setFlow .disk _) ?_ hsame.threads
        hsame.truncateQ hsame.lost ?_ ?_ ?_
      · intro x
        rw [hp]
        cases x <;> rfl
      · intro x y _
        exact congrArg (Option.map _) (congrFun hsame.chunks y)
      · exact fun x => (setFlow_congr (f := RCacheFlow.write _ _ _) (·.index)
          rfl x).trans (hsame.flow x).index
      · exact fun x => (setFlow_congr (f := RCacheFlow.write _ _ _) (·.offset)
          rfl x).trans (hsame.flow x).offset
  | unqueued t _ needEvict haveEvict c v hp =>
      obtain ⟨k, hk, -, hc, -⟩ : Fits n t (.copied needEvict haveEvict c v) :=
        hp ▸ h.fits t
      refine rangeStep_drop hp ?_ hc (h.nodup .mem)
      intro x
      cases x <;> rfl
  | moved t _ needEvict haveEvict c k v m hsame hp hk =>
      obtain ⟨k', hk', -, hc, -⟩ : Fits n t (.unlisted needEvict haveEvict
        c v) := hp ▸ h.fits t
      refine rangeStep_goto (m := m.setChunk c _) ?_ hsame.threads
        hsame.truncateQ hsame.lost ?_ (fun x => (hsame.flow x).index)
        fun x => (hsame.flow x).offset
      · intro x
        rw [hp]
        cases x <;> rfl
      · intro x y hy
        have hne : y ≠ c := by
          rintro rfl
          exact hc x hy
        rw [setChunk_of_ne _ _ hne, hsame.chunks]
  | arrived t _ needEvict haveEvict c k v hp hk =>
      obtain ⟨k', hk', -, hc, -, hv⟩ : Fits n t (.moved needEvict haveEvict
        c v) := hp ▸ h.fits t
      obtain rfl := Option.some.inj (hk.symm.trans hk')
      refine rangeStep_give .disk (k := k)
        (m := ((n.setTruncateQ .disk (n.addToTruncateList .disk c)).setFlow
          .mem _).setChunk c { k with lock := none }) ?_ ?_
        (fun x => by cases x <;> rfl) (hc .disk) ?_ rfl rfl rfl
        (value_setChunk (m := (n.setTruncateQ .disk _).setFlow .mem _) rfl hk
          rfl) hk
        (setFlow_congr (n := n.setTruncateQ .disk _)
          (f := (n.flow .mem).updateDataTruncOffset k.value) (·.index) rfl)
        (setFlow_congr (n := n.setTruncateQ .disk _)
          (f := (n.flow .mem).updateDataTruncOffset k.value) (·.offset) rfl)
      · rw [hp, hv]
        rfl
      · intro x hx
        rw [hp]
        cases x with
        | mem => rfl
        | disk => exact absurd rfl hx
      · intro x
        rw [h.add_arrived hp, List.mem_orderedInsert]
  | erased t _ needEvict haveEvict c k index hp hk hlock hindex =>
      refine rangeStep_goto (m := Cache.setChunk { n with index := index } c _)
        ?_ rfl rfl rfl (fun _ x _ =>
          value_setChunk (n := n) (m := { n with index := index })
            (j := { k with state := true, lock := some t }) rfl hk rfl x)
        (fun _ => rfl) fun _ => rfl
      intro x
      rw [hp]
      cases x <;> rfl
  | dropped t _ needEvict haveEvict c hp =>
      obtain ⟨k, hk, -, hc, -⟩ : Fits n t (.erased needEvict haveEvict c) :=
        hp ▸ h.fits t
      refine rangeStep_drop hp ?_ hc (h.nodup .disk)
      intro x
      cases x <;> rfl
  | gone t _ needEvict haveEvict c k m hsame hp hk =>
      refine rangeStep_goto (m := (m.setFlow .disk _).setChunk c _) ?_
        hsame.threads hsame.truncateQ hsame.lost (fun _ x _ =>
          value_setChunk (m := m.setFlow .disk _)
            (j := { k with lock := none }) hsame.chunks hk rfl x) ?_ ?_
      · intro x
        rw [hp]
        cases x <;> rfl
      · exact fun x => (setFlow_congr
          (f := (m.flow .disk).updateDataTruncOffset k.value) (·.index)
          rfl x).trans (hsame.flow x).index
      · exact fun x => (setFlow_congr
          (f := (m.flow .disk).updateDataTruncOffset k.value) (·.offset)
          rfl x).trans (hsame.flow x).offset
  | truncated t _ tier haveEvict f hp hf =>
      refine rangeStep_goto (m := (n.setFlow tier f).setEvicting tier false) ?_
        rfl rfl rfl (fun _ _ _ => rfl) (setFlow_congr (·.index) hf.index)
        (setFlow_congr (·.offset) hf.offset)
      intro x
      rw [hp]
      cases x <;> rfl

/-! ## The chunks and the lists -/

/-- What a step leaves of a chunk: the key, the length and what was put; and
    the range and the tier, while the chunk is in a truncate list. -/
structure Keeps (n : Cache ι κ β) (c : Nat) (k k' : Chunk ι κ β) : Prop where
  key : k'.key = k.key
  data : k'.data = k.data
  dataCrc : k'.dataCrc = k.dataCrc
  state : k.state = true → k'.state = true
  length : k'.value.length = k.value.length
  place : ¬ Unqueued n c → k'.value = k.value ∧ k'.tier = k.tier

omit [DecidableEq ι] [DecidableEq κ] in
theorem Keeps.refl (n : Cache ι κ β) (c : Nat) (k : Chunk ι κ β) :
    Keeps n c k k :=
  ⟨rfl, rfl, rfl, id, rfl, fun _ => ⟨rfl, rfl⟩⟩

omit [DecidableEq ι] [DecidableEq κ] in
/-- The lock was free, or the thread had it. -/
theorem Relocks.lock {t : ι} {k k' : Chunk ι κ β} {p q : Phase κ β}
    (h : Relocks t k k' p q) (hc : p.at_ = some c)
    (hp : n.threads t = p) :
    k.lock = none ∨ ∃ u, (n.threads u).holds = some c := by
  cases h with
  | addressed q c hlock hstate hoffset => exact Or.inl hlock
  | served c tier => exact Or.inr ⟨t, by rw [hp]; exact hc⟩
  | unwritten q c realLen => exact Or.inr ⟨t, by rw [hp]; exact hc⟩
  | deleted c hlock => exact Or.inl hlock

/-- What a step does to the chunks. -/
inductive ChunkStep (n : Cache ι κ β) (e : Event ι κ β) (n' : Cache ι κ β) :
    Prop where
  | same (h : n'.chunks = n.chunks) (hcount : n'.count = n.count)
      (hindex : n'.index = n.index)
  | update (c : Nat) (k k' : Chunk ι κ β) (hk : n.chunks c = some k)
      (h : n'.chunks = Function.update n.chunks c (some k'))
      (hkeeps : Keeps n c k k') (hcount : n'.count = n.count)
      (hindex : ∀ key c, n'.index key = some c → n.index key = some c)
      (hlock : k.lock = none ∨ ∃ t, (n.threads t).holds = some c)
  | insert (t : ι) (v : Value) (data : List β) (key : κ) (dataCrc : Nat)
      (hp : n.threads t = .written v data)
      (hp' : n'.threads t = .indexed n.count v)
      (h : n'.chunks = Function.update n.chunks n.count
        (some ⟨key, v, .mem, dataCrc, false, some t, data⟩))
      (hcount : n'.count = n.count + 1)
      (hindex : n'.index = Function.update n.index key (some n.count))
      (he : e = .insert t key dataCrc)

omit [DecidableEq ι] in
theorem index_deleteFromIndex (n : Cache ι κ β) (k : Chunk ι κ β) (key : κ)
    (c : Nat) (h : n.deleteFromIndex k key = some c) :
    n.index key = some c := by
  unfold Cache.deleteFromIndex at h
  cases hm : (n.index k.key).bind n.chunks with
  | none =>
      rw [hm] at h
      exact h
  | some i =>
    rw [hm] at h
    dsimp only at h
    split at h
    · by_cases hkey : key = k.key
      · rw [hkey, Function.update_self] at h
        cases h
      · rw [Function.update_of_ne hkey] at h
        exact h
    · exact h

theorem Good.chunkStep (h : Good n) (ht : Trans n e n') :
    ChunkStep n e n' := by
  cases ht with
  | quiet _ m hsame => exact .same hsame.chunks hsame.count hsame.index
  | moves t _ q m hsame hq => exact .same hsame.chunks hsame.count hsame.index
  | relocks t _ q m c k k' hsame hc hk hq =>
      obtain ⟨hkey, hvalue, htier, hstate⟩ := hq.same
      refine .update c k k' hk ?_
        ⟨hkey, hq.data.1, hq.data.2, hstate, by rw [hvalue],
          fun _ => ⟨hvalue, htier⟩⟩ hsame.count
        (fun key c hc => hsame.index ▸ hc) (hq.lock hc rfl)
      rw [← hsame.chunks]
      rfl
  | reserved t _ f v hp hf => exact .same rfl rfl rfl
  | lost t _ v hp => exact .same rfl rfl rfl
  | written t _ v data hp hlen => exact .same rfl rfl rfl
  | inserted t key dataCrc v data hp =>
      exact .insert t v data key dataCrc hp (goto_threads_self ..) rfl rfl rfl
        rfl
  | listed t _ c v k hp hk =>
      exact .update c k { k with lock := none } hk rfl
        ⟨rfl, rfl, rfl, id, rfl, fun _ => ⟨rfl, rfl⟩⟩ rfl (fun _ _ => id)
        (Or.inr ⟨t, by rw [hp]; rfl⟩)
  | started t _ tier needEvict hp hfree => exact .same rfl rfl rfl
  | returned t _ tier m hsame hp =>
      exact .same hsame.chunks hsame.count hsame.index
  | allocated t _ needEvict haveEvict c k f v hp hk hlock hf hlen =>
      exact .update c k { k with lock := some t } hk rfl
        ⟨rfl, rfl, rfl, id, rfl, fun _ => ⟨rfl, rfl⟩⟩ rfl (fun _ _ => id)
        (Or.inl hlock)
  | failed t _ needEvict haveEvict c k v m hsame hp hk he =>
      refine .update c k { k with lock := none } hk ?_
        ⟨rfl, rfl, rfl, id, rfl, fun _ => ⟨rfl, rfl⟩⟩ hsame.count
        (fun key c hc => hsame.index ▸ hc) (Or.inr ⟨t, by rw [hp]; rfl⟩)
      rw [← hsame.chunks]
      rfl
  | copied t _ needEvict haveEvict c k v m hsame hp hk hmem =>
      exact .same hsame.chunks hsame.count hsame.index
  | unqueued t _ needEvict haveEvict c v hp => exact .same rfl rfl rfl
  | moved t _ needEvict haveEvict c k v m hsame hp hk =>
      obtain ⟨k', hk', -, hc, -, hlen⟩ : Fits n t (.unlisted needEvict
        haveEvict c v) := hp ▸ h.fits t
      obtain rfl := Option.some.inj (hk.symm.trans hk')
      refine .update c k { k with value := v, tier := .disk } hk ?_
        ⟨rfl, rfl, rfl, id, hlen, fun hne => absurd hc hne⟩ hsame.count
        (fun key c hc => hsame.index ▸ hc) (Or.inr ⟨t, by rw [hp]; rfl⟩)
      rw [← hsame.chunks]
      rfl
  | arrived t _ needEvict haveEvict c k v hp hk =>
      exact .update c k { k with lock := none } hk rfl
        ⟨rfl, rfl, rfl, id, rfl, fun _ => ⟨rfl, rfl⟩⟩ rfl (fun _ _ => id)
        (Or.inr ⟨t, by rw [hp]; rfl⟩)
  | erased t _ needEvict haveEvict c k index hp hk hlock hindex =>
      exact .update c k { k with state := true, lock := some t } hk rfl
        ⟨rfl, rfl, rfl, fun _ => rfl, rfl, fun _ => ⟨rfl, rfl⟩⟩ rfl
        (fun key x hx => index_deleteFromIndex n k key x (hindex ▸ hx))
        (Or.inl hlock)
  | dropped t _ needEvict haveEvict c hp => exact .same rfl rfl rfl
  | gone t _ needEvict haveEvict c k m hsame hp hk =>
      refine .update c k { k with lock := none } hk ?_
        ⟨rfl, rfl, rfl, id, rfl, fun _ => ⟨rfl, rfl⟩⟩ hsame.count
        (fun key c hc => hsame.index ▸ hc) (Or.inr ⟨t, by rw [hp]; rfl⟩)
      rw [← hsame.chunks]
      rfl
  | truncated t _ tier haveEvict f hp hf => exact .same rfl rfl rfl

/-- Nothing is forgotten of a chunk. -/
theorem Good.keeps (h : Good n) (ht : Trans n e n') {k : Chunk ι κ β}
    (hk : n.chunks c = some k) :
    ∃ k', n'.chunks c = some k' ∧ Keeps n c k k' := by
  cases h.chunkStep ht with
  | same hchunks _ _ => exact ⟨k, hchunks ▸ hk, .refl n c k⟩
  | update x kx kx' hkx hchunks hkeeps _ _ =>
      by_cases hx : c = x
      · subst hx
        obtain rfl := Option.some.inj (hk.symm.trans hkx)
        exact ⟨kx', by rw [hchunks, Function.update_self], hkeeps⟩
      · exact ⟨k, by rw [hchunks, Function.update_of_ne hx, hk], .refl n c k⟩
  | insert t v data key dataCrc _ _ hchunks _ _ =>
      have hne : c ≠ n.count := by
        rintro rfl
        rw [h.fresh n.count le_rfl] at hk
        cases hk
      exact ⟨k, by rw [hchunks, Function.update_of_ne hne, hk], .refl n c k⟩

/-- What a step does to the truncate lists. -/
inductive QueueStep (n n' : Cache ι κ β) : Prop where
  | same (h : n'.truncateQ = n.truncateQ)
  | add (tier : Tier) (c : Nat) (k : Chunk ι κ β) (hc : Unqueued n c)
      (hk : n.chunks c = some k) (htier : k.tier = tier)
      (hk' : ∃ k', n'.chunks c = some k' ∧ k'.value = k.value ∧ k'.tier = tier)
      (h : n'.truncateQ = Function.update n.truncateQ tier
        ((n.truncateQ tier).orderedInsert (Later n) c))
  | erase (tier : Tier) (c : Nat)
      (hleft : (∃ t, (n'.threads t).carries = some c) ∨
        ∃ k, n'.chunks c = some k ∧ k.state = true)
      (h : n'.truncateQ = Function.update n.truncateQ tier
        ((n.truncateQ tier).erase c))
      (hdue : ∃ t k, (n.threads t).evicts = some tier ∧
        (n.threads t).holds = some c ∧ n.chunks c = some k ∧ Due n tier k)

theorem Good.queueStep (h : Good n) (ht : Trans n e n') : QueueStep n n' := by
  cases ht with
  | quiet _ m hsame => exact .same hsame.truncateQ
  | moves t _ q m hsame hq => exact .same hsame.truncateQ
  | relocks t _ q m c k k' hsame hc hk hq => exact .same hsame.truncateQ
  | listed t _ c v k hp hk =>
      obtain ⟨k', hk', -, -, htier, hc⟩ : Fits n t (.listed c v) :=
        hp ▸ h.fits t
      obtain rfl := Option.some.inj (hk.symm.trans hk')
      refine .add .mem c k hc hk htier
        ⟨{ k with lock := none }, setChunk_self .., rfl, htier⟩ ?_
      rw [← addToTruncateList_eq (Or.inl rfl)]
      rfl
  | returned t _ tier m hsame hp => exact .same hsame.truncateQ
  | failed t _ needEvict haveEvict c k v m hsame hp hk he =>
      exact .same hsame.truncateQ
  | copied t _ needEvict haveEvict c k v m hsame hp hk hmem =>
      exact .same hsame.truncateQ
  | unqueued t _ needEvict haveEvict c v hp =>
      obtain ⟨k, hk, -, -, hdue, -⟩ : Fits n t (.copied needEvict haveEvict
        c v) := hp ▸ h.fits t
      refine .erase .mem c (Or.inl ⟨t, ?_⟩) rfl
        ⟨t, k, by rw [hp]; rfl, by rw [hp]; rfl, hk, hdue⟩
      exact congrArg Phase.carries
        (goto_threads_self (n.setTruncateQ .mem _) ..)
  | moved t _ needEvict haveEvict c k v m hsame hp hk =>
      exact .same hsame.truncateQ
  | arrived t _ needEvict haveEvict c k v hp hk =>
      obtain ⟨k', hk', -, hc, htier, -⟩ : Fits n t (.moved needEvict haveEvict
        c v) := hp ▸ h.fits t
      obtain rfl := Option.some.inj (hk.symm.trans hk')
      refine .add .disk c k hc hk htier
        ⟨{ k with lock := none }, setChunk_self .., rfl, htier⟩ ?_
      rw [← h.add_arrived hp]
      rfl
  | dropped t _ needEvict haveEvict c hp =>
      obtain ⟨k, hk, -, -, hdue, hstate⟩ : Fits n t (.erased needEvict
        haveEvict c) := hp ▸ h.fits t
      exact .erase .disk c (Or.inr ⟨k, hk, hstate⟩) rfl
        ⟨t, k, by rw [hp]; rfl, by rw [hp]; rfl, hk, hdue⟩
  | gone t _ needEvict haveEvict c k m hsame hp hk =>
      exact .same hsame.truncateQ
  | _ => exact .same rfl

/-! ## The invariant -/

theorem Good.queued_step (h : Good n) (ht : Trans n e n') :
    ∀ tier, ∀ c ∈ n'.truncateQ tier,
      ∃ k, n'.chunks c = some k ∧ k.tier = tier := by
  -- a chunk that was in the list before
  have hold : ∀ tier, ∀ c ∈ n.truncateQ tier,
      ∃ k, n'.chunks c = some k ∧ k.tier = tier := by
    intro tier c hc
    obtain ⟨k, hk, htier⟩ := h.queued tier c hc
    obtain ⟨k', hk', hkeeps⟩ := h.keeps ht hk
    have hplace := hkeeps.place fun hun => hun tier hc
    exact ⟨k', hk', hplace.2.trans htier⟩
  intro tier c hc
  cases h.queueStep ht with
  | same hq => exact hold tier c (hq ▸ hc)
  | add x c₀ k hun hk htier hk' hq =>
      rw [hq] at hc
      by_cases hx : tier = x
      · subst hx
        rw [Function.update_self, List.mem_orderedInsert] at hc
        rcases hc with rfl | hc
        · obtain ⟨k', hk', -, ht'⟩ := hk'
          exact ⟨k', hk', ht'⟩
        · exact hold tier c hc
      · rw [Function.update_of_ne hx] at hc
        exact hold tier c hc
  | erase x c₀ _ hq =>
      rw [hq] at hc
      by_cases hx : tier = x
      · subst hx
        rw [Function.update_self] at hc
        exact hold tier c (List.mem_of_mem_erase hc)
      · rw [Function.update_of_ne hx] at hc
        exact hold tier c hc

theorem Good.nodup_step (h : Good n) (ht : Trans n e n') (tier : Tier) :
    (n'.truncateQ tier).Nodup := by
  cases h.queueStep ht with
  | same hq => exact hq ▸ h.nodup tier
  | add x c₀ k hun hk htier hk' hq =>
      rw [hq]
      by_cases hx : tier = x
      · subst hx
        rw [Function.update_self,
          (List.perm_orderedInsert (Later n) c₀ _).nodup_iff]
        exact List.nodup_cons.mpr ⟨hun tier, h.nodup tier⟩
      · rw [Function.update_of_ne hx]
        exact h.nodup tier
  | erase x c₀ _ hq =>
      rw [hq]
      by_cases hx : tier = x
      · subst hx
        rw [Function.update_self]
        exact (h.nodup tier).erase c₀
      · rw [Function.update_of_ne hx]
        exact h.nodup tier

/-- The chunks of the lists keep their ranges. -/
theorem Good.index_step (h : Good n) (ht : Trans n e n')
    (hc : c ∈ n.truncateQ tier) : n'.indexInFlow c = n.indexInFlow c := by
  obtain ⟨k, hk, -⟩ := h.queued tier c hc
  obtain ⟨k', hk', hkeeps⟩ := h.keeps ht hk
  unfold Cache.indexInFlow
  rw [hk, hk']
  exact congrArg Value.indexInFlow (hkeeps.place fun hun => hun tier hc).1

theorem Good.sorted_step (h : Good n) (ht : Trans n e n') (tier : Tier) :
    (n'.truncateQ tier).Pairwise (Later n') := by
  have hold : (n.truncateQ tier).Pairwise (Later n') := by
    refine (h.sorted tier).imp_of_mem ?_
    intro a b ha hb hab
    unfold Later
    rw [h.index_step ht ha, h.index_step ht hb]
    exact hab
  cases h.queueStep ht with
  | same hq => exact hq ▸ hold
  | add x c₀ k hun hk htier hk' hq =>
      rw [hq]
      by_cases hx : tier = x
      · subst hx
        rw [Function.update_self]
        -- the new chunk has its range already
        have hnew : n'.indexInFlow c₀ = n.indexInFlow c₀ := by
          obtain ⟨k', hk', hvalue, -⟩ := hk'
          unfold Cache.indexInFlow
          rw [hk, hk']
          exact congrArg Value.indexInFlow hvalue
        refine ((h.sorted tier).orderedInsert c₀ _).imp_of_mem ?_
        have hsame : ∀ y ∈ (n.truncateQ tier).orderedInsert (Later n) c₀,
            n'.indexInFlow y = n.indexInFlow y := by
          intro y hy
          rcases (List.mem_orderedInsert (Later n)).mp hy with rfl | hy
          · exact hnew
          · exact h.index_step ht hy
        intro a b ha hb hab
        unfold Later
        rw [hsame a ha, hsame b hb]
        exact hab
      · rw [Function.update_of_ne hx]
        exact hold
  | erase x c₀ _ hq =>
      rw [hq]
      by_cases hx : tier = x
      · subst hx
        rw [Function.update_self]
        exact hold.sublist List.erase_sublist
      · rw [Function.update_of_ne hx]
        exact hold

theorem Good.handed_step (h : Good n) (ht : Trans n e n') (tier : Tier) :
    Handed ruler (n'.claim tier) (n'.flow tier).index
      (n'.flow tier).offset := by
  have hold := h.handed tier
  cases h.rangeStep ht with
  | same hclaim hindex hoffset =>
      rw [hclaim, hindex, hoffset]
      exact hold
  | push t x v hnone hself hothers htiers htook hflows _ =>
      by_cases hx : tier = x
      · subst hx
        rw [htook.index, htook.offset]
        refine hold.push (t := .thread t) htook.value_index htook.value_offset
          v.lt_reach ?_ ?_
        · intro u hu
          rw [hself] at hu
          exact (Option.some.inj hu).symm
        · intro w u hw hu
          rw [← hothers w hw]
          exact hu
      · rw [htiers tier hx, hflows tier hx]
        exact hold
  | pass x w y v hne _ hw hw' hy hy' hothers htiers hindex hoffset =>
      rw [hindex, hoffset]
      by_cases hx : tier = x
      · subst hx
        -- whoever has the range now takes the place of who had it before
        classical
        refine hold.of_sub (Equiv.swap w y) ?_ ?_ le_rfl le_rfl
        · intro a b _ _ hab
          exact (Equiv.swap w y).injective hab
        · intro a u ha
          by_cases haw : a = w
          · subst haw
            rw [hw'] at ha
            cases ha
          · by_cases hay : a = y
            · subst hay
              rw [Equiv.swap_apply_right, hw, ← ha, hy']
            · rw [Equiv.swap_apply_of_ne_of_ne haw hay, ← hothers a haw hay]
              exact ha
      · rw [htiers tier hx]
        exact hold
  | drop x c hc hc' hothers htiers hindex hoffset =>
      rw [hindex, hoffset]
      by_cases hx : tier = x
      · subst hx
        refine hold.mono ?_
        intro w v hw
        by_cases hwc : w = .chunk c
        · subst hwc
          rw [hc'] at hw
          cases hw
        · rw [← hothers w hwc]
          exact hw
      · rw [htiers tier hx]
        exact hold

omit [DecidableEq ι] [DecidableEq κ] in
/-- Only a thread that evicts from memory has a range of the disk flow. -/
theorem Phase.evicts_of_claim {p : Phase κ β} {v : Value}
    (h : p.claim .disk = some v) : p.evicts = some .mem := by
  cases p <;> first | rfl | cases h

theorem Good.last_step (h : Good n) (ht : Trans n e n') {u : ι} {v : Value}
    (hv : (n'.threads u).claim .disk = some v) :
    (n'.flow .disk).index = v.indexInFlow + 1 ∧
      (n'.flow .disk).offset = v.reach := by
  have hclaim : n'.claim .disk (.thread u) = some v := hv
  cases h.rangeStep ht with
  | same hsame hindex hoffset =>
      rw [hsame] at hclaim
      rw [hindex, hoffset]
      exact h.last u v hclaim
  | push t x w hnone hself hothers htiers htook hflows hevicts =>
      cases x with
      | mem =>
          rw [htiers .disk nofun] at hclaim
          rw [hflows .disk nofun]
          exact h.last u v hclaim
      | disk =>
          by_cases hu : u = t
          · subst hu
            rw [hself] at hclaim
            obtain rfl := Option.some.inj hclaim
            exact ⟨by rw [htook.index, htook.value_index], htook.offset⟩
          · rw [hothers _ fun heq => hu (Holder.thread.inj heq)] at hclaim
            exact absurd (h.alone u t .mem (Phase.evicts_of_claim hclaim)
              (hevicts rfl)) hu
  | pass x w y v' hne hthread hw hw' hy hy' hothers htiers hindex hoffset =>
      rw [hindex, hoffset]
      refine h.last u v ?_
      by_cases hx : Tier.disk = x
      · subst hx
        by_cases huw : Holder.thread u = w
        · rw [huw, hw'] at hclaim
          cases hclaim
        · rw [hothers _ huw (hthread u).symm] at hclaim
          exact hclaim
      · rw [htiers .disk hx] at hclaim
        exact hclaim
  | drop x c hc hc' hothers htiers hindex hoffset =>
      rw [hindex, hoffset]
      refine h.last u v ?_
      by_cases hx : Tier.disk = x
      · subst hx
        rw [hothers (.thread u) nofun] at hclaim
        exact hclaim
      · rw [htiers .disk hx] at hclaim
        exact hclaim

/-- A flow never loses what it has preloaded. -/
theorem Trans.preLoad_le (ht : Trans n e n') (tier : Tier) :
    (n.flow tier).preLoadOffset ≤ (n'.flow tier).preLoadOffset := by
  -- one flow is another, and has not lost anything
  have hset : ∀ {m : Cache ι κ β} {x : Tier} {f : RCacheFlow β},
      (m.flow x).preLoadOffset ≤ f.preLoadOffset →
      (m.flow tier).preLoadOffset ≤
        ((m.setFlow x f).flow tier).preLoadOffset := by
    intro m x f hle
    by_cases hx : tier = x
    · subst hx
      rw [setFlow_self]
      exact hle
    · rw [setFlow_of_ne m f hx]
  cases ht with
  | quiet _ m hsame => exact (hsame.flow tier).preLoad_le
  | moves t _ q m hsame hq => exact (hsame.flow tier).preLoad_le
  | relocks t _ q m c k k' hsame hc hk hq => exact (hsame.flow tier).preLoad_le
  | reserved t _ f v hp hf => exact hset hf.preLoad_le
  | written t _ v data hp hlen => exact hset (x := .mem) le_rfl
  | returned t _ x m hsame hp => exact (hsame.flow tier).preLoad_le
  | allocated t _ needEvict haveEvict c k f v hp hk hlock hf hlen =>
      exact hset hf.preLoad_le
  | failed t _ needEvict haveEvict c k v m hsame hp hk he =>
      exact (hsame.flow tier).preLoad_le
  | copied t _ needEvict haveEvict c k v m hsame hp hk hmem =>
      exact (hsame.flow tier).preLoad_le.trans (hset (x := .disk) le_rfl)
  | moved t _ needEvict haveEvict c k v m hsame hp hk =>
      exact (hsame.flow tier).preLoad_le
  | arrived t _ needEvict haveEvict c k v hp hk =>
      exact hset (m := n.setTruncateQ .disk _) (x := .mem) le_rfl
  | gone t _ needEvict haveEvict c k m hsame hp hk =>
      exact (hsame.flow tier).preLoad_le.trans (hset (x := .disk) le_rfl)
  | truncated t _ x haveEvict f hp hf => exact hset hf.preLoadOffset.ge
  | _ => exact le_rfl

theorem Good.loaded_step (h : Good n) (ht : Trans n e n') (tier : Tier) :
    (n'.flow tier).offset ≤ (n'.flow tier).preLoadOffset := by
  have hmono := ht.preLoad_le tier
  cases h.rangeStep ht with
  | push t x v hnone hself hothers htiers htook hflows _ =>
      by_cases hx : tier = x
      · subst hx
        rw [htook.offset]
        exact htook.loaded
      · rw [hflows tier hx]
        exact h.loaded tier
  | same hclaim hindex hoffset =>
      rw [hoffset]
      exact (h.loaded tier).trans hmono
  | pass x w y v hne _ hw hw' hy hy' hothers htiers hindex hoffset =>
      rw [hoffset]
      exact (h.loaded tier).trans hmono
  | drop x c hc hc' hothers htiers hindex hoffset =>
      rw [hoffset]
      exact (h.loaded tier).trans hmono

theorem Good.fresh_step (h : Good n) (ht : Trans n e n') (c : Nat)
    (hc : n'.count ≤ c) : n'.chunks c = none := by
  cases h.chunkStep ht with
  | same hchunks hcount _ => exact hchunks ▸ h.fresh c (hcount ▸ hc)
  | update x k k' hk hchunks _ hcount _ =>
      have hold := h.fresh c (hcount ▸ hc)
      have hne : c ≠ x := by
        rintro rfl
        rw [hold] at hk
        cases hk
      rw [hchunks, Function.update_of_ne hne]
      exact hold
  | insert t v data key dataCrc _ _ hchunks hcount _ =>
      rw [hcount] at hc
      rw [hchunks, Function.update_of_ne (by omega)]
      exact h.fresh c (by omega)

theorem Good.indexed_step (h : Good n) (ht : Trans n e n') (key : κ) (c : Nat)
    (hc : n'.index key = some c) : ∃ k, n'.chunks c = some k ∧ k.key = key := by
  have hold : n.index key = some c →
      ∃ k, n'.chunks c = some k ∧ k.key = key := by
    intro hc
    obtain ⟨k, hk, hkey⟩ := h.indexed key c hc
    obtain ⟨k', hk', hkeeps⟩ := h.keeps ht hk
    exact ⟨k', hk', hkeeps.key.trans hkey⟩
  cases h.chunkStep ht with
  | same _ _ hindex => exact hold (hindex ▸ hc)
  | update x k k' hk _ _ _ hindex => exact hold (hindex key c hc)
  | insert t v data key' dataCrc _ _ hchunks _ hindex =>
      rw [hindex] at hc
      by_cases hkey : key = key'
      · subst hkey
        rw [Function.update_self] at hc
        obtain rfl := Option.some.inj hc
        exact ⟨_, by rw [hchunks, Function.update_self], rfl⟩
      · rw [Function.update_of_ne hkey] at hc
        exact hold hc

/-- What a step does to the evictions that run. -/
inductive EvictStep (n n' : Cache ι κ β) : Prop where
  | same (h : ∀ u, (n'.threads u).evicts = (n.threads u).evicts)
      (hflag : n'.evicting = n.evicting)
  | start (t : ι) (tier : Tier) (hfree : n.evicting tier = false)
      (hself : (n'.threads t).evicts = some tier)
      (h : ∀ u, u ≠ t → (n'.threads u).evicts = (n.threads u).evicts)
      (hflag : n'.evicting = Function.update n.evicting tier true)
  | stop (t : ι) (tier : Tier) (hself : (n.threads t).evicts = some tier)
      (hself' : (n'.threads t).evicts = none)
      (h : ∀ u, u ≠ t → (n'.threads u).evicts = (n.threads u).evicts)
      (hflag : n'.evicting = Function.update n.evicting tier false)

omit [DecidableEq κ] in
theorem evictStep_goto {m : Cache ι κ β} {t : ι} {q : Phase κ β}
    (hq : q.evicts = (n.threads t).evicts) (hthreads : m.threads = n.threads)
    (hflag : m.evicting = n.evicting) : EvictStep n (m.goto t q) := by
  refine .same ?_ hflag
  intro u
  by_cases hu : u = t
  · subst hu
    rw [goto_threads_self, hq]
  · rw [goto_threads_ne q hthreads hu]

omit [DecidableEq κ] in
theorem evictStep_return {m : Cache ι κ β} {t : ι}
    (hp : (n.threads t).evicts = some tier) (hthreads : m.threads = n.threads)
    (hflag : m.evicting = n.evicting) : EvictStep n (m.evictReturn t tier) := by
  refine .stop t tier hp ?_ ?_ ?_
  · exact congrArg Phase.evicts
      (goto_threads_self (m.setEvicting tier false) ..)
  · intro u hu
    exact congrArg Phase.evicts
      (goto_threads_ne (m := m.setEvicting tier false) _ hthreads hu)
  · rw [← hflag]
    rfl

omit [DecidableEq ι] [DecidableEq κ] in
theorem Moves.evicts {p q : Phase κ β} (h : Moves n p q) :
    q.evicts = p.evicts := by
  cases h <;> rfl

omit [DecidableEq ι] [DecidableEq κ] in
theorem Relocks.evicts {t : ι} {k k' : Chunk ι κ β} {p q : Phase κ β}
    (h : Relocks t k k' p q) : q.evicts = p.evicts := by
  cases h <;> rfl

theorem Trans.evictStep (ht : Trans n e n') : EvictStep n n' := by
  cases ht with
  | quiet _ m hsame =>
      exact .same (fun u => by rw [hsame.threads]) hsame.evicting
  | moves t _ q m hsame hq =>
      exact evictStep_goto hq.evicts hsame.threads hsame.evicting
  | relocks t _ q m c k k' hsame hc hk hq =>
      exact evictStep_goto (m := m.setChunk c k') hq.evicts hsame.threads
        hsame.evicting
  | lost t _ v hp =>
      refine evictStep_goto (m := n.lose .mem v) ?_ rfl rfl
      rcases hp with hp | ⟨data, hp⟩ <;> rw [hp] <;> rfl
  | started t _ tier needEvict hp hfree =>
      refine .start t tier hfree ?_ ?_ rfl
      · rw [goto_threads_self]
        rfl
      · intro u hu
        rw [goto_threads_ne (n := n) (m := n.setEvicting tier true) _ rfl hu]
  | returned t _ tier m hsame hp =>
      refine evictStep_return ?_ hsame.threads hsame.evicting
      rcases hp with ⟨need, got, hp⟩ | ⟨need, got, c, hp⟩ <;> rw [hp] <;> rfl
  | failed t _ needEvict haveEvict c k v m hsame hp hk he =>
      exact evictStep_return (m := (m.lose .disk v).setChunk c
        { k with lock := none }) (by rw [hp]; rfl) hsame.threads hsame.evicting
  | truncated t _ tier haveEvict f hp hf =>
      exact evictStep_return (m := n.setFlow tier f) (by rw [hp]; rfl) rfl rfl
  | copied t _ needEvict haveEvict c k v m hsame hp hk hmem =>
      exact evictStep_goto (m := m.setFlow .disk _) (by rw [hp]; rfl)
        hsame.threads hsame.evicting
  | moved t _ needEvict haveEvict c k v m hsame hp hk =>
      exact evictStep_goto (m := m.setChunk c _) (by rw [hp]; rfl)
        hsame.threads hsame.evicting
  | gone t _ needEvict haveEvict c k m hsame hp hk =>
      exact evictStep_goto (m := (m.setFlow .disk _).setChunk c _)
        (by rw [hp]; rfl) hsame.threads hsame.evicting
  | reserved t _ f v hp hf =>
      exact evictStep_goto (m := n.setFlow .mem f) (by rw [hp]; rfl) rfl rfl
  | written t _ v data hp hlen =>
      exact evictStep_goto (m := n.setFlow .mem _) (by rw [hp]; rfl) rfl rfl
  | inserted t key dataCrc v data hp =>
      exact evictStep_goto (m := { n.setChunk n.count _ with
        index := _, count := _ }) (by rw [hp]; rfl) rfl rfl
  | listed t _ c v k hp hk =>
      exact evictStep_goto (m := (n.setTruncateQ .mem _).setChunk c _)
        (by rw [hp]; rfl) rfl rfl
  | allocated t _ needEvict haveEvict c k f v hp hk hlock hf hlen =>
      exact evictStep_goto (m := (n.setFlow .disk f).setChunk c _)
        (by rw [hp]; rfl) rfl rfl
  | unqueued t _ needEvict haveEvict c v hp =>
      exact evictStep_goto (m := n.setTruncateQ .mem _) (by rw [hp]; rfl) rfl
        rfl
  | arrived t _ needEvict haveEvict c k v hp hk =>
      exact evictStep_goto (m := ((n.setTruncateQ .disk _).setFlow .mem
        _).setChunk c _) (by rw [hp]; rfl) rfl rfl
  | erased t _ needEvict haveEvict c k index hp hk hlock hindex =>
      exact evictStep_goto (m := Cache.setChunk { n with index := index } c _)
        (by rw [hp]; rfl) rfl rfl
  | dropped t _ needEvict haveEvict c hp =>
      exact evictStep_goto (m := n.setTruncateQ .disk _) (by rw [hp]; rfl) rfl
        rfl

theorem Good.busy_step (h : Good n) (ht : Trans n e n') (u : ι) (tier : Tier)
    (hu : (n'.threads u).evicts = some tier) : n'.evicting tier = true := by
  cases ht.evictStep with
  | same hsame hflag =>
      rw [hflag]
      exact h.busy u tier (hsame u ▸ hu)
  | start t x hfree hself hothers hflag =>
      rw [hflag]
      by_cases hx : tier = x
      · rw [hx, Function.update_self]
      · rw [Function.update_of_ne hx]
        by_cases hut : u = t
        · subst hut
          exact absurd (Option.some.inj (hu.symm.trans hself)) hx
        · exact h.busy u tier (hothers u hut ▸ hu)
  | stop t x hself hself' hothers hflag =>
      have hut : u ≠ t := by
        rintro rfl
        rw [hself'] at hu
        cases hu
      have hold := hothers u hut ▸ hu
      rw [hflag]
      by_cases hx : tier = x
      · subst hx
        exact absurd (h.alone u t tier hold hself) hut
      · rw [Function.update_of_ne hx]
        exact h.busy u tier hold

theorem Good.alone_step (h : Good n) (ht : Trans n e n') (u w : ι)
    (tier : Tier) (hu : (n'.threads u).evicts = some tier)
    (hw : (n'.threads w).evicts = some tier) : u = w := by
  cases ht.evictStep with
  | same hsame _ => exact h.alone u w tier (hsame u ▸ hu) (hsame w ▸ hw)
  | start t x hfree hself hothers _ =>
      -- nobody else evicts from a tier when its flag is free
      have hnew : ∀ y, (n'.threads y).evicts = some tier → tier = x →
          y = t := by
        rintro y hy rfl
        by_contra hne
        have hb := h.busy y tier (hothers y hne ▸ hy)
        rw [hfree] at hb
        cases hb
      have hold : tier ≠ x → ∀ y, (n'.threads y).evicts = some tier →
          y ≠ t := by
        rintro hx y hy rfl
        exact hx (Option.some.inj (hy.symm.trans hself))
      by_cases hx : tier = x
      · rw [hnew u hu hx, hnew w hw hx]
      · exact h.alone u w tier (hothers u (hold hx u hu) ▸ hu)
          (hothers w (hold hx w hw) ▸ hw)
  | stop t x hself hself' hothers _ =>
      have hne : ∀ y, (n'.threads y).evicts = some tier → y ≠ t := by
        rintro y hy rfl
        rw [hself'] at hy
        cases hy
      exact h.alone u w tier (hothers u (hne u hu) ▸ hu)
        (hothers w (hne w hw) ▸ hw)

/-- A chunk that is brought to a list stays with the thread, or has come. -/
theorem Good.carries_step (h : Good n) (ht : Trans n e n') {u : ι}
    (hu : (n.threads u).carries = some c) :
    (n'.threads u).carries = some c ∨
      ∃ k, n'.chunks c = some k ∧ c ∈ n'.truncateQ k.tier := by
  rcases ht.phase u with hsame | hstep
  · exact Or.inl (hsame ▸ hu)
  have hfit := h.fits u
  generalize hp : n.threads u = p at hstep hu hfit
  generalize n'.threads u = q at hstep
  cases hstep with
  | moves hq => cases hq <;> exact Or.inl hu
  | relocks hq => cases hq <;> exact Or.inl hu
  | moved needEvict haveEvict c v => exact Or.inl hu
  | listed c₀ v k hk hn =>
      obtain rfl := Option.some.inj hu
      obtain ⟨k', hk', -, -, htier, -⟩ := hfit
      obtain rfl := Option.some.inj (hk.symm.trans hk')
      subst hn
      refine Or.inr ⟨{ k with lock := none }, setChunk_self .., ?_⟩
      show c₀ ∈ Function.update n.truncateQ .mem _ k.tier
      rw [htier, Function.update_self, addToTruncateList_eq (Or.inl rfl),
        List.mem_orderedInsert]
      exact Or.inl rfl
  | arrived needEvict haveEvict got c₀ v k hk hn =>
      obtain rfl := Option.some.inj hu
      obtain ⟨k', hk', -, -, htier, -⟩ := hfit
      obtain rfl := Option.some.inj (hk.symm.trans hk')
      subst hn
      refine Or.inr ⟨{ k with lock := none }, setChunk_self .., ?_⟩
      show c₀ ∈ Function.update n.truncateQ .disk _ k.tier
      rw [htier, Function.update_self, h.add_arrived hp, List.mem_orderedInsert]
      exact Or.inl rfl
  | _ => cases hu

theorem Good.placed_step (h : Good n) (ht : Trans n e n') (c : Nat)
    (k' : Chunk ι κ β) (hk' : n'.chunks c = some k') :
    c ∈ n'.truncateQ k'.tier ∨ k'.state = true ∨
      ∃ t, (n'.threads t).carries = some c := by
  cases hk : n.chunks c with
  | none =>
      -- the chunk is new
      cases h.chunkStep ht with
      | same hchunks _ _ =>
          rw [hchunks, hk] at hk'
          cases hk'
      | update x kx kx' hkx hchunks _ _ _ =>
          have hne : c ≠ x := by
            rintro rfl
            rw [hk] at hkx
            cases hkx
          rw [hchunks, Function.update_of_ne hne, hk] at hk'
          cases hk'
      | insert t v data key dataCrc _ hp' hchunks _ _ =>
          refine Or.inr (Or.inr ⟨t, ?_⟩)
          rw [hp']
          by_contra hne
          have hc : c ≠ n.count := fun heq => hne (heq ▸ rfl)
          rw [hchunks, Function.update_of_ne hc, hk] at hk'
          cases hk'
  | some k =>
      obtain ⟨k₁, hk₁, hkeeps⟩ := h.keeps ht hk
      obtain rfl := Option.some.inj (hk'.symm.trans hk₁)
      rcases h.placed c k hk with hc | hstate | ⟨u, hu⟩
      · have hplace := hkeeps.place fun hun => hun k.tier hc
        rw [hplace.2]
        cases h.queueStep ht with
        | same hq => exact Or.inl (hq ▸ hc)
        | add x c₀ k₀ hun _ _ _ hq =>
            refine Or.inl ?_
            rw [hq]
            by_cases hx : k.tier = x
            · rw [hx, Function.update_self, List.mem_orderedInsert, ← hx]
              exact Or.inr hc
            · rw [Function.update_of_ne hx]
              exact hc
        | erase x c₀ hleft hq =>
            by_cases hcc : c = c₀
            · subst hcc
              refine Or.inr ?_
              rcases hleft with hcar | ⟨k₂, hk₂, hs⟩
              · exact Or.inr hcar
              · obtain rfl := Option.some.inj (hk'.symm.trans hk₂)
                exact Or.inl hs
            · refine Or.inl ?_
              rw [hq]
              by_cases hx : k.tier = x
              · rw [hx, Function.update_self, List.mem_erase_of_ne hcc, ← hx]
                exact hc
              · rw [Function.update_of_ne hx]
                exact hc
      · exact Or.inr (Or.inl (hkeeps.state hstate))
      · rcases h.carries_step ht hu with hcar | ⟨k₂, hk₂, hc⟩
        · exact Or.inr (Or.inr ⟨u, hcar⟩)
        · obtain rfl := Option.some.inj (hk'.symm.trans hk₂)
          exact Or.inl hc

/-- **EVERY STEP KEEPS THE INVARIANT**. -/
theorem Good.step (h : Good n) (ht : Trans n e n') : Good n' where
  fits := h.fits_step ht
  fresh := h.fresh_step ht
  indexed := h.indexed_step ht
  queued := h.queued_step ht
  nodup := h.nodup_step ht
  sorted := h.sorted_step ht
  placed := h.placed_step ht
  busy := h.busy_step ht
  alone := h.alone_step ht
  handed := h.handed_step ht
  last := fun _ _ hv => h.last_step ht hv
  loaded := h.loaded_step ht

end UbsIo.Rcache
