import UbsIo.Rcache.Model

/-! # What a step of the read cache can do

    `Trans` says once what the steps do to the chunks, the truncate lists and
    the flows; whatever a step does besides is in `Same`.  Every invariant is
    derived from it. -/

namespace UbsIo.Rcache

open UbsIo.Lib

variable {ι κ β : Type}

/-! ## Flows -/

namespace RCacheFlow

/-- A flow that may have been asked for more, and have preloaded more. -/
structure Grown (f g : RCacheFlow β) : Prop where
  index : g.index = f.index
  offset : g.offset = f.offset
  dataTruncOffset : g.dataTruncOffset = f.dataTruncOffset
  truncateOffset : g.truncateOffset = f.truncateOffset
  bytes : g.bytes = f.bytes
  preLoad_le : f.preLoadOffset ≤ g.preLoadOffset

theorem Grown.refl (f : RCacheFlow β) : f.Grown f :=
  ⟨rfl, rfl, rfl, rfl, rfl, le_rfl⟩

variable {f g : RCacheFlow β} {offset reach loaded : Nat} {ok : Bool}

theorem grown_getAddr (h : f.getAddrByOffset offset reach loaded = (g, ok)) :
    f.Grown g := by
  unfold getAddrByOffset at h
  split at h
  · rw [← (Prod.mk.inj h).1]
    exact Grown.refl f
  · dsimp only at h
    split at h
    · rw [← (Prod.mk.inj h).1]
      exact ⟨rfl, rfl, rfl, rfl, rfl, le_rfl⟩
    · rw [← (Prod.mk.inj h).1]
      exact ⟨rfl, rfl, rfl, rfl, rfl, Nat.le_max_left ..⟩

/-- The addresses of a range that has its places are found. -/
theorem getAddr_ok (hlow : f.truncateOffset ≤ offset)
    (hhigh : reach ≤ f.preLoadOffset) :
    (f.getAddrByOffset offset reach loaded).2 = true := by
  rw [getAddrByOffset, if_neg (Nat.not_lt.mpr hlow), if_pos hhigh]

/-- Addresses that are found are of places the flow has. -/
theorem of_getAddr (h : f.getAddrByOffset offset reach loaded = (g, true)) :
    f.truncateOffset ≤ offset ∧ reach ≤ g.preLoadOffset := by
  unfold getAddrByOffset at h
  split at h
  · cases h
  · rename_i hlow
    refine ⟨Nat.not_lt.mp hlow, ?_⟩
    dsimp only at h
    split at h
    · rename_i hhigh
      rw [← (Prod.mk.inj h).1]
      exact hhigh
    · obtain ⟨rfl, hok⟩ := Prod.mk.inj h
      exact of_decide_eq_true hok

/-- A flow that has handed out a range. -/
structure Took (f g : RCacheFlow β) (v : Value) : Prop where
  index : g.index = f.index + 1
  offset : g.offset = v.reach
  dataTruncOffset : g.dataTruncOffset = f.dataTruncOffset
  truncateOffset : g.truncateOffset = f.truncateOffset
  bytes : g.bytes = f.bytes
  preLoad_le : f.preLoadOffset ≤ g.preLoadOffset
  value_index : v.indexInFlow = f.index
  value_offset : v.flowOffset = f.offset
  loaded : v.reach ≤ g.preLoadOffset
  placed : f.truncateOffset ≤ v.flowOffset

theorem took_allocOffset {len : Nat} {hlen : 0 < len} {v : Value}
    (h : f.allocOffset len hlen loaded = (g, some v)) :
    f.Took g v ∧ v.length = len := by
  unfold allocOffset at h
  dsimp only at h
  split at h
  · rename_i g' heq
    obtain ⟨rfl, hv⟩ := Prod.mk.inj h
    obtain rfl := Option.some.inj hv
    have hg := grown_getAddr heq
    have hm := of_getAddr heq
    exact ⟨⟨hg.index, hg.offset, hg.dataTruncOffset, hg.truncateOffset,
      hg.bytes, hg.preLoad_le, rfl, rfl, hm.2, hm.1⟩, rfl⟩
  · cases h

/-- A range that the flow has no place for leaves nothing behind. -/
theorem grown_allocOffset {len : Nat} {hlen : 0 < len}
    (h : f.allocOffset len hlen loaded = (g, none)) : f.Grown g := by
  unfold allocOffset at h
  dsimp only at h
  split at h
  · cases h
  · rename_i g' heq
    obtain ⟨rfl, -⟩ := Prod.mk.inj h
    have hg := grown_getAddr heq
    refine ⟨?_, ?_, hg.dataTruncOffset, hg.truncateOffset, hg.bytes,
      hg.preLoad_le⟩
    · rw [hg.index]
      exact Nat.add_sub_cancel ..
    · rw [hg.offset]
      exact Nat.add_sub_cancel ..

/-- Truncation moves `truncateOffset` only, and not beyond the offset. -/
structure Truncated (f g : RCacheFlow β) (upTo : Nat) : Prop where
  index : g.index = f.index
  offset : g.offset = f.offset
  dataTruncOffset : g.dataTruncOffset = f.dataTruncOffset
  le : f.truncateOffset ≤ g.truncateOffset
  le_max : g.truncateOffset ≤ max f.truncateOffset upTo
  bytes : g.bytes = f.bytes
  preLoadOffset : g.preLoadOffset = f.preLoadOffset

theorem truncated_truncate (f : RCacheFlow β) (offset : Nat) :
    f.Truncated (f.truncate offset) offset := by
  unfold truncate
  split
  · exact ⟨rfl, rfl, rfl, le_rfl, Nat.le_max_left .., rfl, rfl⟩
  · exact ⟨rfl, rfl, rfl, Nat.le_max_left .., le_rfl, rfl, rfl⟩

end RCacheFlow

/-! ## Steps -/

/-- The two caches differ in what no invariant is about: the evict lists, the
    answers, and what a flow has been asked for. -/
structure Same (n m : Cache ι κ β) : Prop where
  chunks : m.chunks = n.chunks
  count : m.count = n.count
  index : m.index = n.index
  truncateQ : m.truncateQ = n.truncateQ
  evicting : m.evicting = n.evicting
  threads : m.threads = n.threads
  lost : m.lost = n.lost
  flow : ∀ tier, (n.flow tier).Grown (m.flow tier)

theorem Same.refl (n : Cache ι κ β) : Same n n :=
  ⟨rfl, rfl, rfl, rfl, rfl, rfl, rfl, fun _ => .refl _⟩

theorem setFlow_self (n : Cache ι κ β) (tier : Tier) (f : RCacheFlow β) :
    (n.setFlow tier f).flow tier = f :=
  Function.update_self ..

theorem setFlow_of_ne (n : Cache ι κ β) {tier x : Tier} (f : RCacheFlow β)
    (h : x ≠ tier) : (n.setFlow tier f).flow x = n.flow x :=
  Function.update_of_ne h ..

theorem Same.setFlow {n : Cache ι κ β} {tier : Tier} {f : RCacheFlow β}
    (h : (n.flow tier).Grown f) : Same n (n.setFlow tier f) := by
  refine ⟨rfl, rfl, rfl, rfl, rfl, rfl, rfl, ?_⟩
  intro x
  by_cases hx : x = tier
  · subst hx
    rw [setFlow_self]
    exact h
  · rw [setFlow_of_ne n f hx]
    exact .refl _

theorem Same.answer {n m : Cache ι κ β} (h : Same n m) (q : Query κ)
    (r : Result β) : Same n (m.answer q r) :=
  ⟨h.chunks, h.count, h.index, h.truncateQ, h.evicting, h.threads, h.lost,
    h.flow⟩

theorem Same.setEvictMq {n m : Cache ι κ β} (h : Same n m) (tier : Tier)
    (l : List Nat) : Same n (m.setEvictMq tier l) :=
  ⟨h.chunks, h.count, h.index, h.truncateQ, h.evicting, h.threads, h.lost,
    h.flow⟩

theorem Same.trans {n m l : Cache ι κ β} (h : Same n m) (h' : Same m l) :
    Same n l where
  chunks := h'.chunks.trans h.chunks
  count := h'.count.trans h.count
  index := h'.index.trans h.index
  truncateQ := h'.truncateQ.trans h.truncateQ
  evicting := h'.evicting.trans h.evicting
  threads := h'.threads.trans h.threads
  lost := h'.lost.trans h.lost
  flow := by
    intro tier
    have hf := h.flow tier
    have hf' := h'.flow tier
    exact ⟨hf'.index.trans hf.index, hf'.offset.trans hf.offset,
      hf'.dataTruncOffset.trans hf.dataTruncOffset,
      hf'.truncateOffset.trans hf.truncateOffset, hf'.bytes.trans hf.bytes,
      hf.preLoad_le.trans hf'.preLoad_le⟩

/-- A thread goes on, and has the same chunks and ranges as before. -/
inductive Moves (n : Cache ι κ β) : Phase κ β → Phase κ β → Prop where
  | indexed (c : Nat) (v : Value) : Moves n (.indexed c v) (.listed c v)
  | found (q : Query κ) (c : Nat) (h : n.index q.key = some c)
      (hseen : q.seen = n.count) :
      Moves n .idle (.found q c)
  | deleting (key : κ) (c : Nat) (h : n.index key = some c) :
      Moves n .idle (.deleting c)
  | missed (q : Query κ) (c : Nat) : Moves n (.found q c) .idle
  | unverified (q : Query κ) (c realLen : Nat) :
      Moves n (.addressed q c realLen) .idle
  | verified (q : Query κ) (c realLen : Nat) :
      Moves n (.addressed q c realLen) (.verified q c realLen)
  | served (q : Query κ) (c realLen : Nat) (k : Chunk ι κ β)
      (hk : n.chunks c = some k) :
      Moves n (.verified q c realLen) (.served c k.tier)
  | stopped (tier : Tier) (needEvict haveEvict : Nat) (hgot : haveEvict ≠ 0) :
      Moves n (.evict tier needEvict haveEvict) (.truncate tier haveEvict)
  | victim (tier : Tier) (needEvict haveEvict c : Nat) (k : Chunk ι κ β)
      (hc : (n.truncateQ tier).getLast? = some c) (hk : n.chunks c = some k)
      (hoffset : k.value.flowOffset = (n.flow tier).dataTruncOffset)
      (hneed : k.value.length + haveEvict ≤ needEvict) :
      Moves n (.evict tier needEvict haveEvict)
        (.victim tier needEvict haveEvict c)
  | unlisted (needEvict haveEvict c : Nat) (v : Value) :
      Moves n (.unqueued needEvict haveEvict c v)
        (.unlisted needEvict haveEvict c v)

/-- A thread locks a chunk, lets it go, or marks it. -/
inductive Relocks (t : ι) : Chunk ι κ β → Chunk ι κ β → Phase κ β →
    Phase κ β → Prop where
  | addressed (k : Chunk ι κ β) (q : Query κ) (c : Nat) (hlock : k.lock = none)
      (hstate : k.state = false) (hoffset : q.offset < k.value.length) :
      Relocks t k { k with lock := some t } (.found q c)
        (.addressed q c (min (k.value.length - q.offset) q.len))
  | served (k : Chunk ι κ β) (c : Nat) (tier : Tier) :
      Relocks t k { k with lock := none } (.served c tier) .idle
  | unwritten (k : Chunk ι κ β) (q : Query κ) (c realLen : Nat) :
      Relocks t k { k with lock := none } (.verified q c realLen) .idle
  | deleted (k : Chunk ι κ β) (c : Nat) (hlock : k.lock = none) :
      Relocks t k { k with state := true } (.deleting c) .idle

/-- The chunk that a thread is at, in these phases. -/
def Phase.at_ : Phase κ β → Option Nat
  | .found _ c => some c
  | .served c _ => some c
  | .verified _ c _ => some c
  | .deleting c => some c
  | _ => none

variable [DecidableEq ι] [DecidableEq κ]

inductive Trans (n : Cache ι κ β) : Event ι κ β → Cache ι κ β → Prop where
  | quiet (e : Event ι κ β) (m : Cache ι κ β) (h : Same n m) : Trans n e m
  | moves (t : ι) (e : Event ι κ β) (q : Phase κ β) (m : Cache ι κ β)
      (h : Same n m) (hq : Moves n (n.threads t) q) : Trans n e (m.goto t q)
  | relocks (t : ι) (e : Event ι κ β) (q : Phase κ β) (m : Cache ι κ β)
      (c : Nat) (k k' : Chunk ι κ β) (h : Same n m)
      (hc : (n.threads t).at_ = some c) (hk : n.chunks c = some k)
      (hq : Relocks t k k' (n.threads t) q) :
      Trans n e ((m.setChunk c k').goto t q)
  | reserved (t : ι) (e : Event ι κ β) (f : RCacheFlow β) (v : Value)
      (hp : n.threads t = .idle) (hf : (n.flow .mem).Took f v) :
      Trans n e ((n.setFlow .mem f).goto t (.reserved v))
  | lost (t : ι) (e : Event ι κ β) (v : Value)
      (hp : n.threads t = .reserved v ∨ ∃ data, n.threads t = .written v data) :
      Trans n e ((n.lose .mem v).goto t .idle)
  | written (t : ι) (e : Event ι κ β) (v : Value) (data : List β)
      (hp : n.threads t = .reserved v) (hlen : data.length = v.length) :
      Trans n e ((n.setFlow .mem
        ((n.flow .mem).write v.flowOffset data)).goto t (.written v data))
  | inserted (t : ι) (key : κ) (dataCrc : Nat) (v : Value) (data : List β)
      (hp : n.threads t = .written v data) :
      Trans n (.insert t key dataCrc) (Cache.goto
        { n.setChunk n.count ⟨key, v, .mem, dataCrc, false, some t, data⟩ with
          index := Function.update n.index key (some n.count)
          count := n.count + 1 } t (.indexed n.count v))
  | listed (t : ι) (e : Event ι κ β) (c : Nat) (v : Value) (k : Chunk ι κ β)
      (hp : n.threads t = .listed c v) (hk : n.chunks c = some k) :
      Trans n e (((n.setTruncateQ .mem (n.addToTruncateList .mem c)).setChunk c
        { k with lock := none }).goto t .idle)
  | started (t : ι) (e : Event ι κ β) (tier : Tier) (needEvict : Nat)
      (hp : n.threads t = .idle) (hfree : n.evicting tier = false) :
      Trans n e ((n.setEvicting tier true).goto t (.evict tier needEvict 0))
  | returned (t : ι) (e : Event ι κ β) (tier : Tier) (m : Cache ι κ β)
      (h : Same n m)
      (hp : (∃ need got, n.threads t = .evict tier need got) ∨
        ∃ need got c, n.threads t = .victim tier need got c) :
      Trans n e (m.evictReturn t tier)
  | allocated (t : ι) (e : Event ι κ β) (needEvict haveEvict c : Nat)
      (k : Chunk ι κ β) (f : RCacheFlow β) (v : Value)
      (hp : n.threads t = .victim .mem needEvict haveEvict c)
      (hk : n.chunks c = some k) (hlock : k.lock = none)
      (hf : (n.flow .disk).Took f v) (hlen : v.length = k.value.length) :
      Trans n e (((n.setFlow .disk f).setChunk c
        { k with lock := some t }).goto t (.allocated needEvict haveEvict c v))
  | failed (t : ι) (e : Event ι κ β) (needEvict haveEvict c : Nat)
      (k : Chunk ι κ β) (v : Value) (m : Cache ι κ β) (h : Same n m)
      (hp : n.threads t = .allocated needEvict haveEvict c v)
      (hk : n.chunks c = some k)
      (he : e = .fail t ∨ ∃ loaded stale, e = .go t loaded stale ∧
        (((n.flow .mem).getAddrByOffset k.value.flowOffset k.value.reach
            loaded).2 = false ∨
          ((n.flow .disk).getAddrByOffset v.flowOffset v.reach loaded).2 =
            false)) :
      Trans n e (((m.lose .disk v).setChunk c
        { k with lock := none }).evictReturn t .mem)
  | copied (t : ι) (e : Event ι κ β) (needEvict haveEvict c : Nat)
      (k : Chunk ι κ β) (v : Value) (m : Cache ι κ β) (h : Same n m)
      (hp : n.threads t = .allocated needEvict haveEvict c v)
      (hk : n.chunks c = some k)
      (hmem : (n.flow .mem).truncateOffset ≤ k.value.flowOffset) :
      Trans n e ((m.setFlow .disk ((m.flow .disk).write v.flowOffset
        ((n.flow .mem).read k.value.flowOffset k.value.length))).goto t
          (.copied needEvict haveEvict c v))
  | unqueued (t : ι) (e : Event ι κ β) (needEvict haveEvict c : Nat)
      (v : Value) (hp : n.threads t = .copied needEvict haveEvict c v) :
      Trans n e ((n.setTruncateQ .mem ((n.truncateQ .mem).erase c)).goto t
        (.unqueued needEvict haveEvict c v))
  | moved (t : ι) (e : Event ι κ β) (needEvict haveEvict c : Nat)
      (k : Chunk ι κ β) (v : Value) (m : Cache ι κ β) (h : Same n m)
      (hp : n.threads t = .unlisted needEvict haveEvict c v)
      (hk : n.chunks c = some k) :
      Trans n e ((m.setChunk c { k with value := v, tier := .disk }).goto t
        (.moved needEvict haveEvict c v))
  | arrived (t : ι) (e : Event ι κ β) (needEvict haveEvict c : Nat)
      (k : Chunk ι κ β) (v : Value)
      (hp : n.threads t = .moved needEvict haveEvict c v)
      (hk : n.chunks c = some k) :
      Trans n e ((((n.setTruncateQ .disk
        (n.addToTruncateList .disk c)).setFlow .mem
          ((n.flow .mem).updateDataTruncOffset k.value)).setChunk c
            { k with lock := none }).goto t
              (.evict .mem needEvict (haveEvict + v.length)))
  | erased (t : ι) (e : Event ι κ β) (needEvict haveEvict c : Nat)
      (k : Chunk ι κ β) (index : κ → Option Nat)
      (hp : n.threads t = .victim .disk needEvict haveEvict c)
      (hk : n.chunks c = some k) (hlock : k.lock = none)
      (hindex : index = n.deleteFromIndex k) :
      Trans n e (Cache.goto (Cache.setChunk { n with index := index } c
        { k with state := true, lock := some t }) t
          (.erased needEvict haveEvict c))
  | dropped (t : ι) (e : Event ι κ β) (needEvict haveEvict c : Nat)
      (hp : n.threads t = .erased needEvict haveEvict c) :
      Trans n e ((n.setTruncateQ .disk ((n.truncateQ .disk).erase c)).goto t
        (.dropped needEvict haveEvict c))
  | gone (t : ι) (e : Event ι κ β) (needEvict haveEvict c : Nat)
      (k : Chunk ι κ β) (m : Cache ι κ β) (h : Same n m)
      (hp : n.threads t = .dropped needEvict haveEvict c)
      (hk : n.chunks c = some k) :
      Trans n e (((m.setFlow .disk
        ((m.flow .disk).updateDataTruncOffset k.value)).setChunk c
          { k with lock := none }).goto t
            (.evict .disk needEvict (haveEvict + k.value.length)))
  | truncated (t : ι) (e : Event ι κ β) (tier : Tier) (haveEvict : Nat)
      (f : RCacheFlow β) (hp : n.threads t = .truncate tier haveEvict)
      (hf : (n.flow tier).Truncated f (n.flow tier).dataTruncOffset) :
      Trans n e ((n.setFlow tier f).evictReturn t tier)

variable {crc : Option (List β → Nat)} {n n' : Cache ι κ β} {e : Event ι κ β}

theorem trans_found {t : ι} {loaded : Nat} {stale : List β} {q : Query κ}
    {c : Nat} (hp : n.threads t = .found q c)
    (hs : resume crc n t loaded stale (.found q c) = some n') :
    Trans n (.go t loaded stale) n' := by
  obtain ⟨k, hk, hs⟩ := Option.bind_eq_some_iff.mp hs
  have hmiss : Moves n (n.threads t) .idle := hp ▸ .missed q c
  split at hs
  · cases hs
  rename_i hlock
  split at hs
  · cases hs
    exact .moves t _ _ _ ((Same.refl n).answer ..) hmiss
  rename_i hstate
  split at hs
  · cases hs
    exact .moves t _ _ _ ((Same.refl n).answer ..) hmiss
  rename_i hoffset
  dsimp only at hs
  split at hs
  · rename_i f heq
    cases hs
    refine .relocks t _ _ _ c k _
      (Same.setFlow (RCacheFlow.grown_getAddr heq)) (by rw [hp]; rfl) hk ?_
    rw [hp]
    exact .addressed k q c (not_not.mp hlock)
      (Bool.eq_false_iff.mpr hstate) (Nat.not_le.mp hoffset)
  · rename_i f heq
    cases hs
    exact .moves t _ _ _
      ((Same.setFlow (RCacheFlow.grown_getAddr heq)).answer ..) hmiss

theorem trans_addressed {t : ι} {loaded : Nat} {stale : List β} {q : Query κ}
    {c realLen : Nat} (hp : n.threads t = .addressed q c realLen)
    (hs : resume crc n t loaded stale (.addressed q c realLen) = some n') :
    Trans n (.go t loaded stale) n' := by
  have hbad : Moves n (n.threads t) .idle := hp ▸ .unverified q c realLen
  have hgood : Moves n (n.threads t) (.verified q c realLen) :=
    hp ▸ .verified q c realLen
  obtain ⟨k, hk, hs⟩ := Option.bind_eq_some_iff.mp hs
  split at hs
  · cases hs
    exact .moves t _ _ _ (.refl n) hgood
  split at hs
  · rename_i f heq
    cases hs
    exact .moves t _ _ _
      ((Same.setFlow (RCacheFlow.grown_getAddr heq)).answer ..) hbad
  · rename_i f heq
    have hsame := Same.setFlow (RCacheFlow.grown_getAddr heq)
    split at hs
    · cases hs
      exact .moves t _ _ _ hsame hgood
    · cases hs
      exact .moves t _ _ _ (hsame.answer ..) hbad

theorem trans_evict {t : ι} {loaded : Nat} {stale : List β} {tier : Tier}
    {needEvict haveEvict : Nat}
    (hp : n.threads t = .evict tier needEvict haveEvict)
    (hs : resume crc n t loaded stale (.evict tier needEvict haveEvict) =
      some n') :
    Trans n (.go t loaded stale) n' := by
  have hreturn : Trans n (.go t loaded stale) (n.evictReturn t tier) :=
    .returned t _ tier _ (.refl n) (Or.inl ⟨_, _, hp⟩)
  have hbreak :
      Trans n (.go t loaded stale) (n.evictBreak t tier haveEvict) := by
    unfold Cache.evictBreak
    split
    · exact hreturn
    · rename_i hgot
      exact .moves t _ _ _ (.refl n)
        (hp ▸ .stopped tier needEvict haveEvict hgot)
  rw [resume] at hs
  split at hs
  · cases hs
    exact hbreak
  split at hs
  · cases hs
    exact hreturn
  split at hs
  · cases hs
    exact hbreak
  rename_i c hc
  obtain ⟨k, hk, hs⟩ := Option.bind_eq_some_iff.mp hs
  split at hs
  · cases hs
    exact hbreak
  · rename_i hfit
    cases hs
    refine .moves t _ _ _ (.refl n) ?_
    rw [hp]
    rw [not_or, not_not, Nat.not_lt] at hfit
    exact .victim tier needEvict haveEvict c k hc hk hfit.1 hfit.2

theorem trans_victim {t : ι} {loaded : Nat} {stale : List β} {tier : Tier}
    {needEvict haveEvict c : Nat}
    (hp : n.threads t = .victim tier needEvict haveEvict c)
    (hs : resume crc n t loaded stale (.victim tier needEvict haveEvict c) =
      some n') :
    Trans n (.go t loaded stale) n' := by
  cases tier with
  | mem =>
      obtain ⟨k, hk, hs⟩ := Option.bind_eq_some_iff.mp hs
      split at hs
      · cases hs
      rename_i hlock
      split at hs
      · rename_i f heq
        cases hs
        exact .returned t _ .mem _
          (Same.setFlow (RCacheFlow.grown_allocOffset heq))
          (Or.inr ⟨_, _, _, hp⟩)
      · rename_i f v heq
        cases hs
        have hf := RCacheFlow.took_allocOffset heq
        exact .allocated t _ _ _ c k f v hp hk (not_not.mp hlock) hf.1 hf.2
  | disk =>
      obtain ⟨k, hk, hs⟩ := Option.bind_eq_some_iff.mp hs
      split at hs
      · cases hs
      rename_i hlock
      cases hs
      exact .erased t _ _ _ c k _ hp hk (not_not.mp hlock) rfl

theorem trans_allocated {t : ι} {loaded : Nat} {stale : List β}
    {needEvict haveEvict c : Nat} {v : Value}
    (hp : n.threads t = .allocated needEvict haveEvict c v)
    (hs : resume crc n t loaded stale (.allocated needEvict haveEvict c v) =
      some n') :
    Trans n (.go t loaded stale) n' := by
  obtain ⟨k, hk, hs⟩ := Option.bind_eq_some_iff.mp hs
  dsimp only at hs
  split at hs
  · rename_i f heq
    cases hs
    refine .failed t _ _ _ c k v (n.setFlow .mem f)
      (Same.setFlow (RCacheFlow.grown_getAddr heq)) hp hk
      (Or.inr ⟨loaded, stale, rfl, Or.inl ?_⟩)
    rw [heq]
  rename_i f hmem
  have hf := Same.setFlow (RCacheFlow.grown_getAddr hmem)
  split at hs
  · rename_i g heq
    cases hs
    have hg : ((n.setFlow .mem f).flow .disk).Grown g :=
      RCacheFlow.grown_getAddr heq
    refine .failed t _ _ _ c k v ((n.setFlow .mem f).setFlow .disk g)
      (hf.trans (Same.setFlow hg)) hp hk
      (Or.inr ⟨loaded, stale, rfl, Or.inr ?_⟩)
    rw [heq]
  · rename_i g heq
    cases hs
    have hg : ((n.setFlow .mem f).flow .disk).Grown g :=
      RCacheFlow.grown_getAddr heq
    have hread : f.read k.value.flowOffset k.value.length =
        (n.flow .mem).read k.value.flowOffset k.value.length := by
      unfold RCacheFlow.read
      rw [(RCacheFlow.grown_getAddr hmem).bytes]
    have htrans := Trans.copied (n := n) t (.go t loaded stale) needEvict
      haveEvict c k v ((n.setFlow .mem f).setFlow .disk g)
      (hf.trans (Same.setFlow hg)) hp hk (RCacheFlow.of_getAddr hmem).1
    rw [hread]
    -- the disk flow is written in one go
    have hset : (((n.setFlow .mem f).setFlow .disk g).setFlow .disk
        ((((n.setFlow .mem f).setFlow .disk g).flow .disk).write v.flowOffset
          ((n.flow .mem).read k.value.flowOffset k.value.length))) =
        (n.setFlow .mem f).setFlow .disk (g.write v.flowOffset
          ((n.flow .mem).read k.value.flowOffset k.value.length)) := by
      simp only [Cache.setFlow, Function.update_self, Function.update_idem]
    rw [hset] at htrans
    exact htrans

theorem trans_resume {t : ι} {loaded : Nat} {stale : List β}
    (hs : resume crc n t loaded stale (n.threads t) = some n') :
    Trans n (.go t loaded stale) n' := by
  cases hp : n.threads t with
  | idle => rw [hp] at hs; cases hs
  | reserved v => rw [hp] at hs; cases hs
  | written v data => rw [hp] at hs; cases hs
  | indexed c v =>
      rw [hp] at hs
      cases hs
      exact .moves t _ _ _ ((Same.refl n).setEvictMq ..)
        (hp ▸ .indexed c v)
  | listed c v =>
      rw [hp] at hs
      obtain ⟨k, hk, hs⟩ := Option.bind_eq_some_iff.mp hs
      cases hs
      exact .listed t _ c v k hp hk
  | found q c => exact trans_found hp (hp ▸ hs)
  | addressed q c realLen => exact trans_addressed hp (hp ▸ hs)
  | verified q c realLen =>
      rw [hp] at hs
      obtain ⟨k, hk, hs⟩ := Option.bind_eq_some_iff.mp hs
      cases hs
      exact .moves t _ _ _ ((Same.refl n).answer ..)
        (hp ▸ .served q c realLen k hk)
  | served c tier =>
      rw [hp] at hs
      obtain ⟨k, hk, hs⟩ := Option.bind_eq_some_iff.mp hs
      cases hs
      exact .relocks t _ _ _ c k _ ((Same.refl n).setEvictMq ..)
        (by rw [hp]; rfl) hk (hp ▸ .served k c tier)
  | deleting c =>
      rw [hp] at hs
      obtain ⟨k, hk, hs⟩ := Option.bind_eq_some_iff.mp hs
      split at hs
      · cases hs
      rename_i hlock
      cases hs
      exact .relocks t _ _ _ c k _ (.refl n) (by rw [hp]; rfl) hk
        (hp ▸ .deleted k c (not_not.mp hlock))
  | evict tier needEvict haveEvict => exact trans_evict hp (hp ▸ hs)
  | victim tier needEvict haveEvict c => exact trans_victim hp (hp ▸ hs)
  | allocated needEvict haveEvict c v => exact trans_allocated hp (hp ▸ hs)
  | copied needEvict haveEvict c v =>
      rw [hp] at hs
      cases hs
      exact .unqueued t _ _ _ c v hp
  | unqueued needEvict haveEvict c v =>
      rw [hp] at hs
      cases hs
      exact .moves t _ _ _ ((Same.refl n).setEvictMq ..)
        (hp ▸ .unlisted needEvict haveEvict c v)
  | unlisted needEvict haveEvict c v =>
      rw [hp] at hs
      obtain ⟨k, hk, hs⟩ := Option.bind_eq_some_iff.mp hs
      cases hs
      exact .moved t _ _ _ c k v _ ((Same.refl n).setEvictMq .disk
        (n.evictMq .disk ++ [c])) hp hk
  | moved needEvict haveEvict c v =>
      rw [hp] at hs
      obtain ⟨k, hk, hs⟩ := Option.bind_eq_some_iff.mp hs
      cases hs
      exact .arrived t _ _ _ c k v hp hk
  | erased needEvict haveEvict c =>
      rw [hp] at hs
      cases hs
      exact .dropped t _ _ _ c hp
  | dropped needEvict haveEvict c =>
      rw [hp] at hs
      obtain ⟨k, hk, hs⟩ := Option.bind_eq_some_iff.mp hs
      cases hs
      exact .gone t _ _ _ c k _ ((Same.refl n).setEvictMq .disk
        ((n.evictMq .disk).erase c)) hp hk
  | truncate tier haveEvict =>
      rw [hp] at hs
      cases hs
      exact .truncated t _ tier haveEvict _ hp
        (RCacheFlow.truncated_truncate ..)

theorem trans_interrupt {t : ι}
    (hs : interrupt crc n t (n.threads t) = some n') :
    Trans n (.fail t) n' := by
  cases hp : n.threads t with
  | reserved v =>
      rw [hp] at hs
      cases hs
      exact .lost t _ v (Or.inl hp)
  | written v data =>
      rw [hp] at hs
      cases hs
      exact .lost t _ v (Or.inr ⟨data, hp⟩)
  | addressed q c realLen =>
      rw [hp, interrupt] at hs
      split at hs
      · cases hs
        exact .moves t _ _ _ ((Same.refl n).answer ..)
          (hp ▸ .unverified q c realLen)
      · cases hs
  | verified q c realLen =>
      rw [hp] at hs
      obtain ⟨k, hk, hs⟩ := Option.bind_eq_some_iff.mp hs
      cases hs
      exact .relocks t _ _ _ c k _ ((Same.refl n).answer ..)
        (by rw [hp]; rfl) hk (hp ▸ .unwritten k q c realLen)
  | allocated needEvict haveEvict c v =>
      rw [hp] at hs
      obtain ⟨k, hk, hs⟩ := Option.bind_eq_some_iff.mp hs
      cases hs
      exact .failed t _ _ _ c k v _ (.refl n) hp hk (Or.inl rfl)
  | _ => rw [hp] at hs; cases hs

/-- **WHAT A STEP DOES**: one of these. -/
theorem step_trans (hs : step crc n e = some n') : Trans n e n' := by
  cases e with
  | reserve t len loaded =>
      simp only [step] at hs
      split at hs
      · rename_i hp
        split at hs
        · split at hs
          · rename_i f heq
            cases hs
            exact .quiet _ _ (Same.setFlow (RCacheFlow.grown_allocOffset heq))
          · rename_i f v heq
            cases hs
            exact .reserved t _ f v hp (RCacheFlow.took_allocOffset heq).1
        · cases hs
      · cases hs
  | write t data =>
      simp only [step] at hs
      split at hs
      · rename_i v hp
        split at hs
        · rename_i hlen
          cases hs
          exact .written t _ v data hp hlen
        · cases hs
      · cases hs
  | insert t key dataCrc =>
      simp only [step] at hs
      split at hs
      · rename_i v data hp
        cases hs
        exact .inserted t key dataCrc v data hp
      · cases hs
  | get t key offset len =>
      simp only [step] at hs
      split at hs
      · rename_i hp
        split at hs
        · cases hs
          exact .quiet _ _ ((Same.refl n).answer ..)
        · rename_i c hc
          cases hs
          exact .moves t _ _ _ (.refl n) (hp ▸ .found _ c hc rfl)
      · cases hs
  | delete t key =>
      simp only [step] at hs
      split at hs
      · rename_i hp
        split at hs
        · cases hs
          exact .quiet _ _ (.refl n)
        · rename_i c hc
          cases hs
          exact .moves t _ _ _ (.refl n) (hp ▸ .deleting key c hc)
      · cases hs
  | evict t tier needEvict =>
      simp only [step] at hs
      split at hs
      · rename_i hp
        split at hs
        · cases hs
          exact .quiet _ _ (.refl n)
        · rename_i hfree
          cases hs
          rw [not_or, Bool.not_eq_true (n.evicting tier)] at hfree
          exact .started t _ tier needEvict hp hfree.2
      · cases hs
  | go t loaded stale => exact trans_resume hs
  | fail t => exact trans_interrupt hs
  | preLoad tier offset =>
      cases hs
      refine .quiet _ _ (Same.setFlow ?_)
      exact ⟨rfl, rfl, rfl, rfl, rfl, Nat.le_max_left ..⟩
  | setDelete =>
      cases hs
      exact .quiet _ _ ⟨rfl, rfl, rfl, rfl, rfl, rfl, rfl, fun _ => .refl _⟩

end UbsIo.Rcache
