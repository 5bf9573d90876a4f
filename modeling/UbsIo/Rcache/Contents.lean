import UbsIo.Rcache.Advance

/-! # What the ranges of the read cache are filled with

    Whoever holds a range that has been filled finds there what was put, at
    every place that the flow still has.  The copy that goes to disk is
    complete. -/

namespace UbsIo.Rcache

open UbsIo.Lib

variable {ι κ β : Type} {n n' : Cache ι κ β} {tier : Tier} {c : Nat}

/-! ## Bytes -/

/-- The range has the bytes, where the flow has not been truncated. -/
structure Kept (f : RCacheFlow β) (v : Value) (data : List β) : Prop where
  length : data.length = v.length
  bytes : ∀ i x, data[i]? = some x → f.truncateOffset ≤ v.flowOffset + i →
    f.bytes (v.flowOffset + i) = x

namespace RCacheFlow

variable {f g : RCacheFlow β} {v : Value} {data : List β}

theorem write_bytes (f : RCacheFlow β) (v : Value) (data : List β) {i : Nat}
    {x : β} (hx : data[i]? = some x)
    (hp : f.truncateOffset ≤ v.flowOffset + i) :
    (f.write v.flowOffset data).bytes (v.flowOffset + i) = x := by
  dsimp only [write, Write.gives]
  rw [if_neg (Nat.not_lt.mpr hp),
    if_neg (Nat.not_lt.mpr (Nat.le_add_right ..)), Nat.add_sub_cancel_left, hx]
  rfl

/-- The bytes beside the range stay. -/
theorem write_beside {p : Nat} (hlen : data.length = v.length)
    (hp : p < v.flowOffset ∨ v.reach ≤ p) :
    (f.write v.flowOffset data).bytes p = f.bytes p := by
  dsimp only [write, Write.gives]
  split
  · rfl
  · by_cases hlow : p < v.flowOffset
    · rw [if_pos hlow]
      rfl
    · rw [if_neg hlow, List.getElem?_eq_none]
      · rfl
      · unfold Value.reach at hp
        omega

theorem kept_write (f : RCacheFlow β) (hlen : data.length = v.length) :
    Kept (f.write v.flowOffset data) v data :=
  ⟨hlen, fun _ _ hx hp => write_bytes f v data hx hp⟩

/-- A part of what a range is filled with. -/
theorem read_kept (h : Kept f v data) {offset len : Nat}
    (hplace : f.truncateOffset ≤ v.flowOffset + offset)
    (hlen : offset + len ≤ v.length) :
    f.read (v.flowOffset + offset) len = (data.drop offset).take len := by
  apply List.ext_getElem?
  intro i
  rw [read, List.getElem?_map, List.getElem?_take, List.getElem?_drop]
  by_cases hi : i < len
  · rw [List.getElem?_range hi, if_pos hi]
    have hin : offset + i < data.length := by
      rw [h.length]
      omega
    rw [List.getElem?_eq_getElem hin, Option.map_some]
    refine congrArg some ?_
    rw [Nat.add_assoc]
    exact h.bytes (offset + i) _ (List.getElem?_eq_getElem hin) (by omega)
  · rw [if_neg hi, List.getElem?_eq_none, Option.map_none]
    rw [List.length_range]
    omega

/-- All that a range is filled with. -/
theorem read_all (h : Kept f v data)
    (hplace : f.truncateOffset ≤ v.flowOffset) :
    f.read v.flowOffset v.length = data := by
  have hread := @read_kept _ f v data h 0 v.length hplace (Nat.zero_add _).le
  rw [Nat.add_zero, List.drop_zero, ← h.length, List.take_length] at hread
  rw [← h.length]
  exact hread

end RCacheFlow

/-! ## The invariant -/

/-- What the range of a thread in a flow is filled with, once it is. -/
def Cache.fillThread (n : Cache ι κ β) : Phase κ β → Tier → Option (List β)
  | .written _ data, .mem => some data
  | .indexed c _, .mem => (n.chunks c).map (·.data)
  | .listed c _, .mem => (n.chunks c).map (·.data)
  | .copied _ _ c _, .disk => (n.chunks c).map (·.data)
  | .unqueued _ _ c _, .disk => (n.chunks c).map (·.data)
  | .unlisted _ _ c _, .disk => (n.chunks c).map (·.data)
  | .moved _ _ c _, .disk => (n.chunks c).map (·.data)
  | _, _ => none

/-- What the range of a holder is filled with. -/
def Cache.fill (n : Cache ι κ β) (tier : Tier) : Holder ι → Option (List β)
  | .thread t => n.fillThread (n.threads t) tier
  | .chunk c => if c ∈ n.truncateQ tier then (n.chunks c).map (·.data) else none
  | .lost _ => none

def Filled (n : Cache ι κ β) : Prop :=
  ∀ tier w v data, n.claim tier w = some v → n.fill tier w = some data →
    Kept (n.flow tier) v data

variable [DecidableEq ι] [DecidableEq κ] {e : Event ι κ β}

/-- What a step does to the bytes. -/
inductive BytesStep (n n' : Cache ι κ β) : Prop where
  | same (hbytes : ∀ tier, (n'.flow tier).bytes = (n.flow tier).bytes)
  | write (t : ι) (tier : Tier) (v : Value) (data : List β)
      (hclaim : n.claim tier (.thread t) = some v)
      (hfill : n.fill tier (.thread t) = none)
      (hlen : data.length = v.length)
      (hself : (n'.flow tier).bytes =
        ((n.flow tier).write v.flowOffset data).bytes)
      (hothers : ∀ x, x ≠ tier → (n'.flow x).bytes = (n.flow x).bytes)

theorem Good.bytesStep (h : Good n) (ht : Trans n e n') : BytesStep n n' := by
  cases ht with
  | quiet _ m hsame => exact .same fun tier => (hsame.flow tier).bytes
  | moves t _ q m hsame hq => exact .same fun tier => (hsame.flow tier).bytes
  | relocks t _ q m c k k' hsame hc hk hq =>
      exact .same fun tier => (hsame.flow tier).bytes
  | reserved t _ f v hp hf =>
      exact .same (setFlow_congr (·.bytes) hf.bytes)
  | written t _ v data hp hlen =>
      refine .write t .mem v data ?_ ?_ hlen ?_ ?_
      · exact (congrArg (Phase.claim · Tier.mem) hp).trans rfl
      · exact (congrArg (n.fillThread · Tier.mem) hp).trans rfl
      · exact congrArg RCacheFlow.bytes (setFlow_self n .mem
          ((n.flow .mem).write v.flowOffset data))
      · intro x hx
        show ((n.setFlow .mem _).flow x).bytes = _
        rw [setFlow_of_ne n _ hx]
  | returned t _ tier m hsame hp =>
      exact .same fun tier => (hsame.flow tier).bytes
  | allocated t _ needEvict haveEvict c k f v hp hk hlock hf hlen =>
      exact .same (setFlow_congr (·.bytes) hf.bytes)
  | failed t _ needEvict haveEvict c k v m hsame hp hk he =>
      exact .same fun tier => (hsame.flow tier).bytes
  | copied t _ needEvict haveEvict c k v m hsame hp hk hmem =>
      obtain ⟨k', hk', -, -, -, hlen⟩ : Fits n t (.allocated needEvict haveEvict
        c v) := hp ▸ h.fits t
      obtain rfl := Option.some.inj (hk.symm.trans hk')
      refine .write t .disk v
        ((n.flow .mem).read k.value.flowOffset k.value.length) ?_ ?_ ?_ ?_ ?_
      · exact (congrArg (Phase.claim · Tier.disk) hp).trans rfl
      · exact (congrArg (n.fillThread · Tier.disk) hp).trans rfl
      · rw [RCacheFlow.read, List.length_map, List.length_range, hlen]
      · refine (congrArg RCacheFlow.bytes (setFlow_self m .disk
          ((m.flow .disk).write v.flowOffset _))).trans ?_
        dsimp only [RCacheFlow.write]
        rw [(hsame.flow .disk).bytes, (hsame.flow .disk).truncateOffset]
      · intro x hx
        show ((m.setFlow .disk _).flow x).bytes = _
        rw [setFlow_of_ne m _ hx]
        exact (hsame.flow x).bytes
  | moved t _ needEvict haveEvict c k v m hsame hp hk =>
      exact .same fun tier => (hsame.flow tier).bytes
  | arrived t _ needEvict haveEvict c k v hp hk =>
      exact .same fun x => setFlow_congr (n := n.setTruncateQ .disk _)
        (f := (n.flow .mem).updateDataTruncOffset k.value) (·.bytes) rfl x
  | gone t _ needEvict haveEvict c k m hsame hp hk =>
      exact .same fun x => (setFlow_congr
        (f := (m.flow .disk).updateDataTruncOffset k.value) (·.bytes)
          rfl x).trans (hsame.flow x).bytes
  | truncated t _ tier haveEvict f hp hf =>
      exact .same (setFlow_congr (·.bytes) hf.bytes)
  | _ => exact .same fun _ => rfl

/-- The flows give up more and more. -/
theorem Good.truncate_le (h : Good n) (ht : Trans n e n') (tier : Tier) :
    (n.flow tier).truncateOffset ≤ (n'.flow tier).truncateOffset := by
  cases h.offsetStep ht with
  | same _ htrunc => exact (htrunc tier).ge
  | advance t x c k hp hk hv hp' _ hdata hothers htrunc =>
      exact (htrunc tier).ge
  | truncate _ hle _ => exact hle tier

/-- A filled range stays filled while its bytes do. -/
theorem Kept.mono {f g : RCacheFlow β} {v : Value} {data : List β}
    (h : Kept f v data) (hle : f.truncateOffset ≤ g.truncateOffset)
    (hbytes : ∀ p, v.flowOffset ≤ p → p < v.reach → g.bytes p = f.bytes p) :
    Kept g v data := by
  refine ⟨h.length, ?_⟩
  intro i x hx hp
  have hi : i < data.length := (List.getElem?_eq_some_iff.mp hx).1
  rw [hbytes _ (Nat.le_add_right ..), h.bytes i x hx (hle.trans hp)]
  unfold Value.reach
  rw [h.length] at hi
  omega

/-- The bytes of a filled range stay. -/
theorem Good.kept_step (h : Good n) (ht : Trans n e n') (w : Holder ι)
    {v : Value} {data : List β} (hclaim : n.claim tier w = some v)
    (hfill : n.fill tier w = some data) (hkept : Kept (n.flow tier) v data) :
    Kept (n'.flow tier) v data := by
  have hle := h.truncate_le ht tier
  cases h.bytesStep ht with
  | same hbytes =>
      exact hkept.mono hle fun p _ _ => congrFun (hbytes tier) p
  | write t x u new hu hnone hlen hself hothers =>
      by_cases hx : tier = x
      · subst hx
        have hne : w ≠ .thread t := by
          rintro rfl
          rw [hnone] at hfill
          cases hfill
        refine hkept.mono hle ?_
        intro p hlow hhigh
        rw [hself]
        refine RCacheFlow.write_beside hlen ?_
        by_contra hin
        rw [not_or, Nat.not_lt, Nat.not_le] at hin
        exact hne ((h.handed tier).eq_of_mem hclaim hu ⟨hlow, hhigh⟩ hin)
      · exact hkept.mono hle fun p _ _ => congrFun (hothers tier hx) p

/-- What a thread has put, a step does not change. -/
theorem Good.fillThread_old (h : Good n) (ht : Trans n e n') {u : ι}
    {data : List β} (hd : n'.fillThread (n.threads u) tier = some data) :
    n.fillThread (n.threads u) tier = some data := by
  have hfit := h.fits u
  have hchunk : ∀ c k, n.chunks c = some k →
      (n'.chunks c).map (·.data) = some data →
      (n.chunks c).map (·.data) = some data := by
    intro c k hk hd
    obtain ⟨k', hk', hkeeps⟩ := h.keeps ht hk
    rw [hk', Option.map_some, hkeeps.data] at hd
    rw [hk, Option.map_some]
    exact hd
  cases hp : n.threads u <;> rw [hp] at hd hfit <;> cases tier <;>
    first
    | exact hd
    | exact (Option.some_ne_none _ hd.symm).elim
    | (obtain ⟨k, hk, -⟩ := hfit; exact hchunk _ k hk hd)

theorem Good.fill_thread (h : Good n) (hfilled : Filled n)
    (ht : Trans n e n') {u : ι} {v : Value} {data : List β}
    (hv : (n'.threads u).claim tier = some v)
    (hd : n'.fillThread (n'.threads u) tier = some data) :
    (∃ x, n.claim tier x = some v ∧ n.fill tier x = some data) ∨
      Kept (n'.flow tier) v data := by
  -- the thread has a range that was filled before
  have hold : (n.threads u).claim tier = some v →
      n'.fillThread (n.threads u) tier = some data →
      (∃ x, n.claim tier x = some v ∧ n.fill tier x = some data) ∨
        Kept (n'.flow tier) v data :=
    fun hv hd => Or.inl ⟨.thread u, hv, h.fillThread_old ht hd⟩
  rcases ht.phase u with hsame | hstep
  · rw [hsame] at hv hd
    exact hold hv hd
  have hfit := h.fits u
  generalize n.threads u = p at hstep hold hfit
  generalize n'.threads u = q at hstep hv hd
  cases hstep with
  | moves hq => cases hq <;> cases tier <;> exact hold hv hd
  | relocks hq => cases hq <;> cases tier <;> exact hold hv hd
  | unqueued needEvict haveEvict c v hn => cases tier <;> exact hold hv hd
  | moved needEvict haveEvict c v => cases tier <;> exact hold hv hd
  | written v₀ data₀ hlen hn =>
      cases tier with
      | disk => cases hv
      | mem =>
          obtain rfl := Option.some.inj hv
          obtain rfl := Option.some.inj hd
          have hflow : n'.flow .mem = (n.flow .mem).write v₀.flowOffset data₀ :=
            hn ▸ setFlow_self n .mem
              ((n.flow .mem).write v₀.flowOffset data₀)
          rw [hflow]
          exact Or.inr (RCacheFlow.kept_write _ hlen)
  | inserted v₀ data₀ hdata =>
      cases tier with
      | disk => cases hv
      | mem => exact hold hv (hdata.symm.trans hd)
  | copied needEvict haveEvict c v₀ k m hk hmem hchunks hn =>
      cases tier with
      | mem => cases hv
      | disk =>
          obtain rfl := Option.some.inj hv
          obtain ⟨k', hk', -, hc, -, hlen⟩ := hfit
          obtain rfl := Option.some.inj (hk.symm.trans hk')
          have hdata : k.data = data := by
            have hd' : (n'.chunks c).map (·.data) = some data := hd
            rw [hchunks, hk] at hd'
            exact Option.some.inj hd'
          -- what is copied is what was put
          have hkept := hfilled .mem (.chunk c) k.value k.data
            (claim_chunk hc hk) ((if_pos hc).trans (by rw [hk]; rfl))
          rw [hn, RCacheFlow.read_all hkept hmem, ← hdata]
          exact Or.inr
            (RCacheFlow.kept_write _ (hkept.length.trans hlen.symm))
  | reserved => cases tier <;> cases hd
  | allocated => cases tier <;> cases hd
  | _ => cases tier <;> cases hv

/-- A chunk in a list was there before, or a thread has brought it. -/
theorem Good.fill_chunk (h : Good n) (ht : Trans n e n') {k' : Chunk ι κ β}
    (hc : c ∈ n'.truncateQ tier) (hk' : n'.chunks c = some k') :
    ∃ x, n.claim tier x = some k'.value ∧ n.fill tier x = some k'.data := by
  -- the chunk was in the list
  have hold : c ∈ n.truncateQ tier →
      ∃ x, n.claim tier x = some k'.value ∧ n.fill tier x = some k'.data := by
    intro hc
    obtain ⟨k, hk, -⟩ := h.queued tier c hc
    obtain ⟨k₁, hk₁, hkeeps⟩ := h.keeps ht hk
    obtain rfl := Option.some.inj (hk'.symm.trans hk₁)
    refine ⟨.chunk c, ?_, ?_⟩
    · rw [claim_chunk hc hk, (hkeeps.place fun hun => hun tier hc).1]
    · rw [Cache.fill, if_pos hc, hk, Option.map_some, hkeeps.data]
  -- thread `t` has brought it
  have hnew : ∀ {t : ι} {k : Chunk ι κ β}, n.chunks c = some k →
      k'.value = k.value → k'.data = k.data →
      (n.threads t).claim tier = some k.value →
      n.fillThread (n.threads t) tier = (n.chunks c).map (·.data) →
      ∃ x, n.claim tier x = some k'.value ∧ n.fill tier x = some k'.data := by
    intro t k hk hvalue hdata hclaim hfill
    refine ⟨.thread t, hvalue ▸ hclaim, hfill.trans ?_⟩
    rw [hk, Option.map_some, hdata]
  cases ht with
  | quiet _ m hsame => exact hold (hsame.truncateQ ▸ hc)
  | moves t _ q m hsame hq => exact hold (hsame.truncateQ ▸ hc)
  | relocks t _ q m c₀ k k₁ hsame hc₀ hk hq => exact hold (hsame.truncateQ ▸ hc)
  | listed t _ c₀ v k hp hk =>
      by_cases hcc : c = c₀
      · subst hcc
        obtain rfl := Option.some.inj (hk'.symm.trans (setChunk_self
          (n.setTruncateQ .mem _) c { k with lock := none }))
        obtain ⟨k₁, hk₁, -, hv, htier, hun⟩ : Fits n t (.listed c v) :=
          hp ▸ h.fits t
        obtain rfl := Option.some.inj (hk.symm.trans hk₁)
        cases tier with
        | mem =>
            refine hnew (t := t) hk rfl rfl ?_ ?_
            · rw [hp, hv]
              rfl
            · rw [hp]
              rfl
        | disk => exact absurd hc (hun .disk)
      · refine hold ((mem_setTruncateQ fun _ => ?_).mp hc)
        rw [addToTruncateList_eq (Or.inl rfl), List.mem_orderedInsert,
          or_iff_right hcc]
  | returned t _ x m hsame hp => exact hold (hsame.truncateQ ▸ hc)
  | failed t _ needEvict haveEvict c₀ k v m hsame hp hk he =>
      exact hold (hsame.truncateQ ▸ hc)
  | copied t _ needEvict haveEvict c₀ k v m hsame hp hk hmem =>
      exact hold (hsame.truncateQ ▸ hc)
  | unqueued t _ needEvict haveEvict c₀ v hp =>
      exact hold (mem_of_erased (x := .mem) hc)
  | moved t _ needEvict haveEvict c₀ k v m hsame hp hk =>
      exact hold (hsame.truncateQ ▸ hc)
  | arrived t _ needEvict haveEvict c₀ k v hp hk =>
      by_cases hcc : c = c₀
      · subst hcc
        obtain rfl := Option.some.inj (hk'.symm.trans (setChunk_self
          ((n.setTruncateQ .disk _).setFlow .mem _) c { k with lock := none }))
        obtain ⟨k₁, hk₁, -, hun, htier, hv⟩ : Fits n t (.moved needEvict
          haveEvict c v) := hp ▸ h.fits t
        obtain rfl := Option.some.inj (hk.symm.trans hk₁)
        cases tier with
        | mem => exact absurd hc (hun .mem)
        | disk =>
            refine hnew (t := t) hk rfl rfl ?_ ?_
            · rw [hp, hv]
              rfl
            · rw [hp]
              rfl
      · refine hold ((mem_setTruncateQ fun _ => ?_).mp hc)
        rw [h.add_arrived hp, List.mem_orderedInsert, or_iff_right hcc]
  | dropped t _ needEvict haveEvict c₀ hp =>
      exact hold (mem_of_erased (x := .disk) hc)
  | gone t _ needEvict haveEvict c₀ k m hsame hp hk =>
      exact hold (hsame.truncateQ ▸ hc)
  | _ => exact hold hc

/-- **NOTHING FILLED IS EVER WRONG**: a step keeps what the ranges are filled
    with. -/
theorem Filled.step (hfilled : Filled n) (h : Good n) (ht : Trans n e n') :
    Filled n' := by
  intro tier w v data hv hd
  have hold : (∃ x, n.claim tier x = some v ∧ n.fill tier x = some data) →
      Kept (n'.flow tier) v data := by
    rintro ⟨x, hx, hfill⟩
    exact h.kept_step ht x hx hfill (hfilled tier x v data hx hfill)
  cases w with
  | thread u => exact (h.fill_thread hfilled ht hv hd).elim hold id
  | chunk c =>
      have hc : c ∈ n'.truncateQ tier := by
        by_contra hne
        rw [Cache.claim, if_neg hne] at hv
        cases hv
      rw [Cache.claim, if_pos hc] at hv
      rw [Cache.fill, if_pos hc] at hd
      obtain ⟨k', hk', rfl⟩ := Option.map_eq_some_iff.mp hv
      rw [hk'] at hd
      obtain rfl := Option.some.inj hd
      exact hold (h.fill_chunk ht hc hk')
  | lost i => cases hd

end UbsIo.Rcache
