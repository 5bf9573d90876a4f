import UbsIo.Rcache.Lockstep

/-! # What `Get` answers

    Every answer of `Get` is about the value that was put last under its key
    before the index was searched: the bytes of it that were asked for, or that
    it has been deleted or evicted. -/

namespace UbsIo.Rcache

open UbsIo.Lib

variable {ι κ β : Type} {n n' : Cache ι κ β} {tier : Tier} {c : Nat}

/-- The chunk that was put last under the key before the index was searched. -/
structure LastPut (n : Cache ι κ β) (q : Query κ) (c : Nat) : Prop where
  lt : c < q.seen
  key : ∃ k, n.chunks c = some k ∧ k.key = q.key
  newest : ∀ c' k', c < c' → c' < q.seen → n.chunks c' = some k' →
    k'.key ≠ q.key

/-- What an answer says of the cache. -/
def Explained (n : Cache ι κ β) (q : Query κ) : Result β → Prop
  | .ok bytes => ∃ c k, LastPut n q c ∧ n.chunks c = some k ∧
      q.offset < k.data.length ∧ bytes = (k.data.drop q.offset).take q.len
  | .notExists => ∀ c k, LastPut n q c → n.chunks c = some k → k.state = true
  | .readExceed => ∃ c k, LastPut n q c ∧ n.chunks c = some k ∧
      k.data.length ≤ q.offset
  | .addrFailed => False
  | .crcFailed => False
  | .writerFailed => True

/-- The `Get` that a thread is in. -/
def Phase.query : Phase κ β → Option (Query κ × Nat)
  | .found q c => some (q, c)
  | .addressed q c _ => some (q, c)
  | .verified q c _ => some (q, c)
  | _ => none

/-- The index has the last put of every key that is not deleted. -/
structure Latest (n : Cache ι κ β) : Prop where
  newest : ∀ key c, n.index key = some c → ∀ c' k', c < c' →
    n.chunks c' = some k' → k'.key ≠ key
  missing : ∀ key, n.index key = none → ∀ c k, n.chunks c = some k →
    k.key = key → (∀ c' k', c < c' → n.chunks c' = some k' → k'.key ≠ key) →
      k.state = true
  query : ∀ t q c, (n.threads t).query = some (q, c) →
    q.seen ≤ n.count ∧ LastPut n q c
  seen : ∀ q r, (q, r) ∈ n.answers → q.seen ≤ n.count
  explained : ∀ q r, (q, r) ∈ n.answers → Explained n q r

theorem LastPut.unique {q : Query κ} {c' : Nat} (h : LastPut n q c)
    (h' : LastPut n q c') : c = c' := by
  obtain ⟨k, hk, hkey⟩ := h.key
  obtain ⟨k', hk', hkey'⟩ := h'.key
  rcases Nat.lt_trichotomy c c' with hlt | heq | hgt
  · exact absurd hkey' (h.newest c' k' hlt h'.lt hk')
  · exact heq
  · exact absurd hkey (h'.newest c k hgt h.lt hk)

variable [DecidableEq ι] [DecidableEq κ] {e : Event ι κ β}
  {crc : Option (List β → Nat)}

/-! ## Chunks that were there before -/

/-- A chunk is old, or it is the one that the step has made. -/
theorem Good.chunk_old (h : Good n) (ht : Trans n e n') {k' : Chunk ι κ β}
    (hk' : n'.chunks c = some k') :
    (∃ k, n.chunks c = some k ∧ Keeps n c k k') ∨
      c = n.count ∧ n'.index k'.key = some n.count ∧
        ∃ t v dataCrc, e = .insert t k'.key dataCrc ∧
          n.threads t = .written v k'.data ∧ k'.dataCrc = dataCrc := by
  cases hk : n.chunks c with
  | some k =>
      obtain ⟨k₁, hk₁, hkeeps⟩ := h.keeps ht hk
      obtain rfl := Option.some.inj (hk'.symm.trans hk₁)
      exact Or.inl ⟨k, rfl, hkeeps⟩
  | none =>
      cases h.chunkStep ht with
      | same hchunks _ _ =>
          rw [hchunks, hk] at hk'
          cases hk'
      | update x kx kx' hkx hchunks _ _ _ =>
          have hne : c ≠ x := by
            rintro rfl
            rw [hk] at hkx
            cases hkx
          rw [hchunks, Function.update_of_ne hne, hk] at hk'
          cases hk'
      | insert t v data key dataCrc hp _ hchunks _ hindex he =>
          have hc : c = n.count := by
            by_contra hne
            rw [hchunks, Function.update_of_ne hne, hk] at hk'
            cases hk'
          subst hc
          rw [hchunks, Function.update_self] at hk'
          obtain rfl := Option.some.inj hk'
          exact Or.inr ⟨rfl, by rw [hindex, Function.update_self], t, v,
            dataCrc, he, hp, rfl⟩

theorem Good.count_le (h : Good n) (ht : Trans n e n') :
    n.count ≤ n'.count := by
  cases h.chunkStep ht with
  | same _ hcount _ => exact hcount.ge
  | update _ _ _ _ _ _ hcount _ => exact hcount.ge
  | insert _ _ _ _ _ _ _ _ hcount _ => exact hcount ▸ Nat.le_succ _

/-- What was put last before the index was searched does not change. -/
theorem Good.lastPut_step (h : Good n) (ht : Trans n e n') {q : Query κ}
    (hseen : q.seen ≤ n.count) : LastPut n' q c ↔ LastPut n q c := by
  have hold : ∀ {c k'}, c < q.seen → n'.chunks c = some k' →
      ∃ k, n.chunks c = some k ∧ k'.key = k.key := by
    intro c k' hc hk'
    rcases h.chunk_old ht hk' with ⟨k, hk, hkeeps⟩ | ⟨rfl, -⟩
    · exact ⟨k, hk, hkeeps.key⟩
    · omega
  constructor
  · intro hl
    obtain ⟨k', hk', hkey⟩ := hl.key
    obtain ⟨k, hk, heq⟩ := hold hl.lt hk'
    refine ⟨hl.lt, ⟨k, hk, heq ▸ hkey⟩, ?_⟩
    intro c' k₁ hlt hc' hk₁ heq₁
    obtain ⟨k₂, hk₂, hkeeps⟩ := h.keeps ht hk₁
    exact hl.newest c' k₂ hlt hc' hk₂ (hkeeps.key.trans heq₁)
  · intro hl
    obtain ⟨k, hk, hkey⟩ := hl.key
    obtain ⟨k', hk', hkeeps⟩ := h.keeps ht hk
    refine ⟨hl.lt, ⟨k', hk', hkeeps.key.trans hkey⟩, ?_⟩
    intro c' k₁ hlt hc' hk₁ heq₁
    obtain ⟨k₂, hk₂, heq₂⟩ := hold hc' hk₁
    exact hl.newest c' k₂ hlt hc' hk₂ (heq₂ ▸ heq₁)

/-- What an answer says goes on to hold. -/
theorem Explained.step {q : Query κ} {r : Result β} (hr : Explained n q r)
    (h : Good n) (ht : Trans n e n') (hseen : q.seen ≤ n.count) :
    Explained n' q r := by
  cases r with
  | ok bytes =>
      obtain ⟨c, k, hl, hk, hoff, hbytes⟩ := hr
      obtain ⟨k', hk', hkeeps⟩ := h.keeps ht hk
      refine ⟨c, k', (h.lastPut_step ht hseen).mpr hl, hk', ?_, ?_⟩
      · rw [hkeeps.data]
        exact hoff
      · rw [hkeeps.data]
        exact hbytes
  | notExists =>
      intro c k' hl hk'
      have hold := (h.lastPut_step ht hseen).mp hl
      obtain ⟨k, hk, -⟩ := hold.key
      obtain ⟨k₁, hk₁, hkeeps⟩ := h.keeps ht hk
      obtain rfl := Option.some.inj (hk'.symm.trans hk₁)
      exact hkeeps.state (hr c k hold hk)
  | readExceed =>
      obtain ⟨c, k, hl, hk, hoff⟩ := hr
      obtain ⟨k', hk', hkeeps⟩ := h.keeps ht hk
      refine ⟨c, k', (h.lastPut_step ht hseen).mpr hl, hk', ?_⟩
      rw [hkeeps.data]
      exact hoff
  | addrFailed => exact hr
  | crcFailed => exact hr
  | writerFailed => trivial

/-! ## The index -/

omit [DecidableEq ι] [DecidableEq κ] in
/-- A chunk that no thread works on is in the list of its tier, or deleted. -/
theorem Good.listed (h : Good n) {k : Chunk ι κ β} (hk : n.chunks c = some k)
    (hstate : k.state = false)
    (hfree : ∀ u, (n.threads u).carries = some c → k.lock ≠ some u) :
    c ∈ n.truncateQ k.tier := by
  rcases h.placed c k hk with hc | hdel | ⟨u, hu⟩
  · exact hc
  · rw [hstate] at hdel
    cases hdel
  · refine absurd ?_ (hfree u hu)
    have hfit := h.fits u
    cases hp : n.threads u <;> rw [hp] at hu hfit <;> cases hu <;>
      obtain ⟨k', hk', hlock, -⟩ := hfit <;>
      obtain rfl := Option.some.inj (hk.symm.trans hk') <;> exact hlock

omit [DecidableEq ι] [DecidableEq κ] in
/-- What is on disk has been before all that is in memory. -/
theorem Lockstep.disk_below (hl : Lockstep n) (h : Good n) {k : Chunk ι κ β}
    (hc : c ∈ n.truncateQ .disk) (hk : n.chunks c = some k) :
    k.value.reach ≤ (n.flow .mem).dataTruncOffset := by
  have hclaim := claim_chunk hc hk
  by_cases hex : ∃ t v, (n.threads t).claim .disk = some v
  · obtain ⟨t, v, hv⟩ := hex
    rw [← hl.level t v hv]
    refine (h.handed .disk).before_of_index hclaim
      (show n.claim .disk (.thread t) = some v from hv) ?_
    have hbelow : k.value.indexInFlow < (n.flow .disk).index :=
      ((h.handed .disk).below _ _ hclaim).1
    have hne : k.value.indexInFlow ≠ v.indexInFlow := by
      intro heq
      rcases (h.handed .disk).apart _ _ _ _ (fun heq => by cases heq) hclaim
        (show n.claim .disk (.thread t) = some v from hv) with hb | hb
      · have : k.value.indexInFlow < v.indexInFlow := hb.1
        omega
      · have : v.indexInFlow < k.value.indexInFlow := hb.1
        omega
    have hlast := (h.last t v hv).1
    show k.value.indexInFlow < v.indexInFlow
    omega
  · have hnone : ∀ t, (n.threads t).claim .disk = none := by
      intro t
      by_contra hne
      obtain ⟨v, hv⟩ := Option.ne_none_iff_exists'.mp hne
      exact hex ⟨t, v, hv⟩
    rw [← hl.even hnone]
    exact ((h.handed .disk).below _ _ hclaim).2.2

omit [DecidableEq ι] [DecidableEq κ] in
/-- A chunk with the range of one on disk is that one, or deleted. -/
theorem Lockstep.same_value (hl : Lockstep n) (h : Good n) {k k' : Chunk ι κ β}
    {c' : Nat} (hc : c ∈ n.truncateQ .disk) (hk : n.chunks c = some k)
    (hk' : n.chunks c' = some k') (hv : k'.value = k.value) :
    c' = c ∨ k'.state = true := by
  have hbelow := hl.disk_below h hc hk
  have hlow : ¬ (n.flow .mem).dataTruncOffset ≤ k'.value.flowOffset := by
    have := k.value.lt_reach
    rw [hv]
    omega
  have hclaim := claim_chunk hc hk
  -- whoever has the range in the disk tier is the chunk
  have hdisk : ∀ w, n.claim .disk w = some k'.value → w = .chunk c := by
    intro w hw
    refine (h.handed .disk).eq_of_mem (p := k.value.flowOffset) hw hclaim ?_ ?_
    · rw [hv]
      exact ⟨le_rfl, k.value.lt_reach⟩
    · exact ⟨le_rfl, k.value.lt_reach⟩
  have hmem : ∀ w, n.claim .mem w ≠ some k'.value :=
    fun w hw => hlow (hl.mem.ahead w _ hw)
  rcases h.placed c' k' hk' with hq | hstate | ⟨u, hu⟩
  · cases htier : k'.tier with
    | mem => exact absurd (claim_chunk (htier ▸ hq) hk') (hmem _)
    | disk =>
        exact Or.inl (Holder.chunk.inj
          (hdisk _ (claim_chunk (htier ▸ hq) hk')))
  · exact Or.inr hstate
  · exfalso
    have hfit := h.fits u
    have hthread : ∀ tier,
        n.claim tier (.thread u) = (n.threads u).claim tier := fun _ => rfl
    cases hp : n.threads u <;> rw [hp] at hu hfit hthread <;> cases hu <;>
      obtain ⟨k₁, hk₁, hlock, hfit⟩ := hfit <;>
      obtain rfl := Option.some.inj (hk'.symm.trans hk₁)
    · exact hmem (.thread u) ((hthread .mem).trans (by rw [hfit.1]; rfl))
    · exact hmem (.thread u) ((hthread .mem).trans (by rw [hfit.1]; rfl))
    · exact hlow hfit.2.1.2.ge
    · exact hlow hfit.2.1.2.ge
    · cases hdisk (.thread u) ((hthread .disk).trans (by rw [hfit.2.2]; rfl))

/-- An entry goes from the index only with the chunk that is dropped from the
    disk tier, or with one that has its range. -/
theorem Good.index_gone (h : Good n) (ht : Trans n e n') {key : κ}
    (hold : n.index key = some c) (hnew : n'.index key = none) :
    ∃ x k k₁ k', x ∈ n.truncateQ .disk ∧ n.chunks x = some k ∧
      n.chunks c = some k₁ ∧ k₁.value = k.value ∧ n'.chunks x = some k' ∧
      k'.state = true := by
  have hsame : n'.index = n.index → ∃ x k k₁ k', x ∈ n.truncateQ .disk ∧
      n.chunks x = some k ∧ n.chunks c = some k₁ ∧ k₁.value = k.value ∧
      n'.chunks x = some k' ∧ k'.state = true := by
    intro heq
    rw [heq, hold] at hnew
    cases hnew
  cases ht with
  | quiet _ m hs => exact hsame hs.index
  | moves t _ q m hs hq => exact hsame hs.index
  | relocks t _ q m x k k' hs hc hk hq => exact hsame hs.index
  | returned t _ tier m hs hp => exact hsame hs.index
  | failed t _ needEvict haveEvict x k v m hs hp hk he => exact hsame hs.index
  | copied t _ needEvict haveEvict x k v m hs hp hk hmem =>
      exact hsame hs.index
  | moved t _ needEvict haveEvict x k v m hs hp hk => exact hsame hs.index
  | gone t _ needEvict haveEvict x k m hs hp hk => exact hsame hs.index
  | inserted t key' dataCrc v data hp =>
      have hnew' : Function.update n.index key' (some n.count) key = none :=
        hnew
      by_cases hkey : key = key'
      · rw [hkey, Function.update_self] at hnew'
        cases hnew'
      · rw [Function.update_of_ne hkey, hold] at hnew'
        cases hnew'
  | erased t _ needEvict haveEvict x k index hp hk hlock hindex =>
      obtain ⟨k', hk', hx, -⟩ : Fits n t (.victim .disk needEvict haveEvict
        x) := hp ▸ h.fits t
      have hnew' : n.deleteFromIndex k key = none := hindex ▸ hnew
      have hself := setChunk_self { n with index := index } x
        { k with state := true, lock := some t }
      unfold Cache.deleteFromIndex at hnew'
      cases hm : (n.index k.key).bind n.chunks with
      | none =>
          rw [hm] at hnew'
          cases hold.symm.trans hnew'
      | some i =>
          rw [hm] at hnew'
          dsimp only at hnew'
          split at hnew'
          · rename_i hvalue
            by_cases hkey : key = k.key
            · subst hkey
              rw [hold, Option.bind_some] at hm
              exact ⟨x, k, i, _, hx, hk, hm, hvalue, hself, rfl⟩
            · rw [Function.update_of_ne hkey, hold] at hnew'
              cases hnew'
          · cases hold.symm.trans hnew'
  | _ => exact hsame rfl

theorem Latest.newest_step (hla : Latest n) (h : Good n) (ht : Trans n e n')
    (key : κ) (c : Nat) (hc : n'.index key = some c) (c' : Nat)
    (k' : Chunk ι κ β) (hlt : c < c') (hk' : n'.chunks c' = some k') :
    k'.key ≠ key := by
  rcases h.chunk_old ht hk' with ⟨k, hk, hkeeps⟩ | ⟨rfl, hnew, -⟩
  · rw [hkeeps.key]
    cases h.chunkStep ht with
    | same _ _ hindex => exact hla.newest key c (hindex ▸ hc) c' k hlt hk
    | update _ _ _ _ _ _ _ hindex =>
        exact hla.newest key c (hindex key c hc) c' k hlt hk
    | insert _ _ _ key' _ _ _ _ _ hindex =>
        rw [hindex] at hc
        by_cases hkey : key = key'
        · rw [hkey, Function.update_self] at hc
          obtain rfl := Option.some.inj hc
          rw [h.fresh c' hlt.le] at hk
          cases hk
        · rw [Function.update_of_ne hkey] at hc
          exact hla.newest key c hc c' k hlt hk
  · rintro rfl
    rw [hnew] at hc
    obtain rfl := Option.some.inj hc
    exact lt_irrefl _ hlt

theorem Latest.missing_step (hla : Latest n) (hl : Lockstep n) (h : Good n)
    (ht : Trans n e n') (key : κ) (hnone : n'.index key = none) (c : Nat)
    (k' : Chunk ι κ β) (hk' : n'.chunks c = some k') (hkey : k'.key = key)
    (hnewest : ∀ c₁ k₁, c < c₁ → n'.chunks c₁ = some k₁ → k₁.key ≠ key) :
    k'.state = true := by
  rcases h.chunk_old ht hk' with ⟨k, hk, hkeeps⟩ | ⟨rfl, hnew, -⟩
  · have hnewest' : ∀ c₁ k₁, c < c₁ → n.chunks c₁ = some k₁ →
        k₁.key ≠ key := by
      intro c₁ k₁ hlt hk₁ heq
      obtain ⟨k₂, hk₂, hkeeps₂⟩ := h.keeps ht hk₁
      exact hnewest c₁ k₂ hlt hk₂ (hkeeps₂.key.trans heq)
    have hkey' : k.key = key := hkeeps.key ▸ hkey
    cases hindex : n.index key with
    | none => exact hkeeps.state (hla.missing key hindex c k hk hkey' hnewest')
    | some c₁ =>
        -- the entry that goes is that of the last put
        obtain ⟨k₁, hk₁, hkey₁⟩ := h.indexed key c₁ hindex
        obtain rfl : c₁ = c := by
          rcases Nat.lt_trichotomy c c₁ with hlt | heq | hgt
          · exact absurd hkey₁ (hnewest' c₁ k₁ hlt hk₁)
          · exact heq.symm
          · exact absurd hkey' (hla.newest key c₁ hindex c k hgt hk)
        obtain ⟨x, kx, k₂, k₃, hx, hkx, hk₂, hvalue, hk₃, hstate⟩ :=
          h.index_gone ht hindex hnone
        rcases hl.same_value h hx hkx hk₂ hvalue with rfl | hdel
        · obtain rfl := Option.some.inj (hk'.symm.trans hk₃)
          exact hstate
        · obtain rfl := Option.some.inj (hk.symm.trans hk₂)
          exact hkeeps.state hdel
  · rw [hkey, hnone] at hnew
    cases hnew

theorem Latest.query_step (hla : Latest n) (h : Good n) (ht : Trans n e n')
    (u : ι) (q : Query κ) (c : Nat)
    (hq : (n'.threads u).query = some (q, c)) :
    q.seen ≤ n'.count ∧ LastPut n' q c := by
  have hold : (n.threads u).query = some (q, c) →
      q.seen ≤ n'.count ∧ LastPut n' q c := by
    intro hq
    obtain ⟨hseen, hlast⟩ := hla.query u q c hq
    exact ⟨hseen.trans (h.count_le ht), (h.lastPut_step ht hseen).mpr hlast⟩
  rcases ht.phase u with hsame | hstep
  · exact hold (hsame ▸ hq)
  generalize n.threads u = p at hstep hold
  generalize n'.threads u = p' at hstep hq
  cases hstep with
  | moves hm =>
      cases hm with
      | found q c hindex hseen =>
          obtain ⟨rfl, rfl⟩ := Prod.mk.inj (Option.some.inj hq)
          refine ⟨hseen ▸ h.count_le ht, (h.lastPut_step ht hseen.le).mpr ?_⟩
          obtain ⟨k, hk, hkey⟩ := h.indexed q.key c hindex
          refine ⟨?_, ⟨k, hk, hkey⟩,
            fun c' k' hlt _ hk' => hla.newest q.key c hindex c' k' hlt hk'⟩
          by_contra hge
          rw [h.fresh c (by omega)] at hk
          cases hk
      | verified q c realLen => exact hold hq
      | _ => cases hq
  | relocks hr =>
      cases hr with
      | addressed k q c _ _ => exact hold hq
      | _ => cases hq
  | _ => cases hq

/-! ## The answers -/

/-- The CRC of a chunk is that of what was put. -/
def Certified (crc : Option (List β → Nat)) (n : Cache ι κ β) : Prop :=
  ∀ c k f, n.chunks c = some k → crc = some f → k.dataCrc = f k.data

theorem Certified.step (hcert : Certified crc n) (h : Good n)
    (ht : Trans n e n') (hsound : Sound crc n e) : Certified crc n' := by
  intro c k' f hk' hf
  rcases h.chunk_old ht hk' with ⟨k, hk, hkeeps⟩ |
    ⟨rfl, -, t, v, dataCrc, rfl, hp, rfl⟩
  · rw [hkeeps.dataCrc, hkeeps.data]
    exact hcert c k f hk hf
  · exact hsound.certified t k'.key _ v k'.data f rfl hp hf

/-- What a step answers. -/
inductive Answered (crc : Option (List β → Nat)) (n : Cache ι κ β)
    (e : Event ι κ β) (answers : List (Query κ × Result β)) : Prop where
  | none (h : answers = n.answers)
  | missing (q : Query κ) (hindex : n.index q.key = none)
      (hseen : q.seen = n.count)
      (h : answers = n.answers ++ [(q, .notExists)])
  | deleted (t : ι) (q : Query κ) (c : Nat) (k : Chunk ι κ β)
      (hp : n.threads t = .found q c) (hk : n.chunks c = some k)
      (hstate : k.state = true) (h : answers = n.answers ++ [(q, .notExists)])
  | exceeded (t : ι) (q : Query κ) (c : Nat) (k : Chunk ι κ β)
      (hp : n.threads t = .found q c) (hk : n.chunks c = some k)
      (hlock : k.lock = Option.none) (hstate : k.state = false)
      (hlen : k.value.length ≤ q.offset)
      (h : answers = n.answers ++ [(q, .readExceed)])
  | unaddressed (t : ι) (q : Query κ) (c loaded : Nat) (k : Chunk ι κ β)
      (hp : n.threads t = .found q c) (hk : n.chunks c = some k)
      (hlock : k.lock = Option.none) (hstate : k.state = false)
      (hlen : q.offset < k.value.length)
      (hbad : ((n.flow k.tier).getAddrByOffset (k.value.flowOffset + q.offset)
        (k.value.flowOffset + q.offset +
          min (k.value.length - q.offset) q.len) loaded).2 = false)
      (h : answers = n.answers ++ [(q, .addrFailed)])
  | unverified (t : ι) (q : Query κ) (c realLen : Nat)
      (hp : n.threads t = .addressed q c realLen)
      (hbad : e = .fail t ∨ ∃ k f loaded, n.chunks c = some k ∧ crc = some f ∧
        (((n.flow k.tier).getAddrByOffset k.value.flowOffset k.value.reach
          loaded).2 = false ∨
          ((n.flow k.tier).getAddrByOffset k.value.flowOffset k.value.reach
            loaded).2 = true ∧
          f ((n.flow k.tier).read k.value.flowOffset k.value.length) ≠
            k.dataCrc))
      (h : answers = n.answers ++ [(q, .crcFailed)])
  | read (t : ι) (q : Query κ) (c realLen : Nat) (k : Chunk ι κ β)
      (stale : List β) (hp : n.threads t = .verified q c realLen)
      (hk : n.chunks c = some k)
      (h : answers = n.answers ++ [(q, .ok
        (if (n.flow k.tier).truncateOffset ≤ k.value.flowOffset + q.offset then
          (n.flow k.tier).read (k.value.flowOffset + q.offset) realLen
        else stale))])
  | unwritten (q : Query κ) (c : Nat) (t : ι) (realLen : Nat)
      (hp : n.threads t = .verified q c realLen)
      (h : answers = n.answers ++ [(q, .writerFailed)])

omit [DecidableEq κ] in
theorem answers_evictBreak (t : ι) (tier : Tier) (haveEvict : Nat) :
    (n.evictBreak t tier haveEvict).answers = n.answers := by
  unfold Cache.evictBreak
  split <;> rfl

/-- Only a `Get` is answered. -/
theorem resume_answers {t : ι} {loaded : Nat} {stale : List β} {p : Phase κ β}
    (hp : p.query = none) (hs : resume crc n t loaded stale p = some n') :
    n'.answers = n.answers := by
  cases p with
  | found q c => cases hp
  | addressed q c realLen => cases hp
  | verified q c realLen => cases hp
  | deleting c =>
      obtain ⟨k, hk, hs⟩ := Option.bind_eq_some_iff.mp hs
      split at hs <;> cases hs
      rfl
  | evict tier needEvict haveEvict =>
      rw [resume] at hs
      split at hs
      · cases hs
        exact answers_evictBreak ..
      split at hs
      · cases hs
        rfl
      split at hs
      · cases hs
        exact answers_evictBreak ..
      · obtain ⟨k, hk, hs⟩ := Option.bind_eq_some_iff.mp hs
        split at hs <;> cases hs
        · exact answers_evictBreak ..
        · rfl
  | victim tier needEvict haveEvict c =>
      cases tier <;> obtain ⟨k, hk, hs⟩ := Option.bind_eq_some_iff.mp hs
      · split at hs
        · cases hs
        split at hs <;> cases hs <;> rfl
      · split at hs <;> cases hs
        rfl
  | allocated needEvict haveEvict c v =>
      obtain ⟨k, hk, hs⟩ := Option.bind_eq_some_iff.mp hs
      dsimp only at hs
      split at hs
      · cases hs
        rfl
      · split at hs <;> cases hs <;> rfl
  | listed c v =>
      obtain ⟨k, hk, hs⟩ := Option.bind_eq_some_iff.mp hs
      cases hs
      rfl
  | served c tier =>
      obtain ⟨k, hk, hs⟩ := Option.bind_eq_some_iff.mp hs
      cases hs
      rfl
  | unlisted needEvict haveEvict c v =>
      obtain ⟨k, hk, hs⟩ := Option.bind_eq_some_iff.mp hs
      cases hs
      rfl
  | moved needEvict haveEvict c v =>
      obtain ⟨k, hk, hs⟩ := Option.bind_eq_some_iff.mp hs
      cases hs
      rfl
  | dropped needEvict haveEvict c =>
      obtain ⟨k, hk, hs⟩ := Option.bind_eq_some_iff.mp hs
      cases hs
      rfl
  | _ =>
      cases hs <;> rfl

theorem resume_answered {t : ι} {loaded : Nat} {stale : List β}
    (hs : resume crc n t loaded stale (n.threads t) = some n') :
    Answered crc n (.go t loaded stale) n'.answers := by
  cases hp : n.threads t with
  | found q c =>
      rw [hp] at hs
      obtain ⟨k, hk, hs⟩ := Option.bind_eq_some_iff.mp hs
      split at hs
      · cases hs
      rename_i hlock
      split at hs
      · rename_i hstate
        cases hs
        exact .deleted t q c k hp hk hstate rfl
      rename_i hstate
      split at hs
      · rename_i hlen
        cases hs
        exact .exceeded t q c k hp hk (not_not.mp hlock)
          (Bool.eq_false_iff.mpr hstate) hlen rfl
      rename_i hlen
      dsimp only at hs
      split at hs
      · cases hs
        exact .none rfl
      · rename_i f heq
        cases hs
        exact .unaddressed t q c loaded k hp hk (not_not.mp hlock)
          (Bool.eq_false_iff.mpr hstate) (Nat.not_le.mp hlen) (by rw [heq]) rfl
  | addressed q c realLen =>
      rw [hp] at hs
      obtain ⟨k, hk, hs⟩ := Option.bind_eq_some_iff.mp hs
      split at hs
      · cases hs
        exact .none rfl
      rename_i f _
      split at hs
      · rename_i g heq
        cases hs
        exact .unverified t q c realLen hp
          (Or.inr ⟨k, f, loaded, hk, rfl, Or.inl (by rw [heq])⟩) rfl
      · rename_i g heq
        split at hs
        · cases hs
          exact .none rfl
        · rename_i hcrc
          cases hs
          have hread : g.read k.value.flowOffset k.value.length =
              (n.flow k.tier).read k.value.flowOffset k.value.length := by
            unfold RCacheFlow.read
            rw [(RCacheFlow.grown_getAddr heq).bytes]
          exact .unverified t q c realLen hp
            (Or.inr ⟨k, f, loaded, hk, rfl, Or.inr ⟨by rw [heq], hread ▸ hcrc⟩⟩)
            rfl
  | verified q c realLen =>
      rw [hp] at hs
      obtain ⟨k, hk, hs⟩ := Option.bind_eq_some_iff.mp hs
      cases hs
      exact .read t q c realLen k stale hp hk rfl
  | _ => exact .none (resume_answers (by rw [hp]; rfl) hs)

omit [DecidableEq κ] in
theorem interrupt_answered {t : ι}
    (hs : interrupt crc n t (n.threads t) = some n') :
    Answered crc n (.fail t) n'.answers := by
  cases hp : n.threads t with
  | addressed q c realLen =>
      rw [hp, interrupt] at hs
      split at hs
      · cases hs
        exact .unverified t q c realLen hp (Or.inl rfl) rfl
      · cases hs
  | verified q c realLen =>
      rw [hp] at hs
      obtain ⟨k, hk, hs⟩ := Option.bind_eq_some_iff.mp hs
      cases hs
      exact .unwritten q c t realLen hp rfl
  | allocated needEvict haveEvict c v =>
      rw [hp] at hs
      obtain ⟨k, hk, hs⟩ := Option.bind_eq_some_iff.mp hs
      cases hs
      exact .none rfl
  | _ =>
      rw [hp] at hs
      cases hs <;> exact .none rfl

theorem step_answered (hs : step crc n e = some n') :
    Answered crc n e n'.answers := by
  cases e with
  | get t key offset len =>
      simp only [step] at hs
      split at hs
      · split at hs
        · rename_i hindex
          cases hs
          exact .missing ⟨key, offset, len, n.count⟩ hindex rfl rfl
        · cases hs
          exact .none rfl
      · cases hs
  | go t loaded stale => exact resume_answered hs
  | fail t => exact interrupt_answered hs
  | preLoad tier offset =>
      cases hs
      exact .none rfl
  | setDelete =>
      cases hs
      exact .none rfl
  | reserve t len loaded =>
      simp only [step] at hs
      split at hs
      · split at hs
        · split at hs <;> cases hs <;> exact .none rfl
        · cases hs
      · cases hs
  | write t data =>
      simp only [step] at hs
      split at hs
      · split at hs <;> cases hs
        exact .none rfl
      · cases hs
  | insert t key dataCrc =>
      simp only [step] at hs
      split at hs <;> cases hs
      exact .none rfl
  | delete t key =>
      simp only [step] at hs
      split at hs
      · split at hs <;> cases hs <;> exact .none rfl
      · cases hs
  | evict t tier needEvict =>
      simp only [step] at hs
      split at hs
      · split at hs <;> cases hs <;> exact .none rfl
      · cases hs

omit [DecidableEq ι] [DecidableEq κ] in
/-- What a flow has of a chunk that is not deleted. -/
theorem Filled.kept (hfilled : Filled n) {k : Chunk ι κ β}
    (hk : n.chunks c = some k) (hc : c ∈ n.truncateQ k.tier) :
    Kept (n.flow k.tier) k.value k.data :=
  hfilled k.tier (.chunk c) k.value k.data (claim_chunk hc hk)
    ((if_pos hc).trans (by rw [hk]; rfl))

omit [DecidableEq ι] [DecidableEq κ] in
/-- The thread that reads a chunk has locked it in its list. -/
theorem Good.listed_of_query (h : Good n) {t : ι}
    {k : Chunk ι κ β} (hp : (n.threads t).carries = none)
    (hk : n.chunks c = some k) (hlock : k.lock = some t)
    (hstate : k.state = false) : c ∈ n.truncateQ k.tier := by
  refine h.listed hk hstate ?_
  intro u hu hlock'
  obtain rfl := Option.some.inj (hlock.symm.trans hlock')
  rw [hp] at hu
  cases hu

omit [DecidableEq ι] [DecidableEq κ] in
/-- **THE ANSWER** that a step gives. -/
theorem Latest.answered (hla : Latest n) (hl : Lockstep n) (h : Good n)
    (hfilled : Filled n) (hcert : Certified crc n) (hsound : Sound crc n e)
    {answers : List (Query κ × Result β)} (ha : Answered crc n e answers)
    (q : Query κ) (r : Result β) (hr : (q, r) ∈ answers) :
    q.seen ≤ n.count ∧ Explained n q r := by
  -- the answers that were there, and the one that is given
  have hnew : ∀ q₁ r₁, answers = n.answers ++ [(q₁, r₁)] →
      q₁.seen ≤ n.count ∧ Explained n q₁ r₁ →
      q.seen ≤ n.count ∧ Explained n q r := by
    intro q₁ r₁ heq hexp
    rw [heq] at hr
    rcases List.mem_append.mp hr with hr | hr
    · exact ⟨hla.seen q r hr, hla.explained q r hr⟩
    · obtain ⟨rfl, rfl⟩ := Prod.mk.inj (List.mem_singleton.mp hr)
      exact hexp
  cases ha with
  | none heq =>
      rw [heq] at hr
      exact ⟨hla.seen q r hr, hla.explained q r hr⟩
  | missing q₁ hindex hseen heq =>
      refine hnew q₁ _ heq ⟨hseen.le, ?_⟩
      intro c k hlast hk
      obtain ⟨k', hk', hkey⟩ := hlast.key
      obtain rfl := Option.some.inj (hk.symm.trans hk')
      refine hla.missing q₁.key hindex c k hk hkey ?_
      intro c' k' hlt hk'
      refine hlast.newest c' k' hlt ?_ hk'
      by_contra hge
      rw [h.fresh c' (by omega)] at hk'
      cases hk'
  | deleted t q₁ c k hp hk hstate heq =>
      obtain ⟨hseen, hlast⟩ := hla.query t q₁ c (by rw [hp]; rfl)
      refine hnew q₁ _ heq ⟨hseen, ?_⟩
      intro c' k' hlast' hk'
      obtain rfl := hlast.unique hlast'
      obtain rfl := Option.some.inj (hk.symm.trans hk')
      exact hstate
  | exceeded t q₁ c k hp hk hlock hstate hlen heq =>
      obtain ⟨hseen, hlast⟩ := hla.query t q₁ c (by rw [hp]; rfl)
      have hc := h.listed hk hstate fun u _ hu => by
        rw [hlock] at hu
        cases hu
      refine hnew q₁ _ heq ⟨hseen, c, k, hlast, hk, ?_⟩
      rw [(hfilled.kept hk hc).length]
      exact hlen
  | unaddressed t q₁ c loaded k hp hk hlock hstate hlen hbad heq =>
      -- the chunk is in its list, and the flow has its range
      have hc := h.listed hk hstate fun u _ hu => by
        rw [hlock] at hu
        cases hu
      have hreach : k.value.flowOffset + q₁.offset +
          min (k.value.length - q₁.offset) q₁.len ≤ k.value.reach := by
        unfold Value.reach
        omega
      have hok := hl.getAddr h (claim_chunk hc hk)
        (Nat.le_add_right k.value.flowOffset q₁.offset) hreach loaded
      rw [hbad] at hok
      cases hok
  | unverified t q₁ c realLen hp hbad heq =>
      obtain ⟨k, hk, hlock, -, hstate, -⟩ :
        Fits n t (.addressed q₁ c realLen) := hp ▸ h.fits t
      have hc := h.listed_of_query (by rw [hp]; rfl) hk hlock hstate
      exfalso
      rcases hbad with rfl | ⟨k', f, loaded, hk', hf, hbad⟩
      · exact hsound.verified t _ _ _ rfl hp
      · obtain rfl := Option.some.inj (hk.symm.trans hk')
        rcases hbad with hbad | ⟨-, hbad⟩
        · rw [hl.getAddr h (claim_chunk hc hk) le_rfl le_rfl] at hbad
          cases hbad
        · rw [RCacheFlow.read_all (hfilled.kept hk hc)
            (hl.placed (claim_chunk hc hk))] at hbad
          exact hbad (hcert c k f hk hf).symm
  | read t q₁ c realLen k stale hp hk heq =>
      obtain ⟨hseen, hlast⟩ := hla.query t q₁ c (by rw [hp]; rfl)
      obtain ⟨k', hk', hlock, -, hstate, hoffset, hlen⟩ :
        Fits n t (.verified q₁ c realLen) := hp ▸ h.fits t
      obtain rfl := Option.some.inj (hk.symm.trans hk')
      have hc := h.listed_of_query (by rw [hp]; rfl) hk hlock hstate
      have hkept := hfilled.kept hk hc
      have hplace := (hl.placed (claim_chunk hc hk)).trans
        (Nat.le_add_right k.value.flowOffset q₁.offset)
      refine hnew q₁ _ heq ⟨hseen, c, k, hlast, hk, ?_, ?_⟩
      · rw [hkept.length]
        exact hoffset
      · rw [if_pos hplace, RCacheFlow.read_kept hkept hplace (by omega), hlen,
          List.take_eq_take_iff, List.length_drop, hkept.length]
        omega
  | unwritten q₁ c t realLen hp heq =>
      exact hnew q₁ _ heq ⟨(hla.query t q₁ c (by rw [hp]; rfl)).1, trivial⟩

theorem Latest.step (hla : Latest n) (hl : Lockstep n) (h : Good n)
    (hfilled : Filled n) (hcert : Certified crc n) (hsound : Sound crc n e)
    (hs : step crc n e = some n') : Latest n' := by
  have ht := step_trans hs
  have hold := hla.answered hl h hfilled hcert hsound (step_answered hs)
  exact {
    newest := hla.newest_step h ht
    missing := hla.missing_step hl h ht
    query := hla.query_step h ht
    seen := fun q r hr => (hold q r hr).1.trans (h.count_le ht)
    explained := fun q r hr => (hold q r hr).2.step h ht (hold q r hr).1 }

/-! ## Runs -/

/-- Some sections of thread `t`. -/
def goes (t count : Nat) : List (Event Nat Nat Nat) :=
  List.replicate count (.go t 100 [])

/-- Thread `t` puts a value. -/
def puts (t key : Nat) (data : List Nat) (dataCrc : Nat) :
    List (Event Nat Nat Nat) :=
  [.reserve t data.length 100, .write t data, .insert t key dataCrc] ++ goes t 2

end UbsIo.Rcache
