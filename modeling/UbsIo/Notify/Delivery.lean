import UbsIo.Notify.Ring

/-! # Delivery through the ring

    What holds of the ring in every reachable state (`Inv`).  The slots from
    the consumer's place on, one round of the ring, are in three kinds: free,
    being written by the one producer that has reserved them, or published with
    the whole item in place (`Slots`).  The four things that happen to slots
    are reserving, writing, publishing and releasing, with one lemma each. -/

namespace UbsIo.Notify

open UbsIo.Lib

/-! ## Slots of a ring -/

variable {ι : Type} (d : Depth)

theorem Depth.isPowerOfTwo : d.queueDepth.isPowerOfTwo := by
  have hv := d.valid
  simp only [isValidDepth, Bool.and_eq_true, decide_eq_true_eq,
    beq_iff_eq] at hv
  exact Nat.ne_zero_and_sub_one_eq_zero_iff_isPowerOfTwo.mp
    ⟨by omega, hv.2⟩

theorem Depth.pos : 0 < d.queueDepth :=
  Nat.pos_of_isPowerOfTwo d.isPowerOfTwo

theorem Depth.slot_eq (pos : Nat) : d.slot pos = pos % d.queueDepth := by
  obtain ⟨k, hk⟩ := d.isPowerOfTwo
  rw [Depth.slot, hk, Nat.and_two_pow_sub_one_eq_mod]

/-- Positions of one round lie in different slots. -/
theorem Depth.eq_of_slot_eq (low : Nat) {p q : Nat}
    (h : d.slot p = d.slot q)
    (hp : low ≤ p ∧ p < low + d.queueDepth)
    (hq : low ≤ q ∧ q < low + d.queueDepth) : p = q := by
  rw [d.slot_eq, d.slot_eq] at h
  have hp' := Nat.div_add_mod p d.queueDepth
  have hq' := Nat.div_add_mod q d.queueDepth
  rw [h] at hp'
  -- the difference is a multiple of the depth, and less than it
  have hdvd : ∀ {a b : Nat}, a % d.queueDepth = b % d.queueDepth → a ≤ b →
      b < a + d.queueDepth → a = b := by
    intro a b hab hle hlt
    have hmod : (b - a) % d.queueDepth = 0 :=
      Nat.sub_mod_eq_zero_of_mod_eq hab.symm
    rw [Nat.mod_eq_of_lt (by omega)] at hmod
    omega
  obtain hle | hle := Nat.le_total p q
  · exact hdvd h hle (by omega)
  · exact (hdvd h.symm hle (by omega)).symm

theorem Depth.slot_add (pos : Nat) :
    d.slot (pos + d.queueDepth) = d.slot pos := by
  rw [d.slot_eq, d.slot_eq, Nat.add_mod_right]

/-! ## Fields of an event -/

/-- The first `field` fields of the event are those of the item. -/
structure Agrees (field : Nat) (e : NotifyShmEvent) (x : Entry) : Prop where
  time : 0 < field → e.enqueueTimeNs = x.enqueueTimeNs
  keyLen : 1 < field → e.keyLen = x.key.length
  opType : 2 < field → e.opType = x.opType
  key : 3 < field → e.key.take x.key.length = x.key

theorem Agrees.zero (e : NotifyShmEvent) (x : Entry) : Agrees 0 e x :=
  ⟨nofun, nofun, nofun, nofun⟩

theorem Agrees.write {field : Nat} {e : NotifyShmEvent} {x : Entry}
    (h : Agrees field e x) (hf : field < 4) :
    Agrees (field + 1) (writeField x field e) x := by
  match field, hf with
  | 0, _ => exact ⟨fun _ => rfl, by omega, by omega, by omega⟩
  | 1, _ => exact ⟨fun _ => h.time (by omega), fun _ => rfl, by omega, by omega⟩
  | 2, _ =>
      exact ⟨fun _ => h.time (by omega), fun _ => h.keyLen (by omega),
        fun _ => rfl, by omega⟩
  | 3, _ =>
      have hlen : x.key.length ≤ maxKeySize := le_of_lt x.keyLen_lt
      simp only [writeField, hlen, if_true]
      exact ⟨fun _ => h.time (by omega), fun _ => h.keyLen (by omega),
        fun _ => h.opType (by omega), fun _ => List.take_left⟩

theorem Agrees.copy {field : Nat} {source e : NotifyShmEvent} {x : Entry}
    (hsource : Agrees 4 source x) (h : Agrees field e x) (hf : field < 4) :
    Agrees (field + 1) (copyField source field e) x := by
  match field, hf with
  | 0, _ =>
      exact ⟨fun _ => hsource.time (by omega), by omega, by omega, by omega⟩
  | 1, _ =>
      exact ⟨fun _ => h.time (by omega), fun _ => hsource.keyLen (by omega),
        by omega, by omega⟩
  | 2, _ =>
      exact ⟨fun _ => h.time (by omega), fun _ => h.keyLen (by omega),
        fun _ => hsource.opType (by omega), by omega⟩
  | 3, _ =>
      have hlen := hsource.keyLen (by omega)
      have hkey := hsource.key (by omega)
      have hpos := x.keyLen_pos
      have hlt := x.keyLen_lt
      have hvalid : ¬ (source.keyLen = 0 ∨ source.keyLen ≥ maxKeySize) := by
        omega
      simp only [copyField, hvalid, if_false]
      refine ⟨fun _ => h.time (by omega), fun _ => h.keyLen (by omega),
        fun _ => h.opType (by omega), fun _ => ?_⟩
      rw [hlen, hkey]
      exact List.take_left

/-- An event that has every field of an item tells what the item tells. -/
theorem Agrees.notice_eq {e : NotifyShmEvent} {x : Entry}
    (h : Agrees 4 e x) : e.notice = x.toNotice := by
  have htime := h.time (by omega)
  have hop := h.opType (by omega)
  have hkey : e.key.take e.keyLen = x.key := by
    rw [h.keyLen (by omega)]
    exact h.key (by omega)
  rw [NotifyShmEvent.notice, htime, hop, hkey]

/-! ## One round of slots -/

/-- The slots from position `low` on, when positions up to `high` are reserved
    for the `items`, and producers have still to publish what they `own`. -/
structure Slots (low high : Nat) (slots : Nat → NotifyShmSlot)
    (items : List Entry) (own : ι → Nat → Prop) : Prop where
  low_le : low ≤ high
  high_le : high ≤ low + d.queueDepth
  length_eq : items.length = high
  owned : ∀ {i p}, own i p →
    low ≤ p ∧ p < high ∧ (slots (d.slot p)).sequence = p
  once : ∀ {i j p}, own i p → own j p → i = j
  published : ∀ {p}, low ≤ p → p < high → (∀ i, ¬ own i p) →
    (slots (d.slot p)).sequence = p + 1 ∧
      ∃ x, items[p]? = some x ∧ Agrees 4 (slots (d.slot p)).event x
  free : ∀ {p}, high ≤ p → p < low + d.queueDepth →
    (slots (d.slot p)).sequence = p

section Slots

variable {d} {low high : Nat} {slots : Nat → NotifyShmSlot}
  {items : List Entry} {own : ι → Nat → Prop}

/-- **RESERVING**: a producer that owns nothing takes the next positions. -/
theorem Slots.reserve [DecidableEq ι]
    (h : Slots d low high slots items own) {i : ι} {batch : List Entry}
    (hi : ∀ p, ¬ own i p) (hroom : high + batch.length ≤ low + d.queueDepth) :
    Slots d low (high + batch.length) slots (items ++ batch)
      (Function.update own i fun p => high ≤ p ∧ p < high + batch.length) := by
  have hlow := h.low_le
  have hlen := h.length_eq
  have hown : ∀ {j p}, Function.update own i
      (fun p => high ≤ p ∧ p < high + batch.length) j p →
      j = i ∧ high ≤ p ∧ p < high + batch.length ∨ j ≠ i ∧ own j p := by
    intro j p hj
    by_cases heq : j = i
    · subst heq
      rw [Function.update_self] at hj
      exact .inl ⟨rfl, hj⟩
    · rw [Function.update_of_ne heq] at hj
      exact .inr ⟨heq, hj⟩
  refine ⟨by omega, hroom, by rw [List.length_append, hlen], ?_, ?_, ?_, ?_⟩
  · intro j p hj
    obtain ⟨-, hge, hlt⟩ | ⟨-, hj⟩ := hown hj
    · exact ⟨by omega, hlt, h.free hge (by omega)⟩
    · obtain ⟨h1, h2, h3⟩ := h.owned hj
      exact ⟨h1, by omega, h3⟩
  · intro j k p hj hk
    obtain ⟨hji, hge, -⟩ | ⟨-, hj'⟩ := hown hj
    · obtain ⟨hki, -⟩ | ⟨-, hk'⟩ := hown hk
      · rw [hji, hki]
      · have := (h.owned hk').2.1
        omega
    · obtain ⟨-, hge, -⟩ | ⟨-, hk'⟩ := hown hk
      · have := (h.owned hj').2.1
        omega
      · exact h.once hj' hk'
  · intro p hge hlt hnone
    have hold : p < high := by
      by_contra hp
      exact hnone i (by rw [Function.update_self]; omega)
    have hfree : ∀ j, ¬ own j p := by
      intro j hj
      by_cases heq : j = i
      · subst heq
        exact hi p hj
      · exact hnone j (by rwa [Function.update_of_ne heq])
    obtain ⟨hseq, x, hx, ha⟩ := h.published hge hold hfree
    refine ⟨hseq, x, ?_, ha⟩
    rwa [List.getElem?_append_left (by omega)]
  · intro p hge hlt
    exact h.free (by omega) hlt

/-- **WRITING**: what a producer writes into a slot it owns disturbs nothing
    else. -/
theorem Slots.write (h : Slots d low high slots items own) {i : ι} {p : Nat}
    (hp : own i p) (e : NotifyShmEvent) :
    Slots d low high (Function.update slots (d.slot p)
      { slots (d.slot p) with event := e }) items own := by
  obtain ⟨hplow, hphigh, hpseq⟩ := h.owned hp
  have hle := h.high_le
  have hseq : ∀ q, (Function.update slots (d.slot p)
      { slots (d.slot p) with event := e } q).sequence = (slots q).sequence := by
    intro q
    by_cases hq : q = d.slot p
    · rw [hq, Function.update_self]
    · rw [Function.update_of_ne hq]
  refine ⟨h.low_le, hle, h.length_eq, ?_, h.once, ?_, ?_⟩
  · intro j q hj
    rw [hseq]
    exact h.owned hj
  · intro q hge hlt hnone
    have hne : d.slot q ≠ d.slot p := by
      intro heq
      have := d.eq_of_slot_eq low heq ⟨hge, by omega⟩
        ⟨hplow, by omega⟩
      exact hnone i (this ▸ hp)
    rw [Function.update_of_ne hne]
    exact h.published hge hlt hnone
  · intro q hge hlt
    rw [hseq]
    exact h.free hge hlt

/-- **PUBLISHING**: a slot that has its item gets its number, and is owned no
    more. -/
theorem Slots.publish [DecidableEq ι]
    (h : Slots d low high slots items own) {i : ι} {p : Nat}
    {own' : Nat → Prop} (hp : own i p)
    (hown' : ∀ q, own' q ↔ own i q ∧ q ≠ p) {x : Entry}
    (hx : items[p]? = some x) (ha : Agrees 4 (slots (d.slot p)).event x) :
    Slots d low high (Function.update slots (d.slot p)
      { slots (d.slot p) with sequence := p + 1 }) items
      (Function.update own i own') := by
  obtain ⟨hplow, hphigh, -⟩ := h.owned hp
  have hle := h.high_le
  have hsub : ∀ {j q}, Function.update own i own' j q → own j q ∧ q ≠ p := by
    intro j q hj
    by_cases heq : j = i
    · subst heq
      rw [Function.update_self] at hj
      exact (hown' q).mp hj
    · rw [Function.update_of_ne heq] at hj
      exact ⟨hj, fun hq => heq (h.once (hq ▸ hj) hp)⟩
  have hother : ∀ {q}, low ≤ q → q < low + d.queueDepth → q ≠ p →
      Function.update slots (d.slot p)
        { slots (d.slot p) with sequence := p + 1 } (d.slot q) =
        slots (d.slot q) := by
    intro q hge hlt hne
    refine Function.update_of_ne ?_ ..
    intro heq
    exact hne (d.eq_of_slot_eq low heq ⟨hge, hlt⟩
      ⟨hplow, by omega⟩)
  refine ⟨h.low_le, hle, h.length_eq, ?_, ?_, ?_, ?_⟩
  · intro j q hj
    obtain ⟨hj, hne⟩ := hsub hj
    obtain ⟨h1, h2, h3⟩ := h.owned hj
    exact ⟨h1, h2, by rw [hother h1 (by omega) hne]; exact h3⟩
  · intro j k q hj hk
    exact h.once (hsub hj).1 (hsub hk).1
  · intro q hge hlt hnone
    by_cases heq : q = p
    · subst heq
      rw [Function.update_self]
      exact ⟨rfl, x, hx, ha⟩
    · rw [hother hge (by omega) heq]
      refine h.published hge hlt ?_
      intro j hj
      by_cases hji : j = i
      · subst hji
        refine hnone j ?_
        rw [Function.update_self]
        exact (hown' q).mpr ⟨hj, heq⟩
      · exact hnone j (by rwa [Function.update_of_ne hji])
  · intro q hge hlt
    rw [hother (by have := h.low_le; omega) hlt (by omega)]
    exact h.free hge hlt

/-- **RELEASING**: the first slot becomes the last one of the next round. -/
theorem Slots.release (h : Slots d low high slots items own)
    (hlow : low < high) (hnone : ∀ i, ¬ own i low) :
    Slots d (low + 1) high (Function.update slots (d.slot low)
      { slots (d.slot low) with sequence := low + d.queueDepth }) items
      own := by
  have hle := h.high_le
  have hpos := d.pos
  have hother : ∀ {q}, low < q → q < low + d.queueDepth →
      Function.update slots (d.slot low)
        { slots (d.slot low) with sequence := low + d.queueDepth }
        (d.slot q) = slots (d.slot q) := by
    intro q hgt hlt
    refine Function.update_of_ne ?_ ..
    intro heq
    have := d.eq_of_slot_eq low heq ⟨by omega, hlt⟩ ⟨le_refl _, by omega⟩
    omega
  have howned : ∀ {i q}, own i q → low < q := by
    intro i q hq
    have hge := (h.owned hq).1
    by_contra hlt
    have heq : q = low := by omega
    exact hnone i (heq ▸ hq)
  refine ⟨hlow, by omega, h.length_eq, ?_, h.once, ?_, ?_⟩
  · intro i q hq
    obtain ⟨-, h2, h3⟩ := h.owned hq
    exact ⟨howned hq, h2, by rw [hother (howned hq) (by omega)]; exact h3⟩
  · intro q hge hlt hq
    rw [hother (by omega) (by omega)]
    exact h.published (by omega) hlt hq
  · intro q hge hlt
    by_cases hlast : q = low + d.queueDepth
    · rw [hlast, d.slot_add, Function.update_self]
    · rw [hother (by omega) (by omega)]
      exact h.free hge (by omega)

end Slots

/-! ## Invariant -/

/-- The positions that a producer has still to publish. -/
def ProducerPc.Own : ProducerPc → Nat → Prop
  | .publish batch pos index _, p => pos + index ≤ p ∧ p < pos + batch.length
  | _, _ => False

/-- The first position that is not released. -/
def Ring.low (r : Ring ι) : Nat :=
  match r.consumer with
  | .advance _ pos => pos + 1
  | _ => r.dequeuePos

/-- The items by reserved position. -/
def Ring.items (r : Ring ι) : List Entry := r.log.flatMap Prod.snd

/-- Every batch stands right behind the one before. -/
def Consecutive : Nat → List (Nat × List Entry) → Prop
  | _, [] => True
  | start, (pos, batch) :: log =>
      pos = start ∧ Consecutive (start + batch.length) log

/-- What a producer knows. -/
structure ProducerInv (dequeuePos : Nat) (slots : Nat → NotifyShmSlot)
    (items : List Entry) (p : Producer) : Prop where
  cached : p.cachedDequeuePos ≤ dequeuePos
  space : ∀ {batch pos}, p.pc = .cas batch pos →
    used pos p.cachedDequeuePos batch.length ≤ d.queueDepth
  field_le : ∀ {batch pos index field},
    p.pc = .publish batch pos index field → field ≤ 4
  reserved : ∀ {batch pos index field},
    p.pc = .publish batch pos index field →
      ∀ k x, batch[k]? = some x → items[pos + k]? = some x
  written : ∀ {batch pos index field},
    p.pc = .publish batch pos index field → ∀ x, batch[index]? = some x →
      Agrees field (slots (d.slot (pos + index))).event x

/-- What the consumer knows. -/
def ConsumerInv (dequeuePos high : Nat) (items : List Entry)
    (own : ι → Nat → Prop) : ConsumerPc → Prop
  | .sequence _ pos => pos = dequeuePos
  | .copy e pos field => pos = dequeuePos ∧ pos < high ∧ (∀ i, ¬ own i pos) ∧
      field ≤ 4 ∧ ∃ x, items[pos]? = some x ∧ Agrees field e x
  | .release e pos => pos = dequeuePos ∧ pos < high ∧ (∀ i, ¬ own i pos) ∧
      ∃ x, items[pos]? = some x ∧ Agrees 4 e x
  | .advance e pos => pos = dequeuePos ∧
      ∃ x, items[pos]? = some x ∧ Agrees 4 e x
  | _ => True

structure Inv (r : Ring ι) : Prop where
  slots : Slots d r.low r.enqueuePos r.slots r.items
    fun i => (r.producers i).pc.Own
  room : r.enqueuePos ≤ r.dequeuePos + d.queueDepth
  producer : ∀ i, ProducerInv d r.dequeuePos r.slots r.items (r.producers i)
  consumer : ConsumerInv r.dequeuePos r.enqueuePos r.items
    (fun i => (r.producers i).pc.Own) r.consumer
  dequeued : r.dequeued = (r.items.map Entry.toNotice).take r.dequeuePos
  consecutive : Consecutive 0 r.log

/-- What the consumer knows stays true when more is reserved, and nobody takes
    its position. -/
theorem ConsumerInv.mono {dequeuePos high high' : Nat}
    {items items' : List Entry} {own own' : ι → Nat → Prop} {c : ConsumerPc}
    (h : ConsumerInv dequeuePos high items own c) (hhigh : high ≤ high')
    (hitems : ∀ (k : Nat) (x : Entry), items[k]? = some x →
      items'[k]? = some x)
    (hown : ∀ i p, p < high → own' i p → own i p) :
    ConsumerInv dequeuePos high' items' own' c := by
  cases c with
  | idle => exact h
  | valid e => exact h
  | load e => exact h
  | sequence e pos => exact h
  | copy e pos field =>
      obtain ⟨hpos, hlt, hnone, hf, x, hx, ha⟩ := h
      exact ⟨hpos, by omega, fun i hi => hnone i (hown i pos hlt hi), hf, x,
        hitems pos x hx, ha⟩
  | release e pos =>
      obtain ⟨hpos, hlt, hnone, x, hx, ha⟩ := h
      exact ⟨hpos, by omega, fun i hi => hnone i (hown i pos hlt hi), x,
        hitems pos x hx, ha⟩
  | advance e pos =>
      obtain ⟨hpos, x, hx, ha⟩ := h
      exact ⟨hpos, x, hitems pos x hx, ha⟩

theorem consecutive_append {log : List (Nat × List Entry)}
    (batch : List Entry) : ∀ {start : Nat}, Consecutive start log →
      Consecutive start
        (log ++ [(start + (log.flatMap Prod.snd).length, batch)]) := by
  induction log with
  | nil => exact fun _ => ⟨rfl, trivial⟩
  | cons b log ih =>
      rintro start ⟨hpos, hrest⟩
      refine ⟨hpos, ?_⟩
      have := ih hrest
      rwa [Nat.add_assoc, ← List.length_append] at this

variable {d}

theorem Inv.init : Inv d (Ring.init : Ring ι) := by
  refine ⟨⟨le_refl _, Nat.zero_le _, rfl, nofun, nofun, ?_, ?_⟩,
    Nat.zero_le _, fun i => ⟨le_refl _, nofun, nofun, nofun, nofun⟩, trivial,
    rfl, trivial⟩
  · intro p _ hlt _
    exact absurd hlt (Nat.not_lt_zero p)
  · intro p _ hlt
    show d.slot p = p
    have hlt' : p < 0 + d.queueDepth := hlt
    rw [d.slot_eq, Nat.mod_eq_of_lt (by omega)]

/-- The consumer is never ahead of its own releases. -/
theorem Inv.dequeuePos_le_low {r : Ring ι} (h : Inv d r) :
    r.dequeuePos ≤ r.low := by
  have hc := h.consumer
  unfold Ring.low
  split
  · rename_i e pos heq
    rw [heq] at hc
    have : pos = r.dequeuePos := hc.1
    omega
  · exact le_refl _

/-- The room a producer sees is there when the position it has loaded is still
    the current one. -/
theorem space_of_used {pos cached num : Nat} (hcached : cached ≤ pos)
    (hpos : pos + num < 2 ^ 63) : used pos cached num = pos - cached + num := by
  unfold used
  have h1 : pos + 2 ^ 64 - cached = pos - cached + 2 ^ 64 := by omega
  rw [h1, Nat.add_mod_right, Nat.mod_eq_of_lt (by omega),
    Nat.mod_eq_of_lt (by omega)]

/-- The consumer moves on without touching the ring. -/
theorem Inv.setConsumer {r : Ring ι} (h : Inv d r) (c : ConsumerPc)
    (result : NotifyShmResult)
    (hlow : Ring.low { r with consumer := c, result := result } = r.low)
    (hc : ConsumerInv r.dequeuePos r.enqueuePos r.items
      (fun i => (r.producers i).pc.Own) c) :
    Inv d { r with consumer := c, result := result } := by
  refine ⟨?_, h.room, h.producer, hc, h.dequeued, h.consecutive⟩
  rw [hlow]
  exact h.slots

section Frame

variable [DecidableEq ι] {r : Ring ι}

theorem own_setProducer (i : ι) (p : Producer) :
    (fun j => ((r.setProducer i p).producers j).pc.Own) =
      Function.update (fun j => (r.producers j).pc.Own) i p.pc.Own := by
  funext j
  by_cases hj : j = i
  · subst hj
    simp [Ring.setProducer]
  · simp [Ring.setProducer, hj]

/-- A producer moves on without touching the ring. -/
theorem Inv.setProducer (h : Inv d r) {i : ι} {p : Producer}
    (hown : ∀ q, p.pc.Own q ↔ (r.producers i).pc.Own q)
    (hp : ProducerInv d r.dequeuePos r.slots r.items p) :
    Inv d (r.setProducer i p) := by
  have hsame : (fun j => ((r.setProducer i p).producers j).pc.Own) =
      fun j => (r.producers j).pc.Own := by
    rw [own_setProducer, Function.update_eq_self_iff]
    funext q
    exact propext (hown q)
  refine ⟨?_, h.room, ?_, ?_, h.dequeued, h.consecutive⟩
  · rw [hsame]
    exact h.slots
  · intro j
    show ProducerInv d r.dequeuePos r.slots r.items
      (Function.update r.producers i p j)
    by_cases hj : j = i
    · subst hj
      rwa [Function.update_self]
    · rw [Function.update_of_ne hj]
      exact h.producer j
  · rw [hsame]
    exact h.consumer

/-- A producer that is not publishing has nothing of its own to keep. -/
theorem ProducerInv.of_pc {p : Producer} {dequeuePos : Nat}
    {slots : Nat → NotifyShmSlot} {items : List Entry}
    (hcached : p.cachedDequeuePos ≤ dequeuePos)
    (hcas : ∀ {batch pos}, p.pc = .cas batch pos →
      used pos p.cachedDequeuePos batch.length ≤ d.queueDepth)
    (hpc : ∀ batch pos index field, p.pc ≠ .publish batch pos index field) :
    ProducerInv d dequeuePos slots items p :=
  ⟨hcached, hcas, fun heq => absurd heq (hpc _ _ _ _),
    fun heq => absurd heq (hpc _ _ _ _), fun heq => absurd heq (hpc _ _ _ _)⟩

theorem Inv.enqueue (h : Inv d r) {r' : Ring ι} {i : ι} {batch : List Entry}
    (hs : r.enqueue d i batch = some r') : Inv d r' := by
  have hcached := (h.producer i).cached
  unfold Ring.enqueue at hs
  split at hs
  · rename_i hpc
    split at hs
    · cases hs
      refine h.setProducer (fun q => .rfl) (.of_pc hcached ?_ ?_)
      · intro batch pos heq
        exact (h.producer i).space heq
      · intro batch pos index field heq
        cases hpc.symm.trans heq
    · cases hs
      refine h.setProducer (fun q => ?_) (.of_pc hcached nofun nofun)
      rw [hpc]
      exact .rfl
  · cases hs

/-- **RESERVATION STEP**: the positions taken are free in the ring. -/
theorem Inv.reserve (h : Inv d r) {i : ι} {batch : List Entry}
    (hpc : (r.producers i).pc = .cas batch r.enqueuePos)
    (hbound : r.enqueuePos + batch.length < 2 ^ 63) :
    r.enqueuePos + batch.length ≤ r.dequeuePos + d.queueDepth ∧
    Inv d { r.setProducer i
        { r.producers i with pc := .publish batch r.enqueuePos 0 0 } with
      enqueuePos := r.enqueuePos + batch.length
      log := r.log ++ [(r.enqueuePos, batch)] } := by
  have hcached := (h.producer i).cached
  have hdeq := h.dequeuePos_le_low
  have hlow := h.slots.low_le
  have hlen : r.items.length = r.enqueuePos := h.slots.length_eq
  have hspace := (h.producer i).space hpc
  rw [space_of_used (by omega) hbound] at hspace
  have hroom : r.enqueuePos + batch.length ≤
      r.dequeuePos + d.queueDepth := by omega
  refine ⟨hroom, ?_⟩
  have hitems : (r.log ++ [(r.enqueuePos, batch)]).flatMap Prod.snd =
      r.items ++ batch := by
    simp [Ring.items]
  have hnone : ∀ p, ¬ (r.producers i).pc.Own p := by
    intro p
    rw [hpc]
    exact id
  have hextend : ∀ {k : Nat} {x : Entry}, r.items[k]? = some x →
      (r.items ++ batch)[k]? = some x := by
    intro k x hx
    rw [List.getElem?_append_left]
    · exact hx
    · exact (List.getElem?_eq_some_iff.mp hx).1
  have hown := own_setProducer (r := r) i
    { r.producers i with pc := .publish batch r.enqueuePos 0 0 }
  refine ⟨?_, hroom, ?_, ?_, ?_, ?_⟩
  · show Slots d r.low _ r.slots
      ((r.log ++ [(r.enqueuePos, batch)]).flatMap Prod.snd) _
    rw [hitems]
    exact hown ▸ h.slots.reserve hnone (by omega)
  · intro j
    show ProducerInv d r.dequeuePos r.slots
      ((r.log ++ [(r.enqueuePos, batch)]).flatMap Prod.snd)
      (Function.update r.producers i _ j)
    rw [hitems]
    by_cases hj : j = i
    · subst hj
      rw [Function.update_self]
      refine ⟨hcached, nofun, ?_, ?_, ?_⟩
      · intro b pos index field heq
        cases heq
        exact Nat.zero_le _
      · intro b pos index field heq k x hx
        cases heq
        rw [List.getElem?_append_right (by omega), hlen,
          Nat.add_sub_cancel_left]
        exact hx
      · intro b pos index field heq x hx
        cases heq
        exact .zero _ _
    · rw [Function.update_of_ne hj]
      have hp := h.producer j
      exact ⟨hp.cached, hp.space, hp.field_le,
        fun heq k x hx => hextend (hp.reserved heq k x hx), hp.written⟩
  · show ConsumerInv r.dequeuePos _
      ((r.log ++ [(r.enqueuePos, batch)]).flatMap Prod.snd) _ r.consumer
    rw [hitems]
    refine ConsumerInv.mono h.consumer (Nat.le_add_right _ _) (fun k x => hextend) ?_
    intro j p hlt hj
    by_cases hji : j = i
    · subst hji
      rw [show ({ r.setProducer j _ with
        enqueuePos := _, log := _ } : Ring ι).producers j = _ from
          Function.update_self ..] at hj
      have : r.enqueuePos + 0 ≤ p := hj.1
      omega
    · rwa [show ({ r.setProducer i _ with
        enqueuePos := _, log := _ } : Ring ι).producers j = _ from
          Function.update_of_ne hji ..] at hj
  · show r.dequeued = (((r.log ++ [(r.enqueuePos, batch)]).flatMap
      Prod.snd).map Entry.toNotice).take r.dequeuePos
    rw [hitems, List.map_append, List.take_append_of_le_length]
    · exact h.dequeued
    · rw [List.length_map, hlen]
      omega
  · have := consecutive_append batch h.consecutive
    rwa [Nat.zero_add, show (r.log.flatMap Prod.snd).length = r.enqueuePos from
      hlen] at this

/-- A write of a producer into its own slot: the ring with the new slot, and the
    producer moved on to owning `p.pc.Own`. -/
theorem Inv.setSlot (h : Inv d r) {i : ι} {pos : Nat} {slot : NotifyShmSlot}
    {p : Producer} (hpos : (r.producers i).pc.Own pos)
    (hslots : Slots d r.low r.enqueuePos
      (Function.update r.slots (d.slot pos) slot) r.items
      (Function.update (fun j => (r.producers j).pc.Own) i p.pc.Own))
    (hsub : ∀ q, p.pc.Own q → (r.producers i).pc.Own q)
    (hp : ProducerInv d r.dequeuePos
      (Function.update r.slots (d.slot pos) slot) r.items p) :
    Inv d ((r.setSlot d pos slot).setProducer i p) := by
  have hown : (fun j =>
      (((r.setSlot d pos slot).setProducer i p).producers j).pc.Own) =
      Function.update (fun j => (r.producers j).pc.Own) i p.pc.Own :=
    own_setProducer (r := r.setSlot d pos slot) i p
  refine ⟨?_, h.room, ?_, ?_, h.dequeued, h.consecutive⟩
  · rw [hown]
    exact hslots
  · intro j
    show ProducerInv d r.dequeuePos
      (Function.update r.slots (d.slot pos) slot) r.items
      (Function.update r.producers i p j)
    by_cases hj : j = i
    · subst hj
      rwa [Function.update_self]
    · rw [Function.update_of_ne hj]
      have hpj := h.producer j
      refine ⟨hpj.cached, hpj.space, hpj.field_le, hpj.reserved, ?_⟩
      intro batch pos' index field heq x hx
      -- the slot another producer is writing is another one
      have hlt : index < batch.length := (List.getElem?_eq_some_iff.mp hx).1
      have hj' : (r.producers j).pc.Own (pos' + index) := by
        rw [heq]
        exact ⟨le_refl _, by omega⟩
      obtain ⟨h1, h2, -⟩ := h.slots.owned (i := i) hpos
      obtain ⟨h3, h4, -⟩ := h.slots.owned (i := j) hj'
      have hle := h.slots.high_le
      have hne : d.slot (pos' + index) ≠ d.slot pos := by
        intro hslot
        have heq' := d.eq_of_slot_eq r.low hslot ⟨h3, by omega⟩
          ⟨h1, by omega⟩
        exact hj (h.slots.once (heq' ▸ hj') hpos)
      rw [Function.update_of_ne hne]
      exact hpj.written heq x hx
  · rw [hown]
    refine ConsumerInv.mono h.consumer (le_refl _) (fun _ _ hx => hx) ?_
    intro j q _ hj
    by_cases hji : j = i
    · subst hji
      rw [Function.update_self] at hj
      exact hsub q hj
    · rwa [Function.update_of_ne hji] at hj

/-- **PUBLICATION STEPS**. -/
theorem Inv.publish (h : Inv d r) {r' : Ring ι} {i : ι} {batch : List Entry}
    {pos index field : Nat}
    (hpc : (r.producers i).pc = .publish batch pos index field) {weak : Bool}
    (hs : r.produce d i weak = some r') : Inv d r' := by
  have hp := h.producer i
  simp only [Ring.produce, hpc] at hs
  cases hx : batch[index]? with
  | none =>
      rw [hx] at hs
      cases hs
      have hge : batch.length ≤ index := List.getElem?_eq_none_iff.mp hx
      refine h.setProducer (fun q => ?_) (.of_pc hp.cached nofun nofun)
      rw [hpc]
      constructor
      · exact False.elim
      · intro hq
        have : pos + index ≤ q ∧ q < pos + batch.length := hq
        omega
  | some x =>
      rw [hx] at hs
      have hlt : index < batch.length := (List.getElem?_eq_some_iff.mp hx).1
      have hown : (r.producers i).pc.Own (pos + index) := by
        rw [hpc]
        exact ⟨le_refl _, by omega⟩
      have hwritten := hp.written hpc x hx
      simp only at hs
      split at hs
      · rename_i hf
        cases hs
        refine h.setSlot hown ?_ ?_ ?_
        · have hsame : Function.update (fun j => (r.producers j).pc.Own) i
              (ProducerPc.publish batch pos index (field + 1)).Own =
                fun j => (r.producers j).pc.Own := by
            rw [Function.update_eq_self_iff, hpc]
            rfl
          show Slots d _ _ _ _ (Function.update _ i
            (ProducerPc.publish batch pos index (field + 1)).Own)
          rw [hsame]
          exact h.slots.write hown _
        · intro q hq
          rw [hpc]
          exact hq
        · refine ⟨hp.cached, nofun, ?_, ?_, ?_⟩
          · intro b pos' index' field' heq
            cases heq
            omega
          · intro b pos' index' field' heq
            cases heq
            exact hp.reserved hpc
          · intro b pos' index' field' heq y hy
            cases heq
            rw [hx] at hy
            cases hy
            rw [Function.update_self]
            exact hwritten.write hf
      · rename_i hf
        cases hs
        have hfour : field = 4 := by
          have := hp.field_le hpc
          omega
        subst hfour
        refine h.setSlot hown ?_ ?_ ?_
        · refine h.slots.publish hown ?_ (hp.reserved hpc index x hx) hwritten
          intro q
          rw [hpc]
          show pos + (index + 1) ≤ q ∧ q < pos + batch.length ↔
            (pos + index ≤ q ∧ q < pos + batch.length) ∧ q ≠ pos + index
          omega
        · intro q hq
          rw [hpc]
          have : pos + (index + 1) ≤ q ∧ q < pos + batch.length := hq
          exact ⟨by omega, by omega⟩
        · refine ⟨hp.cached, nofun, ?_, ?_, ?_⟩
          · intro b pos' index' field' heq
            cases heq
            exact Nat.zero_le _
          · intro b pos' index' field' heq
            cases heq
            exact hp.reserved hpc
          · intro b pos' index' field' heq y _
            cases heq
            exact .zero _ _

theorem Inv.produce (h : Inv d r) {r' : Ring ι} {i : ι} {weak : Bool}
    (hs : r.produce d i weak = some r') (hbound : r'.enqueuePos < 2 ^ 63) :
    Inv d r' := by
  have hp := h.producer i
  cases hpc : (r.producers i).pc with
  | idle =>
      simp only [Ring.produce, hpc] at hs
      cases hs
  | enter batch =>
      simp only [Ring.produce, hpc] at hs
      split at hs <;> cases hs
      · refine h.setProducer (fun q => ?_) (.of_pc hp.cached nofun nofun)
        rw [hpc]
        exact .rfl
      · refine h.setProducer (fun q => ?_) (.of_pc (le_refl _) nofun nofun)
        rw [hpc]
        exact .rfl
  | valid batch =>
      simp only [Ring.produce, hpc] at hs
      split at hs <;> cases hs <;>
        refine h.setProducer (fun q => ?_) (.of_pc hp.cached nofun nofun) <;>
        rw [hpc] <;> exact .rfl
  | load batch =>
      simp only [Ring.produce, hpc] at hs
      split at hs <;> cases hs
      · refine h.setProducer (fun q => ?_) (.of_pc hp.cached nofun nofun)
        rw [hpc]
        exact .rfl
      · rename_i hroom
        refine h.setProducer (fun q => ?_) (.of_pc hp.cached ?_ nofun)
        · rw [hpc]
          exact .rfl
        · intro b pos heq
          cases heq
          show used r.enqueuePos (r.producers i).cachedDequeuePos _ ≤ _
          omega
  | reload batch pos =>
      simp only [Ring.produce, hpc] at hs
      split at hs <;> cases hs
      · refine h.setProducer (fun q => ?_) (.of_pc (le_refl _) nofun nofun)
        rw [hpc]
        exact .rfl
      · rename_i hroom
        refine h.setProducer (fun q => ?_) (.of_pc (le_refl _) ?_ nofun)
        · rw [hpc]
          exact .rfl
        · intro b pos' heq
          cases heq
          exact Nat.not_lt.mp hroom
  | cas batch pos =>
      simp only [Ring.produce, hpc] at hs
      split at hs <;> cases hs
      · rename_i hcas
        obtain ⟨rfl, -⟩ := hcas
        exact (h.reserve hpc hbound).2
      · refine h.setProducer (fun q => ?_) (.of_pc hp.cached nofun nofun)
        rw [hpc]
        exact .rfl
  | publish batch pos index field => exact h.publish hpc hs

end Frame

/-! ## The consumer -/

/-- A slot whose number says so is published, and nobody owns it. -/
theorem Inv.published {r : Ring ι} (h : Inv d r) {pos : Nat}
    (hpos : pos = r.low)
    (hseq : (r.slots (d.slot pos)).sequence = pos + 1) :
    pos < r.enqueuePos ∧ ∀ i, ¬ (r.producers i).pc.Own pos := by
  have hlow := h.slots.low_le
  have hdepth := d.pos
  constructor
  · by_contra hge
    have := h.slots.free (p := pos) (by omega) (by omega)
    omega
  · intro i hi
    have := (h.slots.owned (i := i) hi).2.2
    omega

/-- **DEQUEUE STEPS**. -/
theorem Inv.consume {r r' : Ring ι} (h : Inv d r)
    (hs : r.consume d = some r') : Inv d r' := by
  have hc := h.consumer
  cases hpc : r.consumer with
  | idle =>
      simp only [Ring.consume, hpc] at hs
      cases hs
  | valid e =>
      have hlow : r.low = r.dequeuePos := by simp only [Ring.low, hpc]
      simp only [Ring.consume, hpc] at hs
      split at hs <;> cases hs
      · exact h.setConsumer _ r.result hlow.symm trivial
      · exact h.setConsumer _ _ hlow.symm trivial
  | load e =>
      have hlow : r.low = r.dequeuePos := by simp only [Ring.low, hpc]
      simp only [Ring.consume, hpc] at hs
      cases hs
      exact h.setConsumer _ r.result hlow.symm rfl
  | sequence e pos =>
      have hlow : r.low = r.dequeuePos := by simp only [Ring.low, hpc]
      rw [hpc] at hc
      have hpos : pos = r.dequeuePos := hc
      simp only [Ring.consume, hpc] at hs
      split at hs <;> cases hs
      · rename_i hseq
        obtain ⟨hlt, hnone⟩ := h.published (by omega) hseq
        obtain ⟨-, x, hx, -⟩ := h.slots.published (by omega) hlt hnone
        exact h.setConsumer _ r.result hlow.symm
          ⟨hpos, hlt, hnone, Nat.zero_le _, x, hx, .zero _ _⟩
      · exact h.setConsumer _ _ hlow.symm trivial
  | copy e pos field =>
      have hlow : r.low = r.dequeuePos := by simp only [Ring.low, hpc]
      rw [hpc] at hc
      obtain ⟨hpos, hlt, hnone, hf, x, hx, ha⟩ := hc
      simp only [Ring.consume, hpc] at hs
      split at hs <;> cases hs
      · rename_i hfield
        obtain ⟨-, y, hy, hsource⟩ := h.slots.published (by omega) hlt hnone
        rw [hx] at hy
        cases hy
        exact h.setConsumer _ r.result hlow.symm
          ⟨hpos, hlt, hnone, by omega, x, hx, hsource.copy ha hfield⟩
      · rename_i hfield
        have hfour : field = 4 := by omega
        subst hfour
        exact h.setConsumer _ r.result hlow.symm ⟨hpos, hlt, hnone, x, hx, ha⟩
  | release e pos =>
      have hlow : r.low = r.dequeuePos := by simp only [Ring.low, hpc]
      rw [hpc] at hc
      obtain ⟨rfl, hlt, hnone, x, hx, ha⟩ := hc
      simp only [Ring.consume, hpc] at hs
      cases hs
      have hslots := h.slots
      rw [hlow] at hslots
      refine ⟨hslots.release hlt hnone, h.room, ?_, ⟨rfl, x, hx, ha⟩,
        h.dequeued, h.consecutive⟩
      intro i
      have hp := h.producer i
      refine ⟨hp.cached, hp.space, hp.field_le, hp.reserved, ?_⟩
      intro batch pos index field heq y hy
      have hevent : ∀ q, ((r.setSlot d r.dequeuePos
          { r.slots (d.slot r.dequeuePos) with
            sequence := r.dequeuePos + d.queueDepth }).slots q).event =
          (r.slots q).event := by
        intro q
        by_cases hq : q = d.slot r.dequeuePos
        · simp [Ring.setSlot, hq]
        · simp [Ring.setSlot, hq]
      show Agrees field ((r.setSlot d r.dequeuePos _).slots _).event y
      rw [hevent]
      exact hp.written heq y hy
  | advance e pos =>
      have hlow : r.low = pos + 1 := by simp only [Ring.low, hpc]
      rw [hpc] at hc
      obtain ⟨rfl, x, hx, ha⟩ := hc
      simp only [Ring.consume, hpc] at hs
      cases hs
      have hslots := h.slots
      have hroom := h.room
      rw [hlow] at hslots
      refine ⟨hslots, by show r.enqueuePos ≤ r.dequeuePos + 1 + _; omega, ?_,
        trivial, ?_, h.consecutive⟩
      · intro i
        have hp := h.producer i
        exact ⟨Nat.le_succ_of_le hp.cached, hp.space, hp.field_le, hp.reserved,
          hp.written⟩
      · show r.dequeued ++ [e.notice] =
          (r.items.map Entry.toNotice).take (r.dequeuePos + 1)
        rw [List.take_add_one, ← h.dequeued, List.getElem?_map, hx,
          ha.notice_eq]
        rfl

/-! ## Results -/

theorem Inv.length_dequeued {r : Ring ι} (h : Inv d r) :
    r.dequeued.length = r.dequeuePos := by
  have hlow := h.slots.low_le
  have hdeq := h.dequeuePos_le_low
  have hlen : r.items.length = r.enqueuePos := h.slots.length_eq
  rw [h.dequeued, List.length_take, List.length_map]
  omega

variable [DecidableEq ι]

/-- Only a producer whose compare-and-swap succeeds moves `enqueuePos`. -/
theorem produce_enqueuePos {r r' : Ring ι} {i : ι} {weak : Bool}
    (hs : r.produce d i weak = some r') :
    r'.enqueuePos = r.enqueuePos ∨
      ∃ batch, (r.producers i).pc = .cas batch r.enqueuePos ∧
        r'.enqueuePos = r.enqueuePos + batch.length := by
  cases hpc : (r.producers i).pc with
  | cas batch pos =>
      simp only [Ring.produce, hpc] at hs
      split at hs <;> cases hs
      · rename_i hcas
        obtain ⟨rfl, -⟩ := hcas
        exact .inr ⟨batch, rfl, rfl⟩
      · exact .inl rfl
  | publish batch pos index field =>
      left
      simp only [Ring.produce, hpc] at hs
      split at hs
      · cases hs
        rfl
      · split at hs <;> cases hs <;> rfl
  | idle => simp only [Ring.produce, hpc] at hs; cases hs
  | _ =>
      left
      simp only [Ring.produce, hpc] at hs
      split at hs <;> cases hs <;> rfl

/-- A step leaves `enqueuePos`, or reserves a batch. -/
theorem step_enqueuePos {r r' : Ring ι} {e : Event ι}
    (hs : step d r e = some r') :
    r'.enqueuePos = r.enqueuePos ∨
      ∃ i batch, (r.producers i).pc = .cas batch r.enqueuePos ∧
        r'.enqueuePos = r.enqueuePos + batch.length := by
  cases e with
  | enqueue i batch =>
      left
      simp only [step, Ring.enqueue] at hs
      split at hs
      · split at hs <;> cases hs <;> rfl
      · cases hs
  | produce i weak =>
      obtain h | ⟨batch, hpc, h⟩ := produce_enqueuePos hs
      · exact .inl h
      · exact .inr ⟨i, batch, hpc, h⟩
  | dequeue event =>
      left
      simp only [step] at hs
      split at hs <;> cases hs
      rfl
  | consume =>
      left
      simp only [step, Ring.consume] at hs
      split at hs
      case h_1 => cases hs
      all_goals
        first
          | (cases hs; rfl)
          | (split at hs <;> cases hs <;> rfl)
  | close =>
      cases hs
      exact .inl rfl

theorem Inv.step {r r' : Ring ι} {e : Event ι} (h : Inv d r)
    (hs : step d r e = some r') (hbound : r'.enqueuePos < 2 ^ 63) :
    Inv d r' := by
  cases e with
  | enqueue i batch => exact h.enqueue hs
  | produce i weak => exact h.produce hs hbound
  | dequeue event =>
      simp only [Notify.step] at hs
      split at hs
      · rename_i hpc
        cases hs
        exact h.setConsumer _ r.result (by simp only [Ring.low, hpc]) trivial
      · cases hs
  | consume => exact h.consume hs
  | close =>
      cases hs
      exact ⟨h.slots, h.room, h.producer, h.consumer, h.dequeued,
        h.consecutive⟩

theorem run_inv {es : List (Event ι)} {r : Ring ι}
    (hrun : runFrom (step d) Ring.init es = some r)
    (hbound : r.enqueuePos < 2 ^ 63) : Inv d r := by
  refine runFrom_invariant (I := fun r => r.enqueuePos < 2 ^ 63 → Inv d r) ?_
    (fun _ => Inv.init) hrun hbound
  intro r e r' hI hs hlt
  refine Inv.step (hI ?_) hs hlt
  obtain h | ⟨_, _, -, h⟩ := step_enqueuePos hs <;> omega

/-- **THE RING DELIVERS**: in every run that keeps its positions below
    `2 ^ 63`, what is dequeued is a prefix of the items by reserved position,
    every batch stands at consecutive positions, and the next step reserves no
    position whose slot holds an event that is not dequeued yet. -/
theorem ring_delivers (es : List (Event ι)) (r : Ring ι)
    (hrun : runFrom (step d) Ring.init es = some r)
    (hbound : r.enqueuePos < 2 ^ 63) :
    r.dequeued <+: r.items.map Entry.toNotice ∧ Consecutive 0 r.log ∧
      ∀ e r', step d r e = some r' → r'.enqueuePos < 2 ^ 63 →
        ∀ p, r.enqueuePos ≤ p → p < r'.enqueuePos → d.queueDepth ≤ p →
          p - d.queueDepth < r.dequeued.length := by
  have h := run_inv hrun hbound
  refine ⟨?_, h.consecutive, ?_⟩
  · rw [h.dequeued]
    exact List.take_prefix _ _
  · intro e r' hs hbound' p hge hlt hdepth
    rw [h.length_dequeued]
    obtain heq | ⟨i, batch, hpc, heq⟩ := step_enqueuePos hs
    · omega
    · have := (h.reserve hpc (by omega)).1
      omega

/-- The smallest ring. -/
def smallest : Depth := ⟨1024, by decide, by decide⟩

def sampleItem : Entry := ⟨⟨7, 1, [97, 98]⟩, by decide, by decide⟩

/-- One item on its way through the ring. -/
def sampleRun : List (Event Unit) :=
  [[.enqueue () [sampleItem]], List.replicate 10 (.produce () false),
    [.dequeue ⟨0, 0, 0, []⟩], List.replicate 10 .consume].flatten

theorem ring_delivers_sample :
    ∃ r, runFrom (step smallest) Ring.init sampleRun = some r ∧
      r.dequeued = [sampleItem.toNotice] ∧
      r.dequeued <+: r.items.map Entry.toNotice ∧ Consecutive 0 r.log := by
  have hrun : (runFrom (step smallest) Ring.init sampleRun).map
      (fun r => (r.enqueuePos, r.dequeued)) =
        some (1, [sampleItem.toNotice]) := by decide +kernel
  obtain ⟨r, hr, heq⟩ := Option.map_eq_some_iff.mp hrun
  have hpos : r.enqueuePos = 1 := congrArg Prod.fst heq
  have h := ring_delivers sampleRun r hr (by omega)
  exact ⟨r, hr, congrArg Prod.snd heq, h.1, h.2.1⟩

end UbsIo.Notify
