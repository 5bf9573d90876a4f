import UbsIo.Notify.Delivery

/-! # Waking the subscriber

    One shard in event mode.  `PublishBatch` enqueues its items in pieces of at
    most the depth of the ring, and then writes the number of items to the
    eventfd; `WorkerMain` takes one token from the eventfd and then looks at the
    ring once.

    Tokens, unsignalled items and delivered events add up to the positions
    reserved (`WakeInv.tokens`) as long as no token is spent on a slot that is
    reserved but not published yet.  A producer waits for space while the
    worker sleeps only when unsignalled items fill the ring. -/

namespace UbsIo.Notify

open UbsIo.Lib

variable {ι : Type} [DecidableEq ι]

/-! ## Model -/

/-- Where a producer is within `PublishBatch`.  In `EnqueueBatch` it has `rest`
    to enqueue still; `full` is whether it has been told so for this piece. -/
inductive Publisher where
  | idle
  | enqueue (rest : List Entry) (published : Nat) (full : Bool)
  | signal (published : Nat)

/-- The ring, who publishes into it, the tokens of the eventfd, and whether the
    worker is in `WaitEvent`. -/
structure Shard (ι : Type) where
  ring : Ring ι
  publishers : ι → Publisher
  eventFd : Nat
  waiting : Bool

def Shard.init : Shard ι := ⟨.init, fun _ => .idle, 0, true⟩

variable (d : Depth)

/-- The items of the next call of `TryEnqueueBatch`. -/
def Depth.piece (rest : List Entry) : List Entry := rest.take d.queueDepth

/-- One round of `EnqueueBatch`. -/
def Shard.enqueueBatch (s : Shard ι) (i : ι) (rest : List Entry)
    (published : Nat) (full : Bool) : Option (Shard ι) :=
  (s.ring.enqueue d i (d.piece rest)).map fun ring =>
    { s with
      ring
      publishers :=
        Function.update s.publishers i (.enqueue rest published full) }

/-- What follows when `TryEnqueueBatch` has returned. -/
def Shard.returned (s : Shard ι) (i : ι) (rest : List Entry)
    (published : Nat) : Option (Shard ι) :=
  match (s.ring.producers i).result with
  | .full => s.enqueueBatch d i rest published true
  | .ok =>
      let published := published + (d.piece rest).length
      if rest.length ≤ d.queueDepth then
        some { s with
          publishers := Function.update s.publishers i (.signal published) }
      else s.enqueueBatch d i (rest.drop d.queueDepth) published false
  | _ =>
      some { s with publishers := Function.update s.publishers i .idle }

/-- A step of a producer within `TryEnqueueBatch`. -/
def Shard.produce (s : Shard ι) (i : ι) (weak : Bool) : Option (Shard ι) :=
  match s.publishers i with
  | .enqueue rest published _ =>
      (s.ring.produce d i weak).bind fun ring =>
        match (ring.producers i).pc with
        | .idle => Shard.returned d { s with ring } i rest published
        | _ => some { s with ring }
  | _ => none

def ConsumerPc.isIdle : ConsumerPc → Bool
  | .idle => true
  | _ => false

/-- What can happen in a shard. -/
inductive WakeEvent (ι : Type) where
  | publish (i : ι) (items : List Entry)
  | produce (i : ι) (weak : Bool)
  | signal (i : ι)
  | wait (event : NotifyShmEvent)
  | consume

def wakeStep (s : Shard ι) : WakeEvent ι → Option (Shard ι)
  | .publish i items =>
      match s.publishers i with
      | .idle =>
          if items.length = 0 then some s
          else s.enqueueBatch d i items 0 false
      | _ => none
  | .produce i weak => s.produce d i weak
  | .signal i =>
      match s.publishers i with
      | .signal published =>
          some { s with
            publishers := Function.update s.publishers i .idle
            eventFd := s.eventFd + published }
      | _ => none
  | .wait event =>
      if s.waiting ∧ 0 < s.eventFd then
        (step d s.ring (.dequeue event)).map fun ring =>
          { s with ring, eventFd := s.eventFd - 1, waiting := false }
      else none
  | .consume =>
      if s.waiting then none
      else
        (s.ring.consume d).map fun ring =>
          { s with ring, waiting := ring.consumer.isIdle }

/-! ## What is claimed -/

/-- The producer has published, and not written to the eventfd yet. -/
def Shard.Between (s : Shard ι) (i : ι) : Prop :=
  match s.publishers i with
  | .idle => False
  | .signal _ => True
  | .enqueue _ published _ => 0 < published ∨
      ∃ batch pos index field,
        (s.ring.producers i).pc = .publish batch pos index field ∧ 0 < index

/-- The batch a producer has reserved slots for. -/
def ProducerPc.reserved : ProducerPc → Option (List Entry)
  | .publish batch _ _ _ => some batch
  | _ => none

/-- The batch a producer wants slots for. -/
def ProducerPc.wanted : ProducerPc → Option (List Entry)
  | .enter batch => some batch
  | .valid batch => some batch
  | .load batch => some batch
  | .reload batch _ => some batch
  | .cas batch _ => some batch
  | _ => none

/-- The producer has been told that the ring is full, and wants slots for
    `num` items. -/
def Shard.WaitsFor (s : Shard ι) (i : ι) (num : Nat) : Prop :=
  ∃ rest published, s.publishers i = .enqueue rest published true ∧
    (s.ring.producers i).pc.reserved = none ∧ num = (d.piece rest).length

/-- The producer spins in `EnqueueBatch`, and there is no space. -/
def Shard.Spinning (s : Shard ι) (i : ι) : Prop :=
  ∃ num, s.WaitsFor d i num ∧
    s.ring.enqueuePos + num > s.ring.dequeuePos + d.queueDepth

/-- While the worker sleeps on an eventfd without tokens: no published event is
    left in the ring unless its producer has still to signal, and nobody waits
    for space. -/
def Shard.Awake (s : Shard ι) : Prop :=
  s.waiting = true → s.eventFd = 0 →
    ((∀ i, ¬ s.Between i) → ∀ p, s.ring.dequeuePos ≤ p →
      p < s.ring.enqueuePos →
        (s.ring.slots (d.slot p)).sequence ≠ p + 1) ∧
    ∀ i, ¬ s.Spinning d i

/-- The items of a call of `PublishBatch` that are in the ring and not
    signalled. -/
def unsignalled (p : Publisher) (pc : ProducerPc) : Nat :=
  match p with
  | .idle => 0
  | .signal published => published
  | .enqueue _ published _ =>
      published + (pc.reserved.map List.length).getD 0

section Fintype

variable [Fintype ι]

def Shard.unsignalled (s : Shard ι) : Nat :=
  ∑ i, Notify.unsignalled (s.publishers i) (s.ring.producers i).pc

/-- The condition on steps.  When the worker looks at a slot, nobody is still
    publishing it.  When a producer is told that the ring is full, its piece
    fits beside what is unsignalled; and when a producer reserves slots, the
    piece of everyone who waits fits beside what is unsignalled then. -/
def Orderly (s : Shard ι) : WakeEvent ι → Prop
  | .consume => ∀ e pos, s.ring.consumer = .sequence e pos →
      ∀ i, ¬ (s.ring.producers i).pc.Own pos
  | .produce i weak =>
      (∀ batch pos, (s.ring.producers i).pc = .reload batch pos →
        used pos s.ring.dequeuePos batch.length > d.queueDepth →
          s.unsignalled + batch.length ≤ d.queueDepth) ∧
      (∀ batch pos, (s.ring.producers i).pc = .cas batch pos →
        s.ring.enqueuePos = pos → weak = false →
          ∀ j num, j ≠ i → s.WaitsFor d j num →
            s.unsignalled + batch.length + num ≤ d.queueDepth)
  | _ => True

end Fintype

/-! ## Steps of the ring -/

variable {d}

/-- What a step of a producer leaves alone. -/
structure ProduceFrame (r r' : Ring ι) (i : ι) : Prop where
  others : ∀ j, j ≠ i → r'.producers j = r.producers j
  dequeuePos : r'.dequeuePos = r.dequeuePos
  consumer : r'.consumer = r.consumer
  active : r'.active = r.active

theorem ProduceFrame.setProducer (r : Ring ι) (i : ι) (p : Producer) :
    ProduceFrame r (r.setProducer i p) i :=
  ⟨fun _ hj => Function.update_of_ne hj .., rfl, rfl, rfl⟩

/-- Everything a step of a producer can do to its call, while the ring is
    active. -/
inductive Produced (r r' : Ring ι) (i : ι) (weak : Bool) : Prop
  | wants (batch : List Entry) (h : (r.producers i).pc.wanted = some batch)
      (h' : (r'.producers i).pc.wanted = some batch)
      (pos : r'.enqueuePos = r.enqueuePos)
  | full (batch : List Entry) (pos : Nat)
      (h : (r.producers i).pc = .reload batch pos)
      (room : used pos r.dequeuePos batch.length > d.queueDepth)
      (h' : (r'.producers i).pc = .idle)
      (result : (r'.producers i).result = .full)
      (pos : r'.enqueuePos = r.enqueuePos)
  | reserves (batch : List Entry)
      (h : (r.producers i).pc = .cas batch r.enqueuePos) (strong : weak = false)
      (h' : (r'.producers i).pc = .publish batch r.enqueuePos 0 0)
      (pos : r'.enqueuePos = r.enqueuePos + batch.length)
  | writes (batch : List Entry)
      (h : (r.producers i).pc.reserved = some batch)
      (h' : (r'.producers i).pc.reserved = some batch)
      (pos : r'.enqueuePos = r.enqueuePos)
  | done (batch : List Entry)
      (h : (r.producers i).pc.reserved = some batch)
      (h' : (r'.producers i).pc = .idle)
      (result : (r'.producers i).result = .ok)
      (pos : r'.enqueuePos = r.enqueuePos)

theorem pc_setProducer (r : Ring ι) (i : ι) (p : Producer) :
    (r.setProducer i p).producers i = p :=
  Function.update_self ..

theorem produce_cases {r r' : Ring ι} {i : ι} {weak : Bool}
    (hactive : r.active = true) (hs : r.produce d i weak = some r') :
    ProduceFrame r r' i ∧ Produced (d := d) r r' i weak := by
  cases hpc : (r.producers i).pc with
  | idle => simp only [Ring.produce, hpc] at hs; cases hs
  | enter batch =>
      simp only [Ring.produce, hpc] at hs
      split at hs <;> cases hs <;>
        exact ⟨.setProducer .., .wants batch (by rw [hpc]; rfl)
          (by rw [pc_setProducer]; rfl) rfl⟩
  | valid batch =>
      simp only [Ring.produce, hpc, hactive, if_true] at hs
      cases hs
      exact ⟨.setProducer .., .wants batch (by rw [hpc]; rfl)
        (by rw [pc_setProducer]; rfl) rfl⟩
  | load batch =>
      simp only [Ring.produce, hpc] at hs
      split at hs <;> cases hs <;>
        exact ⟨.setProducer .., .wants batch (by rw [hpc]; rfl)
          (by rw [pc_setProducer]; rfl) rfl⟩
  | reload batch pos =>
      simp only [Ring.produce, hpc] at hs
      split at hs <;> cases hs
      · rename_i hroom
        exact ⟨.setProducer .., .full batch pos hpc hroom
          (by rw [pc_setProducer]) (by rw [pc_setProducer]) rfl⟩
      · exact ⟨.setProducer .., .wants batch (by rw [hpc]; rfl)
          (by rw [pc_setProducer]; rfl) rfl⟩
  | cas batch pos =>
      simp only [Ring.produce, hpc] at hs
      split at hs <;> cases hs
      · rename_i hcas
        obtain ⟨rfl, hweak⟩ := hcas
        refine ⟨⟨fun _ hj => Function.update_of_ne hj .., rfl, rfl, rfl⟩,
          .reserves batch hpc (by simpa using hweak) ?_ rfl⟩
        show (Function.update r.producers i _ i).pc = _
        rw [Function.update_self]
      · exact ⟨.setProducer .., .wants batch (by rw [hpc]; rfl)
          (by rw [pc_setProducer]; rfl) rfl⟩
  | publish batch pos index field =>
      simp only [Ring.produce, hpc] at hs
      split at hs
      · cases hs
        exact ⟨.setProducer .., .done batch (by rw [hpc]; rfl)
          (by rw [pc_setProducer]) (by rw [pc_setProducer]) rfl⟩
      · split at hs <;> cases hs <;>
          exact ⟨⟨fun _ hj => Function.update_of_ne hj .., rfl, rfl, rfl⟩,
            .writes batch (by rw [hpc]; rfl) (by rw [pc_setProducer]; rfl)
              rfl⟩

/-- Everything a step of the consumer can do, while the ring is active. -/
inductive Consumed (r r' : Ring ι) : Prop
  | goesOn (h : r'.consumer.isIdle = false)
      (pos : r'.dequeuePos = r.dequeuePos)
  | misses (event : NotifyShmEvent) (pos : Nat)
      (h : r.consumer = .sequence event pos)
      (sequence : (r.slots (d.slot pos)).sequence ≠ pos + 1)
  | delivers (event : NotifyShmEvent) (pos : Nat)
      (h : r.consumer = .advance event pos)
      (h' : r'.consumer.isIdle = true) (pos : r'.dequeuePos = pos + 1)

omit [DecidableEq ι] in
theorem consume_cases {r r' : Ring ι} (hactive : r.active = true)
    (hs : r.consume d = some r') :
    (r'.producers = r.producers ∧ r'.enqueuePos = r.enqueuePos ∧
      r'.active = r.active) ∧ Consumed (d := d) r r' := by
  cases hpc : r.consumer with
  | idle => simp only [Ring.consume, hpc] at hs; cases hs
  | valid e =>
      simp only [Ring.consume, hpc] at hs
      rw [if_pos hactive] at hs
      cases hs
      exact ⟨⟨rfl, rfl, rfl⟩, .goesOn rfl rfl⟩
  | load e =>
      simp only [Ring.consume, hpc] at hs
      cases hs
      exact ⟨⟨rfl, rfl, rfl⟩, .goesOn rfl rfl⟩
  | sequence e pos =>
      simp only [Ring.consume, hpc] at hs
      split at hs <;> cases hs
      · exact ⟨⟨rfl, rfl, rfl⟩, .goesOn rfl rfl⟩
      · rename_i hseq
        exact ⟨⟨rfl, rfl, rfl⟩, .misses e pos hpc hseq⟩
  | copy e pos field =>
      simp only [Ring.consume, hpc] at hs
      split at hs <;> cases hs <;>
        exact ⟨⟨rfl, rfl, rfl⟩, .goesOn rfl rfl⟩
  | release e pos =>
      simp only [Ring.consume, hpc] at hs
      cases hs
      exact ⟨⟨rfl, rfl, rfl⟩, .goesOn rfl rfl⟩
  | advance e pos =>
      simp only [Ring.consume, hpc] at hs
      cases hs
      exact ⟨⟨rfl, rfl, rfl⟩, .delivers e pos hpc rfl rfl⟩

/-- A call that finds its producer idle begins. -/
theorem enqueue_eq {r : Ring ι} {i : ι} {batch : List Entry}
    (hpc : (r.producers i).pc = .idle) (hpos : batch ≠ [])
    (hle : batch.length ≤ d.queueDepth) :
    r.enqueue d i batch =
      some (r.setProducer i { r.producers i with pc := .enter batch }) := by
  have hlen := List.length_pos_iff.mpr hpos
  simp only [Ring.enqueue, hpc]
  rw [if_neg (by omega)]

/-! ## Invariant -/

variable [Fintype ι]

/-- One summand changes. -/
theorem sum_change (f f' : ι → Nat) (i : ι) (h : ∀ j, j ≠ i → f' j = f j) :
    ∑ j, f' j + f i = ∑ j, f j + f' i := by
  have hrest : ∑ j ∈ Finset.univ.erase i, f' j =
      ∑ j ∈ Finset.univ.erase i, f j :=
    Finset.sum_congr rfl fun j hj => h j (Finset.ne_of_mem_erase hj)
  rw [← Finset.add_sum_erase _ f (Finset.mem_univ i),
    ← Finset.add_sum_erase _ f' (Finset.mem_univ i), hrest]
  omega

/-- The call of `TryEnqueueBatch` that a producer is in. -/
def InCall (d : Depth) (p : Publisher) (pc : ProducerPc) : Prop :=
  match p with
  | .enqueue rest _ _ => rest ≠ [] ∧
      (pc.wanted = some (d.piece rest) ∨ pc.reserved = some (d.piece rest))
  | _ => pc = .idle

structure WakeInv (d : Depth) (s : Shard ι) : Prop where
  ring : Inv d s.ring
  active : s.ring.active = true
  calls : ∀ i, InCall d (s.publishers i) (s.ring.producers i).pc
  worker : s.ring.consumer.isIdle = s.waiting
  tokens : s.ring.enqueuePos = s.ring.dequeuePos + s.eventFd +
    (if s.waiting then 0 else 1) + s.unsignalled
  room : ∀ i num, s.WaitsFor d i num → s.unsignalled + num ≤ d.queueDepth

omit [DecidableEq ι] in
theorem WakeInv.init : WakeInv d (Shard.init : Shard ι) := by
  refine ⟨Inv.init, rfl, fun _ => rfl, rfl, ?_, ?_⟩
  · have : (Shard.init : Shard ι).unsignalled = 0 :=
      Finset.sum_eq_zero fun i _ => rfl
    rw [this]
    rfl
  · rintro i num ⟨rest, published, h, -⟩
    cases h

theorem ProducerPc.wanted_reserved {pc : ProducerPc} {batch : List Entry}
    (h : pc.wanted = some batch) : pc.reserved = none ∧ pc ≠ .idle := by
  cases pc <;> simp [ProducerPc.wanted, ProducerPc.reserved] at h ⊢

theorem ProducerPc.reserved_wanted {pc : ProducerPc} {batch : List Entry}
    (h : pc.reserved = some batch) : pc.wanted = none ∧ pc ≠ .idle := by
  cases pc <;> simp [ProducerPc.wanted, ProducerPc.reserved] at h ⊢

/-- A step that concerns one publisher: what has to be shown of it. -/
theorem WakeInv.update {s s' : Shard ι} (h : WakeInv d s) (i : ι)
    (hring : Inv d s'.ring) (hactive : s'.ring.active = true)
    (hconsumer : s'.ring.consumer = s.ring.consumer)
    (hwaiting : s'.waiting = s.waiting)
    (hdeq : s'.ring.dequeuePos = s.ring.dequeuePos)
    (hpub : ∀ j, j ≠ i → s'.publishers j = s.publishers j)
    (hprod : ∀ j, j ≠ i → s'.ring.producers j = s.ring.producers j)
    (hcall : InCall d (s'.publishers i) (s'.ring.producers i).pc)
    (htokens : s'.ring.enqueuePos + s.eventFd +
        unsignalled (s.publishers i) (s.ring.producers i).pc =
      s.ring.enqueuePos + s'.eventFd +
        unsignalled (s'.publishers i) (s'.ring.producers i).pc)
    (hroom : ∀ num, s'.WaitsFor d i num →
      s'.unsignalled + num ≤ d.queueDepth)
    (hothers : ∀ j num, j ≠ i → s.WaitsFor d j num →
      s'.unsignalled + num ≤ d.queueDepth) :
    WakeInv d s' := by
  refine ⟨hring, hactive, ?_, by rw [hconsumer, hwaiting, h.worker], ?_, ?_⟩
  · intro j
    by_cases hj : j = i
    · subst hj
      exact hcall
    · rw [hpub j hj, hprod j hj]
      exact h.calls j
  · have hsum := sum_change (fun j => unsignalled (s.publishers j)
        (s.ring.producers j).pc)
      (fun j => unsignalled (s'.publishers j) (s'.ring.producers j).pc)
      i (fun j hj => by simp only [hpub j hj, hprod j hj])
    have htok := h.tokens
    simp only [Shard.unsignalled] at htok ⊢
    rw [hdeq, hwaiting]
    omega
  · intro j num hw
    by_cases hj : j = i
    · subst hj
      exact hroom num hw
    · refine hothers j num hj ?_
      obtain ⟨rest, published, hp, hres, hnum⟩ := hw
      rw [hpub j hj] at hp
      rw [hprod j hj] at hres
      exact ⟨rest, published, hp, hres, hnum⟩

/-- A step that concerns one publisher and leaves what it has in the ring
    unsignalled. -/
theorem WakeInv.quiet {s s' : Shard ι} (h : WakeInv d s) (i : ι)
    (hring : Inv d s'.ring) (hframe : ProduceFrame s.ring s'.ring i)
    (hpos : s'.ring.enqueuePos = s.ring.enqueuePos)
    (hwaiting : s'.waiting = s.waiting) (hfd : s'.eventFd = s.eventFd)
    (hpub : ∀ j, j ≠ i → s'.publishers j = s.publishers j)
    (hcall : InCall d (s'.publishers i) (s'.ring.producers i).pc)
    (hun : unsignalled (s'.publishers i) (s'.ring.producers i).pc =
      unsignalled (s.publishers i) (s.ring.producers i).pc)
    (hroom : ∀ num, s'.WaitsFor d i num →
      s.unsignalled + num ≤ d.queueDepth) : WakeInv d s' := by
  have hU : s'.unsignalled = s.unsignalled := by
    refine Finset.sum_congr rfl fun j _ => ?_
    by_cases hj : j = i
    · subst hj
      exact hun
    · rw [hpub j hj, hframe.others j hj]
  refine h.update i hring (hframe.active.trans h.active) hframe.consumer
    hwaiting hframe.dequeuePos hpub hframe.others hcall ?_ ?_ ?_
  · rw [hun, hpos, hfd]
  · rw [hU]
    exact hroom
  · intro j num _ hw
    rw [hU]
    exact h.room j num hw

theorem Depth.length_piece_le (d : Depth) (rest : List Entry) :
    (d.piece rest).length ≤ d.queueDepth :=
  List.length_take_le ..

theorem Depth.piece_ne_nil (d : Depth) {rest : List Entry} (h : rest ≠ []) :
    d.piece rest ≠ [] := by
  have hpos := d.pos
  have hlen := List.length_pos_iff.mpr h
  rw [← List.length_pos_iff, Depth.piece, List.length_take]
  omega

/-- The next round of `EnqueueBatch`, from a producer that has nothing reserved;
    the ring is the one the last round has left. -/
theorem WakeInv.enqueueBatch {s s' : Shard ι} {ring : Ring ι}
    (h : WakeInv d s) {i : ι} {rest : List Entry} {published : Nat}
    {full : Bool} (hring : Inv d ring) (hframe : ProduceFrame s.ring ring i)
    (hpos : ring.enqueuePos = s.ring.enqueuePos)
    (hidle : (ring.producers i).pc = .idle) (hrest : rest ≠ [])
    (hsame : unsignalled (s.publishers i) (s.ring.producers i).pc = published)
    (hfull : full = true →
      s.unsignalled + (d.piece rest).length ≤ d.queueDepth)
    (hs : Shard.enqueueBatch d { s with ring } i rest published full =
      some s') : WakeInv d s' := by
  have heq := enqueue_eq hidle (d.piece_ne_nil hrest)
    (d.length_piece_le rest)
  obtain ⟨ring', hring', rfl⟩ := Option.map_eq_some_iff.mp hs
  obtain rfl := Option.some.inj (heq.symm.trans hring')
  have hnew := pc_setProducer ring i
    { ring.producers i with pc := .enter (d.piece rest) }
  refine h.quiet i (hring.enqueue heq) ?_ hpos rfl rfl
    (fun j hj => Function.update_of_ne hj ..) ?_ ?_ ?_
  · refine ⟨fun j hj => ?_, hframe.dequeuePos, hframe.consumer,
      hframe.active⟩
    rw [ProduceFrame.others (.setProducer ..) j hj, hframe.others j hj]
  · simp only [hnew, Function.update_self]
    exact ⟨hrest, .inl rfl⟩
  · simp only [hnew, hsame, Function.update_self]
    rfl
  · rintro num ⟨rest', published', hp, -, rfl⟩
    simp only [Function.update_self] at hp
    cases hp
    exact hfull rfl

/-- A step within a call that does not change what is reserved. -/
theorem WakeInv.stays {s : Shard ι} {ring : Ring ι} (h : WakeInv d s) {i : ι}
    (hring : Inv d ring) (hframe : ProduceFrame s.ring ring i)
    (hpos : ring.enqueuePos = s.ring.enqueuePos)
    (hcall : InCall d (s.publishers i) (ring.producers i).pc)
    (hreserved : (ring.producers i).pc.reserved =
      (s.ring.producers i).pc.reserved) :
    WakeInv d { s with ring } := by
  refine h.quiet i hring hframe hpos rfl rfl (fun _ _ => rfl) hcall ?_ ?_
  · simp only [unsignalled, hreserved]
  · rintro num ⟨rest, published, hp, hres, hnum⟩
    refine h.room i num ⟨rest, published, hp, ?_, hnum⟩
    rw [← hreserved]
    exact hres

omit [Fintype ι] in
theorem enqueue_enqueuePos {r r' : Ring ι} {i : ι} {batch : List Entry}
    (hs : r.enqueue d i batch = some r') : r'.enqueuePos = r.enqueuePos := by
  simp only [Ring.enqueue] at hs
  split at hs
  · split at hs <;> cases hs <;> rfl
  · cases hs

omit [Fintype ι] in
theorem returned_enqueuePos {s s' : Shard ι} {i : ι} {rest : List Entry}
    {published : Nat} (hs : s.returned d i rest published = some s') :
    s'.ring.enqueuePos = s.ring.enqueuePos := by
  have hround : ∀ {rest published full},
      s.enqueueBatch d i rest published full = some s' →
        s'.ring.enqueuePos = s.ring.enqueuePos := by
    intro rest published full hs
    obtain ⟨ring, hring, rfl⟩ := Option.map_eq_some_iff.mp hs
    exact enqueue_enqueuePos hring
  simp only [Shard.returned] at hs
  split at hs
  · exact hround hs
  · split at hs
    · cases hs
      rfl
    · exact hround hs
  · cases hs
    rfl

omit [Fintype ι] in
/-- A step of a producer is one of its call, and then what follows if the call
    has returned. -/
theorem shard_produce_cases {s s' : Shard ι} {i : ι} {weak : Bool}
    (hs : s.produce d i weak = some s') :
    ∃ rest published full ring, s.publishers i = .enqueue rest published full ∧
      s.ring.produce d i weak = some ring ∧
      s'.ring.enqueuePos = ring.enqueuePos ∧
      ((ring.producers i).pc = .idle →
        Shard.returned d { s with ring } i rest published = some s') ∧
      ((ring.producers i).pc ≠ .idle → s' = { s with ring }) := by
  simp only [Shard.produce] at hs
  split at hs
  · rename_i rest published full hp
    obtain ⟨ring, hring, hs⟩ := Option.bind_eq_some_iff.mp hs
    split at hs
    · rename_i hpc
      exact ⟨rest, published, full, ring, hp, hring, returned_enqueuePos hs,
        fun _ => hs, fun hne => absurd hpc hne⟩
    · rename_i hpc
      cases hs
      exact ⟨rest, published, full, ring, hp, hring, rfl,
        fun heq => absurd heq hpc, fun _ => rfl⟩
  · cases hs

theorem WakeInv.produce {s s' : Shard ι} (h : WakeInv d s) {i : ι}
    {weak : Bool} (hG : Orderly d s (.produce i weak))
    (hs : s.produce d i weak = some s')
    (hbound : s'.ring.enqueuePos < 2 ^ 63) : WakeInv d s' := by
  obtain ⟨rest, published, full, ring, hp, hring, hpos, hidled, hstays⟩ :=
    shard_produce_cases hs
  obtain ⟨hframe, hcase⟩ := produce_cases h.active hring
  have hinv : Inv d ring := h.ring.produce hring (by omega)
  have hcall := h.calls i
  rw [hp] at hcall
  obtain ⟨hrest, hin⟩ := hcall
  cases hcase with
  | wants batch hw hw' hsame =>
      obtain ⟨hres, -⟩ := ProducerPc.wanted_reserved hw
      obtain ⟨hres', hidle⟩ := ProducerPc.wanted_reserved hw'
      obtain rfl := hstays hidle
      refine h.stays hinv hframe hsame ?_ (by rw [hres, hres'])
      rw [hp]
      refine ⟨hrest, .inl ?_⟩
      obtain hin | hin := hin
      · rw [hw', ← hw, hin]
      · rw [hres] at hin
        cases hin
  | full batch pos hpc hroom hidle hresult hsame =>
      have hafter := hidled hidle
      have hw : (s.ring.producers i).pc.wanted = some batch := by
        rw [hpc]
        rfl
      have hres := (ProducerPc.wanted_reserved hw).1
      have hbatch : batch = d.piece rest := by
        obtain hin | hin := hin
        · rw [hw] at hin
          exact Option.some.inj hin
        · rw [hres] at hin
          cases hin
      simp only [Shard.returned, hresult] at hafter
      refine h.enqueueBatch hinv hframe hsame hidle hrest ?_ ?_ hafter
      · rw [hp]
        simp only [unsignalled, hres]
        rfl
      · intro _
        rw [← hbatch]
        exact hG.1 batch pos hpc hroom
  | reserves batch hpc hstrong hpc' hpos' =>
      have hbatch : batch = d.piece rest := by
        obtain hin | hin := hin
        · rw [hpc] at hin
          exact Option.some.inj hin
        · rw [hpc] at hin
          cases hin
      obtain rfl := hstays (by rw [hpc']; nofun)
      have hbefore : unsignalled (s.publishers i) (s.ring.producers i).pc =
          published := by
        rw [hp, hpc]
        rfl
      have hun : unsignalled (s.publishers i) (ring.producers i).pc =
          published + batch.length := by
        rw [hp, hpc']
        rfl
      have hU : Shard.unsignalled { s with ring } =
          s.unsignalled + batch.length := by
        have hsum := sum_change
          (fun j => unsignalled (s.publishers j) (s.ring.producers j).pc)
          (fun j => unsignalled (s.publishers j) (ring.producers j).pc)
          i (fun j hj => by rw [hframe.others j hj])
        simp only [Shard.unsignalled, hbefore, hun] at hsum ⊢
        omega
      refine h.update i hinv (hframe.active.trans h.active) hframe.consumer
        rfl hframe.dequeuePos (fun _ _ => rfl) hframe.others ?_ ?_ ?_ ?_
      · show InCall d (s.publishers i) (ring.producers i).pc
        rw [hp, hpc', hbatch]
        exact ⟨hrest, .inr rfl⟩
      · show ring.enqueuePos + s.eventFd + _ = s.ring.enqueuePos + s.eventFd +
          unsignalled (s.publishers i) (ring.producers i).pc
        rw [hun, hbefore, hpos']
        omega
      · rintro num ⟨rest', published', -, hres, -⟩
        have hres' : (ring.producers i).pc.reserved = none := hres
        rw [hpc'] at hres'
        cases hres'
      · intro j num hj hw
        rw [hU]
        exact hG.2 batch _ hpc rfl hstrong j num hj hw
  | writes batch hr hr' hsame =>
      obtain rfl := hstays (ProducerPc.reserved_wanted hr').2
      refine h.stays hinv hframe hsame ?_ (by rw [hr, hr'])
      rw [hp]
      refine ⟨hrest, .inr ?_⟩
      obtain hin | hin := hin
      · rw [(ProducerPc.reserved_wanted hr).1] at hin
        cases hin
      · rw [hr', ← hr, hin]
  | done batch hr hidle hresult hsame =>
      have hafter := hidled hidle
      have hbatch : batch = d.piece rest := by
        obtain hin | hin := hin
        · rw [(ProducerPc.reserved_wanted hr).1] at hin
          cases hin
        · rw [hr] at hin
          exact Option.some.inj hin
      have hbefore : unsignalled (s.publishers i) (s.ring.producers i).pc =
          published + (d.piece rest).length := by
        rw [hp, ← hbatch]
        simp only [unsignalled, hr]
        rfl
      simp only [Shard.returned, hresult] at hafter
      split at hafter
      · cases hafter
        refine h.quiet i hinv hframe hsame rfl rfl
          (fun j hj => Function.update_of_ne hj ..) ?_ ?_ ?_
        · simp only [Function.update_self]
          exact hidle
        · simp only [hbefore, Function.update_self]
          rfl
        · rintro num ⟨rest', published', hp', -⟩
          simp only [Function.update_self] at hp'
          cases hp'
      · rename_i hmore
        refine h.enqueueBatch hinv hframe hsame hidle ?_ hbefore
          (by intro hf; cases hf) hafter
        intro hnil
        have := congrArg List.length hnil
        rw [List.length_drop, List.length_nil] at this
        omega

omit [DecidableEq ι] in
/-- **TOKENS ARE NOT LOST**: a look at the ring finds the event that the token
    stands for, when nobody is still publishing it. -/
theorem WakeInv.consume {s : Shard ι} {ring : Ring ι} (h : WakeInv d s)
    (hG : Orderly d s .consume) (hwaiting : s.waiting = false)
    (hs : s.ring.consume d = some ring) :
    WakeInv d { s with ring, waiting := ring.consumer.isIdle } := by
  obtain ⟨⟨hprod, hpos, hact⟩, hcase⟩ := consume_cases h.active hs
  have hU : Shard.unsignalled
      { s with ring, waiting := ring.consumer.isIdle } = s.unsignalled := by
    simp only [Shard.unsignalled, hprod]
  have htok := h.tokens
  rw [hwaiting] at htok
  simp only [Bool.false_eq_true, if_false] at htok
  have hdone : ring.dequeuePos + (if ring.consumer.isIdle then 0 else 1) =
      s.ring.dequeuePos + 1 := by
    cases hcase with
    | goesOn hgo hdeq =>
        rw [hgo, hdeq]
        rfl
    | misses e pos hpc hseq =>
        -- the slot is reserved, since a token is out for it
        exfalso
        have hc := h.ring.consumer
        rw [hpc] at hc
        have hpos' : pos = s.ring.dequeuePos := hc
        have hlow : s.ring.low = s.ring.dequeuePos := by
          simp only [Ring.low, hpc]
        exact hseq (h.ring.slots.published (by omega) (by omega)
          (hG e pos hpc)).1
    | delivers e pos hpc hidle hdeq =>
        have hc := h.ring.consumer
        rw [hpc] at hc
        have hpos' : pos = s.ring.dequeuePos := hc.1
        rw [hidle, hdeq, hpos']
        rfl
  refine ⟨h.ring.consume hs, hact.trans h.active, ?_, rfl, ?_, ?_⟩
  · intro i
    show InCall d (s.publishers i) (ring.producers i).pc
    rw [hprod]
    exact h.calls i
  · rw [hU]
    show ring.enqueuePos = ring.dequeuePos + s.eventFd +
      (if ring.consumer.isIdle then 0 else 1) + s.unsignalled
    omega
  · rintro i num ⟨rest, published, hp, hres, hnum⟩
    rw [hU]
    refine h.room i num ⟨rest, published, hp, ?_, hnum⟩
    simp only [hprod] at hres
    exact hres

theorem WakeInv.step {s s' : Shard ι} {e : WakeEvent ι} (h : WakeInv d s)
    (hG : Orderly d s e) (hs : wakeStep d s e = some s')
    (hbound : s'.ring.enqueuePos < 2 ^ 63) : WakeInv d s' := by
  cases e with
  | publish i items =>
      simp only [wakeStep] at hs
      split at hs
      · rename_i hp
        split at hs
        · cases hs
          exact h
        · rename_i hitems
          have hcall := h.calls i
          rw [hp] at hcall
          refine h.enqueueBatch h.ring ⟨fun _ _ => rfl, rfl, rfl, rfl⟩ rfl
            hcall ?_ (by rw [hp]; rfl) (by intro hf; cases hf) hs
          rintro rfl
          exact hitems rfl
      · cases hs
  | produce i weak => exact h.produce hG hs hbound
  | signal i =>
      simp only [wakeStep] at hs
      split at hs
      · rename_i published hp
        cases hs
        have hcall := h.calls i
        rw [hp] at hcall
        have hsum := sum_change
          (fun j => unsignalled (s.publishers j) (s.ring.producers j).pc)
          (fun j => unsignalled (Function.update s.publishers i .idle j)
            (s.ring.producers j).pc) i
          (fun j hj => by simp only [Function.update_of_ne hj])
        have hle : Shard.unsignalled { s with
            publishers := Function.update s.publishers i .idle
            eventFd := s.eventFd + published } ≤ s.unsignalled := by
          simp only [Function.update_self, hp, unsignalled] at hsum
          simp only [Shard.unsignalled, unsignalled]
          omega
        refine h.update i h.ring h.active rfl rfl rfl
          (fun j hj => Function.update_of_ne hj ..) (fun _ _ => rfl) ?_ ?_ ?_
          ?_
        · simp only [Function.update_self]
          exact hcall
        · simp only [Function.update_self, hp, unsignalled]
          omega
        · rintro num ⟨rest, published', hp', -⟩
          simp only [Function.update_self] at hp'
          cases hp'
        · intro j num _ hw
          have := h.room j num hw
          omega
      · cases hs
  | wait event =>
      simp only [wakeStep] at hs
      split at hs
      · rename_i hw
        obtain ⟨hwaiting, hfd⟩ := hw
        obtain ⟨ring, hring, rfl⟩ := Option.map_eq_some_iff.mp hs
        have hinv := h.ring.step hring hbound
        simp only [Notify.step] at hring
        split at hring
        · cases hring
          have htok := h.tokens
          rw [hwaiting, if_pos rfl] at htok
          refine ⟨hinv, h.active, h.calls, rfl, ?_, h.room⟩
          show s.ring.enqueuePos = s.ring.dequeuePos + (s.eventFd - 1) + 1 +
            s.unsignalled
          omega
        · cases hring
      · cases hs
  | consume =>
      simp only [wakeStep] at hs
      split at hs
      · cases hs
      · rename_i hw
        obtain ⟨ring, hring, rfl⟩ := Option.map_eq_some_iff.mp hs
        exact h.consume hG (by simpa using hw) hring

/-! ## Results -/

omit [Fintype ι] in
theorem wakeStep_enqueuePos_le {s s' : Shard ι} {e : WakeEvent ι}
    (hs : wakeStep d s e = some s') :
    s.ring.enqueuePos ≤ s'.ring.enqueuePos := by
  cases e with
  | publish i items =>
      simp only [wakeStep] at hs
      split at hs
      · split at hs
        · cases hs
          exact le_refl _
        · obtain ⟨ring, hring, rfl⟩ := Option.map_eq_some_iff.mp hs
          exact le_of_eq (enqueue_enqueuePos hring).symm
      · cases hs
  | produce i weak =>
      obtain ⟨_, _, _, ring, -, hring, hpos, -⟩ := shard_produce_cases hs
      rw [hpos]
      obtain h | ⟨_, -, h⟩ := produce_enqueuePos hring <;> omega
  | signal i =>
      simp only [wakeStep] at hs
      split at hs <;> cases hs
      exact le_refl _
  | wait event =>
      simp only [wakeStep] at hs
      split at hs
      · obtain ⟨ring, hring, rfl⟩ := Option.map_eq_some_iff.mp hs
        show s.ring.enqueuePos ≤ ring.enqueuePos
        obtain h | ⟨_, _, -, h⟩ := step_enqueuePos hring <;> omega
      · cases hs
  | consume =>
      simp only [wakeStep] at hs
      split at hs
      · cases hs
      · obtain ⟨ring, hring, rfl⟩ := Option.map_eq_some_iff.mp hs
        show s.ring.enqueuePos ≤ ring.enqueuePos
        obtain h | ⟨_, _, -, h⟩ :=
          step_enqueuePos (d := d) (e := .consume) hring <;> omega

/-- The positions that a producer is about to publish, when it has published
    nothing yet. -/
def ProducerPc.range : ProducerPc → Finset Nat
  | .publish batch pos _ _ => Finset.Ico pos (pos + batch.length)
  | _ => ∅

omit [DecidableEq ι] in
/-- When nobody is between publishing and signalling, all that is unsignalled
    is still to be published. -/
theorem WakeInv.unpublished {s : Shard ι} (h : WakeInv d s)
    (hnone : ∀ i, ¬ s.Between i) (i : ι) :
    unsignalled (s.publishers i) (s.ring.producers i).pc =
        (s.ring.producers i).pc.range.card ∧
      ∀ p, p ∈ (s.ring.producers i).pc.range →
        (s.ring.producers i).pc.Own p := by
  have hi := hnone i
  have hcall := h.calls i
  simp only [Shard.Between] at hi
  cases hp : s.publishers i with
  | idle =>
      rw [hp] at hcall
      have hidle : (s.ring.producers i).pc = .idle := hcall
      rw [hidle]
      exact ⟨rfl, nofun⟩
  | signal published =>
      rw [hp] at hi
      exact absurd trivial hi
  | enqueue rest published full =>
      rw [hp] at hi
      obtain ⟨hpub, hindex⟩ := not_or.mp hi
      cases hpc : (s.ring.producers i).pc with
      | publish batch pos index field =>
          have hzero : index = 0 := by
            by_contra hne
            exact hindex ⟨batch, pos, index, field, hpc, by omega⟩
          subst hzero
          refine ⟨?_, ?_⟩
          · simp only [unsignalled, ProducerPc.reserved, ProducerPc.range,
              Nat.card_Ico, Option.map_some, Option.getD_some]
            omega
          · intro p hmem
            exact Finset.mem_Ico.mp hmem
      | _ =>
          refine ⟨?_, nofun⟩
          simp only [unsignalled, ProducerPc.reserved, ProducerPc.range,
            Finset.card_empty, Option.map_none, Option.getD_none]
          omega

omit [DecidableEq ι] in
/-- What the invariant says of a sleeping worker. -/
theorem WakeInv.awake {s : Shard ι} (h : WakeInv d s) : s.Awake d := by
  intro hwaiting hfd
  have htok := h.tokens
  rw [hwaiting, hfd, if_pos rfl] at htok
  have hlow : s.ring.low = s.ring.dequeuePos := by
    have hw := h.worker
    rw [hwaiting] at hw
    unfold Ring.low
    split
    · rename_i heq
      rw [heq] at hw
      cases hw
    · rfl
  constructor
  · -- the unpublished positions fill the ring, so none is left over
    intro hnone p hge hlt hseq
    have hun := fun i => h.unpublished hnone i
    have hcard : (Finset.univ.biUnion fun i =>
        (s.ring.producers i).pc.range).card = s.unsignalled := by
      rw [Finset.card_biUnion]
      · exact Finset.sum_congr rfl fun i _ => (hun i).1.symm
      · intro i _ j _ hij
        refine Finset.disjoint_left.mpr fun q hqi hqj => hij ?_
        exact h.ring.slots.once ((hun i).2 q hqi) ((hun j).2 q hqj)
    have hsub : (Finset.univ.biUnion fun i =>
        (s.ring.producers i).pc.range) ⊆
          Finset.Ico s.ring.dequeuePos s.ring.enqueuePos := by
      intro q hq
      obtain ⟨i, -, hq⟩ := Finset.mem_biUnion.mp hq
      obtain ⟨h1, h2, -⟩ := h.ring.slots.owned (i := i) ((hun i).2 q hq)
      exact Finset.mem_Ico.mpr ⟨by omega, h2⟩
    have hall := Finset.eq_of_subset_of_card_le hsub (by
      rw [hcard, Nat.card_Ico]
      omega)
    have hp : p ∈ Finset.Ico s.ring.dequeuePos s.ring.enqueuePos :=
      Finset.mem_Ico.mpr ⟨hge, hlt⟩
    rw [← hall] at hp
    obtain ⟨i, -, hp⟩ := Finset.mem_biUnion.mp hp
    have := (h.ring.slots.owned (i := i) ((hun i).2 p hp)).2.2
    omega
  · rintro i ⟨num, hw, hfull⟩
    have := h.room i num hw
    omega

/-- **THE SUBSCRIBER IS WOKEN**: in every run whose steps are orderly, and that
    keeps its positions below `2 ^ 63`, a worker that sleeps without a token
    leaves no published event behind, and nobody waits for space. -/
theorem awake_of_orderly_run (es : List (WakeEvent ι)) (s : Shard ι)
    (hrun : runFrom (wakeStep d) Shard.init es = some s)
    (horderly : Along (wakeStep d) (Orderly d) Shard.init es)
    (hbound : s.ring.enqueuePos < 2 ^ 63) : s.Awake d := by
  have hinv : WakeInv d s := by
    refine runFrom_invariant_along
      (I := fun s => s.ring.enqueuePos < 2 ^ 63 → WakeInv d s) ?_ es
      Shard.init s (fun _ => WakeInv.init) horderly hrun hbound
    intro s e s' hI hG hs hlt
    have hle := wakeStep_enqueuePos_le hs
    exact WakeInv.step (hI (by omega)) hG hs hlt
  exact hinv.awake

/-- A check for one producer: it never finds the ring full, and has published
    when the worker looks. -/
def calm (s : Shard Unit) : WakeEvent Unit → Bool
  | .produce _ _ =>
      match (s.ring.producers ()).pc with
      | .reload _ _ => false
      | _ => true
  | .consume => (s.ring.producers ()).pc.reserved.isNone
  | _ => true

theorem orderly_of_calm (s : Shard Unit) (e : WakeEvent Unit)
    (h : calm s e = true) : Orderly d s e := by
  cases e with
  | produce i weak =>
      refine ⟨?_, fun batch pos _ _ _ j num hj => absurd rfl hj⟩
      intro batch pos hpc
      simp only [calm, hpc] at h
      cases h
  | consume =>
      intro e pos _ i hi
      cases hpc : (s.ring.producers ()).pc with
      | publish batch pos index field =>
          simp only [calm, hpc] at h
          cases h
      | _ =>
          rw [hpc] at hi
          exact hi
  | _ => trivial

/-- One item is published, signalled and delivered. -/
def sampleWake : List (WakeEvent Unit) :=
  [[.publish () [sampleItem]], List.replicate 10 (.produce () false),
    [.signal (), .wait ⟨0, 0, 0, []⟩], List.replicate 10 .consume].flatten

theorem awake_of_orderly_run_sample :
    ∃ s, runFrom (wakeStep smallest) Shard.init sampleWake = some s ∧
      s.ring.dequeued = [sampleItem.toNotice] ∧ s.Awake smallest := by
  have hrun : (runFrom (wakeStep smallest) Shard.init sampleWake).map
      (fun s => (s.ring.enqueuePos, s.ring.dequeued)) =
        some (1, [sampleItem.toNotice]) := by decide +kernel
  obtain ⟨s, hs, heq⟩ := Option.map_eq_some_iff.mp hrun
  have hpos : s.ring.enqueuePos = 1 := congrArg Prod.fst heq
  have hcalm : alongB (wakeStep smallest) calm Shard.init sampleWake =
      true := by decide +kernel
  have horderly := along_of_alongB (G := Orderly smallest) orderly_of_calm
    sampleWake Shard.init hcalm
  exact ⟨s, hs, congrArg Prod.snd heq,
    awake_of_orderly_run sampleWake s hs horderly (by omega)⟩

/-- Two producers, one item each.  The first reserves its slot, the second
    publishes and signals; the worker spends the token on the first slot, which
    is not published yet.  Then the first publishes and signals, and the worker
    delivers its item. -/
def lostToken : List (WakeEvent Bool) :=
  [[.publish false [sampleItem]], List.replicate 4 (.produce false false),
    [.publish true [sampleItem]], List.replicate 10 (.produce true false),
    [.signal true, .wait ⟨0, 0, 0, []⟩], List.replicate 3 .consume,
    List.replicate 6 (.produce false false),
    [.signal false, .wait ⟨0, 0, 0, []⟩], List.replicate 10 .consume].flatten

def Publisher.isIdle : Publisher → Bool
  | .idle => true
  | _ => false

/-- The second item stays in the ring, and the worker sleeps. -/
theorem lost_token_strands_event :
    ∃ s, runFrom (wakeStep smallest) Shard.init lostToken = some s ∧
      ¬ s.Awake smallest := by
  have hrun : (runFrom (wakeStep smallest) Shard.init lostToken).map
      (fun s => decide (s.waiting = true ∧ s.eventFd = 0 ∧
        s.ring.dequeuePos = 1 ∧ s.ring.enqueuePos = 2 ∧
        (s.ring.slots (smallest.slot 1)).sequence = 2 ∧
        ∀ i, (s.publishers i).isIdle = true)) = some true := by decide +kernel
  obtain ⟨s, hs, hend⟩ := Option.map_eq_some_iff.mp hrun
  obtain ⟨hwaiting, hfd, hdeq, henq, hseq, hidle⟩ := of_decide_eq_true hend
  refine ⟨s, hs, fun hawake => ?_⟩
  refine (hawake hwaiting hfd).1 ?_ 1 (by omega) (by omega) hseq
  intro i hi
  have hp := hidle i
  cases hpub : s.publishers i with
  | idle =>
      simp only [Shard.Between, hpub] at hi
  | _ =>
      rw [hpub] at hp
      cases hp

end UbsIo.Notify
