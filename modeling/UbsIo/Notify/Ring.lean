import UbsIo.Lib.Run

/-! # The notification ring

    `NotifyShmQueue`: a ring of slots in shared memory, which any number of
    producers fill and one consumer empties.  Producers reserve positions by
    moving `enqueuePos`, and publish each slot by its `sequence`; the consumer
    frees a slot through `sequence` as well, and only then moves `dequeuePos`.

    Every load, store and compare-and-swap is a step of its own, and so is
    every field of an event that is written or copied.  Positions are natural
    numbers here, as they are in the code as long as they stay below `2 ^ 63`;
    only the subtraction in the check for space can wrap. -/

namespace UbsIo.Notify

open UbsIo.Lib

/-! ## Model -/

/-- `MAX_KEY_SIZE`. -/
def maxKeySize : Nat := 32

/-- `IsValidDepth`. -/
def isValidDepth (queueDepth : Nat) : Bool :=
  decide (1024 ≤ queueDepth) && queueDepth &&& (queueDepth - 1) == 0

/-- A depth that `Initialize` accepts, of 32 bits. -/
structure Depth where
  queueDepth : Nat
  valid : isValidDepth queueDepth = true
  lt : queueDepth < 2 ^ 32

/-- What a subscriber is told. -/
structure Notice where
  enqueueTimeNs : UInt64
  opType : UInt16
  key : List UInt8
deriving DecidableEq

/-- `NotifyShmPublishItem`, with the time it is enqueued at. -/
structure Entry extends Notice where
  keyLen_pos : 0 < key.length
  keyLen_lt : key.length < maxKeySize
deriving DecidableEq

/-- `NotifyShmEvent`. -/
structure NotifyShmEvent where
  enqueueTimeNs : UInt64
  keyLen : Nat
  opType : UInt16
  key : List UInt8
deriving DecidableEq

/-- The event as the callback of the subscriber gets it. -/
def NotifyShmEvent.notice (e : NotifyShmEvent) : Notice :=
  ⟨e.enqueueTimeNs, e.opType, e.key.take e.keyLen⟩

/-- `NotifyShmSlot`. -/
structure NotifyShmSlot where
  sequence : Nat
  event : NotifyShmEvent

/-- `NotifyShmResult`. -/
inductive NotifyShmResult where
  | ok
  | empty
  | full
  | closed
deriving DecidableEq

/-- Where a producer is within `TryEnqueueBatch`. -/
inductive ProducerPc where
  | idle
  | enter (batch : List Entry)
  | valid (batch : List Entry)
  | load (batch : List Entry)
  | reload (batch : List Entry) (pos : Nat)
  | cas (batch : List Entry) (pos : Nat)
  | publish (batch : List Entry) (pos index field : Nat)

/-- A producer: its context, and what its last call has returned. -/
structure Producer where
  pc : ProducerPc
  attached : Bool
  cachedDequeuePos : Nat
  result : NotifyShmResult

/-- Where the consumer is within `DequeueSingleConsumer`. -/
inductive ConsumerPc where
  | idle
  | valid (event : NotifyShmEvent)
  | load (event : NotifyShmEvent)
  | sequence (event : NotifyShmEvent) (pos : Nat)
  | copy (event : NotifyShmEvent) (pos field : Nat)
  | release (event : NotifyShmEvent) (pos : Nat)
  | advance (event : NotifyShmEvent) (pos : Nat)

/-- The ring in memory, its users, every batch with the position reserved for
    it, and what the consumer has dequeued. -/
structure Ring (ι : Type) where
  active : Bool
  enqueuePos : Nat
  dequeuePos : Nat
  slots : Nat → NotifyShmSlot
  producers : ι → Producer
  consumer : ConsumerPc
  result : NotifyShmResult
  log : List (Nat × List Entry)
  dequeued : List Notice

variable {ι : Type} [DecidableEq ι] (d : Depth)

/-- `Initialize`. -/
def Ring.init : Ring ι where
  active := true
  enqueuePos := 0
  dequeuePos := 0
  slots index := ⟨index, 0, 0, 0, []⟩
  producers _ := ⟨.idle, false, 0, .ok⟩
  consumer := .idle
  result := .ok
  log := []
  dequeued := []

/-- `pos & queueMask`. -/
def Depth.slot (pos : Nat) : Nat := pos &&& (d.queueDepth - 1)

/-- `pos - cachedDequeuePos + itemNum`, in 64 bits. -/
def used (pos cachedDequeuePos itemNum : Nat) : Nat :=
  ((pos + 2 ^ 64 - cachedDequeuePos) % 2 ^ 64 + itemNum) % 2 ^ 64

/-- One field of an event, as `PublishSlots` writes it. -/
def writeField (x : Entry) : Nat → NotifyShmEvent → NotifyShmEvent
  | 0, e => { e with enqueueTimeNs := x.enqueueTimeNs }
  | 1, e => { e with keyLen := x.key.length }
  | 2, e => { e with opType := x.opType }
  | _, e =>
      if x.key.length ≤ maxKeySize then
        { e with key := x.key ++ e.key.drop x.key.length }
      else { e with keyLen := 0 }

/-- One field of an event, as `CopyEvent` copies it. -/
def copyField (source : NotifyShmEvent) :
    Nat → NotifyShmEvent → NotifyShmEvent
  | 0, e => { e with enqueueTimeNs := source.enqueueTimeNs }
  | 1, e => { e with keyLen := source.keyLen }
  | 2, e => { e with opType := source.opType }
  | _, e =>
      if source.keyLen = 0 ∨ source.keyLen ≥ maxKeySize then
        { e with keyLen := 0 }
      else
        { e with
          key := source.key.take source.keyLen ++ e.key.drop source.keyLen }

def Ring.setProducer (r : Ring ι) (i : ι) (p : Producer) : Ring ι :=
  { r with producers := Function.update r.producers i p }

def Ring.setSlot (r : Ring ι) (pos : Nat) (slot : NotifyShmSlot) : Ring ι :=
  { r with slots := Function.update r.slots (d.slot pos) slot }

/-- The call of `TryEnqueueBatch`. -/
def Ring.enqueue (r : Ring ι) (i : ι) (batch : List Entry) :
    Option (Ring ι) :=
  match (r.producers i).pc with
  | .idle =>
      if batch.length = 0 ∨ batch.length > d.queueDepth then
        some (r.setProducer i { r.producers i with result := .full })
      else some (r.setProducer i { r.producers i with pc := .enter batch })
  | _ => none

/-- The next step of a producer; `weak` is a compare-and-swap that fails
    though the value is the expected one. -/
def Ring.produce (r : Ring ι) (i : ι) (weak : Bool) : Option (Ring ι) :=
  let p := r.producers i
  match p.pc with
  | .idle => none
  | .enter batch =>
      if p.attached then some (r.setProducer i { p with pc := .valid batch })
      else
        some (r.setProducer i
          { p with
            pc := .valid batch
            attached := true
            cachedDequeuePos := r.dequeuePos })
  | .valid batch =>
      if r.active then some (r.setProducer i { p with pc := .load batch })
      else some (r.setProducer i { p with pc := .idle, result := .closed })
  | .load batch =>
      let pos := r.enqueuePos
      if p.cachedDequeuePos > pos ∨
          used pos p.cachedDequeuePos batch.length > d.queueDepth then
        some (r.setProducer i { p with pc := .reload batch pos })
      else some (r.setProducer i { p with pc := .cas batch pos })
  | .reload batch pos =>
      if used pos r.dequeuePos batch.length > d.queueDepth then
        some (r.setProducer i
          { p with
            pc := .idle, cachedDequeuePos := r.dequeuePos, result := .full })
      else
        some (r.setProducer i
          { p with pc := .cas batch pos, cachedDequeuePos := r.dequeuePos })
  | .cas batch pos =>
      if r.enqueuePos = pos ∧ !weak then
        some { r.setProducer i { p with pc := .publish batch pos 0 0 } with
          enqueuePos := pos + batch.length
          log := r.log ++ [(pos, batch)] }
      else some (r.setProducer i { p with pc := .valid batch })
  | .publish batch pos index field =>
      match batch[index]? with
      | none => some (r.setProducer i { p with pc := .idle, result := .ok })
      | some x =>
          let slot := r.slots (d.slot (pos + index))
          if field < 4 then
            some ((r.setSlot d (pos + index)
                { slot with event := writeField x field slot.event }).setProducer
              i { p with pc := .publish batch pos index (field + 1) })
          else
            some ((r.setSlot d (pos + index)
                { slot with sequence := pos + index + 1 }).setProducer
              i { p with pc := .publish batch pos (index + 1) 0 })

/-- The next step of the consumer. -/
def Ring.consume (r : Ring ι) : Option (Ring ι) :=
  match r.consumer with
  | .idle => none
  | .valid event =>
      if r.active then some { r with consumer := .load event }
      else some { r with consumer := .idle, result := .closed }
  | .load event => some { r with consumer := .sequence event r.dequeuePos }
  | .sequence event pos =>
      if (r.slots (d.slot pos)).sequence = pos + 1 then
        some { r with consumer := .copy event pos 0 }
      else some { r with consumer := .idle, result := .empty }
  | .copy event pos field =>
      if field < 4 then
        some { r with
          consumer := .copy
            (copyField (r.slots (d.slot pos)).event field event) pos
            (field + 1) }
      else some { r with consumer := .release event pos }
  | .release event pos =>
      let slot := r.slots (d.slot pos)
      some { r.setSlot d pos { slot with sequence := pos + d.queueDepth } with
        consumer := .advance event pos }
  | .advance event pos =>
      some { r with
        dequeuePos := pos + 1
        consumer := .idle
        result := .ok
        dequeued := r.dequeued ++ [event.notice] }

/-- What can happen.  The event that the consumer passes in holds whatever is
    on its stack. -/
inductive Event (ι : Type) where
  | enqueue (i : ι) (batch : List Entry)
  | produce (i : ι) (weak : Bool)
  | dequeue (event : NotifyShmEvent)
  | consume
  | close

def step (r : Ring ι) : Event ι → Option (Ring ι)
  | .enqueue i batch => r.enqueue d i batch
  | .produce i weak => r.produce d i weak
  | .dequeue event =>
      match r.consumer with
      | .idle => some { r with consumer := .valid event }
      | _ => none
  | .consume => r.consume d
  | .close => some { r with active := false }

end UbsIo.Notify
