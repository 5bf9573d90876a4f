import UbsIo.Lib.Census
import UbsIo.Lib.Packed
import UbsIo.Lib.Run

/-! # The reader-writer lock

    One word of 32 bits says whether a writer is inside, how many writers wait
    and how many readers are inside.  A thread reads and changes it with atomic
    operations, each of which is one step here; between two of them any other
    thread may take its steps. -/

namespace UbsIo.Cache.Lock

open UbsIo.Lib

/-! ## The functions -/

def rwWLocked : UInt32 := (1 : UInt32) <<< (31 : UInt32)
def rwWWaitInc : UInt32 := (1 : UInt32) <<< (16 : UInt32)
def rwWWaitMask : UInt32 := 0x7FFF0000
def rwRInc : UInt32 := 1
def rwRMask : UInt32 := 0x0000FFFF

/-- Where a thread stands: outside, in the loop of one of the two lock
    functions with its `expected`, after the announcement of a writer, or
    inside. -/
inductive Phase where
  | outside
  | readLoop (expected : UInt32)
  | reading
  | writeAnnounced
  | writeLoop (expected : UInt32)
  | writing
deriving DecidableEq, Repr

/-- `fails`: the weak exchange fails although it finds what it expects.  A
    failed exchange leaves the present word in `expected`. -/
def cacheReadLock (state : UInt32) (fails : Bool) :
    Phase → Option (UInt32 × Phase)
  | .outside => some (state, .readLoop state)
  | .readLoop expected =>
      if expected &&& (rwWLocked ||| rwWWaitMask) ≠ 0 then
        some (state, .readLoop state)
      else if state = expected ∧ fails = false then
        some (expected + rwRInc, .reading)
      else some (state, .readLoop state)
  | _ => none

def cacheWriteLock (state : UInt32) (fails : Bool) :
    Phase → Option (UInt32 × Phase)
  | .outside => some (state + rwWWaitInc, .writeAnnounced)
  | .writeAnnounced => some (state, .writeLoop state)
  | .writeLoop expected =>
      if expected &&& rwWLocked = 0 ∧ expected &&& rwRMask = 0 then
        if state = expected ∧ fails = false then
          some ((expected - rwWWaitInc) ||| rwWLocked, .writing)
        else some (state, .writeLoop state)
      else some (state, .writeLoop state)
  | _ => none

def cacheReadUnLock (state : UInt32) : Phase → Option (UInt32 × Phase)
  | .reading => some (state - rwRInc, .outside)
  | _ => none

def cacheWriteUnLock (state : UInt32) : Phase → Option (UInt32 × Phase)
  | .writing => some (state &&& ~~~rwWLocked, .outside)
  | _ => none

/-- The function the thread is in. -/
inductive Action where
  | cacheReadLock (fails : Bool)
  | cacheWriteLock (fails : Bool)
  | cacheReadUnLock
  | cacheWriteUnLock
deriving DecidableEq, Repr

def act (state : UInt32) (p : Phase) : Action → Option (UInt32 × Phase)
  | .cacheReadLock fails => cacheReadLock state fails p
  | .cacheWriteLock fails => cacheWriteLock state fails p
  | .cacheReadUnLock => cacheReadUnLock state p
  | .cacheWriteUnLock => cacheWriteUnLock state p

structure RwLock where
  state : UInt32
  threads : List Phase
deriving DecidableEq, Repr

/-- One atomic operation of the thread with this number. -/
def step (s : RwLock) (e : Nat × Action) : Option RwLock :=
  (s.threads[e.1]?).bind fun p => (act s.state p e.2).map fun r =>
    ⟨r.1, s.threads.set e.1 r.2⟩

def initial (num : Nat) : RwLock := ⟨0, List.replicate num .outside⟩

/-! ## Who counts as what -/

def Phase.isReader : Phase → Bool
  | .reading => true
  | _ => false

/-- A writer waits from its announcement on. -/
def Phase.isWaiting : Phase → Bool
  | .writeAnnounced => true
  | .writeLoop _ => true
  | _ => false

def Phase.isWriter : Phase → Bool
  | .writing => true
  | _ => false

def RwLock.readers (s : RwLock) : Nat := s.threads.countP Phase.isReader
def RwLock.waiting (s : RwLock) : Nat := s.threads.countP Phase.isWaiting
def RwLock.writers (s : RwLock) : Nat := s.threads.countP Phase.isWriter

/-- As many threads as the fields can count. -/
def RwLock.Countable (s : RwLock) : Prop :=
  s.readers ≤ 65535 ∧ s.waiting ≤ 32767

/-- The word is made of the three counts, and a writer is alone. -/
structure RwLock.Consistent (s : RwLock) : Prop where
  countable : s.Countable
  word : s.state.toNat
    = 2 ^ 31 * s.writers + 2 ^ 16 * s.waiting + s.readers
  one : s.writers ≤ 1
  alone : s.writers = 1 → s.readers = 0

/-! ## The operations on the word -/

/-- The fields of a word, taken out with the masks. -/
theorem fields {x : UInt32} {w q r : Nat}
    (hx : x.toNat = 2 ^ 31 * w + 2 ^ 16 * q + r) (hw : w ≤ 1)
    (hq : q ≤ 32767) (hr : r ≤ 65535) :
    (x &&& rwWLocked).toNat = 2 ^ 31 * w ∧
      (x &&& rwWWaitMask).toNat = 2 ^ 16 * q ∧
      (x &&& rwRMask).toNat = r := by
  have hlocked : rwWLocked.toNat = 2 ^ 31 * (2 ^ 1 - 1) := by decide
  have hmask : rwWWaitMask.toNat = 2 ^ 16 * (2 ^ 15 - 1) := by decide
  have hread : rwRMask.toNat = 2 ^ 0 * (2 ^ 16 - 1) := by decide
  rw [UInt32.toNat_and, UInt32.toNat_and, UInt32.toNat_and, hlocked, hmask,
    hread, and_mask, and_mask, and_mask, hx]
  refine ⟨?_, ?_, ?_⟩ <;> omega

/-- A word shows no writer and nobody waiting only if there is none. -/
theorem free_for_read {x : UInt32} {w q r : Nat}
    (hx : x.toNat = 2 ^ 31 * w + 2 ^ 16 * q + r) (hw : w ≤ 1)
    (hq : q ≤ 32767) (hr : r ≤ 65535)
    (h : x &&& (rwWLocked ||| rwWWaitMask) = 0) : w = 0 ∧ q = 0 := by
  have hmask : (rwWLocked ||| rwWWaitMask).toNat
      = 2 ^ 16 * (2 ^ 16 - 1) := by decide
  have hzero : (x &&& (rwWLocked ||| rwWWaitMask)).toNat = 0 := by
    rw [h]
    rfl
  rw [UInt32.toNat_and, hmask, and_mask, hx] at hzero
  omega

/-- A word shows neither a writer nor readers only if there are none. -/
theorem free_for_write {x : UInt32} {w q r : Nat}
    (hx : x.toNat = 2 ^ 31 * w + 2 ^ 16 * q + r) (hw : w ≤ 1)
    (hq : q ≤ 32767) (hr : r ≤ 65535) (hlocked : x &&& rwWLocked = 0)
    (hread : x &&& rwRMask = 0) : w = 0 ∧ r = 0 := by
  obtain ⟨hfw, -, hfr⟩ := fields hx hw hq hr
  rw [hlocked] at hfw
  rw [hread] at hfr
  have hw0 : 0 = 2 ^ 31 * w := hfw
  have hr0 : 0 = r := hfr
  omega

/-- A waiting writer takes the lock: its announcement becomes the flag. -/
theorem take_toNat {x : UInt32} {q : Nat} (hx : x.toNat = 2 ^ 16 * (q + 1))
    (hq : q < 32767) :
    ((x - rwWWaitInc) ||| rwWLocked).toNat = 2 ^ 31 + 2 ^ 16 * q := by
  have hinc : rwWWaitInc.toNat = 2 ^ 16 := by decide
  have hlocked : rwWLocked.toNat = 2 ^ 31 := by decide
  have hsub : (x - rwWWaitInc).toNat = 2 ^ 16 * q := by
    rw [UInt32.toNat_sub, hinc, hx]
    omega
  have hlt : 2 ^ 16 * q < 2 ^ 31 := by omega
  rw [UInt32.toNat_or, hsub, hlocked, Nat.or_two_pow_eq_add_of_lt hlt,
    Nat.add_comm]

/-- The flag is cleared. -/
theorem clear_toNat {x : UInt32} {w y : Nat}
    (hx : x.toNat = 2 ^ 31 * w + y) (hy : y < 2 ^ 31) :
    (x &&& ~~~rwWLocked).toNat = y := by
  have hmask : (~~~rwWLocked).toNat = 2 ^ 0 * (2 ^ 31 - 1) := by decide
  rw [UInt32.toNat_and, hmask, and_mask, hx]
  omega

/-! ## What a step does -/

/-- What an operation does to the word, and how the thread is counted after
    it.  The lock is taken only in a word that was seen to be free, as it is at
    that moment. -/
inductive Effect (x : UInt32) (p : Phase) : UInt32 → Phase → Prop
  | look {p' : Phase} (hreader : p'.isReader = p.isReader)
      (hwaiting : p'.isWaiting = p.isWaiting)
      (hwriter : p'.isWriter = p.isWriter) : Effect x p x p'
  | enterRead (hreader : p.isReader = false) (hwaiting : p.isWaiting = false)
      (hwriter : p.isWriter = false)
      (hfree : x &&& (rwWLocked ||| rwWWaitMask) = 0) :
      Effect x p (x + rwRInc) .reading
  | announce (hreader : p.isReader = false) (hwaiting : p.isWaiting = false)
      (hwriter : p.isWriter = false) :
      Effect x p (x + rwWWaitInc) .writeAnnounced
  | enterWrite (hreader : p.isReader = false) (hwaiting : p.isWaiting = true)
      (hwriter : p.isWriter = false) (hlocked : x &&& rwWLocked = 0)
      (hread : x &&& rwRMask = 0) :
      Effect x p ((x - rwWWaitInc) ||| rwWLocked) .writing
  | leaveRead (hp : p = .reading) : Effect x p (x - rwRInc) .outside
  | leaveWrite (hp : p = .writing) : Effect x p (x &&& ~~~rwWLocked) .outside

/-- **EVERY OPERATION** of the four functions is one of these. -/
theorem effect_of_act {x x' : UInt32} {p p' : Phase} {a : Action}
    (h : act x p a = some (x', p')) : Effect x p x' p' := by
  cases a with
  | cacheReadLock fails =>
      cases p with
      | outside =>
          obtain ⟨rfl, rfl⟩ := Prod.mk.inj (Option.some.inj h)
          exact .look rfl rfl rfl
      | readLoop expected =>
          change (if _ then _ else _) = _ at h
          split at h
          · obtain ⟨rfl, rfl⟩ := Prod.mk.inj (Option.some.inj h)
            exact .look rfl rfl rfl
          · rename_i hfree
            split at h
            · rename_i hexchange
              obtain ⟨rfl, rfl⟩ := Prod.mk.inj (Option.some.inj h)
              rw [← hexchange.1] at hfree ⊢
              exact .enterRead rfl rfl rfl (not_not.mp hfree)
            · obtain ⟨rfl, rfl⟩ := Prod.mk.inj (Option.some.inj h)
              exact .look rfl rfl rfl
      | reading => cases h
      | writeAnnounced => cases h
      | writeLoop expected => cases h
      | writing => cases h
  | cacheWriteLock fails =>
      cases p with
      | outside =>
          obtain ⟨rfl, rfl⟩ := Prod.mk.inj (Option.some.inj h)
          exact .announce rfl rfl rfl
      | writeAnnounced =>
          obtain ⟨rfl, rfl⟩ := Prod.mk.inj (Option.some.inj h)
          exact .look rfl rfl rfl
      | writeLoop expected =>
          change (if _ then _ else _) = _ at h
          split at h
          · rename_i hfree
            split at h
            · rename_i hexchange
              obtain ⟨rfl, rfl⟩ := Prod.mk.inj (Option.some.inj h)
              rw [← hexchange.1] at hfree ⊢
              exact .enterWrite rfl rfl rfl hfree.1 hfree.2
            · obtain ⟨rfl, rfl⟩ := Prod.mk.inj (Option.some.inj h)
              exact .look rfl rfl rfl
          · obtain ⟨rfl, rfl⟩ := Prod.mk.inj (Option.some.inj h)
            exact .look rfl rfl rfl
      | readLoop expected => cases h
      | reading => cases h
      | writing => cases h
  | cacheReadUnLock =>
      cases p with
      | reading =>
          obtain ⟨rfl, rfl⟩ := Prod.mk.inj (Option.some.inj h)
          exact .leaveRead rfl
      | outside => cases h
      | readLoop expected => cases h
      | writeAnnounced => cases h
      | writeLoop expected => cases h
      | writing => cases h
  | cacheWriteUnLock =>
      cases p with
      | writing =>
          obtain ⟨rfl, rfl⟩ := Prod.mk.inj (Option.some.inj h)
          exact .leaveWrite rfl
      | outside => cases h
      | readLoop expected => cases h
      | reading => cases h
      | writeAnnounced => cases h
      | writeLoop expected => cases h

/-- A step is an operation of one thread, and changes the counts by that
    thread alone. -/
theorem step_spec {s s' : RwLock} {e : Nat × Action}
    (h : step s e = some s') :
    ∃ p p', Effect s.state p s'.state p' ∧
      s'.readers + p.isReader.toNat = s.readers + p'.isReader.toNat ∧
      s'.waiting + p.isWaiting.toNat = s.waiting + p'.isWaiting.toNat ∧
      s'.writers + p.isWriter.toNat = s.writers + p'.isWriter.toNat := by
  obtain ⟨p, hp, h⟩ := Option.bind_eq_some_iff.mp h
  obtain ⟨⟨x', p'⟩, hact, rfl⟩ := Option.map_eq_some_iff.mp h
  exact ⟨p, p', effect_of_act hact, countP_set_add hp, countP_set_add hp,
    countP_set_add hp⟩

/-- **STEP**: the word stays made of the counts, and a writer alone. -/
theorem RwLock.Consistent.step {s s' : RwLock} {e : Nat × Action}
    (hs : s.Consistent) (hcount : s'.Countable)
    (h : Lock.step s e = some s') : s'.Consistent := by
  obtain ⟨p, p', heffect, hreaders, hwaiting, hwriters⟩ := step_spec h
  obtain ⟨⟨hr, hq⟩, hword, hone, halone⟩ := hs
  have hcount' := hcount
  obtain ⟨hr', hq'⟩ := hcount
  have hinc : rwWWaitInc.toNat = 2 ^ 16 := by decide
  have hrinc : rwRInc.toNat = 1 := by decide
  generalize hx' : s'.state = x' at heffect
  cases heffect with
  | look hreader hwait hwriter =>
      rw [hreader] at hreaders
      rw [hwait] at hwaiting
      rw [hwriter] at hwriters
      refine ⟨hcount', ?_, by omega, by omega⟩
      rw [hx', hword]
      omega
  | enterRead hreader hwait hwriter hfree =>
      obtain ⟨hw0, hq0⟩ := free_for_read hword hone hq hr hfree
      rw [hreader] at hreaders
      rw [hwait] at hwaiting
      rw [hwriter] at hwriters
      change s'.readers + 0 = s.readers + 1 at hreaders
      change s'.waiting + 0 = s.waiting + 0 at hwaiting
      change s'.writers + 0 = s.writers + 0 at hwriters
      refine ⟨hcount', ?_, by omega, by omega⟩
      rw [hx', UInt32.toNat_add, hrinc, hword]
      omega
  | announce hreader hwait hwriter =>
      rw [hreader] at hreaders
      rw [hwait] at hwaiting
      rw [hwriter] at hwriters
      change s'.readers + 0 = s.readers + 0 at hreaders
      change s'.waiting + 0 = s.waiting + 1 at hwaiting
      change s'.writers + 0 = s.writers + 0 at hwriters
      refine ⟨hcount', ?_, by omega, by omega⟩
      rw [hx', UInt32.toNat_add, hinc, hword]
      omega
  | enterWrite hreader hwait hwriter hlocked hread =>
      obtain ⟨hw0, hr0⟩ := free_for_write hword hone hq hr hlocked hread
      rw [hreader] at hreaders
      rw [hwait] at hwaiting
      rw [hwriter] at hwriters
      change s'.readers + 0 = s.readers + 0 at hreaders
      change s'.waiting + 1 = s.waiting + 0 at hwaiting
      change s'.writers + 0 = s.writers + 1 at hwriters
      have htake : s.state.toNat = 2 ^ 16 * (s'.waiting + 1) := by
        rw [hword]
        omega
      refine ⟨hcount', ?_, by omega, by omega⟩
      rw [hx', take_toNat htake (by omega)]
      omega
  | leaveRead hp =>
      subst hp
      change s'.readers + 1 = s.readers + 0 at hreaders
      change s'.waiting + 0 = s.waiting + 0 at hwaiting
      change s'.writers + 0 = s.writers + 0 at hwriters
      refine ⟨hcount', ?_, by omega, by omega⟩
      rw [hx', UInt32.toNat_sub, hrinc, hword]
      omega
  | leaveWrite hp =>
      subst hp
      change s'.readers + 0 = s.readers + 0 at hreaders
      change s'.waiting + 0 = s.waiting + 0 at hwaiting
      change s'.writers + 1 = s.writers + 0 at hwriters
      have hrest : s.state.toNat
          = 2 ^ 31 * s.writers + (2 ^ 16 * s.waiting + s.readers) := by
        rw [hword, Nat.add_assoc]
      refine ⟨hcount', ?_, by omega, by omega⟩
      rw [hx', clear_toNat hrest (by omega)]
      omega

/-! ## Runs -/

theorem initial_consistent (num : Nat) : (initial num).Consistent := by
  have hnone : ∀ f : Phase → Bool, f .outside = false →
      (List.replicate num Phase.outside).countP f = 0 := by
    intro f hf
    rw [List.countP_replicate, hf]
    rfl
  have hr : (initial num).readers = 0 := hnone _ rfl
  have hq : (initial num).waiting = 0 := hnone _ rfl
  have hw : (initial num).writers = 0 := hnone _ rfl
  refine ⟨⟨by omega, by omega⟩, ?_, by omega, fun _ => hr⟩
  rw [hr, hq, hw]
  rfl

/-- Nobody is with a writer. -/
theorem RwLock.Consistent.excludes {s : RwLock} (hs : s.Consistent) {i j : Nat}
    (hi : s.threads[i]? = some .writing) (hne : j ≠ i) :
    s.threads[j]? ≠ some .writing ∧ s.threads[j]? ≠ some .reading := by
  constructor
  · intro hj
    have h2 : 2 ≤ s.writers := two_le_countP hi hj hne.symm rfl rfl
    have hone := hs.one
    omega
  · intro hj
    have hw : 0 < s.writers := countP_pos hi rfl
    have hr : 0 < s.readers := countP_pos hj rfl
    have hone := hs.one
    have halone := hs.alone (by omega)
    omega

/-- The word of a lock that all threads have left. -/
theorem RwLock.Consistent.left {s : RwLock} (hs : s.Consistent)
    (hout : ∀ p ∈ s.threads, p = .outside) : s.state = 0 := by
  have hnone : ∀ f : Phase → Bool, f .outside = false →
      s.threads.countP f = 0 := by
    intro f hf
    refine List.countP_eq_zero.mpr fun p hp => ?_
    rw [hout p hp, hf]
    exact Bool.false_ne_true
  have hword := hs.word
  have hr : s.readers = 0 := hnone _ rfl
  have hq : s.waiting = 0 := hnone _ rfl
  have hw : s.writers = 0 := hnone _ rfl
  rw [hr, hq, hw] at hword
  exact UInt32.toNat_inj.mp hword

/-- The counts stay within the fields. -/
def KeepsCountable (s : RwLock) (e : Nat × Action) : Prop :=
  ∀ s', step s e = some s' → s'.Countable

theorem length_step {s s' : RwLock} {e : Nat × Action}
    (h : step s e = some s') : s'.threads.length = s.threads.length := by
  obtain ⟨p, -, h⟩ := Option.bind_eq_some_iff.mp h
  obtain ⟨r, -, rfl⟩ := Option.map_eq_some_iff.mp h
  exact List.length_set

/-- So few threads never fill a field. -/
theorem countable_of_few {num : Nat} (hnum : num ≤ 32767)
    (es : List (Nat × Action)) :
    Along step KeepsCountable (initial num) es := by
  refine along_of_invariant (I := fun s => s.threads.length = num)
    (fun s e s' hlen h => (length_step h).trans hlen) ?_
    es (initial num) List.length_replicate
    (along_of_forall (P := fun _ => True) _ fun _ _ => trivial)
  intro s e hlen _ s' h
  have hlen' : s'.threads.length = num := (length_step h).trans hlen
  have hr : s'.readers ≤ s'.threads.length := List.countP_le_length
  have hq : s'.waiting ≤ s'.threads.length := List.countP_le_length
  exact ⟨by omega, by omega⟩

/-- **READER-WRITER LOCK**: in every run with no more readers and waiting
    writers than the fields can count, a writer is alone, the three fields of
    the word are the three counts, and the word is zero when all have left. -/
theorem rwLock_run (num : Nat) (es : List (Nat × Action)) (s : RwLock)
    (hcount : Along step KeepsCountable (initial num) es)
    (hrun : runFrom step (initial num) es = some s) :
    (∀ i j : Nat, s.threads[i]? = some .writing → j ≠ i →
      s.threads[j]? ≠ some .writing ∧ s.threads[j]? ≠ some .reading) ∧
    (s.state &&& rwWLocked).toNat = 2 ^ 31 * s.writers ∧
    (s.state &&& rwWWaitMask).toNat = 2 ^ 16 * s.waiting ∧
    (s.state &&& rwRMask).toNat = s.readers ∧
    ((∀ p ∈ s.threads, p = .outside) → s.state = 0) := by
  have hs : s.Consistent :=
    runFrom_invariant_along
      (fun _ _ s' hI hG hstep => hI.step (hG s' hstep) hstep)
      es (initial num) s (initial_consistent num) hcount hrun
  obtain ⟨hw, hq, hr⟩ :=
    fields hs.word hs.one hs.countable.2 hs.countable.1
  exact ⟨fun i j hi hne => hs.excludes hi hne, hw, hq, hr, hs.left⟩

/-- A reader and a writer: the writer waits until the reader has left. -/
def turns : List (Nat × Action) :=
  [(0, .cacheReadLock false), (0, .cacheReadLock false),
    (1, .cacheWriteLock false), (1, .cacheWriteLock false),
    (1, .cacheWriteLock false), (0, .cacheReadUnLock),
    (1, .cacheWriteLock false), (1, .cacheWriteLock false)]

theorem rwLock_turns : ∃ s, runFrom step (initial 2) turns = some s ∧
    s.threads = [.outside, .writing] ∧
    (s.state &&& rwWLocked).toNat = 2 ^ 31 := by
  have hrun : runFrom step (initial 2) turns
      = some ⟨rwWLocked, [.outside, .writing]⟩ := by decide
  have hall := rwLock_run 2 turns _ (countable_of_few (by decide) turns) hrun
  exact ⟨_, hrun, rfl, hall.2.1⟩

end UbsIo.Cache.Lock
