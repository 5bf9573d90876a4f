import UbsIo.Lib.Cyclic
import UbsIo.Lib.Run

/-! # The ring buffer

    `RingBuffer` of `mms_ring_buffer.h`: an array of `mCapacity` cells, of which
    the `mCount` from `mHead` on hold the items.  A call holds the lock from
    its beginning to its end, so a run is a list of calls.

    The fields are numbers of 32 bits, and so is the sum in the test for room
    of `PushFrontN` and `PushBackN`. -/

namespace UbsIo.Ring

open UbsIo.Lib

variable {α : Type}

/-! ## Model -/

structure RingBuffer (α : Type) where
  mRingBuf : Nat → α
  mCapacity : UInt32
  mCount : UInt32
  mHead : UInt32
  mTail : UInt32

/-- After `Initialize`, whatever is in the new cells. -/
def RingBuffer.fresh (capacity : UInt32) (ringBuf : Nat → α) :
    RingBuffer α :=
  ⟨ringBuf, capacity, 0, 0, 0⟩

/-- An array of items, with its length in 32 bits. -/
structure Items (α : Type) where
  list : List α
  fits : list.length < 2 ^ 32

def Items.n (items : Items α) : UInt32 := UInt32.ofNat items.list.length

/-- `mRingBuf[mTail] = item`, and `mTail` moves on. -/
def RingBuffer.storeBack (r : RingBuffer α) (item : α) : RingBuffer α :=
  { r with
    mRingBuf := Function.update r.mRingBuf r.mTail.toNat item
    mTail := if r.mTail ≠ r.mCapacity - 1 then r.mTail + 1 else 0 }

/-- `mHead` moves back, and `mRingBuf[mHead] = item`. -/
def RingBuffer.storeFront (r : RingBuffer α) (item : α) : RingBuffer α :=
  let mHead := if r.mHead = 0 then r.mCapacity - 1 else r.mHead - 1
  { r with mRingBuf := Function.update r.mRingBuf mHead.toNat item, mHead }

/-- `item = mRingBuf[mHead]`, and `mHead` moves on. -/
def RingBuffer.takeFront (r : RingBuffer α) : α × RingBuffer α :=
  (r.mRingBuf r.mHead.toNat,
    { r with
      mHead := if r.mHead ≠ r.mCapacity - 1 then r.mHead + 1 else 0 })

/-- The loop of `PopFrontN` and of `PopFrontNFlex`. -/
def RingBuffer.popLoop : Nat → RingBuffer α → List α × RingBuffer α
  | 0, r => ([], r)
  | n + 1, r =>
      let (item, r) := r.takeFront
      let (items, r) := popLoop n r
      (item :: items, r)

/-- What a call answers.  A pop that returns `false` has no items; `n` is the
    reference parameter of `PopFrontNFlex`. -/
inductive Reply (α : Type) where
  | pushed (ret : Bool)
  | popped (items : Option (List α))
  | poppedFlex (items : Option (List α)) (n : UInt32)
deriving DecidableEq

def Reply.ret : Reply α → Bool
  | .pushed ret => ret
  | .popped items => items.isSome
  | .poppedFlex items _ => items.isSome

/-- `PushBack`. -/
def pushBack (r : RingBuffer α) (item : α) : Reply α × RingBuffer α :=
  if r.mCapacity ≤ r.mCount then (.pushed false, r)
  else (.pushed true, { r.storeBack item with mCount := r.mCount + 1 })

/-- `PushFront`. -/
def pushFront (r : RingBuffer α) (item : α) : Reply α × RingBuffer α :=
  if r.mCapacity ≤ r.mCount then (.pushed false, r)
  else (.pushed true, { r.storeFront item with mCount := r.mCount + 1 })

/-- `PopFront`. -/
def popFront (r : RingBuffer α) : Reply α × RingBuffer α :=
  if r.mCount = 0 then (.popped none, r)
  else
    (.popped (some [r.takeFront.1]),
      { r.takeFront.2 with mCount := r.mCount - 1 })

/-- `PopFrontN`. -/
def popFrontN (r : RingBuffer α) (n : UInt32) : Reply α × RingBuffer α :=
  if r.mCount < n then (.popped none, r)
  else
    (.popped (some (r.popLoop n.toNat).1),
      { (r.popLoop n.toNat).2 with mCount := r.mCount - n })

/-- `PopFrontNFlex`. -/
def popFrontNFlex (r : RingBuffer α) (n : UInt32) : Reply α × RingBuffer α :=
  if r.mCount = 0 then (.poppedFlex none n, r)
  else
    let n := if r.mCount < n then r.mCount else n
    (.poppedFlex (some (r.popLoop n.toNat).1) n,
      { (r.popLoop n.toNat).2 with mCount := r.mCount - n })

/-- `PushFrontN`. -/
def pushFrontN (r : RingBuffer α) (items : Items α) :
    Reply α × RingBuffer α :=
  if r.mCapacity < r.mCount + items.n then (.pushed false, r)
  else
    (.pushed true,
      { items.list.foldl RingBuffer.storeFront r with
        mCount := r.mCount + items.n })

/-- `PushBackN`. -/
def pushBackN (r : RingBuffer α) (items : Items α) : Reply α × RingBuffer α :=
  if r.mCapacity < r.mCount + items.n then (.pushed false, r)
  else
    (.pushed true,
      { items.list.foldl RingBuffer.storeBack r with
        mCount := r.mCount + items.n })

inductive Op (α : Type) where
  | pushBack (item : α)
  | pushFront (item : α)
  | popFront
  | popFrontN (n : UInt32)
  | popFrontNFlex (n : UInt32)
  | pushFrontN (items : Items α)
  | pushBackN (items : Items α)

def call (r : RingBuffer α) : Op α → Reply α × RingBuffer α
  | .pushBack item => pushBack r item
  | .pushFront item => pushFront r item
  | .popFront => popFront r
  | .popFrontN n => popFrontN r n
  | .popFrontNFlex n => popFrontNFlex r n
  | .pushFrontN items => pushFrontN r items
  | .pushBackN items => pushBackN r items

/-! ## The bounded deque -/

/-- A push of some items, where there is room for all of them. -/
def dequePush (capacity : Nat) (xs : List α) (n : Nat) (pushed : List α) :
    Reply α × List α :=
  if xs.length + n ≤ capacity then (.pushed true, pushed)
  else (.pushed false, xs)

/-- What the calls are for: a list of at most `capacity` items.  The items of
    `PushFrontN` are pushed one by one. -/
def dequeCall (capacity : Nat) (xs : List α) : Op α → Reply α × List α
  | .pushBack item => dequePush capacity xs 1 (xs ++ [item])
  | .pushFront item => dequePush capacity xs 1 (item :: xs)
  | .popFront =>
      if xs = [] then (.popped none, xs)
      else (.popped (some (xs.take 1)), xs.drop 1)
  | .popFrontN n =>
      if xs.length < n.toNat then (.popped none, xs)
      else (.popped (some (xs.take n.toNat)), xs.drop n.toNat)
  | .popFrontNFlex n =>
      if xs = [] then (.poppedFlex none n, xs)
      else (.poppedFlex (some (xs.take n.toNat))
        (UInt32.ofNat (min xs.length n.toNat)), xs.drop n.toNat)
  | .pushFrontN items =>
      dequePush capacity xs items.list.length
        (items.list.foldl (fun xs item => item :: xs) xs)
  | .pushBackN items =>
      dequePush capacity xs items.list.length (xs ++ items.list)

/-! ## Representation -/

/-- The `k` cells from `mHead` on hold these items, and `mTail` is behind
    them. -/
structure Holds (r : RingBuffer α) (k : Nat) (xs : List α) : Prop where
  head : r.mHead.toNat < r.mCapacity.toNat
  tail : r.mTail.toNat = (r.mHead.toNat + k) % r.mCapacity.toNat
  count : k ≤ r.mCapacity.toNat
  contents : window r.mRingBuf r.mCapacity.toNat r.mHead.toNat k = xs

/-- The buffer holds these items. -/
def Represents (r : RingBuffer α) (xs : List α) : Prop :=
  Holds r r.mCount.toNat xs

variable {r : RingBuffer α} {k : Nat} {xs : List α} {x : α}

theorem Holds.length (h : Holds r k xs) : xs.length = k := by
  rw [← h.contents, length_window]

theorem represents_fresh {capacity : UInt32} (hpos : capacity ≠ 0)
    (ringBuf : Nat → α) :
    Represents (RingBuffer.fresh capacity ringBuf) [] := by
  have hcap : 0 < capacity.toNat :=
    Nat.pos_of_ne_zero fun h => hpos (UInt32.toNat_inj.mp h)
  exact ⟨hcap, (Nat.zero_mod _).symm, Nat.zero_le _, rfl⟩

/-- An index that moves on. -/
theorem next_toNat {i capacity : UInt32} (hi : i.toNat < capacity.toNat) :
    (if i ≠ capacity - 1 then i + 1 else 0).toNat =
      (i.toNat + 1) % capacity.toNat := by
  have hlast : (capacity - 1).toNat = capacity.toNat - 1 :=
    UInt32.toNat_sub_of_le _ _ (UInt32.le_iff_toNat_le.mpr (by
      show 1 ≤ capacity.toNat
      omega))
  have hbits := capacity.toNat_lt
  by_cases hi' : i = capacity - 1
  · have hnat : i.toNat + 1 = capacity.toNat := by
      rw [hi', hlast]
      omega
    rw [if_neg (not_not_intro hi'), hnat, Nat.mod_self]
    rfl
  · have hne : i.toNat ≠ capacity.toNat - 1 := fun h =>
      hi' (UInt32.toNat_inj.mp (h.trans hlast.symm))
    rw [if_pos hi', UInt32.toNat_add, UInt32.toNat_one,
      Nat.mod_eq_of_lt (by omega), Nat.mod_eq_of_lt (by omega)]

/-- An index that moves back. -/
theorem prev_toNat {i capacity : UInt32} (hi : i.toNat < capacity.toNat) :
    (if i = 0 then capacity - 1 else i - 1).toNat < capacity.toNat ∧
      ((if i = 0 then capacity - 1 else i - 1).toNat + 1) % capacity.toNat =
        i.toNat := by
  have hpred : ∀ {y : UInt32}, 1 ≤ y.toNat → (y - 1).toNat = y.toNat - 1 :=
    fun hy => UInt32.toNat_sub_of_le _ _ (UInt32.le_iff_toNat_le.mpr hy)
  split
  · rename_i hzero
    rw [hpred (by omega), Nat.sub_add_cancel (by omega), Nat.mod_self, hzero]
    exact ⟨by omega, rfl⟩
  · rename_i hne
    have hpos : 1 ≤ i.toNat :=
      Nat.one_le_iff_ne_zero.mpr fun h => hne (UInt32.toNat_inj.mp h)
    rw [hpred hpos, Nat.sub_add_cancel hpos, Nat.mod_eq_of_lt hi]
    exact ⟨by omega, rfl⟩

theorem Holds.storeBack (h : Holds r k xs) (hroom : k < r.mCapacity.toNat)
    (item : α) : Holds (r.storeBack item) (k + 1) (xs ++ [item]) := by
  have htail := Nat.mod_lt (r.mHead.toNat + k) (Nat.zero_lt_of_lt hroom)
  refine ⟨h.head, ?_, hroom, ?_⟩
  · have hlt : r.mTail.toNat < r.mCapacity.toNat := by
      rw [h.tail]
      exact htail
    have hnext := next_toNat hlt
    rw [h.tail, Nat.mod_add_mod] at hnext
    exact hnext
  · show window (Function.update r.mRingBuf r.mTail.toNat item)
      r.mCapacity.toNat r.mHead.toNat (k + 1) = xs ++ [item]
    rw [h.tail, window_back hroom, h.contents]

theorem Holds.storeFront (h : Holds r k xs) (hroom : k < r.mCapacity.toNat)
    (item : α) : Holds (r.storeFront item) (k + 1) (item :: xs) := by
  obtain ⟨hlt, hnext⟩ := prev_toNat h.head
  refine ⟨hlt, ?_, hroom, ?_⟩
  · show r.mTail.toNat = _
    rw [h.tail, ← hnext, Nat.mod_add_mod, Nat.add_assoc, Nat.add_comm 1 k]
    rfl
  · exact (window_front hlt hnext hroom).trans
      (congrArg (item :: ·) h.contents)

/-- Pushes at the back, one after another. -/
theorem Holds.pushBackLoop : ∀ (items : List α) {r : RingBuffer α} {k : Nat}
    {xs : List α}, Holds r k xs → k + items.length ≤ r.mCapacity.toNat →
    Holds (items.foldl RingBuffer.storeBack r) (k + items.length)
      (xs ++ items) := by
  intro items
  induction items with
  | nil =>
      intro r k xs h _
      rw [List.append_nil]
      exact h
  | cons item items ih =>
      intro r k xs h hroom
      rw [List.length_cons] at hroom
      have hrest := ih (h.storeBack (by omega) item)
        (by show k + 1 + items.length ≤ r.mCapacity.toNat; omega)
      rw [List.append_assoc] at hrest
      rw [List.length_cons, Nat.add_comm items.length, ← Nat.add_assoc]
      exact hrest

/-- Pushes at the front, one after another. -/
theorem Holds.pushFrontLoop : ∀ (items : List α) {r : RingBuffer α} {k : Nat}
    {xs : List α}, Holds r k xs → k + items.length ≤ r.mCapacity.toNat →
    Holds (items.foldl RingBuffer.storeFront r) (k + items.length)
      (items.foldl (fun xs item => item :: xs) xs) := by
  intro items
  induction items with
  | nil => exact fun h _ => h
  | cons item items ih =>
      intro r k xs h hroom
      rw [List.length_cons] at hroom
      rw [List.length_cons, Nat.add_comm items.length, ← Nat.add_assoc]
      exact ih (h.storeFront (by omega) item)
        (by show k + 1 + items.length ≤ r.mCapacity.toNat; omega)

theorem Holds.takeFront (h : Holds r (k + 1) xs) :
    xs = r.takeFront.1 :: xs.drop 1 ∧
      Holds r.takeFront.2 k (xs.drop 1) := by
  have hnext := next_toNat h.head
  have hcons := h.contents
  rw [window_cons h.head, ← hnext] at hcons
  refine ⟨?_, ?_, ?_, ?_, ?_⟩
  · rw [← hcons]
    rfl
  · show (if r.mHead ≠ r.mCapacity - 1 then r.mHead + 1 else 0).toNat < _
    rw [hnext]
    exact Nat.mod_lt _ (Nat.zero_lt_of_lt h.head)
  · show r.mTail.toNat =
      ((if r.mHead ≠ r.mCapacity - 1 then r.mHead + 1 else 0).toNat + k) %
        r.mCapacity.toNat
    rw [hnext, Nat.mod_add_mod, h.tail, Nat.add_assoc, Nat.add_comm 1 k]
  · exact Nat.le_of_succ_le h.count
  · rw [← hcons]
    rfl

/-- Pops at the front, one after another. -/
theorem Holds.popLoop : ∀ (n : Nat) {r : RingBuffer α} {k : Nat} {xs : List α},
    Holds r k xs → n ≤ k →
    (r.popLoop n).1 = xs.take n ∧
      Holds (r.popLoop n).2 (k - n) (xs.drop n) := by
  intro n
  induction n with
  | zero => exact fun h _ => ⟨rfl, h⟩
  | succ n ih =>
      intro r k xs h hn
      obtain ⟨k, rfl⟩ : ∃ j, k = j + 1 := ⟨k - 1, by omega⟩
      obtain ⟨hitem, hrest⟩ := h.takeFront
      obtain ⟨htake, hdrop⟩ := ih hrest (Nat.le_of_succ_le_succ hn)
      refine ⟨?_, ?_⟩
      · show r.takeFront.1 :: (r.takeFront.2.popLoop n).1 = _
        rw [htake, hitem]
        rfl
      · rw [List.drop_drop, Nat.add_comm 1 n] at hdrop
        rw [Nat.succ_sub_succ]
        exact hdrop

end UbsIo.Ring
