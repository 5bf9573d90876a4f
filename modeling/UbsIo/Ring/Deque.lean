import UbsIo.Ring.Buffer

/-! # The ring buffer is a bounded deque

    Each call of the buffer answers what the call of the list answers, and
    leaves the cells that hold the new list.  The one exception is a push of
    many items where the sum of 32 bits wraps: it is carried out although there
    is no room. -/

namespace UbsIo.Ring

open UbsIo.Lib

variable {α : Type}

/-! ## Runs -/

/-- A call of the buffer, and the same call of the list. -/
def step (p : RingBuffer α × List α) (op : Op α) :
    Option (RingBuffer α × List α) :=
  some ((call p.1 op).2, (dequeCall p.1.mCapacity.toNat p.2 op).2)

/-- What a call of the buffer has to do with that of the list. -/
structure Agrees (p : RingBuffer α × List α) (op : Op α) : Prop where
  reply : (call p.1 op).1 = (dequeCall p.1.mCapacity.toNat p.2 op).1
  contents : Represents (call p.1 op).2
    (dequeCall p.1.mCapacity.toNat p.2 op).2
  capacity : (call p.1 op).2.mCapacity = p.1.mCapacity
  unchanged : (call p.1 op).1.ret = false → (call p.1 op).2 = p.1

/-- The sum in the test for room has 32 bits. -/
def SumFits (p : RingBuffer α × List α) : Op α → Prop
  | .pushFrontN items => p.1.mCount.toNat + items.list.length < 2 ^ 32
  | .pushBackN items => p.1.mCount.toNat + items.list.length < 2 ^ 32
  | _ => True

instance (p : RingBuffer α × List α) : (op : Op α) → Decidable (SumFits p op)
  | .pushBack _ => inferInstanceAs (Decidable True)
  | .pushFront _ => inferInstanceAs (Decidable True)
  | .popFront => inferInstanceAs (Decidable True)
  | .popFrontN _ => inferInstanceAs (Decidable True)
  | .popFrontNFlex _ => inferInstanceAs (Decidable True)
  | .pushFrontN items => inferInstanceAs
      (Decidable (p.1.mCount.toNat + items.list.length < 2 ^ 32))
  | .pushBackN items => inferInstanceAs
      (Decidable (p.1.mCount.toNat + items.list.length < 2 ^ 32))

variable {r r' : RingBuffer α} {k : Nat} {xs : List α}

theorem Represents.length (h : Represents r xs) :
    xs.length = r.mCount.toNat := Holds.length h

/-- The items are counted. -/
theorem Holds.withCount (h : Holds r k xs) {count : UInt32}
    (hk : count.toNat = k) : Represents { r with mCount := count } xs := by
  refine ⟨h.head, ?_, ?_, ?_⟩
  · show r.mTail.toNat = (r.mHead.toNat + count.toNat) % r.mCapacity.toNat
    rw [hk]
    exact h.tail
  · show count.toNat ≤ r.mCapacity.toNat
    rw [hk]
    exact h.count
  · show window r.mRingBuf r.mCapacity.toNat r.mHead.toNat count.toNat = xs
    rw [hk]
    exact h.contents

theorem Items.n_toNat (items : Items α) :
    items.n.toNat = items.list.length := by
  rw [Items.n, UInt32.toNat_ofNat']
  exact Nat.mod_eq_of_lt items.fits

theorem sub_toNat {a b : UInt32} (h : b.toNat ≤ a.toNat) :
    (a - b).toNat = a.toNat - b.toNat :=
  UInt32.toNat_sub_of_le a b (UInt32.le_iff_toNat_le.mpr h)

theorem add_toNat {a b : UInt32} (h : a.toNat + b.toNat < 2 ^ 32) :
    (a + b).toNat = a.toNat + b.toNat := by
  rw [UInt32.toNat_add, Nat.mod_eq_of_lt h]

/-! ## The calls that move no cells -/

theorem foldl_storeBack_capacity (items : List α) (r : RingBuffer α) :
    (items.foldl RingBuffer.storeBack r).mCapacity = r.mCapacity := by
  induction items generalizing r with
  | nil => rfl
  | cons item items ih => exact ih (r.storeBack item)

theorem foldl_storeFront_capacity (items : List α) (r : RingBuffer α) :
    (items.foldl RingBuffer.storeFront r).mCapacity = r.mCapacity := by
  induction items generalizing r with
  | nil => rfl
  | cons item items ih => exact ih (r.storeFront item)

theorem popLoop_capacity (n : Nat) (r : RingBuffer α) :
    (r.popLoop n).2.mCapacity = r.mCapacity := by
  induction n generalizing r with
  | zero => rfl
  | succ n ih => exact ih r.takeFront.2

/-- A call that both refuse. -/
theorem Agrees.refused {op : Op α} {reply : Reply α} (h : Represents r xs)
    (hcall : call r op = (reply, r))
    (hdeque : dequeCall r.mCapacity.toNat xs op = (reply, xs)) :
    Agrees (r, xs) op := by
  refine ⟨?_, ?_, ?_, ?_⟩
  · exact (congrArg Prod.fst hcall).trans (congrArg Prod.fst hdeque).symm
  · show Represents (call r op).2 (dequeCall r.mCapacity.toNat xs op).2
    rw [hcall, hdeque]
    exact h
  · exact congrArg (fun out => out.2.mCapacity) hcall
  · exact fun _ => congrArg Prod.snd hcall

/-- A call that both carry out. -/
theorem Agrees.done {op : Op α} {reply : Reply α} {ys : List α}
    (hcall : call r op = (reply, r')) (hret : reply.ret = true)
    (hdeque : dequeCall r.mCapacity.toNat xs op = (reply, ys))
    (hcap : r'.mCapacity = r.mCapacity) (hys : Represents r' ys) :
    Agrees (r, xs) op := by
  refine ⟨?_, ?_, ?_, ?_⟩
  · exact (congrArg Prod.fst hcall).trans (congrArg Prod.fst hdeque).symm
  · show Represents (call r op).2 (dequeCall r.mCapacity.toNat xs op).2
    rw [hcall, hdeque]
    exact hys
  · exact (congrArg (fun out => out.2.mCapacity) hcall).trans hcap
  · intro hfalse
    have hreply : (call r op).1.ret = reply.ret :=
      congrArg (fun out => out.1.ret) hcall
    rw [← hreply, hfalse] at hret
    cases hret

/-! ## One lemma for each call -/

/-- A push of one item, at either end. -/
theorem agrees_push {op : Op α} {stored : RingBuffer α} {pushed : List α}
    (h : Represents r xs)
    (hcall : call r op = if r.mCapacity ≤ r.mCount then (.pushed false, r)
      else (.pushed true, { stored with mCount := r.mCount + 1 }))
    (hdeque : dequeCall r.mCapacity.toNat xs op =
      dequePush r.mCapacity.toNat xs 1 pushed)
    (hcap : stored.mCapacity = r.mCapacity)
    (hstored : r.mCount.toNat < r.mCapacity.toNat →
      Holds stored (r.mCount.toNat + 1) pushed) :
    Agrees (r, xs) op := by
  have hlen := h.length
  rw [dequePush, hlen] at hdeque
  by_cases hfull : r.mCapacity ≤ r.mCount
  · have hle := UInt32.le_iff_toNat_le.mp hfull
    rw [if_pos hfull] at hcall
    rw [if_neg (by omega)] at hdeque
    exact .refused h hcall hdeque
  · have hlt : r.mCount.toNat < r.mCapacity.toNat :=
      Nat.lt_of_not_le fun hle => hfull (UInt32.le_iff_toNat_le.mpr hle)
    have hbits := r.mCapacity.toNat_lt
    rw [if_neg hfull] at hcall
    rw [if_pos (Nat.succ_le_of_lt hlt)] at hdeque
    refine .done hcall rfl hdeque hcap ((hstored hlt).withCount ?_)
    exact add_toNat (by show r.mCount.toNat + 1 < 2 ^ 32; omega)

/-- A push of many items whose sum does not wrap, at either end. -/
theorem agrees_pushN {op : Op α} {items : Items α} {stored : RingBuffer α}
    {pushed : List α} (h : Represents r xs)
    (hsum : r.mCount.toNat + items.list.length < 2 ^ 32)
    (hcall : call r op =
      if r.mCapacity < r.mCount + items.n then (.pushed false, r)
      else (.pushed true, { stored with mCount := r.mCount + items.n }))
    (hdeque : dequeCall r.mCapacity.toNat xs op =
      dequePush r.mCapacity.toNat xs items.list.length pushed)
    (hcap : stored.mCapacity = r.mCapacity)
    (hstored : r.mCount.toNat + items.list.length ≤ r.mCapacity.toNat →
      Holds stored (r.mCount.toNat + items.list.length) pushed) :
    Agrees (r, xs) op := by
  have hadd : (r.mCount + items.n).toNat =
      r.mCount.toNat + items.list.length := by
    rw [add_toNat (by rw [items.n_toNat]; exact hsum), items.n_toNat]
  rw [dequePush, h.length] at hdeque
  by_cases hfull : r.mCapacity < r.mCount + items.n
  · have hlt := UInt32.lt_iff_toNat_lt.mp hfull
    rw [if_pos hfull] at hcall
    rw [if_neg (by omega)] at hdeque
    exact .refused h hcall hdeque
  · have hle : r.mCount.toNat + items.list.length ≤ r.mCapacity.toNat := by
      rw [← hadd]
      exact Nat.le_of_not_lt fun hlt => hfull (UInt32.lt_iff_toNat_lt.mpr hlt)
    rw [if_neg hfull] at hcall
    rw [if_pos hle] at hdeque
    exact .done hcall rfl hdeque hcap ((hstored hle).withCount hadd)

theorem agrees_popFront (h : Represents r xs) :
    Agrees (r, xs) .popFront := by
  have hlen := h.length
  by_cases hzero : r.mCount = 0
  · have hnil : xs = [] := by
      rw [hzero] at hlen
      exact List.length_eq_zero_iff.mp hlen
    exact .refused h (if_pos hzero) (if_pos hnil)
  · have hpos : 1 ≤ r.mCount.toNat :=
      Nat.one_le_iff_ne_zero.mpr fun h0 => hzero (UInt32.toNat_inj.mp h0)
    have hne : xs ≠ [] := List.ne_nil_of_length_pos (by omega)
    obtain ⟨n, hn⟩ : ∃ n, r.mCount.toNat = n + 1 :=
      ⟨r.mCount.toNat - 1, by omega⟩
    have hholds : Holds r (n + 1) xs := hn ▸ h
    obtain ⟨hitem, hrest⟩ := hholds.takeFront
    have hone : xs.take 1 = [r.takeFront.1] := by
      rw [hitem]
      rfl
    refine .done (if_neg hzero) rfl ?_ rfl (hrest.withCount ?_)
    · exact (if_neg hne).trans (by rw [hone])
    · rw [sub_toNat (by exact hpos), hn]
      rfl

theorem agrees_popFrontN (h : Represents r xs) (n : UInt32) :
    Agrees (r, xs) (.popFrontN n) := by
  have hlen := h.length
  by_cases hfew : r.mCount < n
  · have hlt := UInt32.lt_iff_toNat_lt.mp hfew
    exact .refused h (if_pos hfew) (if_pos (by omega))
  · have hle : n.toNat ≤ r.mCount.toNat :=
      Nat.le_of_not_lt fun hlt => hfew (UInt32.lt_iff_toNat_lt.mpr hlt)
    obtain ⟨htake, hdrop⟩ := Holds.popLoop n.toNat h hle
    refine .done (if_neg hfew) rfl ?_ (popLoop_capacity _ r)
      (hdrop.withCount (sub_toNat hle))
    rw [htake]
    exact if_neg (by omega)

theorem agrees_popFrontNFlex (h : Represents r xs) (n : UInt32) :
    Agrees (r, xs) (.popFrontNFlex n) := by
  have hlen := h.length
  by_cases hzero : r.mCount = 0
  · have hnil : xs = [] := by
      rw [hzero] at hlen
      exact List.length_eq_zero_iff.mp hlen
    exact .refused h (if_pos hzero) (if_pos hnil)
  · have hne : xs ≠ [] := by
      intro hnil
      rw [hnil] at hlen
      exact hzero (UInt32.toNat_inj.mp hlen.symm)
    -- the number that is popped
    obtain ⟨m, hm⟩ : ∃ m, m = if r.mCount < n then r.mCount else n := ⟨_, rfl⟩
    have hmin : m.toNat = min xs.length n.toNat := by
      rw [hm, hlen]
      split
      · rename_i hlt
        rw [UInt32.lt_iff_toNat_lt] at hlt
        exact (Nat.min_eq_left hlt.le).symm
      · rename_i hge
        rw [UInt32.lt_iff_toNat_lt] at hge
        exact (Nat.min_eq_right (Nat.le_of_not_lt hge)).symm
    have hle : m.toNat ≤ r.mCount.toNat := by
      rw [hmin, ← hlen]
      exact Nat.min_le_left _ _
    obtain ⟨htake, hdrop⟩ := Holds.popLoop m.toNat h hle
    have htake' : xs.take m.toNat = xs.take n.toNat := by
      rw [hmin, Nat.min_comm, ← List.take_take, List.take_length]
    have hdrop' : xs.drop m.toNat = xs.drop n.toNat := by
      have hboth := (List.take_append_drop m.toNat xs).trans
        (List.take_append_drop n.toNat xs).symm
      rw [htake'] at hboth
      exact List.append_cancel_left hboth
    have hcall : call r (.popFrontNFlex n) =
        (.poppedFlex (some (r.popLoop m.toNat).1) m,
          { (r.popLoop m.toNat).2 with mCount := r.mCount - m }) := by
      rw [hm]
      exact if_neg hzero
    rw [hdrop'] at hdrop
    refine .done hcall rfl ?_ (popLoop_capacity _ r)
      (hdrop.withCount (sub_toNat hle))
    rw [htake, htake', ← UInt32.ofNat_toNat (x := m), hmin]
    exact if_neg hne

/-- **ONE CALL**: it agrees with that of the list, if its sum fits. -/
theorem Represents.agrees (h : Represents r xs) {op : Op α}
    (hfits : SumFits (r, xs) op) : Agrees (r, xs) op := by
  cases op with
  | pushBack item =>
      exact agrees_push h rfl rfl rfl fun hroom => Holds.storeBack h hroom item
  | pushFront item =>
      exact agrees_push h rfl rfl rfl fun hroom => Holds.storeFront h hroom item
  | popFront => exact agrees_popFront h
  | popFrontN n => exact agrees_popFrontN h n
  | popFrontNFlex n => exact agrees_popFrontNFlex h n
  | pushFrontN items =>
      exact agrees_pushN h hfits rfl rfl (foldl_storeFront_capacity _ r)
        fun hroom => Holds.pushFrontLoop items.list h hroom
  | pushBackN items =>
      exact agrees_pushN h hfits rfl rfl (foldl_storeBack_capacity _ r)
        fun hroom => Holds.pushBackLoop items.list h hroom

/-- A sum that wraps is less than the items there are, so the push is carried
    out; the list has no room. -/
theorem wraps {n : Nat} (h : Represents r xs) (items : Items α)
    (hn : n = items.list.length)
    (hsum : ¬ r.mCount.toNat + items.list.length < 2 ^ 32) :
    ¬ r.mCapacity < r.mCount + items.n ∧
      ¬ xs.length + n ≤ r.mCapacity.toNat := by
  have hbits := items.fits
  have hcap := r.mCapacity.toNat_lt
  have hcount : r.mCount.toNat ≤ r.mCapacity.toNat := h.count
  have hadd : (r.mCount + items.n).toNat =
      r.mCount.toNat + items.list.length - 2 ^ 32 := by
    rw [UInt32.toNat_add, items.n_toNat]
    omega
  refine ⟨?_, ?_⟩
  · rw [UInt32.lt_iff_toNat_lt, hadd]
    omega
  · rw [hn, h.length]
    omega

/-- A push that is carried out and should be refused. -/
theorem not_agrees {op : Op α} (hcall : (call r op).1 = .pushed true)
    (hdeque : (dequeCall r.mCapacity.toNat xs op).1 = .pushed false) :
    ¬ Agrees (r, xs) op := by
  intro hagrees
  have hreply := hcall.symm.trans (hagrees.reply.trans hdeque)
  cases hreply

theorem pushFrontN_wraps (h : Represents r xs) (items : Items α)
    (hsum : ¬ r.mCount.toNat + items.list.length < 2 ^ 32) :
    (call r (.pushFrontN items)).1 = .pushed true ∧
      ¬ Agrees (r, xs) (.pushFrontN items) := by
  obtain ⟨hpass, hroom⟩ := wraps h items rfl hsum
  have hcall : (call r (.pushFrontN items)).1 = .pushed true :=
    congrArg Prod.fst (if_neg hpass)
  exact ⟨hcall, not_agrees hcall (congrArg Prod.fst (if_neg hroom))⟩

theorem pushBackN_wraps (h : Represents r xs) (items : Items α)
    (hsum : ¬ r.mCount.toNat + items.list.length < 2 ^ 32) :
    (call r (.pushBackN items)).1 = .pushed true ∧
      ¬ Agrees (r, xs) (.pushBackN items) := by
  obtain ⟨hpass, hroom⟩ := wraps h items rfl hsum
  have hcall : (call r (.pushBackN items)).1 = .pushed true :=
    congrArg Prod.fst (if_neg hpass)
  exact ⟨hcall, not_agrees hcall (congrArg Prod.fst (if_neg hroom))⟩

/-- A call that agrees has a sum that fits. -/
theorem Represents.sumFits (h : Represents r xs) {op : Op α}
    (hagrees : Agrees (r, xs) op) : SumFits (r, xs) op := by
  cases op with
  | pushFrontN items =>
      by_contra hsum
      exact (pushFrontN_wraps h items hsum).2 hagrees
  | pushBackN items =>
      by_contra hsum
      exact (pushBackN_wraps h items hsum).2 hagrees
  | _ => trivial

/-- **BOUNDED DEQUE**: in every run of calls the buffer agrees with the list
    exactly as long as all sums fit. -/
theorem agrees_iff_sumFits {capacity : UInt32} (hpos : capacity ≠ 0)
    (ringBuf : Nat → α) (ops : List (Op α)) :
    Along step Agrees (RingBuffer.fresh capacity ringBuf, []) ops ↔
      Along step SumFits (RingBuffer.fresh capacity ringBuf, []) ops := by
  refine along_iff_along (I := fun p => Represents p.1 p.2) ?_ ?_ ops _
    (represents_fresh hpos ringBuf)
  · exact fun p op h => ⟨h.sumFits, h.agrees⟩
  · intro p op p' h hfits hs
    cases hs
    exact (h.agrees hfits).contents

end UbsIo.Ring
