import UbsIo.Slices.Model

/-! # Cutting slices

    A loop over the pieces of a slice keeps two things: how much of the slice
    is before the piece, and where the part that is left begins.  What it
    returns denotes the places of that part (`places_splitFrom`,
    `places_sliceIOFrom`).

    Two things have to hold for that.  The sum that `Split` compares has 64 bits,
    so a slice must not be longer than half of what they hold; and the offset of
    a piece has 32 bits, so no piece may end behind what they hold. -/

namespace UbsIo.Slices

open UbsIo.Lib

variable {a : FlowAddr} {addrs rest : List FlowAddr} {flowType : FlowType}
  {s s' : Slice} {k l : Nat}

/-! ## Places of pieces -/

@[simp] theorem length_part : (a.part flowType k l).length = l := by
  rw [FlowAddr.part, List.length_map, List.length_range']

@[simp] theorem length_addr :
    (a.places flowType).length = a.chunkLen.toNat := length_part

/-- A piece is what comes before a cut and what comes after. -/
theorem part_append (k l l' : Nat) :
    a.part flowType k l ++ a.part flowType (k + l) l' =
      a.part flowType k (l + l') := by
  rw [FlowAddr.part, FlowAddr.part, FlowAddr.part, ← List.map_append,
    ← Nat.add_assoc, List.range'_append_1]

theorem drop_part (j : Nat) :
    (a.part flowType k l).drop j = a.part flowType (k + j) (l - j) := by
  rw [FlowAddr.part, FlowAddr.part, ← List.map_drop, List.drop_range',
    Nat.mul_one, Nat.add_assoc]

theorem take_part {j : Nat} (h : j ≤ l) :
    (a.part flowType k l).take j = a.part flowType k j := by
  rw [show l = j + (l - j) by omega, ← part_append]
  exact List.take_left' length_part

@[simp] theorem length_places :
    (places flowType addrs).length = total addrs := by
  rw [places, List.length_flatMap, total]
  refine congrArg List.sum (List.map_congr_left fun a _ => ?_)
  exact length_part

theorem places_cons : places flowType (a :: rest) =
    a.places flowType ++ places flowType rest := rfl

theorem total_cons :
    total (a :: rest) = a.chunkLen.toNat + total rest := rfl

/-- The part lies behind the first piece. -/
theorem drop_places_of_le (rest : List FlowAddr) (flowType : FlowType)
    (h : a.chunkLen.toNat ≤ k) :
    (places flowType (a :: rest)).drop k =
      (places flowType rest).drop (k - a.chunkLen.toNat) := by
  rw [places_cons, List.drop_append, length_addr,
    List.drop_eq_nil_of_le (length_addr.trans_le h), List.nil_append]

/-- The part begins in the first piece. -/
theorem drop_places_cons (h : k ≤ a.chunkLen.toNat) :
    (places flowType (a :: rest)).drop k =
      a.part flowType k (a.chunkLen.toNat - k) ++ places flowType rest := by
  rw [places_cons, List.drop_append_of_le_length (h.trans_eq
    length_addr.symm), FlowAddr.places, drop_part, Nat.zero_add]

/-- The part lies in the first piece. -/
theorem take_drop_places (rest : List FlowAddr) (flowType : FlowType)
    (hk : k < a.chunkLen.toNat)
    (hl : l ≤ a.chunkLen.toNat - k) :
    ((places flowType (a :: rest)).drop k).take l = a.part flowType k l := by
  rw [drop_places_cons hk.le, List.take_append_of_le_length (hl.trans_eq
    length_part.symm), take_part hl]

/-- The part begins in the first piece and ends behind it. -/
theorem take_drop_places_of_le (rest : List FlowAddr) (flowType : FlowType)
    (hk : k < a.chunkLen.toNat)
    (hl : a.chunkLen.toNat - k ≤ l) :
    ((places flowType (a :: rest)).drop k).take l =
      a.part flowType k (a.chunkLen.toNat - k) ++
        (places flowType rest).take (l - (a.chunkLen.toNat - k)) := by
  rw [drop_places_cons hk.le, List.take_append, length_part,
    List.take_of_length_le (length_part.trans_le hl)]

/-- The piece ends where a number of 32 bits can tell. -/
def FlowAddr.Fits (a : FlowAddr) : Prop :=
  a.chunkOffset.toNat + a.chunkLen.toNat ≤ 2 ^ 32

/-- A part of a piece, as a piece. -/
theorem places_part {chunkOffset chunkLen : UInt32}
    (hoffset : chunkOffset.toNat = a.chunkOffset.toNat + k)
    (hlen : chunkLen.toNat = l) :
    FlowAddr.places ⟨a.chunkId, chunkOffset, chunkLen⟩ flowType =
      a.part flowType k l := by
  rw [FlowAddr.places, FlowAddr.part, FlowAddr.part, hlen, Nat.add_zero,
    hoffset]

theorem fits_part {chunkOffset chunkLen : UInt32} (h : a.Fits)
    (hoffset : chunkOffset.toNat = a.chunkOffset.toNat + k)
    (hlen : k + chunkLen.toNat ≤ a.chunkLen.toNat) :
    FlowAddr.Fits ⟨a.chunkId, chunkOffset, chunkLen⟩ := by
  have hfits : a.chunkOffset.toNat + a.chunkLen.toNat ≤ 2 ^ 32 := h
  show chunkOffset.toNat + chunkLen.toNat ≤ 2 ^ 32
  omega

/-- The offset of a part of a piece that fits. -/
theorem toNat_chunkOffset (offset : UInt64) (h : a.Fits)
    (hlt : offset.toNat < a.chunkLen.toNat) :
    (a.chunkOffset.toUInt64 + offset).toUInt32.toNat =
      a.chunkOffset.toNat + offset.toNat := by
  have hfits : a.chunkOffset.toNat + a.chunkLen.toNat ≤ 2 ^ 32 := h
  rw [UInt64.toNat_toUInt32, UInt64.toNat_add, UInt32.toNat_toUInt64]
  omega

/-- A number that is not above the length of a piece has 32 bits. -/
theorem toNat_chunkLen (length : UInt64)
    (h : length.toNat ≤ a.chunkLen.toNat) :
    length.toUInt32.toNat = length.toNat := by
  have hlt : a.chunkLen.toNat < 2 ^ 32 := a.chunkLen.toNat_lt
  rw [UInt64.toNat_toUInt32]
  omega

theorem toNat_add_of_lt {x y : UInt64} (h : x.toNat + y.toNat < 2 ^ 64) :
    (x + y).toNat = x.toNat + y.toNat := by
  rw [UInt64.toNat_add, Nat.mod_eq_of_lt h]

theorem exists_toNat {n : Nat} (h : n < 2 ^ 64) : ∃ x : UInt64, x.toNat = n :=
  ⟨UInt64.ofNat n, UInt64.toNat_ofNat_of_lt' h⟩

/-! ## The two loops -/

/-- What the loop of `Split` returns denotes the part that is left, on pieces
    that fit. -/
theorem splitFrom_spec (flowType : FlowType) (offset length : UInt64) :
    ∀ (addrs : List FlowAddr) (rangeStart splitStart : UInt64),
      (∀ a ∈ addrs, a.Fits) → rangeStart ≤ splitStart → offset ≤ splitStart →
      splitStart.toNat ≤ offset.toNat + length.toNat →
      offset.toNat + length.toNat ≤ rangeStart.toNat + total addrs →
      rangeStart.toNat + total addrs < 2 ^ 64 →
      places flowType
          (splitFrom offset length addrs rangeStart splitStart) =
        ((places flowType addrs).drop
          (splitStart.toNat - rangeStart.toNat)).take
            (offset.toNat + length.toNat - splitStart.toNat) ∧
      ∀ a ∈ splitFrom offset length addrs rangeStart splitStart, a.Fits := by
  intro addrs
  induction addrs with
  | nil =>
      intro rangeStart splitStart _ _ _ _ _ _
      refine ⟨?_, fun a ha => ?_⟩
      · exact List.take_nil.symm.trans (congrArg _ List.drop_nil.symm)
      · exact absurd ha List.not_mem_nil
  | cons a rest ih =>
      intro rangeStart splitStart hfits hrange hsplit hend hin hlt
      rw [total_cons] at hin hlt
      rw [UInt64.le_iff_toNat_le] at hrange hsplit
      have hchunk : a.chunkLen.toUInt64.toNat = a.chunkLen.toNat :=
        UInt32.toNat_toUInt64 _
      have hrangeEnd : (rangeStart + a.chunkLen.toUInt64).toNat =
          rangeStart.toNat + a.chunkLen.toNat := by
        rw [toNat_add_of_lt (by omega), hchunk]
      have hdone : (splitStart - offset).toNat =
          splitStart.toNat - offset.toNat :=
        UInt64.toNat_sub_of_le _ _ (UInt64.le_iff_toNat_le.mpr hsplit)
      have hleft : (length - (splitStart - offset)).toNat =
          offset.toNat + length.toNat - splitStart.toNat := by
        rw [UInt64.toNat_sub_of_le _ _ (UInt64.le_iff_toNat_le.mpr (by omega)),
          hdone]
        omega
      have hrest : ∀ a ∈ rest, a.Fits :=
        fun x hx => hfits x (List.mem_cons_of_mem _ hx)
      rw [splitFrom]
      split
      next hin' =>
        obtain ⟨-, hbefore⟩ := hin'
        rw [UInt64.lt_iff_toNat_lt, hrangeEnd] at hbefore
        have hsplitOffset : (splitStart - rangeStart).toNat =
            splitStart.toNat - rangeStart.toNat :=
          UInt64.toNat_sub_of_le _ _ (UInt64.le_iff_toNat_le.mpr hrange)
        have hsplitLen :
            (rangeStart + a.chunkLen.toUInt64 - splitStart).toNat =
              a.chunkLen.toNat - (splitStart.toNat - rangeStart.toNat) := by
          rw [UInt64.toNat_sub_of_le _ _
            (UInt64.le_iff_toNat_le.mpr (by omega)), hrangeEnd]
          omega
        have hhead := hfits a (List.mem_cons_self ..)
        have hoffset := toNat_chunkOffset (splitStart - rangeStart) hhead
          (by omega)
        dsimp only
        split
        next hlast =>
          -- the part ends in this piece
          rw [UInt64.le_iff_toNat_le, hleft, hsplitLen] at hlast
          have hlen := toNat_chunkLen (a := a) _ (hleft.trans_le (by omega))
          refine ⟨?_, fun x hx => ?_⟩
          · rw [places_cons, places_part hoffset hlen, hsplitOffset, hleft,
              take_drop_places _ _ (by omega) (by omega)]
            exact List.append_nil _
          · rw [List.mem_singleton.mp hx]
            exact fits_part hhead hoffset (by omega)
        next hmore =>
          rw [UInt64.le_iff_toNat_le, hleft, hsplitLen, Nat.not_le] at hmore
          have hnext : (splitStart +
              (rangeStart + a.chunkLen.toUInt64 - splitStart)).toNat =
              rangeStart.toNat + a.chunkLen.toNat := by
            rw [toNat_add_of_lt (by omega), hsplitLen]
            omega
          have hlen := toNat_chunkLen (a := a) _ (hsplitLen.trans_le
            (by omega))
          obtain ⟨hih, hfitsRest⟩ := ih (rangeStart + a.chunkLen.toUInt64)
            (splitStart + (rangeStart + a.chunkLen.toUInt64 - splitStart))
            hrest (UInt64.le_iff_toNat_le.mpr (by omega))
            (UInt64.le_iff_toNat_le.mpr (by omega)) (by omega) (by omega)
            (by omega)
          refine ⟨?_, fun x hx => ?_⟩
          · rw [places_cons, places_part hoffset hlen, hsplitOffset, hsplitLen,
              hih, hnext, hrangeEnd, Nat.sub_self, List.drop_zero,
              take_drop_places_of_le _ _ (by omega) (by omega)]
            congr 2
            omega
          · rcases List.mem_cons.mp hx with rfl | hx
            · exact fits_part hhead hoffset (by omega)
            · exact hfitsRest x hx
      next hout =>
        rw [not_and, UInt64.le_iff_toNat_le, UInt64.lt_iff_toNat_lt,
          hrangeEnd] at hout
        have hbehind := Nat.le_of_not_lt (hout hrange)
        obtain ⟨hih, hfitsRest⟩ := ih (rangeStart + a.chunkLen.toUInt64)
          splitStart hrest (UInt64.le_iff_toNat_le.mpr (by omega))
          (UInt64.le_iff_toNat_le.mpr hsplit) hend (by omega) (by omega)
        refine ⟨?_, hfitsRest⟩
        rw [hih, hrangeEnd, drop_places_of_le _ _ (by omega), Nat.sub_add_eq]

/-- The piece of `GetSliceFromSliceIO` lies in its address. -/
theorem sliceIOPiece_eq (offset length : UInt64) :
    sliceIOPiece a offset length =
      ⟨a.chunkId, (a.chunkOffset.toUInt64 + offset).toUInt32,
        (if a.chunkLen.toUInt64 - offset < length then
          a.chunkLen.toUInt64 - offset else length).toUInt32⟩ := by
  rw [sliceIOPiece]
  split
  · rfl
  next h =>
    rw [ne_eq, not_not] at h
    rw [h, UInt64.add_zero, UInt64.sub_zero, UInt32.toUInt32_toUInt64]

/-- **SLICE IO**: the other loop returns the same. -/
theorem places_sliceIOFrom :
    ∀ (addrs : List FlowAddr) (offset length : UInt64),
      (∀ a ∈ addrs, a.Fits) → offset.toNat + length.toNat ≤ total addrs →
      places flowType (sliceIOFrom addrs offset length) =
        ((places flowType addrs).drop offset.toNat).take length.toNat := by
  intro addrs
  induction addrs with
  | nil =>
      intro offset length _ _
      exact List.take_nil.symm.trans (congrArg _ List.drop_nil.symm)
  | cons a rest ih =>
      intro offset length hfits hin
      rw [total_cons] at hin
      have hchunk : a.chunkLen.toUInt64.toNat = a.chunkLen.toNat :=
        UInt32.toNat_toUInt64 _
      have hrest : ∀ a ∈ rest, a.Fits :=
        fun x hx => hfits x (List.mem_cons_of_mem _ hx)
      rw [sliceIOFrom]
      split
      next hbehind =>
        have hsub := UInt64.toNat_sub_of_le _ _ hbehind
        rw [UInt64.le_iff_toNat_le, hchunk] at hbehind
        rw [hchunk] at hsub
        rw [ih _ _ hrest (by omega), hsub, drop_places_of_le _ _ hbehind]
      next hin' =>
        rw [UInt64.not_le, UInt64.lt_iff_toNat_lt, hchunk] at hin'
        have hsub : (a.chunkLen.toUInt64 - offset).toNat =
            a.chunkLen.toNat - offset.toNat := by
          rw [UInt64.toNat_sub_of_le _ _
            (UInt64.le_iff_toNat_le.mpr (by omega)), hchunk]
        have hoffset := toNat_chunkOffset offset
          (hfits a (List.mem_cons_self ..)) hin'
        have hlen : (if a.chunkLen.toUInt64 - offset < length then
            a.chunkLen.toUInt64 - offset else length).toNat =
            min (a.chunkLen.toNat - offset.toNat) length.toNat := by
          split
          next h =>
            rw [UInt64.lt_iff_toNat_lt, hsub] at h
            rw [hsub, Nat.min_eq_left h.le]
          next h =>
            rw [UInt64.not_lt, UInt64.le_iff_toNat_le, hsub] at h
            rw [Nat.min_eq_right h]
        rw [sliceIOPiece_eq]
        dsimp only
        generalize (if a.chunkLen.toUInt64 - offset < length then
          a.chunkLen.toUInt64 - offset else length) = chunkLen at hlen ⊢
        have hpiece := toNat_chunkLen (a := a) chunkLen (by omega)
        have hnext : (length - chunkLen.toUInt32.toUInt64).toNat =
            length.toNat - chunkLen.toNat := by
          rw [UInt64.toNat_sub_of_le, UInt32.toNat_toUInt64, hpiece]
          rw [UInt64.le_iff_toNat_le, UInt32.toNat_toUInt64, hpiece]
          omega
        split
        next hall =>
          rw [← UInt64.toNat_inj, hnext] at hall
          have hzero : (0 : UInt64).toNat = 0 := rfl
          rw [places_cons, places_part hoffset hpiece,
            take_drop_places _ _ hin' (by omega),
            show chunkLen.toNat = length.toNat by omega]
          exact List.append_nil _
        next hmore =>
          rw [← UInt64.toNat_inj, hnext] at hmore
          have hzero : (0 : UInt64).toNat = 0 := rfl
          rw [places_cons, places_part hoffset hpiece,
            ih _ _ hrest (by omega), hnext, hzero, List.drop_zero,
            take_drop_places_of_le _ _ hin' (by omega),
            show chunkLen.toNat = a.chunkLen.toNat - offset.toNat by omega]

/-! ## Slices -/

/-- The pieces of the slice are as long as it says. -/
def Slice.Sized (s : Slice) : Prop :=
  total s.addrs = s.length.toNat

/-- `length` bytes of a slice, from `offset` on. -/
def Slice.range (s : Slice) (offset length : Nat) : List Place :=
  (s.places.drop offset).take length

/-- What the sum of `Split` and the offsets of the pieces can tell. -/
structure Slice.InWidths (s : Slice) : Prop where
  length : s.length.toNat ≤ 2 ^ 63
  fits : ∀ a ∈ s.addrs, a.Fits

/-- What cutting a slice is to do: `Split` returns a slice for the ranges in the
    slice and for no other, what it returns denotes the range, a second `Split`
    is one of the sum of the offsets, and `GetSliceFromSliceIO` denotes the
    same. -/
structure Slice.Cuts (s : Slice) : Prop where
  isSome : ∀ offset length, (split s offset length).isSome ↔
    offset < s.length ∧ offset.toNat + length.toNat ≤ s.length.toNat
  places : ∀ offset length s', split s offset length = some s' →
    s'.places = s.range offset.toNat length.toNat
  twice : ∀ a b c d s' s'', split s a b = some s' → split s' c d = some s'' →
    ∃ t, split s (a + c) d = some t ∧ t.places = s''.places
  sliceIo : ∀ offset length, offset < s.length →
    offset.toNat + length.toNat ≤ s.length.toNat →
    (getSliceFromSliceIo s offset length).places =
      s.range offset.toNat length.toNat

theorem split_isSome (hlen : s.length.toNat ≤ 2 ^ 63)
    (offset length : UInt64) : (split s offset length).isSome ↔
      offset < s.length ∧ offset.toNat + length.toNat ≤ s.length.toNat := by
  rw [split]
  split
  next hout =>
    rw [UInt64.le_iff_toNat_le, UInt64.lt_iff_toNat_lt, UInt64.lt_iff_toNat_lt,
      UInt64.toNat_add] at hout
    rw [UInt64.lt_iff_toNat_lt]
    constructor
    · exact nofun
    · omega
  next hin =>
    rw [not_or, not_or, UInt64.le_iff_toNat_le, UInt64.lt_iff_toNat_lt,
      UInt64.lt_iff_toNat_lt, UInt64.toNat_add] at hin
    rw [UInt64.lt_iff_toNat_lt]
    constructor
    · intro _
      omega
    · intro _
      split
      all_goals rfl

/-- **SPLIT**: the slice that is returned has the length that was asked for,
    and denotes the range. -/
theorem split_spec {offset length : UInt64} (hs : s.Sized) (hw : s.InWidths)
    (h : split s offset length = some s') :
    s'.length = length ∧ s'.places = s.range offset.toNat length.toNat ∧
      ∀ a ∈ s'.addrs, a.Fits := by
  have hsized : total s.addrs = s.length.toNat := hs
  have hlt : s.length.toNat < 2 ^ 64 := s.length.toNat_lt
  obtain ⟨hoffset, hend⟩ := (split_isSome hw.length offset length).mp
    (Option.isSome_of_eq_some h)
  rw [UInt64.lt_iff_toNat_lt] at hoffset
  rw [split] at h
  split at h
  · cases h
  · split at h
    next hall =>
      obtain ⟨rfl, rfl⟩ := hall
      cases h
      refine ⟨rfl, ?_, hw.fits⟩
      exact (List.take_of_length_le (length_places.trans_le hsized.le)).symm
    next =>
      cases h
      have hzero : (0 : UInt64).toNat = 0 := rfl
      obtain ⟨hplaces, hfits⟩ := splitFrom_spec s.flowType offset length
        s.addrs 0 offset hw.fits UInt64.zero_le (UInt64.le_refl _)
        (Nat.le_add_right ..) (by omega) (by omega)
      rw [hzero, Nat.sub_zero, Nat.add_sub_cancel_left] at hplaces
      exact ⟨rfl, hplaces, hfits⟩

theorem length_range (s : Slice) (offset length : Nat) :
    (s.range offset length).length = min length (total s.addrs - offset) := by
  rw [Slice.range, List.length_take, List.length_drop]
  exact congrArg _ (congrArg (· - offset) length_places)

/-- A part of a slice is a slice of which the same is known. -/
theorem split_sized {offset length : UInt64} (hs : s.Sized) (hw : s.InWidths)
    (h : split s offset length = some s') : s'.Sized ∧ s'.InWidths := by
  have hsized : total s.addrs = s.length.toNat := hs
  obtain ⟨hoffset, hend⟩ := (split_isSome hw.length offset length).mp
    (Option.isSome_of_eq_some h)
  obtain ⟨hlen, hplaces, hfits⟩ := split_spec hs hw h
  refine ⟨?_, ?_, hfits⟩
  · have hcount := congrArg List.length hplaces
    rw [length_range, Slice.places, length_places] at hcount
    show total s'.addrs = s'.length.toNat
    rw [hcount, hlen, hsized]
    omega
  · rw [hlen]
    have := hw.length
    omega

/-- **CUTTING**: where the widths suffice, cutting a slice does what it is to
    do. -/
theorem cuts_of_inWidths (hs : s.Sized) (hw : s.InWidths) : s.Cuts := by
  have hsized : total s.addrs = s.length.toNat := hs
  refine ⟨split_isSome hw.length, ?_, ?_, ?_⟩
  case refine_1 =>
    intro offset length s' h
    exact (split_spec hs hw h).2.1
  case refine_2 =>
    intro a b c d s' s'' h h'
    obtain ⟨ha, hb⟩ := (split_isSome hw.length a b).mp
      (Option.isSome_of_eq_some h)
    obtain ⟨hs', hw'⟩ := split_sized hs hw h
    obtain ⟨hlen, hplaces, -⟩ := split_spec hs hw h
    obtain ⟨-, hplaces', -⟩ := split_spec hs' hw' h'
    obtain ⟨hc, hd⟩ := (split_isSome hw'.length c d).mp
      (Option.isSome_of_eq_some h')
    rw [hlen, UInt64.lt_iff_toNat_lt] at hc
    rw [hlen] at hd
    have hlt : s.length.toNat < 2 ^ 64 := s.length.toNat_lt
    have hsum : (a + c).toNat = a.toNat + c.toNat :=
      toNat_add_of_lt (by omega)
    have hsome : (split s (a + c) d).isSome := by
      rw [split_isSome hw.length, UInt64.lt_iff_toNat_lt, hsum]
      omega
    obtain ⟨t, ht⟩ := Option.isSome_iff_exists.mp hsome
    refine ⟨t, ht, ?_⟩
    rw [(split_spec hs hw ht).2.1, hplaces', Slice.range, Slice.range, hplaces,
      Slice.range, hsum, List.drop_take, List.drop_drop, List.take_take,
      Nat.min_eq_left (by omega)]
  case refine_3 =>
    intro offset length _ hend
    exact places_sliceIOFrom s.addrs offset length hw.fits (by omega)

/-- A range whose end has more than 64 bits is taken for one that ends before
    the slice does. -/
theorem length_of_cuts (h : s.Cuts) : s.length.toNat ≤ 2 ^ 63 := by
  by_contra hlong
  have hlt : s.length.toNat < 2 ^ 64 := s.length.toNat_lt
  obtain ⟨half, hhalf⟩ := exists_toNat (n := 2 ^ 63) (by decide)
  have hsome : (split s half half).isSome := by
    rw [split, if_neg]
    · split
      all_goals rfl
    · rw [not_or, not_or, UInt64.le_iff_toNat_le, UInt64.lt_iff_toNat_lt,
        UInt64.lt_iff_toNat_lt, UInt64.toNat_add, hhalf]
      omega
  have hend := ((h.isSome _ _).mp hsome).2
  rw [hhalf] at hend
  omega

theorem total_append (pre : List FlowAddr) :
    total (pre ++ rest) = total pre + total rest := by
  rw [total, List.map_append, List.sum_append]
  rfl

theorem places_append (pre : List FlowAddr) :
    places flowType (pre ++ rest) =
      places flowType pre ++ places flowType rest := List.flatMap_append

/-- The loop passes the pieces before the range. -/
theorem sliceIOFrom_append (rest : List FlowAddr) (length : UInt64) :
    ∀ (pre : List FlowAddr) (offset : UInt64), total pre ≤ offset.toNat →
      ∃ offset' : UInt64, offset'.toNat = offset.toNat - total pre ∧
        sliceIOFrom (pre ++ rest) offset length =
          sliceIOFrom rest offset' length := by
  intro pre
  induction pre with
  | nil => exact fun offset _ => ⟨offset, rfl, rfl⟩
  | cons a pre ih =>
      intro offset hle
      rw [total_cons] at hle
      have hbehind : a.chunkLen.toUInt64 ≤ offset := by
        rw [UInt64.le_iff_toNat_le, UInt32.toNat_toUInt64]
        omega
      have hsub := UInt64.toNat_sub_of_le _ _ hbehind
      rw [UInt32.toNat_toUInt64] at hsub
      obtain ⟨offset', hoffset', heq⟩ := ih (offset - a.chunkLen.toUInt64)
        (by omega)
      refine ⟨offset', ?_, ?_⟩
      · rw [hoffset', hsub, total_cons, Nat.sub_add_eq]
      · rw [List.cons_append, sliceIOFrom, if_pos hbehind, heq]

theorem place_ne (flowType : FlowType) (chunkId : UInt64) :
    place flowType chunkId 0 ≠ place flowType chunkId (2 ^ 32) := by
  intro h
  rw [place, place] at h
  split at h
  · cases h
  · have heq := congrArg UInt64.toNat (Place.memory.inj h)
    have hmod : (UInt64.ofNat (2 ^ 32)).toNat = 2 ^ 32 := by decide
    have hzero : (UInt64.ofNat 0).toNat = 0 := rfl
    rw [UInt64.toNat_add, UInt64.toNat_add, hmod, hzero] at heq
    have hlt : chunkId.toNat < 2 ^ 64 := chunkId.toNat_lt
    omega

/-- The offset of a piece wraps where it has more than 32 bits. -/
theorem fits_of_cuts (hs : s.Sized) (h : s.Cuts) : ∀ a ∈ s.addrs, a.Fits := by
  intro a ha
  by_contra hlong
  have hsized : total s.addrs = s.length.toNat := hs
  have hlt : s.length.toNat < 2 ^ 64 := s.length.toNat_lt
  have hoffset : a.chunkOffset.toNat < 2 ^ 32 := a.chunkOffset.toNat_lt
  have hlong : 2 ^ 32 < a.chunkOffset.toNat + a.chunkLen.toNat :=
    Nat.lt_of_not_le hlong
  obtain ⟨pre, post, haddrs⟩ := List.append_of_mem ha
  rw [haddrs, total_append, total_cons] at hsized
  -- the byte at which the offset wraps
  obtain ⟨offset, hcut⟩ := exists_toNat
    (n := total pre + (2 ^ 32 - a.chunkOffset.toNat)) (by omega)
  have hone : (1 : UInt64).toNat = 1 := rfl
  have hplaces := h.sliceIo offset 1 (UInt64.lt_iff_toNat_lt.mpr (by omega))
    (by omega)
  obtain ⟨offset', hoffset', heq⟩ := sliceIOFrom_append (a :: post) 1 pre
    offset (by omega)
  rw [hcut, Nat.add_sub_cancel_left] at hoffset'
  have hwrap : (a.chunkOffset.toUInt64 + offset').toUInt32.toNat = 0 := by
    rw [UInt64.toNat_toUInt32, UInt64.toNat_add, UInt32.toNat_toUInt64]
    omega
  have hsub : (a.chunkLen.toUInt64 - offset').toNat =
      a.chunkLen.toNat - offset'.toNat := by
    rw [UInt64.toNat_sub_of_le, UInt32.toNat_toUInt64]
    rw [UInt64.le_iff_toNat_le, UInt32.toNat_toUInt64]
    omega
  have hpiece : sliceIOPiece a offset' 1 =
      ⟨a.chunkId, (a.chunkOffset.toUInt64 + offset').toUInt32, 1⟩ := by
    have hlen : (if a.chunkLen.toUInt64 - offset' < 1 then
        a.chunkLen.toUInt64 - offset' else 1) = 1 := by
      rw [if_neg]
      rw [UInt64.lt_iff_toNat_lt, hsub, hone]
      omega
    rw [sliceIOPiece_eq, hlen]
    rfl
  have hloop : sliceIOFrom (a :: post) offset' 1 =
      [sliceIOPiece a offset' 1] := by
    rw [sliceIOFrom, if_neg]
    · dsimp only
      rw [hpiece]
      exact if_pos (by rfl : (1 : UInt64) - (1 : UInt32).toUInt64 = 0)
    · rw [UInt64.le_iff_toNat_le, UInt32.toNat_toUInt64]
      omega
  have hcode : (getSliceFromSliceIo s offset 1).places =
      [place s.flowType a.chunkId 0] := by
    show places s.flowType (sliceIOFrom s.addrs offset 1) = _
    rw [haddrs, heq, hloop, hpiece, places_cons, FlowAddr.places,
      FlowAddr.part, hwrap]
    rfl
  have hrange : s.range offset.toNat 1 =
      [place s.flowType a.chunkId (2 ^ 32)] := by
    rw [Slice.range, Slice.places, haddrs, hcut, places_append,
      ← @length_places pre s.flowType,
      List.drop_length_add_append, take_drop_places _ _ (by omega) (by omega),
      FlowAddr.part, Nat.add_sub_cancel' hoffset.le]
    rfl
  rw [hcode, hone, hrange] at hplaces
  exact place_ne _ _ (List.cons.inj hplaces).1

/-- **CUTS**: cutting a slice does what it is to do if and only if the slice
    has at most half of the bytes that 64 bits can count, and none of its pieces
    ends behind what the 32 bits of an offset can tell. -/
theorem cuts_iff_inWidths (hs : s.Sized) : s.Cuts ↔ s.InWidths :=
  ⟨fun h => ⟨length_of_cuts h, fits_of_cuts hs h⟩, cuts_of_inWidths hs⟩

/-- Two pieces, cut in the second one and across the border. -/
theorem cuts_iff_inWidths_two :
    Slice.Cuts ⟨0, flowDisk, 7, [⟨1, 4, 3⟩, ⟨2, 0, 4⟩]⟩ ↔
      Slice.InWidths ⟨0, flowDisk, 7, [⟨1, 4, 3⟩, ⟨2, 0, 4⟩]⟩ :=
  cuts_iff_inWidths rfl

/-- More than `2 ^ 31` pieces that fit: a range is taken for one in the slice
    whose end is `2 ^ 64`. -/
theorem long_slice_not_cuts :
    ¬ ∀ s : Slice, s.Sized → (∀ a ∈ s.addrs, 0 < a.chunkLen ∧ a.Fits) →
      s.Cuts := by
  intro h
  obtain ⟨length, hlength⟩ := exists_toNat
    (n := (2 ^ 31 + 1) * (2 ^ 32 - 1)) (by decide)
  have hcuts := h ⟨0, flowMemory, length,
    List.replicate (2 ^ 31 + 1) ⟨0, 0, 4294967295⟩⟩ ?_ ?_
  · have hle := length_of_cuts hcuts
    rw [hlength] at hle
    revert hle
    decide
  · show total _ = length.toNat
    rw [hlength, total, List.map_replicate, List.sum_replicate]
    rfl
  · intro a ha
    rw [List.eq_of_mem_replicate ha]
    exact ⟨by decide, (by decide : 0 + 4294967295 ≤ 2 ^ 32)⟩

end UbsIo.Slices
