import UbsIo.Slices.Split

/-! # Copying slices

    The copies go through two lists of pieces that need not match.  Every
    iteration transfers what is left of the shorter piece, so the rest of the
    source and the rest of the destination stay equally long, and the loop as a
    whole is one transfer of the places of the source to those of the
    destination (`copyFrom_spec`).  A copy of a buffer into a range of a slice is
    one, too (`copyRangeFrom_spec`). -/

namespace UbsIo.Slices

open UbsIo.Lib

variable {a : FlowAddr} {addrs rest : List FlowAddr} {flowType : FlowType}
  {s : Slice} {k l : Nat} {m : Store} {outcomes : Outcomes}

/-! ## Between slices -/

/-- What is left of a list of pieces, `offset` bytes into the first one. -/
def left (flowType : FlowType) (addrs : List FlowAddr) (offset : Nat) :
    List Place :=
  (places flowType addrs).drop offset

/-- The offset lies in the first piece. -/
def Begins (addrs : List FlowAddr) (offset : Nat) : Prop :=
  ∀ a rest, addrs = a :: rest → offset ≤ a.chunkLen.toNat

theorem begins_zero : Begins addrs 0 := fun _ _ _ => Nat.zero_le _

/-- **STEP**: what is left begins with what the iteration transfers. -/
theorem left_cons (flowType : FlowType) (rest : List FlowAddr) (k l : Nat)
    (h : k + l ≤ a.chunkLen.toNat) :
    left flowType (a :: rest) k =
      a.part flowType k l ++ left flowType (nextAddr a rest k l).1
        (nextAddr a rest k l).2 ∧
      Begins (nextAddr a rest k l).1 (nextAddr a rest k l).2 := by
  rw [left, drop_places_cons (by omega), nextAddr]
  split
  next hdone =>
    refine ⟨?_, begins_zero⟩
    rw [show a.chunkLen.toNat - k = l by omega]
    rfl
  next =>
    refine ⟨?_, ?_⟩
    · rw [left, drop_places_cons h, ← List.append_assoc, part_append]
      congr 2
      omega
    · rintro b rest' ⟨⟩
      exact h

theorem length_nextAddr (a : FlowAddr) (rest : List FlowAddr) (k l : Nat) :
    (nextAddr a rest k l).1.length ≤ rest.length + 1 ∧
      (k + l = a.chunkLen.toNat →
        (nextAddr a rest k l).1.length = rest.length) := by
  rw [nextAddr]
  split
  · exact ⟨Nat.le_succ _, fun _ => rfl⟩
  next h => exact ⟨Nat.le_refl _, fun h' => absurd h' h⟩

/-- **COPY**: the loop ends, and is one transfer. -/
theorem copyFrom_spec {fromType toType : FlowType}
    (hok : ∀ k, outcomes k = .ok) :
    ∀ (fuel k : Nat) (fromAddrs : List FlowAddr) (fromOffset : Nat)
      (toAddrs : List FlowAddr) (toOffset : Nat) (m : Store),
      fromAddrs.length + toAddrs.length ≤ fuel →
      Begins fromAddrs fromOffset → Begins toAddrs toOffset →
      (left toType toAddrs toOffset).length =
        (left fromType fromAddrs fromOffset).length →
      (∀ x ∈ left fromType fromAddrs fromOffset,
        x ∉ left toType toAddrs toOffset) →
      copyFrom fromType toType outcomes fuel k fromAddrs fromOffset toAddrs
          toOffset m =
        some (.ok (transfer m (left toType toAddrs toOffset)
          (left fromType fromAddrs fromOffset))) := by
  intro fuel
  induction fuel with
  | zero =>
      intro k fromAddrs fromOffset toAddrs toOffset m hfuel _ _ hlen _
      have hfrom : fromAddrs = [] := List.eq_nil_of_length_eq_zero (by omega)
      have hto : toAddrs = [] := List.eq_nil_of_length_eq_zero (by omega)
      subst hfrom hto
      rw [copyFrom, left, left, places, List.flatMap_nil, List.drop_nil]
      rfl
  | succ fuel ih =>
      intro k fromAddrs fromOffset toAddrs toOffset m hfuel hfrom hto hlen
        hdisj
      cases fromAddrs with
      | nil =>
          have hnil : left fromType [] fromOffset = [] := List.drop_nil
          rw [hnil, List.length_nil] at hlen
          rw [copyFrom, hnil, List.eq_nil_of_length_eq_zero hlen]
          rfl
      | cons f fromRest =>
          cases toAddrs with
          | nil =>
              have hnil : left toType [] toOffset = [] := List.drop_nil
              rw [hnil, List.length_nil] at hlen
              rw [copyFrom, hnil, List.eq_nil_of_length_eq_zero hlen.symm]
              rfl
          | cons t toRest =>
              have hf := hfrom f fromRest rfl
              have ht := hto t toRest rfl
              obtain ⟨len, hmin⟩ : ∃ len, len =
                min (f.chunkLen.toNat - fromOffset)
                  (t.chunkLen.toNat - toOffset) := ⟨_, rfl⟩
              obtain ⟨hfromLeft, hfrom'⟩ := left_cons (a := f) fromType
                fromRest fromOffset len (by omega)
              obtain ⟨htoLeft, hto'⟩ := left_cons (a := t) toType
                toRest toOffset len (by omega)
              obtain ⟨hfromLe, hfromEq⟩ :=
                length_nextAddr f fromRest fromOffset len
              obtain ⟨htoLe, htoEq⟩ := length_nextAddr t toRest toOffset len
              rw [hfromLeft, htoLeft, List.length_append, List.length_append,
                length_part, length_part] at hlen
              rw [hfromLeft, htoLeft] at hdisj
              rw [copyFrom, if_pos (hok k)]
              dsimp only
              rw [← hmin, ih _ _ _ _ _ _ ?_ hfrom' hto' (by omega) ?_,
                hfromLeft, htoLeft, transfer_append]
              · rw [length_part, length_part]
              · intro x hx hx'
                exact hdisj x (List.mem_append_right _ hx)
                  (List.mem_append_left _ hx')
              · -- one of the two pieces is done
                simp only [List.length_cons] at hfuel
                rcases Nat.le_total (f.chunkLen.toNat - fromOffset)
                  (t.chunkLen.toNat - toOffset) with hle | hle
                · have := hfromEq (by omega)
                  omega
                · have := htoEq (by omega)
                  omega
              · intro x hx hx'
                exact hdisj x (List.mem_append_right _ hx)
                  (List.mem_append_right _ hx')

/-! ## From a buffer -/

theorem buffer_append (buff : UInt64) (k l l' : Nat) :
    buffer buff k l ++ buffer buff (k + l) l' = buffer buff k (l + l') := by
  rw [buffer, buffer, buffer, ← List.map_append, List.range'_append_1]

@[simp] theorem length_buffer {buff : UInt64} :
    (buffer buff k l).length = l := by
  rw [buffer, List.length_map, List.length_range']

/-- **COPY OF A RANGE**: the loop is one transfer to the range. -/
theorem copyRangeFrom_spec {buff : UInt64} (hok : ∀ k, outcomes k = .ok) :
    ∀ (toAddrs : List FlowAddr) (k : Nat) (offset offset1 offset2 : UInt64)
      (len1 : UInt32) (m : Store), offset ≤ offset1 →
      offset1.toNat + len1.toNat ≤ offset.toNat + total toAddrs →
      offset.toNat + total toAddrs < 2 ^ 64 →
      offset2.toNat + len1.toNat < 2 ^ 64 →
      (∀ x ∈ buffer buff offset2.toNat len1.toNat,
        x ∉ ((places flowMemory toAddrs).drop
          (offset1.toNat - offset.toNat)).take len1.toNat) →
      copyRangeFrom buff outcomes k toAddrs offset offset1 offset2 len1 m =
        .ok (transfer m (((places flowMemory toAddrs).drop
            (offset1.toNat - offset.toNat)).take len1.toNat)
          (buffer buff offset2.toNat len1.toNat)) := by
  intro toAddrs
  induction toAddrs with
  | nil =>
      intro k offset offset1 offset2 len1 m hle hin _ _ _
      rw [UInt64.le_iff_toNat_le] at hle
      have hzero : len1.toNat = 0 := by
        have hnil : total [] = 0 := rfl
        omega
      rw [copyRangeFrom, hzero, List.take_zero]
      rfl
  | cons a rest ih =>
      intro k offset offset1 offset2 len1 m hle hin hlt hbuff hdisj
      rw [total_cons] at hin hlt
      have hle' := UInt64.le_iff_toNat_le.mp hle
      have hchunk : a.chunkLen.toUInt64.toNat = a.chunkLen.toNat :=
        UInt32.toNat_toUInt64 _
      have hends : (offset + a.chunkLen.toUInt64).toNat =
          offset.toNat + a.chunkLen.toNat := by
        rw [toNat_add_of_lt (by omega), hchunk]
      rw [copyRangeFrom]
      dsimp only
      split
      next hbehind =>
        rw [UInt64.le_iff_toNat_le, hends] at hbehind
        have hdrop := drop_places_of_le (a := a) rest flowMemory
          (show a.chunkLen.toNat ≤ offset1.toNat - offset.toNat by omega)
        have hsub : offset1.toNat - offset.toNat - a.chunkLen.toNat =
            offset1.toNat - (offset + a.chunkLen.toUInt64).toNat := by
          rw [hends, Nat.sub_add_eq]
        rw [hdrop, hsub] at hdisj ⊢
        exact ih _ _ _ _ _ _ (UInt64.le_iff_toNat_le.mpr (by omega))
          (by omega) (by omega) hbuff hdisj
      next hin' =>
        rw [UInt64.not_le, UInt64.lt_iff_toNat_lt, hends] at hin'
        have hboff : (offset1 - offset).toNat =
            offset1.toNat - offset.toNat := UInt64.toNat_sub_of_le _ _ hle
        have hlen1 : len1.toUInt64.toNat = len1.toNat :=
          UInt32.toNat_toUInt64 _
        have hleft : (a.chunkLen.toUInt64 - (offset1 - offset)).toNat =
            a.chunkLen.toNat - (offset1.toNat - offset.toNat) := by
          rw [UInt64.toNat_sub_of_le _ _
            (UInt64.le_iff_toNat_le.mpr (by omega)), hchunk, hboff]
        have hblen :
            (if a.chunkLen.toUInt64 - (offset1 - offset) < len1.toUInt64 then
              a.chunkLen.toUInt64 - (offset1 - offset)
              else len1.toUInt64).toNat =
            min (a.chunkLen.toNat - (offset1.toNat - offset.toNat))
              len1.toNat := by
          split
          next h =>
            rw [UInt64.lt_iff_toNat_lt, hleft, hlen1] at h
            rw [hleft, Nat.min_eq_left h.le]
          next h =>
            rw [UInt64.not_lt, UInt64.le_iff_toNat_le, hleft, hlen1] at h
            rw [hlen1, Nat.min_eq_right h]
        generalize (if a.chunkLen.toUInt64 - (offset1 - offset) <
          len1.toUInt64 then a.chunkLen.toUInt64 - (offset1 - offset)
          else len1.toUInt64) = blen at hblen ⊢
        split
        next hnone =>
          have hzero : len1.toNat = 0 := by
            rw [← UInt64.toNat_inj, hblen] at hnone
            have : (0 : UInt64).toNat = 0 := rfl
            omega
          rw [hzero, List.take_zero]
          rfl
        next =>
          have hsub : (len1.toUInt64 - blen).toUInt32.toNat =
              len1.toNat - blen.toNat := by
            have hlt1 : len1.toNat < 2 ^ 32 := len1.toNat_lt
            rw [UInt64.toNat_toUInt32, UInt64.toNat_sub_of_le _ _
              (UInt64.le_iff_toNat_le.mpr (by omega)), hlen1]
            omega
          have hnext : (offset2 + blen).toNat = offset2.toNat + blen.toNat :=
            toNat_add_of_lt (by omega)
          -- the range begins with what is copied to this address
          have hdst : ((places flowMemory (a :: rest)).drop
              (offset1.toNat - offset.toNat)).take len1.toNat =
              a.part flowMemory (offset1 - offset).toNat blen.toNat ++
                ((places flowMemory rest).drop 0).take
                  (len1.toUInt64 - blen).toUInt32.toNat := by
            rw [hboff, hsub, List.drop_zero]
            rcases Nat.le_total (a.chunkLen.toNat -
              (offset1.toNat - offset.toNat)) len1.toNat with h | h
            · rw [take_drop_places_of_le _ _ (by omega) h,
                show blen.toNat = a.chunkLen.toNat -
                  (offset1.toNat - offset.toNat) by omega]
            · rw [take_drop_places _ _ (by omega) h,
                show blen.toNat = len1.toNat by omega, Nat.sub_self,
                List.take_zero, List.append_nil]
          have hsrc : buffer buff offset2.toNat len1.toNat =
              buffer buff offset2.toNat blen.toNat ++
                buffer buff (offset2 + blen).toNat
                  (len1.toUInt64 - blen).toUInt32.toNat := by
            rw [hnext, hsub, buffer_append]
            congr 1
            omega
          rw [hdst, hsrc] at hdisj ⊢
          have hself : (offset + a.chunkLen.toUInt64).toNat -
              (offset + a.chunkLen.toUInt64).toNat = 0 := Nat.sub_self _
          have hrest := ih (k + 1) (offset + a.chunkLen.toUInt64)
            (offset + a.chunkLen.toUInt64) (offset2 + blen)
            (len1.toUInt64 - blen).toUInt32
            (transfer m (a.part flowMemory (offset1 - offset).toNat blen.toNat)
              (buffer buff offset2.toNat blen.toNat)) (UInt64.le_refl _)
            (by omega) (by omega) (by omega)
          rw [hself] at hrest
          rw [if_pos (hok k), hrest, transfer_append]
          · rw [length_part, length_buffer]
          · intro x hx hx'
            exact hdisj x (List.mem_append_right _ hx)
              (List.mem_append_left _ hx')
          · intro x hx hx'
            exact hdisj x (List.mem_append_right _ hx)
              (List.mem_append_right _ hx')

/-! ## The copies -/

/-- Which of the three copies between slices. -/
inductive Copier where
  | memoryToMemory | memoryToDisk | diskToMemory
deriving DecidableEq, Repr

def Copier.fromType : Copier → FlowType
  | .diskToMemory => flowDisk
  | _ => flowMemory

def Copier.toType : Copier → FlowType
  | .memoryToDisk => flowDisk
  | _ => flowMemory

def Copier.copy : Copier → Outcomes → Slice → Slice → Store →
    Option (Except BResult Store)
  | .memoryToMemory => copyFromMemoryToMemory
  | .memoryToDisk => copyFromMemoryToDisk
  | .diskToMemory => copyFromDiskToMemory

/-- What a copy of the places `src` to the places `dst` leaves. -/
structure Copied (m m' : Store) (dst src : List Place) : Prop where
  bytes : dst.map m' = src.map m
  others : ∀ x, x ∉ dst → m' x = m x

theorem copied_transfer {dst src : List Place} (hnodup : dst.Nodup)
    (hlen : dst.length = src.length) : Copied m (transfer m dst src) dst src :=
  ⟨map_transfer hnodup hlen, fun _ hx => transfer_of_notMem hx⟩

theorem left_zero (flowType : FlowType) (addrs : List FlowAddr) :
    left flowType addrs 0 = places flowType addrs := List.drop_zero

theorem ofBdm_ok (hok : ∀ k, outcomes k = .ok) (k : Nat) :
    ofBdm (outcomes k) = .ok := by
  rw [hok k]
  rfl

/-- A copy between slices that are equally long is one transfer. -/
theorem copier_spec (c : Copier) {fromSlice toSlice : Slice}
    (hok : ∀ k, outcomes k = .ok) (hfrom : fromSlice.Sized)
    (hto : toSlice.Sized) (hlen : fromSlice.length = toSlice.length)
    (hdisj : ∀ x ∈ places c.fromType fromSlice.addrs,
      x ∉ places c.toType toSlice.addrs) :
    c.copy outcomes fromSlice toSlice m =
      some (.ok (transfer m (places c.toType toSlice.addrs)
        (places c.fromType fromSlice.addrs))) := by
  have hlen' : (left c.toType toSlice.addrs 0).length =
      (left c.fromType fromSlice.addrs 0).length := by
    rw [left_zero, left_zero, length_places, length_places]
    exact hto.trans ((congrArg UInt64.toNat hlen.symm).trans hfrom.symm)
  rw [← left_zero c.fromType, ← left_zero c.toType] at hdisj ⊢
  cases c with
  | memoryToMemory =>
      exact copyFrom_spec hok _ _ _ _ _ _ _ (Nat.le_refl _) begins_zero
        begins_zero hlen' hdisj
  | memoryToDisk =>
      exact copyFrom_spec (ofBdm_ok hok) _ _ _ _ _ _ _ (Nat.le_refl _)
        begins_zero begins_zero hlen' hdisj
  | diskToMemory =>
      exact copyFrom_spec (ofBdm_ok hok) _ _ _ _ _ _ _ (Nat.le_refl _)
        begins_zero begins_zero hlen' hdisj

/-- A copy of a buffer into a range of a slice is one transfer. -/
theorem copyRange_spec {buff start : UInt64} {len : UInt32}
    (hok : ∀ k, outcomes k = .ok) (hbuff : buff ≠ 0) (hs : s.Sized)
    (hmemory : s.flowType = flowMemory)
    (hin : start.toNat + len.toNat ≤ s.length.toNat)
    (hdisj : ∀ x ∈ buffer buff 0 len.toNat,
      x ∉ s.range start.toNat len.toNat) :
    copyRange outcomes buff start len s m =
      .ok (transfer m (s.range start.toNat len.toNat)
        (buffer buff 0 len.toNat)) := by
  have hsized : total s.addrs = s.length.toNat := hs
  have hlt : s.length.toNat < 2 ^ 64 := s.length.toNat_lt
  have hlen : len.toNat < 2 ^ 32 := len.toNat_lt
  have hzero : (0 : UInt64).toNat = 0 := rfl
  rw [copyRange, if_neg hbuff, if_neg (not_not.mpr hmemory)]
  rw [Slice.range, Slice.places, hmemory] at hdisj ⊢
  exact copyRangeFrom_spec hok s.addrs 0 0 start 0 len m UInt64.zero_le
    (by omega) (by omega) (by omega) hdisj

theorem places_of_ne (h : flowType ≠ flowDisk) :
    places flowType addrs = places flowMemory addrs := by
  have hplace : place flowType = place flowMemory := by
    funext chunkId offset
    rw [place, place, if_neg h, if_neg (by decide)]
  rw [places, places]
  congr 1
  funext a
  rw [FlowAddr.places, FlowAddr.places, FlowAddr.part, FlowAddr.part, hplace]

/-- `Copy` leaves a slice that has the same pieces as it is, and does one of the
    three copies else; from disk to disk there is none. -/
theorem copy_copies {fromSlice toSlice : Slice} (hok : ∀ k, outcomes k = .ok)
    (hfrom : fromSlice.Sized) (hto : toSlice.Sized)
    (hlen : fromSlice.length = toSlice.length)
    (hdisk : ¬ (fromSlice.flowType = flowDisk ∧ toSlice.flowType = flowDisk))
    (hnodup : toSlice.places.Nodup)
    (hdisj : (fromSlice.flowType = toSlice.flowType ∧
      fromSlice.addrs = toSlice.addrs) ∨
        ∀ x ∈ fromSlice.places, x ∉ toSlice.places) :
    ∃ m', copy outcomes fromSlice toSlice m = some (.ok m') ∧
      Copied m m' toSlice.places fromSlice.places := by
  rw [copy, if_neg (not_not.mpr hlen)]
  by_cases hsame : fromSlice.flowType = toSlice.flowType ∧
      fromSlice.addrs = toSlice.addrs
  · rw [if_pos hsame]
    refine ⟨m, rfl, ?_, fun _ _ => rfl⟩
    rw [Slice.places, Slice.places, hsame.1, hsame.2]
  · rw [if_neg hsame]
    have hdisj := hdisj.resolve_left hsame
    -- which of the copies it is, and what the types mean
    have hcopier (c : Copier)
        (hf : fromSlice.places = places c.fromType fromSlice.addrs)
        (ht : toSlice.places = places c.toType toSlice.addrs) :
        ∃ m', c.copy outcomes fromSlice toSlice m = some (.ok m') ∧
          Copied m m' toSlice.places fromSlice.places := by
      rw [hf, ht] at hdisj ⊢
      rw [ht] at hnodup
      refine ⟨_, copier_spec c hok hfrom hto hlen hdisj,
        copied_transfer hnodup ?_⟩
      rw [length_places, length_places]
      exact hto.trans ((congrArg UInt64.toNat hlen.symm).trans hfrom.symm)
    by_cases hf : fromSlice.flowType = flowDisk
    · have ht : toSlice.flowType ≠ flowDisk := fun h => hdisk ⟨hf, h⟩
      rw [if_pos hf, if_neg ht]
      exact hcopier .diskToMemory (by rw [Slice.places, hf]; rfl)
        (places_of_ne ht)
    · rw [if_neg hf]
      by_cases ht : toSlice.flowType = flowDisk
      · rw [if_pos ht]
        exact hcopier .memoryToDisk (places_of_ne hf)
          (by rw [Slice.places, ht]; rfl)
      · rw [if_neg ht]
        exact hcopier .memoryToMemory (places_of_ne hf) (places_of_ne ht)

/-- **COPIES**: a copy between slices of the same length gives the destination
    the bytes of the source and changes no other, whatever the pieces are; a
    copy of a buffer into a range of a slice in memory does so for the range,
    and a slice that is not in memory is refused. -/
theorem copies_slices :
    (∀ (c : Copier) (outcomes : Outcomes) (fromSlice toSlice : Slice)
      (m : Store), (∀ k, outcomes k = .ok) → fromSlice.Sized →
      toSlice.Sized → fromSlice.length = toSlice.length →
      (places c.toType toSlice.addrs).Nodup →
      (∀ x ∈ places c.fromType fromSlice.addrs,
        x ∉ places c.toType toSlice.addrs) →
      ∃ m', c.copy outcomes fromSlice toSlice m = some (.ok m') ∧
        Copied m m' (places c.toType toSlice.addrs)
          (places c.fromType fromSlice.addrs)) ∧
    (∀ (outcomes : Outcomes) (buff start : UInt64) (len : UInt32)
      (toSlice : Slice) (m : Store), (∀ k, outcomes k = .ok) → buff ≠ 0 →
      toSlice.Sized → toSlice.flowType = flowMemory →
      start.toNat + len.toNat ≤ toSlice.length.toNat →
      toSlice.places.Nodup →
      (∀ x ∈ buffer buff 0 len.toNat, x ∉ toSlice.places) →
      ∃ m', copyRange outcomes buff start len toSlice m = .ok m' ∧
        Copied m m' (toSlice.range start.toNat len.toNat)
          (buffer buff 0 len.toNat)) ∧
    ∀ (outcomes : Outcomes) (buff start : UInt64) (len : UInt32)
      (toSlice : Slice) (m : Store), toSlice.flowType ≠ flowMemory →
      copyRange outcomes buff start len toSlice m = .error .invalidParam := by
  refine ⟨?_, ?_, ?_⟩
  · intro c outcomes fromSlice toSlice m hok hfrom hto hlen hnodup hdisj
    refine ⟨_, copier_spec c hok hfrom hto hlen hdisj,
      copied_transfer hnodup ?_⟩
    rw [length_places, length_places]
    exact hto.trans ((congrArg UInt64.toNat hlen.symm).trans hfrom.symm)
  · intro outcomes buff start len toSlice m hok hbuff hto hmemory hin hnodup
      hdisj
    have hsized : total toSlice.addrs = toSlice.length.toNat := hto
    have hsub : (toSlice.range start.toNat len.toNat).Sublist
        toSlice.places :=
      (List.take_sublist ..).trans (List.drop_sublist ..)
    refine ⟨_, copyRange_spec hok hbuff hto hmemory hin
      fun x hx hx' => hdisj x hx (hsub.subset hx'),
      copied_transfer (hnodup.sublist hsub) ?_⟩
    rw [length_range, length_buffer]
    omega
  · intro outcomes buff start len toSlice m hmemory
    rw [copyRange, if_pos hmemory, ite_self]

/-- Three bytes in memory on two addresses. -/
def threeBytes : Slice := ⟨0, flowMemory, 3, [⟨4096, 0, 1⟩, ⟨8192, 4, 2⟩]⟩

/-- Three bytes on disk, cut elsewhere. -/
def threeBytesOnDisk : Slice := ⟨0, flowDisk, 3, [⟨7, 0, 2⟩, ⟨9, 512, 1⟩]⟩

/-- The three bytes are written to disk, and two of them from a buffer. -/
theorem copies_slices_three :
    (∃ m', copyFromMemoryToDisk (fun _ => .ok) threeBytes threeBytesOnDisk
        (fun _ => 0) = some (.ok m') ∧
      Copied (fun _ => 0) m' (places flowDisk threeBytesOnDisk.addrs)
        (places flowMemory threeBytes.addrs)) ∧
    (∃ m', copyRange (fun _ => .ok) 16 1 2 threeBytes (fun _ => 0) =
        .ok m' ∧
      Copied (fun _ => 0) m' (threeBytes.range 1 2) (buffer 16 0 2)) ∧
    copyRange (fun _ => .ok) 16 1 2 threeBytesOnDisk (fun _ => 0) =
      .error .invalidParam :=
  ⟨copies_slices.1 .memoryToDisk (fun _ => .ok) threeBytes threeBytesOnDisk
      (fun _ => 0) (fun _ => rfl) rfl rfl rfl (by decide) (by decide),
    copies_slices.2.1 (fun _ => .ok) 16 1 2 threeBytes (fun _ => 0)
      (fun _ => rfl) (by decide) rfl rfl (by decide) (by decide) (by decide),
    copies_slices.2.2 (fun _ => .ok) 16 1 2 threeBytesOnDisk (fun _ => 0)
      (by decide)⟩

/-- A slice on disk gets nothing from a buffer. -/
theorem disk_range_not_copied :
    ¬ ∀ (outcomes : Outcomes) (buff start : UInt64) (len : UInt32)
      (toSlice : Slice) (m : Store), (∀ k, outcomes k = .ok) → buff ≠ 0 →
      toSlice.Sized → start.toNat + len.toNat ≤ toSlice.length.toNat →
      toSlice.places.Nodup →
      (∀ x ∈ buffer buff 0 len.toNat, x ∉ toSlice.places) →
      ∃ m', copyRange outcomes buff start len toSlice m = .ok m' ∧
        Copied m m' (toSlice.range start.toNat len.toNat)
          (buffer buff 0 len.toNat) := by
  intro h
  obtain ⟨m', hm', -⟩ := h (fun _ => .ok) 16 1 2 threeBytesOnDisk
    (fun _ => 0) (fun _ => rfl) (by decide) rfl (by decide) (by decide)
    (by decide)
  cases hm'

end UbsIo.Slices
