import Mathlib

/-! # Bytes in a buffer

    Numbers in little-endian order, and reads and writes of a buffer that fail
    outside of it. -/

namespace UbsIo.Lib

/-- The low `n` bytes of a number, lowest first. -/
def leBytes : Nat → Nat → List UInt8
  | 0, _ => []
  | n + 1, v => UInt8.ofNat v :: leBytes n (v / 256)

def leNat : List UInt8 → Nat
  | [] => 0
  | b :: bs => b.toNat + 256 * leNat bs

@[simp] theorem length_leBytes : ∀ (n v : Nat), (leBytes n v).length = n := by
  intro n
  induction n with
  | zero => exact fun _ => rfl
  | succ n ih =>
      intro v
      rw [leBytes, List.length_cons, ih]

/-- What is written is read back, up to the width. -/
theorem leNat_leBytes : ∀ (n v : Nat), leNat (leBytes n v) = v % 256 ^ n := by
  intro n
  induction n with
  | zero =>
      intro v
      rw [leBytes, leNat, Nat.pow_zero, Nat.mod_one]
  | succ n ih =>
      intro v
      have hlow : (UInt8.ofNat v).toNat = v % 256 := UInt8.toNat_ofNat'
      rw [leBytes, leNat, ih, hlow, Nat.pow_succ, Nat.mul_comm (256 ^ n),
        Nat.mod_mul]

theorem leNat_leBytes_of_lt {n v : Nat} (h : v < 256 ^ n) :
    leNat (leBytes n v) = v := by
  rw [leNat_leBytes, Nat.mod_eq_of_lt h]

/-- What is read is written back. -/
theorem leBytes_leNat : ∀ bs : List UInt8, leBytes bs.length (leNat bs) = bs := by
  intro bs
  induction bs with
  | nil => rfl
  | cons b bs ih =>
      have hlow : UInt8.ofNat (b.toNat + 256 * leNat bs) = b := by
        rw [← UInt8.toNat_inj, UInt8.toNat_ofNat', Nat.add_mul_mod_self_left]
        exact Nat.mod_eq_of_lt b.toNat_lt
      have hhigh : (b.toNat + 256 * leNat bs) / 256 = leNat bs := by
        have hlt : b.toNat < 256 := b.toNat_lt
        omega
      rw [List.length_cons, leNat, leBytes, hlow, hhigh, ih]

/-- `n` bytes from `off` on. -/
def readAt (buf : List UInt8) (off n : Nat) : Option (List UInt8) :=
  if off + n ≤ buf.length then some ((buf.drop off).take n) else none

/-- The buffer with `data` written over it from `off` on. -/
def writeAt (buf : List UInt8) (off : Nat) (data : List UInt8) :
    Option (List UInt8) :=
  if off + data.length ≤ buf.length then
    some (buf.take off ++ data ++ buf.drop (off + data.length))
  else none

variable {buf mid data : List UInt8} {off n : Nat}

/-- A known piece of a buffer. -/
theorem slice_eq (pre post : List UInt8)
    (hbuf : buf = pre ++ mid ++ post)
    (hoff : pre.length = off) (hn : mid.length = n) :
    (buf.drop off).take n = mid := by
  subst hbuf hoff hn
  rw [List.append_assoc, List.drop_left, List.take_left]

/-- A read that finds a known piece. -/
theorem readAt_eq (pre post : List UInt8)
    (hbuf : buf = pre ++ mid ++ post) (hoff : pre.length = off)
    (hn : mid.length = n) : readAt buf off n = some mid := by
  have hle : off + n ≤ buf.length := by
    rw [hbuf, ← hoff, ← hn]
    simp
  rw [readAt, if_pos hle, slice_eq pre post hbuf hoff hn]

/-- A write over a known piece. -/
theorem writeAt_eq (pre post : List UInt8)
    (hbuf : buf = pre ++ mid ++ post) (hoff : pre.length = off)
    (hn : mid.length = data.length) :
    writeAt buf off data = some (pre ++ data ++ post) := by
  subst hbuf hoff
  have hle : pre.length + data.length ≤ (pre ++ mid ++ post).length := by
    simp [hn]
  have hdrop : (pre ++ mid ++ post).drop (pre.length + data.length) = post := by
    rw [← hn, ← List.length_append, List.drop_left]
  rw [writeAt, if_pos hle, hdrop, List.append_assoc pre mid, List.take_left]

/-- The first `n` bytes, apart. -/
theorem exists_split (h : n ≤ buf.length) :
    ∃ head rest, buf = head ++ rest ∧ head.length = n :=
  ⟨buf.take n, buf.drop n, (List.take_append_drop n buf).symm,
    List.length_take_of_le h⟩

end UbsIo.Lib
