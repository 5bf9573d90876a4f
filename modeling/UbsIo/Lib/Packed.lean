import Mathlib

/-! # Fields of a packed word

    Counters side by side in the bits of one number.  A mask takes a field
    out. -/

namespace UbsIo.Lib

/-- **A FIELD**: `n` bits from bit `k` on. -/
theorem and_mask (x k n : Nat) :
    x &&& 2 ^ k * (2 ^ n - 1) = 2 ^ k * (x / 2 ^ k % 2 ^ n) := by
  refine Nat.eq_of_testBit_eq fun i => ?_
  rw [Nat.testBit_and, Nat.testBit_two_pow_mul, Nat.testBit_two_pow_mul,
    Nat.testBit_two_pow_sub_one, Nat.testBit_mod_two_pow,
    Nat.testBit_div_two_pow]
  by_cases hk : k ≤ i
  · have hi : i - k + k = i := Nat.sub_add_cancel hk
    rw [decide_eq_true (show i ≥ k from hk), hi, Bool.true_and, Bool.true_and,
      Bool.and_comm]
  · rw [decide_eq_false (show ¬ i ≥ k from hk), Bool.false_and, Bool.false_and,
      Bool.and_false]

end UbsIo.Lib
