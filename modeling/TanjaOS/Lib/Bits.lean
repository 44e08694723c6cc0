import TanjaOS.Lib.Mem

/-!
Masks of natural numbers.
-/

namespace Lib

theorem and_high {n j k : Nat} (h : n < 2 ^ (j + k)) : n &&& (2 ^ j - 1) * 2 ^ k = n / 2 ^ k * 2 ^ k := by
  apply Nat.eq_of_testBit_eq
  intro i
  rw [Nat.testBit_and, Nat.testBit_mul_two_pow, Nat.testBit_mul_two_pow, Nat.testBit_two_pow_sub_one,
    Nat.testBit_div_two_pow]
  by_cases hk : k ≤ i
  . rw [Nat.sub_add_cancel hk]
    by_cases hi : i - k < j
    . simp [hk, hi]
    . have hpow : 2 ^ (j + k) ≤ 2 ^ i := Nat.pow_le_pow_right (by decide) (by omega)
      have hfalse : n.testBit i = false := Nat.testBit_lt_two_pow (h.trans_le hpow)
      simp [hfalse]
  . simp [hk]

end Lib
