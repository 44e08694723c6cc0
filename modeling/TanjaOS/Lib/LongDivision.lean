import Mathlib.Tactic.Ring

/-!
Long division in base two, and what the division of integers is in terms of their absolute values.
-/

namespace Lib

section LongDivision

variable {n d : Nat}

theorem div_two_mul_add_mod : 2 * (n / 2 % d) + n % 2 + d * (2 * (n / 2 / d)) = n := by
  have hhalf := Nat.mod_add_div (n / 2) d
  have hbit := Nat.mod_add_div n 2
  have hmul : d * (2 * (n / 2 / d)) = 2 * (d * (n / 2 / d)) := by ring
  omega

theorem bit_taken_lt (hd : 0 < d) : 2 * (n / 2 % d) + n % 2 < 2 * d := by
  have := Nat.mod_lt (n / 2) hd
  omega

theorem div_mod_of_le (hd : 0 < d) (h : d ≤ 2 * (n / 2 % d) + n % 2)
    : n / d = 2 * (n / 2 / d) + 1 ∧ n % d = 2 * (n / 2 % d) + n % 2 - d := by
  have hsum := @div_two_mul_add_mod n d
  have hlt := @bit_taken_lt n d hd
  have hmul : d * (2 * (n / 2 / d) + 1) = d * (2 * (n / 2 / d)) + d := by ring
  exact (Nat.div_mod_unique hd).2 ⟨by omega, by omega⟩

theorem div_mod_of_lt (hd : 0 < d) (h : 2 * (n / 2 % d) + n % 2 < d)
    : n / d = 2 * (n / 2 / d) ∧ n % d = 2 * (n / 2 % d) + n % 2 := by
  have hsum := @div_two_mul_add_mod n d
  exact (Nat.div_mod_unique hd).2 ⟨by omega, h⟩

theorem mod_eq_div_iff (hd : 0 < d) : n % d = n / d ↔ d + 1 ∣ n ∧ n < d * (d + 1) := by
  have hsum := Nat.div_add_mod n d
  have hlt := Nat.mod_lt n hd
  constructor
  . intro h
    have hprod : n = (d + 1) * (n / d) := by
      rw [Nat.add_mul, Nat.one_mul]
      omega
    refine ⟨⟨n / d, hprod⟩, ?_⟩
    rw [Nat.mul_comm d, hprod]
    exact (Nat.mul_lt_mul_left (by omega)).2 (by omega)
  . rintro ⟨⟨k, rfl⟩, hk⟩
    rw [Nat.mul_comm d] at hk
    have hkd : k < d := (Nat.mul_lt_mul_left (by omega)).1 hk
    have hsplit : (d + 1) * k = k + d * k := by ring
    rw [hsplit, Nat.add_mul_mod_self_left, Nat.mod_eq_of_lt hkd, Nat.add_mul_div_left _ _ hd,
      Nat.div_eq_of_lt hkd, Nat.zero_add]

end LongDivision

theorem tdiv_eq (x y : Int)
    : x.tdiv y = if x < 0 ↔ y < 0 then ((x.natAbs / y.natAbs : Nat) : Int)
        else -((x.natAbs / y.natAbs : Nat) : Int) := by
  rw [Int.natCast_div]
  cases lt_or_ge x 0 with
  | inl hx =>
    cases lt_or_ge y 0 with
    | inl hy =>
      rw [if_pos (by omega), Int.ofNat_natAbs_of_nonpos (by omega), Int.ofNat_natAbs_of_nonpos (by omega),
        ← Int.tdiv_eq_ediv_of_nonneg (by omega), Int.neg_tdiv_neg]
    | inr hy =>
      rw [if_neg (by omega), Int.ofNat_natAbs_of_nonpos (by omega), Int.natAbs_of_nonneg hy,
        ← Int.tdiv_eq_ediv_of_nonneg (by omega), Int.neg_tdiv, Int.neg_neg]
  | inr hx =>
    cases lt_or_ge y 0 with
    | inl hy =>
      rw [if_neg (by omega), Int.natAbs_of_nonneg hx, Int.ofNat_natAbs_of_nonpos (by omega),
        ← Int.tdiv_eq_ediv_of_nonneg hx, Int.tdiv_neg, Int.neg_neg]
    | inr hy =>
      rw [if_pos (by omega), Int.natAbs_of_nonneg hx, Int.natAbs_of_nonneg hy,
        ← Int.tdiv_eq_ediv_of_nonneg hx]

theorem tmod_eq (x y : Int)
    : x.tmod y = if x < 0 then -((x.natAbs % y.natAbs : Nat) : Int)
        else ((x.natAbs % y.natAbs : Nat) : Int) := by
  rw [Int.natCast_mod, Int.natCast_natAbs y, Int.emod_abs]
  split
  . next hx =>
    rw [Int.ofNat_natAbs_of_nonpos (by omega), ← Int.tmod_eq_emod_of_nonneg (by omega), Int.neg_tmod,
      Int.neg_neg]
  . next hx =>
    rw [Int.natAbs_of_nonneg (by omega), ← Int.tmod_eq_emod_of_nonneg (by omega)]

end Lib
