import Mathlib.Data.BitVec
import TanjaOS.Lib.LongDivision

/-!
The division of 64-bit integers for programs that have been compiled with `tcc`. The machine divides
only 32 bits, so the compiler calls these helpers.
-/

open Lib

namespace TanjaOS

structure Dividing where
  q : BitVec 64
  r : BitVec 64

/--
The body of the loop of `tanja_udiv64`.
-/
def udivStep (a b : BitVec 64) (i : Nat) (s : Dividing) : Dividing :=
  let r := (s.r <<< 1) ||| ((a >>> i) &&& 1)
  if b ≤ r then { q := s.q ||| (1#64 <<< i), r := r - b } else { s with r }

def tanjaUdiv64 (a b : BitVec 64) : Dividing :=
  if b = 0 then { q := 0, r := 0 } else go 64 { q := 0, r := 0 }
where
  /-- The last `n` rounds, for `i = n - 1` down to `0`. -/
  go (n : Nat) (s : Dividing) : Dividing :=
    match n with
    | 0 => s
    | i + 1 => go i (udivStep a b i s)

def udivdi3 (a b : BitVec 64) : BitVec 64 :=
  (tanjaUdiv64 a b).q

def umoddi3 (a b : BitVec 64) : BitVec 64 :=
  (tanjaUdiv64 a b).r

/--
The absolute value, `(unsigned long long)(-(a + 1)) + 1ull` for a negative number.
-/
def magnitude (a : BitVec 64) : BitVec 64 :=
  if a.toInt < 0 then -(a + 1) + 1 else a

def divdi3 (a b : BitVec 64) : BitVec 64 :=
  let neg := if a.toInt < 0 then !false else false
  let neg := if b.toInt < 0 then !neg else neg
  let r := (tanjaUdiv64 (magnitude a) (magnitude b)).r
  if neg then -r else r

def moddi3 (a b : BitVec 64) : BitVec 64 :=
  let r := (tanjaUdiv64 (magnitude a) (magnitude b)).r
  if a.toInt < 0 then -r else r

variable {a b : BitVec 64} {n : Nat} {s : Dividing}

/--
What is known with `n` bits of the dividend to go: the rest has been divided.
-/
structure DivInv (a b : BitVec 64) (n : Nat) (s : Dividing) : Prop where
  quot : s.q.toNat = a.toNat / 2 ^ n / b.toNat * 2 ^ n
  rem : s.r.toNat = a.toNat / 2 ^ n % b.toNat

theorem taken_toNat (h : s.r.toNat = a.toNat / 2 ^ (n + 1) % b.toNat)
    : ((s.r <<< 1) ||| ((a >>> n) &&& 1) : BitVec 64).toNat
        = 2 * (a.toNat / 2 ^ n / 2 % b.toNat) + a.toNat / 2 ^ n % 2 := by
  have hhalf : a.toNat / 2 ^ (n + 1) = a.toNat / 2 ^ n / 2 := by
    rw [Nat.pow_succ, Nat.div_div_eq_div_mul]
  rw [hhalf] at h
  have hle := Nat.mod_le (a.toNat / 2 ^ n / 2) b.toNat
  have hquot : a.toNat / 2 ^ n ≤ a.toNat := Nat.div_le_self _ _
  have ha := a.isLt
  have hbit : ((a >>> n) &&& 1 : BitVec 64).toNat = a.toNat / 2 ^ n % 2 := by
    rw [BitVec.toNat_and, BitVec.toNat_ushiftRight, Nat.shiftRight_eq_div_pow]
    exact Nat.and_one_is_mod _
  have hshift : (s.r <<< 1 : BitVec 64).toNat = s.r.toNat <<< 1 := by
    rw [BitVec.toNat_shiftLeft]
    apply Nat.mod_eq_of_lt
    rw [Nat.shiftLeft_eq]
    omega
  rw [BitVec.toNat_or, hbit, hshift, ← Nat.shiftLeft_add_eq_or_of_lt (by omega), Nat.shiftLeft_eq, h]
  omega

theorem udivStep_inv (hb : 0 < b.toNat) (hn : n < 64) (h : DivInv a b (n + 1) s)
    : DivInv a b n (udivStep a b n s) := by
  have htaken := taken_toNat h.rem
  have hhalf : a.toNat / 2 ^ (n + 1) = a.toNat / 2 ^ n / 2 := by
    rw [Nat.pow_succ, Nat.div_div_eq_div_mul]
  have hq := h.quot
  rw [hhalf] at hq
  unfold udivStep
  dsimp only
  generalize ((s.r <<< 1) ||| ((a >>> n) &&& 1) : BitVec 64) = r at *
  split
  . next hle =>
    rw [BitVec.le_def, htaken] at hle
    obtain ⟨hdiv, hmod⟩ := div_mod_of_le hb hle
    constructor
    . -- the bits from `n` on down are clear
      have hbit : (1#64 <<< n).toNat = 2 ^ n := by
        rw [BitVec.toNat_shiftLeft, Nat.shiftLeft_eq]
        simp only [BitVec.toNat_ofNat]
        rw [Nat.mod_eq_of_lt]
        . omega
        . have := Nat.pow_lt_pow_right (a := 2) (by omega) hn
          omega
      have hshift : s.q.toNat = (a.toNat / 2 ^ n / 2 / b.toNat) <<< (n + 1) := by
        rw [Nat.shiftLeft_eq]
        exact hq
      dsimp only
      rw [BitVec.toNat_or, hbit, hshift,
        ← Nat.shiftLeft_add_eq_or_of_lt (Nat.pow_lt_pow_right (by omega) (by omega)),
        Nat.shiftLeft_eq, hdiv, Nat.pow_succ]
      ring
    . dsimp only
      rw [BitVec.toNat_sub_of_le (by rw [BitVec.le_def, htaken]; exact hle), htaken, hmod]
  . next hlt =>
    rw [BitVec.le_def, htaken] at hlt
    obtain ⟨hdiv, hmod⟩ := @div_mod_of_lt (a.toNat / 2 ^ n) _ hb (by omega)
    constructor
    . dsimp only
      rw [hq, hdiv, Nat.pow_succ]
      ring
    . dsimp only
      rw [htaken, hmod]

theorem tanjaUdiv64.go_inv (hb : 0 < b.toNat) (hn : n ≤ 64) (h : DivInv a b n s)
    : DivInv a b 0 (tanjaUdiv64.go a b n s) := by
  induction n generalizing s with
  | zero => exact h
  | succ n ih => exact ih (by omega) (udivStep_inv hb (by omega) h)

theorem toNat_pos (hb : b ≠ 0) : 0 < b.toNat := by
  apply Nat.pos_of_ne_zero
  intro h
  exact hb (BitVec.eq_of_toNat_eq h)

theorem tanjaUdiv64_eq (hb : b ≠ 0)
    : (tanjaUdiv64 a b).q.toNat = a.toNat / b.toNat
        ∧ (tanjaUdiv64 a b).r.toNat = a.toNat % b.toNat := by
  have hstart : DivInv a b 64 { q := 0, r := 0 } := by
    have hzero : a.toNat / 2 ^ 64 = 0 := Nat.div_eq_of_lt a.isLt
    constructor
    . rw [hzero]
      simp
    . rw [hzero]
      simp
  obtain ⟨hq, hr⟩ := tanjaUdiv64.go_inv (toNat_pos hb) (Nat.le_refl 64) hstart
  unfold tanjaUdiv64
  rw [if_neg hb, hq, hr]
  simp

section Signed

theorem toInt_eq (a : BitVec 64)
    : a.toInt = if a.toNat < 2 ^ 63 then (a.toNat : Int) else (a.toNat : Int) - 2 ^ 64 := by
  rw [BitVec.toInt_eq_toNat_cond]
  split_ifs <;> omega

theorem magnitude_toNat (a : BitVec 64) : (magnitude a).toNat = a.toInt.natAbs := by
  have ha := a.isLt
  have hint := toInt_eq a
  unfold magnitude
  split_ifs at hint ⊢ with h
  . omega
  . rw [BitVec.toNat_add, BitVec.toNat_neg, BitVec.toNat_add]
    have hone : (1 : BitVec 64).toNat = 1 := rfl
    omega
  . omega
  . omega

theorem toInt_of_lt {r : BitVec 64} (h : r.toNat < 2 ^ 63)
    : r.toInt = r.toNat ∧ (-r).toInt = -(r.toNat : Int) := by
  have hr := toInt_eq r
  have hneg := toInt_eq (-r)
  rw [BitVec.toNat_neg] at hneg
  rw [if_pos h] at hr
  refine ⟨hr, ?_⟩
  rw [hneg]
  split_ifs <;> omega

theorem natAbs_toInt_pos (hb : b ≠ 0) : 0 < b.toInt.natAbs := by
  rw [Int.natAbs_pos]
  intro h
  apply hb
  exact BitVec.eq_of_toInt_eq h

theorem natAbs_toInt_le (b : BitVec 64) : b.toInt.natAbs ≤ 2 ^ 63 := by
  have hint := toInt_eq b
  have := b.isLt
  split_ifs at hint <;> omega

theorem magnitude_rem (a : BitVec 64) (hb : b ≠ 0)
    : (tanjaUdiv64 (magnitude a) (magnitude b)).r.toNat = a.toInt.natAbs % b.toInt.natAbs
        ∧ a.toInt.natAbs % b.toInt.natAbs < 2 ^ 63 := by
  have hpos := natAbs_toInt_pos hb
  have hne : magnitude b ≠ 0 := by
    intro h
    rw [← magnitude_toNat, h] at hpos
    exact Nat.lt_irrefl 0 hpos
  have hlt := Nat.mod_lt a.toInt.natAbs hpos
  have hle := natAbs_toInt_le b
  rw [(tanjaUdiv64_eq hne).2, magnitude_toNat, magnitude_toNat]
  exact ⟨rfl, by omega⟩

theorem moddi3_toInt (hb : b ≠ 0) : (moddi3 a b).toInt = a.toInt.tmod b.toInt := by
  obtain ⟨hr, hlt⟩ := magnitude_rem a hb
  obtain ⟨hpos, hneg⟩ := toInt_of_lt (hr ▸ hlt)
  rw [hr] at hpos hneg
  rw [tmod_eq]
  unfold moddi3
  split
  . exact hneg
  . exact hpos

theorem divdi3_toInt (hb : b ≠ 0)
    : (divdi3 a b).toInt = if a.toInt < 0 ↔ b.toInt < 0
        then ((a.toInt.natAbs % b.toInt.natAbs : Nat) : Int)
        else -((a.toInt.natAbs % b.toInt.natAbs : Nat) : Int) := by
  obtain ⟨hr, hlt⟩ := magnitude_rem a hb
  obtain ⟨hpos, hneg⟩ := toInt_of_lt (hr ▸ hlt)
  rw [hr] at hpos hneg
  unfold divdi3
  by_cases ha : a.toInt < 0
  . by_cases hb : b.toInt < 0
    . simp [ha, hb, hpos]
    . simp [ha, hb, hneg]
  . by_cases hb : b.toInt < 0
    . simp [ha, hb, hneg]
    . simp [ha, hb, hpos]

end Signed

/--
What the four helpers are for: quotient and remainder of the numbers without sign, and those of the
signed ones as far as the quotient is a signed number.
-/
structure DividesRight (a b : BitVec 64) : Prop where
  unsigned : a.toNat = (udivdi3 a b).toNat * b.toNat + (umoddi3 a b).toNat
    ∧ (umoddi3 a b).toNat < b.toNat
  signed : ¬(a.toInt = -2 ^ 63 ∧ b.toInt = -1) →
    (divdi3 a b).toInt = a.toInt.tdiv b.toInt ∧ (moddi3 a b).toInt = a.toInt.tmod b.toInt
      ∧ a.toInt = (divdi3 a b).toInt * b.toInt + (moddi3 a b).toInt

theorem dividesRight_unsigned (hb : b ≠ 0)
    : a.toNat = (udivdi3 a b).toNat * b.toNat + (umoddi3 a b).toNat
        ∧ (umoddi3 a b).toNat < b.toNat := by
  obtain ⟨hq, hr⟩ := tanjaUdiv64_eq (a := a) hb
  have hpos := toNat_pos hb
  unfold udivdi3 umoddi3
  rw [hq, hr]
  exact ⟨(Nat.div_add_mod' _ _).symm, Nat.mod_lt _ hpos⟩

theorem divdi3_right_iff (hb : b ≠ 0)
    : (divdi3 a b).toInt = a.toInt.tdiv b.toInt
        ↔ b.toInt.natAbs + 1 ∣ a.toInt.natAbs
          ∧ a.toInt.natAbs < b.toInt.natAbs * (b.toInt.natAbs + 1) := by
  rw [← mod_eq_div_iff (natAbs_toInt_pos hb), divdi3_toInt hb, tdiv_eq]
  split
  . omega
  . omega

/--
`__divdi3` returns the remainder for the quotient. The helpers are right where the two are equal, or
where the signed quotient is none.
-/
theorem dividesRight_iff (a b : BitVec 64) (hb : b ≠ 0)
    : DividesRight a b
        ↔ (a.toInt = -2 ^ 63 ∧ b.toInt = -1)
          ∨ (b.toInt.natAbs + 1 ∣ a.toInt.natAbs
            ∧ a.toInt.natAbs < b.toInt.natAbs * (b.toInt.natAbs + 1)) := by
  rw [← divdi3_right_iff hb]
  constructor
  . intro h
    by_cases hmin : a.toInt = -2 ^ 63 ∧ b.toInt = -1
    . exact .inl hmin
    . exact .inr (h.signed hmin).1
  . intro h
    refine ⟨dividesRight_unsigned hb, ?_⟩
    intro hmin
    have hdiv := h.resolve_left hmin
    refine ⟨hdiv, moddi3_toInt hb, ?_⟩
    rw [hdiv, moddi3_toInt hb]
    exact (Int.tdiv_mul_add_tmod _ _).symm

/--
Four divided by three is one and leaves one.
-/
theorem dividesRight_four_three : (3 : BitVec 64) ≠ 0 ∧ DividesRight 4 3 :=
  ⟨by decide, (dividesRight_iff 4 3 (by decide)).2 (.inr (by decide))⟩

/--
Twelve divided by four is not zero.
-/
theorem divdi3_twelve_four : (divdi3 12 4).toInt = 0 ∧ ¬DividesRight 12 4 := by
  have hzero : (divdi3 12 4).toInt = 0 := (divdi3_toInt (by decide)).trans (by decide)
  refine ⟨hzero, ?_⟩
  intro h
  have hquot := (h.signed (by decide)).1
  rw [hzero] at hquot
  exact absurd hquot (by decide)

end TanjaOS
