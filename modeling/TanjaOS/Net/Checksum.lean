import TanjaOS.Net.Lemmas

/-!
The checksum as the machine computes it, in 32 bits, next to the sum with end around carry that the
protocols ask for.
-/

open Lib

namespace TanjaOS

/--
`csum_add`
-/
def csumAdd32 : (sum : UInt32) → Bytes → UInt32
  | sum, [] => sum
  | sum, [x] => sum + (x.toUInt32 <<< 8)
  | sum, x :: y :: bs => csumAdd32 (sum + ((x.toUInt32 <<< 8) ||| y.toUInt32)) bs

theorem toNat_csumCarry (sum : UInt32)
    : ((sum &&& (0xFFFF : UInt32)) + (sum >>> 16)).toNat = sum.toNat % 65536 + sum.toNat / 65536 := by
  have hlow : (sum &&& (0xFFFF : UInt32)).toNat = sum.toNat % 65536 := Nat.and_two_pow_sub_one_eq_mod sum.toNat 16
  have hhigh : (sum >>> 16).toNat = sum.toNat / 65536 := Nat.shiftRight_eq_div_pow sum.toNat 16
  have hlt := sum.toNat_lt
  rw [UInt32.toNat_add, hlow, hhigh, Nat.mod_eq_of_lt (by omega)]

/--
The loop of `csum_fin`.
-/
def csumFold32 (sum : UInt32) : UInt32 :=
  if sum >>> 16 ≠ 0 then csumFold32 ((sum &&& (0xFFFF : UInt32)) + (sum >>> 16)) else sum
termination_by sum.toNat
decreasing_by
  have hhigh : (sum >>> 16).toNat = sum.toNat / 65536 := Nat.shiftRight_eq_div_pow sum.toNat 16
  have hne : (sum >>> 16).toNat ≠ 0 := fun h => ‹sum >>> 16 ≠ 0› (UInt32.toNat_inj.mp h)
  rw [toNat_csumCarry]
  omega

def csumFin32 (sum : UInt32) : UInt16 :=
  (~~~csumFold32 sum).toUInt16

section Spec

def onesAdd (a b : Nat) : Nat :=
  if a + b < 65536 then a + b else a + b - 65535

def onesSum : (acc : Nat) → Bytes → Nat
  | acc, [] => acc
  | acc, [x] => onesAdd acc (256 * x.toNat)
  | acc, x :: y :: bs => onesSum (onesAdd acc (256 * x.toNat + y.toNat)) bs

structure OnesOf (sum v : Nat) : Prop where
  lt : v < 65536
  mod : v % 65535 = sum % 65535
  pos : 0 < sum ↔ 0 < v

end Spec

variable {sum acc v w : Nat} {bs : Bytes}

theorem OnesOf.unique (h : OnesOf sum v) (h' : OnesOf sum w) : v = w := by
  have hlt := h.lt
  have hlt' := h'.lt
  have hmod := h.mod
  have hmod' := h'.mod
  have hpos := h.pos
  have hpos' := h'.pos
  omega

theorem onesOf_add {a b : Nat} (ha : OnesOf sum a) (hb : b < 65536) : OnesOf (sum + b) (onesAdd a b) := by
  have hlt := ha.lt
  have hmod := ha.mod
  have hpos := ha.pos
  unfold onesAdd
  split
  . constructor
    . omega
    . omega
    . omega
  . constructor
    . omega
    . omega
    . omega

theorem onesOf_sum (h : OnesOf sum acc) (bs : Bytes) : OnesOf (sum + wordSum bs) (onesSum acc bs) := by
  induction acc, bs using onesSum.induct generalizing sum with
  | case1 acc => exact h
  | case2 acc x =>
    have hx := x.toNat_lt
    show OnesOf (sum + 256 * x.toNat) (onesAdd acc (256 * x.toNat))
    exact onesOf_add h (by omega)
  | case3 acc x y bs ih =>
    have hx := x.toNat_lt
    have hy := y.toNat_lt
    have hnext := ih (onesOf_add h (b := 256 * x.toNat + y.toNat) (by omega))
    rw [Nat.add_assoc] at hnext
    exact hnext

theorem onesOf_fold (sum : UInt32) : OnesOf sum.toNat (csumFold32 sum).toNat := by
  induction sum using csumFold32.induct with
  | case1 sum h ih =>
    rw [csumFold32, if_pos h]
    rw [toNat_csumCarry] at ih
    have hlt := ih.lt
    have hmod := ih.mod
    have hpos := ih.pos
    constructor
    . omega
    . omega
    . omega
  | case2 sum h =>
    have hhigh : (sum >>> 16).toNat = sum.toNat / 65536 := Nat.shiftRight_eq_div_pow sum.toNat 16
    have hzero : (sum >>> 16).toNat = 0 := congrArg UInt32.toNat (not_not.mp h)
    rw [csumFold32, if_neg h]
    constructor
    . omega
    . rfl
    . rfl

theorem toNat_csumAdd32 {sum : UInt32} (h : sum.toNat + wordSum bs < 2 ^ 32)
    : (csumAdd32 sum bs).toNat = sum.toNat + wordSum bs := by
  have hshift : ∀ x : Byte, (x.toUInt32 <<< 8).toNat = 256 * x.toNat := by
    intro x
    have hx := x.toNat_lt
    rw [UInt32.toNat_shiftLeft]
    show x.toNat <<< 8 % 2 ^ 32 = _
    rw [Nat.shiftLeft_eq]
    omega
  induction sum, bs using csumAdd32.induct with
  | case1 sum => rfl
  | case2 sum x =>
    unfold wordSum at h ⊢
    rw [csumAdd32, UInt32.toNat_add, hshift]
    omega
  | case3 sum x y bs ih =>
    have hy := y.toNat_lt
    have hword : ((x.toUInt32 <<< 8) ||| y.toUInt32).toNat = 256 * x.toNat + y.toNat := by
      rw [UInt32.toNat_or, hshift]
      show 256 * x.toNat ||| y.toNat = _
      rw [Nat.mul_comm, ← Nat.shiftLeft_eq x.toNat 8, ← Nat.shiftLeft_add_eq_or_of_lt (by omega)]
    rw [wordSum] at h ⊢
    have hstep : (sum + ((x.toUInt32 <<< 8) ||| y.toUInt32)).toNat = sum.toNat + (256 * x.toNat + y.toNat) := by
      rw [UInt32.toNat_add, hword]
      omega
    rw [csumAdd32, ih (by omega), hstep]
    omega

theorem wordSum_le (bs : Bytes) : wordSum bs ≤ 65535 * ((bs.length + 1) / 2) := by
  induction bs using wordSum.induct with
  | case1 => exact Nat.zero_le _
  | case2 x =>
    have hx := x.toNat_lt
    simp only [wordSum, List.length_singleton]
    omega
  | case3 x y bs ih =>
    have hx := x.toNat_lt
    have hy := y.toNat_lt
    simp only [wordSum, List.length_cons]
    omega

theorem csumFold_pos {fuel : Nat} (h : 0 < sum) : 0 < csumFold fuel sum := by
  induction fuel generalizing sum with
  | zero => exact h
  | succ fuel ih =>
    unfold csumFold
    split
    . exact ih (by omega)
    . exact h

theorem toNat_csumFin32 (sum : UInt32) : (csumFin32 sum).toNat = 65535 - (csumFold32 sum).toNat := by
  have hlt := (onesOf_fold sum).lt
  unfold csumFin32
  rw [UInt32.toNat_toUInt16, UInt32.toNat_not]
  have hsize : UInt32.size = 2 ^ 32 := rfl
  omega

theorem csumFin32_eq (sum : UInt32) : csumFin32 sum = csumFin sum.toNat := by
  have hfold := csumFold_spec (Nat.le_refl sum.toNat)
  have hcode := onesOf_fold sum
  have hmodel : OnesOf sum.toNat (csumFold sum.toNat sum.toNat) := by
    constructor
    . exact hfold.1
    . exact hfold.2.1
    . have hle := hfold.2.2
      exact ⟨csumFold_pos, fun h => h.trans_le hle⟩
  apply UInt16.toNat_inj.mp
  rw [toNat_csumFin32, hcode.unique hmodel]
  unfold csumFin
  rw [UInt16.toNat_not, UInt16.toNat_ofNat']
  have hsize : UInt16.size = 65536 := rfl
  omega

theorem csum32_eq (pre seg : Bytes) (hlen : pre.length + seg.length ≤ 1500)
    : csumFin32 (csumAdd32 (csumAdd32 0 pre) seg) = csumFin (csumAdd (csumAdd 0 pre) seg) := by
  have hpre := wordSum_le pre
  have hseg := wordSum_le seg
  have hzero : (0 : UInt32).toNat = 0 := rfl
  have hsum : (csumAdd32 0 pre).toNat = wordSum pre := by
    rw [toNat_csumAdd32 (by omega), hzero, Nat.zero_add]
  rw [csumFin32_eq, toNat_csumAdd32 (by omega), hsum, csumAdd_eq, csumAdd_eq, Nat.zero_add]

/--
The checksum completes the sum to `0xFFFF`. Every sum on the way fits into 32 bits, and the loop of `csum_fin`
ends with the sum that has the carries added.
-/
theorem csum_completes (pre seg : Bytes) (i : Nat) (hpre : pre.length % 2 = 0) (heven : i % 2 = 0)
    (hi : i + 2 ≤ seg.length) (hlen : pre.length + seg.length ≤ 1500) (hzero : put16 seg i 0 = seg)
    : onesSum 0 (pre ++ put16 seg i (csumFin32 (csumAdd32 (csumAdd32 0 pre) seg))) = 0xFFFF
      ∧ (∀ n, (csumAdd32 0 (pre.take (2 * n))).toNat = wordSum (pre.take (2 * n)))
      ∧ (∀ n, (csumAdd32 (csumAdd32 0 pre) (seg.take (2 * n))).toNat = wordSum pre + wordSum (seg.take (2 * n)))
      ∧ (csumFold32 (csumAdd32 (csumAdd32 0 pre) seg)).toNat = onesSum 0 (pre ++ seg) := by
  have hbound : ∀ bs : Bytes, bs.length ≤ 1500 → wordSum bs ≤ 65535 * 750 := by
    intro bs hbs
    have hle := wordSum_le bs
    omega
  have hstart : ∀ bs : Bytes, bs.length ≤ 1500 → (csumAdd32 0 bs).toNat = wordSum bs := by
    intro bs hbs
    have hle := hbound bs hbs
    have hzero : (0 : UInt32).toNat = 0 := rfl
    rw [toNat_csumAdd32 (by omega), hzero, Nat.zero_add]
  have hpreSum := hstart pre (by omega)
  have hpreLe := hbound pre (by omega)
  have hchain : ∀ bs : Bytes, bs.length ≤ 1500 → (csumAdd32 (csumAdd32 0 pre) bs).toNat = wordSum pre + wordSum bs := by
    intro bs hbs
    have hle := hbound bs hbs
    rw [toNat_csumAdd32 (by omega), hpreSum]
  have hones : ∀ bs : Bytes, OnesOf (wordSum bs) (onesSum 0 bs) := by
    intro bs
    have hsum := @onesOf_sum 0 0 ⟨by decide, rfl, Iff.rfl⟩ bs
    rw [Nat.zero_add] at hsum
    exact hsum
  have hsum := hchain seg (by omega)
  have hfold := onesOf_fold (csumAdd32 (csumAdd32 0 pre) seg)
  rw [hsum, ← wordSum_append hpre] at hfold
  refine ⟨?_, ?_, ?_, hfold.unique (hones _)⟩
  . refine (hones _).unique ?_
    have hput := wordSum_put16 (csumFin32 (csumAdd32 (csumAdd32 0 pre) seg)) heven hi
    rw [hzero, toNat_csumFin32] at hput
    rw [wordSum_append hpre] at hfold ⊢
    rw [hput]
    obtain ⟨hlt, hmod, hpos⟩ := hfold
    constructor
    . omega
    . omega
    . omega
  . intro n
    exact hstart _ (by rw [List.length_take]; omega)
  . intro n
    exact hchain _ (by rw [List.length_take]; omega)

theorem csum_completes_odd
    : onesSum 0 ([10, 0, 2, 15, 0, 6, 0, 5] ++ put16 [0x12, 0x34, 0, 0, 0x56] 2
        (csumFin32 (csumAdd32 (csumAdd32 0 [10, 0, 2, 15, 0, 6, 0, 5]) [0x12, 0x34, 0, 0, 0x56]))) = 0xFFFF :=
  (csum_completes [10, 0, 2, 15, 0, 6, 0, 5] [0x12, 0x34, 0, 0, 0x56] 2 rfl rfl (by decide) (by decide) rfl).1

end TanjaOS
