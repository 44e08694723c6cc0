import TanjaOS.Libc.Numeral

/-!
`strtol` and its relatives, in the kernel's library and in the one of the compiler's runtime.
-/

open Lib

namespace TanjaOS

/--
The loop over the digits, which counts modulo 2^64. The second result is how far it gets.
-/
def strtoUll.digits (base : Nat) (s : Bytes) (v : UInt64) : UInt64 × Nat :=
  match s with
  | [] => (v, 0)
  | c :: s =>
    match digitVal c with
    | some d =>
      if base ≤ d then
        (v, 0)
      else
        let (v, n) := digits base s (v * .ofNat base + .ofNat d)
        (v, n + 1)
    | none => (v, 0)

/--
The value, where `endptr` points to, and whether there is a minus sign.
-/
def strtoUll (nptr : CStr) (base : Int) : UInt64 × Nat × Bool :=
  let s := (nptr.val.takeWhile isSpaceChar).length
  let (neg, k) := signAt (nptr.val.drop s)
  let s := s + k
  let (base, k) := baseAt base (nptr.val.drop s)
  let s := s + k
  if base < 2 ∨ base > 36 then
    (0, 0, false)
  else
    let (v, n) := strtoUll.digits base.toNat (nptr.val.drop s) 0
    (v, if n = 0 then 0 else s + n, neg)

def strtol (nptr : CStr) (base : Int) : Int32 × Nat :=
  let (v, e, neg) := strtoUll nptr base
  if neg then
    ((0 - (if v > 0x80000000 then 0x80000000 else v)).toUInt32.toInt32, e)
  else
    ((if v > 0x7FFFFFFF then 0x7FFFFFFF else v).toUInt32.toInt32, e)

def strtoll (nptr : CStr) (base : Int) : Int64 × Nat :=
  let (v, e, neg) := strtoUll nptr base
  if neg then
    ((if v > 0x8000000000000000 then 0x8000000000000000 else 0 - v).toInt64, e)
  else
    ((if v > 0x7FFFFFFFFFFFFFFF then 0x7FFFFFFFFFFFFFFF else v).toInt64, e)

def strtoull (nptr : CStr) (base : Int) : UInt64 × Nat :=
  let (v, e, neg) := strtoUll nptr base
  (if neg then 0 - v else v, e)

section StrtoUll

variable {b : Nat}

theorem digits_cons {c : Byte} (hc : isDigitOf b c) (s : Bytes) (v : UInt64)
    : strtoUll.digits b (c :: s) v
      = ((strtoUll.digits b s (v * .ofNat b + .ofNat ((digitVal c).getD 0))).1,
          (strtoUll.digits b s (v * .ofNat b + .ofNat ((digitVal c).getD 0))).2 + 1) := by
  unfold isDigitOf at hc
  split at hc
  . next d hd =>
    have hlt : d < b := by simpa using hc
    simp only [strtoUll.digits, hd]
    rw [if_neg (by omega)]
    rfl
  . cases hc

theorem digits_stop {c : Byte} (hc : ¬isDigitOf b c) (s : Bytes) (v : UInt64)
    : strtoUll.digits b (c :: s) v = (v, 0) := by
  unfold isDigitOf at hc
  split at hc
  . next d hd =>
    have hle : b ≤ d := by simpa using hc
    simp only [strtoUll.digits, hd]
    rw [if_pos hle]
  . next hd => simp only [strtoUll.digits, hd]

theorem digits_eq (s : Bytes) (v : Nat)
    : strtoUll.digits b s (.ofNat v)
      = (.ofNat ((s.takeWhile (isDigitOf b)).foldl (fun v c => v * b + (digitVal c).getD 0) v),
          (s.takeWhile (isDigitOf b)).length) := by
  induction s generalizing v with
  | nil => rfl
  | cons c s ih =>
    by_cases hc : isDigitOf b c
    . rw [digits_cons hc, List.takeWhile_cons, if_pos hc, ← UInt64.ofNat_mul, ← UInt64.ofNat_add, ih]
      rfl
    . rw [digits_stop hc, List.takeWhile_cons, if_neg hc]
      rfl

theorem baseAt_range {base : Int} (hbase : ValidBase base) (r : Bytes)
    : 2 ≤ (baseAt base r).1 ∧ (baseAt base r).1 ≤ 36 := by
  unfold ValidBase at hbase
  unfold baseAt
  split
  . exact ⟨by decide, by decide⟩
  . split
    . dsimp only
      split <;> exact ⟨by decide, by decide⟩
    . dsimp only
      omega

theorem strtoUll_eq (nptr : CStr) {base : Int} (hbase : ValidBase base)
    : strtoUll nptr base
      = (.ofNat (numVal (baseAt base (numRest nptr.val)).1.toNat (numRun base nptr.val)),
          if numRun base nptr.val = [] then 0
          else numStart base nptr.val + (numRun base nptr.val).length,
          numNeg nptr.val) := by
  have hrange := baseAt_range hbase (numRest nptr.val)
  have hrest : nptr.val.drop ((nptr.val.takeWhile isSpaceChar).length
      + (signAt (nptr.val.dropWhile isSpaceChar)).2) = numRest nptr.val := by
    rw [← List.drop_drop, drop_takeWhile]
    rfl
  have hstart := drop_numStart base nptr.val
  unfold numStart at hstart
  unfold strtoUll
  simp only [drop_takeWhile, hrest, hstart]
  rw [if_neg (by omega), show (0 : UInt64) = .ofNat 0 from rfl, digits_eq]
  simp only [List.length_eq_zero_iff]
  rfl

end StrtoUll

/--
What a clamp to the range from `lo` to `hi` makes of the longest numeral of `s`.
-/
structure Saturates (lo hi base : Int) (s : Bytes) (value : Int) (endptr : Nat) : Prop where
  found : ∀ t n, LongestNumeral base s t n → value = max lo (min n hi) ∧ endptr = t.length
  none : (∀ t n, ¬LongestNumeral base s t n) → value = 0 ∧ endptr = 0

/--
`n` fits in 64 bits, or what is left of it there still lies beyond the end of the range.
-/
def KeepsRange (lo hi n : Int) : Prop :=
  n.natAbs < 2 ^ 64 ∨ if n < 0 then -lo ≤ n.natAbs % 2 ^ 64 else hi ≤ n.natAbs % 2 ^ 64

section Saturates

variable {base : Int} {nptr : CStr}

def clamped (lo hi : Int) (neg : Bool) (m : Nat) : Int :=
  if neg then max lo (-(m % 2 ^ 64 : Nat)) else min (m % 2 ^ 64 : Nat) hi

theorem UInt32.toInt32_toInt (u : UInt32)
    : u.toInt32.toInt = if u.toNat < 2 ^ 31 then (u.toNat : Int) else u.toNat - 2 ^ 32 := by
  show u.toBitVec.toInt = _
  rw [BitVec.toInt_eq_toNat_cond, UInt32.toNat_toBitVec]
  split <;> split <;> omega

theorem UInt64.toInt64_toInt (u : UInt64)
    : u.toInt64.toInt = if u.toNat < 2 ^ 63 then (u.toNat : Int) else u.toNat - 2 ^ 64 := by
  show u.toBitVec.toInt = _
  rw [BitVec.toInt_eq_toNat_cond, UInt64.toNat_toBitVec]
  split <;> split <;> omega

theorem UInt64.toNat_zero_sub (u : UInt64) : (0 - u).toNat = (2 ^ 64 - u.toNat) % 2 ^ 64 := by
  rw [UInt64.toNat_sub]
  simp

theorem UInt64.toNat_min (v c : UInt64)
    : (if v > c then c else v).toNat = min v.toNat c.toNat := by
  split
  . next h =>
    have := UInt64.lt_iff_toNat_lt.1 h
    omega
  . next h =>
    have := UInt64.lt_iff_toNat_lt.not.1 h
    omega

theorem strtol_eq (hbase : ValidBase base)
    : (strtol nptr base).1.toInt = clamped (-2 ^ 31) (2 ^ 31 - 1) (numNeg nptr.val)
          (numVal (baseAt base (numRest nptr.val)).1.toNat (numRun base nptr.val))
      ∧ (strtol nptr base).2 = if numRun base nptr.val = [] then 0
          else numStart base nptr.val + (numRun base nptr.val).length := by
  unfold strtol clamped
  rw [strtoUll_eq nptr hbase]
  generalize numVal _ _ = m
  have hv := UInt64.toNat_ofNat (n := m)
  generalize hx : UInt64.ofNat m = v
  rw [show (OfNat.ofNat m : UInt64) = v from hx] at hv
  cases hneg : numNeg nptr.val with
  | false =>
    refine ⟨?_, rfl⟩
    show ((if v > 0x7FFFFFFF then 0x7FFFFFFF else v).toUInt32.toInt32).toInt = _
    rw [UInt32.toInt32_toInt, UInt64.toNat_toUInt32, UInt64.toNat_min, hv]
    have hc : (0x7FFFFFFF : UInt64).toNat = 2147483647 := rfl
    simp only [hc, Bool.false_eq_true, if_false]
    rw [if_pos (by omega)]
    omega
  | true =>
    refine ⟨?_, rfl⟩
    show ((0 - (if v > 0x80000000 then 0x80000000 else v)).toUInt32.toInt32).toInt = _
    rw [UInt32.toInt32_toInt, UInt64.toNat_toUInt32, UInt64.toNat_zero_sub, UInt64.toNat_min, hv]
    have hc : (0x80000000 : UInt64).toNat = 2147483648 := rfl
    simp only [hc, if_true]
    split <;> omega

theorem strtoll_eq (hbase : ValidBase base)
    : (strtoll nptr base).1.toInt = clamped (-2 ^ 63) (2 ^ 63 - 1) (numNeg nptr.val)
          (numVal (baseAt base (numRest nptr.val)).1.toNat (numRun base nptr.val))
      ∧ (strtoll nptr base).2 = if numRun base nptr.val = [] then 0
          else numStart base nptr.val + (numRun base nptr.val).length := by
  unfold strtoll clamped
  rw [strtoUll_eq nptr hbase]
  generalize numVal _ _ = m
  have hv := UInt64.toNat_ofNat (n := m)
  generalize hx : UInt64.ofNat m = v
  rw [show (OfNat.ofNat m : UInt64) = v from hx] at hv
  cases hneg : numNeg nptr.val with
  | false =>
    refine ⟨?_, rfl⟩
    show ((if v > 0x7FFFFFFFFFFFFFFF then 0x7FFFFFFFFFFFFFFF else v).toInt64).toInt = _
    rw [UInt64.toInt64_toInt, UInt64.toNat_min, hv]
    have hc : (0x7FFFFFFFFFFFFFFF : UInt64).toNat = 9223372036854775807 := rfl
    simp only [hc, Bool.false_eq_true, if_false]
    rw [if_pos (by omega)]
    omega
  | true =>
    refine ⟨?_, rfl⟩
    show ((if v > 0x8000000000000000 then 0x8000000000000000 else 0 - v).toInt64).toInt = _
    have hc : (0x8000000000000000 : UInt64).toNat = 9223372036854775808 := rfl
    simp only [if_true]
    rw [UInt64.toInt64_toInt]
    split
    . next h =>
      have := UInt64.lt_iff_toNat_lt.1 h
      rw [if_neg (by omega)]
      omega
    . next h =>
      have := UInt64.lt_iff_toNat_lt.not.1 h
      rw [UInt64.toNat_zero_sub]
      split <;> omega

theorem clamped_eq_iff {lo hi : Int} (hlo : -2 ^ 64 < lo ∧ lo < 0) (hhi : 0 < hi ∧ hi < 2 ^ 64)
    (neg : Bool) (m : Nat)
    : clamped lo hi neg m = max lo (min (if neg then -(m : Int) else m) hi)
      ↔ KeepsRange lo hi (if neg then -(m : Int) else m) := by
  unfold clamped KeepsRange
  cases neg with
  | false =>
    simp only [Bool.false_eq_true, if_false]
    rw [if_neg (by omega), Int.natAbs_natCast]
    omega
  | true =>
    simp only [if_true]
    rw [Int.natAbs_neg, Int.natAbs_natCast]
    split <;> omega

theorem saturates_iff {lo hi : Int} (hlo : -2 ^ 64 < lo ∧ lo < 0) (hhi : 0 < hi ∧ hi < 2 ^ 64)
    (hbase : ValidBase base) {s : Bytes} {value : Int} {e : Nat}
    (hvalue : value = clamped lo hi (numNeg s)
      (numVal (baseAt base (numRest s)).1.toNat (numRun base s)))
    (he : e = if numRun base s = [] then 0 else numStart base s + (numRun base s).length)
    : Saturates lo hi base s value e
      ↔ ∀ t n, LongestNumeral base s t n → KeepsRange lo hi n := by
  have hiff := clamped_eq_iff hlo hhi (numNeg s)
    (numVal (baseAt base (numRest s)).1.toNat (numRun base s))
  rw [← hvalue] at hiff
  by_cases hrun : numRun base s = []
  . have hnone : ∀ t n, ¬LongestNumeral base s t n := by
      intro t n h
      exact (longestNumeral_iff hbase).1 h |>.1 hrun
    constructor
    . intro _ t n h
      exact absurd h (hnone t n)
    . intro _
      refine ⟨fun t n h => absurd h (hnone t n), fun _ => ⟨?_, ?_⟩⟩
      . rw [hvalue, hrun]
        show clamped lo hi (numNeg s) 0 = 0
        unfold clamped
        split <;> omega
      . rw [he, if_pos hrun]
  . rw [if_neg hrun] at he
    have hlen := numStart_le hrun
    have hfound := (longestNumeral_iff (t := s.take e) (n := numInt base s) hbase).2
      ⟨hrun, by rw [he], rfl⟩
    constructor
    . intro h t n ht
      obtain ⟨-, -, rfl⟩ := (longestNumeral_iff hbase).1 ht
      exact hiff.1 (h.found _ _ ht).1
    . intro h
      constructor
      . intro t n ht
        obtain ⟨-, rfl, rfl⟩ := (longestNumeral_iff hbase).1 ht
        refine ⟨hiff.2 (h _ _ ht), ?_⟩
        rw [he, List.length_take]
        omega
      . intro hnone
        exact absurd hfound (hnone _ _)

theorem strtol_iff (nptr : CStr) (base : Int) (hbase : ValidBase base)
    : Saturates (-2 ^ 31) (2 ^ 31 - 1) base nptr.val (strtol nptr base).1.toInt (strtol nptr base).2
      ↔ ∀ t n, LongestNumeral base nptr.val t n → KeepsRange (-2 ^ 31) (2 ^ 31 - 1) n :=
  saturates_iff (by decide) (by decide) hbase (strtol_eq hbase).1 (strtol_eq hbase).2

theorem strtoll_iff (nptr : CStr) (base : Int) (hbase : ValidBase base)
    : Saturates (-2 ^ 63) (2 ^ 63 - 1) base nptr.val (strtoll nptr base).1.toInt
        (strtoll nptr base).2
      ↔ ∀ t n, LongestNumeral base nptr.val t n → KeepsRange (-2 ^ 63) (2 ^ 63 - 1) n :=
  saturates_iff (by decide) (by decide) hbase (strtoll_eq hbase).1 (strtoll_eq hbase).2

theorem KeepsRange.narrow {n : Int} (h : KeepsRange (-2 ^ 63) (2 ^ 63 - 1) n)
    : KeepsRange (-2 ^ 31) (2 ^ 31 - 1) n := by
  unfold KeepsRange at h ⊢
  generalize n.natAbs = m at h ⊢
  split at h
  . next hneg =>
    rw [if_pos hneg]
    omega
  . next hneg =>
    rw [if_neg hneg]
    omega

/--
Both functions saturate on exactly the texts whose numeral `strtoll` gets right.
-/
theorem strtol_strtoll_saturate_iff (nptr : CStr) (base : Int) (hbase : ValidBase base)
    : (Saturates (-2 ^ 31) (2 ^ 31 - 1) base nptr.val (strtol nptr base).1.toInt (strtol nptr base).2
        ∧ Saturates (-2 ^ 63) (2 ^ 63 - 1) base nptr.val (strtoll nptr base).1.toInt
          (strtoll nptr base).2)
      ↔ ∀ t n, LongestNumeral base nptr.val t n → KeepsRange (-2 ^ 63) (2 ^ 63 - 1) n := by
  rw [strtol_iff nptr base hbase, strtoll_iff nptr base hbase]
  constructor
  . intro h
    exact h.2
  . intro h
    exact ⟨fun t n ht => (h t n ht).narrow, h⟩

def wideText : CStr :=
  ⟨[49, 56, 52, 52, 54, 55, 52, 52, 48, 55, 51, 55, 48, 57, 53, 53, 49, 54, 49, 55], by decide⟩

theorem strtol_strtoll_saturate_small
    : (Saturates (-2 ^ 31) (2 ^ 31 - 1) 10 [45, 55] (strtol ⟨[45, 55], by decide⟩ 10).1.toInt
          (strtol ⟨[45, 55], by decide⟩ 10).2
        ∧ Saturates (-2 ^ 63) (2 ^ 63 - 1) 10 [45, 55] (strtoll ⟨[45, 55], by decide⟩ 10).1.toInt
          (strtoll ⟨[45, 55], by decide⟩ 10).2) := by
  refine (strtol_strtoll_saturate_iff ⟨[45, 55], by decide⟩ 10 (Or.inr (by decide))).2 ?_
  intro t n h
  obtain ⟨-, -, rfl⟩ := (longestNumeral_iff (Or.inr (by decide))).1 h
  left
  decide

/--
The digits of 2^64 + 1 read as 1.
-/
theorem strtol_wraps
    : ¬∀ (nptr : CStr) (base : Int), ValidBase base →
        Saturates (-2 ^ 31) (2 ^ 31 - 1) base nptr.val (strtol nptr base).1.toInt
            (strtol nptr base).2
          ∧ Saturates (-2 ^ 63) (2 ^ 63 - 1) base nptr.val (strtoll nptr base).1.toInt
            (strtoll nptr base).2 := by
  intro h
  have hlong : LongestNumeral 10 wideText.val wideText.val 18446744073709551617 :=
    (longestNumeral_iff (Or.inr (by decide))).2 (by decide)
  have hvalue := ((h wideText 10 (Or.inr (by decide))).1.found _ _ hlong).1
  have hone : (strtol wideText 10).1.toInt = 1 := by decide
  rw [hone] at hvalue
  exact absurd hvalue (by decide)

end Saturates

/-!
The parser of the compiler's runtime.
-/

namespace Tcc

def isspace (c : Byte) : Bool :=
  c = 32 ∨ c = 9 ∨ c = 10 ∨ c = 13 ∨ c = 12 ∨ c = 11

def isdigit (c : Byte) : Bool :=
  48 ≤ c ∧ c ≤ 57

def isalpha (c : Byte) : Bool :=
  (65 ≤ c ∧ c ≤ 90) ∨ (97 ≤ c ∧ c ≤ 122)

def tolower (c : Byte) : Byte :=
  if 65 ≤ c ∧ c ≤ 90 then c + 32 else c

def digitAt (c : Byte) : Int :=
  if isdigit c then
    c.toNat - 48
  else if isalpha c then
    (tolower c).toNat - 97 + 10
  else
    -1

def digits (base : Int) (p : Bytes) (val : UInt64) : UInt64 × Nat :=
  match p with
  | [] => (val, 0)
  | c :: p =>
    let d := digitAt c
    if d < 0 ∨ d ≥ base then
      (val, 0)
    else
      let (val, n) := digits base p (val * .ofInt base + .ofInt d)
      (val, n + 1)

def baseAt (base : Int) (p : Bytes) : Int × Nat :=
  if base = 0 then
    if p.getD 0 0 = 48 then
      if p.getD 1 0 = 120 ∨ p.getD 1 0 = 88 then (16, 2) else (8, 1)
    else
      (10, 0)
  else if base = 16 then
    if p.getD 0 0 = 48 ∧ (p.getD 1 0 = 120 ∨ p.getD 1 0 = 88) then (16, 2) else (16, 0)
  else
    (base, 0)

def strtoull (nptr : CStr) (base : Int) : UInt64 × Nat :=
  let p := (nptr.val.takeWhile isspace).length
  let c := nptr.val.getD p 0
  let (neg, p) := if c = 45 then (true, p + 1) else if c = 43 then (false, p + 1) else (false, p)
  let (base, k) := baseAt base (nptr.val.drop p)
  let p := p + k
  let (val, n) := digits base (nptr.val.drop p) 0
  (if neg then 0 - val else val, if n = 0 then 0 else p + n)

section Digits

theorem isspace_eq : isspace = isSpaceChar := by
  funext c
  revert c
  decide +kernel

theorem digitAt_eq : ∀ c, digitAt c = match digitVal c with | some d => (d : Int) | none => -1 := by
  decide +kernel

variable {b : Nat}

theorem digitAt_some {c : Byte} {d : Nat} (h : digitVal c = some d) : digitAt c = d := by
  have hc := digitAt_eq c
  rw [h] at hc
  exact hc

theorem digitAt_none {c : Byte} (h : digitVal c = none) : digitAt c = -1 := by
  have hc := digitAt_eq c
  rw [h] at hc
  exact hc

theorem digitAt_of_isDigitOf {c : Byte} (h : isDigitOf b c)
    : digitAt c = ((digitVal c).getD 0 : Nat) ∧ (digitVal c).getD 0 < b := by
  unfold isDigitOf at h
  cases hd : digitVal c with
  | none =>
    rw [hd] at h
    cases h
  | some d =>
    rw [hd] at h
    exact ⟨digitAt_some hd, of_decide_eq_true h⟩

theorem digitAt_of_not_isDigitOf {c : Byte} (h : ¬isDigitOf b c)
    : digitAt c < 0 ∨ digitAt c ≥ b := by
  unfold isDigitOf at h
  cases hd : digitVal c with
  | none =>
    left
    rw [digitAt_none hd]
    omega
  | some d =>
    right
    rw [hd] at h
    have hle : ¬d < b := fun hlt => h (decide_eq_true hlt)
    rw [digitAt_some hd]
    omega

theorem digits_eq (p : Bytes) (v : Nat)
    : digits b p (.ofNat v)
      = (.ofNat ((p.takeWhile (isDigitOf b)).foldl (fun v c => v * b + (digitVal c).getD 0) v),
          (p.takeWhile (isDigitOf b)).length) := by
  induction p generalizing v with
  | nil => rfl
  | cons c p ih =>
    by_cases hc : isDigitOf b c
    . obtain ⟨hd, hlt⟩ := digitAt_of_isDigitOf hc
      have hofInt (m : Nat) : UInt64.ofInt m = .ofNat m := by
        have hmod : ((m : Int) % 2 ^ 64).toNat = m % 2 ^ 64 := by omega
        unfold UInt64.ofInt
        rw [hmod, UInt64.ofNat_mod_size]
      simp only [digits, hd]
      rw [if_neg (by omega), hofInt, hofInt, List.takeWhile_cons, if_pos hc, ← UInt64.ofNat_mul,
        ← UInt64.ofNat_add, ih]
      rfl
    . simp only [digits]
      rw [if_pos (digitAt_of_not_isDigitOf hc), List.takeWhile_cons, if_neg hc]
      rfl

end Digits

/--
Where the parsers part: a zero that no octal digit follows when any base is allowed, and a prefix
that no digit follows. The runtime then finds no numeral at all.
-/
def Drifts (base : Int) (s : Bytes) : Prop :=
  let r := numRest s
  ¬HexAt base r ∧ r.getD 0 0 = 48
    ∧ ((base = 0 ∧ ¬isDigitOf 8 (r.getD 1 0)) ∨ (base = 16 ∧ (r.getD 1 0 = 120 ∨ r.getD 1 0 = 88)))

section Strtoull

variable {base : Int} {nptr : CStr}

def run (base : Int) (s : Bytes) : Bytes :=
  ((numRest s).drop (baseAt base (numRest s)).2).takeWhile (isDigitOf (baseAt base (numRest s)).1.toNat)

def start (base : Int) (s : Bytes) : Nat :=
  (s.takeWhile isSpaceChar).length + (signAt (s.dropWhile isSpaceChar)).2
    + (baseAt base (numRest s)).2

theorem baseAt_pos (hbase : ValidBase base) (r : Bytes) : 2 ≤ (baseAt base r).1 := by
  unfold ValidBase at hbase
  unfold baseAt
  split
  . split
    . split <;> decide
    . decide
  . split
    . split <;> decide
    . show 2 ≤ base
      omega

theorem strtoull_eq (hbase : ValidBase base)
    : strtoull nptr base
      = (if numNeg nptr.val then
            0 - .ofNat (numVal (baseAt base (numRest nptr.val)).1.toNat (run base nptr.val))
          else
            .ofNat (numVal (baseAt base (numRest nptr.val)).1.toNat (run base nptr.val)),
          if run base nptr.val = [] then 0 else start base nptr.val + (run base nptr.val).length) := by
  have hpos := baseAt_pos hbase (numRest nptr.val)
  have hget : nptr.val.getD (nptr.val.takeWhile isSpaceChar).length 0
      = (nptr.val.dropWhile isSpaceChar).getD 0 0 := by
    rw [← drop_takeWhile]
    simp [List.getD]
  have hsign : (if (nptr.val.dropWhile isSpaceChar).getD 0 0 = 45 then
        (true, (nptr.val.takeWhile isSpaceChar).length + 1)
      else if (nptr.val.dropWhile isSpaceChar).getD 0 0 = 43 then
        (false, (nptr.val.takeWhile isSpaceChar).length + 1)
      else (false, (nptr.val.takeWhile isSpaceChar).length))
      = (numNeg nptr.val, (nptr.val.takeWhile isSpaceChar).length
          + (signAt (nptr.val.dropWhile isSpaceChar)).2) := by
    unfold numNeg signAt
    generalize (nptr.val.dropWhile isSpaceChar).getD 0 0 = c
    by_cases h45 : c = 45
    . simp [h45]
    . by_cases h43 : c = 43
      . simp [h43]
      . simp [h45, h43]
  have hrest : nptr.val.drop ((nptr.val.takeWhile isSpaceChar).length
      + (signAt (nptr.val.dropWhile isSpaceChar)).2) = numRest nptr.val := by
    rw [← List.drop_drop, drop_takeWhile]
    rfl
  have hstart : nptr.val.drop ((nptr.val.takeWhile isSpaceChar).length
      + (signAt (nptr.val.dropWhile isSpaceChar)).2 + (baseAt base (numRest nptr.val)).2)
      = (numRest nptr.val).drop (baseAt base (numRest nptr.val)).2 := by
    rw [← List.drop_drop, hrest]
  have hb : ((baseAt base (numRest nptr.val)).1.toNat : Int) = (baseAt base (numRest nptr.val)).1 :=
    Int.toNat_of_nonneg (by omega)
  have hdigits := digits_eq (b := (baseAt base (numRest nptr.val)).1.toNat)
    ((numRest nptr.val).drop (baseAt base (numRest nptr.val)).2) 0
  rw [hb] at hdigits
  unfold strtoull
  simp only [isspace_eq, hget, hsign, hrest, hstart]
  rw [show (0 : UInt64) = .ofNat 0 from rfl, hdigits]
  simp only [List.length_eq_zero_iff]
  rfl

def parsed (neg : Bool) (b : Nat) (ds : Bytes) (st : Nat) : UInt64 × Nat :=
  (if neg then 0 - .ofNat (numVal b ds) else .ofNat (numVal b ds),
    if ds = [] then 0 else st + ds.length)

theorem kernel_parsed (hbase : ValidBase base)
    : TanjaOS.strtoull nptr base
      = parsed (numNeg nptr.val) (TanjaOS.baseAt base (numRest nptr.val)).1.toNat
          (numRun base nptr.val) (numStart base nptr.val) := by
  unfold TanjaOS.strtoull
  rw [strtoUll_eq nptr hbase]
  rfl

theorem parsed_zero_ne {neg : Bool} {b b' st st' : Nat}
    : parsed neg b [48] st ≠ parsed neg b' [] st' := by
  intro h
  have := congrArg Prod.snd h
  simp [parsed] at this

theorem parsed_cons_zero {neg : Bool} {b st : Nat} {ds : Bytes} (hne : ds ≠ [])
    : parsed neg b (48 :: ds) st = parsed neg b ds (st + 1) := by
  have hval : numVal b (48 :: ds) = numVal b ds := by
    unfold numVal
    rw [List.foldl_cons, Nat.zero_mul]
    rfl
  unfold parsed
  rw [hval, if_neg (List.cons_ne_nil _ _), if_neg hne, List.length_cons]
  rw [show st + (ds.length + 1) = st + 1 + ds.length by omega]

theorem takeWhile_eq_nil {p : Byte → Bool} {l : Bytes} (hl : ¬p (l.getD 0 0))
    : l.takeWhile p = [] := by
  cases l with
  | nil => rfl
  | cons c l =>
    have hc : ¬p c := hl
    rw [List.takeWhile_cons, if_neg hc]

theorem takeWhile_ne_nil {p : Byte → Bool} {l : Bytes} (h0 : ¬p 0) (hl : p (l.getD 0 0))
    : l.takeWhile p ≠ [] := by
  cases l with
  | nil => exact absurd hl h0
  | cons c l =>
    have hc : p c := hl
    rw [List.takeWhile_cons, if_pos hc]
    exact List.cons_ne_nil _ _

theorem parsed_iff (hbase : ValidBase base) (neg : Bool) (w : Nat) (r : Bytes)
    : parsed neg (TanjaOS.baseAt base r).1.toNat
          ((r.drop (TanjaOS.baseAt base r).2).takeWhile
            (isDigitOf (TanjaOS.baseAt base r).1.toNat)) (w + (TanjaOS.baseAt base r).2)
        = parsed neg (baseAt base r).1.toNat
          ((r.drop (baseAt base r).2).takeWhile (isDigitOf (baseAt base r).1.toNat))
          (w + (baseAt base r).2)
      ↔ ¬(¬HexAt base r ∧ r.getD 0 0 = 48
        ∧ ((base = 0 ∧ ¬isDigitOf 8 (r.getD 1 0))
          ∨ (base = 16 ∧ (r.getD 1 0 = 120 ∨ r.getD 1 0 = 88)))) := by
  have hx8 : ∀ c : Byte, c = 120 ∨ c = 88 → ¬isDigitOf 8 c := fun c => not_isDigitOf_x (by omega)
  have hx16 : ∀ c : Byte, c = 120 ∨ c = 88 → ¬isDigitOf 16 c := fun c => not_isDigitOf_x (by omega)
  by_cases hhex : HexAt base r
  . -- the prefix is complete, both skip it
    have htcc : baseAt base r = (16, 2) := by
      unfold baseAt
      rcases hhex.1 with h | h
      . rw [if_pos h, if_pos hhex.2.1, if_pos hhex.2.2.1]
      . rw [if_neg (by omega), if_pos h, if_pos ⟨hhex.2.1, hhex.2.2.1⟩]
    rw [baseAt_hex hhex, htcc]
    exact iff_of_true rfl (fun h => h.1 hhex)
  . by_cases h48 : r.getD 0 0 = 48
    . obtain ⟨l, rfl⟩ : ∃ l, r = 48 :: l := by
        cases r with
        | nil => exact absurd h48 (by decide)
        | cons c l => exact ⟨l, by rw [show c = 48 from h48]⟩
      have hone : (48 :: l).getD 1 0 = l.getD 0 0 := rfl
      have hdrift (hx : l.getD 0 0 = 120 ∨ l.getD 0 0 = 88) (hbase : base = 0 ∨ base = 16)
          : (l.drop 1).takeWhile (isDigitOf 16) = [] := by
        apply takeWhile_eq_nil
        intro h
        apply hhex
        refine ⟨hbase, rfl, hx, ?_⟩
        rw [isHexChar_eq]
        cases l with
        | nil => exact h
        | cons c l => cases l <;> exact h
      have hlone (b : Nat) (hb : isDigitOf b 48) (hx : ¬isDigitOf b (l.getD 0 0))
          : (48 :: l).takeWhile (isDigitOf b) = [48] := by
        rw [List.takeWhile_cons, if_pos hb, takeWhile_eq_nil hx]
      by_cases h0 : base = 0
      . subst h0
        rw [baseAt_zero hhex, if_pos h48]
        unfold baseAt
        rw [hone, if_pos rfl, if_pos h48]
        by_cases hx : l.getD 0 0 = 120 ∨ l.getD 0 0 = 88
        . rw [if_pos hx]
          show parsed neg 8 ((48 :: l).takeWhile (isDigitOf 8)) (w + 0)
            = parsed neg 16 ((l.drop 1).takeWhile (isDigitOf 16)) (w + 2) ↔ _
          rw [hlone 8 (by decide) (hx8 _ hx), hdrift hx (Or.inl rfl)]
          exact iff_of_false parsed_zero_ne (fun h => h ⟨hhex, h48, Or.inl ⟨rfl, hx8 _ hx⟩⟩)
        . rw [if_neg hx]
          show parsed neg 8 ((48 :: l).takeWhile (isDigitOf 8)) (w + 0)
            = parsed neg 8 (l.takeWhile (isDigitOf 8)) (w + 1) ↔ _
          by_cases h8 : isDigitOf 8 (l.getD 0 0)
          . rw [List.takeWhile_cons, if_pos (by decide),
              parsed_cons_zero (takeWhile_ne_nil (by decide) h8)]
            refine iff_of_true rfl ?_
            rintro ⟨-, -, ⟨-, h⟩ | ⟨h, -⟩⟩
            . exact h h8
            . cases h
          . rw [hlone 8 (by decide) h8, takeWhile_eq_nil h8]
            exact iff_of_false parsed_zero_ne (fun h => h ⟨hhex, h48, Or.inl ⟨rfl, h8⟩⟩)
      . rw [baseAt_given hhex h0]
        unfold baseAt
        rw [hone, if_neg h0]
        by_cases h16 : base = 16
        . subst h16
          by_cases hx : l.getD 0 0 = 120 ∨ l.getD 0 0 = 88
          . rw [if_pos rfl, if_pos ⟨h48, hx⟩]
            show parsed neg 16 ((48 :: l).takeWhile (isDigitOf 16)) (w + 0)
              = parsed neg 16 ((l.drop 1).takeWhile (isDigitOf 16)) (w + 2) ↔ _
            rw [hlone 16 (by decide) (hx16 _ hx), hdrift hx (Or.inr rfl)]
            exact iff_of_false parsed_zero_ne (fun h => h ⟨hhex, h48, Or.inr ⟨rfl, hx⟩⟩)
          . rw [if_pos rfl, if_neg (fun h => hx h.2)]
            refine iff_of_true rfl ?_
            rintro ⟨-, -, ⟨h, -⟩ | ⟨-, h⟩⟩
            . exact h0 h
            . exact hx h
        . rw [if_neg h16]
          refine iff_of_true rfl ?_
          rintro ⟨-, -, ⟨h, -⟩ | ⟨h, -⟩⟩
          . exact h0 h
          . exact h16 h
    . -- no zero to start with, both read the digits from here
      have hsame : baseAt base r = TanjaOS.baseAt base r := by
        by_cases h0 : base = 0
        . subst h0
          rw [baseAt_zero hhex, if_neg h48]
          unfold baseAt
          rw [if_pos rfl, if_neg h48]
        . rw [baseAt_given hhex h0]
          unfold baseAt
          rw [if_neg h0]
          split
          . next h16 =>
            rw [if_neg (by rintro ⟨h, -⟩; exact h48 h), h16]
          . rfl
      rw [hsame]
      exact iff_of_true rfl (fun h => h48 h.2.1)

/--
The two libraries agree on everything but what `Drifts` describes.
-/
theorem strtoull_eq_iff (nptr : CStr) (base : Int) (hbase : ValidBase base)
    : TanjaOS.strtoull nptr base = Tcc.strtoull nptr base ↔ ¬Drifts base nptr.val := by
  rw [kernel_parsed hbase, strtoull_eq hbase]
  exact parsed_iff hbase _ _ _

theorem strtoull_eq_ten
    : TanjaOS.strtoull ⟨[49, 48], by decide⟩ 0 = Tcc.strtoull ⟨[49, 48], by decide⟩ 0 :=
  (strtoull_eq_iff ⟨[49, 48], by decide⟩ 0 (Or.inl rfl)).2 (fun h => absurd h.2.1 (by decide))

/--
On a lone zero the kernel stops behind it and the runtime at the start of the text.
-/
theorem strtoull_zero_ne
    : ¬∀ (nptr : CStr) (base : Int), ValidBase base →
        (∀ t n, LongestNumeral base nptr.val t n → n.natAbs < 2 ^ 64) →
        TanjaOS.strtoull nptr base = Tcc.strtoull nptr base := by
  intro h
  have hvalue : ∀ t n, LongestNumeral 0 [48] t n → n.natAbs < 2 ^ 64 := by
    intro t n ht
    obtain ⟨-, -, rfl⟩ := (longestNumeral_iff (Or.inl rfl)).1 ht
    decide
  exact absurd (h ⟨[48], by decide⟩ 0 (Or.inl rfl) hvalue) (by decide)

end Strtoull

end Tcc

end TanjaOS
