import TanjaOS.Lib.Split
import TanjaOS.Fs.Basic

/-!
Numerals in a text: white space, a sign, a prefix for the base and digits.
-/

open Lib

namespace TanjaOS

/--
`*s == ' ' || (*s >= 9 && *s <= 13)`
-/
def isSpaceChar (c : Byte) : Bool :=
  c = 32 ∨ (9 ≤ c ∧ c ≤ 13)

def digitVal (c : Byte) : Option Nat :=
  if 48 ≤ c ∧ c ≤ 57 then
    some (c.toNat - 48)
  else if 97 ≤ c ∧ c ≤ 122 then
    some (c.toNat - 97 + 10)
  else if 65 ≤ c ∧ c ≤ 90 then
    some (c.toNat - 65 + 10)
  else
    none

def isDigitOf (b : Nat) (c : Byte) : Bool :=
  match digitVal c with
  | some d => d < b
  | none => false

/--
The number that the digits `ds` denote, without a bound.
-/
def numVal (b : Nat) (ds : Bytes) : Nat :=
  ds.foldl (fun v c => v * b + (digitVal c).getD 0) 0

inductive IsSign : Bytes → Bool → Prop where
  | none : IsSign [] false
  | plus : IsSign [43] false
  | minus : IsSign [45] true

/--
The base `b` that digits `ds` behind the prefix `pre` are read in when `base` is asked for.
-/
inductive BaseOf : Int → Nat → Bytes → Bytes → Prop where
  | given {b : Nat} {ds : Bytes} (h : 2 ≤ b) : BaseOf b b [] ds
  | hex {base : Int} {x : Byte} {ds : Bytes} (h : base = 0 ∨ base = 16) (hx : x = 120 ∨ x = 88)
    : BaseOf base 16 [48, x] ds
  | octal {ds : Bytes} (h : ds.head? = some 48) : BaseOf 0 8 [] ds
  | decimal {ds : Bytes} (h : ds.head? ≠ some 48) : BaseOf 0 10 [] ds

/--
The parts of the numeral `t`, which denotes `n`.
-/
structure Numeral (base : Int) (t : Bytes) (n : Int) where
  ws : Bytes
  sign : Bytes
  neg : Bool
  pre : Bytes
  ds : Bytes
  b : Nat
  text : t = ws ++ (sign ++ (pre ++ ds))
  space : ∀ c ∈ ws, isSpaceChar c
  isSign : IsSign sign neg
  base : BaseOf base b pre ds
  nonempty : ds ≠ []
  digits : ∀ c ∈ ds, isDigitOf b c
  value : n = if neg then -(numVal b ds : Int) else numVal b ds

/--
`t` is the longest prefix of `s` that is a numeral, and denotes `n`.
-/
structure LongestNumeral (base : Int) (s t : Bytes) (n : Int) : Prop where
  numeral : Nonempty (Numeral base t n)
  isPrefix : t <+: s
  longest : ∀ t' n', Numeral base t' n' → t' <+: s → t'.length ≤ t.length

/--
`base` is 0 or one of the bases that have digits.
-/
def ValidBase (base : Int) : Prop :=
  base = 0 ∨ (2 ≤ base ∧ base ≤ 36)

/--
The sign that the code finds behind white space, and the characters it takes.
-/
def signAt (s : Bytes) : Bool × Nat :=
  if s.getD 0 0 = 43 then (false, 1) else if s.getD 0 0 = 45 then (true, 1) else (false, 0)

/--
`(c >= '0' && c <= '9') || (c >= 'a' && c <= 'f') || (c >= 'A' && c <= 'F')`
-/
def isHexChar (c : Byte) : Bool :=
  (48 ≤ c ∧ c ≤ 57) ∨ (97 ≤ c ∧ c ≤ 102) ∨ (65 ≤ c ∧ c ≤ 70)

/--
The base that the code decides for, and how many characters it skips for it.
-/
def baseAt (base : Int) (s : Bytes) : Int × Nat :=
  if (base = 0 ∨ base = 16) ∧ s.getD 0 0 = 48 ∧ (s.getD 1 0 = 120 ∨ s.getD 1 0 = 88)
      ∧ isHexChar (s.getD 2 0) then
    (16, 2)
  else if base = 0 then
    (if s.getD 0 0 = 48 then 8 else 10, 0)
  else
    (base, 0)

section Chars

variable {b : Nat} {c : Byte}

theorem isHexChar_eq (c : Byte) : isHexChar c = isDigitOf 16 c := by
  revert c
  decide +kernel

theorem digitVal_isSome (c : Byte) : (digitVal c).isSome → c ≠ 43 ∧ c ≠ 45 ∧ ¬isSpaceChar c := by
  revert c
  decide +kernel

theorem isDigitOf_isSome (h : isDigitOf b c) : (digitVal c).isSome := by
  unfold isDigitOf at h
  split at h
  . next hd => simp [hd]
  . cases h

theorem isDigitOf_le {b' : Nat} (hb : b ≤ b') (h : isDigitOf b c) : isDigitOf b' c := by
  unfold isDigitOf at h ⊢
  split at h
  . simp only [decide_eq_true_eq] at h ⊢
    omega
  . cases h

theorem not_isDigitOf_x (hb : b ≤ 16) (hc : c = 120 ∨ c = 88) : ¬isDigitOf b c := by
  intro h
  have h16 := isDigitOf_le hb h
  rcases hc with rfl | rfl <;> revert h16 <;> decide

end Chars

def numRest (s : Bytes) : Bytes :=
  (s.dropWhile isSpaceChar).drop (signAt (s.dropWhile isSpaceChar)).2

def numRun (base : Int) (s : Bytes) : Bytes :=
  ((numRest s).drop (baseAt base (numRest s)).2).takeWhile
    (isDigitOf (baseAt base (numRest s)).1.toNat)

def numNeg (s : Bytes) : Bool :=
  (signAt (s.dropWhile isSpaceChar)).1

def numStart (base : Int) (s : Bytes) : Nat :=
  (s.takeWhile isSpaceChar).length + (signAt (s.dropWhile isSpaceChar)).2
    + (baseAt base (numRest s)).2

def numInt (base : Int) (s : Bytes) : Int :=
  if numNeg s then
    -(numVal (baseAt base (numRest s)).1.toNat (numRun base s) : Int)
  else
    numVal (baseAt base (numRest s)).1.toNat (numRun base s)

section Longest

variable {base : Int} {b : Nat} {s t pre ds : Bytes} {n : Int}

theorem BaseOf.head (h : BaseOf base b pre ds) (hne : ds ≠ []) (hds : ∀ c ∈ ds, isDigitOf b c)
    : ∃ c l, pre ++ ds = c :: l ∧ (digitVal c).isSome := by
  have hhead : ∃ c l, ds = c :: l ∧ (digitVal c).isSome := by
    cases ds with
    | nil => exact absurd rfl hne
    | cons c l => exact ⟨c, l, rfl, isDigitOf_isSome (hds c (by simp))⟩
  cases h with
  | given _ => exact hhead
  | hex _ _ => exact ⟨48, _, rfl, by decide⟩
  | octal _ => exact hhead
  | decimal _ => exact hhead

theorem signAt_append {sign : Bytes} {neg : Bool} (h : IsSign sign neg) {c : Byte}
    (hc : c ≠ 43 ∧ c ≠ 45) (l : Bytes)
    : signAt (sign ++ c :: l) = (neg, sign.length) := by
  cases h with
  | none => simp [signAt, hc.1, hc.2]
  | plus => simp [signAt]
  | minus => simp [signAt]

theorem IsSign.first {sign : Bytes} {neg : Bool} (h : IsSign sign neg) {c : Byte}
    (hc : ¬isSpaceChar c) (l : Bytes)
    : ∃ x y, sign ++ c :: l = x :: y ∧ ¬isSpaceChar x := by
  cases h with
  | none => exact ⟨c, _, rfl, hc⟩
  | plus => exact ⟨43, _, rfl, by decide⟩
  | minus => exact ⟨45, _, rfl, by decide⟩

theorem Numeral.head (p : Numeral base t n) (tl : Bytes)
    : (t ++ tl).takeWhile isSpaceChar = p.ws
      ∧ signAt ((t ++ tl).dropWhile isSpaceChar) = (p.neg, p.sign.length)
      ∧ numRest (t ++ tl) = p.pre ++ (p.ds ++ tl) := by
  obtain ⟨c, l, hcl, hc⟩ := p.base.head p.nonempty p.digits
  have hc := digitVal_isSome c hc
  have htext : t ++ tl = p.ws ++ (p.sign ++ c :: (l ++ tl)) := by
    rw [← List.cons_append, ← hcl]
    nth_rewrite 1 [p.text]
    simp
  obtain ⟨x, y, hxy, hx⟩ := p.isSign.first hc.2.2 (l ++ tl)
  have htake : (t ++ tl).takeWhile isSpaceChar = p.ws := by
    rw [htext, List.takeWhile_append_of_pos p.space, hxy, List.takeWhile_cons, if_neg hx,
      List.append_nil]
  have hdrop : (t ++ tl).dropWhile isSpaceChar = p.sign ++ c :: (l ++ tl) := by
    rw [htext, List.dropWhile_append_of_pos p.space, hxy, List.dropWhile_cons, if_neg hx]
  have hsign := signAt_append p.isSign ⟨hc.1, hc.2.1⟩ (l ++ tl)
  refine ⟨htake, by rw [hdrop, hsign], ?_⟩
  unfold numRest
  rw [hdrop, hsign, List.drop_left, ← List.cons_append, ← hcl, List.append_assoc]

section BaseAt

variable {r : Bytes}

def HexAt (base : Int) (r : Bytes) : Prop :=
  (base = 0 ∨ base = 16) ∧ r.getD 0 0 = 48 ∧ (r.getD 1 0 = 120 ∨ r.getD 1 0 = 88)
    ∧ isHexChar (r.getD 2 0)

instance : Decidable (HexAt base r) := by
  unfold HexAt
  infer_instance

theorem baseAt_hex (h : HexAt base r) : baseAt base r = (16, 2) :=
  if_pos h

theorem baseAt_zero (h : ¬HexAt 0 r)
    : baseAt 0 r = (if r.getD 0 0 = 48 then 8 else 10, 0) :=
  (if_neg h).trans (if_pos rfl)

theorem baseAt_given (h : ¬HexAt base r) (h0 : base ≠ 0) : baseAt base r = (base, 0) :=
  (if_neg h).trans (if_neg h0)

theorem HexAt.length_eq_one {tl : Bytes} (h : HexAt base (ds ++ tl)) (hb : b ≤ 16) (hne : ds ≠ [])
    (hds : ∀ c ∈ ds, isDigitOf b c)
    : ds.length = 1 := by
  cases ds with
  | nil => exact absurd rfl hne
  | cons c l =>
    cases l with
    | nil => rfl
    | cons y l =>
      have hy : y = 120 ∨ y = 88 := h.2.2.1
      have := hds y (by simp)
      exact absurd this (not_isDigitOf_x hb hy)

end BaseAt

theorem BaseOf.baseAt_eq (h : BaseOf base b pre ds) (hne : ds ≠ [])
    (hds : ∀ c ∈ ds, isDigitOf b c) (tl : Bytes)
    : baseAt base (pre ++ (ds ++ tl)) = ((b : Int), pre.length)
      ∨ (HexAt base (ds ++ tl) ∧ pre = [] ∧ ds.length = 1) := by
  have hhead : ∀ c, ds.head? = some c → (ds ++ tl).getD 0 0 = c := by
    intro c hc
    cases ds with
    | nil => cases hc
    | cons x l =>
      injection hc
  cases h with
  | @given b _ hb =>
    rw [List.nil_append]
    by_cases hhex : HexAt b (ds ++ tl)
    . right
      have h16 : b ≤ 16 := by
        have := hhex.1
        omega
      exact ⟨hhex, rfl, hhex.length_eq_one h16 hne hds⟩
    . left
      rw [baseAt_given hhex (by omega)]
      rfl
  | hex hbase hx =>
    left
    cases ds with
    | nil => exact absurd rfl hne
    | cons c l =>
      apply baseAt_hex
      refine ⟨hbase, rfl, hx, ?_⟩
      rw [isHexChar_eq]
      exact hds c (by simp)
  | octal h0 =>
    rw [List.nil_append]
    by_cases hhex : HexAt 0 (ds ++ tl)
    . right
      exact ⟨hhex, rfl, hhex.length_eq_one (by omega) hne hds⟩
    . left
      rw [baseAt_zero hhex, if_pos (hhead 48 h0)]
      rfl
  | decimal h0 =>
    rw [List.nil_append]
    by_cases hhex : HexAt 0 (ds ++ tl)
    . right
      exact ⟨hhex, rfl, hhex.length_eq_one (by omega) hne hds⟩
    . left
      rw [baseAt_zero hhex, if_neg]
      . rfl
      . intro h48
        cases ds with
        | nil => exact hne rfl
        | cons c l =>
          apply h0
          exact congrArg some h48

theorem HexAt.run_ne_nil {r : Bytes} (h : HexAt base r)
    : (r.drop 2).takeWhile (isDigitOf 16) ≠ [] := by
  have hhex := h.2.2.2
  rw [isHexChar_eq] at hhex
  match r with
  | [] | [_] | [_, _] =>
    have hzero : ¬isDigitOf 16 0 := by decide
    exact absurd hhex hzero
  | _ :: _ :: c :: l =>
    have hc : isDigitOf 16 c := hhex
    rw [List.drop_succ_cons, List.drop_succ_cons, List.drop_zero, List.takeWhile_cons, if_pos hc]
    exact List.cons_ne_nil _ _

theorem Numeral.le (p : Numeral base t n) (hpre : t <+: s)
    : numRun base s ≠ []
      ∧ (t.length < numStart base s + (numRun base s).length
        ∨ (t.length = numStart base s + (numRun base s).length ∧ n = numInt base s)) := by
  obtain ⟨tl, rfl⟩ := hpre
  obtain ⟨hws, hsign, hrest⟩ := p.head tl
  have hlen : t.length = p.ws.length + (p.sign.length + (p.pre.length + p.ds.length)) := by
    nth_rewrite 1 [p.text]
    simp
  have hvalue := p.value
  unfold numInt numNeg numStart numRun
  rw [hws, hsign, hrest]
  rcases p.base.baseAt_eq p.nonempty p.digits tl with hbase | ⟨hhex, hnil, hone⟩
  . rw [hbase, List.drop_left, Int.toNat_natCast, List.takeWhile_append_of_pos p.digits]
    constructor
    . intro hnil
      exact p.nonempty (List.append_eq_nil_iff.1 hnil).1
    . rw [List.length_append]
      cases hmore : tl.takeWhile (isDigitOf p.b) with
      | nil =>
        right
        rw [List.append_nil, List.length_nil]
        exact ⟨by omega, hvalue⟩
      | cons c l =>
        left
        rw [List.length_cons]
        omega
  . have hrun := hhex.run_ne_nil
    rw [hnil, List.nil_append, baseAt_hex hhex]
    refine ⟨hrun, Or.inl ?_⟩
    rw [hnil, hone] at hlen
    rw [hlen]
    show _ < p.ws.length + p.sign.length + 2 + _
    simp only [List.length_nil]
    omega

theorem drop_numStart (base : Int) (s : Bytes)
    : s.drop (numStart base s) = (numRest s).drop (baseAt base (numRest s)).2 := by
  unfold numStart
  rw [← List.drop_drop, ← List.drop_drop, drop_takeWhile]
  rfl

theorem numRun_isPrefix (base : Int) (s : Bytes) : numRun base s <+: s.drop (numStart base s) := by
  rw [drop_numStart]
  exact List.takeWhile_prefix _

theorem numStart_le (hrun : numRun base s ≠ [])
    : numStart base s + (numRun base s).length ≤ s.length := by
  have hle := (numRun_isPrefix base s).length_le
  have hpos := List.length_pos_iff.2 hrun
  rw [List.length_drop] at hle
  omega

theorem numText (base : Int) (s : Bytes)
    : s.take (numStart base s + (numRun base s).length)
      = s.takeWhile isSpaceChar
        ++ ((s.dropWhile isSpaceChar).take (signAt (s.dropWhile isSpaceChar)).2
          ++ ((numRest s).take (baseAt base (numRest s)).2 ++ numRun base s)) := by
  have hspaces := List.prefix_iff_eq_take.1 (List.takeWhile_prefix (l := s) isSpaceChar)
  rw [List.take_add, ← List.prefix_iff_eq_take.1 (numRun_isPrefix base s)]
  unfold numStart
  rw [List.take_add, List.take_add, ← hspaces, ← List.drop_drop, drop_takeWhile]
  simp only [numRest, List.append_assoc]

theorem isSign_take (l : Bytes) : IsSign (l.take (signAt l).2) (signAt l).1 := by
  cases l with
  | nil => exact .none
  | cons c l =>
    unfold signAt
    split
    . next h =>
      obtain rfl : c = 43 := h
      exact .plus
    . split
      . next h =>
        obtain rfl : c = 45 := h
        exact .minus
      . exact .none

theorem baseOf_take (hbase : ValidBase base) (r : Bytes)
    (hrun : (r.drop (baseAt base r).2).takeWhile (isDigitOf (baseAt base r).1.toNat) ≠ [])
    : BaseOf base (baseAt base r).1.toNat (r.take (baseAt base r).2)
        ((r.drop (baseAt base r).2).takeWhile (isDigitOf (baseAt base r).1.toNat)) := by
  by_cases hhex : HexAt base r
  . rw [baseAt_hex hhex]
    match r, hhex with
    | [], hhex => exact absurd hhex.2.1 (by decide)
    | [_], hhex =>
      have hx : (0 : Byte) = 120 ∨ (0 : Byte) = 88 := hhex.2.2.1
      exact absurd hx (by decide)
    | c :: x :: l, hhex =>
      obtain rfl : c = 48 := hhex.2.1
      exact .hex hhex.1 hhex.2.2.1
  . by_cases h0 : base = 0
    . subst h0
      rw [baseAt_zero hhex] at hrun ⊢
      cases r with
      | nil => exact absurd rfl hrun
      | cons c l =>
        simp only [List.drop_zero, List.getD_cons_zero, List.take_zero] at hrun ⊢
        -- the first digit is the first character of the text
        have hhead : ∀ p : Byte → Bool, (c :: l).takeWhile p ≠ [] → ((c :: l).takeWhile p).head? = some c := by
          intro p hp
          rw [List.takeWhile_cons] at hp ⊢
          split at hp
          . next h => rw [if_pos h, List.head?_cons]
          . exact absurd rfl hp
        by_cases h48 : c = 48
        . rw [if_pos h48] at hrun ⊢
          apply BaseOf.octal
          rw [hhead _ hrun, h48]
        . rw [if_neg h48] at hrun ⊢
          apply BaseOf.decimal
          rw [hhead _ hrun]
          simpa using h48
    . rw [baseAt_given hhex h0]
      have hpos : 2 ≤ base := by
        unfold ValidBase at hbase
        omega
      obtain ⟨b, rfl⟩ := Int.eq_ofNat_of_zero_le (show 0 ≤ base by omega)
      apply BaseOf.given
      omega

theorem numeral_take (hbase : ValidBase base) (hrun : numRun base s ≠ [])
    : Nonempty (Numeral base (s.take (numStart base s + (numRun base s).length))
        (numInt base s)) := by
  refine ⟨{
    ws := s.takeWhile isSpaceChar
    sign := (s.dropWhile isSpaceChar).take (signAt (s.dropWhile isSpaceChar)).2
    neg := numNeg s
    pre := (numRest s).take (baseAt base (numRest s)).2
    ds := numRun base s
    b := (baseAt base (numRest s)).1.toNat
    text := numText base s
    space := fun _ hc => List.mem_takeWhile_imp hc
    isSign := isSign_take _
    base := baseOf_take hbase _ hrun
    nonempty := hrun
    digits := fun _ hc => List.mem_takeWhile_imp hc
    value := rfl
  }⟩

theorem longestNumeral_iff (hbase : ValidBase base)
    : LongestNumeral base s t n
      ↔ numRun base s ≠ [] ∧ t = s.take (numStart base s + (numRun base s).length)
        ∧ n = numInt base s := by
  constructor
  . intro h
    obtain ⟨p⟩ := h.numeral
    obtain ⟨hrun, hle⟩ := p.le h.isPrefix
    obtain ⟨q⟩ := numeral_take hbase hrun
    have hge := h.longest _ _ q (List.take_prefix _ _)
    have hlen := numStart_le hrun
    rw [List.length_take] at hge
    rcases hle with hlt | ⟨heq, hn⟩
    . omega
    . refine ⟨hrun, ?_, hn⟩
      rw [← heq]
      exact List.prefix_iff_eq_take.1 h.isPrefix
  . rintro ⟨hrun, rfl, rfl⟩
    refine ⟨numeral_take hbase hrun, List.take_prefix _ _, ?_⟩
    intro t' n' p hp
    have hlen := numStart_le hrun
    have hle := (p.le hp).2
    rw [List.length_take]
    omega

end Longest

end TanjaOS
