import TanjaOS.Libc.ScanText
import TanjaOS.Libc.Strtol

/-!
`%li` of the scanning engine and `strtol` on the same numeral.
-/

open Lib

namespace TanjaOS

/--
`%li%n`
-/
def liFormat : CStr :=
  ⟨[37, 108, 105, 37, 110], by decide⟩

/--
`%li` stores what `strtol` returns, and `%n` where it ends.
-/
def ReadsAsStrtol (text : CStr) : Prop :=
  ∃ k : Int32, (vsscanf text liFormat).stored = [.long (strtol text 0).1, .count k]
    ∧ k.toInt = (strtol text 0).2

/--
The texts `r` behind the sign that both parsers read alike: `%i` wants digits behind `0x` and no more
than 1024 of them, and reads a number that does not start with a zero in base 16.
-/
def PlainNumeral (r : Bytes) : Prop :=
  if r.getD 0 0 = 48 then
    if r.getD 1 0 = 120 ∨ r.getD 1 0 = 88 then
      isHexChar (r.getD 2 0) ∧ ((r.drop 2).takeWhile (isDigitOf 16)).length ≤ 1024
    else
      (r.takeWhile (isDigitOf 8)).length ≤ 1024
  else
    ¬isHexChar (r.getD 1 0)

section HexDecimal

variable {c : Byte} {l : Bytes}

def digitOf (c : Byte) : Nat :=
  (digitVal c).getD 0

theorem numVal_cons (b : Nat) (c : Byte) (l : Bytes)
    : numVal b (c :: l) = digitOf c * b ^ l.length + numVal b l := by
  have happend := numVal_append b [c] l
  have hone : numVal b [c] = digitOf c := by
    simp [numVal, digitOf]
  rwa [List.singleton_append, hone] at happend

theorem digitOf_range : ∀ c, isDigitOf 10 c → digitOf c ≤ 9 ∧ (c ≠ 48 → 1 ≤ digitOf c) := by
  decide +kernel

theorem digitOf_le (hc : isDigitOf 10 c) : digitOf c ≤ 9 :=
  (digitOf_range c hc).1

theorem digitOf_pos (hc : isDigitOf 10 c) (h0 : c ≠ 48) : 1 ≤ digitOf c :=
  (digitOf_range c hc).2 h0

theorem pow_le_numVal (hc : isDigitOf 10 c) (h0 : c ≠ 48) : 10 ^ l.length ≤ numVal 10 (c :: l) := by
  rw [numVal_cons]
  have := Nat.mul_le_mul_right (10 ^ l.length) (digitOf_pos hc h0)
  omega

theorem numVal_hex_lt (hl : ∀ d ∈ l, isDigitOf 10 d) : numVal 16 l < 16 ^ l.length := by
  induction l with
  | nil => exact Nat.zero_lt_one
  | cons d l ih =>
    have hd := digitOf_le (hl d (by simp))
    have ih := ih fun d h => hl d (by simp [h])
    have := Nat.mul_le_mul_right (16 ^ l.length) hd
    rw [numVal_cons, List.length_cons, Nat.pow_succ]
    omega

theorem numVal_le_hex (l : Bytes) : numVal 10 l ≤ numVal 16 l := by
  induction l with
  | nil => exact Nat.le_refl _
  | cons d l ih =>
    rw [numVal_cons, numVal_cons]
    have hpow : 10 ^ l.length ≤ 16 ^ l.length := Nat.pow_le_pow_left (by decide) _
    have := Nat.mul_le_mul_left (digitOf d) hpow
    omega

/--
How much more each of `n` digits counts in base 16 than in base 10.
-/
def excess : Nat → List Nat
  | 0 => []
  | n + 1 => (16 ^ n - 10 ^ n) :: excess n

theorem numVal_excess (l : Bytes)
    : numVal 16 l = numVal 10 l + (List.zipWith (· * ·) (excess l.length) (l.map digitOf)).sum := by
  induction l with
  | nil => rfl
  | cons d l ih =>
    rw [numVal_cons, numVal_cons, ih, List.length_cons, List.map_cons, excess, List.zipWith_cons_cons,
      List.sum_cons]
    have hpow : 10 ^ l.length ≤ 16 ^ l.length := Nat.pow_le_pow_left (by decide) _
    have hmul : digitOf d * 16 ^ l.length
        = digitOf d * 10 ^ l.length + (16 ^ l.length - 10 ^ l.length) * digitOf d := by
      rw [Nat.mul_comm _ (digitOf d), ← Nat.mul_add]
      congr 1
      omega
    omega

/--
Some digits with the weights `ws` make up `t`.
-/
def balances (ws : List Nat) (t : Nat) : Bool :=
  match ws with
  | [] => t = 0
  | w :: ws => (List.range 10).any fun d =>
    decide (w * d ≤ t) && (decide (t - w * d ≤ 9 * ws.sum) && balances ws (t - w * d))

theorem zipWith_sum_le {ws ds : List Nat} (hds : ∀ d ∈ ds, d ≤ 9)
    : (List.zipWith (· * ·) ws ds).sum ≤ 9 * ws.sum := by
  induction ws generalizing ds with
  | nil => simp
  | cons w ws ih =>
    cases ds with
    | nil => simp
    | cons d ds =>
      have hd := hds d (by simp)
      have ih := @ih ds fun d h => hds d (by simp [h])
      have := Nat.mul_le_mul_left w hd
      rw [List.zipWith_cons_cons, List.sum_cons, List.sum_cons]
      omega

theorem balances_zipWith {ws ds : List Nat} (hlen : ds.length = ws.length) (hds : ∀ d ∈ ds, d ≤ 9)
    : balances ws (List.zipWith (· * ·) ws ds).sum := by
  induction ws generalizing ds with
  | nil => simp [balances]
  | cons w ws ih =>
    cases ds with
    | nil => cases hlen
    | cons d ds =>
      have hrest : ∀ d ∈ ds, d ≤ 9 := fun d h => hds d (by simp [h])
      have hbal := ih (Nat.succ.inj hlen) hrest
      have hle := @zipWith_sum_le ws ds hrest
      rw [List.zipWith_cons_cons, List.sum_cons, balances, List.any_eq_true]
      refine ⟨d, List.mem_range.2 (by have := hds d (by simp); omega), ?_⟩
      rw [Nat.add_sub_cancel_left]
      simp only [Bool.and_eq_true, decide_eq_true_eq]
      exact ⟨Nat.le_add_right _ _, hle, hbal⟩

theorem not_balances : ∀ h < 21, h ≠ 0 → ¬balances (excess 8) (h * 100000000) := by
  decide +kernel

theorem hex_tail_ne {h : Nat} (hl : ∀ d ∈ l, isDigitOf 10 d) (hlen : l.length = 8) (h0 : h ≠ 0)
    (hfit : h * 100000000 + numVal 10 l ≤ 2 ^ 31)
    : numVal 16 l ≠ h * 100000000 + numVal 10 l := by
  intro heq
  have hsum := numVal_excess l
  rw [hlen] at hsum
  by_cases hlt : h < 21
  . have hbal := @balances_zipWith (excess 8) (l.map digitOf) (by rw [List.length_map, hlen]; rfl) (by
      intro d hd
      obtain ⟨c, hc, rfl⟩ := List.mem_map.1 hd
      exact digitOf_le (hl c hc))
    rw [show (List.zipWith (· * ·) (excess 8) (l.map digitOf)).sum = h * 100000000 by omega] at hbal
    exact not_balances h hlt h0 hbal
  . cases l with
    | nil => cases hlen
    | cons b l =>
      have hb := numVal_cons 10 b l
      have hx := numVal_cons 16 b l
      have hlt := numVal_hex_lt fun d h => hl d (List.mem_cons_of_mem b h)
      have hlen : l.length = 7 := Nat.succ.inj hlen
      rw [hlen] at hb hx hlt
      norm_num at hb hx hlt
      omega

theorem hex_ne_decimal (hc : isDigitOf 10 c) (h0 : c ≠ 48) (hl : ∀ d ∈ l, isDigitOf 10 d) (hne : l ≠ [])
    (hfit : numVal 10 (c :: l) ≤ 2 ^ 31)
    : numVal 16 (c :: l) % 2 ^ 32 ≠ numVal 10 (c :: l) % 2 ^ 32 := by
  have hall : ∀ d ∈ c :: l, isDigitOf 10 d := by
    intro d hd
    rcases List.mem_cons.1 hd with rfl | hd
    . exact hc
    . exact hl d hd
  have hpow := (pow_le_numVal hc h0).trans hfit
  have hlen : l.length < 10 := by
    by_contra h
    have := Nat.pow_le_pow_right (show 0 < 10 by decide) (show 10 ≤ l.length by omega)
    omega
  by_cases hshort : l.length < 8
  . -- both values are below 2^32
    have hpos := digitOf_pos hc h0
    have hlt := numVal_hex_lt hall
    have hle := numVal_le_hex l
    have h16 : 16 ^ (c :: l).length ≤ 16 ^ 8 := Nat.pow_le_pow_right (by decide) hshort
    have hstrict : 10 ^ l.length < 16 ^ l.length :=
      Nat.pow_lt_pow_left (by decide) (by simpa using hne)
    have hmul := Nat.mul_lt_mul_of_pos_left hstrict hpos
    have hx := numVal_cons 16 c l
    have hd := numVal_cons 10 c l
    omega
  . -- the low eight digits are all that is left of the number in base 16
    have hsplit := (List.take_append_drop (l.length - 7) (c :: l)).symm
    have hlow : ((c :: l).drop (l.length - 7)).length = 8 := by
      rw [List.length_drop, List.length_cons]
      omega
    obtain ⟨m, hm⟩ : ∃ m, l.length - 7 = m + 1 := ⟨l.length - 8, by omega⟩
    have hhigh : numVal 10 ((c :: l).take (l.length - 7)) ≠ 0 := by
      rw [hm, List.take_succ_cons]
      have := @pow_le_numVal c (l.take m) hc h0
      have := Nat.pow_pos (n := (l.take m).length) (show 0 < 10 by decide)
      omega
    have hten := numVal_append 10 ((c :: l).take (l.length - 7)) ((c :: l).drop (l.length - 7))
    have hhex := numVal_append 16 ((c :: l).take (l.length - 7)) ((c :: l).drop (l.length - 7))
    rw [← hsplit, hlow] at hten hhex
    have hdigits : ∀ d ∈ (c :: l).drop (l.length - 7), isDigitOf 10 d :=
      fun d hd => hall d (List.mem_of_mem_drop hd)
    have hlt := numVal_hex_lt hdigits
    rw [hlow] at hlt
    have hne := hex_tail_ne hdigits hlow hhigh (by omega)
    omega

end HexDecimal

section ScanLong

variable {text : CStr} {s r t : Bytes} {n : Int}

def withSign (neg : Bool) (m : Nat) : Int :=
  if neg then -(m : Int) else m

theorem dropWhile_of_first {p : Byte → Bool} (h : ¬p (s.getD 0 0)) : s.dropWhile p = s ∧ s.takeWhile p = [] := by
  cases s with
  | nil => exact ⟨rfl, rfl⟩
  | cons b s =>
    have h : ¬p b := h
    rw [List.dropWhile_cons, List.takeWhile_cons, if_neg h, if_neg h]
    exact ⟨rfl, rfl⟩

theorem numeral_parts (h : ¬isSpaceChar (s.getD 0 0))
    : numNeg s = (signAt s).1 ∧ numRest s = intRest s
      ∧ numStart 0 s = (signAt s).2 + (baseAt 0 (intRest s)).2 := by
  obtain ⟨hdrop, htake⟩ := dropWhile_of_first h
  have hrest : numRest s = intRest s := by
    unfold numRest intRest
    rw [hdrop]
  refine ⟨?_, hrest, ?_⟩
  . unfold numNeg
    rw [hdrop]
  . unfold numStart
    rw [hdrop, htake, hrest, List.length_nil, Nat.zero_add]

theorem toInt_long (neg : Bool) (m : Nat)
    : ((if neg then 0 - UInt64.ofNat m else UInt64.ofNat m).toUInt32.toInt32).toInt
      = (withSign neg m).bmod (2 ^ 32) := by
  have hm := UInt64.toNat_ofNat (n := m)
  generalize hv : UInt64.ofNat m = v
  rw [show (OfNat.ofNat m : UInt64) = v from hv] at hm
  rw [UInt32.toInt32_toInt, UInt64.toNat_toUInt32, Int.bmod_def]
  unfold withSign
  cases neg with
  | false =>
    simp only [Bool.false_eq_true, if_false]
    split <;> split <;> omega
  | true =>
    simp only [if_true]
    rw [UInt64.toNat_zero_sub]
    split <;> split <;> omega

theorem bmod_eq_iff (hn : -2 ^ 31 ≤ n ∧ n < 2 ^ 31) (v : Int)
    : v.bmod (2 ^ 32) = n ↔ v % 2 ^ 32 = n % 2 ^ 32 := by
  rw [Int.bmod_def]
  split <;> omega

theorem withSign_emod (neg : Bool) (m m' : Nat)
    : withSign neg m % 2 ^ 32 = withSign neg m' % 2 ^ 32 ↔ m % 2 ^ 32 = m' % 2 ^ 32 := by
  unfold withSign
  cases neg with
  | false => simp only [Bool.false_eq_true, if_false]; omega
  | true => simp only [if_true]; omega

theorem clamped_of_fits {neg : Bool} {m : Nat}
    (h : -2 ^ 31 ≤ withSign neg m ∧ withSign neg m < 2 ^ 31)
    : clamped (-2 ^ 31) (2 ^ 31 - 1) neg m = withSign neg m := by
  unfold clamped withSign at *
  cases neg with
  | false =>
    simp only [Bool.false_eq_true, if_false] at *
    omega
  | true =>
    simp only [if_true] at *
    omega

theorem vsscanf_li (h : ¬isSpaceChar (text.val.getD 0 0)) (hne : text.val ≠ [])
    : (vsscanf text liFormat).stored
      = if intRun 105 1024 (intRest text.val) = [] then [] else
          [.long (intVal 105 1024 text.val).toUInt32.toInt32, .count (.ofInt (intLen 105 1024 text.val))] := by
  have hspace : ¬isScanSpace (text.val.getD 0 0) := fun hs => h (isSpaceChar_of_isScanSpace _ hs)
  obtain ⟨hdrop, htake⟩ := dropWhile_of_first hspace
  obtain ⟨c', -, hfail, hgot⟩ := (ScanCtx.before_at text.val none 0).scanInt 105 hdrop
    (show widthLimit 1024 0 = 1024 from rfl)
  have hfirst : nextItem liFormat.val = some (.conv { lmod := .l, conv := 105 }, [37, 110]) := by
    decide
  have hcount : nextItem [37, 110] = some (.conv { conv := 110 }, []) := by
    decide
  have hli (c : ScanCtx) : scanItem (.conv { lmod := .l, conv := 105 }) c
      = scanTaken false (scanInt 105 0 c) (·.text) (scanStore .l ·.val) := rfl
  have hn (c : ScanCtx) : scanItem (.conv { conv := 110 }) c
      = (.got ⟨[], some (.count (.ofInt c.consumed))⟩, c) := rfl
  show (vscanCore.go 5 liFormat.val (.before text.val none 0) []).stored = _
  unfold vscanCore.go
  rw [hfirst]
  dsimp only
  rw [hli]
  by_cases hrun : intRun 105 1024 (intRest text.val) = []
  . rw [hfail hne hrun, if_pos hrun]
    rfl
  . obtain ⟨hgot, hat⟩ := hgot hne hrun
    rw [hgot, if_neg hrun]
    dsimp only [scanTaken]
    unfold vscanCore.go
    rw [hcount]
    dsimp only
    rw [hn, hat.consumed, htake]
    dsimp only
    unfold vscanCore.go
    simp [nextItem, ScanRun.stored, scanStore]

theorem intRun_length_le (conv : Byte) (lim : Nat) (r : Bytes) : (intRun conv lim r).length ≤ lim :=
  List.length_take_le _ _

theorem readsAsStrtol_iff (h : LongestNumeral 0 text.val t n) (hstart : ¬isSpaceChar (text.val.getD 0 0))
    (hfit : -2 ^ 31 ≤ n ∧ n < 2 ^ 31) (hr : intRest text.val = r)
    : ReadsAsStrtol text
      ↔ intRun 105 1024 r ≠ []
        ∧ numVal (scanBaseAt 105 r).1 (intRun 105 1024 r) % 2 ^ 32
          = numVal (baseAt 0 r).1.toNat (numRun 0 text.val) % 2 ^ 32
        ∧ (scanBaseAt 105 r).2 + (intRun 105 1024 r).length
          = (baseAt 0 r).2 + (numRun 0 text.val).length := by
  obtain ⟨hneg, hrest, hnum⟩ := numeral_parts hstart
  obtain ⟨hrun, -, hn⟩ := (longestNumeral_iff (.inl rfl)).1 h
  have hne : text.val ≠ [] := by
    intro hnil
    apply hrun
    rw [hnil]
    rfl
  obtain ⟨hval, hend⟩ := @strtol_eq 0 text (.inl rfl)
  rw [hrest, hr] at hval
  have hn : n = withSign (signAt text.val).1 (numVal (baseAt 0 r).1.toNat (numRun 0 text.val)) := by
    rw [hn]
    unfold numInt
    rw [hneg, hrest, hr]
    rfl
  rw [hneg, clamped_of_fits (by rw [← hn]; exact hfit), ← hn] at hval
  rw [if_neg hrun, hnum, hr] at hend
  unfold ReadsAsStrtol
  rw [vsscanf_li hstart hne, hend, hr]
  have hlen : intLen 105 1024 text.val
      = (signAt text.val).2 + ((scanBaseAt 105 r).2 + (intRun 105 1024 r).length) := by
    unfold intLen
    rw [hr]
  have hsmall : intLen 105 1024 text.val < 2 ^ 31 := by
    have hrunle := intRun_length_le 105 1024 r
    have hbase : (scanBaseAt 105 r).2 ≤ 2 := by
      unfold scanBaseAt
      split
      . split <;> simp
      . simp
    have hsign : (signAt text.val).2 ≤ 1 := by
      unfold signAt
      split
      . simp
      . split <;> simp
    omega
  have hcount : (Int32.ofInt (intLen 105 1024 text.val)).toInt = intLen 105 1024 text.val :=
    Int32.toInt_ofInt_of_le (by omega) (by omega)
  have hlong : (intVal 105 1024 text.val).toUInt32.toInt32 = (strtol text 0).1
      ↔ numVal (scanBaseAt 105 r).1 (intRun 105 1024 r) % 2 ^ 32
        = numVal (baseAt 0 r).1.toNat (numRun 0 text.val) % 2 ^ 32 := by
    rw [← Int32.toInt_inj, hval]
    unfold intVal
    rw [hr]
    dsimp only
    rw [toInt_long, bmod_eq_iff hfit]
    nth_rewrite 1 [hn]
    exact withSign_emod _ _ _
  by_cases hnil : intRun 105 1024 r = []
  . simp [hnil]
  . rw [if_neg hnil]
    constructor
    . rintro ⟨k, hk, hkend⟩
      injection hk with hk htail
      injection hk with hk
      injection htail with htail
      injection htail with htail
      rw [← htail, hcount] at hkend
      exact ⟨hnil, hlong.1 hk, by omega⟩
    . rintro ⟨-, hv, hl⟩
      refine ⟨.ofInt (intLen 105 1024 text.val), ?_, ?_⟩
      . rw [hlong.2 hv]
      . rw [hcount]
        omega

theorem take_length_eq_iff {l : Bytes} {m : Nat} : (l.take m).length = l.length ↔ l.length ≤ m := by
  rw [List.length_take]
  omega

theorem scanBaseAt_i (r : Bytes)
    : scanBaseAt 105 r = if r.getD 0 0 = 48 then
        if r.getD 1 0 = 120 ∨ r.getD 1 0 = 88 then (16, 2) else (8, 0)
      else (16, 0) := by
  unfold scanBaseAt
  simp only [true_and]
  rfl

theorem same_base_iff {p : Byte → Bool} {b k : Nat} {l : Bytes} (h : l.takeWhile p ≠ [])
    : ((l.takeWhile p).take 1024 ≠ []
        ∧ numVal b ((l.takeWhile p).take 1024) % 2 ^ 32 = numVal b (l.takeWhile p) % 2 ^ 32
        ∧ k + ((l.takeWhile p).take 1024).length = k + (l.takeWhile p).length)
      ↔ (l.takeWhile p).length ≤ 1024 := by
  constructor
  . rintro ⟨-, -, hlen⟩
    exact take_length_eq_iff.1 (by omega)
  . intro hle
    rw [List.take_of_length_le hle]
    exact ⟨h, rfl, rfl⟩

theorem takeWhile_isDigitOf_le {b b' : Nat} (hb : b ≤ b') (l : Bytes)
    : l.takeWhile (isDigitOf b) <+: l.takeWhile (isDigitOf b') := by
  induction l with
  | nil => exact List.prefix_rfl
  | cons c l ih =>
    rw [List.takeWhile_cons]
    split
    . next hc =>
      rw [List.takeWhile_cons, if_pos (isDigitOf_le hb hc)]
      exact List.cons_prefix_cons.2 ⟨rfl, ih⟩
    . exact List.nil_prefix

theorem takeWhile_drop_two {r : Bytes} (hhex : ¬isHexChar (r.getD 2 0))
    : (r.drop 2).takeWhile (isDigitOf 16) = [] := by
  rw [isHexChar_eq] at hhex
  match r with
  | [] | [_] | [_, _] => rfl
  | _ :: _ :: c :: l =>
    have hhex : ¬isDigitOf 16 c := hhex
    rw [List.drop_succ_cons, List.drop_succ_cons, List.drop_zero, List.takeWhile_cons, if_neg hhex]

theorem decimal_iff {c : Byte} {l : Bytes} (hc : isDigitOf 10 c) (h0 : c ≠ 48)
    (hfit : numVal 10 ((c :: l).takeWhile (isDigitOf 10)) ≤ 2 ^ 31)
    : (((c :: l).takeWhile (isDigitOf 16)).take 1024 ≠ []
        ∧ numVal 16 (((c :: l).takeWhile (isDigitOf 16)).take 1024) % 2 ^ 32
          = numVal 10 ((c :: l).takeWhile (isDigitOf 10)) % 2 ^ 32
        ∧ 0 + (((c :: l).takeWhile (isDigitOf 16)).take 1024).length
          = 0 + ((c :: l).takeWhile (isDigitOf 10)).length)
      ↔ ¬isHexChar (l.getD 0 0) := by
  have hpre := takeWhile_isDigitOf_le (show 10 ≤ 16 by decide) l
  have h10 : (c :: l).takeWhile (isDigitOf 10) = c :: l.takeWhile (isDigitOf 10) := by
    rw [List.takeWhile_cons, if_pos hc]
  have h16 : (c :: l).takeWhile (isDigitOf 16) = c :: l.takeWhile (isDigitOf 16) := by
    rw [List.takeWhile_cons, if_pos (isDigitOf_le (by decide) hc)]
  rw [h10] at hfit
  rw [h10, h16, isHexChar_eq]
  constructor
  . rintro ⟨-, hval, hlen⟩ hnext
    -- a second digit, so the two numbers are not the same
    have hlong : (l.takeWhile (isDigitOf 10)).length < 10 := by
      have hpow := (@pow_le_numVal c (l.takeWhile (isDigitOf 10)) hc h0).trans hfit
      by_contra hlt
      have := Nat.pow_le_pow_right (show 0 < 10 by decide)
        (show 10 ≤ (l.takeWhile (isDigitOf 10)).length by omega)
      omega
    rw [List.length_take, List.length_cons, List.length_cons] at hlen
    have heq := hpre.eq_of_length (by omega)
    rw [← heq, List.take_of_length_le (by rw [List.length_cons]; omega)] at hval
    have hne : l.takeWhile (isDigitOf 10) ≠ [] := by
      rw [heq]
      cases l with
      | nil => exact absurd hnext (by decide)
      | cons d l =>
        have hnext : isDigitOf 16 d := hnext
        rw [List.takeWhile_cons, if_pos hnext]
        exact List.cons_ne_nil _ _
    exact hex_ne_decimal hc h0 (fun _ hd => List.mem_takeWhile_imp hd) hne hfit hval
  . intro hnext
    have hnil : l.takeWhile (isDigitOf 16) = [] := by
      cases l with
      | nil => rfl
      | cons d l =>
        have hnext : ¬isDigitOf 16 d := hnext
        rw [List.takeWhile_cons, if_neg hnext]
    have hnil' : l.takeWhile (isDigitOf 10) = [] := by
      rw [hnil] at hpre
      exact List.prefix_nil.1 hpre
    rw [hnil, hnil']
    refine ⟨List.cons_ne_nil _ _, ?_, rfl⟩
    have hone (b : Nat) : numVal b [c] = digitOf c := by
      simp [numVal, digitOf]
    rw [List.take_of_length_le (by simp), hone, hone]

theorem plainNumeral_iff {run : Bytes} (hrun : run ≠ [])
    (hdef : run = (r.drop (baseAt 0 r).2).takeWhile (isDigitOf (baseAt 0 r).1.toNat))
    (hfit : numVal (baseAt 0 r).1.toNat run ≤ 2 ^ 31)
    : (intRun 105 1024 r ≠ []
        ∧ numVal (scanBaseAt 105 r).1 (intRun 105 1024 r) % 2 ^ 32
          = numVal (baseAt 0 r).1.toNat run % 2 ^ 32
        ∧ (scanBaseAt 105 r).2 + (intRun 105 1024 r).length = (baseAt 0 r).2 + run.length)
      ↔ PlainNumeral r := by
  subst hdef
  unfold intRun whileRun PlainNumeral
  rw [scanBaseAt_i]
  by_cases h0 : r.getD 0 0 = 48
  . rw [if_pos h0, if_pos h0]
    by_cases hx : r.getD 1 0 = 120 ∨ r.getD 1 0 = 88
    . rw [if_pos hx, if_pos hx]
      by_cases hhex : isHexChar (r.getD 2 0)
      . rw [baseAt_hex ⟨.inl rfl, h0, hx, hhex⟩] at hrun ⊢
        simp only [hhex, true_and]
        exact same_base_iff hrun
      . rw [takeWhile_drop_two hhex, List.take_nil]
        exact ⟨fun h => absurd rfl h.1, fun h => absurd h.1 hhex⟩
    . rw [if_neg hx, if_neg hx]
      have hbase : baseAt 0 r = (8, 0) := by
        rw [baseAt_zero (fun h => hx h.2.2.1), if_pos h0]
      rw [hbase] at hrun ⊢
      exact same_base_iff hrun
  . rw [if_neg h0, if_neg h0]
    have hbase : baseAt 0 r = (10, 0) := by
      rw [baseAt_zero (fun h => h0 h.2.1), if_neg h0]
    rw [hbase] at hrun hfit ⊢
    replace hrun : r.takeWhile (isDigitOf 10) ≠ [] := hrun
    replace hfit : numVal 10 (r.takeWhile (isDigitOf 10)) ≤ 2 ^ 31 := hfit
    show ((r.takeWhile (isDigitOf 16)).take 1024 ≠ []
        ∧ numVal 16 ((r.takeWhile (isDigitOf 16)).take 1024) % 2 ^ 32
          = numVal 10 (r.takeWhile (isDigitOf 10)) % 2 ^ 32
        ∧ 0 + ((r.takeWhile (isDigitOf 16)).take 1024).length
          = 0 + (r.takeWhile (isDigitOf 10)).length) ↔ _
    obtain ⟨c, l, rfl⟩ : ∃ c l, r = c :: l := by
      cases r with
      | nil => exact absurd rfl hrun
      | cons c l => exact ⟨c, l, rfl⟩
    have h0 : c ≠ 48 := h0
    have hc : isDigitOf 10 c := by
      by_contra hc
      exact hrun (by rw [List.takeWhile_cons, if_neg hc])
    exact decimal_iff hc h0 hfit

/--
On a text that starts with a numeral of a long, `%li` and `strtol` agree exactly on the plain ones.
-/
theorem sscanf_li_eq_strtol_iff (text : CStr) (t : Bytes) (n : Int)
    (h : LongestNumeral 0 text.val t n) (hstart : ¬isSpaceChar (text.val.getD 0 0))
    (hfit : -2 ^ 31 ≤ n ∧ n < 2 ^ 31)
    : ReadsAsStrtol text ↔ PlainNumeral (intRest text.val) := by
  obtain ⟨hneg, hrest, -⟩ := numeral_parts hstart
  obtain ⟨hrun, -, hn⟩ := (longestNumeral_iff (.inl rfl)).1 h
  rw [readsAsStrtol_iff h hstart hfit rfl]
  apply plainNumeral_iff hrun
  . unfold numRun
    rw [hrest]
  . rw [← hrest]
    unfold numInt at hn
    split at hn <;> omega

/--
`-0x1F;`
-/
def hexText : CStr :=
  ⟨[45, 48, 120, 49, 70, 59], by decide⟩

theorem sscanf_li_eq_strtol_hex
    : ReadsAsStrtol hexText ↔ PlainNumeral (intRest hexText.val) :=
  sscanf_li_eq_strtol_iff hexText [45, 48, 120, 49, 70] (-31)
    ((longestNumeral_iff (.inl rfl)).2 ⟨by decide +kernel, by decide +kernel, by decide +kernel⟩)
    (by decide) (by decide)

/--
`10`
-/
def tenText : CStr :=
  ⟨[49, 48], by decide⟩

/--
`%li` reads it as 16.
-/
theorem sscanf_li_ten_ne
    : LongestNumeral 0 tenText.val [49, 48] 10 ∧ ¬isSpaceChar (tenText.val.getD 0 0)
      ∧ ¬ReadsAsStrtol tenText := by
  refine ⟨(longestNumeral_iff (.inl rfl)).2
    ⟨by decide +kernel, by decide +kernel, by decide +kernel⟩, by decide, ?_⟩
  rintro ⟨k, hk, -⟩
  have hscan : (vsscanf tenText liFormat).stored = [.long 16, .count 2] := by
    decide +kernel
  have hstrtol : (strtol tenText 0).1 = 10 := by
    decide +kernel
  rw [hscan, hstrtol] at hk
  injection hk with hk
  exact absurd hk (by decide)

end ScanLong

end TanjaOS
