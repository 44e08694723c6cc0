import TanjaOS.Libc.ScanText
import TanjaOS.Libc.Strtol
import TanjaOS.Libc.Vsnprintf

/-!
What `sscanf` reads of an integer that `snprintf` has printed.
-/

open Lib

namespace TanjaOS

/--
A width or a precision in a format: digits, or a `*` with its argument.
-/
inductive FmtSize where
  | digits (ds : Bytes)
  | star (w : Int32)

def FmtSize.text : FmtSize → Bytes
  | .digits ds => ds
  | .star _ => [42]

def FmtSize.args : FmtSize → List Arg
  | .digits _ => []
  | .star w => [.word w.toUInt32]

/--
At most 1000. A negative width is one with the flag `-`, a negative precision is none.
-/
def FmtSize.Small : FmtSize → Prop
  | .digits ds => (∀ c ∈ ds, isDigitOf 10 c) ∧ numVal 10 ds ≤ 1000
  | .star w => -1000 ≤ w.toInt ∧ w.toInt ≤ 1000

/--
An integer with the length modifier of its conversion, as the bits of an `int`, a `long` or a
`long long`, signed or not.
-/
inductive IntArg where
  | int (w : UInt32)
  | long (w : UInt32)
  | llong (w : UInt64)

def IntArg.lmod : IntArg → Lmod
  | .int _ => .none
  | .long _ => .l
  | .llong _ => .ll

def IntArg.text : IntArg → Bytes
  | .int _ => []
  | .long _ => [108]
  | .llong _ => [108, 108]

def IntArg.arg : IntArg → Arg
  | .int w => .word w
  | .long w => .word w
  | .llong w => .wide w

def IntArg.stored : IntArg → ScanVal
  | .int w => .int w.toInt32
  | .long w => .long w.toInt32
  | .llong w => .llong w.toInt64

/--
A conversion of an integer with flags, a width and a precision. Zeros in front of the width are flags.
-/
structure IntFormat where
  flags : Bytes
  width : FmtSize
  precision : Option FmtSize
  value : IntArg
  conv : Byte
  flags_mem : ∀ c ∈ flags, c ∈ ([45, 43, 48, 32] : Bytes)
  width_first : width.text.head? ≠ some 48
  width_small : width.Small
  precision_small : ∀ p ∈ precision, p.Small
  conv_mem : conv ∈ ([100, 117, 120, 88, 111] : Bytes)

def precisionText : Option FmtSize → Bytes
  | none => []
  | some p => 46 :: p.text

def IntFormat.text (f : IntFormat) : Bytes :=
  37 :: (f.flags ++ (f.width.text ++ (precisionText f.precision ++ (f.value.text ++ [f.conv]))))

def IntFormat.args (f : IntFormat) : List Arg :=
  f.width.args ++ ((f.precision.elim [] FmtSize.args) ++ [f.value.arg])

def IntFormat.bare (f : IntFormat) : Bytes :=
  37 :: (f.value.text ++ [f.conv])

section Digits

variable {base : Nat}

theorem digitVal_digitChar (upper : Bool) : ∀ d < 16, digitVal (digitChar upper d) = some d := by
  cases upper <;> decide

theorem ulltoaRev_go (hbase : 2 ≤ base ∧ base ≤ 16) (upper : Bool) (fuel v : Nat) (h : v < base ^ fuel)
    : numVal base (ulltoaRev.go base upper fuel v).reverse = v
      ∧ (∀ c ∈ ulltoaRev.go base upper fuel v, isDigitOf base c)
      ∧ (ulltoaRev.go base upper fuel v).length ≤ fuel := by
  induction fuel generalizing v with
  | zero =>
    obtain rfl : v = 0 := by
      rw [Nat.pow_zero] at h
      omega
    exact ⟨rfl, nofun, Nat.le_refl _⟩
  | succ fuel ih =>
    unfold ulltoaRev.go
    by_cases h0 : v = 0
    . subst h0
      exact ⟨rfl, nofun, Nat.zero_le _⟩
    . rw [if_neg h0]
      have hlt : v / base < base ^ fuel := by
        apply Nat.div_lt_of_lt_mul
        rwa [Nat.pow_succ, Nat.mul_comm] at h
      obtain ⟨hval, hdigits, hlen⟩ := ih (v / base) hlt
      have hmod : v % base < base := Nat.mod_lt _ (by omega)
      have hd := digitVal_digitChar upper (v % base) (by omega)
      refine ⟨?_, ?_, ?_⟩
      . rw [List.reverse_cons, numVal_append, hval]
        have hone : numVal base [digitChar upper (v % base)] = v % base := by
          simp [numVal, hd]
        rw [hone, List.length_singleton, Nat.pow_one, Nat.mul_comm]
        exact Nat.div_add_mod _ _
      . intro c hc
        rcases List.mem_cons.1 hc with rfl | hc
        . unfold isDigitOf
          rw [hd]
          exact decide_eq_true hmod
        . exact hdigits c hc
      . rw [List.length_cons]
        omega

def printedDigits (v : UInt64) (base : Nat) (upper : Bool) : Bytes :=
  (ulltoaRev v base upper).reverse

theorem printedDigits_spec (hbase : 2 ≤ base ∧ base ≤ 16) (v : UInt64) (upper : Bool)
    : numVal base (printedDigits v base upper) = v.toNat
      ∧ (∀ c ∈ printedDigits v base upper, isDigitOf base c)
      ∧ printedDigits v base upper ≠ [] ∧ (printedDigits v base upper).length ≤ 64 := by
  have hlt : v.toNat < base ^ 64 :=
    v.toNat_lt.trans_le (Nat.pow_le_pow_left hbase.1 64)
  obtain ⟨hval, hdigits, hlen⟩ := ulltoaRev_go hbase upper 64 v.toNat hlt
  unfold printedDigits ulltoaRev
  by_cases h0 : v = 0
  . subst h0
    rw [if_pos rfl]
    refine ⟨by simp [numVal, digitVal], ?_, by simp, by simp⟩
    intro c hc
    obtain rfl : c = 48 := by simpa using hc
    unfold isDigitOf
    exact decide_eq_true (show 0 < base by omega)
  . rw [if_neg h0]
    refine ⟨hval, ?_, ?_, by simpa using hlen⟩
    . intro c hc
      exact hdigits c (List.mem_reverse.1 hc)
    . intro hnil
      rw [hnil] at hval
      apply h0
      apply UInt64.toNat_inj.1
      exact hval.symm

theorem numVal_zeros (n : Nat) (ds : Bytes)
    : numVal base (List.replicate n 48 ++ ds) = numVal base ds := by
  have hzero : numVal base (List.replicate n 48) = 0 := by
    induction n with
    | zero => rfl
    | succ n ih =>
      rw [List.replicate_succ', numVal_append, ih]
      simp [numVal, digitVal]
  rw [numVal_append, hzero]
  omega

end Digits

section Print

variable {σ : Type} (emit : σ → Byte → σ) (s : FmtSink σ)

theorem fmtPuts_ctx (str : Bytes) : (fmtPuts emit s str).ctx = str.foldl emit s.ctx := by
  unfold fmtPuts
  induction str generalizing s with
  | nil => rfl
  | cons c str ih => exact ih (fmtPutc emit s c)

theorem padIf_ctx (c : Bool) (width len : Int) (zero : Bool)
    : (if c then padOut emit s width len zero else s).ctx
      = (if c then List.replicate (width - len).toNat (if zero then 48 else 32) else []).foldl emit s.ctx := by
  cases c with
  | false => rfl
  | true => exact fmtPuts_ctx emit s _

def printedSign (negative : Bool) (sp : FmtSpec) : Bytes :=
  if negative then [45] else if sp.plus then [43] else if sp.space then [32] else []

theorem replicate_ite {α : Type} (c : Bool) (n : Nat) (x : α)
    : (if c then List.replicate n x else []) = List.replicate (if c then n else 0) x := by
  cases c <;> rfl

theorem fmtInteger_ctx (v : UInt64) (negative : Bool) {base : Nat} (hbase : 2 ≤ base ∧ base ≤ 16)
    (upper : Bool) {sp : FmtSpec} (hhash : sp.hash = false) (hwidth : sp.width.toInt ≤ 1000)
    (hprec : sp.precision.toInt ≤ 1000)
    : ∃ a b c, b + (printedDigits v base upper).length ≤ 1024
      ∧ (fmtInteger emit s v negative base upper sp).ctx
        = (List.replicate a 32 ++ (printedSign negative sp ++ (List.replicate b 48
          ++ (printedDigits v base upper ++ List.replicate c 32)))).foldl emit s.ctx := by
  have hlen := (printedDigits_spec hbase v upper).2.2.2
  have hnd : (ulltoaRev v base upper).length = (printedDigits v base upper).length :=
    List.length_reverse.symm
  unfold fmtInteger
  simp only [hhash, Bool.false_eq_true, false_and, and_false, if_false]
  rw [padIf_ctx, fmtPuts_ctx, fmtPuts_ctx, padIf_ctx, fmtPuts_ctx, fmtPuts_ctx, padIf_ctx, hnd]
  generalize (printedDigits v base upper).length = nd at hlen ⊢
  generalize hzeros : (if sp.precision.toInt > nd then sp.precision.toInt - nd else 0) = zeros
  generalize hpad : (sp.width.toInt - (nd + zeros + ([] : Bytes).length
    + (if negative = true then [45] else if sp.plus = true then [43]
      else if sp.space = true then [32] else [] : Bytes).length)).toNat = pad
  -- there is no padding where the width is small, and no zeros where the precision is
  have hpad : pad = 0 ∨ pad + (nd + zeros) ≤ 1000 := by omega
  have hzeros : zeros = 0 ∨ zeros + nd ≤ 1000 := by
    split at hzeros <;> omega
  refine ⟨if !sp.minus && !(sp.zero && sp.precision < 0) then pad else 0,
    (if sp.zero && sp.precision < 0 && !sp.minus then pad else 0) + zeros.toNat,
    if sp.minus then pad else 0, ?_, ?_⟩
  . split <;> omega
  . rw [replicate_ite, replicate_ite, replicate_ite, List.replicate_add]
    simp only [List.foldl_append, List.foldl_nil]
    rfl

end Print

section Conv

variable {σ : Type} (emit : σ → Byte → σ) (s : FmtSink σ) (fmtDouble : FmtDouble)

theorem UInt64.toNat_ofInt (x : Int) : (UInt64.ofInt x).toNat = (x % 2 ^ 64).toNat := by
  unfold UInt64.ofInt
  rw [UInt64.toNat_ofNat_of_lt']
  show _ < 18446744073709551616
  omega

theorem long_ofInt (w : Int32) : (UInt64.ofInt w.toInt).toUInt32.toInt32 = w := by
  apply Int32.toInt_inj.1
  have hlo := w.le_toInt
  have hhi := w.toInt_lt
  rw [UInt32.toInt32_toInt, UInt64.toNat_toUInt32, UInt64.toNat_ofInt]
  split <;> omega

theorem llong_ofInt (w : Int64) : (UInt64.ofInt w.toInt).toInt64 = w := by
  apply Int64.toInt_inj.1
  have hlo := w.le_toInt
  have hhi := w.toInt_lt
  rw [UInt64.toInt64_toInt, UInt64.toNat_ofInt]
  split <;> omega

theorem vaSigned_arg (v : IntArg) (ap : List Arg)
    : ∃ x, vaSigned v.lmod (v.arg :: ap) = .ok (x, ap) ∧ scanStore v.lmod (.ofInt x) = v.stored := by
  cases v with
  | int w => exact ⟨w.toInt32.toInt, rfl, congrArg ScanVal.int (long_ofInt _)⟩
  | long w => exact ⟨w.toInt32.toInt, rfl, congrArg ScanVal.long (long_ofInt _)⟩
  | llong w => exact ⟨w.toInt64.toInt, rfl, congrArg ScanVal.llong (llong_ofInt _)⟩

theorem vaUnsigned_arg (v : IntArg) (ap : List Arg)
    : ∃ u, vaUnsigned v.lmod (v.arg :: ap) = .ok (u, ap) ∧ scanStore v.lmod u = v.stored := by
  cases v with
  | int w => exact ⟨w.toUInt64, rfl, by simp [scanStore, IntArg.lmod, IntArg.stored]⟩
  | long w => exact ⟨w.toUInt64, rfl, by simp [scanStore, IntArg.lmod, IntArg.stored]⟩
  | llong w => exact ⟨w, rfl, rfl⟩

theorem fmtConv_integer (v : IntArg) {conv : Byte} (hconv : conv ∈ ([100, 117, 120, 88, 111] : Bytes))
    {sp : FmtSpec} (hlmod : sp.lmod = v.lmod) (ap : List Arg) (stored : List Int32)
    : ∃ (uv : UInt64) (neg upper : Bool),
      fmtConv emit fmtDouble s sp conv (v.arg :: ap) stored
        = .ok (fmtInteger emit s uv neg (scanBase conv) upper sp, ap, stored)
      ∧ scanStore v.lmod (if neg then 0 - uv else uv) = v.stored := by
  obtain ⟨x, hsigned, hx⟩ := vaSigned_arg v ap
  obtain ⟨u, hunsigned, hu⟩ := vaUnsigned_arg v ap
  rw [← hlmod] at hsigned hunsigned
  simp only [List.mem_cons, List.not_mem_nil, or_false] at hconv
  rcases hconv with rfl | rfl | rfl | rfl | rfl
  . refine ⟨if x < 0 then 0 - .ofInt x else .ofInt x, x < 0, false, ?_, ?_⟩
    . unfold fmtConv
      rw [hsigned]
      rfl
    . rw [← hx]
      congr 1
      by_cases hneg : x < 0
      . simp [hneg]
      . simp [hneg]
  . refine ⟨u, false, false, ?_, hu⟩
    unfold fmtConv
    rw [hunsigned]
    rfl
  . refine ⟨u, false, false, ?_, hu⟩
    unfold fmtConv
    rw [hunsigned]
    rfl
  . refine ⟨u, false, true, ?_, hu⟩
    unfold fmtConv
    rw [hunsigned]
    rfl
  . refine ⟨u, false, false, ?_, hu⟩
    unfold fmtConv
    rw [hunsigned]
    rfl

end Conv

section Spec

structure SmallSpec (sp : FmtSpec) : Prop where
  hash : sp.hash = false
  width : sp.width.toInt ≤ 1000
  precision : sp.precision.toInt ≤ 1000

theorem fmtFlags_append {flags : Bytes} (hflags : ∀ c ∈ flags, c ∈ ([45, 43, 48, 32] : Bytes))
    {c : Byte} (hc : c ∉ ([45, 43, 48, 35, 32] : Bytes)) (l : Bytes) {sp : FmtSpec} (hsp : SmallSpec sp)
    : ∃ sp', fmtFlags (flags ++ c :: l) sp = .ok (sp', c :: l) ∧ SmallSpec sp' := by
  induction flags generalizing sp with
  | nil =>
    refine ⟨sp, ?_, hsp⟩
    simp only [List.mem_cons, List.not_mem_nil, or_false, not_or] at hc
    rw [List.nil_append, fmtFlags, if_neg hc.1, if_neg hc.2.1, if_neg hc.2.2.1, if_neg hc.2.2.2.1,
      if_neg hc.2.2.2.2]
  | cons f flags ih =>
    have hrest : ∀ c ∈ flags, c ∈ ([45, 43, 48, 32] : Bytes) := fun c hc => hflags c (by simp [hc])
    have hf := hflags f (by simp)
    simp only [List.mem_cons, List.not_mem_nil, or_false] at hf
    rcases hf with rfl | rfl | rfl | rfl
    . exact ih hrest (show SmallSpec { sp with minus := true } from ⟨hsp.hash, hsp.width, hsp.precision⟩)
    . exact ih hrest (show SmallSpec { sp with plus := true } from ⟨hsp.hash, hsp.width, hsp.precision⟩)
    . exact ih hrest (show SmallSpec { sp with zero := true } from ⟨hsp.hash, hsp.width, hsp.precision⟩)
    . exact ih hrest (show SmallSpec { sp with space := true } from ⟨hsp.hash, hsp.width, hsp.precision⟩)

theorem fmtDigits_append {ds : Bytes} (hds : ∀ c ∈ ds, isDigitOf 10 c) {c : Byte}
    (hc : ¬(48 ≤ c ∧ c ≤ 57)) (l : Bytes) (v : Nat)
    : fmtDigits (ds ++ c :: l) (.ofNat v)
      = .ok (.ofNat (ds.foldl (fun v d => v * 10 + (digitVal d).getD 0) v), c :: l) := by
  have hdigit : ∀ d, isDigitOf 10 d → (48 ≤ d ∧ d ≤ 57) ∧ digitVal d = some (d.toNat - 48) := by
    decide +kernel
  induction ds generalizing v with
  | nil => rw [List.nil_append, fmtDigits, if_neg hc, List.foldl_nil]
  | cons d ds ih =>
    obtain ⟨hd, hval⟩ := hdigit d (hds d (by simp))
    rw [List.cons_append, fmtDigits, if_pos hd, List.foldl_cons, ← ih fun c hc => hds c (by simp [hc])]
    rw [hval]
    simp [Int32.ofNat_add, Int32.ofNat_mul]

theorem toInt_ofNat_le {n : Nat} (h : n ≤ 1000) : (Int32.ofNat n).toInt ≤ 1000 := by
  rw [Int32.toInt_ofNat_of_lt (by omega)]
  omega

theorem ne_star_of_digits {ds : Bytes} (hds : ∀ c ∈ ds, isDigitOf 10 c) {c : Byte} (hc : c ≠ 42)
    (l : Bytes)
    : ∃ x y, ds ++ c :: l = x :: y ∧ x ≠ 42 := by
  cases ds with
  | nil => exact ⟨c, l, rfl, hc⟩
  | cons d ds =>
    refine ⟨d, ds ++ c :: l, rfl, ?_⟩
    rintro rfl
    exact absurd (hds 42 (by simp)) (by decide)

theorem fmtWidth_digits {x : Byte} (hx : x ≠ 42) (y : Bytes) (ap : List Arg) (sp : FmtSpec)
    : fmtWidth (x :: y) ap sp
      = (fmtDigits (x :: y) 0 >>= fun r => .ok ({ sp with width := r.1 }, r.2, ap)) := by
  unfold fmtWidth
  show (if x = 42 then _ else _) = _
  rw [if_neg hx]
  rfl

theorem fmtPrecision_digits {x : Byte} (hx : x ≠ 42) (y : Bytes) (ap : List Arg) (sp : FmtSpec)
    : fmtPrecision (46 :: x :: y) ap sp
      = (fmtDigits (x :: y) 0 >>= fun r => .ok ({ sp with precision := r.1 }, r.2, ap)) := by
  unfold fmtPrecision
  show (if x = 42 then _ else _) = _
  rw [if_neg hx]
  rfl

theorem fmtWidth_append {w : FmtSize} (hw : w.Small) {c : Byte} (hc : ¬(48 ≤ c ∧ c ≤ 57)) (hstar : c ≠ 42)
    (l : Bytes) (ap : List Arg) {sp : FmtSpec} (hsp : SmallSpec sp)
    : ∃ sp', fmtWidth (w.text ++ c :: l) (w.args ++ ap) sp = .ok (sp', c :: l, ap) ∧ SmallSpec sp' := by
  cases w with
  | digits ds =>
    obtain ⟨hds, hle⟩ := hw
    obtain ⟨x, y, hxy, hx⟩ := ne_star_of_digits hds hstar l
    refine ⟨{ sp with width := .ofNat (numVal 10 ds) }, ?_, hsp.hash, toInt_ofNat_le hle, hsp.precision⟩
    have hread : fmtDigits (ds ++ c :: l) 0 = _ := fmtDigits_append hds hc l 0
    show fmtWidth (ds ++ c :: l) ap sp = _
    rw [hxy, fmtWidth_digits hx, ← hxy, hread]
    rfl
  | star w =>
    obtain ⟨hlo, hhi⟩ := hw
    have hneg : (-w).toInt = -w.toInt := by
      rw [Int32.toInt_neg, Int.bmod_def]
      omega
    by_cases h0 : w < 0
    . refine ⟨{ sp with minus := true, width := -w }, ?_, hsp.hash, ?_, hsp.precision⟩
      . show (if w.toUInt32.toInt32 < 0 then _ else _) = _
        rw [Int32.toInt32_toUInt32, if_pos h0]
        rfl
      . show (-w).toInt ≤ 1000
        omega
    . refine ⟨{ sp with width := w }, ?_, hsp.hash, hhi, hsp.precision⟩
      show (if w.toUInt32.toInt32 < 0 then _ else _) = _
      rw [Int32.toInt32_toUInt32, if_neg h0]
      rfl

theorem fmtPrecision_append {w : Option FmtSize} (hw : ∀ p ∈ w, p.Small) {c : Byte}
    (hc : ¬(48 ≤ c ∧ c ≤ 57)) (hstar : c ≠ 42) (hdot : c ≠ 46) (l : Bytes) (ap : List Arg) {sp : FmtSpec}
    (hsp : SmallSpec sp)
    : ∃ sp', fmtPrecision (precisionText w ++ c :: l) (w.elim [] FmtSize.args ++ ap) sp
        = .ok (sp', c :: l, ap) ∧ SmallSpec sp' := by
  cases w with
  | none =>
    refine ⟨sp, ?_, hsp⟩
    show (if c = 46 then _ else _) = _
    rw [if_neg hdot]
    rfl
  | some w =>
    have hw := hw w rfl
    cases w with
    | digits ds =>
      obtain ⟨hds, hle⟩ := hw
      obtain ⟨x, y, hxy, hx⟩ := ne_star_of_digits hds hstar l
      refine ⟨{ sp with precision := .ofNat (numVal 10 ds) }, ?_, hsp.hash, hsp.width, toInt_ofNat_le hle⟩
      have hread : fmtDigits (ds ++ c :: l) 0 = _ := fmtDigits_append hds hc l 0
      show fmtPrecision (46 :: (ds ++ c :: l)) ap sp = _
      rw [hxy, fmtPrecision_digits hx, ← hxy, hread]
      rfl
    | star w =>
      obtain ⟨-, hhi⟩ := hw
      refine ⟨{ sp with precision := w }, ?_, hsp.hash, hsp.width, hhi⟩
      show Except.ok ({ sp with precision := w.toUInt32.toInt32 }, _, _) = _
      rw [Int32.toInt32_toUInt32]
      rfl

variable (f : IntFormat)

def IntFormat.tail : Bytes :=
  f.value.text ++ [f.conv, 0]

theorem IntFormat.tail_eq
    : ∃ c l, f.tail = c :: l ∧ c ∈ ([108, 100, 117, 120, 88, 111] : Bytes) := by
  unfold IntFormat.tail
  cases f.value with
  | int w => exact ⟨f.conv, [0], rfl, List.mem_cons_of_mem _ f.conv_mem⟩
  | long w => exact ⟨108, _, rfl, by simp⟩
  | llong w => exact ⟨108, _, rfl, by simp⟩

theorem IntFormat.precision_eq
    : ∃ c l, precisionText f.precision ++ f.tail = c :: l
      ∧ c ∈ ([46, 108, 100, 117, 120, 88, 111] : Bytes) := by
  cases f.precision with
  | none =>
    obtain ⟨c, l, htail, hc⟩ := f.tail_eq
    exact ⟨c, l, htail, List.mem_cons_of_mem _ hc⟩
  | some p => exact ⟨46, _, rfl, by simp⟩

theorem IntFormat.width_eq
    : ∃ c l, f.width.text ++ (precisionText f.precision ++ f.tail) = c :: l
      ∧ c ∉ ([45, 43, 48, 35, 32] : Bytes) ∧ c ≠ 0 ∧ c ≠ 37 := by
  have hfirst := f.width_first
  have hsmall := f.width_small
  obtain ⟨c, l, hrest, hc⟩ := f.precision_eq
  rw [hrest]
  have hother : ∀ c ∈ ([46, 108, 100, 117, 120, 88, 111] : Bytes),
      c ∉ ([45, 43, 48, 35, 32] : Bytes) ∧ c ≠ 0 ∧ c ≠ 37 := by
    simp
  have hdigit : ∀ c, isDigitOf 10 c → c ≠ 48 → c ∉ ([45, 43, 48, 35, 32] : Bytes) ∧ c ≠ 0 ∧ c ≠ 37 := by
    decide +kernel
  cases hw : f.width with
  | star w => exact ⟨42, _, rfl, by decide⟩
  | digits ds =>
    rw [hw] at hfirst hsmall
    cases ds with
    | nil => exact ⟨c, l, rfl, hother c hc⟩
    | cons d ds =>
      refine ⟨d, _, rfl, hdigit d (hsmall.1 d (by simp)) ?_⟩
      rintro rfl
      exact hfirst rfl

theorem IntFormat.flags_eq
    : ∃ c l, f.flags ++ (f.width.text ++ (precisionText f.precision ++ f.tail)) = c :: l
      ∧ c ≠ 0 ∧ c ≠ 37 := by
  have hmem := f.flags_mem
  cases hflags : f.flags with
  | nil =>
    obtain ⟨c, l, hrest, -, hc⟩ := f.width_eq
    exact ⟨c, l, hrest, hc⟩
  | cons d flags =>
    have hd : ∀ d ∈ ([45, 43, 48, 32] : Bytes), d ≠ 0 ∧ d ≠ 37 := by
      simp
    exact ⟨d, _, rfl, hd d (hmem d (by simp [hflags]))⟩

theorem IntFormat.fmtLmod_tail : fmtLmod f.tail = .ok (f.value.lmod, [f.conv, 0]) := by
  have hconv := f.conv_mem
  simp only [List.mem_cons, List.not_mem_nil, or_false] at hconv
  unfold IntFormat.tail
  generalize f.conv = conv at hconv
  cases f.value with
  | int w => rcases hconv with rfl | rfl | rfl | rfl | rfl <;> rfl
  | long w => rcases hconv with rfl | rfl | rfl | rfl | rfl <;> rfl
  | llong w => rcases hconv with rfl | rfl | rfl | rfl | rfl <;> rfl

theorem IntFormat.fmtSpec_eq
    : ∃ sp, fmtSpec (f.flags ++ (f.width.text ++ (precisionText f.precision ++ f.tail))) f.args
        = .ok (sp, [f.conv, 0], [f.value.arg]) ∧ SmallSpec sp ∧ sp.lmod = f.value.lmod := by
  have hplain : ∀ c ∈ ([46, 108, 100, 117, 120, 88, 111] : Bytes), ¬(48 ≤ c ∧ c ≤ 57) ∧ c ≠ 42 := by
    simp
  have htail : ∀ c ∈ ([108, 100, 117, 120, 88, 111] : Bytes), ¬(48 ≤ c ∧ c ≤ 57) ∧ c ≠ 42 ∧ c ≠ 46 := by
    simp
  obtain ⟨c₁, l₁, h₁, hc₁, -⟩ := f.width_eq
  obtain ⟨c₂, l₂, h₂, hc₂⟩ := f.precision_eq
  obtain ⟨c₃, l₃, h₃, hc₃⟩ := f.tail_eq
  have hc₂ := hplain c₂ hc₂
  have hc₃ := htail c₃ hc₃
  obtain ⟨sp₁, hflags, hsp₁⟩ := fmtFlags_append f.flags_mem hc₁ l₁
    (show SmallSpec {} from ⟨rfl, by decide, by decide⟩)
  obtain ⟨sp₂, hwidth, hsp₂⟩ := fmtWidth_append f.width_small hc₂.1 hc₂.2 l₂
    (f.precision.elim [] FmtSize.args ++ [f.value.arg]) hsp₁
  obtain ⟨sp₃, hprec, hsp₃⟩ := fmtPrecision_append f.precision_small hc₃.1 hc₃.2.1 hc₃.2.2 l₃
    [f.value.arg] hsp₂
  rw [← h₁] at hflags
  rw [← h₂] at hwidth
  rw [← h₃] at hprec
  refine ⟨{ sp₃ with lmod := f.value.lmod }, ?_, ⟨hsp₃.hash, hsp₃.width, hsp₃.precision⟩, rfl⟩
  unfold fmtSpec IntFormat.args
  rw [hflags]
  show (fmtWidth _ _ sp₁ >>= _) = _
  rw [hwidth]
  show (fmtPrecision _ _ sp₂ >>= _) = _
  rw [hprec]
  show (fmtLmod f.tail >>= _) = _
  rw [f.fmtLmod_tail]
  rfl

end Spec

section Printed

variable (f : IntFormat)

theorem foldl_consoleEmit (out a : Bytes) : out.foldl consoleEmit a = a ++ out := by
  induction out generalizing a with
  | nil => simp
  | cons c out ih => rw [List.foldl_cons, ih, consoleEmit, List.append_assoc, List.singleton_append]

/--
A printed integer: spaces, a sign that the engine knows, zeros and digits in front of spaces.
-/
structure PrintedInt (base : Nat) (out : Bytes) (val : UInt64) where
  a : Nat
  sign : Bytes
  neg : Bool
  ds : Bytes
  c : Nat
  text : out = List.replicate a 32 ++ (sign ++ (ds ++ List.replicate c 32))
  isSign : IsSign sign neg
  digits : ∀ d ∈ ds, isDigitOf base d
  nonempty : ds ≠ []
  length : ds.length ≤ 1024
  value : val = if neg then 0 - .ofNat (numVal base ds) else .ofNat (numVal base ds)

theorem printedSign_eq (negative : Bool) (sp : FmtSpec)
    : ∃ n sign, printedSign negative sp = List.replicate n 32 ++ sign ∧ IsSign sign negative := by
  unfold printedSign
  cases negative with
  | true => exact ⟨0, [45], rfl, .minus⟩
  | false =>
    simp only [Bool.false_eq_true, if_false]
    split
    . exact ⟨0, [43], rfl, .plus⟩
    . split
      . exact ⟨1, [], rfl, .none⟩
      . exact ⟨0, [], rfl, .none⟩

theorem scanBase_range {conv : Byte} : 2 ≤ scanBase conv ∧ scanBase conv ≤ 16 := by
  unfold scanBase
  repeat' split
  all_goals simp

theorem IntFormat.fmtCore_eq (fmtDouble : FmtDouble)
    : ∃ t val, fmtCore consoleEmit fmtDouble ⟨[], 0⟩ (f.text ++ [0]) f.args = .ok (t, [])
      ∧ Nonempty (PrintedInt (scanBase f.conv) t.ctx val)
      ∧ scanStore f.value.lmod val = f.value.stored := by
  obtain ⟨sp, hspec, hsp, hlmod⟩ := f.fmtSpec_eq
  obtain ⟨uv, neg, upper, hconv, hstore⟩ := fmtConv_integer consoleEmit ⟨[], 0⟩ fmtDouble f.value
    f.conv_mem hlmod [] []
  obtain ⟨a, b, c, hlen, hctx⟩ := fmtInteger_ctx consoleEmit ⟨[], 0⟩ uv neg (@scanBase_range f.conv) upper
    hsp.hash hsp.width hsp.precision
  obtain ⟨x, l, hfirst, h0, h37⟩ := f.flags_eq
  have htext : f.text ++ [0]
      = 37 :: (f.flags ++ (f.width.text ++ (precisionText f.precision ++ f.tail))) := by
    simp [IntFormat.text, IntFormat.tail]
  refine ⟨fmtInteger consoleEmit ⟨[], 0⟩ uv neg (scanBase f.conv) upper sp, _, ?_, ?_, hstore⟩
  . unfold fmtCore
    rw [htext, hfirst]
    show fmtCore.go consoleEmit fmtDouble (l.length + 3) ⟨[], 0⟩ (37 :: x :: l) f.args [] = _
    unfold fmtCore.go
    show (if x = 0 then _ else _) = _
    rw [if_neg h0, if_neg h37]
    show (fmtSpec (x :: l) f.args >>= _) = _
    rw [← hfirst, hspec]
    show (fmtConv consoleEmit fmtDouble ⟨[], 0⟩ sp f.conv [f.value.arg] [] >>= _) = _
    rw [hconv]
    rfl
  . obtain ⟨hval, hdigits, hne, -⟩ := printedDigits_spec (@scanBase_range f.conv) uv upper
    obtain ⟨n, sign, hsign, his⟩ := printedSign_eq neg sp
    refine ⟨{
      a := a + n
      sign := sign
      neg := neg
      ds := List.replicate b 48 ++ printedDigits uv (scanBase f.conv) upper
      c := c
      text := ?_
      isSign := his
      digits := ?_
      nonempty := fun hnil => hne (List.append_eq_nil_iff.1 hnil).2
      length := ?_
      value := ?_
    }⟩
    . rw [hctx, foldl_consoleEmit, hsign, List.replicate_add]
      simp only [List.nil_append, List.append_assoc]
    . intro d hd
      rcases List.mem_append.1 hd with hd | hd
      . obtain rfl := List.eq_of_mem_replicate hd
        have hbase := @scanBase_range f.conv
        unfold isDigitOf
        exact decide_eq_true (show 0 < scanBase f.conv by omega)
      . exact hdigits d hd
    . rw [List.length_append, List.length_replicate]
      exact hlen
    . rw [numVal_zeros, hval, UInt64.ofNat_toNat]

theorem isDigitOf_first {base : Nat} (hbase : base ≤ 16) {d : Byte} (hd : isDigitOf base d)
    : ¬isSpaceChar d ∧ d ≠ 43 ∧ d ≠ 45 ∧ d ≠ 32 := by
  have h : ∀ d, isDigitOf 16 d → ¬isSpaceChar d ∧ d ≠ 43 ∧ d ≠ 45 ∧ d ≠ 32 := by
    decide +kernel
  exact h d (isDigitOf_le hbase hd)

theorem PrintedInt.scan {conv : Byte} (hconv : conv ≠ 105) {out : Bytes} {val : UInt64}
    (p : PrintedInt (scanBase conv) out val)
    : ∃ t, out.dropWhile isScanSpace = t ∧ t ≠ [] ∧ intRun conv 1024 (intRest t) ≠ []
      ∧ intVal conv 1024 t = val := by
  have hbase : scanBase conv ≤ 16 := scanBase_range.2
  obtain ⟨d, l, hds⟩ : ∃ d l, p.ds = d :: l := by
    cases h : p.ds with
    | nil => exact absurd h p.nonempty
    | cons d l => exact ⟨d, l, rfl⟩
  have hd := isDigitOf_first hbase (p.digits d (by simp [hds]))
  obtain ⟨x, y, hxy, hx⟩ := p.isSign.first hd.1 (l ++ List.replicate p.c 32)
  have hx : ¬isScanSpace x := fun h => hx (isSpaceChar_of_isScanSpace x h)
  have htext : p.sign ++ (p.ds ++ List.replicate p.c 32) = x :: y := by
    rw [hds]
    exact hxy
  have hdrop : out.dropWhile isScanSpace = p.sign ++ (p.ds ++ List.replicate p.c 32) := by
    apply (congrArg (List.dropWhile isScanSpace) p.text).trans
    rw [List.dropWhile_append_of_pos, htext, List.dropWhile_cons, if_neg hx]
    intro c hc
    rw [List.eq_of_mem_replicate hc]
    decide
  have hsign : signAt (p.sign ++ (p.ds ++ List.replicate p.c 32)) = (p.neg, p.sign.length) := by
    rw [hds]
    exact signAt_append p.isSign ⟨hd.2.1, hd.2.2.1⟩ _
  have hrest : intRest (p.sign ++ (p.ds ++ List.replicate p.c 32)) = p.ds ++ List.replicate p.c 32 := by
    unfold intRest
    rw [hsign, List.drop_left]
  have hat (r : Bytes) : scanBaseAt conv r = (scanBase conv, 0) := if_neg fun h => hconv h.1
  have hrun : intRun conv 1024 (p.ds ++ List.replicate p.c 32) = p.ds := by
    unfold intRun whileRun
    rw [hat, List.drop_zero, List.takeWhile_append_of_pos p.digits]
    have hnil : (List.replicate p.c (32 : Byte)).takeWhile (isDigitOf (scanBase conv)) = [] := by
      cases p.c with
      | zero => rfl
      | succ n =>
        rw [List.replicate_succ, List.takeWhile_cons, if_neg]
        intro h
        exact (isDigitOf_first hbase h).2.2.2 rfl
    rw [hnil, List.append_nil, List.take_of_length_le p.length]
  refine ⟨_, hdrop, ?_, ?_, ?_⟩
  . rw [htext]
    exact List.cons_ne_nil _ _
  . rw [hrest, hrun]
    exact p.nonempty
  . unfold intVal
    rw [hrest, hrun, hsign, hat]
    exact p.value.symm

theorem IntFormat.nextItem_bare
    : nextItem f.bare = some (.conv { lmod := f.value.lmod, conv := f.conv }, []) := by
  have hconv := f.conv_mem
  simp only [List.mem_cons, List.not_mem_nil, or_false] at hconv
  unfold IntFormat.bare
  generalize f.conv = conv at hconv
  cases f.value with
  | int w => rcases hconv with rfl | rfl | rfl | rfl | rfl <;> rfl
  | long w => rcases hconv with rfl | rfl | rfl | rfl | rfl <;> rfl
  | llong w => rcases hconv with rfl | rfl | rfl | rfl | rfl <;> rfl

theorem scanConv_int {conv : Byte} (hconv : conv ∈ ([100, 117, 120, 88, 111] : Bytes)) (lmod : Lmod)
    (c : ScanCtx)
    : scanItem (.conv { lmod, conv }) c
      = scanTaken false (scanInt conv 0 c) (·.text) (scanStore lmod ·.val) := by
  simp only [List.mem_cons, List.not_mem_nil, or_false] at hconv
  rcases hconv with rfl | rfl | rfl | rfl | rfl <;> rfl

theorem IntFormat.bare_ne_zero : 0 ∉ f.bare := by
  have hconv := f.conv_mem
  simp only [List.mem_cons, List.not_mem_nil, or_false] at hconv
  unfold IntFormat.bare
  generalize f.conv = conv at hconv
  cases f.value with
  | int w => rcases hconv with rfl | rfl | rfl | rfl | rfl <;> simp [IntArg.text]
  | long w => rcases hconv with rfl | rfl | rfl | rfl | rfl <;> simp [IntArg.text]
  | llong w => rcases hconv with rfl | rfl | rfl | rfl | rfl <;> simp [IntArg.text]

theorem IsSign.no_zero {sign : Bytes} {neg : Bool} (h : IsSign sign neg) : 0 ∉ sign := by
  cases h with
  | none => decide
  | plus => decide
  | minus => decide

theorem PrintedInt.no_zero {base : Nat} {out : Bytes} {val : UInt64} (hbase : base ≤ 16)
    (p : PrintedInt base out val)
    : 0 ∉ out := by
  rw [p.text]
  intro h
  rcases List.mem_append.1 h with h | h
  . exact absurd (List.eq_of_mem_replicate h) (by decide)
  rcases List.mem_append.1 h with h | h
  . exact p.isSign.no_zero h
  rcases List.mem_append.1 h with h | h
  . exact absurd (isDigitOf_le hbase (p.digits 0 h)) (by decide)
  . exact absurd (List.eq_of_mem_replicate h) (by decide)

/--
Every integer that is printed is read back: the text that `snprintf` leaves in a buffer that is large
enough makes `sscanf` with the bare conversion store the same bits.
-/
theorem sscanf_snprintf (f : IntFormat) (fmtDouble : FmtDouble)
    : ∃ out : CStr,
      (∀ (mem : Mem) (str : Nat) (size : UInt32), out.val.length < size.toNat →
        size.toNat ≤ 0x7FFFFFFF →
        vsnprintf fmtDouble mem str size (f.text ++ [0]) f.args
          = .ok (mem.writeBytes str (out.val ++ [0]), .ofNat out.val.length))
      ∧ (vsscanf out ⟨f.bare, f.bare_ne_zero⟩).ret = 1
      ∧ (vsscanf out ⟨f.bare, f.bare_ne_zero⟩).stored = [f.value.stored] := by
  obtain ⟨t, val, hrun, ⟨p⟩, hstore⟩ := f.fmtCore_eq fmtDouble
  have hconv : f.conv ≠ 105 := by
    intro h
    exact absurd (h ▸ f.conv_mem) (by decide)
  refine ⟨⟨t.ctx, p.no_zero scanBase_range.2⟩, ?_, ?_⟩
  . intro mem str size hlen hsize
    replace hlen : t.ctx.length < size.toNat := hlen
    rw [vsnprintf_of_console ⟨by omega, hsize⟩ hrun (by omega), List.take_of_length_le (by omega)]
  . obtain ⟨r, hdrop, hne, hdigits, hval⟩ := p.scan hconv
    obtain ⟨c', -, -, hgot⟩ := (ScanCtx.before_at t.ctx none 0).scanInt f.conv hdrop
      (show widthLimit 1024 0 = 1024 from rfl)
    obtain ⟨hgot, -⟩ := hgot hne hdigits
    have hscan : vsscanf ⟨t.ctx, p.no_zero scanBase_range.2⟩ ⟨f.bare, f.bare_ne_zero⟩
        = ⟨[⟨r.take (intLen f.conv 1024 r), some f.value.stored⟩], 1, c', []⟩ := by
      show vscanCore.go (_ + 1) f.bare (.before t.ctx none 0) [] = _
      unfold vscanCore.go
      rw [f.nextItem_bare]
      dsimp only
      rw [scanConv_int f.conv_mem, hgot]
      dsimp only [scanTaken]
      rw [hval, hstore]
      cases f.value with
      | int w => cases (f.value.text ++ [f.conv]).length <;> rfl
      | long w => cases (f.value.text ++ [f.conv]).length <;> rfl
      | llong w => cases (f.value.text ++ [f.conv]).length <;> rfl
    rw [hscan]
    exact ⟨rfl, rfl⟩

end Printed

end TanjaOS
