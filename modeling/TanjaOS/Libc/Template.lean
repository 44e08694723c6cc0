import TanjaOS.Libc.ScanPrinted

/-!
What `printf` puts out for a format that has no conversions but `%d`.
-/

open Lib

namespace TanjaOS

/--
A character that stands for itself, or a `%d` with its argument.
-/
inductive FormatPiece where
  | char (c : Byte)
  | int (w : UInt32)

/--
The decimal form of an `int`.
-/
def intText (w : UInt32) : Bytes :=
  let v := w.toInt32.toInt
  (if v < 0 then [45] else []) ++ printedDigits (if v < 0 then 0 - .ofInt v else .ofInt v) 10 false

namespace FormatPiece

def format : FormatPiece → Bytes
  | char c => [c]
  | int _ => [37, 100]

def args : FormatPiece → List Arg
  | char _ => []
  | int w => [.word w]

def text : FormatPiece → Bytes
  | char c => [c]
  | int w => intText w

def Plain : FormatPiece → Prop
  | char c => c ≠ 0 ∧ c ≠ 37
  | int _ => True

end FormatPiece

def templateFormat (ps : List FormatPiece) : Bytes :=
  ps.flatMap FormatPiece.format ++ [0]

section Template

variable {σ : Type} {emit : σ → Byte → σ} {fmtDouble : FmtDouble} (s : FmtSink σ)

theorem fmtPuts_append (a b : Bytes) : fmtPuts emit s (a ++ b) = fmtPuts emit (fmtPuts emit s a) b := by
  unfold fmtPuts
  rw [List.foldl_append]

theorem fmtInteger_plain (v : UInt64) (negative : Bool)
    : fmtInteger emit s v negative 10 false {}
      = fmtPuts emit s ((if negative then [45] else []) ++ printedDigits v 10 false) := by
  have hpad : ∀ (t : FmtSink σ) (n : Nat), padOut emit t (0 : Int32).toInt n false = t := by
    intro t n
    unfold padOut
    have hzero : ((0 : Int32).toInt - (n : Int)).toNat = 0 := by
      have : (0 : Int32).toInt = 0 := rfl
      omega
    rw [hzero]
    rfl
  have hprec : ¬(-1 : Int32).toInt > ((ulltoaRev v 10 false).length : Int) := by
    have : (-1 : Int32).toInt = -1 := rfl
    omega
  have htotal : ((ulltoaRev v 10 false).length : Int) + 0 + ([] : Bytes).length
        + (if negative = true then [45] else [] : Bytes).length
      = ((ulltoaRev v 10 false).length + (if negative = true then [45] else [] : Bytes).length : Nat) := by
    simp
  rw [fmtPuts_append]
  unfold fmtInteger printedDigits
  dsimp only
  simp only [if_neg hprec, Bool.false_eq_true, false_and, and_false, if_false, Bool.not_false, Bool.true_and,
    Bool.false_and, if_true]
  rw [htotal, hpad]
  rfl

theorem fmtConv_int (w : UInt32) (ap : List Arg) (stored : List Int32)
    : fmtConv emit fmtDouble s {} 100 (.word w :: ap) stored = .ok (fmtPuts emit s (intText w), ap, stored) := by
  have hprinted := @fmtInteger_plain σ emit s
    (if w.toInt32.toInt < 0 then 0 - .ofInt w.toInt32.toInt else .ofInt w.toInt32.toInt) (w.toInt32.toInt < 0)
  simp only [decide_eq_true_eq] at hprinted
  unfold intText
  rw [← hprinted]
  rfl

theorem go_template (ps : List FormatPiece) (hplain : ∀ p ∈ ps, p.Plain) (fuel : Nat) (hfuel : ps.length < fuel)
    (ap : List Arg) (stored : List Int32)
    : fmtCore.go emit fmtDouble fuel s (templateFormat ps) (ps.flatMap FormatPiece.args ++ ap) stored
      = .ok (fmtPuts emit s (ps.flatMap FormatPiece.text), stored) := by
  induction ps generalizing s fuel with
  | nil =>
    obtain ⟨fuel, rfl⟩ : ∃ n, fuel = n + 1 := ⟨fuel - 1, by omega⟩
    rfl
  | cons p ps ih =>
    obtain ⟨fuel, rfl⟩ : ∃ n, fuel = n + 1 := ⟨fuel - 1, by omega⟩
    have hrest := fun s => ih s (fun q hq => hplain q (List.mem_cons_of_mem p hq)) fuel (by simpa using hfuel)
    cases p with
    | char c =>
      obtain ⟨hzero, hpercent⟩ := hplain (.char c) List.mem_cons_self
      show fmtCore.go emit fmtDouble (fuel + 1) s (c :: templateFormat ps) _ stored = _
      unfold fmtCore.go
      simp only [deref, bind, Except.bind, if_neg hzero, if_pos hpercent]
      exact hrest (fmtPutc emit s c)
    | int w =>
      show fmtCore.go emit fmtDouble (fuel + 1) s (37 :: 100 :: templateFormat ps)
        (.word w :: (ps.flatMap FormatPiece.args ++ ap)) stored = _
      have hspec : fmtSpec (100 :: templateFormat ps) (.word w :: (ps.flatMap FormatPiece.args ++ ap))
          = .ok ({}, 100 :: templateFormat ps, .word w :: (ps.flatMap FormatPiece.args ++ ap)) := rfl
      unfold fmtCore.go
      simp only [deref, bind, Except.bind, List.tail_cons]
      rw [if_neg (by decide), if_neg (by decide), if_neg (by decide), if_neg (by decide), hspec]
      dsimp only
      rw [fmtConv_int]
      simp only [List.tail_cons]
      rw [hrest, ← fmtPuts_append]
      rfl

theorem length_templateFormat (ps : List FormatPiece) : ps.length < (templateFormat ps).length := by
  unfold templateFormat
  rw [List.length_append, List.length_singleton]
  induction ps with
  | nil => exact Nat.zero_lt_one
  | cons p ps ih =>
    have hpos : 1 ≤ p.format.length := by
      cases p with
      | char c => exact Nat.le_refl 1
      | int w => exact Nat.le_succ 1
    rw [List.flatMap_cons, List.length_append, List.length_cons]
    omega

theorem consoleEmit_text (out str : Bytes) : str.foldl consoleEmit out = out ++ str := by
  induction str generalizing out with
  | nil => exact (List.append_nil out).symm
  | cons c str ih =>
    rw [List.foldl_cons, ih]
    unfold consoleEmit
    rw [List.append_assoc]
    rfl

theorem vprintf_template (fmtDouble : FmtDouble) (ps : List FormatPiece) (hplain : ∀ p ∈ ps, p.Plain)
    : ∃ n, vprintf fmtDouble (templateFormat ps) (ps.flatMap FormatPiece.args)
        = .ok (ps.flatMap FormatPiece.text, n) := by
  have hgo := @go_template _ consoleEmit fmtDouble ⟨[], 0⟩ ps hplain ((templateFormat ps).length + 1)
    (Nat.lt_succ_of_lt (length_templateFormat ps)) [] []
  rw [List.append_nil] at hgo
  refine ⟨(fmtPuts consoleEmit ⟨[], 0⟩ (ps.flatMap FormatPiece.text)).count, ?_⟩
  unfold vprintf fmtCore
  rw [hgo]
  show Except.ok ((fmtPuts consoleEmit ⟨[], 0⟩ (ps.flatMap FormatPiece.text)).ctx, _) = _
  rw [fmtPuts_ctx, consoleEmit_text]
  rfl

end Template

end TanjaOS
