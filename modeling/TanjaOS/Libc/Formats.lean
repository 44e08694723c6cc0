import TanjaOS.Libc.Fmt
import TanjaOS.Libc.Calendar
import TanjaOS.Libc.Strtol

/-!
Where the three engines that walk a format stop: the one of the kernel, `strftime`, and `vsnprintf` of
the compiler's runtime.
-/

open Lib

namespace TanjaOS

section Strftime

/--
`Sun`, `Mon` and so on
-/
def wdays : List Bytes :=
  [[83, 117, 110], [77, 111, 110], [84, 117, 101], [87, 101, 100], [84, 104, 117], [70, 114, 105],
    [83, 97, 116]]

/--
`Jan`, `Feb` and so on
-/
def months : List Bytes :=
  [[74, 97, 110], [70, 101, 98], [77, 97, 114], [65, 112, 114], [77, 97, 121], [74, 117, 110],
    [74, 117, 108], [65, 117, 103], [83, 101, 112], [79, 99, 116], [78, 111, 118], [68, 101, 99]]

/--
`PUT2`
-/
def put2 (v : Int) : Bytes :=
  [.ofInt (48 + (v.tdiv 10).tmod 10), .ofInt (48 + v.tmod 10)]

def puti.digits (fuel : Nat) (v : Int) : Bytes :=
  match fuel with
  | 0 => []
  | fuel + 1 => if v > 0 then .ofInt (48 + v.tmod 10) :: digits fuel (v.tdiv 10) else []

/--
`PUTI`, of ten digits at most
-/
def puti (v : Int) : Bytes :=
  if v = 0 then [48] else (puti.digits 10 v).reverse

def wdayText (tm : Tm) : Bytes :=
  wdays.getD (tm.tmWday % 8).toNat []

def monthText (tm : Tm) : Bytes :=
  months.getD (tm.tmMon.tmod 12).toNat []

/--
What a conversion puts out. The weekday and the month are taken to be ones of the tables: of 7 or a negative
month the code reads behind or before them, which is no text here or the first one.
-/
def strftimeConv (tm : Tm) (c : Byte) : Bytes :=
  if c = 89 then puti (1900 + tm.tmYear)
  else if c = 121 then put2 ((1900 + tm.tmYear).tmod 100)
  else if c = 109 then put2 (tm.tmMon + 1)
  else if c = 100 then put2 tm.tmMday
  else if c = 101 then 32 :: put2 tm.tmMday
  else if c = 72 then put2 tm.tmHour
  else if c = 73 then put2 (if tm.tmHour.tmod 12 = 0 then 12 else tm.tmHour.tmod 12)
  else if c = 77 then put2 tm.tmMin
  else if c = 83 then put2 tm.tmSec
  else if c = 106 then puti (tm.tmYday + 1)
  else if c = 119 then puti tm.tmWday
  else if c = 97 ∨ c = 65 then wdayText tm
  else if c = 98 ∨ c = 104 ∨ c = 66 then monthText tm
  else if c = 112 then (if tm.tmHour < 12 then [65, 77] else [80, 77])
  else if c = 110 then [10]
  else if c = 116 then [9]
  else if c = 37 then [37]
  else if c = 70 then
    puti (1900 + tm.tmYear) ++ 45 :: put2 (tm.tmMon + 1) ++ 45 :: put2 tm.tmMday
  else if c = 84 ∨ c = 88 then put2 tm.tmHour ++ 58 :: put2 tm.tmMin ++ 58 :: put2 tm.tmSec
  else if c = 68 then
    put2 (tm.tmMon + 1) ++ 47 :: put2 tm.tmMday ++ 47 :: put2 ((1900 + tm.tmYear).tmod 100)
  else if c = 82 then put2 tm.tmHour ++ 58 :: put2 tm.tmMin
  else if c = 99 then
    wdayText tm ++ 32 :: monthText tm ++ 32 :: put2 tm.tmMday ++ 32 :: put2 tm.tmHour
      ++ 58 :: put2 tm.tmMin ++ 58 :: put2 tm.tmSec ++ 32 :: puti (1900 + tm.tmYear)
  else [37, c]

/--
`PUTC` for each character of a text, there is no result when the buffer is full.
-/
def strftimePut (max : Nat) (out text : Bytes) : Option Bytes :=
  match text with
  | [] => some out
  | c :: text => if out.length + 1 ≥ max then none else strftimePut max (out ++ [c]) text

def strftime.go (max : Nat) (tm : Tm) (fuel : Nat) (out f : Bytes) : Checked (Option Bytes) :=
  match fuel with
  | 0 => .error .loop
  | fuel + 1 => do
    let c ← deref f
    if c = 0 then
      return some out
    else if c ≠ 37 then
      match strftimePut max out [c] with
      | none => return none
      | some out => go max tm fuel out f.tail
    else
      let f := f.tail
      let c ← deref f
      match strftimePut max out (strftimeConv tm c) with
      | none => return none
      | some out => go max tm fuel out f.tail

end Strftime

namespace Tcc

/--
`out`, `left` and `total` of `vsnprintf`, with what is stored so far.
-/
structure FmtOut where
  stored : Bytes
  left : UInt32
  total : UInt32

/--
`EMIT_CHAR`
-/
def emitChar (o : FmtOut) (c : Byte) : FmtOut :=
  if o.left > 1 then
    { stored := o.stored ++ [c], left := o.left - 1, total := o.total + 1 }
  else
    { o with total := o.total + 1 }

def emitAll (o : FmtOut) (text : Bytes) : FmtOut :=
  text.foldl emitChar o

structure FmtFlags where
  left : Bool
  zero : Bool

def formatNum (o : FmtOut) (val : UInt64) (base : Nat) (isSigned : Bool) (width prec : Int)
    (flags : FmtFlags) (upper : Bool) : FmtOut :=
  let neg := isSigned && val.toInt64 < 0
  let val := if neg then 0 - val else val
  let digits := ulltoaRev val base upper
  let len : Int := digits.length
  let padPrec := if prec > len then prec - len else 0
  let coreLen := len + padPrec + (if neg then 1 else 0)
  let padWidth := (if width > coreLen then width - coreLen else 0).toNat
  let zeroPad := flags.zero && !flags.left && prec < 0
  let o := if !flags.left && !zeroPad then emitAll o (List.replicate padWidth 32) else o
  let o := if neg then emitChar o 45 else o
  let o := if !flags.left && zeroPad then emitAll o (List.replicate padWidth 48) else o
  let o := emitAll o (List.replicate padPrec.toNat 48)
  let o := emitAll o digits.reverse
  if flags.left then emitAll o (List.replicate padWidth 32) else o

/--
`while (*format == '-' || *format == '0')`
-/
def fmtFlags (p : Bytes) (flags : FmtFlags) : Checked (FmtFlags × Bytes) :=
  match p with
  | [] => .error .load
  | c :: p =>
    if c = 45 then
      fmtFlags p { flags with left := true }
    else if c = 48 then
      fmtFlags p { flags with zero := true }
    else
      .ok (flags, c :: p)

def fmtWidth (p : Bytes) (ap : List Arg) (flags : FmtFlags)
    : Checked ((FmtFlags × Int32) × Bytes × List Arg) := do
  let c ← deref p
  if c = 42 then
    let (w, ap) ← vaWord ap
    if w.toInt32 < 0 then
      return (({ flags with left := true }, -w.toInt32), p.tail, ap)
    else
      return ((flags, w.toInt32), p.tail, ap)
  else if isdigit c then
    let (width, p) ← fmtDigits p 0
    return ((flags, width), p, ap)
  else
    return ((flags, -1), p, ap)

def fmtPrecision (p : Bytes) (ap : List Arg) : Checked (Int32 × Bytes × List Arg) := do
  if (← deref p) = 46 then
    let p := p.tail
    let c ← deref p
    if c = 42 then
      let (w, ap) ← vaWord ap
      return (w.toInt32, p.tail, ap)
    else if isdigit c then
      let (prec, p) ← fmtDigits p 0
      return (prec, p, ap)
    else
      return (0, p, ap)
  else
    return (-1, p, ap)

inductive Length where
  | none
  | l
  | ll
  | h
  | z
  deriving DecidableEq

def fmtLength (p : Bytes) : Checked (Length × Bytes) := do
  let c ← deref p
  if c = 108 then
    if (← deref p.tail) = 108 then
      return (.ll, p.tail.tail)
    else
      return (.l, p.tail)
  else if c = 104 then
    return (.h, p.tail)
  else if c = 122 then
    return (.z, p.tail)
  else
    return (.none, p)

def vaSigned (length : Length) (ap : List Arg) : Checked (UInt64 × List Arg) := do
  match length with
  | .ll => vaWide ap
  | .none | .l | .h | .z =>
    let (w, ap) ← vaWord ap
    return (.ofInt w.toInt32.toInt, ap)

def vaUnsigned (length : Length) (ap : List Arg) : Checked (UInt64 × List Arg) := do
  match length with
  | .ll => vaWide ap
  | .none | .l | .h | .z =>
    let (w, ap) ← vaWord ap
    return (w.toUInt64, ap)

/--
A text of which `prec` bounds how much is shown. The whole text is measured first.
-/
def fmtStr (o : FmtOut) (flags : FmtFlags) (width prec : Int) (str : Option Bytes)
    : Checked FmtOut := do
  let str := str.getD (nullText ++ [0])
  let len ← fmtStrlen str
  let len := if prec ≥ 0 ∧ prec < len then prec else len
  let pad := (if width > len then width - len else 0).toNat
  let o := if !flags.left then emitAll o (List.replicate pad 32) else o
  let o := emitAll o (str.take len.toNat)
  return if flags.left then emitAll o (List.replicate pad 32) else o

def fmtConv (o : FmtOut) (flags : FmtFlags) (width prec : Int32) (length : Length) (spec : Byte)
    (ap : List Arg) : Checked (FmtOut × List Arg) := do
  if spec = 37 then
    return (emitChar o 37, ap)
  -- c
  else if spec = 99 then
    let (w, ap) ← vaWord ap
    return (emitChar o w.toUInt8, ap)
  -- s
  else if spec = 115 then
    let (str, ap) ← vaStr ap
    return (← fmtStr o flags width.toInt prec.toInt str, ap)
  -- d i
  else if spec = 100 ∨ spec = 105 then
    let (val, ap) ← vaSigned length ap
    return (formatNum o val 10 true width.toInt prec.toInt flags false, ap)
  -- u
  else if spec = 117 then
    let (val, ap) ← vaUnsigned length ap
    return (formatNum o val 10 false width.toInt prec.toInt flags false, ap)
  -- x X
  else if spec = 120 ∨ spec = 88 then
    let (val, ap) ← vaUnsigned length ap
    return (formatNum o val 16 false width.toInt prec.toInt flags (spec = 88), ap)
  -- p
  else if spec = 112 then
    let (ptr, ap) ← vaWord ap
    return (formatNum o ptr.toUInt64 16 false width.toInt prec.toInt flags false, ap)
  else
    return (emitChar o spec, ap)

def vsnprintf.go (fuel : Nat) (o : FmtOut) (p : Bytes) (ap : List Arg) : Checked FmtOut :=
  match fuel with
  | 0 => .error .loop
  | fuel + 1 => do
    let c ← deref p
    if c = 0 then
      return o
    else if c ≠ 37 then
      go fuel (emitChar o c) p.tail ap
    else
      let (flags, p) ← fmtFlags p.tail ⟨false, false⟩
      let ((flags, width), p, ap) ← fmtWidth p ap flags
      let (prec, p, ap) ← fmtPrecision p ap
      let (length, p) ← fmtLength p
      let spec ← deref p
      let (o, ap) ← fmtConv o flags width prec length spec ap
      go fuel o p.tail ap

def vsnprintf (size : UInt32) (format : Bytes) (ap : List Arg) : Checked (Bytes × Int32) := do
  let o ← vsnprintf.go (format.length + 1) ⟨[], size, 0⟩ format ap
  return (o.stored, o.total.toInt32)

end Tcc

section Skip

def isFlagChar (c : Byte) : Bool :=
  c = 45 ∨ c = 43 ∨ c = 48 ∨ c = 35 ∨ c = 32

def isDigitChar (c : Byte) : Bool :=
  48 ≤ c ∧ c ≤ 57

def skipNumber (l : Bytes) : Bytes :=
  if l.headD 0 = 42 then l.tail else l.dropWhile isDigitChar

def skipPrecision (l : Bytes) : Bytes :=
  if l.headD 0 = 46 then skipNumber l.tail else l

def skipHalf (l : Bytes) : Bytes :=
  if l.headD 0 = 104 then (if l.tail.headD 0 = 104 then l.tail.tail else l.tail) else l

def skipOne (cs : List Byte) (l : Bytes) : Bytes :=
  if l.headD 0 ∈ cs then l.tail else l

/--
The rest behind everything that may stand between a `%` and its conversion character.
-/
def skipSpec (l : Bytes) : Bytes :=
  let l := skipPrecision (skipNumber (l.dropWhile isFlagChar))
  skipOne [122, 116] (skipOne [76] (skipHalf (l.dropWhile (· = 108))))

/--
A format that ends outside of a conversion. A `%` all by itself may come last.
-/
inductive FmtEnds : Bytes → Prop where
  | nil : FmtEnds []
  | char {c : Byte} {l : Bytes} (hc : c ≠ 37) (h : FmtEnds l) : FmtEnds (c :: l)
  | lone : FmtEnds [37]
  | percent {l : Bytes} (h : FmtEnds l) : FmtEnds (37 :: 37 :: l)
  | conv {d c : Byte} {l r : Bytes} (hd : d ≠ 37) (hr : skipSpec (d :: l) = c :: r) (h : FmtEnds r)
    : FmtEnds (37 :: d :: l)

end Skip

/-!
The cursor of the kernel's engine over a text and its terminator.
-/

section Kernel

/--
The read asks for an argument that is not there, or stops at `l`.
-/
def StopsAt {α β : Type} (x : Checked (α × Bytes × β)) (l : Bytes) : Prop :=
  x = .error .index ∨ ∃ a b, x = .ok (a, l ++ [0], b)

theorem StopsAt.bind {α β γ δ : Type} {x : Checked (α × Bytes × β)} {l l' : Bytes}
    {f : α × Bytes × β → Checked (γ × Bytes × δ)} (hx : StopsAt x l)
    (hf : ∀ a b, StopsAt (f (a, l ++ [0], b)) l')
    : StopsAt (x >>= f) l' := by
  rcases hx with hx | ⟨a, b, hx⟩
  . left
    rw [hx]
    rfl
  . rw [hx]
    exact hf a b

def OnlyArgs {α : Type} (x : Checked α) : Prop :=
  x = .error .index ∨ ∃ a, x = .ok a

theorem OnlyArgs.ok {α : Type} (a : α) : OnlyArgs (.ok a : Checked α) :=
  Or.inr ⟨a, rfl⟩

theorem OnlyArgs.bind {α β : Type} {x : Checked α} {f : α → Checked β} (hx : OnlyArgs x)
    (hf : ∀ a, OnlyArgs (f a))
    : OnlyArgs (x >>= f) := by
  rcases hx with hx | ⟨a, hx⟩
  . left
    rw [hx]
    rfl
  . rw [hx]
    exact hf a

variable {σ : Type} {emit : σ → Byte → σ} {fmtDouble : FmtDouble}

/--
A run over a text stays within it exactly when the text `ends` as it should.
-/
def WalksIff {α : Type} (x : Checked α) (ends : Prop) : Prop :=
  (ends ∧ ∃ a, x = .ok a) ∨ (¬ends ∧ x = .error .load)

theorem WalksIff.of_iff {α : Type} {x : Checked α} {e e' : Prop} (h : WalksIff x e) (he : e ↔ e')
    : WalksIff x e' := by
  rwa [← propext he]

def Walks {α : Type} (x : Checked α) (ends : Prop) : Prop :=
  x = .error .index ∨ WalksIff x ends

theorem Walks.of_iff {α : Type} {x : Checked α} {e e' : Prop} (h : Walks x e) (he : e ↔ e')
    : Walks x e' := by
  rwa [← propext he]

theorem Walks.bind {α β : Type} {x : Checked α} {f : α → Checked β} {ends : Prop}
    (hx : OnlyArgs x) (hf : ∀ a, Walks (f a) ends)
    : Walks (x >>= f) ends := by
  rcases hx with hx | ⟨a, hx⟩
  . left
    rw [hx]
    rfl
  . rw [hx]
    exact hf a

end Kernel

section Strftime

end Strftime

namespace Tcc

/-!
The cursor of the runtime's engine.
-/

section Walk

def skipLength (l : Bytes) : Bytes :=
  if l.headD 0 = 108 then
    (if l.tail.headD 0 = 108 then l.tail.tail else l.tail)
  else if l.headD 0 = 104 ∨ l.headD 0 = 122 then
    l.tail
  else
    l

def skipSpec (l : Bytes) : Bytes :=
  skipLength (skipPrecision (skipNumber (l.dropWhile fun c => c = 45 ∨ c = 48)))

inductive FmtEnds : Bytes → Prop where
  | nil : FmtEnds []
  | char {c : Byte} {l : Bytes} (hc : c ≠ 37) (h : FmtEnds l) : FmtEnds (c :: l)
  | conv {c : Byte} {l r : Bytes} (hr : skipSpec l = c :: r) (h : FmtEnds r) : FmtEnds (37 :: l)

end Walk

end Tcc

end TanjaOS
