import TanjaOS.Lib.Checked

/-!
The formatting engine behind `printf` and its relatives. It reads the format byte by byte and puts
one character after the other into a sink.
-/

open Lib

namespace TanjaOS

inductive Lmod where
  | none
  | h
  | hh
  | l
  | ll
  | L
  deriving DecidableEq

/--
`spec_t`, a precision of -1 is none.
-/
structure FmtSpec where
  minus : Bool := false
  plus : Bool := false
  zero : Bool := false
  hash : Bool := false
  space : Bool := false
  width : Int32 := 0
  precision : Int32 := -1
  lmod : Lmod := .none
  deriving DecidableEq

/--
An argument behind the format. `str` is a null pointer or the bytes that may be read from the pointer
on, `double` the bits of a double, `out` a pointer to an int.
-/
inductive Arg where
  | word (w : UInt32)
  | wide (w : UInt64)
  | str (s : Option Bytes)
  | double (bits : UInt64)
  | out
  deriving DecidableEq

section VaArg

-- an argument of another kind than the conversion asks for is one that is not there

def vaWord (ap : List Arg) : Checked (UInt32 × List Arg) :=
  match ap with
  | .word w :: ap => .ok (w, ap)
  | _ => .error .index

def vaWide (ap : List Arg) : Checked (UInt64 × List Arg) :=
  match ap with
  | .wide w :: ap => .ok (w, ap)
  | _ => .error .index

def vaStr (ap : List Arg) : Checked (Option Bytes × List Arg) :=
  match ap with
  | .str s :: ap => .ok (s, ap)
  | _ => .error .index

def vaDouble (ap : List Arg) : Checked (UInt64 × List Arg) :=
  match ap with
  | .double v :: ap => .ok (v, ap)
  | _ => .error .index

def vaOut (ap : List Arg) : Checked (List Arg) :=
  match ap with
  | .out :: ap => .ok ap
  | _ => .error .index

end VaArg

/--
`*p`, where `p` holds all bytes that may be read from the pointer on.
-/
def deref (p : Bytes) : Checked Byte :=
  match p with
  | [] => .error .load
  | c :: _ => .ok c

section Spec

def fmtFlags (p : Bytes) (sp : FmtSpec) : Checked (FmtSpec × Bytes) :=
  match p with
  | [] => .error .load
  | c :: p =>
    if c = 45 then
      fmtFlags p { sp with minus := true }
    else if c = 43 then
      fmtFlags p { sp with plus := true }
    else if c = 48 then
      fmtFlags p { sp with zero := true }
    else if c = 35 then
      fmtFlags p { sp with hash := true }
    else if c = 32 then
      fmtFlags p { sp with space := true }
    else
      .ok (sp, c :: p)

/--
`while (*p >= '0' && *p <= '9') v = v * 10 + (*p++ - '0')`
-/
def fmtDigits (p : Bytes) (v : Int32) : Checked (Int32 × Bytes) :=
  match p with
  | [] => .error .load
  | c :: p =>
    if 48 ≤ c ∧ c ≤ 57 then
      fmtDigits p (v * 10 + .ofNat (c.toNat - 48))
    else
      .ok (v, c :: p)

/--
`while (*p == 'l') lmod = lmod == 3 ? 4 : 3, p++`
-/
def fmtLongs (p : Bytes) (lmod : Lmod) : Checked (Lmod × Bytes) :=
  match p with
  | [] => .error .load
  | c :: p =>
    if c = 108 then
      fmtLongs p (if lmod = .l then .ll else .l)
    else
      .ok (lmod, c :: p)

def fmtWidth (p : Bytes) (ap : List Arg) (sp : FmtSpec)
    : Checked (FmtSpec × Bytes × List Arg) := do
  if (← deref p) = 42 then
    let (w, ap) ← vaWord ap
    let width := w.toInt32
    if width < 0 then
      return ({ sp with minus := true, width := -width }, p.tail, ap)
    else
      return ({ sp with width }, p.tail, ap)
  else
    let (width, p) ← fmtDigits p 0
    return ({ sp with width }, p, ap)

def fmtPrecision (p : Bytes) (ap : List Arg) (sp : FmtSpec)
    : Checked (FmtSpec × Bytes × List Arg) := do
  if (← deref p) = 46 then
    let p := p.tail
    if (← deref p) = 42 then
      let (w, ap) ← vaWord ap
      return ({ sp with precision := w.toInt32 }, p.tail, ap)
    else
      let (precision, p) ← fmtDigits p 0
      return ({ sp with precision }, p, ap)
  else
    return (sp, p, ap)

def fmtHalf (lmod : Lmod) (p : Bytes) : Checked (Lmod × Bytes) := do
  if (← deref p) = 104 then
    if (← deref p.tail) = 104 then
      return (.hh, p.tail.tail)
    else
      return (.h, p.tail)
  else
    return (lmod, p)

/--
`if (*p == c) { lmod = new; p++; }`, for each `c` of `cs`
-/
def fmtOne (cs : List Byte) (new : Lmod) (lmod : Lmod) (p : Bytes) : Checked (Lmod × Bytes) := do
  if (← deref p) ∈ cs then
    return (new, p.tail)
  else
    return (lmod, p)

def fmtLmod (p : Bytes) : Checked (Lmod × Bytes) := do
  let (lmod, p) ← fmtLongs p .none
  let (lmod, p) ← fmtHalf lmod p
  let (lmod, p) ← fmtOne [76] .L lmod p
  fmtOne [122, 116] .l lmod p

/--
Everything between the `%` and the conversion character.
-/
def fmtSpec (p : Bytes) (ap : List Arg) : Checked (FmtSpec × Bytes × List Arg) := do
  let (sp, p) ← fmtFlags p {}
  let (sp, p, ap) ← fmtWidth p ap sp
  let (sp, p, ap) ← fmtPrecision p ap sp
  let (lmod, p) ← fmtLmod p
  return ({ sp with lmod }, p, ap)

end Spec

/--
`fmtsink_t` without the function that emits a character.
-/
structure FmtSink (σ : Type) where
  ctx : σ
  count : Int32

section Output

variable {σ : Type} (emit : σ → Byte → σ)

def fmtPutc (s : FmtSink σ) (c : Byte) : FmtSink σ where
  ctx := emit s.ctx c
  count := s.count + 1

def fmtPuts (s : FmtSink σ) (str : Bytes) : FmtSink σ :=
  str.foldl (fmtPutc emit) s

/--
`while (width-- > len)`
-/
def padOut (s : FmtSink σ) (width len : Int) (zero : Bool) : FmtSink σ :=
  fmtPuts emit s (List.replicate (width - len).toNat (if zero then 48 else 32))

def digitChar (upper : Bool) (d : Nat) : Byte :=
  .ofNat (if d < 10 then 48 + d else (if upper then 65 else 97) + d - 10)

def ulltoaRev.go (base : Nat) (upper : Bool) (fuel v : Nat) : Bytes :=
  match fuel with
  | 0 => []
  | fuel + 1 => if v = 0 then [] else digitChar upper (v % base) :: go base upper fuel (v / base)

/--
The digits of `v` from the last to the first, 64 of them are enough in any base.
-/
def ulltoaRev (v : UInt64) (base : Nat) (upper : Bool) : Bytes :=
  if v = 0 then [48] else ulltoaRev.go base upper 64 v.toNat

/--
The sums of lengths are taken without a bound, they do not overflow where the output does not.
-/
def fmtInteger (s : FmtSink σ) (v : UInt64) (negative : Bool) (base : Nat) (upper : Bool)
    (sp : FmtSpec) : FmtSink σ :=
  let digits := ulltoaRev v base upper
  let nd : Int := digits.length
  let zeros := if sp.precision.toInt > nd then sp.precision.toInt - nd else 0
  let pfx : Bytes := if sp.hash ∧ base = 16 ∧ v ≠ 0 then (if upper then [48, 88] else [48, 120]) else []
  let zeros := if base = 8 ∧ sp.hash ∧ zeros = 0 ∧ digits.getLastD 48 ≠ 48 then 1 else zeros
  let sign : Bytes :=
    if negative then [45] else if sp.plus then [43] else if sp.space then [32] else []
  let total := nd + zeros + pfx.length + sign.length
  let s :=
    if !sp.minus && !(sp.zero && sp.precision < 0) then
      padOut emit s sp.width.toInt total false
    else
      s
  let s := fmtPuts emit s sign
  let s := fmtPuts emit s pfx
  let s :=
    if sp.zero && sp.precision < 0 && !sp.minus then
      padOut emit s sp.width.toInt total true
    else
      s
  let s := fmtPuts emit s (List.replicate zeros.toNat 48)
  let s := fmtPuts emit s digits.reverse
  if sp.minus then padOut emit s sp.width.toInt total false else s

/--
The padding around a text of `len` characters that `out` puts out.
-/
def fmtPadded (s : FmtSink σ) (sp : FmtSpec) (len : Int) (out : FmtSink σ → FmtSink σ) : FmtSink σ :=
  let s := if !sp.minus then padOut emit s sp.width.toInt len false else s
  let s := out s
  if sp.minus then padOut emit s sp.width.toInt len false else s

/--
`while (len < precision && str[len]) len++`
-/
def fmtStrLimit (precision : Nat) (str : Bytes) : Checked Nat :=
  match precision with
  | 0 => .ok 0
  | precision + 1 =>
    match str with
    | [] => .error .index
    | c :: str =>
      if c = 0 then
        .ok 0
      else do
        let len ← fmtStrLimit precision str
        return len + 1

def fmtStrlen (str : Bytes) : Checked Nat :=
  match str with
  | [] => .error .index
  | c :: str =>
    if c = 0 then
      .ok 0
    else do
      let len ← fmtStrlen str
      return len + 1

def fmtStrSize (precision : Int32) (str : Bytes) : Checked Nat :=
  if precision ≥ 0 then fmtStrLimit precision.toInt.toNat str else fmtStrlen str

/--
`(null)`
-/
def nullText : Bytes := [40, 110, 117, 108, 108, 41]

def fmtStr (s : FmtSink σ) (sp : FmtSpec) (str : Option Bytes) : Checked (FmtSink σ) :=
  match str with
  | none => .ok (fmtPadded emit s sp 6 (fmtPuts emit · nullText))
  | some str => do
    let len ← fmtStrSize sp.precision str
    return fmtPadded emit s sp len (fmtPuts emit · (str.take len))

def fmtNibbles (fuel t : Nat) : Nat :=
  match fuel with
  | 0 => 0
  | fuel + 1 => if t = 0 then 0 else fmtNibbles fuel (t / 16) + 1

def fmtPointer (s : FmtSink σ) (sp : FmtSpec) (v : UInt32) : FmtSink σ :=
  let nd : Int := if v = 0 then 1 else fmtNibbles 64 v.toNat
  fmtPadded emit s sp (2 + nd) fun s =>
    let s := fmtPuts emit s [48, 120]
    fmtPuts emit s (ulltoaRev v.toUInt64 16 false).reverse

/--
The argument of `%d` and `%i`.
-/
def vaSigned (lmod : Lmod) (ap : List Arg) : Checked (Int × List Arg) := do
  match lmod with
  | .ll =>
    let (w, ap) ← vaWide ap
    return (w.toInt64.toInt, ap)
  | .h =>
    let (w, ap) ← vaWord ap
    return (w.toUInt16.toInt16.toInt, ap)
  | .hh =>
    let (w, ap) ← vaWord ap
    return (w.toUInt8.toInt8.toInt, ap)
  | .none | .l | .L =>
    let (w, ap) ← vaWord ap
    return (w.toInt32.toInt, ap)

/--
The argument of `%u`, `%o` and `%x`.
-/
def vaUnsigned (lmod : Lmod) (ap : List Arg) : Checked (UInt64 × List Arg) := do
  match lmod with
  | .ll => vaWide ap
  | .none | .h | .hh | .l | .L =>
    let (w, ap) ← vaWord ap
    return (w.toUInt64, ap)

/--
What `fmt_double` puts out for the bits of a double, its precision, the conversion and the spec.
-/
abbrev FmtDouble := UInt64 → Int32 → Byte → FmtSpec → Bytes

variable (fmtDouble : FmtDouble)

/--
One conversion. `stored` is what `%n` has written so far.
-/
def fmtConv (s : FmtSink σ) (sp : FmtSpec) (conv : Byte) (ap : List Arg) (stored : List Int32)
    : Checked (FmtSink σ × List Arg × List Int32) := do
  -- d i
  if conv = 100 ∨ conv = 105 then
    let (v, ap) ← vaSigned sp.lmod ap
    let neg := v < 0
    let uv := if neg then 0 - UInt64.ofInt v else UInt64.ofInt v
    return (fmtInteger emit s uv neg 10 false sp, ap, stored)
  -- u
  else if conv = 117 then
    let (v, ap) ← vaUnsigned sp.lmod ap
    return (fmtInteger emit s v false 10 false sp, ap, stored)
  -- o
  else if conv = 111 then
    let (v, ap) ← vaUnsigned sp.lmod ap
    return (fmtInteger emit s v false 8 false sp, ap, stored)
  -- x X
  else if conv = 120 ∨ conv = 88 then
    let (v, ap) ← vaUnsigned sp.lmod ap
    return (fmtInteger emit s v false 16 (conv = 88) sp, ap, stored)
  -- c
  else if conv = 99 then
    let (w, ap) ← vaWord ap
    return (fmtPadded emit s sp 1 (fmtPutc emit · w.toUInt8), ap, stored)
  -- s
  else if conv = 115 then
    let (str, ap) ← vaStr ap
    return (← fmtStr emit s sp str, ap, stored)
  -- p
  else if conv = 112 then
    let (v, ap) ← vaWord ap
    return (fmtPointer emit s sp v, ap, stored)
  -- n
  else if conv = 110 then
    let ap ← vaOut ap
    return (s, ap, stored ++ [s.count])
  -- f F e E g G
  else if conv = 102 ∨ conv = 70 ∨ conv = 101 ∨ conv = 69 ∨ conv = 103 ∨ conv = 71 then
    let (v, ap) ← vaDouble ap
    let prec := if sp.precision ≥ 0 then sp.precision else 6
    let conv := if conv = 70 then 102 else conv
    return (fmtPuts emit s (fmtDouble v prec conv sp), ap, stored)
  else
    return (fmtPutc emit (fmtPutc emit s 37) conv, ap, stored)

/--
The loop over the format, `fuel` counts its rounds.
-/
def fmtCore.go (fuel : Nat) (s : FmtSink σ) (p : Bytes) (ap : List Arg) (stored : List Int32)
    : Checked (FmtSink σ × List Int32) :=
  match fuel with
  | 0 => .error .loop
  | fuel + 1 => do
    let c ← deref p
    if c = 0 then
      return (s, stored)
    else if c ≠ 37 then
      go fuel (fmtPutc emit s c) p.tail ap stored
    else
      let p := p.tail
      let c ← deref p
      if c = 0 then
        return (s, stored)
      else if c = 37 then
        go fuel (fmtPutc emit s 37) p.tail ap stored
      else
        let (sp, p, ap) ← fmtSpec p ap
        let conv ← deref p
        let (s, ap, stored) ← fmtConv emit fmtDouble s sp conv ap stored
        go fuel s p.tail ap stored

/--
`fmt` are the bytes of the format that may be read, every round takes at least one of them.
-/
def fmtCore (s : FmtSink σ) (fmt : Bytes) (ap : List Arg) : Checked (FmtSink σ × List Int32) :=
  fmtCore.go emit fmtDouble (fmt.length + 1) s fmt ap []

end Output

/-!
Two sinks that are fed by the same call stay related.
-/

section Related

variable {σ τ : Type} {emit : σ → Byte → σ} {emit' : τ → Byte → τ} {R : σ → τ → Prop}
  {fmtDouble : FmtDouble}

structure SinkRel (R : σ → τ → Prop) (s : FmtSink σ) (t : FmtSink τ) : Prop where
  ctx : R s.ctx t.ctx
  count : s.count = t.count

def RunRel {α : Type} (R : σ → τ → Prop) (x : Checked (FmtSink σ × α)) (y : Checked (FmtSink τ × α))
    : Prop :=
  match x, y with
  | .ok (s, a), .ok (t, b) => SinkRel R s t ∧ a = b
  | .error e, .error e' => e = e'
  | _, _ => False

variable {s : FmtSink σ} {t : FmtSink τ}

theorem SinkRel.ok {α : Type} (h : SinkRel R s t) (a : α)
    : RunRel R (.ok (s, a)) (.ok (t, a)) :=
  ⟨h, rfl⟩

theorem RunRel.bind {α β : Type} {x : Checked β} {f : β → Checked (FmtSink σ × α)}
    {g : β → Checked (FmtSink τ × α)} (h : ∀ b, RunRel R (f b) (g b))
    : RunRel R (x >>= f) (x >>= g) := by
  cases x with
  | error e => exact rfl
  | ok b => exact h b

theorem RunRel.then {α β : Type} {x : Checked (FmtSink σ × α)} {y : Checked (FmtSink τ × α)}
    {f : FmtSink σ × α → Checked (FmtSink σ × β)} {g : FmtSink τ × α → Checked (FmtSink τ × β)}
    (hxy : RunRel R x y) (h : ∀ s t a, SinkRel R s t → RunRel R (f (s, a)) (g (t, a)))
    : RunRel R (x >>= f) (y >>= g) := by
  match x, y, hxy with
  | .error e, .error e', hxy =>
    obtain rfl : e = e' := hxy
    exact rfl
  | .ok (s, a), .ok (t, b), hxy =>
    obtain ⟨hst, rfl⟩ := hxy
    exact h s t a hst

variable (hR : ∀ a b c, R a b → R (emit a c) (emit' b c))

include hR

theorem SinkRel.putc (h : SinkRel R s t) (c : Byte)
    : SinkRel R (fmtPutc emit s c) (fmtPutc emit' t c) where
  ctx := hR _ _ _ h.ctx
  count := by
    show s.count + 1 = t.count + 1
    rw [h.count]

theorem SinkRel.puts (h : SinkRel R s t) (str : Bytes)
    : SinkRel R (fmtPuts emit s str) (fmtPuts emit' t str) := by
  unfold fmtPuts
  induction str generalizing s t with
  | nil => exact h
  | cons c str ih => exact ih (h.putc hR c)

theorem SinkRel.pad (h : SinkRel R s t) (width len : Int) (zero : Bool)
    : SinkRel R (padOut emit s width len zero) (padOut emit' t width len zero) :=
  h.puts hR _

theorem SinkRel.padIf (h : SinkRel R s t) (c : Bool) (width len : Int) (zero : Bool)
    : SinkRel R (if c then padOut emit s width len zero else s)
        (if c then padOut emit' t width len zero else t) := by
  cases c with
  | false => exact h
  | true => exact h.pad hR _ _ _

theorem SinkRel.integer (h : SinkRel R s t) (v : UInt64) (negative : Bool) (base : Nat)
    (upper : Bool) (sp : FmtSpec)
    : SinkRel R (fmtInteger emit s v negative base upper sp)
        (fmtInteger emit' t v negative base upper sp) := by
  apply SinkRel.padIf hR
  apply SinkRel.puts hR
  apply SinkRel.puts hR
  apply SinkRel.padIf hR
  apply SinkRel.puts hR
  apply SinkRel.puts hR
  apply SinkRel.padIf hR
  exact h

theorem SinkRel.padded (h : SinkRel R s t) (sp : FmtSpec) (len : Int)
    {out : FmtSink σ → FmtSink σ} {out' : FmtSink τ → FmtSink τ}
    (hout : ∀ s t, SinkRel R s t → SinkRel R (out s) (out' t))
    : SinkRel R (fmtPadded emit s sp len out) (fmtPadded emit' t sp len out') := by
  apply SinkRel.padIf hR
  apply hout
  apply SinkRel.padIf hR
  exact h

theorem SinkRel.str {α : Type} (h : SinkRel R s t) (sp : FmtSpec) (str : Option Bytes) (a : α)
    : RunRel R (fmtStr emit s sp str >>= fun s => .ok (s, a))
        (fmtStr emit' t sp str >>= fun t => .ok (t, a)) := by
  cases str with
  | none => exact (h.padded hR _ _ fun s t h => h.puts hR _).ok _
  | some str =>
    simp only [fmtStr, bind_assoc]
    apply RunRel.bind
    intro len
    exact (h.padded hR _ _ fun s t h => h.puts hR _).ok _

theorem SinkRel.pointer (h : SinkRel R s t) (sp : FmtSpec) (v : UInt32)
    : SinkRel R (fmtPointer emit s sp v) (fmtPointer emit' t sp v) :=
  h.padded hR _ _ fun _ _ h => (h.puts hR _).puts hR _

theorem SinkRel.conv (h : SinkRel R s t) (sp : FmtSpec) (conv : Byte) (ap : List Arg)
    (stored : List Int32)
    : RunRel R (fmtConv emit fmtDouble s sp conv ap stored)
        (fmtConv emit' fmtDouble t sp conv ap stored) := by
  have hint (neg : Bool) (base : Nat) (upper : Bool) (v : UInt64) (ap : List Arg) :=
    (h.integer hR v neg base upper sp).ok (ap, stored)
  unfold fmtConv
  by_cases hd : conv = 100 ∨ conv = 105
  . rw [if_pos hd, if_pos hd]
    apply RunRel.bind
    rintro ⟨v, ap⟩
    apply hint
  rw [if_neg hd, if_neg hd]
  by_cases hu : conv = 117
  . rw [if_pos hu, if_pos hu]
    apply RunRel.bind
    rintro ⟨v, ap⟩
    apply hint
  rw [if_neg hu, if_neg hu]
  by_cases ho : conv = 111
  . rw [if_pos ho, if_pos ho]
    apply RunRel.bind
    rintro ⟨v, ap⟩
    apply hint
  rw [if_neg ho, if_neg ho]
  by_cases hx : conv = 120 ∨ conv = 88
  . rw [if_pos hx, if_pos hx]
    apply RunRel.bind
    rintro ⟨v, ap⟩
    apply hint
  rw [if_neg hx, if_neg hx]
  by_cases hc : conv = 99
  . rw [if_pos hc, if_pos hc]
    apply RunRel.bind
    rintro ⟨w, ap⟩
    exact (h.padded hR _ _ fun _ _ h => h.putc hR _).ok _
  rw [if_neg hc, if_neg hc]
  by_cases hs : conv = 115
  . rw [if_pos hs, if_pos hs]
    apply RunRel.bind
    rintro ⟨str, ap⟩
    exact h.str hR sp str (ap, stored)
  rw [if_neg hs, if_neg hs]
  by_cases hp : conv = 112
  . rw [if_pos hp, if_pos hp]
    apply RunRel.bind
    rintro ⟨v, ap⟩
    exact (h.pointer hR sp v).ok _
  rw [if_neg hp, if_neg hp]
  by_cases hn : conv = 110
  . rw [if_pos hn, if_pos hn]
    apply RunRel.bind
    intro ap
    rw [h.count]
    exact h.ok _
  rw [if_neg hn, if_neg hn]
  by_cases hf : conv = 102 ∨ conv = 70 ∨ conv = 101 ∨ conv = 69 ∨ conv = 103 ∨ conv = 71
  . rw [if_pos hf, if_pos hf]
    apply RunRel.bind
    rintro ⟨v, ap⟩
    exact (h.puts hR _).ok _
  . rw [if_neg hf, if_neg hf]
    exact ((h.putc hR _).putc hR _).ok _

theorem SinkRel.go (fuel : Nat) (h : SinkRel R s t) (p : Bytes) (ap : List Arg)
    (stored : List Int32)
    : RunRel R (fmtCore.go emit fmtDouble fuel s p ap stored)
        (fmtCore.go emit' fmtDouble fuel t p ap stored) := by
  induction fuel generalizing s t p ap stored with
  | zero => exact rfl
  | succ fuel ih =>
    unfold fmtCore.go
    apply RunRel.bind
    intro c
    by_cases h0 : c = 0
    . rw [if_pos h0, if_pos h0]
      exact h.ok _
    rw [if_neg h0, if_neg h0]
    by_cases h37 : c ≠ 37
    . rw [if_pos h37, if_pos h37]
      exact ih (h.putc hR c) _ _ _
    rw [if_neg h37, if_neg h37]
    apply RunRel.bind
    intro c
    by_cases h0 : c = 0
    . rw [if_pos h0, if_pos h0]
      exact h.ok _
    rw [if_neg h0, if_neg h0]
    by_cases h37 : c = 37
    . rw [if_pos h37, if_pos h37]
      exact ih (h.putc hR 37) _ _ _
    rw [if_neg h37, if_neg h37]
    apply RunRel.bind
    rintro ⟨sp, p, ap⟩
    apply RunRel.bind
    intro conv
    apply RunRel.then (h.conv hR sp conv ap stored)
    rintro s t ⟨ap, stored⟩ h
    exact ih h _ _ _

theorem fmtCore_related (h : SinkRel R s t) (fmt : Bytes) (ap : List Arg)
    : RunRel R (fmtCore emit fmtDouble s fmt ap) (fmtCore emit' fmtDouble t fmt ap) :=
  h.go hR _ _ _ _

end Related

end TanjaOS
