import TanjaOS.Libc.Fmt
import TanjaOS.Libc.Numeral

/-!
The scanning engine behind `scanf` and its relatives. It holds one character of the input in hand that
it may give back.
-/

open Lib

namespace TanjaOS

/--
`struct scanctx` with the characters that `next` still returns. A character is none for -1.
-/
structure ScanCtx where
  input : Bytes
  unget : Option Byte := none
  ungotten : Bool := false
  consumed : Int := 0
  deriving DecidableEq

def scGetc (c : ScanCtx) : Option Byte × ScanCtx :=
  if c.ungotten then
    (c.unget, { c with ungotten := false, consumed := c.consumed + 1 })
  else
    match c.input with
    | [] => (none, c)
    | b :: input => (some b, { c with input, consumed := c.consumed + 1 })

def scUngetc (c : ScanCtx) (ch : Option Byte) : ScanCtx :=
  { c with unget := ch, ungotten := true, consumed := c.consumed - 1 }

def isScanSpace (b : Byte) : Bool :=
  b = 32 ∨ b = 9 ∨ b = 10

section Loops

/--
`while (ch >= 0 && p(ch) && n < lim) ch = sc_getc(c)` with what is read, the character that ends the
loop and the context. No loop makes more rounds than `fuel` is at the call.
-/
def readWhile.go (p : Byte → Bool) (fuel lim : Nat) (ch : Option Byte) (c : ScanCtx)
    : Bytes × Option Byte × ScanCtx :=
  match fuel, ch with
  | 0, _ => ([], ch, c)
  | _, none => ([], none, c)
  | fuel + 1, some b =>
    if p b ∧ 0 < lim then
      let (ch, c) := scGetc c
      let (bs, r) := go p fuel (lim - 1) ch c
      (b :: bs, r)
    else
      ([], some b, c)

def readWhile (p : Byte → Bool) (lim : Nat) (ch : Option Byte) (c : ScanCtx)
    : Bytes × Option Byte × ScanCtx :=
  readWhile.go p (c.input.length + 3) lim ch c

def skipBlanks (c : ScanCtx) : Option Byte × ScanCtx :=
  let (ch, c) := scGetc c
  (readWhile isScanSpace (c.input.length + 3) ch c).2

/--
The loop of `%s`, which leaves the last character in `ch` when it stops at the limit.
-/
def readWord.go (fuel lim : Nat) (ch : Option Byte) (c : ScanCtx) : Bytes × Option Byte × ScanCtx :=
  match fuel, ch with
  | 0, _ => ([], ch, c)
  | _, none => ([], none, c)
  | fuel + 1, some b =>
    if ¬isScanSpace b ∧ 0 < lim then
      if lim ≤ 1 then
        ([b], some b, c)
      else
        let (ch, c) := scGetc c
        let (bs, r) := go fuel (lim - 1) ch c
        (b :: bs, r)
    else
      ([], some b, c)

def readWord (lim : Nat) (ch : Option Byte) (c : ScanCtx) : Bytes × Option Byte × ScanCtx :=
  readWord.go (c.input.length + 3) lim ch c

end Loops

/--
What a conversion meets: the end of the input, something else, or what it asks for.
-/
inductive ScanRes (α : Type) where
  | eof
  | fail
  | got (a : α)
  deriving DecidableEq

/--
A number that `%d` and its relatives have read: its characters, and the value modulo 2^64.
-/
structure ScanNum where
  text : Bytes
  val : UInt64
  deriving DecidableEq

def scanDigit (b : Byte) : Option Nat :=
  if 48 ≤ b ∧ b ≤ 57 then
    some (b.toNat - 48)
  else if 97 ≤ b ∧ b ≤ 102 then
    some (b.toNat - 97 + 10)
  else if 65 ≤ b ∧ b ≤ 70 then
    some (b.toNat - 65 + 10)
  else
    none

def isScanDigit (base : Nat) (b : Byte) : Bool :=
  match scanDigit b with
  | some d => d < base
  | none => false

/--
`conv == 'd' ? 10 : conv == 'o' ? 8 : conv == 'u' ? 10 : 16`
-/
def scanBase (conv : Byte) : Nat :=
  if conv = 100 then 10 else if conv = 111 then 8 else if conv = 117 then 10 else 16

def scanSign (b : Byte) (c : ScanCtx) : Bytes × Bool × Option Byte × ScanCtx :=
  if b = 43 ∨ b = 45 then ([b], b = 45, scGetc c) else ([], false, some b, c)

/--
`%i` looks at what follows a zero. The first results are what is read of a prefix and the base.
-/
def scanPrefix (conv : Byte) (ch : Option Byte) (c : ScanCtx)
    : Bytes × Nat × Option Byte × ScanCtx :=
  if conv = 105 ∧ ch = some 48 then
    let (c2, c) := scGetc c
    match c2 with
    | some x =>
      if x = 120 ∨ x = 88 then ([48, x], 16, scGetc c) else ([], 8, ch, scUngetc c c2)
    | none => ([], 8, ch, scUngetc c none)
  else
    ([], scanBase conv, ch, c)

/--
`if (ch >= 0) sc_ungetc(c, ch)`
-/
def giveBack (c : ScanCtx) (ch : Option Byte) : ScanCtx :=
  match ch with
  | some _ => scUngetc c ch
  | none => c

def scanInt (conv : Byte) (width : Int32) (c : ScanCtx) : ScanRes ScanNum × ScanCtx :=
  match skipBlanks c with
  | (none, c) => (.eof, c)
  | (some b, c) =>
    let (sign, neg, ch, c) := scanSign b c
    let (pre, base, ch, c) := scanPrefix conv ch c
    let (ds, ch, c) := readWhile (isScanDigit base)
      (if width = 0 then 1024 else width.toInt.toNat) ch c
    let c := giveBack c ch
    let val := ds.foldl (fun v d => v * .ofNat base + .ofNat ((scanDigit d).getD 0)) (0 : UInt64)
    if ds = [] then
      (.fail, c)
    else
      (.got ⟨sign ++ pre ++ ds, if neg then 0 - val else val⟩, c)

def scanStr (width : Int32) (c : ScanCtx) : ScanRes Bytes × ScanCtx :=
  match skipBlanks c with
  | (none, c) => (.eof, c)
  | (some b, c) =>
    let (word, ch, c) := readWord (if width = 0 then 1023 else width.toInt.toNat) (some b) c
    let c := if ch.any (!isScanSpace ·) then giveBack c ch else c
    if word = [] then (.fail, c) else (.got word, c)

/--
`%c`, `n` characters are left to read.
-/
def scanChars (n : Nat) (c : ScanCtx) : ScanRes Bytes × ScanCtx :=
  match n with
  | 0 => (.got [], c)
  | n + 1 =>
    match scGetc c with
    | (none, c) => (.eof, c)
    | (some b, c) =>
      match scanChars n c with
      | (.got bs, c) => (.got (b :: bs), c)
      | (_, c) => (.fail, c)

def isDecimal (b : Byte) : Bool :=
  48 ≤ b ∧ b ≤ 57

def readDecimals (ch : Option Byte) (c : ScanCtx) : Bytes × Option Byte × ScanCtx :=
  readWhile isDecimal (c.input.length + 3) ch c

def exponentSign (ch : Option Byte) (c : ScanCtx) : Bytes × Option Byte × ScanCtx :=
  match ch with
  | some b => if b = 43 ∨ b = 45 then ([b], scGetc c) else ([], some b, c)
  | none => ([], none, c)

/--
The exponent of a number, `e` is the character that starts it.
-/
def scanExponent (e : Byte) (c : ScanCtx) : Bytes × ScanCtx :=
  let (ch, c) := scGetc c
  let (sign, ch, c) := exponentSign ch c
  let (ds, ch, c) := readDecimals ch c
  if ds ≠ [] then
    -- the character behind the exponent is not given back
    (e :: sign ++ ds, c)
  else
    -- the sign is given back last, a plus where there is none
    (e :: sign, scUngetc (scUngetc c ch) (some (if sign = [45] then 45 else 43)))

def scanFraction (ch : Option Byte) (c : ScanCtx) : Bytes × Bytes × Option Byte × ScanCtx :=
  if ch = some 46 then
    let (ch, c) := scGetc c
    let (frac, r) := readDecimals ch c
    ([46], frac, r)
  else
    ([], [], ch, c)

def scanFloatEnd (digits : Bytes) (ch : Option Byte) (c : ScanCtx) : Bytes × ScanCtx :=
  match ch with
  | some e => if (e = 101 ∨ e = 69) ∧ digits ≠ [] then scanExponent e c else ([], giveBack c ch)
  | none => ([], c)

/--
`%f` and its relatives, of which the double itself is left out: the result are the characters it is
computed from.
-/
def scanFloat (c : ScanCtx) : ScanRes Bytes × ScanCtx :=
  match skipBlanks c with
  | (none, c) => (.eof, c)
  | (some b, c) =>
    let (sign, _, ch, c) := scanSign b c
    let (whole, ch, c) := readDecimals ch c
    let (point, frac, ch, c) := scanFraction ch c
    let (ex, c) := scanFloatEnd (whole ++ frac) ch c
    if whole ++ frac = [] then
      (.fail, c)
    else
      (.got (sign ++ whole ++ point ++ frac ++ ex), c)

section Format

/--
What stands between a `%` and the conversion character, and that character.
-/
structure ScanSpec where
  suppress : Bool := false
  width : Int32 := 0
  lmod : Lmod := .none
  conv : Byte
  deriving DecidableEq

/--
A round of the loop over the format: white space, a character to match, or a conversion.
-/
inductive ScanItem where
  | blank
  | lit (b : Byte)
  | conv (sp : ScanSpec)
  deriving DecidableEq

def scanWidth (p : Bytes) (width : Int32) : Int32 × Bytes :=
  match p with
  | [] => (width, [])
  | b :: p =>
    if 48 ≤ b ∧ b ≤ 57 then scanWidth p (width * 10 + .ofNat (b.toNat - 48)) else (width, b :: p)

def scanLongs (p : Bytes) (lmod : Lmod) : Lmod × Bytes :=
  match p with
  | [] => (lmod, [])
  | b :: p =>
    if b = 108 then scanLongs p (if lmod = .l then .ll else .l) else (lmod, b :: p)

/--
`if (*p == c) { lmod = new; p++; }`
-/
def scanOne (c : Byte) (new : Lmod) (lmod : Lmod) (p : Bytes) : Lmod × Bytes :=
  if p.head? = some c then (new, p.tail) else (lmod, p)

def scanHalf (lmod : Lmod) (p : Bytes) : Lmod × Bytes :=
  if p.head? = some 104 then scanOne 104 .hh .h p.tail else (lmod, p)

def scanLmod (p : Bytes) : Lmod × Bytes :=
  let (lmod, p) := scanLongs p .none
  let (lmod, p) := scanHalf lmod p
  let (lmod, p) := scanOne 76 .L lmod p
  scanOne 122 .l lmod p

/--
What the format goes on with, and the format behind it. There is none at its end, also where that is
inside a conversion.
-/
def nextItem (p : Bytes) : Option (ScanItem × Bytes) :=
  match p with
  | [] => none
  | b :: p =>
    if isScanSpace b then
      some (.blank, p)
    else if b ≠ 37 then
      some (.lit b, p)
    else if p.head? = some 37 then
      some (.lit 37, p.tail)
    else
      let suppress := p.head? = some 42
      let (width, p) := scanWidth (p.dropWhile (· = 42)) 0
      let (lmod, p) := scanLmod p
      match p with
      | [] => none
      | conv :: p => some (.conv { suppress, width, lmod, conv }, p)

end Format

/--
What a conversion stores. A double is given by the characters that it is computed from.
-/
inductive ScanVal where
  | int (v : Int32)
  | long (v : Int32)
  | llong (v : Int64)
  | short (v : Int16)
  | schar (v : Int8)
  | chars (bs : Bytes)
  | str (bs : Bytes)
  | float (lmod : Lmod) (text : Bytes)
  | count (n : Int32)
  deriving DecidableEq

/--
The characters that a round of the loop has taken, and what it has stored if it does.
-/
structure Scanned where
  text : Bytes
  val : Option ScanVal := none
  deriving DecidableEq

def scanStore (lmod : Lmod) (val : UInt64) : ScanVal :=
  match lmod with
  | .ll => .llong val.toInt64
  | .l => .long val.toUInt32.toInt32
  | .h => .short val.toUInt16.toInt16
  | .hh => .schar val.toUInt8.toInt8
  | .none | .L => .int val.toUInt32.toInt32

/--
What is scanned, with what is stored of it unless the conversion is suppressed.
-/
def scanTaken {α : Type} (suppress : Bool) (r : ScanRes α × ScanCtx) (text : α → Bytes)
    (val : α → ScanVal) : ScanRes Scanned × ScanCtx :=
  match r with
  | (.eof, c) => (.eof, c)
  | (.fail, c) => (.fail, c)
  | (.got a, c) => (.got ⟨text a, if suppress then none else some (val a)⟩, c)

def scanConv (sp : ScanSpec) (c : ScanCtx) : ScanRes Scanned × ScanCtx :=
  -- n
  if sp.conv = 110 then
    (.got ⟨[], some (.count (.ofInt c.consumed))⟩, c)
  -- c
  else if sp.conv = 99 then
    scanTaken sp.suppress (scanChars (if sp.width = 0 then 1 else sp.width.toInt.toNat) c) id .chars
  -- s
  else if sp.conv = 115 then
    scanTaken sp.suppress (scanStr sp.width c) id .str
  -- d i u x X o
  else if sp.conv ∈ ([100, 105, 117, 120, 88, 111] : Bytes) then
    scanTaken sp.suppress (scanInt sp.conv sp.width c) (·.text) (scanStore sp.lmod ·.val)
  -- f e E g G a A
  else if sp.conv ∈ ([102, 101, 69, 103, 71, 97, 65] : Bytes) then
    scanTaken sp.suppress (scanFloat c) id (.float sp.lmod)
  else
    (.fail, c)

/--
A round of the loop. The characters of the format are signed, none above 127 is one of the input.
-/
def scanItem (it : ScanItem) (c : ScanCtx) : ScanRes Scanned × ScanCtx :=
  match it with
  | .blank =>
    let (ch, c) := skipBlanks c
    (.got ⟨[], none⟩, giveBack c ch)
  | .lit b =>
    match scGetc c with
    | (none, c) => (.eof, c)
    | (some ch, c) =>
      if b < 128 ∧ ch = b then (.got ⟨[ch], none⟩, c) else (.fail, scUngetc c (some ch))
  | .conv sp => scanConv sp c

/--
What the loop leaves: the rounds that went well, the result, the context and the rest of the format.
-/
structure ScanRun where
  items : List Scanned
  ret : Int
  ctx : ScanCtx
  rest : Bytes
  deriving DecidableEq

def ScanVal.counts : ScanVal → Bool
  | .count _ => false
  | _ => true

/--
`assigned`
-/
def assigned (items : List Scanned) : Nat :=
  items.countP fun a => a.val.any ScanVal.counts

/--
The loop over the format, `fuel` counts its rounds and `items` are those so far.
-/
def vscanCore.go (fuel : Nat) (p : Bytes) (c : ScanCtx) (items : List Scanned) : ScanRun :=
  match fuel, nextItem p with
  | 0, _ => ⟨items, assigned items, c, p⟩
  | _, none => ⟨items, assigned items, c, p⟩
  | fuel + 1, some (it, p') =>
    match scanItem it c with
    | (.eof, c) => ⟨items, if assigned items = 0 then -1 else assigned items, c, p⟩
    | (.fail, c) => ⟨items, assigned items, c, p⟩
    | (.got a, c) => go fuel p' c (items ++ [a])

def vscanCore (c : ScanCtx) (fmt : Bytes) : ScanRun :=
  vscanCore.go fmt.length fmt c []

def vsscanf (str fmt : CStr) : ScanRun :=
  vscanCore { input := str.val } fmt.val

/--
`file` is what is left to read of the file.
-/
def vfscanf (file : Bytes) (fmt : CStr) : ScanRun :=
  vscanCore { input := file } fmt.val

def ScanRun.stored (r : ScanRun) : List ScanVal :=
  r.items.filterMap (·.val)

end TanjaOS
