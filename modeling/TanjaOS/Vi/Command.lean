import TanjaOS.Vi.Motion

/-!
The registers, the operators that fill them, and the keys that put text into the buffer.
-/

open Lib

namespace TanjaOS

def regCap : Nat := 16384

def undoDepth : Nat := 6

/--
`data` is as long as `len` says.
-/
structure Reg where
  data : Bytes
  lines : Bool

inductive ViMode where
  | command
  | insert
  | replace
  deriving DecidableEq

inductive ViOp where
  | d
  | c
  | y
  deriving DecidableEq

inductive MotionMode where
  | excl
  | incl
  | back
  | eol
  | line
  deriving DecidableEq

structure ViMotion where
  ok : Bool
  target : Int
  mode : MotionMode
  mkey : Int

inductive ChangeKind where
  | none
  | ins
  | overwrite
  | del
  deriving DecidableEq

structure LastChange where
  kind : ChangeKind
  count : Int
  motion : Int
  mode : MotionMode
  text : Bytes

/--
The variables of the editor. The rings of snapshots are lists, the latest in front, and `sessBuf` is as
long as `sesslen` says.
-/
structure ViState where
  eb : EditorBuffer
  gPos : Int
  gScroll : Int
  gCols : Int
  gMode : ViMode
  gModified : Bool
  undo : List Snap
  redo : List Snap
  regs : Int → Reg
  viMsg : Option String
  stCount : Int
  sessBuf : Bytes
  sessCount : Int
  lastch : LastChange
  optAi : Bool

def regIndex (c : Int) : Int :=
  if c = 34 then 0
  else if 97 ≤ c ∧ c ≤ 122 then 1 + (c - 97)
  else if 49 ≤ c ∧ c ≤ 57 then 27 + (c - 49)
  else -1

namespace EditorBuffer

/--
What `extract_to_opbuf` leaves in `opbuf`.
-/
def extractToOpbuf (eb : EditorBuffer) (start stop : Int) : Bytes :=
  if start < stop then
    (List.range (min (stop - start) regCap).toNat).map (fun i : Nat => eb.textAt (start + i))
  else
    []

def extractLines (eb : EditorBuffer) (lo hi : Int) : Bytes :=
  let opbuf := eb.extractToOpbuf lo hi
  if opbuf ≠ [] ∧ opbuf.getLast? ≠ some 10 ∧ opbuf.length < regCap then opbuf ++ [10] else opbuf

def lineRange (eb : EditorBuffer) (fromLine toLine : Int) : Int × Int :=
  let a := min fromLine toLine
  let b := max fromLine toLine
  let hi := eb.lineEndNumber b
  (eb.lineStartNumber a, if hi < eb.len then hi + 1 else hi)

/--
The blanks from `p` on, up to `n` of them.
-/
def indentAt (eb : EditorBuffer) (p : Int) (n : Nat) : Bytes :=
  match n with
  | 0 => []
  | n + 1 =>
    if p < eb.len ∧ blankChar (eb.textAt p) then eb.textAt p :: eb.indentAt (p + 1) n else []

def insertLinesAt (eb : EditorBuffer) (pos : Int) (data : Bytes) : EditorBuffer :=
  if eb.len ≤ pos ∧ 0 < eb.len ∧ eb.textAt (eb.len - 1) ≠ 10 then
    let eb := (eb.insertByte eb.len 10).2
    (eb.insertBytes eb.len data).2
  else
    (eb.insertBytes pos data).2

/--
`count` copies one behind the other, the `i`-th at `pos + i * len`.
-/
def insertCopies (eb : EditorBuffer) (pos : Int) (data : Bytes) (i : Int) (count : Nat) : EditorBuffer :=
  match count with
  | 0 => eb
  | count + 1 =>
    let eb := (eb.insertBytes (int32 (pos + int32 (i * data.length))) data).2
    eb.insertCopies pos data (i + 1) count

end EditorBuffer

namespace ViState

def pushUndo (v : ViState) : ViState :=
  { v with
    undo := (v.eb.snapshot v.gPos v.gScroll :: v.undo).take undoDepth
    redo := [] }

def changeBegin (v : ViState) : ViState :=
  { v.pushUndo with gModified := true }

section Registers

def regStore (v : ViState) (c : Int) (data : Bytes) (lines : Bool) : ViState :=
  let idx := regIndex c
  if idx < 0 then
    v
  else
    { v with
      viMsg := if regCap < data.length then some "register too long, clipped" else v.viMsg
      regs := Function.update v.regs idx ⟨data.take regCap, lines⟩ }

def regStoreBoth (v : ViState) (c : Int) (data : Bytes) (lines : Bool) : ViState :=
  let v := v.regStore 34 data lines
  if c ≠ 34 then v.regStore c data lines else v

def regShiftNumbered (v : ViState) : ViState :=
  { v with regs := fun i => if 28 ≤ i ∧ i ≤ 35 then v.regs (i - 1) else v.regs i }

end Registers

def beginInsertSession (v : ViState) (captureCount : Bool) : ViState :=
  { v with
    gMode := .insert
    sessBuf := []
    sessCount := if captureCount ∧ v.stCount ≠ 0 then v.stCount else 1
    gModified := true }

/--
Insert the bytes at the cursor and go on, whether there was room or not.
-/
def insertIndent (v : ViState) (ind : Bytes) : ViState :=
  match ind with
  | [] => v
  | ch :: ind => insertIndent { v with eb := (v.eb.insertByte v.gPos ch).2, gPos := v.gPos + 1 } ind

section Operators

def opCharwise (v : ViState) (op : ViOp) (start stop : Int) (reg : Int) : ViState :=
  let opbuf := v.eb.extractToOpbuf start stop
  if op = .y then
    v.regStoreBoth reg opbuf false
  else
    let v := v.changeBegin.regStoreBoth reg opbuf false
    let eb := v.eb.deleteRange start (stop - start)
    let pos := if start < v.gPos then start else v.gPos
    let v := { v with eb := eb, gPos := if eb.len < pos then eb.len else pos }
    if op = .c then v.beginInsertSession false else v

def opLinewise (v : ViState) (op : ViOp) (targetLine : Int) (reg : Int) : ViState :=
  let b := if targetLine < 0 then 0 else targetLine
  let b := if v.eb.totalLines ≤ b then v.eb.totalLines - 1 else b
  let (lo, hi) := v.eb.lineRange (v.eb.lineNumberAt v.gPos) b
  let opbuf := v.eb.extractLines lo hi
  match op with
  | .y =>
    let v := v.regStoreBoth reg opbuf true
    { v with gPos := v.eb.firstNonblank lo }
  | .c =>
    let ind := v.eb.indentAt lo 126
    let hadNl := hi < v.eb.len
    let v := v.changeBegin.regShiftNumbered.regStoreBoth reg opbuf true
    let eb := v.eb.deleteRange lo (hi - lo)
    let eb := if hadNl then (eb.insertByte lo 10).2 else eb
    let v := { v with eb := eb, gPos := lo }
    (v.insertIndent ind).beginInsertSession false
  | .d =>
    let v := v.changeBegin
    -- the last line takes the newline before it along
    let dlo := if v.eb.len ≤ hi ∧ 0 < lo then lo - 1 else lo
    let v := (v.regShiftNumbered.regStore 49 opbuf true).regStoreBoth reg opbuf true
    let eb := v.eb.deleteRange dlo (hi - dlo)
    { v with
      eb := eb
      gPos := if eb.len < dlo then eb.len else dlo
      lastch := { v.lastch with kind := .del, motion := 0, mode := .line, count := 1 } }

def charRange (v : ViState) (m : ViMotion) : Int × Int :=
  let (start, stop) :=
    match m.mode with
    | .excl => (min v.gPos m.target, max v.gPos m.target)
    | .incl => (v.gPos, if v.eb.len ≤ m.target then v.eb.len else m.target + v.eb.cpLen m.target)
    | .back => (m.target, v.gPos)
    | .eol => (v.gPos, v.eb.lineEnd v.gPos)
    | .line => (0, 0)
  (start, min stop v.eb.len)

/--
`cw` leaves the blanks in front of the next word alone.
-/
def cutBlanks (v : ViState) (start stop : Int) : Int :=
  if (List.range (stop - start).toNat).all (fun i : Nat => blankChar (v.eb.textAt (start + i))) then
    stop
  else
    scanDown (fun i => blankChar (v.eb.textAt (i - 1))) (stop - start).toNat stop

def applyOp (v : ViState) (op : ViOp) (count : Int) (m : ViMotion) (reg : Int) : ViState :=
  if ¬m.ok then
    v
  else if m.mode = .line then
    record (v.opLinewise op m.target reg)
  else
    let (start, stop) := v.charRange m
    if stop ≤ start then
      v
    else
      let stop := if op = .c ∧ (m.mkey = 119 ∨ m.mkey = 87) then v.cutBlanks start stop else stop
      record (v.opCharwise op start stop reg)
where
  record (v : ViState) : ViState :=
    if op = .d then
      { v with lastch := { v.lastch with kind := .del, motion := m.mkey, mode := m.mode, count := count } }
    else
      v

end Operators

section Keys

/--
The loop of `x`, where it ends and how many characters it has passed.
-/
def charsForward (v : ViState) (count : Nat) (p n : Int) : Int × Int :=
  match count with
  | 0 => (p, n)
  | count + 1 =>
    if p < v.eb.len ∧ v.eb.textAt p ≠ 10 then
      v.charsForward count (v.eb.stepForward p) (n + 1)
    else
      (p, n)

/--
The loop of `X`.
-/
def charsBackward (v : ViState) (count : Nat) (p n : Int) : Int × Int :=
  match count with
  | 0 => (p, n)
  | count + 1 =>
    if 0 < p then v.charsBackward count (v.eb.stepBackward p) (n + 1) else (p, n)

/--
The key `x`.
-/
def deleteForward (v : ViState) (count : Int) (reg : Int) : ViState :=
  let (p, n) := v.charsForward count.toNat v.gPos 0
  if 0 < n then v.applyOp .d n ⟨true, p, .excl, 108⟩ reg else v

/--
The key `X`.
-/
def deleteBackward (v : ViState) (count : Int) (reg : Int) : ViState :=
  let (p, n) := v.charsBackward count.toNat v.gPos 0
  if 0 < n then v.applyOp .d n ⟨true, p, .back, 104⟩ reg else v

/--
The key `D`.
-/
def deleteToEnd (v : ViState) (reg : Int) : ViState :=
  v.applyOp .d 1 ⟨true, v.eb.lineEnd v.gPos, .eol, 36⟩ reg

def doPut (v : ViState) (after : Bool) (count : Int) (reg : Int) : ViState :=
  let r := v.regs (regIndex reg)
  if regIndex reg < 0 ∨ r.data = [] then
    { v with viMsg := some "register empty" }
  else
    let v := v.changeBegin
    if r.lines then
      putLines v r.data
    else
      let pos := if after then v.eb.stepForward v.gPos else v.gPos
      let pos := if v.eb.len < pos then v.eb.len else pos
      let eb := v.eb.insertCopies pos r.data 0 count.toNat
      let end_ := eb.stepBackward (int32 (pos + int32 (count * r.data.length)))
      { v with eb := eb, gPos := if end_ < 0 then 0 else end_ }
where
  putLines (v : ViState) (data : Bytes) : ViState :=
    let stop := v.eb.lineEnd v.gPos
    let pos := if after then (if stop < v.eb.len then stop + 1 else stop) else v.eb.lineStart v.gPos
    let missing := v.eb.len ≤ pos ∧ 0 < v.eb.len ∧ v.eb.textAt (v.eb.len - 1) ≠ 10
    let eb := if missing then (v.eb.insertByte v.eb.len 10).2 else v.eb
    let pos := if missing then eb.len else pos
    let eb := eb.insertCopies pos data 0 count.toNat
    { v with eb := eb, gPos := eb.firstNonblank pos }

/--
The commands `:t` and, if `move` says so, `:m`, from the addresses on.
-/
def exTransfer (v : ViState) (move : Bool) (a1 a2 dst : Int) : ViState :=
  let dst := if dst < 0 then v.eb.lineNumberAt v.gPos else dst
  let a1 := if a1 < 0 then v.eb.lineNumberAt v.gPos else a1
  let a2 := if a2 < 0 then a1 else a2
  let (lo, hi) := v.eb.lineRange a1 a2
  let n := hi - lo
  if 65536 < n then
    { v with viMsg := some "range too large" }
  else
    let copybuf := (List.range n.toNat).map (fun i : Nat => v.eb.textAt (lo + i))
    if move ∧ a1 - 1 ≤ dst ∧ dst ≤ a2 then
      { v with viMsg := some "move into itself" }
    else
      let v := v.changeBegin
      let cut : ViState × Int :=
        if move then
          let opbuf := v.eb.extractToOpbuf lo hi
          let v := v.regShiftNumbered.regStoreBoth 34 opbuf true
          ({ v with eb := v.eb.deleteRange lo n }, if a1 ≤ dst then dst - (a2 - a1 + 1) else dst)
        else
          (v, dst)
      paste cut.1 cut.2 copybuf
where
  paste (v : ViState) (dst : Int) (copybuf : Bytes) : ViState :=
    let insertAt := v.eb.lineEndNumber dst
    let insertAt := if insertAt < v.eb.len then insertAt + 1 else insertAt
    let eb := v.eb.insertLinesAt insertAt copybuf
    let insertAt := if eb.len ≤ insertAt then eb.len else insertAt
    { v with eb := eb, gPos := eb.firstNonblank insertAt }

end Keys

section Sessions

def gEnterInsert (v : ViState) (capture : Bool) : ViState :=
  { v.pushUndo with gModified := true }.beginInsertSession capture

def gEnterReplace (v : ViState) : ViState :=
  { v.pushUndo with
    gModified := true
    gMode := .replace
    sessBuf := []
    sessCount := if v.stCount ≠ 0 then v.stCount else 1 }

def endSession (v : ViState) (kind : ChangeKind) : ViState :=
  { v with lastch := { v.lastch with kind := kind, text := v.sessBuf, count := v.sessCount } }

def sessCapture (v : ViState) (c : Byte) : ViState :=
  { v with sessBuf := if v.sessBuf.length < 4095 then v.sessBuf ++ [c] else v.sessBuf }

/--
`count` times all of `s`, byte after byte at the cursor, which stays where it is.
-/
def insertHere (eb : EditorBuffer) (pos : Int) (s : Bytes) (count : Nat) : EditorBuffer :=
  match count with
  | 0 => eb
  | count + 1 => insertHere (s.foldl (fun eb ch => (eb.insertByte pos ch).2) eb) pos s count

/--
The blanks that the line before starts with, up to `n` of them.
-/
def autoIndent (v : ViState) (n : Nat) (ls : Int) : ViState :=
  match n with
  | 0 => v
  | n + 1 =>
    if ls < v.eb.len ∧ blankChar (v.eb.textAt ls) ∧ ls < v.gPos then
      let c2 := v.eb.textAt ls
      let v := { v with eb := (v.eb.insertByte v.gPos c2).2 }.sessCapture c2
      { v with gPos := v.gPos + 1 }.autoIndent n (ls + 1)
    else
      v

def typeByte (v : ViState) (ch : Byte) : ViState :=
  let (done, eb) := v.eb.insertByte v.gPos ch
  if done = 0 then { v with eb := eb } else { v with eb := eb, gPos := v.gPos + 1 }.sessCapture ch

def insertEsc (v : ViState) : ViState :=
  let v := { v with gMode := .command, gPos := v.eb.stepBackward v.gPos }
  let v :=
    if 1 < v.sessCount ∧ v.sessBuf ≠ [] then
      { v with
        eb := insertHere v.eb v.gPos v.sessBuf (v.sessCount - 1).toNat
        gPos := int32 (v.gPos + int32 ((v.sessCount - 1) * v.sessBuf.length)) }
    else
      v
  v.endSession .ins

def insertBackspace (v : ViState) : ViState :=
  let pos := v.eb.stepBackward v.gPos
  if v.gPos ≠ pos then
    { v with eb := v.eb.deleteRange pos (v.gPos - pos), gPos := pos, sessBuf := v.sessBuf.dropLast }
  else
    { v with gPos := pos }

def insertEnter (v : ViState) : ViState :=
  let (done, _) := v.eb.insertByte v.gPos 10
  let v := v.typeByte 10
  if done ≠ 0 ∧ v.optAi then
    let ls := v.eb.lineStart (v.gPos - 1)
    v.autoIndent (v.gPos - ls).toNat ls
  else
    v

/--
Escape is 27, Backspace 0x85 or 8, `CTRL('w')` 23, Enter 0x84 or 10, the arrows are 0x80 to 0x83.
-/
def insertKey (v : ViState) (key : Int) : ViState :=
  if key = 27 then
    v.insertEsc
  else if key = 0x85 ∨ key = 8 then
    v.insertBackspace
  else if key = 23 then
    let t := v.eb.backWordStart v.gPos 1
    if t < v.gPos then { v with eb := v.eb.deleteRange t (v.gPos - t), gPos := t } else v
  else if key = 0x84 ∨ key = 10 then
    v.insertEnter
  else if key = 9 then
    v.typeByte 9
  else if 32 ≤ key ∧ key ≤ 126 then
    v.typeByte (UInt8.ofNat key.toNat)
  else
    arrowKey v key
where
  arrowKey (v : ViState) (key : Int) : ViState :=
    if key = 0x82 then { v with gPos := v.eb.stepBackward v.gPos }
    else if key = 0x83 then { v with gPos := v.eb.stepForward v.gPos }
    else if key = 0x80 ∨ key = 0x81 then
      { v with gPos := v.eb.moveVertical v.gCols v.gPos (if key = 0x80 then -1 else 1) }
    else v

def overtype (v : ViState) (ch : Byte) : ViState :=
  let eb :=
    if v.gPos < v.eb.len ∧ v.eb.textAt v.gPos ≠ 10 then
      v.eb.deleteRange v.gPos (v.eb.cpLen v.gPos)
    else
      v.eb
  { v with eb := (eb.insertByte v.gPos ch).2, gPos := v.gPos + 1 }

def replaceKey (v : ViState) (key : Int) : ViState :=
  if key = 27 then
    { v with gMode := .command }.endSession .overwrite
  else if key = 0x85 ∨ key = 8 then
    { v with gPos := v.eb.stepBackward v.gPos }
  else if key = 0x84 ∨ key = 10 then
    v.typeByte 10
  else if 32 ≤ key ∧ key ≤ 126 ∨ key = 9 then
    (v.overtype (UInt8.ofNat key.toNat)).sessCapture (UInt8.ofNat key.toNat)
  else
    insertKey.arrowKey v key

/--
`count` times all of `s`, over what is at the cursor.
-/
def overtypeAll (v : ViState) (s : Bytes) (count : Nat) : ViState :=
  match count with
  | 0 => v
  | count + 1 => (s.foldl overtype v).overtypeAll s count

/--
`none` for a deletion, which is repeated by its motion.
-/
def replayLast (v : ViState) : Option ViState :=
  match v.lastch.kind with
  | .none => some v
  | .ins =>
    let v := v.changeBegin
    let eb := insertHere v.eb v.gPos v.lastch.text v.lastch.count.toNat
    let pos := int32 (v.gPos + int32 (v.lastch.text.length * v.lastch.count))
    some { v with eb := eb, gPos := if eb.len < pos then eb.len else pos }
  | .overwrite => some (v.changeBegin.overtypeAll v.lastch.text v.lastch.count.toNat)
  | .del => none

/--
The keys `o` and, if `above` says so, `O`.
-/
def openLine (v : ViState) (above : Bool) : ViState :=
  let ls := v.eb.lineStart v.gPos
  let ind := v.eb.indentAt ls 126
  let v := v.gEnterInsert true
  let at_ := if above then ls else v.eb.lineEnd v.gPos
  let v := { v with eb := (v.eb.insertByte at_ 10).2, gPos := if above then ls else at_ + 1 }
  let v := v.sessCapture 10
  if v.optAi then indent v ind else v
where
  indent (v : ViState) (ind : Bytes) : ViState :=
    match ind with
    | [] => v
    | ch :: ind =>
      let v := { v with eb := (v.eb.insertByte v.gPos ch).2 }.sessCapture ch
      indent { v with gPos := v.gPos + 1 } ind

end Sessions

end ViState

end TanjaOS
