import TanjaOS.Lib.Copy
import TanjaOS.Lib.Mem

/-!
The gap buffer of the editor. All its counters are `int`s, sums of values that come from a caller
wrap around.
-/

open Lib

namespace TanjaOS

def maxText : Nat := 512 * 1024 + 1

/--
A sum as it is found in an `int`.
-/
def int32 (x : Int) : Int :=
  x.bmod (2 ^ 32)

structure EditorBuffer where
  data : Int → Byte
  gapStart : Int
  gapEnd : Int
  len : Int

/--
What `push_undo` keeps of the text.
-/
structure Snap where
  len : Int
  pos : Int
  scroll : Int
  data : Bytes

namespace EditorBuffer

def textAt (eb : EditorBuffer) (pos : Int) : Byte :=
  if pos < 0 ∨ eb.len ≤ pos then
    0
  else if pos < eb.gapStart then
    eb.data pos
  else
    eb.data (pos + (eb.gapEnd - eb.gapStart))

def moveGap (eb : EditorBuffer) (pos : Int) : EditorBuffer :=
  let pos := if pos < 0 then 0 else pos
  let pos := if eb.len < pos then eb.len else pos
  if pos = eb.gapStart then
    eb
  else if pos < eb.gapStart then
    let n := eb.gapStart - pos
    { eb with
      data := copyDown eb.data (eb.gapEnd - n) pos n.toNat
      gapStart := eb.gapStart - n
      gapEnd := eb.gapEnd - n }
  else
    let n := pos - eb.gapStart
    { eb with
      data := copyUp eb.data eb.gapStart eb.gapEnd n.toNat
      gapStart := eb.gapStart + n
      gapEnd := eb.gapEnd + n }

def insertByte (eb : EditorBuffer) (pos : Int) (ch : Byte) : Int × EditorBuffer :=
  -- `MAX_TEXT` is unsigned, and so is the comparison
  if (maxText - 1 : Int) ≤ eb.len % 2 ^ 32 then
    (0, eb)
  else if eb.gapEnd ≤ eb.gapStart then
    (0, eb)
  else
    let eb := eb.moveGap pos
    (1, { eb with
      data := Function.update eb.data eb.gapStart ch
      gapStart := eb.gapStart + 1
      len := eb.len + 1 })

def deleteRange (eb : EditorBuffer) (pos count : Int) : EditorBuffer :=
  if count ≤ 0 ∨ pos < 0 ∨ eb.len ≤ pos then
    eb
  else
    let count := if eb.len < int32 (pos + count) then eb.len - pos else count
    let eb := eb.moveGap pos
    { eb with
      gapEnd := int32 (eb.gapEnd + count)
      len := int32 (eb.len - count) }

def flatten (eb : EditorBuffer) : Bytes :=
  (List.range eb.len.toNat).map (fun i : Nat => eb.textAt i) ++ [0]

/--
How many bytes of `s` went in, and the buffer with them.
-/
def insertBytes (eb : EditorBuffer) (pos : Int) (s : Bytes) : Int × EditorBuffer :=
  go pos 0 s eb
where
  go (pos i : Int) (s : Bytes) (eb : EditorBuffer) : Int × EditorBuffer :=
    match s with
    | [] => (i, eb)
    | ch :: s =>
      let (done, eb) := eb.insertByte (int32 (pos + i)) ch
      if done = 0 then (i, eb) else go pos (i + 1) s eb

/--
`bs` in front, the rest as it was.
-/
def store (data : Int → Byte) (bs : Bytes) (i : Int) : Byte :=
  if 0 ≤ i then (bs[i.toNat]?).getD (data i) else data i

/--
Take `bs` for the text, as `load_file` does with what it has read.
-/
def load (eb : EditorBuffer) (bs : Bytes) : EditorBuffer where
  data := Function.update (store eb.data bs) (maxText - 1 : Int) 0
  gapStart := bs.length
  gapEnd := maxText - 1
  len := bs.length

def snapshot (eb : EditorBuffer) (pos scroll : Int) : Snap :=
  ⟨eb.len, pos, scroll, eb.flatten⟩

/--
The part of `snap_restore` that is about the buffer.
-/
def snapRestore (eb : EditorBuffer) (s : Snap) : EditorBuffer where
  data := Function.update (store eb.data (s.data.take s.len.toNat)) (maxText - 1 : Int) 0
  gapStart := s.len
  gapEnd := maxText - 1
  len := s.len

end EditorBuffer

end TanjaOS
