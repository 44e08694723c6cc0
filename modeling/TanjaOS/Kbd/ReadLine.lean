import TanjaOS.Kbd.Keys
import TanjaOS.Lib.Copy

/-!
The line editor: `read_line` keeps the line and draws it again from the prompt on after every edit. When the line
runs out of the screen it scrolls, and the prompt moves up with the rest of the screen.
-/

open Lib

namespace TanjaOS

section Impl

def keyEnter : Nat := 0x84

def keyBackspace : Nat := 0x85

/--
The size of `input_line`.
-/
def inputLineSize : Int := 65536

def vgaColor : UInt16 := 0x0F00

def blankCell : UInt16 := vgaColor ||| 32

/--
`VGA`, with a record of the indices that have been written.
-/
structure Vga where
  cell : Int → UInt16
  written : List Int

namespace Vga

def put (v : Vga) (i : Int) (c : UInt16) : Vga where
  cell := Function.update v.cell i c
  written := i :: v.written

/--
`scroll` without the cursor.
-/
def scroll (v : Vga) : Vga where
  cell i := if 1920 ≤ i ∧ i < 2000 then blankCell else copyUp v.cell 0 80 1920 i
  written := (List.range 2000).map Int.ofNat ++ v.written

end Vga

/--
The variables of `read_line` with `input_line`, the cursor and the screen.
-/
structure LineEdit where
  line : Int → Byte
  pos : Int
  len : Int
  promptStart : Int
  cursor : Int
  vga : Vga

namespace LineEdit

/--
A call with the cursor at `cursor`.
-/
def start (line : Int → Byte) (cursor : Int) (cell : Int → UInt16) : LineEdit where
  line := line
  pos := 0
  len := 0
  promptStart := cursor
  cursor := cursor
  vga := { cell, written := [] }

def syncCursor (s : LineEdit) : LineEdit :=
  let cursor := if s.cursor < 0 then 0 else s.cursor
  { s with cursor := if cursor > 1999 then 1999 else cursor }

/--
`console_putc` of a character that is drawn or of a newline. What the UTF-8 decoder still waits for is dropped by
both.
-/
def putc (s : LineEdit) (c : Byte) : LineEdit :=
  let s :=
    if c = 10 then
      { s with cursor := (s.cursor.tdiv 80 + 1) * 80 }
    else
      { s with vga := s.vga.put s.cursor (vgaColor ||| c.toUInt16), cursor := s.cursor + 1 }
  let s := if 2000 ≤ s.cursor then { s with vga := s.vga.scroll, cursor := 1920 } else s
  s.syncCursor

/--
The body of the loop that draws the line again, for the byte `i`.
-/
def drawByte (s : LineEdit) (i : Int) : LineEdit :=
  let s :=
    if 2000 ≤ s.cursor then
      { s with vga := s.vga.scroll, promptStart := s.promptStart - 80, cursor := s.promptStart - 80 + i }
    else
      s
  { s with vga := s.vga.put s.cursor (vgaColor ||| (s.line i).toUInt16), cursor := s.cursor + 1 }

def redraw : (n : Nat) → (i : Int) → LineEdit → LineEdit
  | 0, _, s => s
  | n + 1, i, s => redraw n (i + 1) (s.drawByte i)

def draw (s : LineEdit) : LineEdit :=
  redraw s.len.toNat 0 { s with cursor := s.promptStart }

def moveTo (s : LineEdit) (pos : Int) : LineEdit :=
  { s with pos, cursor := s.promptStart + pos }.syncCursor

def deleteByte (s : LineEdit) : LineEdit :=
  let line := copyUp s.line (s.pos - 1) s.pos (s.len - s.pos).toNat
  { s with line := Function.update line (s.len - 1) 0, pos := s.pos - 1, len := s.len - 1 }

def insertByte (s : LineEdit) (key : Nat) : LineEdit :=
  let line := copyDown s.line (s.pos + 1) s.pos (s.len - s.pos).toNat
  let line := Function.update line s.pos (.ofNat key)
  { s with line := Function.update line (s.len + 1) 0, pos := s.pos + 1, len := s.len + 1 }

def blankEnd (s : LineEdit) : LineEdit :=
  if s.cursor < 2000 then { s with vga := s.vga.put s.cursor blankCell } else s

def scrollCaret (s : LineEdit) : LineEdit :=
  if 2000 ≤ s.promptStart + s.pos then
    { s with vga := s.vga.scroll, promptStart := s.promptStart - 80, cursor := 1920 }
  else
    s

def backspace (s : LineEdit) : LineEdit :=
  if 0 < s.pos then
    s.deleteByte.draw.blankEnd.moveTo (s.pos - 1)
  else
    s

def insert (s : LineEdit) (key : Nat) : LineEdit :=
  if s.len < inputLineSize - 1 then
    (s.insertByte key).draw.scrollCaret.moveTo (s.pos + 1)
  else
    s

def key (s : LineEdit) (key : Nat) : LineEdit :=
  if key = 8 ∨ key = keyBackspace then
    s.backspace
  else if key = keyLeft then
    if 0 < s.pos then s.moveTo (s.pos - 1) else s
  else if key = keyRight then
    if s.pos < s.len then s.moveTo (s.pos + 1) else s
  else if key = keyUp ∨ key = keyDown then
    s
  else if 32 ≤ key ∧ key ≤ 126 then
    s.insert key
  else
    s

/--
The loop up to the key that ends the line, and whether that is the end of the input.
-/
def readLine (s : LineEdit) : (keys : List Nat) → Option (LineEdit × Bool)
  | [] => none
  | key :: keys =>
    if key = 10 ∨ key = keyEnter then
      some (s.putc 10, false)
    else if key = 4 then
      some (s, true)
    else if key = 3 then
      some (((({ s with line := Function.update s.line 0 0, len := 0 }.putc 94).putc 67).putc 10), false)
    else
      (s.key key).readLine keys

/--
What is copied to a buffer of `maxLen` bytes.
-/
def buffer (s : LineEdit) (maxLen : Int) (eof : Bool) : Bytes :=
  let copyLen := if maxLen ≤ s.len then maxLen - 1 else s.len
  let bytes := (List.range copyLen.toNat).map (fun i : Nat => s.line i)
  if eof ∧ copyLen < maxLen - 1 then bytes ++ [4, 0] else bytes ++ [0]

end LineEdit

end Impl

section Spec

structure Editor where
  before : Bytes
  after : Bytes

namespace Editor

def empty : Editor where
  before := []
  after := []

def text (t : Editor) : Bytes :=
  t.before ++ t.after

def Inserts (t : Editor) (key : Nat) : Prop :=
  (32 ≤ key ∧ key ≤ 126) ∧ t.text.length < 65535

def Deletes (t : Editor) (key : Nat) : Prop :=
  (key = 8 ∨ key = keyBackspace) ∧ t.before ≠ []

instance (t : Editor) (key : Nat) : Decidable (t.Inserts key) :=
  inferInstanceAs (Decidable (_ ∧ _))

instance (t : Editor) (key : Nat) : Decidable (t.Deletes key) :=
  inferInstanceAs (Decidable (_ ∧ _))

def key (t : Editor) (key : Nat) : Editor :=
  if t.Deletes key then
    { t with before := t.before.dropLast }
  else if t.Inserts key then
    { t with before := t.before ++ [.ofNat key] }
  else if key = keyLeft then
    ⟨t.before.dropLast, t.before.getLast?.toList ++ t.after⟩
  else if key = keyRight then
    ⟨t.before ++ t.after.head?.toList, t.after.tail⟩
  else
    t

/--
The key makes the text reach the end of the screen when the prompt is at column `column` of the first row.
-/
def Fills (column : Int) (t : Editor) (key : Nat) : Prop :=
  t.Inserts key ∧ (column + t.text.length = 2000 ∨ column + t.text.length = 1999 ∧ t.after = [])

instance (column : Int) (t : Editor) (key : Nat) : Decidable (t.Fills column key) :=
  inferInstanceAs (Decidable (_ ∧ _))

def Still (t : Editor) : List Nat → Prop
  | [] => True
  | key :: keys => ¬t.Inserts key ∧ ¬t.Deletes key ∧ (t.key key).Still keys

/--
The text does not reach the end of the screen, unless that is its last change.
-/
def Fits (column : Int) (t : Editor) : List Nat → Prop
  | [] => True
  | key :: keys => if t.Fills column key then (t.key key).Still keys else (t.key key).Fits column keys

end Editor

namespace Editor

variable {t : Editor} {k : Nat}

theorem not_inserts_left (t : Editor) : ¬t.Inserts keyLeft :=
  fun h => absurd h.1.2 (by decide)

theorem not_inserts_right (t : Editor) : ¬t.Inserts keyRight :=
  fun h => absurd h.1.2 (by decide)

theorem key_other (hdel : ¬t.Deletes k) (hins : ¬t.Inserts k) (hleft : k ≠ keyLeft) (hright : k ≠ keyRight)
    : t.key k = t := by
  unfold key
  rw [if_neg hdel, if_neg hins, if_neg hleft, if_neg hright]

theorem key_left (t : Editor)
    : (t.key keyLeft).text = t.text ∧ (t.key keyLeft).before.length = t.before.length - 1 := by
  have hdel : ¬t.Deletes keyLeft := by
    rintro ⟨hkey | hkey, _⟩
    . exact absurd hkey (by decide)
    . exact absurd hkey (by decide)
  unfold key
  rw [if_neg hdel, if_neg t.not_inserts_left, if_pos rfl]
  refine ⟨?_, List.length_dropLast⟩
  unfold text
  rcases List.eq_nil_or_concat t.before with hnil | ⟨b, x, hlast⟩
  . rw [hnil]
    rfl
  . rw [hlast]
    simp

theorem key_right (t : Editor)
    : (t.key keyRight).text = t.text
      ∧ (t.key keyRight).before.length = min (t.before.length + 1) t.text.length := by
  have hdel : ¬t.Deletes keyRight := by
    rintro ⟨hkey | hkey, _⟩
    . exact absurd hkey (by decide)
    . exact absurd hkey (by decide)
  have hne : keyRight ≠ keyLeft := by decide
  unfold key
  rw [if_neg hdel, if_neg t.not_inserts_right, if_neg hne, if_pos rfl]
  unfold text
  cases t.after with
  | nil => exact ⟨by simp, by simp⟩
  | cons c after => exact ⟨by simp, by simp⟩

end Editor

end Spec

namespace LineEdit

variable {s : LineEdit} {t : Editor} {n : Nat} {i : Int}

def Inside (s : LineEdit) : Prop :=
  ∀ x ∈ s.vga.written, 0 ≤ x ∧ x < 2000

structure Shows (s : LineEdit) (t : Editor) : Prop where
  pos : s.pos = t.before.length
  len : s.len = t.text.length
  line : ∀ i : Nat, i < t.text.length → t.text[i]? = some (s.line i)
  cap : t.text.length ≤ 65535

structure Placed (s : LineEdit) : Prop where
  room : s.promptStart + s.len ≤ 2000
  start : s.promptStart < 2000
  cursor : 0 ≤ s.cursor ∧ s.cursor < 2000

section Drawing

theorem inside_scroll {v : Vga} (x : Int) : x ∈ v.scroll.written ↔ (0 ≤ x ∧ x < 2000) ∨ x ∈ v.written := by
  unfold Vga.scroll
  rw [List.mem_append, List.mem_map]
  apply or_congr_left
  constructor
  . rintro ⟨k, hk, rfl⟩
    have hlt := List.mem_range.mp hk
    exact ⟨Int.natCast_nonneg k, by show (k : Int) < 2000; omega⟩
  . rintro ⟨hpos, hlt⟩
    exact ⟨x.toNat, List.mem_range.mpr (by omega), Int.toNat_of_nonneg hpos⟩

theorem syncCursor_cursor (s : LineEdit) : 0 ≤ s.syncCursor.cursor ∧ s.syncCursor.cursor < 2000 := by
  unfold syncCursor
  dsimp only
  split
  . omega
  . split at * <;> omega

structure Redrawn (s s' : LineEdit) (n : Nat) (i : Int) : Prop where
  line : s'.line = s.line
  pos : s'.pos = s.pos
  len : s'.len = s.len
  prompt : s'.promptStart = s.promptStart - if s.promptStart + i + n = 2001 then 80 else 0
  cursor : s'.cursor = s'.promptStart + i + n

theorem drawn (hcursor : s.cursor = s.promptStart + i) (hi : s.promptStart + i ≤ 2000)
    : Redrawn s (s.drawByte i) 1 i := by
  unfold drawByte
  by_cases hend : 2000 ≤ s.cursor
  . rw [if_pos hend]
    refine ⟨rfl, rfl, rfl, ?_, by dsimp only; omega⟩
    rw [if_pos (by omega)]
  . rw [if_neg hend]
    refine ⟨rfl, rfl, rfl, ?_, by dsimp only; omega⟩
    rw [if_neg (by omega), Int.sub_zero]

theorem redrawn (hcursor : s.cursor = s.promptStart + i) (hi : s.promptStart + i ≤ 2000)
    (hn : s.promptStart + i + n ≤ 2001)
    : Redrawn s (redraw n i s) n i := by
  induction n generalizing s i with
  | zero =>
    refine ⟨rfl, rfl, rfl, ?_, ?_⟩
    . rw [if_neg (by omega), Int.sub_zero]
      rfl
    . show s.cursor = s.promptStart + i + 0
      omega
  | succ n ih =>
    have hone := drawn hcursor hi
    have hprompt := hone.prompt
    have hcur := hone.cursor
    have hnext : (s.drawByte i).promptStart + (i + 1) ≤ 2000 ∧ (s.drawByte i).promptStart + (i + 1) + n ≤ 2001 := by
      split at hprompt
      . omega
      . omega
    have hrest := ih (i := i + 1) (by omega) hnext.1 hnext.2
    have hprompt' := hrest.prompt
    have hcur' := hrest.cursor
    refine ⟨hrest.line.trans hone.line, hrest.pos.trans hone.pos, hrest.len.trans hone.len, ?_, ?_⟩
    . show (redraw n (i + 1) (s.drawByte i)).promptStart = _
      rw [hprompt']
      split at hprompt
      . rw [if_neg (by omega), if_pos (by omega)]
        omega
      . split
        . rw [if_pos (by omega)]
          omega
        . rw [if_neg (by omega)]
          omega
    . show (redraw n (i + 1) (s.drawByte i)).cursor = (redraw n (i + 1) (s.drawByte i)).promptStart + i + (n + 1 : Nat)
      omega

theorem drawByte_written (i : Int) : ∀ x ∈ s.vga.written, x ∈ (s.drawByte i).vga.written := by
  intro x hx
  unfold drawByte
  apply List.mem_cons_of_mem
  split
  . exact (inside_scroll x).mpr (.inr hx)
  . exact hx

theorem drawByte_inside (hcursor : s.cursor = s.promptStart + i) (hpos : 0 ≤ s.promptStart + i)
    (hi : s.promptStart + i ≤ 2000) (h : s.Inside)
    : (s.drawByte i).Inside := by
  unfold drawByte
  intro x hx
  by_cases hend : 2000 ≤ s.cursor
  . rw [if_pos hend] at hx
    rcases List.mem_cons.mp hx with rfl | hx
    . dsimp only
      omega
    . exact ((inside_scroll x).mp hx).elim id (h x)
  . rw [if_neg hend] at hx
    rcases List.mem_cons.mp hx with rfl | hx
    . omega
    . exact h x hx

theorem redraw_written (n : Nat) (i : Int) (s : LineEdit) : ∀ x ∈ s.vga.written, x ∈ (redraw n i s).vga.written := by
  induction n generalizing i s with
  | zero => exact fun x hx => hx
  | succ n ih => exact fun x hx => ih (i + 1) (s.drawByte i) x (drawByte_written i x hx)

theorem redraw_first (hn : 0 < n) (hcursor : s.cursor < 2000) : s.cursor ∈ (redraw n i s).vga.written := by
  obtain ⟨n, rfl⟩ := Nat.exists_eq_succ_of_ne_zero (Nat.pos_iff_ne_zero.mp hn)
  show s.cursor ∈ (redraw n (i + 1) (s.drawByte i)).vga.written
  apply redraw_written
  unfold drawByte
  rw [if_neg (by omega)]
  exact List.mem_cons_self

theorem redraw_inside (hcursor : s.cursor = s.promptStart + i) (hpos : 0 ≤ s.promptStart + i)
    (hi : s.promptStart + i ≤ 2000) (hn : s.promptStart + i + n ≤ 2001) (h : s.Inside)
    : (redraw n i s).Inside := by
  induction n generalizing s i with
  | zero => exact h
  | succ n ih =>
    have hone := drawn hcursor hi
    have hprompt := hone.prompt
    have hcur := hone.cursor
    apply ih (i := i + 1)
    . omega
    . split at hprompt <;> omega
    . split at hprompt <;> omega
    . split at hprompt <;> omega
    . exact drawByte_inside hcursor hpos hi h

end Drawing

section Text

variable {b c : Bytes} {x : Byte} {line : Int → Byte}

theorem insert_line (h : ∀ i : Nat, i < (b ++ c).length → (b ++ c)[i]? = some (line i)) (i : Nat)
    (hi : i < (b ++ [x] ++ c).length)
    : (b ++ [x] ++ c)[i]? = some (Function.update (Function.update
        (copyDown line (b.length + 1) b.length c.length) b.length x) ((b ++ c).length + 1) 0 i) := by
  rw [List.length_append, List.length_append, List.length_singleton] at hi
  rw [Function.update_of_ne (by rw [List.length_append]; omega)]
  rcases Nat.lt_trichotomy i b.length with hlt | rfl | hgt
  . rw [Function.update_of_ne (by omega), copyDown_apply (by omega), if_neg (by omega)]
    rw [List.append_assoc, List.getElem?_append_left hlt, ← h i (by rw [List.length_append]; omega),
      List.getElem?_append_left hlt]
  . rw [Function.update_self]
    simp
  . rw [Function.update_of_ne (by omega), copyDown_apply (by omega), if_pos (by omega)]
    obtain ⟨k, rfl⟩ : ∃ k, i = b.length + 1 + k := ⟨i - b.length - 1, by omega⟩
    have hold := h (b.length + k) (by rw [List.length_append]; omega)
    rw [List.getElem?_append_right (by omega), Nat.add_sub_cancel_left] at hold
    rw [List.getElem?_append_right (by simp), List.length_append, List.length_singleton, Nat.add_sub_cancel_left, hold]
    congr 2
    omega

theorem delete_line (h : ∀ i : Nat, i < (b ++ [x] ++ c).length → (b ++ [x] ++ c)[i]? = some (line i)) (i : Nat)
    (hi : i < (b ++ c).length)
    : (b ++ c)[i]? = some (Function.update (copyUp line b.length (b.length + 1) c.length) ((b ++ c).length) 0 i) := by
  rw [Function.update_of_ne (by omega), copyUp_apply (by omega)]
  rw [List.length_append] at hi
  by_cases hlt : i < b.length
  . rw [if_neg (by omega), ← h i (by simp; omega), List.append_assoc, List.getElem?_append_left hlt,
      List.getElem?_append_left hlt]
  . obtain ⟨k, rfl⟩ := Nat.exists_eq_add_of_le (Nat.le_of_not_lt hlt)
    have hold := h (b.length + 1 + k) (by simp; omega)
    rw [List.getElem?_append_right (by simp), List.length_append, List.length_singleton,
      Nat.add_sub_cancel_left] at hold
    rw [if_pos (by omega), List.getElem?_append_right (by omega), Nat.add_sub_cancel_left, hold]
    congr 2
    omega

end Text

section Keys

/--
What a key does: it edits the text as the abstract editor does, it makes the prompt move up when the line gets to the
end of the screen, and it writes outside of the screen if it draws a line that begins outside of it.
-/
structure Keyed (s s' : LineEdit) (t : Editor) (key : Nat) : Prop where
  shows : s'.Shows (t.key key)
  placed : s'.Placed
  prompt : s'.promptStart = s.promptStart
    - if t.Inserts key ∧ (s.promptStart + t.text.length = 2000 ∨ s.promptStart + t.text.length = 1999 ∧ t.after = [])
      then 80 else 0
  inside : s'.Inside ↔ s.Inside ∧ (t.Inserts key ∨ t.Deletes key → 0 ≤ s.promptStart)

theorem Shows.same (h : s.Shows t) {t' : Editor} (htext : t'.text = t.text) (hpos : s.pos = t'.before.length)
    : s.Shows t' := by
  refine ⟨hpos, ?_, ?_, ?_⟩
  . rw [htext]
    exact h.len
  . rw [htext]
    exact h.line
  . rw [htext]
    exact h.cap

theorem Shows.moveTo (h : s.Shows t) (hp : s.Placed) {t' : Editor} {pos : Int} (htext : t'.text = t.text)
    (hpos : pos = t'.before.length)
    : (s.moveTo pos).Shows t' ∧ (s.moveTo pos).Placed := by
  refine ⟨⟨hpos, ?_, ?_, ?_⟩, ⟨hp.room, hp.start, syncCursor_cursor _⟩⟩
  . rw [htext]
    exact h.len
  . rw [htext]
    exact h.line
  . rw [htext]
    exact h.cap

theorem Keyed.quiet {s' : LineEdit} {key : Nat} (hins : ¬t.Inserts key) (hdel : ¬t.Deletes key)
    (hkey : s'.Shows (t.key key) ∧ s'.Placed) (hprompt : s'.promptStart = s.promptStart) (hvga : s'.vga = s.vga)
    : Keyed s s' t key := by
  refine ⟨hkey.1, hkey.2, ?_, ?_⟩
  . rw [if_neg (fun h => hins h.1), Int.sub_zero]
    exact hprompt
  . unfold Inside
    rw [hvga]
    constructor
    . intro h
      exact ⟨h, fun hedit => (hedit.elim hins hdel).elim⟩
    . exact fun h => h.1

theorem drawn_line (hlen : 0 ≤ s.len) (hstart : s.promptStart ≤ 2000) (hroom : s.promptStart + s.len ≤ 2001)
    : s.draw.line = s.line ∧ s.draw.pos = s.pos ∧ s.draw.len = s.len
      ∧ s.draw.promptStart = s.promptStart - (if s.promptStart + s.len = 2001 then 80 else 0)
      ∧ s.draw.cursor = s.draw.promptStart + s.len := by
  have hn : (s.len.toNat : Int) = s.len := Int.toNat_of_nonneg hlen
  obtain ⟨hline, hpos, hlen', hprompt, hcursor⟩ := redrawn (s := { s with cursor := s.promptStart }) (i := 0)
    (n := s.len.toNat) (by dsimp only; omega) (by dsimp only; omega) (by dsimp only; omega)
  rw [hn, Int.add_zero] at hprompt hcursor
  exact ⟨hline, hpos, hlen', hprompt, hcursor⟩

theorem draw_inside (hlen : 0 ≤ s.len) (hstart : s.promptStart < 2000) (hroom : s.promptStart + s.len ≤ 2001)
    : (s.Inside ∧ 0 ≤ s.promptStart → s.draw.Inside)
      ∧ (s.draw.Inside → s.Inside ∧ (0 < s.len → 0 ≤ s.promptStart)) := by
  have hn : (s.len.toNat : Int) = s.len := Int.toNat_of_nonneg hlen
  constructor
  . rintro ⟨hin, hpos⟩
    apply redraw_inside
    . exact (Int.add_zero _).symm
    . dsimp only
      omega
    . dsimp only
      omega
    . dsimp only
      omega
    . exact hin
  . intro h
    refine ⟨fun x hx => h x (redraw_written _ _ _ x hx), fun hpos => ?_⟩
    exact (h s.promptStart (redraw_first (s := { s with cursor := s.promptStart }) (by omega) hstart)).1

theorem inside_put (s : LineEdit) (x : Int) (c : UInt16)
    : Inside { s with vga := s.vga.put x c } ↔ (0 ≤ x ∧ x < 2000) ∧ s.Inside :=
  List.forall_mem_cons

theorem scrollCaret_spec (s : LineEdit)
    : s.scrollCaret.line = s.line ∧ s.scrollCaret.len = s.len
      ∧ s.scrollCaret.promptStart = s.promptStart - (if 2000 ≤ s.promptStart + s.pos then 80 else 0)
      ∧ (s.scrollCaret.Inside ↔ s.Inside) := by
  unfold scrollCaret
  split
  . refine ⟨rfl, rfl, rfl, ?_⟩
    constructor
    . exact fun h x hx => h x ((inside_scroll x).mpr (.inr hx))
    . exact fun h x hx => ((inside_scroll x).mp hx).elim id (h x)
  . exact ⟨rfl, rfl, (Int.sub_zero _).symm, Iff.rfl⟩

theorem Shows.deleted (h : s.Shows t) (hp : s.Placed) {key : Nat} (hdel : t.Deletes key)
    : Keyed s s.backspace t key := by
  obtain ⟨hkey, hne⟩ := hdel
  obtain ⟨b, x, hb⟩ : ∃ b x, t.before = b ++ [x] := ⟨_, _, (List.dropLast_append_getLast hne).symm⟩
  have hlen := h.len
  have hpos := h.pos
  have hat := h.line
  have hroom := hp.room
  have hplace := hp.start
  have htext : t.text = b ++ [x] ++ t.after := by
    unfold Editor.text
    rw [hb]
  have htlen : t.text.length = b.length + 1 + t.after.length := by
    rw [htext, List.length_append, List.length_append, List.length_singleton]
  have hblen : s.pos = b.length + 1 := by
    rw [hpos, hb, List.length_append, List.length_singleton]
    rfl
  have hnew : t.key key = { before := b, after := t.after } := by
    unfold Editor.key
    rw [if_pos ⟨hkey, hne⟩, hb, List.dropLast_concat]
  have hins : ¬t.Inserts key := by
    rintro ⟨⟨hlow, hhigh⟩, _⟩
    rcases hkey with rfl | rfl
    . omega
    . exact absurd hhigh (by decide)
  have hcut : s.deleteByte.len = s.len - 1 := rfl
  have hstart : s.deleteByte.promptStart = s.promptStart := rfl
  obtain ⟨hline, _, hlen', hprompt, hcursor⟩ := drawn_line (s := s.deleteByte) (by omega) (by omega) (by omega)
  obtain ⟨hfwd, hback⟩ := draw_inside (s := s.deleteByte) (by omega) (by omega) (by omega)
  rw [if_neg (by omega), Int.sub_zero] at hprompt
  have hblank : s.deleteByte.draw.blankEnd = { s.deleteByte.draw with
      vga := s.deleteByte.draw.vga.put s.deleteByte.draw.cursor blankCell } := if_pos (by omega)
  unfold backspace
  rw [if_pos (by omega), hblank]
  have hnewlen : ((b ++ t.after).length : Int) = s.len - 1 := by
    rw [List.length_append]
    omega
  refine ⟨⟨?_, ?_, ?_, ?_⟩, ⟨?_, ?_, syncCursor_cursor _⟩, ?_, ?_⟩
  . rw [hnew]
    show s.pos - 1 = (b.length : Int)
    omega
  . rw [hnew]
    show s.deleteByte.draw.len = ((b ++ t.after).length : Int)
    omega
  . rw [hnew]
    intro i hi
    show (b ++ t.after)[i]? = some (s.deleteByte.draw.line i)
    have hafter : (s.len - s.pos).toNat = t.after.length := by omega
    have hleft : s.pos - 1 = b.length := by omega
    rw [hline]
    unfold deleteByte
    dsimp only
    rw [← hnewlen, hafter, hleft, hblen]
    rw [htext] at hat
    exact delete_line hat i hi
  . rw [hnew]
    show (b ++ t.after).length ≤ 65535
    have hcap := h.cap
    rw [List.length_append]
    omega
  . show s.deleteByte.draw.promptStart + s.deleteByte.draw.len ≤ 2000
    omega
  . show s.deleteByte.draw.promptStart < 2000
    omega
  . rw [if_neg (fun h => hins h.1), Int.sub_zero]
    exact hprompt
  . show Inside { s.deleteByte.draw with vga := s.deleteByte.draw.vga.put s.deleteByte.draw.cursor blankCell } ↔ _
    rw [inside_put]
    constructor
    . rintro ⟨hcell, hin⟩
      refine ⟨(hback hin).1, fun _ => ?_⟩
      have := (hback hin).2
      omega
    . rintro ⟨hin, hedit⟩
      have hnonneg := hedit (.inr ⟨hkey, hne⟩)
      exact ⟨by omega, hfwd ⟨hin, hnonneg⟩⟩

theorem Shows.inserted (h : s.Shows t) (hp : s.Placed) {key : Nat} (hins : t.Inserts key)
    : Keyed s (s.insert key) t key := by
  obtain ⟨hkey, hroomy⟩ := hins
  have hlen := h.len
  have hpos := h.pos
  have hat := h.line
  have hroom := hp.room
  have hplace := hp.start
  have htlen : t.text.length = t.before.length + t.after.length := List.length_append
  have hdel : ¬t.Deletes key := by
    rintro ⟨hdel, _⟩
    rcases hdel with rfl | rfl
    . omega
    . exact absurd hkey.2 (by decide)
  have hnew : t.key key = { before := t.before ++ [.ofNat key], after := t.after } := by
    unfold Editor.key
    rw [if_neg hdel, if_pos ⟨hkey, hroomy⟩]
  have hgrown : (s.insertByte key).len = s.len + 1 := rfl
  have hstart : (s.insertByte key).promptStart = s.promptStart := rfl
  obtain ⟨hline, hpos', hlen', hprompt, hcursor⟩ := drawn_line (s := s.insertByte key) (by omega) (by omega) (by omega)
  obtain ⟨hfwd, hback⟩ := draw_inside (s := s.insertByte key) (by omega) (by omega) (by omega)
  have hposnew : (s.insertByte key).pos = s.pos + 1 := rfl
  have hnewlen : ((t.before ++ [UInt8.ofNat key] ++ t.after).length : Int) = s.len + 1 := by
    rw [List.length_append, List.length_append, List.length_singleton]
    omega
  obtain ⟨hcline, hclen, hcprompt, hcinside⟩ := scrollCaret_spec (s.insertByte key).draw
  unfold insert
  rw [if_pos (by unfold inputLineSize; omega)]
  refine ⟨⟨?_, ?_, ?_, ?_⟩, ⟨?_, ?_, syncCursor_cursor _⟩, ?_, ?_⟩
  . rw [hnew]
    show s.pos + 1 = ((t.before ++ [UInt8.ofNat key]).length : Int)
    rw [List.length_append, List.length_singleton]
    omega
  . rw [hnew]
    show (s.insertByte key).draw.scrollCaret.len = ((t.before ++ [UInt8.ofNat key] ++ t.after).length : Int)
    omega
  . rw [hnew]
    intro i hi
    show (t.before ++ [UInt8.ofNat key] ++ t.after)[i]? = some ((s.insertByte key).draw.scrollCaret.line i)
    have hafter : (s.len - s.pos).toNat = t.after.length := by omega
    have hold : s.len = ((t.before ++ t.after).length : Int) := hlen
    rw [hcline, hline]
    unfold insertByte
    dsimp only
    rw [hafter, hold, hpos]
    exact insert_line hat i hi
  . rw [hnew]
    show (t.before ++ [UInt8.ofNat key] ++ t.after).length ≤ 65535
    omega
  . show (s.insertByte key).draw.scrollCaret.promptStart + (s.insertByte key).draw.scrollCaret.len ≤ 2000
    split at hprompt
    . split at hcprompt <;> omega
    . split at hcprompt <;> omega
  . show (s.insertByte key).draw.scrollCaret.promptStart < 2000
    split at hprompt
    . split at hcprompt <;> omega
    . split at hcprompt <;> omega
  . show (s.insertByte key).draw.scrollCaret.promptStart = _
    rw [hcprompt, hprompt, hpos', hposnew, hgrown, hstart]
    by_cases hfull : s.promptStart + t.text.length = 2000
    . -- the line itself needs the next row
      have hrow : s.promptStart + (s.len + 1) = 2001 := by omega
      rw [if_pos hrow, if_neg (by omega), if_pos ⟨⟨hkey, hroomy⟩, .inl hfull⟩]
      omega
    . have hrow : ¬s.promptStart + (s.len + 1) = 2001 := by omega
      rw [if_neg hrow, Int.sub_zero]
      by_cases hlast : s.promptStart + t.text.length = 1999 ∧ t.after = []
      . -- only the caret needs it
        have hnone : t.after.length = 0 := by rw [hlast.2]; rfl
        rw [if_pos (by omega), if_pos ⟨⟨hkey, hroomy⟩, .inr hlast⟩]
      . have hcaret : ¬2000 ≤ s.promptStart + (s.pos + 1) := by
          intro hge
          refine hlast ⟨by omega, List.eq_nil_of_length_eq_zero (by omega)⟩
        rw [if_neg hcaret, if_neg (fun h => h.2.elim hfull hlast)]
  . show Inside (s.insertByte key).draw.scrollCaret ↔ _
    rw [hcinside]
    constructor
    . intro hin
      obtain ⟨hin, hnonneg⟩ := hback hin
      exact ⟨hin, fun _ => hnonneg (by omega)⟩
    . rintro ⟨hin, hedit⟩
      exact hfwd ⟨hin, hedit (.inl ⟨hkey, hroomy⟩)⟩

theorem keyed (h : s.Shows t) (hp : s.Placed) (key : Nat) : Keyed s (s.key key) t key := by
  have hpos := h.pos
  have hlen := h.len
  have htlen : t.text.length = t.before.length + t.after.length := List.length_append
  unfold LineEdit.key
  by_cases hback : key = 8 ∨ key = keyBackspace
  . rw [if_pos hback]
    have hins : ¬t.Inserts key := by
      rintro ⟨⟨hlow, hhigh⟩, _⟩
      rcases hback with rfl | rfl
      . omega
      . exact absurd hhigh (by decide)
    by_cases hne : t.before = []
    . have hdel : ¬t.Deletes key := fun hdel => hdel.2 hne
      have hzero : s.pos = 0 := by
        rw [hpos, hne]
        rfl
      have hstay : t.key key = t := by
        apply Editor.key_other hdel hins
        . rcases hback with rfl | rfl <;> decide
        . rcases hback with rfl | rfl <;> decide
      unfold backspace
      rw [if_neg (by omega)]
      exact .quiet hins hdel ⟨by rw [hstay]; exact h, hp⟩ rfl rfl
    . exact h.deleted hp ⟨hback, hne⟩
  . rw [if_neg hback]
    have hdel : ¬t.Deletes key := fun hdel => hback hdel.1
    by_cases hleft : key = keyLeft
    . subst hleft
      have hins := t.not_inserts_left
      rw [if_pos rfl]
      obtain ⟨htext, hbefore⟩ := t.key_left
      split
      . exact .quiet hins hdel (h.moveTo hp htext (by omega)) rfl rfl
      . exact .quiet hins hdel ⟨h.same htext (by omega), hp⟩ rfl rfl
    . rw [if_neg hleft]
      by_cases hright : key = keyRight
      . subst hright
        have hins := t.not_inserts_right
        rw [if_pos rfl]
        obtain ⟨htext, hbefore⟩ := t.key_right
        split
        . exact .quiet hins hdel (h.moveTo hp htext (by omega)) rfl rfl
        . exact .quiet hins hdel ⟨h.same htext (by omega), hp⟩ rfl rfl
      . rw [if_neg hright]
        by_cases hins : t.Inserts key
        . have hvertical : ¬(key = keyUp ∨ key = keyDown) := by
            have hhigh := hins.1.2
            rintro (rfl | rfl)
            . exact absurd hhigh (by decide)
            . exact absurd hhigh (by decide)
          rw [if_neg hvertical, if_pos hins.1]
          exact h.inserted hp hins
        . have hstay := Editor.key_other hdel hins hleft hright
          have hquiet : Keyed s s t key := .quiet hins hdel ⟨by rw [hstay]; exact h, hp⟩ rfl rfl
          split
          . exact hquiet
          . split
            . next hprint =>
              have hfull : ¬t.text.length < 65535 := fun hlt => hins ⟨hprint, hlt⟩
              unfold insert
              rw [if_neg (by unfold inputLineSize; omega)]
              exact hquiet
            . exact hquiet

end Keys

section Run

theorem inside_run (column : Int) (hcolumn : 0 ≤ column ∧ column < 80) (keys : List Nat) (h : s.Shows t)
    (hp : s.Placed) (hmod : s.promptStart % 80 = column)
    : (keys.foldl key s).Shows (keys.foldl Editor.key t)
      ∧ (0 ≤ s.promptStart → ((keys.foldl key s).Inside ↔ s.Inside ∧ t.Fits column keys))
      ∧ (s.promptStart < 0 → ((keys.foldl key s).Inside ↔ s.Inside ∧ t.Still keys)) := by
  induction keys generalizing s t with
  | nil =>
    have hfits : t.Fits column [] := trivial
    have hstill : t.Still [] := trivial
    exact ⟨h, fun _ => (and_iff_left hfits).symm, fun _ => (and_iff_left hstill).symm⟩
  | cons k keys ih =>
    obtain ⟨hshows, hplaced, hprompt, hinside⟩ := keyed h hp k
    have hlen := h.len
    have hroom := hp.room
    have hmod' : (s.key k).promptStart % 80 = column := by
      split at hprompt <;> omega
    obtain ⟨hrun, hfits, hstill⟩ := ih hshows hplaced hmod'
    refine ⟨hrun, fun hnonneg => ?_, fun hneg => ?_⟩
    . have hsame : (s.key k).Inside ↔ s.Inside := hinside.trans (and_iff_left fun _ => hnonneg)
      rw [List.foldl_cons, Editor.Fits]
      by_cases hfills : t.Fills column k
      . -- the prompt is in the first row, and leaves the screen
        rw [if_pos hfills]
        have hfirst : s.promptStart = column := by
          rcases hfills.2 with hfull | hlast
          . omega
          . omega
        rw [if_pos ⟨hfills.1, by rw [hfirst]; exact hfills.2⟩] at hprompt
        rw [hstill (by omega), hsame]
      . rw [if_neg hfills]
        have hon : 0 ≤ (s.key k).promptStart := by
          split at hprompt
          . next hscroll =>
            have hrow : s.promptStart ≠ column := by
              intro hfirst
              rw [hfirst] at hscroll
              exact hfills hscroll
            omega
          . omega
        rw [hfits hon, hsame]
    . have hoff : (s.key k).promptStart < 0 := by
        split at hprompt <;> omega
      rw [List.foldl_cons, hstill hoff, hinside, Editor.Still]
      constructor
      . rintro ⟨⟨hin, hedit⟩, hrest⟩
        refine ⟨hin, fun hins => ?_, fun hdel => ?_, hrest⟩
        . have := hedit (.inl hins)
          omega
        . have := hedit (.inr hdel)
          omega
      . rintro ⟨hin, hins, hdel, hrest⟩
        exact ⟨⟨hin, fun hedit => (hedit.elim hins hdel).elim⟩, hrest⟩

/--
The keys that end the line.
-/
def Ends (key : Nat) : Prop :=
  key = 10 ∨ key = keyEnter ∨ key = 4 ∨ key = 3

theorem readLine_enter (keys : List Nat) (hkeys : ∀ k ∈ keys, ¬Ends k) {enter : Nat}
    (henter : enter = 10 ∨ enter = keyEnter)
    : s.readLine (keys ++ [enter]) = some ((keys.foldl key s).putc 10, false) := by
  induction keys generalizing s with
  | nil =>
    show (if enter = 10 ∨ enter = keyEnter then _ else _) = _
    exact if_pos henter
  | cons k keys ih =>
    have hend := hkeys k List.mem_cons_self
    unfold Ends at hend
    rw [List.cons_append, readLine, if_neg (by tauto), if_neg (by tauto), if_neg (by tauto)]
    exact ih (fun k' hk' => hkeys k' (List.mem_cons_of_mem k hk'))

theorem putc_newline (s : LineEdit)
    : (s.putc 10).line = s.line ∧ (s.putc 10).len = s.len ∧ ((s.putc 10).Inside ↔ s.Inside) := by
  unfold putc
  rw [if_pos rfl]
  dsimp only
  split
  . refine ⟨rfl, rfl, ?_⟩
    constructor
    . exact fun h x hx => h x ((inside_scroll x).mpr (.inr hx))
    . exact fun h x hx => ((inside_scroll x).mp hx).elim id (h x)
  . exact ⟨rfl, rfl, Iff.rfl⟩

theorem buffer_of_line {maxLen : Int} (hmax : 0 < maxLen) (hlen : s.len = t.text.length)
    (hline : ∀ i : Nat, i < t.text.length → t.text[i]? = some (s.line i))
    : s.buffer maxLen false = t.text.take (maxLen - 1).toNat ++ [0] := by
  unfold buffer
  dsimp only
  rw [if_neg (by simp)]
  congr 1
  apply List.ext_getElem?
  intro i
  rw [List.getElem?_map, List.getElem?_take]
  have hcopy : i < (if maxLen ≤ s.len then maxLen - 1 else s.len).toNat
      ↔ i < (maxLen - 1).toNat ∧ i < t.text.length := by
    split <;> omega
  by_cases hi : i < (maxLen - 1).toNat ∧ i < t.text.length
  . rw [List.getElem?_range (hcopy.mpr hi), if_pos hi.1, hline i hi.2]
    rfl
  . rw [List.getElem?_eq_none (by rw [List.length_range]; exact Nat.le_of_not_lt (fun h => hi (hcopy.mp h)))]
    split
    . next hlt => exact (List.getElem?_eq_none (Nat.le_of_not_lt fun h => hi ⟨hlt, h⟩)).symm
    . rfl

theorem start_shows (line : Int → Byte) (cell : Int → UInt16) {cursor : Int} (hcursor : 0 ≤ cursor ∧ cursor < 2000)
    : (start line cursor cell).Shows .empty ∧ (start line cursor cell).Placed := by
  refine ⟨⟨rfl, rfl, ?_, by decide⟩, ⟨?_, hcursor.2, hcursor⟩⟩
  . intro i hi
    contradiction
  . show cursor + 0 ≤ 2000
    omega

/--
The call reads what the abstract editor makes of the keys: it returns the text as far as it fits, the caret is in the
line all the time, and it writes no cell outside of the screen.
-/
structure Reads (s : LineEdit) (keys : List Nat) (enter : Nat) (maxLen : Int) : Prop where
  result : ∃ s', s.readLine (keys ++ [enter]) = some (s', false)
    ∧ s'.buffer maxLen false = (keys.foldl Editor.key .empty).text.take (maxLen - 1).toNat ++ [0] ∧ s'.Inside
  caret : ∀ ks : List Nat, ks <+: keys → 0 ≤ (ks.foldl key s).pos ∧ (ks.foldl key s).pos ≤ (ks.foldl key s).len

theorem fits_of_reads {line : Int → Byte} {cell : Int → UInt16} {cursor maxLen : Int} {keys : List Nat} {enter : Nat}
    (hcursor : 0 ≤ cursor ∧ cursor < 2000) (hkeys : ∀ k ∈ keys, ¬Ends k) (henter : enter = 10 ∨ enter = keyEnter)
    (h : Reads (start line cursor cell) keys enter maxLen)
    : Editor.empty.Fits (cursor % 80) keys := by
  obtain ⟨hshows, hplaced⟩ := start_shows line cell hcursor
  have hinside := (inside_run (cursor % 80) (by omega) keys hshows hplaced rfl).2.1 hcursor.1
  obtain ⟨s', hs', _, hin⟩ := h.result
  rw [readLine_enter keys hkeys henter] at hs'
  obtain ⟨rfl, _⟩ := Prod.mk.inj (Option.some.inj hs')
  exact (hinside.mp ((putc_newline _).2.2.mp hin)).2

end Run

/--
The text and the caret are always right. The cells are on the screen unless the line is edited once more after it has
reached the end of the screen with the prompt in the first row: then the prompt is above the screen, and the line is
drawn from there on.
-/
theorem readLine_iff (line : Int → Byte) (cell : Int → UInt16) (cursor maxLen : Int) (keys : List Nat) (enter : Nat)
    (hcursor : 0 ≤ cursor ∧ cursor < 2000) (hmax : 2 ≤ maxLen) (hkeys : ∀ k ∈ keys, ¬Ends k)
    (henter : enter = 10 ∨ enter = keyEnter)
    : Reads (start line cursor cell) keys enter maxLen ↔ Editor.empty.Fits (cursor % 80) keys := by
  refine ⟨fits_of_reads hcursor hkeys henter, fun hfits => ?_⟩
  obtain ⟨hshows, hplaced⟩ := start_shows line cell hcursor
  have hrun : ∀ ks : List Nat, (ks.foldl key (start line cursor cell)).Shows (ks.foldl Editor.key .empty) := fun ks =>
    (inside_run (cursor % 80) (by omega) ks hshows hplaced rfl).1
  have hinside := (inside_run (cursor % 80) (by omega) keys hshows hplaced rfl).2.1 hcursor.1
  have hnone : (start line cursor cell).Inside := fun x hx => absurd hx List.not_mem_nil
  obtain ⟨hline, hlen, hnewline⟩ := putc_newline (keys.foldl key (start line cursor cell))
  have hend := hrun keys
  refine ⟨⟨_, readLine_enter keys hkeys henter, ?_, hnewline.mpr (hinside.mpr ⟨hnone, hfits⟩)⟩, ?_⟩
  . apply buffer_of_line (by omega)
    . rw [hlen]
      exact hend.len
    . rw [hline]
      exact hend.line
  . intro ks _
    have hpos := (hrun ks).pos
    have hsize := (hrun ks).len
    have htext : (ks.foldl Editor.key .empty).text.length
        = (ks.foldl Editor.key .empty).before.length + (ks.foldl Editor.key .empty).after.length := List.length_append
    omega

theorem readLine_iff_one : Reads (start (fun _ => 0) 0 (fun _ => blankCell)) [97] 10 80 := by
  have hkeys : ∀ k ∈ [97], ¬Ends k := by
    intro k hk
    obtain rfl := List.mem_singleton.mp hk
    unfold Ends
    decide
  apply (readLine_iff (fun _ => 0) (fun _ => blankCell) 0 80 [97] 10 (by decide) (by decide) hkeys (.inl rfl)).mpr
  rw [Editor.Fits, if_neg (by decide)]
  trivial

def typed (j : Nat) : Editor where
  before := List.replicate j 97
  after := []

theorem length_typed (j : Nat) : (typed j).text.length = j := by
  unfold typed Editor.text
  rw [List.append_nil, List.length_replicate]

theorem typed_key {j : Nat} (h : j < 65535) : (typed j).Inserts 97 ∧ (typed j).key 97 = typed (j + 1) := by
  have hins : (typed j).Inserts 97 := ⟨by decide, by rw [length_typed]; exact h⟩
  have hdel : ¬(typed j).Deletes 97 := fun h => absurd h.1 (by decide)
  refine ⟨hins, ?_⟩
  unfold Editor.key
  rw [if_neg hdel, if_pos hins]
  unfold typed
  rw [List.replicate_succ']
  rfl

theorem not_fits_long (m j : Nat) (h : j + m = 1999) : ¬(typed j).Fits 0 (List.replicate (m + 2) 97) := by
  obtain ⟨hins, hkey⟩ := typed_key (j := j) (by omega)
  have hlen := length_typed j
  rw [List.replicate_succ, Editor.Fits]
  induction m generalizing j with
  | zero =>
    rw [if_pos ⟨hins, .inr ⟨by omega, rfl⟩⟩, hkey]
    rintro ⟨hstop, _⟩
    exact hstop (typed_key (by omega)).1
  | succ m ih =>
    have hno : ¬(typed j).Fills 0 97 := by
      rintro ⟨_, hfull | hlast⟩
      . omega
      . omega
    obtain ⟨hins', hkey'⟩ := typed_key (j := j + 1) (by omega)
    rw [if_neg hno, hkey, List.replicate_succ, Editor.Fits]
    exact ih (j + 1) (by omega) hins' hkey' (length_typed _)

theorem readLine_off_screen
    : ¬∀ (line : Int → Byte) (cell : Int → UInt16) (cursor maxLen : Int) (keys : List Nat) (enter : Nat),
      0 ≤ cursor ∧ cursor < 2000 → 2 ≤ maxLen → (∀ k ∈ keys, ¬Ends k) → enter = 10 ∨ enter = keyEnter →
      Reads (start line cursor cell) keys enter maxLen := by
  intro h
  obtain ⟨n, hn⟩ : ∃ n, n = 1999 := ⟨_, rfl⟩
  have hkeys : ∀ k ∈ List.replicate (n + 2) 97, ¬Ends k := by
    intro k hk
    obtain rfl := List.eq_of_mem_replicate hk
    unfold Ends
    decide
  have hreads := h (fun _ => 0) (fun _ => blankCell) 0 80 (List.replicate (n + 2) 97) 10 (by decide) (by decide) hkeys
    (.inl rfl)
  have hfits := fits_of_reads (by decide) hkeys (.inl rfl) hreads
  have hempty : Editor.empty = typed 0 := rfl
  have hcolumn : (0 : Int) % 80 = 0 := rfl
  rw [hempty, hcolumn] at hfits
  exact not_fits_long n 0 (by omega) hfits

end LineEdit

end TanjaOS
