import TanjaOS.Console.Utf8
import TanjaOS.Vi.Buffer

/-!
Positions in the text: characters, lines and columns.

In ASCII the tab is 9, the newline is 10, the space is 32.
-/

open Lib

namespace TanjaOS

def tabWidth : Int := 4

/--
`while (p(pos)) pos++`, at most `n` times.
-/
def scanUp (p : Int → Bool) (n : Nat) (pos : Int) : Int :=
  match n with
  | 0 => pos
  | n + 1 => if p pos then scanUp p n (pos + 1) else pos

/--
`while (p(pos)) pos--`, at most `n` times.
-/
def scanDown (p : Int → Bool) (n : Nat) (pos : Int) : Int :=
  match n with
  | 0 => pos
  | n + 1 => if p pos then scanDown p n (pos - 1) else pos

def chclass (c : Byte) : Nat :=
  if c = 32 ∨ c = 9 ∨ c = 10 ∨ c = 0 then 0
  else if 97 ≤ c ∧ c ≤ 122 ∨ 65 ≤ c ∧ c ≤ 90 ∨ 48 ≤ c ∧ c ≤ 57 ∨ c = 95 then 1
  else 2

def blankChar (c : Byte) : Bool :=
  c = 32 ∨ c = 9

namespace EditorBuffer

/--
The bytes behind the first one of a character, `none` if one is missing.
-/
def decodeRest (eb : EditorBuffer) (pos : Int) (need : Nat) (c : UInt32) : Option UInt32 :=
  match need with
  | 0 => some c
  | need + 1 =>
    let b := eb.textAt pos
    if b &&& 0xC0 ≠ 0x80 then none
    else eb.decodeRest (pos + 1) need ((c <<< 6) ||| (b &&& 0x3F).toUInt32)

def decodeAt (eb : EditorBuffer) (pos : Int) : Int × UInt32 :=
  if pos < 0 ∨ eb.len ≤ pos then
    (1, utf8Invalid)
  else
    let b0 := eb.textAt pos
    if b0 < 0x80 then
      (1, b0.toUInt32)
    else if b0 &&& 0xE0 = 0xC0 then
      if b0 &&& 0x1F < 2 then (1, utf8Invalid) else rest pos 1 (b0 &&& 0x1F).toUInt32
    else if b0 &&& 0xF0 = 0xE0 then
      rest pos 2 (b0 &&& 0x0F).toUInt32
    else if b0 &&& 0xF8 = 0xF0 then
      rest pos 3 (b0 &&& 0x07).toUInt32
    else
      (1, utf8Invalid)
where
  rest (pos : Int) (need : Nat) (c : UInt32) : Int × UInt32 :=
    if eb.len ≤ pos + need then
      (1, utf8Invalid)
    else
      match eb.decodeRest (pos + 1) need c with
      | none => (1, utf8Invalid)
      | some c =>
        if need = 2 ∧ c < 0x800 ∨ need = 3 ∧ c < 0x10000 ∨ 0xD800 ≤ c ∧ c ≤ 0xDFFF ∨ 0x10FFFF < c then
          (1, utf8Invalid)
        else
          (need + 1, c)

def cpLen (eb : EditorBuffer) (pos : Int) : Int :=
  let n := (eb.decodeAt pos).1
  if n < 1 then 1 else n

def stepForward (eb : EditorBuffer) (pos : Int) : Int :=
  if eb.len ≤ pos then pos else pos + eb.cpLen pos

def stepBackward (eb : EditorBuffer) (pos : Int) : Int :=
  if pos ≤ 0 then
    pos
  else
    scanDown (fun i => eb.textAt i &&& 0xC0 = 0x80) (pos - 1).toNat (pos - 1)

def lineStart (eb : EditorBuffer) (pos : Int) : Int :=
  scanDown (fun i => eb.textAt (i - 1) ≠ 10) pos.toNat pos

def lineEnd (eb : EditorBuffer) (pos : Int) : Int :=
  scanUp (fun i => eb.textAt i ≠ 10) (eb.len - pos).toNat pos

def lineStartNumber (eb : EditorBuffer) (wanted : Int) : Int :=
  go eb.len.toNat 0 0
where
  go (n : Nat) (line i : Int) : Int :=
    match n with
    | 0 => i
    | n + 1 =>
      if line < wanted then
        go n (if eb.textAt i = 10 then line + 1 else line) (i + 1)
      else
        i

def lineEndNumber (eb : EditorBuffer) (n : Int) : Int :=
  eb.lineEnd (eb.lineStartNumber n)

def lineNumberAt (eb : EditorBuffer) (pos : Int) : Int :=
  (List.range pos.toNat).countP (fun i : Nat => eb.textAt i = 10)

def totalLines (eb : EditorBuffer) : Int :=
  if eb.len = 0 then
    1
  else
    1 + (List.range eb.len.toNat).countP (fun i : Nat => eb.textAt i = 10)
      + (if eb.textAt (eb.len - 1) = 10 then 1 else 0)

def visualCol (eb : EditorBuffer) (pos : Int) : Int :=
  go (pos - eb.lineStart pos).toNat 0 (eb.lineStart pos)
where
  go (n : Nat) (col i : Int) : Int :=
    match n with
    | 0 => col
    | n + 1 =>
      if i < pos ∧ eb.textAt i ≠ 10 then
        if eb.textAt i = 9 then
          go n (col + (tabWidth - col % tabWidth)) (i + 1)
        else
          go n (col + 1) (i + eb.cpLen i)
      else
        col

def snapToTabStop (eb : EditorBuffer) (pos : Int) : Int :=
  let start := eb.lineStart pos
  let col := eb.visualCol pos
  if (List.range (pos - start).toNat).all (fun i : Nat => eb.textAt (start + i) = 32) then
    let snapped := col / tabWidth * tabWidth
    scanUp (fun p => p - start < snapped) (pos - start).toNat start
  else
    pos

def posAtVisualCol (eb : EditorBuffer) (start target : Int) : Int :=
  go (eb.len - start).toNat start 0
where
  go (n : Nat) (pos col : Int) : Int :=
    match n with
    | 0 => eb.snapToTabStop pos
    | n + 1 =>
      if pos < eb.len ∧ eb.textAt pos ≠ 10 then
        let width := if eb.textAt pos = 9 then tabWidth - col % tabWidth else 1
        let step := if eb.textAt pos = 9 then 1 else eb.cpLen pos
        if target < col + width then eb.snapToTabStop pos else go n (pos + step) (col + width)
      else
        eb.snapToTabStop pos

def visualRowsOfLine (eb : EditorBuffer) (cols ls : Int) : Int :=
  let width := eb.visualCol (eb.lineEnd ls)
  if width = 0 then 1 else (width - 1) / cols + 1

/--
`cols` is `g_cols`.
-/
def moveVertical (eb : EditorBuffer) (cols pos dir : Int) : Int :=
  let c := eb.visualCol pos
  let row := c / cols
  let scol := c % cols
  let ls := eb.lineStart pos
  let width := eb.visualCol (eb.lineEnd ls)
  if dir < 0 then
    if 0 < row then
      eb.posAtVisualCol ls ((row - 1) * cols + scol)
    else
      let line := eb.lineNumberAt pos
      if line = 0 then
        pos
      else
        let prev := eb.lineStartNumber (line - 1)
        let rows := eb.visualRowsOfLine cols prev
        eb.posAtVisualCol prev ((rows - 1) * cols + scol)
  else if (row + 1) * cols < width then
    eb.posAtVisualCol ls ((row + 1) * cols + scol)
  else
    let e := eb.lineEnd pos
    if eb.len ≤ e then pos else eb.posAtVisualCol (e + 1) scol

def firstNonblank (eb : EditorBuffer) (pos : Int) : Int :=
  let ls := eb.lineStart pos
  let ls := scanUp (fun i => blankChar (eb.textAt i)) (eb.len - ls).toNat ls
  if eb.len ≤ ls ∨ eb.textAt ls = 10 then eb.lineStart pos else ls

def backWordStart (eb : EditorBuffer) (pos : Int) (count : Nat) : Int :=
  match count with
  | 0 => pos
  | count + 1 =>
    if pos ≤ 0 then
      0
    else
      let pos := pos - 1
      let pos := scanDown (fun i => chclass (eb.textAt i) = 0) pos.toNat pos
      if pos < 0 then
        0
      else
        let cls := chclass (eb.textAt pos)
        let pos := scanDown
          (fun i => chclass (eb.textAt (i - 1)) ≠ 0 ∧ chclass (eb.textAt (i - 1)) = cls) pos.toNat pos
        eb.backWordStart pos count

end EditorBuffer

section Scan

variable {p : Int → Bool}

theorem le_scanUp (n : Nat) (pos : Int) : pos ≤ scanUp p n pos := by
  induction n generalizing pos with
  | zero => exact Int.le_refl pos
  | succ n ih =>
    have := ih (pos + 1)
    unfold scanUp
    split <;> omega

theorem scanUp_le (n : Nat) (pos : Int) : scanUp p n pos ≤ pos + n := by
  induction n generalizing pos with
  | zero =>
    unfold scanUp
    omega
  | succ n ih =>
    have := ih (pos + 1)
    unfold scanUp
    split <;> omega

theorem scanUp_before {n : Nat} {pos i : Int} (hi : pos ≤ i) (h : i < scanUp p n pos) : p i = true := by
  induction n generalizing pos with
  | zero =>
    unfold scanUp at h
    omega
  | succ n ih =>
    unfold scanUp at h
    split at h
    . next hp =>
      by_cases heq : i = pos
      . rw [heq]
        exact hp
      . exact ih (by omega) h
    . omega

theorem scanUp_stops {n : Nat} {pos : Int} (h : scanUp p n pos < pos + n) : p (scanUp p n pos) = false := by
  induction n generalizing pos with
  | zero =>
    unfold scanUp at h
    omega
  | succ n ih =>
    unfold scanUp at h ⊢
    split at h
    . next hp =>
      rw [if_pos hp]
      exact ih (by omega)
    . next hp =>
      rw [if_neg hp]
      simpa using hp

theorem scanDown_le (n : Nat) (pos : Int) : scanDown p n pos ≤ pos := by
  induction n generalizing pos with
  | zero => exact Int.le_refl pos
  | succ n ih =>
    have := ih (pos - 1)
    unfold scanDown
    split <;> omega

theorem le_scanDown (n : Nat) (pos : Int) : pos - n ≤ scanDown p n pos := by
  induction n generalizing pos with
  | zero =>
    unfold scanDown
    omega
  | succ n ih =>
    have := ih (pos - 1)
    unfold scanDown
    split <;> omega

end Scan

namespace EditorBuffer

/--
A place for the cursor.
-/
structure InText (eb : EditorBuffer) (pos : Int) : Prop where
  nonneg : 0 ≤ pos
  le : pos ≤ eb.len

variable {eb : EditorBuffer} {pos : Int}

theorem decodeAt.rest_cases (need : Nat) (c : UInt32)
    : (decodeAt.rest eb pos need c).1 = 1
        ∨ (decodeAt.rest eb pos need c).1 = need + 1 ∧ pos + need < eb.len := by
  unfold decodeAt.rest
  split
  . exact Or.inl rfl
  . split
    . exact Or.inl rfl
    . split
      . exact Or.inl rfl
      . exact Or.inr ⟨rfl, by omega⟩

theorem decodeAt_cases (eb : EditorBuffer) (pos : Int)
    : (eb.decodeAt pos).1 = 1 ∨ 1 < (eb.decodeAt pos).1 ∧ pos + (eb.decodeAt pos).1 ≤ eb.len := by
  have hrest : ∀ (need : Nat) (c : UInt32), (decodeAt.rest eb pos need c).1 = 1
      ∨ 0 < need ∧ 1 < (decodeAt.rest eb pos need c).1
        ∧ pos + (decodeAt.rest eb pos need c).1 ≤ eb.len ∨ need = 0 := by
    intro need c
    have := @decodeAt.rest_cases eb pos need c
    omega
  unfold decodeAt
  dsimp only
  split
  . exact Or.inl rfl
  . split
    . exact Or.inl rfl
    . split
      . split
        . exact Or.inl rfl
        . have := hrest 1 (eb.textAt pos &&& 0x1F).toUInt32
          omega
      . split
        . have := hrest 2 (eb.textAt pos &&& 0x0F).toUInt32
          omega
        . split
          . have := hrest 3 (eb.textAt pos &&& 0x07).toUInt32
            omega
          . exact Or.inl rfl

theorem cpLen_pos (eb : EditorBuffer) (pos : Int) : 0 < eb.cpLen pos := by
  unfold cpLen
  dsimp only
  split <;> omega

theorem cpLen_le (h : pos < eb.len) : pos + eb.cpLen pos ≤ eb.len := by
  have := decodeAt_cases eb pos
  unfold cpLen
  dsimp only
  split <;> omega

theorem stepForward_inText (h : eb.InText pos) : eb.InText (eb.stepForward pos) := by
  have := h.nonneg
  have := h.le
  unfold stepForward
  split
  . exact h
  . next hlt =>
    have := cpLen_pos eb pos
    have := @cpLen_le eb pos (by omega)
    exact ⟨by omega, by omega⟩

theorem stepBackward_bounds (eb : EditorBuffer) (h : 0 ≤ pos)
    : 0 ≤ eb.stepBackward pos ∧ eb.stepBackward pos ≤ pos := by
  unfold stepBackward
  split
  . exact ⟨h, Int.le_refl pos⟩
  . next hpos =>
    have hle := @scanDown_le (fun i => eb.textAt i &&& 0xC0 = 0x80) (pos - 1).toNat (pos - 1)
    have hlow := @le_scanDown (fun i => eb.textAt i &&& 0xC0 = 0x80) (pos - 1).toNat (pos - 1)
    exact ⟨by omega, by omega⟩

theorem stepBackward_inText (h : eb.InText pos) : eb.InText (eb.stepBackward pos) := by
  have := h.le
  obtain ⟨hlow, hle⟩ := stepBackward_bounds eb h.nonneg
  exact ⟨hlow, by omega⟩

theorem lineStart_bounds (eb : EditorBuffer) (h : 0 ≤ pos)
    : 0 ≤ eb.lineStart pos ∧ eb.lineStart pos ≤ pos := by
  have hle := @scanDown_le (fun i => eb.textAt (i - 1) ≠ 10) pos.toNat pos
  have hlow := @le_scanDown (fun i => eb.textAt (i - 1) ≠ 10) pos.toNat pos
  unfold lineStart
  exact ⟨by omega, hle⟩

theorem lineStart_inText (h : eb.InText pos) : eb.InText (eb.lineStart pos) := by
  have := h.le
  obtain ⟨hlow, hle⟩ := lineStart_bounds eb h.nonneg
  exact ⟨hlow, by omega⟩

theorem le_lineEnd (eb : EditorBuffer) (pos : Int) : pos ≤ eb.lineEnd pos :=
  le_scanUp _ _

theorem lineEnd_inText (h : eb.InText pos) : eb.InText (eb.lineEnd pos) := by
  have := h.nonneg
  have := h.le
  have := le_lineEnd eb pos
  have hle := @scanUp_le (fun i => eb.textAt i ≠ 10) (eb.len - pos).toNat pos
  refine ⟨by omega, ?_⟩
  unfold lineEnd
  omega

theorem lineStartNumber.go_bounds (wanted : Int) (n : Nat) (line i : Int)
    : i ≤ lineStartNumber.go eb wanted n line i ∧ lineStartNumber.go eb wanted n line i ≤ i + n := by
  induction n generalizing line i with
  | zero =>
    unfold lineStartNumber.go
    omega
  | succ n ih =>
    unfold lineStartNumber.go
    split
    . obtain ⟨hlow, hle⟩ := ih (if eb.textAt i = 10 then line + 1 else line) (i + 1)
      exact ⟨by omega, by omega⟩
    . exact ⟨by omega, by omega⟩

theorem lineStartNumber_inText (hlen : 0 ≤ eb.len) (wanted : Int)
    : eb.InText (eb.lineStartNumber wanted) := by
  obtain ⟨hlow, hle⟩ := @lineStartNumber.go_bounds eb wanted eb.len.toNat 0 0
  unfold lineStartNumber
  exact ⟨hlow, by omega⟩

theorem firstNonblank_inText (h : eb.InText pos) : eb.InText (eb.firstNonblank pos) := by
  have hstart := lineStart_inText h
  unfold firstNonblank
  dsimp only
  have hlow := @le_scanUp (fun i => blankChar (eb.textAt i)) (eb.len - eb.lineStart pos).toNat (eb.lineStart pos)
  have := hstart.nonneg
  split
  . exact hstart
  . next hin => exact ⟨by omega, by omega⟩

theorem snapToTabStop_inText (h : eb.InText pos) : eb.InText (eb.snapToTabStop pos) := by
  have := h.le
  obtain ⟨hstart, hle⟩ := lineStart_bounds eb h.nonneg
  unfold snapToTabStop
  dsimp only
  split
  . generalize (fun p => decide (p - eb.lineStart pos < eb.visualCol pos / tabWidth * tabWidth)) = p
    have hlow := @le_scanUp p (pos - eb.lineStart pos).toNat (eb.lineStart pos)
    have hup := @scanUp_le p (pos - eb.lineStart pos).toNat (eb.lineStart pos)
    exact ⟨by omega, by omega⟩
  . exact h

theorem posAtVisualCol.go_inText (target : Int) (n : Nat) (col : Int) (h : eb.InText pos)
    : eb.InText (posAtVisualCol.go eb target n pos col) := by
  induction n generalizing pos col with
  | zero => exact snapToTabStop_inText h
  | succ n ih =>
    have hsnap := snapToTabStop_inText h
    have := h.nonneg
    unfold posAtVisualCol.go
    dsimp only
    split
    . next hin =>
      have := cpLen_pos eb pos
      have := cpLen_le hin.1
      have hstep : eb.InText (pos + if eb.textAt pos = 9 then 1 else eb.cpLen pos) := by
        split
        . exact ⟨by omega, by omega⟩
        . exact ⟨by omega, by omega⟩
      by_cases htarget : target < col + if eb.textAt pos = 9 then tabWidth - col % tabWidth else 1
      . rw [if_pos htarget]
        exact hsnap
      . rw [if_neg htarget]
        exact ih _ hstep
    . exact hsnap

theorem posAtVisualCol_inText (target : Int) (h : eb.InText pos)
    : eb.InText (eb.posAtVisualCol pos target) :=
  posAtVisualCol.go_inText target _ 0 h

theorem moveVertical_inText (cols dir : Int) (h : eb.InText pos)
    : eb.InText (eb.moveVertical cols pos dir) := by
  have := h.nonneg
  have := h.le
  have hstart := lineStart_inText h
  have hend := lineEnd_inText h
  have := hend.nonneg
  unfold moveVertical
  dsimp only
  split
  . split
    . exact posAtVisualCol_inText _ hstart
    . split
      . exact h
      . exact posAtVisualCol_inText _ (lineStartNumber_inText (by omega) _)
  . split
    . exact posAtVisualCol_inText _ hstart
    . split
      . exact h
      . exact posAtVisualCol_inText _ ⟨by omega, by omega⟩

theorem backWordStart_bounds (eb : EditorBuffer) (count : Nat) (h : 0 ≤ pos)
    : 0 ≤ eb.backWordStart pos count ∧ eb.backWordStart pos count ≤ pos := by
  induction count generalizing pos with
  | zero => exact ⟨h, Int.le_refl pos⟩
  | succ count ih =>
    unfold backWordStart
    dsimp only
    split
    . exact ⟨Int.le_refl 0, h⟩
    . have hskip := @scanDown_le (fun i => chclass (eb.textAt i) = 0) (pos - 1).toNat (pos - 1)
      have hlow := @le_scanDown (fun i => chclass (eb.textAt i) = 0) (pos - 1).toNat (pos - 1)
      generalize scanDown (fun i => chclass (eb.textAt i) = 0) (pos - 1).toNat (pos - 1) = q at *
      split
      . exact ⟨Int.le_refl 0, h⟩
      . generalize (fun i => decide (chclass (eb.textAt (i - 1)) ≠ 0
          ∧ chclass (eb.textAt (i - 1)) = chclass (eb.textAt q))) = p
        have hword := @scanDown_le p q.toNat q
        have hword' := @le_scanDown p q.toNat q
        obtain ⟨hpos, hle⟩ := @ih (scanDown p q.toNat q) (by omega)
        exact ⟨hpos, by omega⟩

end EditorBuffer

end TanjaOS
