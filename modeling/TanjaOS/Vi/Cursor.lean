import TanjaOS.Lib.Run
import TanjaOS.Vi.Repeat

/-!
Where the cursor can get to by putting, inserting, replacing and repeating.
-/

open Lib

namespace TanjaOS

inductive ModeEntry where
  | i
  | upperI
  | a
  | upperA
  | o
  | upperO
  | upperR

inductive Keystroke where
  | put (after : Bool) (count reg : Int)
  | enter (e : ModeEntry) (count : Int)
  | key (k : Int)
  | dot

namespace ViState

def enter (v : ViState) (e : ModeEntry) (count : Int) : ViState :=
  let v := { v with stCount := count }
  let v :=
    match e with
    | .i => v.gEnterInsert true
    | .upperI => { v with gPos := v.eb.firstNonblank v.gPos }.gEnterInsert true
    | .a =>
      if v.gPos < v.eb.len ∧ v.eb.textAt v.gPos ≠ 10 then
        { v with gPos := v.eb.stepForward v.gPos }.gEnterInsert true
      else
        v.gEnterInsert true
    | .upperA => { v with gPos := v.eb.lineEnd v.gPos }.gEnterInsert true
    | .o => v.openLine false
    | .upperO => v.openLine true
    | .upperR => v.gEnterReplace
  { v with stCount := 0 }

/--
The main loop hands a key to the mode that is on. There is no state for a key that has no place in it.
-/
def keystroke (v : ViState) (k : Keystroke) : Option ViState :=
  match v.gMode, k with
  | .command, .put after count reg => some (v.doPut after count reg)
  | .command, .enter e count => some (v.enter e count)
  | .command, .dot => v.replayLast
  | .insert, .key key => some (v.insertKey key)
  | .replace, .key key => some (v.replaceKey key)
  | _, _ => none

/--
The loops over the text behind the cursor: where `n` characters of the line end.
-/
def charsEnd (v : ViState) (n : Nat) : Int :=
  (v.charsForward n v.gPos 0).1

end ViState

def Keystroke.Step (k : Keystroke) (v v' : ViState) : Prop :=
  v.keystroke k = some v'

section Room

/-!
There is room for what a keystroke is going to insert, and what is added up does not wrap around.
-/

def PutFits (v : ViState) (count reg : Int) : Prop :=
  regIndex reg < 0 ∨ (v.regs (regIndex reg)).data = [] ∨ (v.regs (regIndex reg)).lines ∨
    -(2 ^ 31) ≤ count * (v.regs (regIndex reg)).data.length
      ∧ v.eb.len + count * (v.regs (regIndex reg)).data.length ≤ maxText - 1

def OpenFits (v : ViState) (above : Bool) : Prop :=
  let ind := if v.optAi then v.eb.indentAt (v.eb.lineStart v.gPos) 126 else []
  above ∧ ind = [] ∨ v.eb.len + 1 + ind.length ≤ maxText - 1

/--
The newline is refused, or the blanks that the line starts with up to the cursor fit behind it.
-/
def EnterFits (v : ViState) : Prop :=
  v.optAi → v.eb.len = maxText - 1 ∨
    v.eb.len + 1 + (v.eb.indentAt (v.eb.lineStart v.gPos) (v.gPos - v.eb.lineStart v.gPos).toNat).length
      ≤ maxText - 1

def EscFits (v : ViState) : Prop :=
  1 < v.sessCount → v.eb.len + (v.sessCount - 1) * v.sessBuf.length ≤ maxText - 1

def OvertypeFits (v : ViState) : Prop :=
  v.gPos < v.eb.len ∧ v.eb.textAt v.gPos ≠ 10 ∨ v.eb.len < maxText - 1

def OverFits (v : ViState) (n : Nat) : Prop :=
  v.eb.len + n - (v.charsEnd n - v.gPos) ≤ maxText - 1

def DotFits (v : ViState) : Prop :=
  match v.lastch.kind with
  | .ins => 0 ≤ v.gPos + v.lastch.text.length * v.lastch.count
      ∧ v.gPos + v.lastch.text.length * v.lastch.count < 2 ^ 31
  | .overwrite => OverFits v (v.lastch.count.toNat * v.lastch.text.length)
  | _ => True

def KeyFits (v : ViState) (key : Int) : Prop :=
  match v.gMode with
  | .command => True
  | .insert => (key = 27 → EscFits v) ∧ (key = 0x84 ∨ key = 10 → EnterFits v)
  | .replace => 32 ≤ key ∧ key ≤ 126 ∨ key = 9 → OvertypeFits v

def Keystroke.Fits (v : ViState) (k : Keystroke) : Prop :=
  match k with
  | .put _ count reg => PutFits v count reg
  | .enter .o _ => OpenFits v false
  | .enter .upperO _ => OpenFits v true
  | .enter _ _ => True
  | .key c => KeyFits v c
  | .dot => DotFits v

end Room

structure ViState.Ok (v : ViState) : Prop where
  inv : GapInv v.eb
  pos : v.eb.InText v.gPos

namespace EditorBuffer

variable {eb : EditorBuffer} {pos : Int}

section Lengths

theorem insertByte_len (h : GapInv eb) (pos : Int) (ch : Byte)
    : GapInv (eb.insertByte pos ch).2 ∧ (eb.insertByte pos ch).2.len = min (eb.len + 1) (maxText - 1)
        ∧ ((eb.insertByte pos ch).1 = 0 ↔ eb.len = maxText - 1) := by
  have hlen := length_text h
  have hle := length_le h
  have hcap : 0 < maxText := by decide
  obtain ⟨hinv, htext⟩ := insertByte_text pos ch h
  refine ⟨hinv, ?_, insertByte_refuses_iff pos ch h⟩
  rw [← length_text hinv, htext]
  unfold insertOne
  split
  . omega
  . rw [length_insertAt, List.length_singleton]
    omega

theorem insertBytes.go_len (h : GapInv eb) (pos i : Int) (s : Bytes)
    : GapInv (insertBytes.go pos i s eb).2
        ∧ (insertBytes.go pos i s eb).2.len = min (eb.len + s.length) (maxText - 1) := by
  have hle := length_le h
  have hlen := length_text h
  have hcap : 0 < maxText := by decide
  induction s generalizing eb i with
  | nil =>
    refine ⟨h, ?_⟩
    change eb.len = _
    rw [List.length_nil]
    omega
  | cons ch s ih =>
    obtain ⟨hinv, hgrown, hrefused⟩ := insertByte_len h (int32 (pos + i)) ch
    unfold insertBytes.go
    dsimp only
    rw [List.length_cons]
    split
    . next hno =>
      rw [hrefused] at hno
      refine ⟨hinv, ?_⟩
      dsimp only
      omega
    . next hyes =>
      rw [hrefused] at hyes
      obtain ⟨hinv', hlen'⟩ := ih hinv (i + 1) (length_le hinv) (length_text hinv)
      refine ⟨hinv', ?_⟩
      rw [hlen', hgrown]
      omega

theorem insertCopies_len (h : GapInv eb) (pos : Int) (data : Bytes) (i : Int) (n : Nat)
    : GapInv (eb.insertCopies pos data i n)
        ∧ (eb.insertCopies pos data i n).len = min (eb.len + (n * data.length : Nat)) (maxText - 1) := by
  have hle := length_le h
  have hlen := length_text h
  have hcap : 0 < maxText := by decide
  induction n generalizing eb i with
  | zero =>
    refine ⟨h, ?_⟩
    change eb.len = _
    rw [Nat.zero_mul]
    omega
  | succ n ih =>
    obtain ⟨hinv, hgrown⟩ := insertBytes.go_len h (int32 (pos + int32 (i * data.length))) 0 data
    obtain ⟨hinv', hlen'⟩ := ih hinv (i + 1) (length_le hinv) (length_text hinv)
    unfold insertCopies
    refine ⟨hinv', ?_⟩
    rw [Nat.succ_mul]
    refine hlen'.trans ?_
    rw [hgrown]
    omega

theorem foldl_insertByte_len (h : GapInv eb) (pos : Int) (s : Bytes)
    : GapInv (s.foldl (fun eb ch => (eb.insertByte pos ch).2) eb)
        ∧ (s.foldl (fun eb ch => (eb.insertByte pos ch).2) eb).len = min (eb.len + s.length) (maxText - 1) := by
  have hle := length_le h
  have hlen := length_text h
  have hcap : 0 < maxText := by decide
  induction s generalizing eb with
  | nil =>
    refine ⟨h, ?_⟩
    rw [List.length_nil]
    change eb.len = _
    omega
  | cons ch s ih =>
    obtain ⟨hinv, hgrown, -⟩ := insertByte_len h pos ch
    obtain ⟨hinv', hlen'⟩ := ih hinv (length_le hinv) (length_text hinv)
    rw [List.foldl_cons, List.length_cons]
    refine ⟨hinv', ?_⟩
    rw [hlen', hgrown]
    omega

theorem insertHere_len (h : GapInv eb) (pos : Int) (s : Bytes) (n : Nat)
    : GapInv (ViState.insertHere eb pos s n)
        ∧ (ViState.insertHere eb pos s n).len = min (eb.len + (n * s.length : Nat)) (maxText - 1) := by
  have hle := length_le h
  have hlen := length_text h
  have hcap : 0 < maxText := by decide
  induction n generalizing eb with
  | zero =>
    refine ⟨h, ?_⟩
    change eb.len = _
    rw [Nat.zero_mul]
    omega
  | succ n ih =>
    obtain ⟨hinv, hgrown⟩ := foldl_insertByte_len h pos s
    obtain ⟨hinv', hlen'⟩ := ih hinv (length_le hinv) (length_text hinv)
    unfold ViState.insertHere
    refine ⟨hinv', ?_⟩
    rw [Nat.succ_mul]
    refine hlen'.trans ?_
    rw [hgrown]
    omega

theorem deleteRange_len (h : GapInv eb) {count : Int} (hpos : 0 ≤ pos) (hcount : 0 ≤ count)
    (hle : pos + count ≤ eb.len)
    : GapInv (eb.deleteRange pos count) ∧ (eb.deleteRange pos count).len = eb.len - count := by
  have hlen := length_text h
  obtain ⟨i, rfl⟩ := Int.eq_ofNat_of_zero_le hpos
  obtain ⟨n, rfl⟩ := Int.eq_ofNat_of_zero_le hcount
  obtain ⟨hinv, htext⟩ := deleteRange_at h (by omega : i ≤ i + n) (by omega)
  have hn : (((i + n : Nat) : Int) - i) = n := by omega
  rw [hn] at hinv htext
  refine ⟨hinv, ?_⟩
  rw [← length_text hinv, htext, List.length_append, List.length_take, List.length_drop]
  omega

theorem InText.mono {eb' : EditorBuffer} (h : eb.InText pos) (hle : eb.len ≤ eb'.len) : eb'.InText pos := by
  have := h.le
  exact ⟨h.nonneg, by omega⟩

end Lengths

end EditorBuffer

namespace ViState

variable {v : ViState}

theorem Ok.small (h : v.Ok)
    : 0 ≤ v.gPos ∧ v.gPos ≤ v.eb.len ∧ v.eb.len ≤ maxText - 1 ∧ (maxText : Int) < 2 ^ 20 := by
  have := EditorBuffer.length_text h.inv
  have := EditorBuffer.length_le h.inv
  have hcap : 0 < maxText ∧ maxText < 2 ^ 20 := by decide
  exact ⟨h.pos.nonneg, h.pos.le, by omega, by omega⟩

theorem int32_sum {x y : Int} (hlow : -(2 ^ 31) ≤ y) (hhigh : y < 2 ^ 31) (hlow' : -(2 ^ 31) ≤ x + y)
    (hhigh' : x + y < 2 ^ 31)
    : int32 (x + int32 y) = x + y := by
  rw [EditorBuffer.int32_eq hlow hhigh, EditorBuffer.int32_eq hlow' hhigh']

section Put

theorem putLines_ok (h : v.Ok) (after : Bool) (count : Int) (data : Bytes)
    : (doPut.putLines after count v data).Ok := by
  obtain ⟨hnonneg, hle, hfull, hcap⟩ := h.small
  obtain ⟨hinv, hgrown, -⟩ := EditorBuffer.insertByte_len h.inv v.eb.len 10
  have hend := EditorBuffer.lineEnd_inText h.pos
  have hstart := EditorBuffer.lineStart_inText h.pos
  have hat : v.eb.InText (if after then (if v.eb.lineEnd v.gPos < v.eb.len then v.eb.lineEnd v.gPos + 1
      else v.eb.lineEnd v.gPos) else v.eb.lineStart v.gPos) := by
    have := hend.nonneg
    split
    . split
      . exact ⟨by omega, by omega⟩
      . exact hend
    . exact hstart
  unfold doPut.putLines
  dsimp only
  generalize (if after then (if v.eb.lineEnd v.gPos < v.eb.len then v.eb.lineEnd v.gPos + 1
      else v.eb.lineEnd v.gPos) else v.eb.lineStart v.gPos) = pos at *
  by_cases hmissing : v.eb.len ≤ pos ∧ 0 < v.eb.len ∧ v.eb.textAt (v.eb.len - 1) ≠ 10
  . rw [if_pos hmissing, if_pos hmissing]
    obtain ⟨hinv', hlen'⟩ := EditorBuffer.insertCopies_len hinv (v.eb.insertByte v.eb.len 10).2.len data 0
      count.toNat
    exact ⟨hinv', EditorBuffer.firstNonblank_inText ⟨by omega, by dsimp only; omega⟩⟩
  . rw [if_neg hmissing, if_neg hmissing]
    obtain ⟨hinv', hlen'⟩ := EditorBuffer.insertCopies_len h.inv pos data 0 count.toNat
    exact ⟨hinv', EditorBuffer.firstNonblank_inText (hat.mono (by dsimp only; omega))⟩

theorem putChars_ok (h : v.Ok) {pos : Int} (hat : v.eb.InText pos) {count : Int} {data : Bytes}
    (hlow : -(2 ^ 31) ≤ count * data.length) (hroom : v.eb.len + count * data.length ≤ maxText - 1)
    : Ok { v with
        eb := v.eb.insertCopies pos data 0 count.toNat
        gPos :=
          if (v.eb.insertCopies pos data 0 count.toNat).stepBackward
              (int32 (pos + int32 (count * data.length))) < 0 then
            0
          else
            (v.eb.insertCopies pos data 0 count.toNat).stepBackward
              (int32 (pos + int32 (count * data.length))) } := by
  obtain ⟨hnonneg, hle, hfull, hcap⟩ := h.small
  have := hat.nonneg
  have := hat.le
  obtain ⟨hinv, hlen⟩ := EditorBuffer.insertCopies_len h.inv pos data 0 count.toNat
  have hsum : int32 (pos + int32 (count * data.length)) = pos + count * data.length :=
    int32_sum hlow (by omega) (by omega) (by omega)
  rw [hsum]
  have hcount : 0 ≤ count → ((count.toNat * data.length : Nat) : Int) = count * data.length := by
    intro hc
    rw [Nat.cast_mul, Int.toNat_of_nonneg hc]
  have hle' : pos + count * data.length ≤ (v.eb.insertCopies pos data 0 count.toNat).len := by
    by_cases hc : 0 ≤ count
    . rw [hlen, hcount hc]
      omega
    . have hneg : count * data.length ≤ 0 := Int.mul_nonpos_of_nonpos_of_nonneg (by omega) (by omega)
      omega
  refine ⟨hinv, ?_⟩
  dsimp only
  split
  . exact ⟨Int.le_refl 0, by omega⟩
  . next hback =>
    have hstep : (v.eb.insertCopies pos data 0 count.toNat).stepBackward (pos + count * data.length)
        ≤ pos + count * data.length := by
      unfold EditorBuffer.stepBackward
      split
      . exact Int.le_refl _
      . have := @scanDown_le (fun i => (v.eb.insertCopies pos data 0 count.toNat).textAt i &&& 0xC0 = 0x80)
          (pos + count * data.length - 1).toNat (pos + count * data.length - 1)
        omega
    exact ⟨by omega, by omega⟩

theorem doPut_ok (h : v.Ok) {after : Bool} {count reg : Int} (hfits : PutFits v count reg)
    : (v.doPut after count reg).Ok := by
  obtain ⟨w, hw⟩ : ∃ w, w = v.changeBegin := ⟨_, rfl⟩
  have heb : w.eb = v.eb := by
    rw [hw]
    rfl
  have hpos : w.gPos = v.gPos := by
    rw [hw]
    rfl
  have hok : w.Ok := by
    refine ⟨?_, ?_⟩
    . rw [heb]
      exact h.inv
    . rw [heb, hpos]
      exact h.pos
  unfold doPut
  dsimp only
  rw [← hw]
  split
  . exact ⟨h.inv, h.pos⟩
  . next hsome =>
    rw [not_or] at hsome
    split
    . exact putLines_ok hok after count _
    . next hchars =>
      obtain hnone | hnone | hlines | ⟨hlow, hroom⟩ := hfits
      . exact absurd hnone hsome.1
      . exact absurd hnone hsome.2
      . exact absurd hlines hchars
      . have hat : w.eb.InText (if after then w.eb.stepForward w.gPos else w.gPos) := by
          split
          . exact EditorBuffer.stepForward_inText hok.pos
          . exact hok.pos
        have := hat.le
        rw [← heb] at hroom
        rw [if_neg (by omega)]
        exact putChars_ok hok hat hlow hroom

end Put

section Insert

theorem typeByte_ok (h : v.Ok) (ch : Byte) : (v.typeByte ch).Ok := by
  obtain ⟨hnonneg, hle, hfull, hcap⟩ := h.small
  obtain ⟨hinv, hlen, hrefused⟩ := EditorBuffer.insertByte_len h.inv v.gPos ch
  unfold typeByte
  dsimp only
  split
  . next hno =>
    rw [hrefused] at hno
    exact ⟨hinv, by dsimp only; omega, by dsimp only; omega⟩
  . next hyes =>
    rw [hrefused] at hyes
    exact ⟨hinv, by dsimp only [sessCapture]; omega, by dsimp only [sessCapture]; omega⟩

theorem insertEsc_ok (h : v.Ok) (hfits : EscFits v) : v.insertEsc.Ok := by
  obtain ⟨hnonneg, hle, hfull, hcap⟩ := h.small
  have hback := EditorBuffer.stepBackward_inText h.pos
  have := hback.nonneg
  have := hback.le
  unfold insertEsc endSession
  dsimp only
  generalize v.eb.stepBackward v.gPos = pos at *
  split
  . next hrep =>
    have hroom := hfits hrep.1
    obtain ⟨hinv, hlen⟩ := EditorBuffer.insertHere_len h.inv pos v.sessBuf (v.sessCount - 1).toNat
    have hcount : (((v.sessCount - 1).toNat * v.sessBuf.length : Nat) : Int)
        = (v.sessCount - 1) * v.sessBuf.length := by
      rw [Nat.cast_mul, Int.toNat_of_nonneg (by omega)]
    have hprod : 0 ≤ (v.sessCount - 1) * v.sessBuf.length := by
      rw [← hcount]
      omega
    rw [hcount] at hlen
    have hsum : int32 (pos + int32 ((v.sessCount - 1) * v.sessBuf.length))
        = pos + (v.sessCount - 1) * v.sessBuf.length :=
      int32_sum (by omega) (by omega) (by omega) (by omega)
    refine ⟨hinv, ?_⟩
    dsimp only
    rw [hsum]
    exact ⟨by omega, by omega⟩
  . exact ⟨h.inv, hback⟩

theorem deleteBack_ok (h : v.Ok) {t : Int} (ht : 0 ≤ t) (hlt : t ≤ v.gPos)
    : GapInv (v.eb.deleteRange t (v.gPos - t)) ∧ (v.eb.deleteRange t (v.gPos - t)).InText t := by
  obtain ⟨hnonneg, hle, hfull, hcap⟩ := h.small
  obtain ⟨hinv, hlen⟩ := EditorBuffer.deleteRange_len h.inv ht (by omega : 0 ≤ v.gPos - t) (by omega)
  exact ⟨hinv, ht, by omega⟩

theorem insertBackspace_ok (h : v.Ok) : v.insertBackspace.Ok := by
  obtain ⟨hlow, hle⟩ := EditorBuffer.stepBackward_bounds v.eb h.pos.nonneg
  unfold insertBackspace
  dsimp only
  split
  . obtain ⟨hinv, hpos⟩ := deleteBack_ok h hlow hle
    exact ⟨hinv, hpos⟩
  . exact ⟨h.inv, EditorBuffer.stepBackward_inText h.pos⟩

theorem arrowKey_ok (h : v.Ok) (key : Int) : (insertKey.arrowKey v key).Ok := by
  unfold insertKey.arrowKey
  split
  . exact ⟨h.inv, EditorBuffer.stepBackward_inText h.pos⟩
  . split
    . exact ⟨h.inv, EditorBuffer.stepForward_inText h.pos⟩
    . split
      . exact ⟨h.inv, EditorBuffer.moveVertical_inText _ _ h.pos⟩
      . exact h

end Insert

section Indent

variable {eb eb' : EditorBuffer}

theorem insertByte_getElem? (h : GapInv eb) {k : Nat} (hk : k ≤ eb.len) (ch : Byte)
    (hroom : eb.len < maxText - 1) (j : Nat)
    : (eb.insertByte k ch).2.text[j]? = (eb.text.take k ++ [ch] ++ eb.text.drop k)[j]?
        ∧ (eb.insertByte k ch).2.len = eb.len + 1 ∧ (eb.text.take k).length = k := by
  have hlen := EditorBuffer.length_text h
  obtain ⟨-, -, htext⟩ := EditorBuffer.insertByte_room h (by omega : k ≤ eb.text.length) ch (by omega)
  rw [htext, (EditorBuffer.insertByte_len h k ch).2.1, List.length_take]
  exact ⟨rfl, by omega, by omega⟩

theorem insertByte_before (h : GapInv eb) {pos i : Int} (hpos : eb.InText pos) (ch : Byte)
    (hroom : eb.len < maxText - 1) (hi : 0 ≤ i) (hlt : i < pos)
    : (eb.insertByte pos ch).2.textAt i = eb.textAt i := by
  have hle := hpos.le
  obtain ⟨k, rfl⟩ := Int.eq_ofNat_of_zero_le hpos.nonneg
  obtain ⟨j, rfl⟩ := Int.eq_ofNat_of_zero_le hi
  obtain ⟨hget, hlen, hfront⟩ := insertByte_getElem? h hle ch hroom j
  rw [List.append_assoc, List.getElem?_append_left (by omega), List.getElem?_take_of_lt (by omega),
    EditorBuffer.getElem?_text, EditorBuffer.getElem?_text, if_pos (by omega), if_pos (by omega),
    Option.some.injEq] at hget
  exact hget

theorem insertByte_at (h : GapInv eb) {pos : Int} (hpos : eb.InText pos) (ch : Byte)
    (hroom : eb.len < maxText - 1) : (eb.insertByte pos ch).2.textAt pos = ch := by
  have hle := hpos.le
  obtain ⟨k, rfl⟩ := Int.eq_ofNat_of_zero_le hpos.nonneg
  obtain ⟨hget, hlen, hfront⟩ := insertByte_getElem? h hle ch hroom k
  rw [List.append_assoc, List.getElem?_append_right (by omega), hfront, Nat.sub_self,
    EditorBuffer.getElem?_text, if_pos (by omega)] at hget
  exact Option.some.inj hget

theorem indentAt_congr {p : Int} {n : Nat} (hle : p + n ≤ eb.len) (hle' : p + n ≤ eb'.len)
    (hsame : ∀ i, p ≤ i → i < p + n → eb'.textAt i = eb.textAt i) : eb'.indentAt p n = eb.indentAt p n := by
  induction n generalizing p with
  | zero => rfl
  | succ n ih =>
    unfold EditorBuffer.indentAt
    rw [hsame p (by omega) (by omega), ih (by omega) (by omega) (fun i hi hlt => hsame i (by omega) (by omega))]
    have hin : p < eb.len ↔ p < eb'.len := by omega
    simp only [hin]

theorem scanDown_congr {p q : Int → Bool} {n : Nat} {pos : Int}
    (hsame : ∀ i, pos - n < i → i ≤ pos → p i = q i) : scanDown p n pos = scanDown q n pos := by
  induction n generalizing pos with
  | zero => rfl
  | succ n ih =>
    unfold scanDown
    rw [hsame pos (by omega) (Int.le_refl pos), ih (fun i hi hle => hsame i (by omega) (by omega))]

theorem autoIndent_ok (h : v.Ok) {m ls : Int} (hm : v.eb.textAt m = 10) (hls : 0 ≤ ls) (hle : ls ≤ m)
    (hlt : m < v.gPos) (n : Nat) (hroom : v.eb.len + (v.eb.indentAt ls (m - ls).toNat).length ≤ maxText - 1)
    : (v.autoIndent n ls).Ok := by
  induction n generalizing v ls with
  | zero => exact h
  | succ n ih =>
    obtain ⟨hnonneg, hpos, hfull, hcap⟩ := h.small
    unfold autoIndent
    dsimp only
    split
    . next hblank =>
      have hne : ls ≠ m := by
        rintro rfl
        rw [hm] at hblank
        exact absurd hblank.2.1 (by decide)
      obtain ⟨k, hk⟩ : ∃ k, (m - ls).toNat = k + 1 := ⟨(m - ls).toNat - 1, by omega⟩
      have hk' : (m - (ls + 1)).toNat = k := by omega
      rw [hk] at hroom
      unfold EditorBuffer.indentAt at hroom
      rw [if_pos ⟨hblank.1, hblank.2.1⟩, List.length_cons] at hroom
      generalize v.eb.textAt ls = c2 at *
      obtain ⟨hinv, hlen, -⟩ := EditorBuffer.insertByte_len h.inv v.gPos c2
      have hsame : ∀ i, 0 ≤ i → i < v.gPos → (v.eb.insertByte v.gPos c2).2.textAt i = v.eb.textAt i :=
        fun i hi hlti => insertByte_before h.inv h.pos c2 (by omega) hi hlti
      apply ih
      . exact ⟨hinv, by dsimp only [sessCapture]; omega, by dsimp only [sessCapture]; omega⟩
      . dsimp only [sessCapture]
        rw [hsame m (by omega) hlt]
        exact hm
      . omega
      . omega
      . dsimp only [sessCapture]
        omega
      . dsimp only [sessCapture]
        rw [hk', indentAt_congr (by omega) (by omega) (fun i hi hlti => hsame i (by omega) (by omega))]
        omega
    . exact h

theorem insertEnter_ok (h : v.Ok) (hfits : EnterFits v) : v.insertEnter.Ok := by
  obtain ⟨hnonneg, hle, hfull, hcap⟩ := h.small
  obtain ⟨hinv, hlen, hrefused⟩ := EditorBuffer.insertByte_len h.inv v.gPos 10
  have htyped := typeByte_ok h 10
  unfold insertEnter
  dsimp only
  split
  . next hon =>
    have hyes : v.eb.len ≠ maxText - 1 := fun hno => hon.1 (hrefused.mpr hno)
    have hstate : v.typeByte 10 = { v with
        eb := (v.eb.insertByte v.gPos 10).2
        gPos := v.gPos + 1 }.sessCapture 10 := by
      unfold typeByte
      dsimp only
      rw [if_neg hon.1]
    have hai : v.optAi = true := by
      have := hon.2
      rw [hstate] at this
      exact this
    obtain hno | hroom := hfits hai
    . exact absurd hno hyes
    . rw [hstate] at htyped ⊢
      dsimp only [sessCapture] at htyped ⊢
      have hback : v.gPos + 1 - 1 = v.gPos := by omega
      rw [hback]
      have hsame : ∀ i, 0 ≤ i → i < v.gPos → (v.eb.insertByte v.gPos 10).2.textAt i = v.eb.textAt i :=
        fun i hi hlti => insertByte_before h.inv h.pos 10 (by omega) hi hlti
      have hls : (v.eb.insertByte v.gPos 10).2.lineStart v.gPos = v.eb.lineStart v.gPos := by
        unfold EditorBuffer.lineStart
        apply scanDown_congr
        intro i hi hlei
        rw [hsame (i - 1) (by omega) (by omega)]
      obtain ⟨hlow, hhigh⟩ := EditorBuffer.lineStart_bounds v.eb hnonneg
      have hnl : (v.eb.insertByte v.gPos 10).2.textAt v.gPos = 10 :=
        insertByte_at h.inv h.pos 10 (by omega)
      rw [hls]
      apply autoIndent_ok htyped (m := v.gPos) hnl hlow hhigh (by dsimp only; omega)
      dsimp only
      rw [@indentAt_congr v.eb _ _ _ (by omega) (by omega) (fun i hi hlti => hsame i (by omega) (by omega))]
      omega
  . exact htyped

theorem openLine.indent_ok (h : v.Ok) (ind : Bytes) (hroom : v.eb.len + ind.length ≤ maxText - 1)
    : (openLine.indent v ind).Ok := by
  induction ind generalizing v with
  | nil => exact h
  | cons ch ind ih =>
    obtain ⟨hnonneg, hle, hfull, hcap⟩ := h.small
    rw [List.length_cons] at hroom
    obtain ⟨hinv, hlen, -⟩ := EditorBuffer.insertByte_len h.inv v.gPos ch
    unfold openLine.indent
    apply ih
    . exact ⟨hinv, by dsimp only [sessCapture]; omega, by dsimp only [sessCapture]; omega⟩
    . dsimp only [sessCapture]
      omega

theorem openLine_ok (h : v.Ok) {above : Bool} (hfits : OpenFits v above) : (v.openLine above).Ok := by
  obtain ⟨hnonneg, hle, hfull, hcap⟩ := h.small
  have hstart := EditorBuffer.lineStart_inText h.pos
  have hend := EditorBuffer.lineEnd_inText h.pos
  have := hstart.nonneg
  have := hstart.le
  have := hend.nonneg
  have := hend.le
  obtain ⟨hinv, hlen, -⟩ := EditorBuffer.insertByte_len h.inv
    (if above then v.eb.lineStart v.gPos else v.eb.lineEnd v.gPos) 10
  unfold OpenFits at hfits
  dsimp only at hfits
  obtain ⟨w, hw⟩ : ∃ w, w = { v.gEnterInsert true with
      eb := (v.eb.insertByte (if above then v.eb.lineStart v.gPos else v.eb.lineEnd v.gPos) 10).2
      gPos := if above then v.eb.lineStart v.gPos
        else (if above then v.eb.lineStart v.gPos else v.eb.lineEnd v.gPos) + 1 }.sessCapture 10 := ⟨_, rfl⟩
  have hopen : v.openLine above
      = if w.optAi then openLine.indent w (v.eb.indentAt (v.eb.lineStart v.gPos) 126) else w := by
    rw [hw]
    rfl
  have hai : w.optAi = v.optAi := by
    rw [hw]
    rfl
  have hwlen : w.eb.len = min (v.eb.len + 1) (maxText - 1) := by
    rw [← hlen, hw]
    rfl
  have hok : w.Ok := by
    rw [hw]
    refine ⟨hinv, ?_⟩
    dsimp only [sessCapture]
    cases above with
    | true => exact ⟨by simp only [if_true]; omega, by simp only [if_true] at hlen ⊢; omega⟩
    | false =>
      simp only [Bool.false_eq_true, if_false, false_and, false_or] at hfits hlen ⊢
      exact ⟨by omega, by omega⟩
  rw [hopen, hai]
  split
  . next hon =>
    rw [if_pos hon] at hfits
    apply openLine.indent_ok hok
    obtain hnone | hroom := hfits
    . rw [hnone.2, List.length_nil]
      omega
    . omega
  . exact hok

end Indent

section Insert

theorem insertKey_ok (h : v.Ok) {key : Int} (hesc : key = 27 → EscFits v)
    (henter : key = 0x84 ∨ key = 10 → EnterFits v) : (v.insertKey key).Ok := by
  unfold insertKey
  split
  . next hkey => exact insertEsc_ok h (hesc hkey)
  . split
    . exact insertBackspace_ok h
    . split
      . obtain ⟨hlow, hle⟩ := EditorBuffer.backWordStart_bounds v.eb 1 h.pos.nonneg
        dsimp only
        split
        . obtain ⟨hinv, hpos⟩ := deleteBack_ok h hlow hle
          exact ⟨hinv, hpos⟩
        . exact h
      . split
        . next hkey => exact insertEnter_ok h (henter hkey)
        . split
          . exact typeByte_ok h 9
          . split
            . exact typeByte_ok h _
            . exact arrowKey_ok h key

end Insert

section Overtype

variable {eb eb' : EditorBuffer} {g g' : Int}

structure SameBehind (eb eb' : EditorBuffer) (g g' : Int) : Prop where
  nonneg : 0 ≤ g
  nonneg' : 0 ≤ g'
  len : eb.len - g = eb'.len - g'
  textAt : ∀ i, 0 ≤ i → eb.textAt (g + i) = eb'.textAt (g' + i)

theorem SameBehind.decodeRest (h : SameBehind eb eb' g g') {i : Int} (hi : 0 ≤ i) (need : Nat) (c : UInt32)
    : eb.decodeRest (g + i) need c = eb'.decodeRest (g' + i) need c := by
  induction need generalizing i c with
  | zero => rfl
  | succ need ih =>
    unfold EditorBuffer.decodeRest
    dsimp only
    rw [h.textAt i hi, Int.add_assoc, Int.add_assoc, ih (by omega)]

theorem SameBehind.rest (h : SameBehind eb eb' g g') (need : Nat) (c : UInt32)
    : EditorBuffer.decodeAt.rest eb g need c = EditorBuffer.decodeAt.rest eb' g' need c := by
  have hin : eb.len ≤ g + need ↔ eb'.len ≤ g' + need := by
    have := h.len
    omega
  unfold EditorBuffer.decodeAt.rest
  rw [h.decodeRest (by decide)]
  simp only [hin]

theorem SameBehind.cpLen (h : SameBehind eb eb' g g') : eb.cpLen g = eb'.cpLen g' := by
  have hat := h.textAt 0 (Int.le_refl 0)
  rw [Int.add_zero, Int.add_zero] at hat
  have hin : g < 0 ∨ eb.len ≤ g ↔ g' < 0 ∨ eb'.len ≤ g' := by
    have := h.nonneg
    have := h.nonneg'
    have := h.len
    omega
  unfold EditorBuffer.cpLen EditorBuffer.decodeAt
  simp only [hin, hat, h.rest]

theorem SameBehind.forward (h : SameBehind eb eb' g g') {n : Int} (hn : 0 ≤ n)
    : SameBehind eb eb' (g + n) (g' + n) where
  nonneg := by
    have := h.nonneg
    omega
  nonneg' := by
    have := h.nonneg'
    omega
  len := by
    have := h.len
    omega
  textAt i hi := by
    rw [Int.add_assoc, Int.add_assoc]
    exact h.textAt (n + i) (by omega)

theorem charsForward_on {p : Int} (hon : p < v.eb.len ∧ v.eb.textAt p ≠ 10) (n : Nat) (m : Int)
    : v.charsForward (n + 1) p m = v.charsForward n (v.eb.stepForward p) (m + 1) :=
  if_pos hon

theorem charsForward_off {p : Int} (hoff : ¬(p < v.eb.len ∧ v.eb.textAt p ≠ 10)) (n : Nat) (m : Int)
    : v.charsForward n p m = (p, m) := by
  cases n with
  | zero => rfl
  | succ n => exact if_neg hoff

theorem charsForward_congr {w : ViState} (h : w.eb = v.eb) (n : Nat) (p m : Int)
    : w.charsForward n p m = v.charsForward n p m := by
  induction n generalizing p m with
  | zero => rfl
  | succ n ih =>
    unfold ViState.charsForward
    rw [h, ih]

theorem SameBehind.charsForward {v w : ViState} (h : SameBehind v.eb w.eb g g') (n : Nat) (m m' : Int)
    : (v.charsForward n g m).1 - g = (w.charsForward n g' m').1 - g' := by
  induction n generalizing g g' m m' with
  | zero =>
    unfold ViState.charsForward
    dsimp only
    omega
  | succ n ih =>
    have hat := h.textAt 0 (Int.le_refl 0)
    rw [Int.add_zero, Int.add_zero] at hat
    have hin : g < v.eb.len ↔ g' < w.eb.len := by
      have := h.len
      omega
    by_cases hon : g < v.eb.len ∧ v.eb.textAt g ≠ 10
    . rw [charsForward_on hon, charsForward_on (by rw [← hin, ← hat]; exact hon)]
      unfold EditorBuffer.stepForward
      rw [if_neg (by omega), if_neg (by have := h.len; omega), ← h.cpLen]
      have hpos := EditorBuffer.cpLen_pos v.eb g
      have hrest := ih (h.forward (by omega : 0 ≤ v.eb.cpLen g)) (m + 1) (m' + 1)
      omega
    . rw [charsForward_off hon, charsForward_off (by rw [← hin, ← hat]; exact hon)]
      dsimp only
      omega

theorem sameBehind_of_drop (h : GapInv eb) (h' : GapInv eb') {i j : Nat} (hi : i ≤ eb.len) (hj : j ≤ eb'.len)
    (hdrop : eb.text.drop i = eb'.text.drop j) : SameBehind eb eb' i j := by
  have hlen := EditorBuffer.length_text h
  have hlen' := EditorBuffer.length_text h'
  have hsize := congrArg List.length hdrop
  rw [List.length_drop, List.length_drop] at hsize
  refine ⟨by omega, by omega, by omega, ?_⟩
  intro k hk
  obtain ⟨k, rfl⟩ := Int.eq_ofNat_of_zero_le hk
  have hat : (eb.text.drop i)[k]?.getD 0 = (eb'.text.drop j)[k]?.getD 0 := by
    rw [hdrop]
  rw [List.getElem?_drop, List.getElem?_drop] at hat
  have hsum : ((i : Int) + k).toNat = i + k := by omega
  have hsum' : ((j : Int) + k).toNat = j + k := by omega
  rw [EditorBuffer.textAt_eq, EditorBuffer.textAt_eq, if_pos (by omega), if_pos (by omega), hsum, hsum', hat]

theorem overtype_behind (h : v.Ok) (hfits : OvertypeFits v) (ch : Byte)
    : (v.overtype ch).Ok
        ∧ (v.overtype ch).eb.len - (v.overtype ch).gPos = v.eb.len - (v.charsForward 1 v.gPos 0).1
        ∧ (v.overtype ch).gPos = v.gPos + 1
        ∧ SameBehind v.eb (v.overtype ch).eb (v.charsForward 1 v.gPos 0).1 (v.overtype ch).gPos := by
  obtain ⟨hnonneg, hle, hfull, hcap⟩ := h.small
  have hlen := EditorBuffer.length_text h.inv
  obtain ⟨i, hi⟩ := Int.eq_ofNat_of_zero_le hnonneg
  -- what is left after the character has gone
  obtain ⟨eb', j, heb', hinv', hj, hij, htext', hroom', hchars⟩ : ∃ (eb' : EditorBuffer) (j : Nat),
      eb' = (if v.gPos < v.eb.len ∧ v.eb.textAt v.gPos ≠ 10 then v.eb.deleteRange v.gPos (v.eb.cpLen v.gPos)
        else v.eb) ∧ GapInv eb' ∧ j ≤ v.eb.text.length ∧ i ≤ j
      ∧ eb'.text = v.eb.text.take i ++ v.eb.text.drop j ∧ eb'.len < maxText - 1
      ∧ (v.charsForward 1 v.gPos 0).1 = (j : Int) := by
    by_cases hon : v.gPos < v.eb.len ∧ v.eb.textAt v.gPos ≠ 10
    . have hpos := EditorBuffer.cpLen_pos v.eb v.gPos
      have hin := EditorBuffer.cpLen_le hon.1
      obtain ⟨c, hc⟩ := Int.eq_ofNat_of_zero_le (by omega : 0 ≤ v.eb.cpLen v.gPos)
      have hcount : (((i + c : Nat) : Int) - i) = c := by omega
      obtain ⟨hinv, htext⟩ := EditorBuffer.deleteRange_at h.inv (by omega : i ≤ i + c) (by omega)
      rw [hcount, ← hi, ← hc] at hinv htext
      refine ⟨_, i + c, rfl, ?_, by omega, by omega, ?_, ?_, ?_⟩
      . rw [if_pos hon]
        exact hinv
      . rw [if_pos hon]
        exact htext
      . rw [if_pos hon, ← EditorBuffer.length_text hinv, htext, List.length_append, List.length_take,
          List.length_drop]
        omega
      . rw [charsForward_on hon]
        unfold ViState.charsForward EditorBuffer.stepForward
        rw [if_neg (by omega)]
        dsimp only
        omega
    . refine ⟨_, i, rfl, ?_, by omega, Nat.le_refl i, ?_, ?_, ?_⟩
      . rw [if_neg hon]
        exact h.inv
      . rw [if_neg hon, List.take_append_drop]
      . rw [if_neg hon]
        obtain hno | hroom := hfits
        . exact absurd hno hon
        . exact hroom
      . rw [charsForward_off hon]
        exact hi
  have hlen' := EditorBuffer.length_text hinv'
  have hfront : (v.eb.text.take i).length = i := by
    rw [List.length_take]
    omega
  have hsize := congrArg List.length htext'
  rw [List.length_append, hfront, List.length_drop] at hsize
  obtain ⟨-, hinv, htext⟩ := EditorBuffer.insertByte_room hinv' (k := i) (by omega) ch (by omega)
  have hcut : eb'.text.take i = v.eb.text.take i := by
    rw [htext']
    exact List.take_left' hfront
  have hrest : eb'.text.drop i = v.eb.text.drop j := by
    rw [htext']
    exact List.drop_left' hfront
  have hgrown := EditorBuffer.length_text hinv
  have hsize' := congrArg List.length htext
  rw [hcut, hrest, List.length_append, List.length_append, hfront, List.length_drop, List.length_singleton]
    at hsize'
  have hstate : v.overtype ch = { v with eb := (eb'.insertByte i ch).2, gPos := v.gPos + 1 } := by
    rw [heb', ← hi]
    rfl
  have hbehind : v.eb.text.drop j = (eb'.insertByte i ch).2.text.drop (i + 1) := by
    rw [htext, hcut, hrest]
    have hone : (v.eb.text.take i ++ [ch]).length = i + 1 := by
      rw [List.length_append, hfront, List.length_singleton]
    exact (List.drop_left' hone).symm
  have hsame := sameBehind_of_drop h.inv hinv (by omega : (j : Int) ≤ v.eb.len) (by omega) hbehind
  have hnext : ((i + 1 : Nat) : Int) = v.gPos + 1 := by omega
  rw [hnext] at hsame
  rw [hstate, hchars]
  refine ⟨⟨hinv, ?_⟩, ?_, rfl, hsame⟩
  . dsimp only
    exact ⟨by omega, by omega⟩
  . dsimp only
    omega

theorem foldl_overtype_ok (h : v.Ok) {s : Bytes} (hfits : OverFits v s.length) : (s.foldl overtype v).Ok := by
  induction s generalizing v with
  | nil => exact h
  | cons ch s ih =>
    obtain ⟨hnonneg, hle, hfull, hcap⟩ := h.small
    unfold OverFits charsEnd at hfits
    rw [List.length_cons] at hfits
    -- the first character of those that the bytes go over
    have hsplit : ∃ m, (v.charsForward (s.length + 1) v.gPos 0).1
        = (v.charsForward s.length (v.charsForward 1 v.gPos 0).1 m).1 := by
      by_cases hon : v.gPos < v.eb.len ∧ v.eb.textAt v.gPos ≠ 10
      . rw [charsForward_on hon, charsForward_on hon]
        exact ⟨0 + 1, rfl⟩
      . rw [charsForward_off hon, charsForward_off hon]
        exact ⟨0, by rw [charsForward_off hon]⟩
    obtain ⟨m, hm⟩ := hsplit
    have hone : OvertypeFits v := by
      by_cases hon : v.gPos < v.eb.len ∧ v.eb.textAt v.gPos ≠ 10
      . exact Or.inl hon
      . right
        have hstay : (v.charsForward (s.length + 1) v.gPos 0).1 = v.gPos := by
          rw [charsForward_off hon]
        rw [hstay] at hfits
        omega
    obtain ⟨hok, hrest, hnext, hsame⟩ := overtype_behind h hone ch
    rw [List.foldl_cons]
    apply ih hok
    unfold OverFits charsEnd
    have hfar := hsame.charsForward s.length m 0
    omega

theorem overtypeAll_eq (v : ViState) (s : Bytes) (n : Nat)
    : v.overtypeAll s n = (copies n s).foldl overtype v := by
  induction n generalizing v with
  | zero => rfl
  | succ n ih =>
    rw [copies_succ, List.foldl_append]
    exact ih _

theorem replaceKey_ok (h : v.Ok) {key : Int} (hfits : 32 ≤ key ∧ key ≤ 126 ∨ key = 9 → OvertypeFits v)
    : (v.replaceKey key).Ok := by
  unfold replaceKey
  split
  . exact ⟨h.inv, h.pos⟩
  . split
    . exact ⟨h.inv, EditorBuffer.stepBackward_inText h.pos⟩
    . split
      . exact typeByte_ok h 10
      . split
        . next hkey =>
          have hok := (overtype_behind h (hfits hkey) (UInt8.ofNat key.toNat)).1
          exact ⟨hok.inv, hok.pos⟩
        . exact arrowKey_ok h key

theorem replayLast_ok (h : v.Ok) (hfits : DotFits v) {w : ViState} (hw : v.replayLast = some w) : w.Ok := by
  obtain ⟨hnonneg, hle, hfull, hcap⟩ := h.small
  unfold replayLast at hw
  unfold DotFits at hfits
  cases hkind : v.lastch.kind with
  | none =>
    rw [hkind] at hw
    obtain rfl := Option.some.inj hw
    exact h
  | ins =>
    rw [hkind] at hw hfits
    obtain ⟨hlow, hhigh⟩ := hfits
    obtain rfl := Option.some.inj hw
    change Ok { v.changeBegin with
      eb := insertHere v.eb v.gPos v.lastch.text v.lastch.count.toNat
      gPos := if (insertHere v.eb v.gPos v.lastch.text v.lastch.count.toNat).len
            < int32 (v.gPos + int32 (v.lastch.text.length * v.lastch.count)) then
          (insertHere v.eb v.gPos v.lastch.text v.lastch.count.toNat).len
        else int32 (v.gPos + int32 (v.lastch.text.length * v.lastch.count)) }
    obtain ⟨hinv, hlen⟩ := EditorBuffer.insertHere_len h.inv v.gPos v.lastch.text v.lastch.count.toNat
    rw [int32_sum (by omega) (by omega) (by omega) hhigh]
    refine ⟨hinv, ?_⟩
    dsimp only
    split
    . exact ⟨by omega, Int.le_refl _⟩
    . exact ⟨by omega, by omega⟩
  | overwrite =>
    rw [hkind] at hw hfits
    obtain rfl := Option.some.inj hw
    rw [overtypeAll_eq]
    apply @foldl_overtype_ok v.changeBegin ⟨h.inv, h.pos⟩
    rw [length_copies]
    unfold OverFits charsEnd
    rw [@charsForward_congr v v.changeBegin rfl]
    exact hfits
  | del =>
    rw [hkind] at hw
    exact absurd hw (by simp)

end Overtype

theorem enter_ok (h : v.Ok) {e : ModeEntry} {count : Int} (hfits : (Keystroke.enter e count).Fits v)
    : (v.enter e count).Ok := by
  unfold enter
  cases e with
  | i => exact ⟨h.inv, h.pos⟩
  | upperI => exact ⟨h.inv, EditorBuffer.firstNonblank_inText h.pos⟩
  | a =>
    dsimp only
    split
    . exact ⟨h.inv, EditorBuffer.stepForward_inText h.pos⟩
    . exact ⟨h.inv, h.pos⟩
  | upperA => exact ⟨h.inv, EditorBuffer.lineEnd_inText h.pos⟩
  | o =>
    have hok := @openLine_ok { v with stCount := count } ⟨h.inv, h.pos⟩ false hfits
    exact ⟨hok.inv, hok.pos⟩
  | upperO =>
    have hok := @openLine_ok { v with stCount := count } ⟨h.inv, h.pos⟩ true hfits
    exact ⟨hok.inv, hok.pos⟩
  | upperR => exact ⟨h.inv, h.pos⟩

theorem keystroke_ok (h : v.Ok) {k : Keystroke} (hfits : k.Fits v) {w : ViState} (hw : k.Step v w) : w.Ok := by
  unfold Keystroke.Step keystroke at hw
  cases k with
  | put after count reg =>
    cases hmode : v.gMode with
    | command =>
      rw [hmode] at hw
      obtain rfl := Option.some.inj hw
      exact doPut_ok h hfits
    | insert =>
      rw [hmode] at hw
      exact absurd hw (by simp)
    | replace =>
      rw [hmode] at hw
      exact absurd hw (by simp)
  | enter e count =>
    cases hmode : v.gMode with
    | command =>
      rw [hmode] at hw
      obtain rfl := Option.some.inj hw
      exact enter_ok h hfits
    | insert =>
      rw [hmode] at hw
      exact absurd hw (by simp)
    | replace =>
      rw [hmode] at hw
      exact absurd hw (by simp)
  | key c =>
    change KeyFits v c at hfits
    unfold KeyFits at hfits
    cases hmode : v.gMode with
    | command =>
      rw [hmode] at hw
      exact absurd hw (by simp)
    | insert =>
      rw [hmode] at hw hfits
      obtain rfl := Option.some.inj hw
      exact insertKey_ok h hfits.1 hfits.2
    | replace =>
      rw [hmode] at hw hfits
      obtain rfl := Option.some.inj hw
      exact replaceKey_ok h hfits
  | dot =>
    cases hmode : v.gMode with
    | command =>
      rw [hmode] at hw
      exact replayLast_ok h hfits hw
    | insert =>
      rw [hmode] at hw
      exact absurd hw (by simp)
    | replace =>
      rw [hmode] at hw
      exact absurd hw (by simp)

end ViState

/--
The cursor is in the text after every keystroke of a run in which there is room for what is put and typed.
-/
theorem cursor_inText (x y : ViState) (h : GapInv x.eb) (hpos : x.eb.InText x.gPos)
    (hrun : Run Keystroke.Step (fun v k => k.Fits v) x y)
    : 0 ≤ y.gPos ∧ y.gPos ≤ y.eb.len := by
  have hok := Run.keeps (I := ViState.Ok) (fun _ _ _ hfits hv hstep => ViState.keystroke_ok hv hfits hstep)
    ⟨h, hpos⟩ hrun
  exact ⟨hok.pos.nonneg, hok.pos.le⟩

/--
The lines `x` and `y`, and `ab` in all registers.
-/
def twoLines : ViState :=
  { editing [120, 10, 121] with regs := fun _ => ⟨[97, 98], false⟩, gPos := 1 }

/--
`3p`, `i` and `c`.
-/
theorem cursor_inText_put
    : 0 ≤ (((twoLines.doPut true 3 34).enter .i 0).insertKey 99).gPos
        ∧ (((twoLines.doPut true 3 34).enter .i 0).insertKey 99).gPos
          ≤ (((twoLines.doPut true 3 34).enter .i 0).insertKey 99).eb.len := by
  obtain ⟨hinv, htext⟩ := @editing_text [120, 10, 121] (by decide)
  have hlen : twoLines.eb.len = 3 := by
    have := EditorBuffer.length_text hinv
    rw [htext] at this
    exact this.symm
  have hpos : twoLines.eb.InText twoLines.gPos := ⟨by decide, by rw [hlen]; decide⟩
  have hmode : (twoLines.doPut true 3 34).gMode = .command := by
    decide +kernel
  have hrun : Run Keystroke.Step (fun v k => k.Fits v) twoLines
      (((twoLines.doPut true 3 34).enter .i 0).insertKey 99) := by
    have hput : (Keystroke.put true 3 34).Step twoLines (twoLines.doPut true 3 34) := rfl
    have hroom : (Keystroke.put true 3 34).Fits twoLines := by
      refine Or.inr (Or.inr (Or.inr ⟨by decide, ?_⟩))
      rw [hlen]
      decide
    have henter : (Keystroke.enter .i 0).Step (twoLines.doPut true 3 34)
        ((twoLines.doPut true 3 34).enter .i 0) := by
      unfold Keystroke.Step ViState.keystroke
      rw [hmode]
    have hkey : (Keystroke.key 99).Step ((twoLines.doPut true 3 34).enter .i 0)
        (((twoLines.doPut true 3 34).enter .i 0).insertKey 99) := rfl
    have hfits : (Keystroke.key 99).Fits ((twoLines.doPut true 3 34).enter .i 0) := by
      refine ⟨?_, ?_⟩
      . intro hesc
        exact absurd hesc (by decide)
      . intro henter
        exact absurd henter (by decide)
    exact Run.call (Run.call (Run.call .refl hput hroom) henter trivial) hkey hfits
  exact cursor_inText twoLines _ hinv hpos hrun

/--
The buffer is full, the cursor at the end of it: `R` and `b`.
-/
theorem not_cursor_inText
    : ¬∀ x y : ViState, GapInv x.eb → x.eb.InText x.gPos → Run Keystroke.Step (fun _ _ => True) x y →
        0 ≤ y.gPos ∧ y.gPos ≤ y.eb.len := by
  intro hall
  have hsize : (List.replicate (maxText - 1) (97 : Byte)).length = maxText - 1 := List.length_replicate
  obtain ⟨hinv, htext⟩ := @editing_text (List.replicate (maxText - 1) 97) (Nat.le_of_eq hsize)
  generalize editing (List.replicate (maxText - 1) 97) = e at hinv htext
  have hlen := EditorBuffer.length_text hinv
  have hcap : 0 < maxText := by decide
  rw [htext, hsize] at hlen
  obtain ⟨x, hx⟩ : ∃ x, x = { e with gPos := e.eb.len, gMode := .command } := ⟨_, rfl⟩
  have heb : x.eb = e.eb := by
    rw [hx]
  have hpos : x.gPos = e.eb.len := by
    rw [hx]
  have hmode : x.gMode = .command := by
    rw [hx]
  have hstep : (Keystroke.enter .upperR 0).Step x (x.enter .upperR 0) := by
    unfold Keystroke.Step ViState.keystroke
    rw [hmode]
  have hkey : (Keystroke.key 98).Step (x.enter .upperR 0) ((x.enter .upperR 0).replaceKey 98) := rfl
  have hend := hall x _ (by rw [heb]; exact hinv) (by rw [hpos, heb]; exact ⟨by omega, Int.le_refl _⟩)
    (Run.call (Run.call .refl hstep trivial) hkey trivial)
  have hover : (x.enter .upperR 0).replaceKey 98 = ((x.enter .upperR 0).overtype 98).sessCapture 98 := rfl
  rw [hover] at hend
  have hoff : ¬(x.gPos < x.eb.len ∧ x.eb.textAt x.gPos ≠ 10) := by
    rw [hpos, heb]
    omega
  have hlast : (((x.enter .upperR 0).overtype 98).sessCapture 98).gPos = x.gPos + 1 := rfl
  have heb' : (((x.enter .upperR 0).overtype 98).sessCapture 98).eb = (x.eb.insertByte x.gPos 98).2 := by
    change ((if x.gPos < x.eb.len ∧ x.eb.textAt x.gPos ≠ 10 then _ else x.eb).insertByte x.gPos 98).2 = _
    rw [if_neg hoff]
  rw [heb', heb, (EditorBuffer.insertByte_len hinv x.gPos 98).2.1] at hend
  omega

end TanjaOS
