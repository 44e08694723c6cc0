import TanjaOS.Vi.Text

/-!
`:m` and `:t` on the list of lines.
-/

open Lib

namespace TanjaOS

/--
The bytes of the lines from `a1` to `a2`.
-/
def rangeText (t : Bytes) (a1 a2 : Nat) : Bytes :=
  (t.take (lineIndex 10 t (a2 + 1))).drop (lineIndex 10 t a1)

def withoutRange (t : Bytes) (a1 a2 : Nat) : Bytes :=
  t.take (lineIndex 10 t a1) ++ t.drop (lineIndex 10 t (a2 + 1))

section Purpose

/-!
What the commands are for, `dst` counts in the lines as they are before.
-/

def copyLines (ls : List Bytes) (a1 a2 dst : Nat) : List Bytes :=
  ls.take (dst + 1) ++ (ls.drop a1).take (a2 + 1 - a1) ++ ls.drop (dst + 1)

def moveLines (ls : List Bytes) (a1 a2 dst : Nat) : List Bytes :=
  if dst < a1 then
    ls.take (dst + 1) ++ (ls.drop a1).take (a2 + 1 - a1) ++ (ls.take a1).drop (dst + 1) ++ ls.drop (a2 + 1)
  else
    ls.take a1 ++ (ls.take (dst + 1)).drop (a2 + 1) ++ (ls.drop a1).take (a2 + 1 - a1) ++ ls.drop (dst + 1)

def transferLines (move : Bool) (ls : List Bytes) (a1 a2 dst : Nat) : List Bytes :=
  if move then moveLines ls a1 a2 dst else copyLines ls a1 a2 dst

end Purpose

/--
The range is not too large, and it is not moved into itself.
-/
structure Accepted (v : ViState) (move : Bool) (a1 a2 dst : Nat) : Prop where
  size : (rangeText v.eb.text a1 a2).length ≤ 65536
  outside : move → ¬(a1 ≤ dst + 1 ∧ dst ≤ a2)

def transferTarget (move : Bool) (t : Bytes) (a1 a2 dst : Nat) : Bytes × Nat :=
  if move then
    (withoutRange t a1 a2, if a1 ≤ dst then dst - (a2 - a1 + 1) else dst)
  else
    (t, dst)

/--
The last of the lines `c` ends with a newline, or none comes behind it, and there is room for them
behind line `d`.
-/
def PastesWhole (t : Bytes) (d : Nat) (c : Bytes) : Prop :=
  (Closed 10 c ∨ t.drop (lineIndex 10 t (d + 1)) = [])
    ∧ FitsLines 10 (maxText - 1) (closeText 10 (t.take (lineIndex 10 t (d + 1)))) c
      (t.drop (lineIndex 10 t (d + 1)))

section Lists

variable {t : Bytes} {a1 a2 dst : Nat}

theorem linesOf_rangeText (h : a1 ≤ a2)
    : linesOf 10 (rangeText t a1 a2) = ((linesOf 10 t).drop a1).take (a2 + 1 - a1) :=
  linesOf_range t (by omega)

theorem linesOf_withoutRange (h : a1 ≤ a2)
    : linesOf 10 (withoutRange t a1 a2) = (linesOf 10 t).take a1 ++ (linesOf 10 t).drop (a2 + 1) :=
  linesOf_without t (by omega)

theorem moveLines_eq (ls : List Bytes) (h : a1 ≤ a2) (hout : ¬(a1 ≤ dst + 1 ∧ dst ≤ a2)) {d : Nat}
    (hd : d = if a1 ≤ dst then dst - (a2 - a1 + 1) else dst)
    : (ls.take a1 ++ ls.drop (a2 + 1)).take (d + 1) ++ (ls.drop a1).take (a2 + 1 - a1)
          ++ (ls.take a1 ++ ls.drop (a2 + 1)).drop (d + 1)
        = moveLines ls a1 a2 dst := by
  unfold moveLines
  by_cases hbefore : dst < a1
  . rw [if_pos hbefore]
    rw [if_neg (by omega)] at hd
    subst hd
    by_cases hshort : ls.length < a1
    . have hnil : ls.drop (a2 + 1) = [] := List.drop_eq_nil_of_le (by omega)
      rw [hnil, List.append_nil, List.append_nil, List.take_of_length_le (i := a1) (by omega)]
    . have hlen : (ls.take a1).length = a1 := by
        rw [List.length_take]
        omega
      rw [List.take_append_of_le_length (by omega), List.take_take, Nat.min_eq_left (by omega),
        List.drop_append_of_le_length (by omega)]
      simp only [List.append_assoc]
  . rw [if_neg hbefore]
    rw [if_pos (by omega)] at hd
    by_cases hshort : ls.length < a1
    . have hnil : ls.drop (a2 + 1) = [] := List.drop_eq_nil_of_le (by omega)
      have hrange : (ls.drop a1).take (a2 + 1 - a1) = [] := by
        rw [List.drop_eq_nil_of_le (by omega), List.take_nil]
      have hwhole : ls.take a1 = ls := List.take_of_length_le (by omega)
      have hwhole' : ls.take (dst + 1) = ls := List.take_of_length_le (by omega)
      have hnil' : ls.drop (dst + 1) = [] := List.drop_eq_nil_of_le (by omega)
      rw [hnil, hrange, hwhole, hwhole', hnil', hnil]
      simp
    . have hlen : (ls.take a1).length = a1 := by
        rw [List.length_take]
        omega
      have hpast : d + 1 - a1 = dst + 1 - (a2 + 1) := by omega
      rw [List.take_append, hlen, List.take_of_length_le (l := ls.take a1) (by omega), hpast, List.drop_append,
        hlen, @List.drop_eq_nil_of_le _ (ls.take a1) _ (by omega), hpast, List.nil_append, List.drop_drop,
        List.drop_take]
      have hsum : a2 + 1 + (dst + 1 - (a2 + 1)) = dst + 1 := by omega
      rw [hsum]

theorem transferLines_eq (move : Bool) (h : a1 ≤ a2) (hout : move → ¬(a1 ≤ dst + 1 ∧ dst ≤ a2))
    : (linesOf 10 (transferTarget move t a1 a2 dst).1).take ((transferTarget move t a1 a2 dst).2 + 1)
          ++ linesOf 10 (rangeText t a1 a2)
          ++ (linesOf 10 (transferTarget move t a1 a2 dst).1).drop ((transferTarget move t a1 a2 dst).2 + 1)
        = transferLines move (linesOf 10 t) a1 a2 dst := by
  unfold transferTarget transferLines
  rw [linesOf_rangeText h]
  cases move with
  | false => rfl
  | true =>
    simp only [if_true]
    rw [linesOf_withoutRange h]
    exact moveLines_eq (linesOf 10 t) h (hout rfl) rfl

theorem linesOf_paste_iff (hlen : t.length ≤ maxText - 1) (d : Nat) (c : Bytes)
    : linesOf 10 ((closeText 10 (t.take (lineIndex 10 t (d + 1))) ++ c).take
            (maxText - 1 - (t.drop (lineIndex 10 t (d + 1))).length) ++ t.drop (lineIndex 10 t (d + 1)))
          = (linesOf 10 t).take (d + 1) ++ linesOf 10 c ++ (linesOf 10 t).drop (d + 1)
        ↔ PastesWhole t d c := by
  have hfront := @closed_closeText _ (10 : Byte) _ (t.take (lineIndex 10 t (d + 1)))
  have hparts : (linesOf 10 t).take (d + 1) ++ linesOf 10 c ++ (linesOf 10 t).drop (d + 1)
      = linesOf 10 (closeText 10 (t.take (lineIndex 10 t (d + 1))) ++ closeText 10 c
        ++ closeText 10 (t.drop (lineIndex 10 t (d + 1)))) := by
    rw [linesOf_append ((closed_append hfront).mpr (closed_closeText c)), linesOf_append hfront,
      linesOf_closeText, linesOf_closeText, linesOf_closeText, linesOf_take, linesOf_drop]
  have hwhole : closeText 10 (closeText 10 (t.take (lineIndex 10 t (d + 1))) ++ closeText 10 c
        ++ closeText 10 (t.drop (lineIndex 10 t (d + 1))))
      = closeText 10 (t.take (lineIndex 10 t (d + 1))) ++ closeText 10 c
        ++ closeText 10 (t.drop (lineIndex 10 t (d + 1))) := by
    apply closeText_of_closed
    rw [closed_append ((closed_append hfront).mpr (closed_closeText c))]
    exact closed_closeText _
  rw [hparts, linesOf_eq_iff, hwhole]
  exact closeText_cut_iff hfront (by rw [List.length_drop]; omega)

end Lists

namespace ViState

variable {v : ViState}

theorem paste_text (h : GapInv v.eb) (d : Nat) {c : Bytes} (hc : c.length ≤ 65536)
    : (exTransfer.paste v d c).eb.text
        = (closeText 10 (v.eb.text.take (lineIndex 10 v.eb.text (d + 1))) ++ c).take
            (maxText - 1 - (v.eb.text.drop (lineIndex 10 v.eb.text (d + 1))).length)
          ++ v.eb.text.drop (lineIndex 10 v.eb.text (d + 1)) := by
  unfold exTransfer.paste
  dsimp only
  rw [EditorBuffer.lineEndNumber_succ h]
  have hd : ((d : Int)).toNat = d := by omega
  rw [hd]
  exact (EditorBuffer.insertLinesAt_text h (lineIndex_le _ _) (closed_take_lineIndex _ _) (by omega)).2

theorem regStore_eb (c : Int) (data : Bytes) (lines : Bool) : (v.regStore c data lines).eb = v.eb := by
  unfold regStore
  dsimp only
  split <;> rfl

theorem regStoreBoth_eb (c : Int) (data : Bytes) (lines : Bool) : (v.regStoreBoth c data lines).eb = v.eb := by
  unfold regStoreBoth
  dsimp only
  split
  . rw [regStore_eb, regStore_eb]
  . rw [regStore_eb]

theorem exTransfer_text (h : GapInv v.eb) {move : Bool} {a1 a2 dst : Nat} (hle : a1 ≤ a2)
    (hacc : Accepted v move a1 a2 dst)
    : ∃ w : ViState, GapInv w.eb ∧ w.eb.text = (transferTarget move v.eb.text a1 a2 dst).1
        ∧ v.exTransfer move a1 a2 dst
          = exTransfer.paste w (transferTarget move v.eb.text a1 a2 dst).2 (rangeText v.eb.text a1 a2) := by
  have hlen := EditorBuffer.length_text h
  have hmono := @lineIndex_mono _ (10 : Byte) _ v.eb.text a1 (a2 + 1) (by omega)
  have hend := @lineIndex_le _ (10 : Byte) _ v.eb.text (a2 + 1)
  have hsize := hacc.size
  unfold rangeText at hsize ⊢
  rw [List.drop_take] at hsize ⊢
  rw [List.length_take, List.length_drop] at hsize
  unfold exTransfer
  dsimp only
  rw [if_neg (by omega : ¬(dst : Int) < 0), if_neg (by omega : ¬(a1 : Int) < 0), if_neg (by omega : ¬(a2 : Int) < 0),
    EditorBuffer.lineRange_eq h hle]
  dsimp only
  generalize hlo : lineIndex 10 v.eb.text a1 = lo at *
  generalize hhi : lineIndex 10 v.eb.text (a2 + 1) = hi at *
  have hn : ((hi : Int) - lo).toNat = hi - lo := by omega
  rw [if_neg (by omega), hn, EditorBuffer.map_textAt h (by omega)]
  unfold transferTarget
  cases move with
  | false =>
    rw [if_neg (by simp)]
    exact ⟨v.changeBegin, h, rfl, rfl⟩
  | true =>
    have hout := hacc.outside rfl
    have hin : ¬(true = true ∧ (a1 : Int) - 1 ≤ dst ∧ (dst : Int) ≤ a2) := by
      rintro ⟨_, hlow, hhigh⟩
      exact hout ⟨by omega, by omega⟩
    rw [if_neg hin]
    obtain ⟨hinv, htext⟩ := EditorBuffer.deleteRange_at h hmono hend
    have hd : (if (a1 : Int) ≤ dst then (dst : Int) - (a2 - a1 + 1) else dst)
        = ((if a1 ≤ dst then dst - (a2 - a1 + 1) else dst : Nat) : Int) := by
      split <;> split <;> omega
    simp only [if_true]
    rw [hd]
    refine ⟨_, ?_, ?_, rfl⟩
    . dsimp only
      rw [regStoreBoth_eb]
      exact hinv
    . dsimp only
      rw [regStoreBoth_eb]
      unfold withoutRange
      rw [hlo, hhi]
      exact htext

end ViState

/--
The lines are joined where the last one of the range has no newline and another one comes behind it.
-/
theorem exTransfer_lines_iff (v : ViState) (move : Bool) (a1 a2 dst : Nat) (h : GapInv v.eb) (hle : a1 ≤ a2)
    (hacc : Accepted v move a1 a2 dst)
    : linesOf 10 (v.exTransfer move a1 a2 dst).eb.text = transferLines move (linesOf 10 v.eb.text) a1 a2 dst
        ↔ PastesWhole (transferTarget move v.eb.text a1 a2 dst).1 (transferTarget move v.eb.text a1 a2 dst).2
          (rangeText v.eb.text a1 a2) := by
  obtain ⟨w, hinv, htext, heq⟩ := ViState.exTransfer_text h hle hacc
  rw [heq, ← transferLines_eq move hle hacc.outside, ← htext, ViState.paste_text hinv _ hacc.size]
  exact linesOf_paste_iff (EditorBuffer.length_le hinv) _ _

section Example

/--
An editor that has just been started on `bs`.
-/
def editing (bs : Bytes) : ViState where
  eb := blankBuffer.load bs
  gPos := 0
  gScroll := 0
  gCols := 80
  gMode := .command
  gModified := false
  undo := []
  redo := []
  regs _ := ⟨[], false⟩
  viMsg := none
  stCount := 0
  sessBuf := []
  sessCount := 1
  lastch := ⟨.none, 0, 0, .excl, []⟩
  optAi := false

theorem editing_text {bs : Bytes} (h : bs.length ≤ maxText - 1)
    : GapInv (editing bs).eb ∧ (editing bs).eb.text = bs :=
  EditorBuffer.load_text blankBuffer h

end Example

/--
`a` is moved behind `b`.
-/
theorem exTransfer_lines_moved
    : linesOf 10 ((editing [97, 10, 98, 10]).exTransfer true 0 0 1).eb.text = [[98], [97]] := by
  obtain ⟨hinv, htext⟩ := @editing_text [97, 10, 98, 10] (by decide)
  have hacc : Accepted (editing [97, 10, 98, 10]) true 0 0 1 := by
    refine ⟨?_, ?_⟩
    . rw [htext]
      decide
    . decide
  have hiff := exTransfer_lines_iff (editing [97, 10, 98, 10]) true 0 0 1 hinv (by decide) hacc
  rw [htext] at hiff
  exact hiff.mpr (by unfold PastesWhole FitsLines; decide)

/--
`b` is copied behind `a`, and there is no newline between the copy and the `b` that follows.
-/
theorem not_exTransfer_lines
    : ¬∀ (v : ViState) (move : Bool) (a1 a2 dst : Nat), GapInv v.eb → a1 ≤ a2 → Accepted v move a1 a2 dst →
        linesOf 10 (v.exTransfer move a1 a2 dst).eb.text
          = transferLines move (linesOf 10 v.eb.text) a1 a2 dst := by
  intro h
  obtain ⟨hinv, htext⟩ := @editing_text [97, 10, 98] (by decide)
  have hacc : Accepted (editing [97, 10, 98]) false 1 1 0 := by
    refine ⟨?_, ?_⟩
    . rw [htext]
      decide
    . decide
  have hlines := h (editing [97, 10, 98]) false 1 1 0 hinv (by decide) hacc
  obtain ⟨w, hinv', htext', heq⟩ := ViState.exTransfer_text hinv (by decide) hacc
  rw [heq, ViState.paste_text hinv' _ hacc.size, htext', htext] at hlines
  revert hlines
  decide

end TanjaOS
