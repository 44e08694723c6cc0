import TanjaOS.Lib.Run
import TanjaOS.Vi.Impl
import Mathlib.Tactic.SplitIfs

/-!
The gap buffer holds a list of bytes, and edits of the buffer are edits of the list.
-/

open Lib

namespace TanjaOS

/--
The counters agree with each other.
-/
structure GapInv (eb : EditorBuffer) : Prop where
  start : 0 ≤ eb.gapStart
  order : eb.gapStart ≤ eb.gapEnd
  stop : eb.gapEnd ≤ maxText - 1
  len : eb.len = eb.gapStart + (maxText - 1 - eb.gapEnd)

namespace EditorBuffer

def text (eb : EditorBuffer) : Bytes :=
  (List.range eb.len.toNat).map (fun i : Nat => eb.textAt i)

variable {eb : EditorBuffer}

theorem flatten_eq : eb.flatten = eb.text ++ [0] :=
  rfl

theorem getElem?_text (i : Nat) : eb.text[i]? = if i < eb.len then some (eb.textAt i) else none := by
  unfold text
  rw [List.getElem?_map]
  split
  . next h =>
    rw [List.getElem?_range (by omega)]
    rfl
  . next h =>
    rw [List.getElem?_eq_none (by simp; omega)]
    rfl

theorem length_text (h : GapInv eb) : (eb.text.length : Int) = eb.len := by
  have := h.len
  have := h.start
  have := h.stop
  simp only [text, List.length_map, List.length_range]
  omega

theorem text_ext {l : Bytes} (hlen : eb.len = l.length)
    (hat : ∀ i, i < l.length → l[i]? = some (eb.textAt i))
    : eb.text = l := by
  apply List.ext_getElem?
  intro i
  rw [getElem?_text]
  split
  . next h => exact (hat i (by omega)).symm
  . next h => exact (List.getElem?_eq_none (by omega)).symm

theorem textAt_eq (pos : Int)
    : eb.textAt pos = if 0 ≤ pos then (eb.text[pos.toNat]?).getD 0 else 0 := by
  split
  . next h =>
    rw [getElem?_text, Int.toNat_of_nonneg h]
    split
    . rfl
    . next hlen =>
      unfold textAt
      rw [if_pos (by omega)]
      rfl
  . next h =>
    unfold textAt
    rw [if_pos (by omega)]

section MoveGap

/--
The place for an edit at `pos`.
-/
def clamp (pos len : Int) : Int :=
  max 0 (min pos len)

structure Moved (eb eb' : EditorBuffer) (pos : Int) : Prop where
  inv : GapInv eb'
  len : eb'.len = eb.len
  start : eb'.gapStart = clamp pos eb.len
  textAt : ∀ i, eb'.textAt i = eb.textAt i

theorem moveGap_moved (pos : Int) (h : GapInv eb) : Moved eb (eb.moveGap pos) pos := by
  obtain ⟨hstart, horder, hstop, hlen⟩ := h
  have hclamp : (if eb.len < (if pos < 0 then 0 else pos) then eb.len else (if pos < 0 then 0 else pos))
      = clamp pos eb.len := by
    unfold clamp
    split_ifs <;> omega
  unfold moveGap
  dsimp only
  rw [hclamp]
  have hnonneg : 0 ≤ clamp pos eb.len := by unfold clamp; omega
  have hle : clamp pos eb.len ≤ eb.len := by unfold clamp; omega
  generalize hp : clamp pos eb.len = p at *
  split
  . next heq => exact ⟨⟨hstart, horder, hstop, hlen⟩, rfl, hp ▸ heq.symm, fun _ => rfl⟩
  . split
    . next hne hlt =>
      refine ⟨⟨?_, ?_, ?_, ?_⟩, rfl, ?_, ?_⟩
      . dsimp only
        omega
      . dsimp only
        omega
      . dsimp only
        omega
      . dsimp only
        omega
      . rw [hp]
        dsimp only
        omega
      . intro i
        unfold EditorBuffer.textAt
        dsimp only
        by_cases hout : i < 0 ∨ eb.len ≤ i
        . rw [if_pos hout, if_pos hout]
        . rw [if_neg hout, if_neg hout]
          by_cases hleft : i < p
          . rw [if_pos (by omega), if_pos (by omega), copyDown_apply (by omega), if_neg (by omega)]
          . rw [if_neg (by omega), copyDown_apply (by omega)]
            by_cases hmoved : i < eb.gapStart
            . -- a byte that has gone behind the gap
              rw [if_pos (by omega), if_pos hmoved]
              congr 1
              omega
            . rw [if_neg (by omega), if_neg hmoved]
              congr 1
              omega
    . next hne hge =>
      refine ⟨⟨?_, ?_, ?_, ?_⟩, rfl, ?_, ?_⟩
      . dsimp only
        omega
      . dsimp only
        omega
      . dsimp only
        omega
      . dsimp only
        omega
      . rw [hp]
        dsimp only
        omega
      . intro i
        unfold EditorBuffer.textAt
        dsimp only
        by_cases hout : i < 0 ∨ eb.len ≤ i
        . rw [if_pos hout, if_pos hout]
        . rw [if_neg hout, if_neg hout]
          by_cases hright : p ≤ i
          . rw [if_neg (by omega), if_neg (by omega), copyUp_apply (by omega), if_neg (by omega)]
            congr 1
            omega
          . rw [if_pos (by omega), copyUp_apply (by omega)]
            by_cases hmoved : eb.gapStart ≤ i
            . -- a byte that has gone in front of the gap
              rw [if_pos (by omega), if_neg (by omega)]
              congr 1
              omega
            . rw [if_neg (by omega), if_pos (by omega)]

theorem Moved.text {eb' : EditorBuffer} {pos : Int} (h : Moved eb eb' pos) : eb'.text = eb.text := by
  unfold EditorBuffer.text
  rw [h.len]
  apply List.map_congr_left
  intro i _
  exact h.textAt i

end MoveGap

end EditorBuffer

section Edits

/-!
The edits of a list. A position behind the end means the end.
-/

def insertAt (l : Bytes) (pos : Int) (bs : Bytes) : Bytes :=
  l.take (min pos l.length).toNat ++ bs ++ l.drop (min pos l.length).toNat

def insertOne (l : Bytes) (pos : Int) (ch : Byte) : Bytes :=
  if l.length = maxText - 1 then l else insertAt l pos [ch]

/--
The bytes one after the other, the first at `pos`.
-/
def insertAll (l : Bytes) (pos : Int) : Bytes → Bytes
  | [] => l
  | ch :: s => insertAll (insertOne l pos ch) (pos + 1) s

def deleteAt (l : Bytes) (pos count : Int) : Bytes :=
  if pos < 0 ∨ count ≤ 0 then l else l.take pos.toNat ++ l.drop (pos + count).toNat

theorem length_insertAt (l : Bytes) (pos : Int) (bs : Bytes)
    : (insertAt l pos bs).length = l.length + bs.length := by
  unfold insertAt
  simp only [List.length_append, List.length_take, List.length_drop]
  omega

theorem insertAll_full {l : Bytes} (h : l.length = maxText - 1) (pos : Int) (s : Bytes)
    : insertAll l pos s = l := by
  induction s generalizing pos with
  | nil => rfl
  | cons ch s ih =>
    unfold insertAll insertOne
    rw [if_pos h]
    exact ih (pos + 1)

theorem insertAll_eq {l : Bytes} {pos : Int} (hpos : 0 ≤ pos) (hlen : l.length ≤ maxText - 1)
    (s : Bytes)
    : insertAll l pos s = insertAt l pos (s.take (maxText - 1 - l.length)) := by
  induction s generalizing l pos with
  | nil =>
    unfold insertAll insertAt
    simp
  | cons ch s ih =>
    unfold insertAll insertOne
    split
    . next hfull =>
      rw [insertAll_full hfull, hfull, Nat.sub_self]
      unfold insertAt
      simp
    . next hroom =>
      have hlen' := length_insertAt l pos [ch]
      simp only [List.length_singleton] at hlen'
      rw [ih (by omega) (by omega), hlen']
      obtain ⟨r, hr⟩ : ∃ r, maxText - 1 - l.length = r + 1 := ⟨maxText - 1 - l.length - 1, by omega⟩
      have hr' : maxText - 1 - (l.length + 1) = r := by omega
      rw [hr, hr', List.take_succ_cons]
      -- the next byte goes right behind the one that has been inserted
      unfold insertAt
      obtain ⟨k, hk⟩ : ∃ k, k = (min pos l.length).toNat := ⟨_, rfl⟩
      have hk' : (min (pos + 1) ((l.take k ++ [ch] ++ l.drop k).length : Nat)).toNat = k + 1 := by
        simp only [List.length_append, List.length_take, List.length_drop, List.length_singleton]
        omega
      have hkl : k ≤ l.length := by omega
      rw [← hk, hk']
      have hfront : (l.take k ++ [ch]).length = k + 1 := by
        simp only [List.length_append, List.length_take, List.length_singleton]
        omega
      rw [← hfront, List.take_left, List.drop_left]
      simp

end Edits

namespace EditorBuffer

variable {eb : EditorBuffer}

theorem length_le (h : GapInv eb) : eb.text.length ≤ maxText - 1 := by
  have := length_text h
  have := h.len
  have := h.order
  have : (0 : Nat) < maxText := by decide
  omega

theorem unsigned_len (h : GapInv eb) : eb.len % 2 ^ 32 = eb.len := by
  have := length_text h
  have := length_le h
  apply Int.emod_eq_of_lt
  . omega
  . unfold maxText at *
    omega

theorem insertByte_refuses_iff (pos : Int) (ch : Byte) (h : GapInv eb)
    : (eb.insertByte pos ch).1 = 0 ↔ eb.len = maxText - 1 := by
  have := h.len
  have := h.order
  unfold insertByte
  rw [unsigned_len h]
  split
  . simp only [true_iff]
    omega
  . rw [if_neg (by omega)]
    simp only [one_ne_zero, false_iff]
    omega

theorem insertByte_text (pos : Int) (ch : Byte) (h : GapInv eb)
    : GapInv (eb.insertByte pos ch).2 ∧ (eb.insertByte pos ch).2.text = insertOne eb.text pos ch := by
  have hlen := length_text h
  have hle := length_le h
  have hcap : (0 : Nat) < maxText := by decide
  have heq := h.len
  have horder := h.order
  unfold insertByte insertOne
  rw [unsigned_len h]
  split
  . next hfull =>
    rw [if_pos (by omega)]
    exact ⟨h, rfl⟩
  . next hroom =>
    rw [if_neg (by omega), if_neg (by omega)]
    obtain ⟨⟨hstart, horder', hstop, hlen'⟩, hsame, hgap, hat⟩ := moveGap_moved pos h
    have hplace : (eb.moveGap pos).gapStart = (min pos eb.len).toNat := by
      rw [hgap]
      unfold clamp
      omega
    generalize eb.moveGap pos = m at *
    dsimp only
    refine ⟨⟨?_, ?_, ?_, ?_⟩, ?_⟩
    . dsimp only
      omega
    . dsimp only
      omega
    . exact hstop
    . dsimp only
      omega
    . apply text_ext
      . rw [length_insertAt]
        dsimp only
        simp only [List.length_singleton]
        omega
      . intro i hi
        rw [length_insertAt] at hi
        simp only [List.length_singleton] at hi
        unfold insertAt
        rw [hlen]
        obtain ⟨k, hk⟩ : ∃ k, k = (min pos eb.len).toNat := ⟨_, rfl⟩
        rw [← hk] at hplace ⊢
        have hkl : k ≤ eb.text.length := by omega
        have htake : (eb.text.take k).length = k := by
          rw [List.length_take]
          omega
        unfold EditorBuffer.textAt
        dsimp only
        rw [if_neg (by omega)]
        by_cases hleft : i < k
        . rw [List.append_assoc, List.getElem?_append_left (by omega), List.getElem?_take_of_lt hleft,
            getElem?_text, if_pos (by omega), if_pos (by omega), Function.update_of_ne (by omega),
            ← hat]
          unfold EditorBuffer.textAt
          rw [if_neg (by omega), if_pos (by omega)]
        . by_cases hnew : i = k
          . subst hnew
            rw [if_pos (by omega), hplace, Function.update_self, List.getElem?_append_left (by simp; omega),
              List.getElem?_append_right (by omega), htake, Nat.sub_self]
            rfl
          . -- behind the gap the bytes stand where they stood
            rw [if_neg (by omega), Function.update_of_ne (by omega),
              List.getElem?_append_right (by simp; omega), List.getElem?_drop, getElem?_text]
            simp only [List.length_append, htake, List.length_singleton]
            rw [if_pos (by omega), ← hat]
            unfold EditorBuffer.textAt
            rw [if_neg (by omega), if_neg (by omega)]
            congr 2
            omega

theorem int32_eq {x : Int} (hle : -(2 ^ 31) ≤ x) (hlt : x < 2 ^ 31) : int32 x = x := by
  apply Int.bmod_eq_of_le_mul_two
  . omega
  . omega

theorem deleteRange_text {pos count : Int} (h : GapInv eb)
    (hfits : pos < 0 ∨ eb.text.length ≤ pos ∨ pos + count < 2 ^ 31)
    : GapInv (eb.deleteRange pos count)
        ∧ (eb.deleteRange pos count).text = deleteAt eb.text pos count := by
  have hlen := length_text h
  have hle := length_le h
  have hsmall : (maxText : Int) < 2 ^ 20 := by decide
  unfold deleteRange deleteAt
  split
  . next hargs =>
    refine ⟨h, ?_⟩
    split
    . rfl
    . next hin =>
      rw [List.take_of_length_le (by omega), List.drop_eq_nil_of_le (by omega), List.append_nil]
  . next hargs =>
    have hspec : ¬(pos < 0 ∨ count ≤ 0) := by omega
    have hsum : int32 (pos + count) = pos + count := int32_eq (by omega) (by omega)
    rw [if_neg hspec, hsum]
    obtain ⟨n, hn⟩ : ∃ n, n = if eb.len < pos + count then eb.len - pos else count := ⟨_, rfl⟩
    have hcut : n = min count (eb.len - pos) := by
      rw [hn]
      split <;> omega
    dsimp only
    rw [← hn, hcut]
    obtain ⟨⟨hstart, horder, hstop, hlen'⟩, hsame, hgap, hat⟩ := moveGap_moved pos h
    have hplace : (eb.moveGap pos).gapStart = pos := by
      rw [hgap]
      unfold clamp
      omega
    generalize eb.moveGap pos = m at *
    rw [int32_eq (by omega) (by omega), int32_eq (by omega) (by omega)]
    refine ⟨⟨hstart, ?_, ?_, ?_⟩, ?_⟩
    . dsimp only
      omega
    . dsimp only
      omega
    . dsimp only
      omega
    . have htake : (eb.text.take pos.toNat).length = pos.toNat := by
        rw [List.length_take]
        omega
      apply text_ext
      . rw [List.length_append, htake, List.length_drop]
        dsimp only
        omega
      . intro i hi
        rw [List.length_append, htake, List.length_drop] at hi
        unfold EditorBuffer.textAt
        dsimp only
        rw [if_neg (by omega)]
        by_cases hleft : i < pos
        . rw [if_pos (by omega), List.getElem?_append_left (by omega),
            List.getElem?_take_of_lt (by omega), getElem?_text, if_pos (by omega), ← hat]
          unfold EditorBuffer.textAt
          rw [if_neg (by omega), if_pos (by omega)]
        . rw [if_neg (by omega), List.getElem?_append_right (by omega), htake, List.getElem?_drop,
            getElem?_text, if_pos (by omega), ← hat]
          unfold EditorBuffer.textAt
          rw [if_neg (by omega), if_neg (by omega)]
          congr 2
          omega

theorem insertBytes.go_text {pos i : Int} {s : Bytes} (h : GapInv eb) (hlow : -(2 ^ 31) ≤ pos + i)
    (hfits : pos + i + min s.length (maxText - 1 - eb.text.length : Nat) ≤ 2 ^ 31)
    : GapInv (insertBytes.go pos i s eb).2
        ∧ (insertBytes.go pos i s eb).2.text = insertAll eb.text (pos + i) s
        ∧ (insertBytes.go pos i s eb).1 = i + min s.length (maxText - 1 - eb.text.length : Nat) := by
  induction s generalizing i eb with
  | nil =>
    refine ⟨h, rfl, ?_⟩
    change i = i + _
    simp
  | cons ch s ih =>
    have hle := length_le h
    have hlen := length_text h
    have hcap : 0 < maxText := by decide
    have hone := insertByte_refuses_iff (int32 (pos + i)) ch h
    obtain ⟨hinv, htext⟩ := insertByte_text (int32 (pos + i)) ch h
    unfold insertBytes.go
    dsimp only
    split
    . next hrefused =>
      rw [hone] at hrefused
      have hfull : eb.text.length = maxText - 1 := by omega
      rw [htext]
      unfold insertOne
      rw [if_pos hfull, insertAll_full hfull, hfull]
      simp [hinv]
    . next hdone =>
      rw [hone] at hdone
      have hroom : eb.text.length ≠ maxText - 1 := by omega
      rw [List.length_cons] at hfits
      rw [int32_eq (by omega) (by omega)] at hinv htext ⊢
      have hgrown : (eb.insertByte (pos + i) ch).2.text.length = eb.text.length + 1 := by
        rw [htext]
        unfold insertOne
        rw [if_neg hroom, length_insertAt]
        rfl
      obtain ⟨hinv', htext', hcount⟩ := ih hinv (i := i + 1) (by omega) (by rw [hgrown]; omega)
      refine ⟨hinv', ?_, ?_⟩
      . rw [htext', htext, ← Int.add_assoc]
        rfl
      . rw [hcount, hgrown, List.length_cons]
        omega

theorem load_text (eb : EditorBuffer) {bs : Bytes} (h : bs.length ≤ maxText - 1)
    : GapInv (eb.load bs) ∧ (eb.load bs).text = bs := by
  have hcap : 0 < maxText := by decide
  refine ⟨⟨?_, ?_, ?_, ?_⟩, ?_⟩
  . unfold load
    dsimp only
    omega
  . unfold load
    dsimp only
    omega
  . unfold load
    dsimp only
    omega
  . unfold load
    dsimp only
    omega
  . apply text_ext
    . rfl
    . intro i hi
      unfold EditorBuffer.textAt load
      dsimp only
      rw [if_neg (by omega), if_pos (by omega), Function.update_of_ne (by omega)]
      unfold store
      rw [if_pos (by omega), Int.toNat_natCast, List.getElem?_eq_getElem hi]
      rfl

theorem snapRestore_eq_load (eb : EditorBuffer) {s : Snap} {l : Bytes} (hlen : s.len = l.length)
    (hdata : s.data.take s.len.toNat = l)
    : eb.snapRestore s = eb.load l := by
  unfold snapRestore load
  rw [hdata, hlen]

end EditorBuffer

/--
A snapshot of the text `l`.
-/
structure Snap.Holds (s : Snap) (l : Bytes) : Prop where
  cap : l.length ≤ maxText - 1
  len : s.len = l.length
  data : s.data.take l.length = l

/--
The buffer has just been filled, with the text `l`.
-/
inductive Starts : EditorBuffer → Bytes → Prop where
  | load (eb : EditorBuffer) (bs : Bytes) (h : bs.length ≤ maxText - 1) : Starts (eb.load bs) bs
  | restore (eb : EditorBuffer) (s : Snap) (l : Bytes) (h : s.Holds l) : Starts (eb.snapRestore s) l

inductive EditOp where
  | moveGap (pos : Int32)
  | insertByte (pos : Int32) (ch : Byte)
  | insertBytes (pos : Int32) (s : { bs : Bytes // bs.length < 2 ^ 31 })
  | deleteRange (pos count : Int32)

namespace EditOp

def exec (op : EditOp) (eb : EditorBuffer) : EditorBuffer :=
  match op with
  | moveGap pos => eb.moveGap pos.toInt
  | insertByte pos ch => (eb.insertByte pos.toInt ch).2
  | insertBytes pos s => (eb.insertBytes pos.toInt s).2
  | deleteRange pos count => eb.deleteRange pos.toInt count.toInt

def edit (op : EditOp) (l : Bytes) : Bytes :=
  match op with
  | moveGap _ => l
  | insertByte pos ch => insertOne l pos.toInt ch
  | insertBytes pos s => insertAll l pos.toInt s
  | deleteRange pos count => deleteAt l pos.toInt count.toInt

/--
No sum of a position and a count leaves the range of an `int`.
-/
def Fits (op : EditOp) (l : Bytes) : Prop :=
  match op with
  | insertBytes pos s => pos.toInt + min s.val.length (maxText - 1 - l.length : Nat) ≤ 2 ^ 31
  | deleteRange pos count =>
    pos.toInt < 0 ∨ l.length ≤ pos.toInt ∨ pos.toInt + count.toInt < 2 ^ 31
  | _ => True

def Step (op : EditOp) (x x' : EditorBuffer × Bytes) : Prop :=
  x' = (op.exec x.1, op.edit x.2)

theorem exec_text {eb : EditorBuffer} {op : EditOp} (h : GapInv eb) (hfits : op.Fits eb.text)
    : GapInv (op.exec eb) ∧ (op.exec eb).text = op.edit eb.text := by
  cases op with
  | moveGap pos =>
    have hmoved := EditorBuffer.moveGap_moved pos.toInt h
    exact ⟨hmoved.inv, hmoved.text⟩
  | insertByte pos ch => exact EditorBuffer.insertByte_text pos.toInt ch h
  | insertBytes pos s =>
    have hlow := pos.le_toInt
    have hgo := @EditorBuffer.insertBytes.go_text eb pos.toInt 0 s.val h (by omega)
      (by rw [Int.add_zero]; exact hfits)
    rw [Int.add_zero] at hgo
    exact ⟨hgo.1, hgo.2.1⟩
  | deleteRange pos count => exact EditorBuffer.deleteRange_text h hfits

end EditOp

/--
The buffer stands for `l`.
-/
structure Refines (eb : EditorBuffer) (l : Bytes) : Prop where
  inv : GapInv eb
  textAt : ∀ pos : Int32,
    eb.textAt pos.toInt = if 0 ≤ pos.toInt then (l[pos.toInt.toNat]?).getD 0 else 0
  flatten : eb.flatten = l ++ [0]
  moveGap : ∀ pos : Int32, (eb.moveGap pos.toInt).flatten = eb.flatten
  refuses : ∀ (pos : Int32) ch, (eb.insertByte pos.toInt ch).1 = 0 ↔ eb.len = maxText - 1
  snapshot : ∀ pos scroll, (eb.snapshot pos scroll).Holds l

theorem Starts.text {eb : EditorBuffer} {l : Bytes} (h : Starts eb l) : GapInv eb ∧ eb.text = l := by
  cases h with
  | load eb bs h => exact EditorBuffer.load_text eb h
  | restore eb s l h =>
    have hlen := h.len
    have hdata := h.data
    rw [EditorBuffer.snapRestore_eq_load (l := l) eb hlen (by rw [hlen]; exact hdata)]
    exact EditorBuffer.load_text eb h.cap

theorem GapInv.refines {eb : EditorBuffer} (h : GapInv eb) : Refines eb eb.text where
  inv := h
  textAt pos := eb.textAt_eq pos.toInt
  flatten := rfl
  moveGap pos := by
    rw [EditorBuffer.flatten_eq, EditorBuffer.flatten_eq,
      (EditorBuffer.moveGap_moved pos.toInt h).text]
  refuses pos ch := EditorBuffer.insertByte_refuses_iff pos.toInt ch h
  snapshot pos scroll := by
    refine ⟨EditorBuffer.length_le h, (EditorBuffer.length_text h).symm, ?_⟩
    change (eb.text ++ [0]).take eb.text.length = eb.text
    exact List.take_left

theorem EditOp.run_text {x y : EditorBuffer × Bytes} (h : GapInv x.1 ∧ x.1.text = x.2)
    (hrun : Run EditOp.Step (fun x op => op.Fits x.2) x y)
    : GapInv y.1 ∧ y.1.text = y.2 := by
  refine Run.keeps (I := fun z => GapInv z.1 ∧ z.1.text = z.2) ?_ h hrun
  rintro ⟨eb, l⟩ op x' hfits ⟨hinv, htext⟩ hstep
  obtain rfl : x' = (op.exec eb, op.edit l) := hstep
  dsimp only at hinv htext hfits ⊢
  subst htext
  exact EditOp.exec_text hinv hfits

/--
Any edits after the buffer has been filled.
-/
theorem gap_buffer_refines {x y : EditorBuffer × Bytes} (hstart : Starts x.1 x.2)
    (hrun : Run EditOp.Step (fun x op => op.Fits x.2) x y)
    : Refines y.1 y.2 := by
  obtain ⟨hinv, htext⟩ := EditOp.run_text hstart.text hrun
  rw [← htext]
  exact hinv.refines

section Example

/-!
The text `ab`, a `c` in the middle, and a deletion of `INT_MAX` bytes from the `b` on.
-/

def blankBuffer : EditorBuffer where
  data _ := 0
  gapStart := 0
  gapEnd := 0
  len := 0

def opened : EditorBuffer × Bytes :=
  (blankBuffer.load [97, 98], [97, 98])

theorem opened_starts : Starts opened.1 opened.2 :=
  .load blankBuffer [97, 98] (by decide)

end Example

theorem gap_buffer_refines_insert
    : Refines ((opened.1.insertByte 1 99).2) [97, 99, 98] := by
  have hrun : Run EditOp.Step (fun x op => op.Fits x.2) opened
      ((opened.1.insertByte 1 99).2, [97, 99, 98]) := by
    have hstep : EditOp.Step (.insertByte 1 99) opened
        ((opened.1.insertByte 1 99).2, [97, 99, 98]) := by
      unfold EditOp.Step
      refine Prod.ext ?_ ?_
      . rfl
      . decide
    exact Run.call .refl hstep trivial
  exact gap_buffer_refines opened_starts hrun

theorem gap_buffer_overflows
    : ¬∀ x y : EditorBuffer × Bytes, Starts x.1 x.2 → Run EditOp.Step (fun _ _ => True) x y →
        Refines y.1 y.2 := by
  intro h
  have hstep : EditOp.Step (.deleteRange 1 2147483647) opened
      ((EditOp.deleteRange 1 2147483647).exec opened.1,
        (EditOp.deleteRange 1 2147483647).edit opened.2) := rfl
  have hinv := (h _ _ opened_starts (Run.call .refl hstep trivial)).inv
  have hstop := hinv.order
  revert hstop
  decide

end TanjaOS
