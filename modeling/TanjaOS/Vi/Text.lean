import TanjaOS.Lib.Lines
import TanjaOS.Vi.Command

/-!
What the functions on positions and lines say about the list that the buffer stands for.
-/

open Lib

namespace TanjaOS

namespace EditorBuffer

variable {eb : EditorBuffer}

theorem text_lt (h : GapInv eb) : eb.len < 2 ^ 20 := by
  have := length_text h
  have := length_le h
  have : maxText - 1 < 2 ^ 20 := by decide
  omega

theorem len_nonneg (h : GapInv eb) : 0 ≤ eb.len := by
  have := length_text h
  omega

theorem drop_text (h : GapInv eb) {i : Nat} (hi : i < eb.len)
    : eb.text.drop i = eb.textAt i :: eb.text.drop (i + 1) := by
  have hlen := length_text h
  have hget : eb.text[i]? = some (eb.textAt i) := by
    rw [getElem?_text, if_pos hi]
  rw [List.drop_eq_getElem_cons (by omega)]
  congr 1
  rw [List.getElem?_eq_getElem (by omega), Option.some.injEq] at hget
  exact hget

theorem map_textAt (h : GapInv eb) {i n : Nat} (hi : (i + n : Nat) ≤ eb.len)
    : (List.range n).map (fun j : Nat => eb.textAt (i + j)) = (eb.text.drop i).take n := by
  have hlen := length_text h
  apply List.ext_getElem?
  intro j
  rw [List.getElem?_map]
  by_cases hj : j < n
  . rw [List.getElem?_range hj, List.getElem?_take_of_lt hj, List.getElem?_drop, getElem?_text,
      if_pos (by omega)]
    rfl
  . rw [List.getElem?_eq_none (by rw [List.length_range]; omega),
      List.getElem?_eq_none (by rw [List.length_take, List.length_drop]; omega)]
    rfl

section Lines

theorem scanUp_textAt (h : GapInv eb) (p : Byte → Bool) {i : Nat} (hi : i ≤ eb.len)
    : scanUp (fun j => p (eb.textAt j)) (eb.len - i).toNat i
        = i + ((eb.text.drop i).takeWhile p).length := by
  have hlen := length_text h
  generalize hn : (eb.len - i).toNat = n
  induction n generalizing i with
  | zero =>
    rw [List.drop_eq_nil_of_le (by omega)]
    simp [scanUp]
  | succ n ih =>
    rw [drop_text h (by omega), List.takeWhile_cons]
    unfold scanUp
    by_cases hp : p (eb.textAt i) = true
    . rw [if_pos hp, if_pos hp, List.length_cons]
      have := ih (i := i + 1) (by omega) (by omega)
      rw [Nat.cast_add_one] at this
      rw [this]
      omega
    . rw [if_neg hp, if_neg hp]
      simp

theorem lineEnd_eq (h : GapInv eb) {i : Nat} (hi : i ≤ eb.len)
    : eb.lineEnd i = i + ((eb.text.drop i).takeWhile (· ≠ 10)).length :=
  scanUp_textAt h (fun c => decide (c ≠ 10)) hi

theorem lineStartNumber.go_eq (h : GapInv eb) (wanted : Int) {i : Nat} {line : Int} {n : Nat}
    (hi : i + n = eb.len)
    : lineStartNumber.go eb wanted n line i
        = i + (lineIndex 10 (eb.text.drop i) (wanted - line).toNat : Nat) := by
  have hlen := length_text h
  induction n generalizing i line with
  | zero =>
    rw [List.drop_eq_nil_of_le (by omega)]
    unfold lineStartNumber.go lineIndex
    simp
  | succ n ih =>
    rw [drop_text h (by omega)]
    unfold lineStartNumber.go lineIndex
    by_cases hline : line < wanted
    . have hne : (wanted - line).toNat ≠ 0 := by omega
      have hgo := @ih (i + 1) (if eb.textAt i = 10 then line + 1 else line) (by omega)
      rw [Nat.cast_add_one] at hgo
      have hleft : (wanted - if eb.textAt i = 10 then line + 1 else line).toNat
          = if eb.textAt i = 10 then (wanted - line).toNat - 1 else (wanted - line).toNat := by
        split <;> omega
      rw [if_pos hline, hgo, hleft, if_neg hne]
      omega
    . rw [if_neg hline, if_pos (by omega)]
      simp

theorem lineStartNumber_eq (h : GapInv eb) (wanted : Int)
    : eb.lineStartNumber wanted = (lineIndex 10 eb.text wanted.toNat : Nat) := by
  have := length_text h
  have hgo := @lineStartNumber.go_eq eb h wanted 0 0 eb.len.toNat (by omega)
  rw [Nat.cast_zero, Int.sub_zero, List.drop_zero, Int.zero_add] at hgo
  exact hgo

theorem lineEnd_succ (h : GapInv eb) {k : Nat} {i : Int} (hi : i = (lineIndex 10 eb.text k : Nat))
    : (if eb.lineEnd i < eb.len then eb.lineEnd i + 1 else eb.lineEnd i)
        = (lineIndex 10 eb.text (k + 1) : Nat) := by
  have hlen := length_text h
  have hle := @lineIndex_le _ (10 : Byte) _ eb.text k
  have htake : ((eb.text.drop (lineIndex 10 eb.text k)).takeWhile (· ≠ 10)).length
      ≤ (eb.text.drop (lineIndex 10 eb.text k)).length := (List.takeWhile_sublist _).length_le
  rw [List.length_drop] at htake
  rw [lineIndex_succ, hi, lineEnd_eq h (by omega)]
  split <;> omega

theorem lineEndNumber_succ (h : GapInv eb) (n : Int)
    : (if eb.lineEndNumber n < eb.len then eb.lineEndNumber n + 1 else eb.lineEndNumber n)
        = (lineIndex 10 eb.text (n.toNat + 1) : Nat) :=
  lineEnd_succ h (lineStartNumber_eq h n)

theorem lineRange_eq (h : GapInv eb) {a b : Nat} (hab : a ≤ b)
    : eb.lineRange a b
        = (((lineIndex 10 eb.text a : Nat) : Int), ((lineIndex 10 eb.text (b + 1) : Nat) : Int)) := by
  have hmin : min (a : Int) b = a := by omega
  have hmax : max (a : Int) b = b := by omega
  unfold lineRange
  dsimp only
  rw [hmin, hmax, lineStartNumber_eq h, lineEndNumber_succ h]
  rfl

theorem lineRange_swap (a b : Int) : eb.lineRange a b = eb.lineRange (min a b) (max a b) := by
  have hmin : min (min a b) (max a b) = min a b := by omega
  have hmax : max (min a b) (max a b) = max a b := by omega
  unfold lineRange
  rw [hmin, hmax]

theorem missing_iff (h : GapInv eb)
    : 0 < eb.len ∧ eb.textAt (eb.len - 1) ≠ 10 ↔ ¬Closed 10 eb.text := by
  have hlen := length_text h
  unfold Closed
  by_cases hnil : eb.text = []
  . rw [hnil] at hlen ⊢
    simp only [List.length_nil] at hlen
    simp
    omega
  . have hpos := List.length_pos_iff.mpr hnil
    have hlast : eb.text.getLast? = some (eb.textAt (eb.len - 1)) := by
      rw [List.getLast?_eq_getElem?, getElem?_text, if_pos (by omega)]
      congr 2
      omega
    rw [hlast, Option.some.injEq, not_or]
    constructor
    . intro hmissing
      exact ⟨hnil, hmissing.2⟩
    . intro hmissing
      exact ⟨by omega, hmissing.2⟩

end Lines

section Edits

theorem insertBytes_at (h : GapInv eb) {k : Nat} (hk : k ≤ eb.text.length) {s : Bytes}
    (hs : s.length < 2 ^ 30)
    : GapInv (eb.insertBytes k s).2
        ∧ (eb.insertBytes k s).2.text
          = eb.text.take k ++ s.take (maxText - 1 - eb.text.length) ++ eb.text.drop k := by
  have hle := length_le h
  have hcap : maxText - 1 < 2 ^ 20 := by decide
  have hgo := @insertBytes.go_text eb k 0 s h (by omega) (by omega)
  rw [Int.add_zero] at hgo
  refine ⟨hgo.1, ?_⟩
  have hmin : (min (k : Int) eb.text.length).toNat = k := by omega
  have htext : (eb.insertBytes k s).2.text = insertAll eb.text k s := hgo.2.1
  rw [htext, insertAll_eq (by omega) hle]
  unfold insertAt
  rw [hmin]

theorem deleteRange_at (h : GapInv eb) {i j : Nat} (hij : i ≤ j) (hj : j ≤ eb.text.length)
    : GapInv (eb.deleteRange i (j - i))
        ∧ (eb.deleteRange i (j - i)).text = eb.text.take i ++ eb.text.drop j := by
  have hle := length_le h
  have hcap : maxText - 1 < 2 ^ 20 := by decide
  obtain ⟨hinv, htext⟩ := @deleteRange_text eb i (j - i) h (by omega)
  refine ⟨hinv, ?_⟩
  rw [htext]
  unfold deleteAt
  split
  . next hnone =>
    have heq : i = j := by omega
    rw [heq, List.take_append_drop]
  . have hi : ((i : Int)).toNat = i := by omega
    have hj' : ((i : Int) + (j - i)).toNat = j := by omega
    rw [hi, hj']

theorem insertLinesAt_text (h : GapInv eb) {k : Nat} (hk : k ≤ eb.text.length)
    (hstart : Closed 10 (eb.text.take k) ∨ k = eb.text.length) {data : Bytes} (hdata : data.length < 2 ^ 30)
    : GapInv (eb.insertLinesAt k data)
        ∧ (eb.insertLinesAt k data).text
          = (closeText 10 (eb.text.take k) ++ data).take (maxText - 1 - (eb.text.drop k).length)
            ++ eb.text.drop k := by
  have hlen := length_text h
  have hle := length_le h
  have hcap : 0 < maxText := by decide
  unfold insertLinesAt
  by_cases hmissing : eb.len ≤ k ∧ 0 < eb.len ∧ eb.textAt (eb.len - 1) ≠ 10
  . rw [if_pos hmissing]
    have hopen := (missing_iff h).mp hmissing.2
    have hend : k = eb.text.length := by omega
    have hclose : closeText 10 eb.text = eb.text ++ [10] := if_neg hopen
    obtain ⟨hinv, htext⟩ := insertByte_text eb.len 10 h
    have hlen' := length_text hinv
    have hat := insertBytes_at hinv (Nat.le_refl _) hdata
    rw [hlen'] at hat
    refine ⟨hat.1, ?_⟩
    rw [hend, List.take_length, List.drop_length, hclose, hat.2, List.take_length, List.drop_length, htext]
    unfold insertOne insertAt
    rw [List.append_nil, List.append_nil, List.length_nil, Nat.sub_zero]
    by_cases hfull : eb.text.length = maxText - 1
    . -- not even the newline goes in
      rw [if_pos hfull, hfull, Nat.sub_self, List.take_zero, List.append_nil, List.append_assoc, ← hfull,
        List.take_left]
    . rw [if_neg hfull, ← hlen, Int.min_self, Int.toNat_natCast, List.take_length, List.drop_length,
        List.append_nil, @List.take_append _ (eb.text ++ [10])]
      rw [List.take_of_length_le (l := eb.text ++ [10]) (by simp; omega)]
  . rw [if_neg hmissing]
    have hclosed : Closed 10 (eb.text.take k) := by
      obtain hstart | hend := hstart
      . exact hstart
      . rw [hend, List.take_length]
        by_contra hopen
        exact hmissing ⟨by omega, (missing_iff h).mpr hopen⟩
    obtain ⟨hinv, htext⟩ := insertBytes_at h hk hdata
    refine ⟨hinv, ?_⟩
    rw [htext, closeText_of_closed hclosed, @List.take_append _ (eb.text.take k),
      List.take_of_length_le (l := eb.text.take k) (by rw [List.length_take, List.length_drop]; omega)]
    congr 3
    rw [List.length_take, List.length_drop]
    omega

theorem extractToOpbuf_eq (h : GapInv eb) {i j : Nat} (hij : i ≤ j) (hj : j ≤ eb.text.length)
    : eb.extractToOpbuf i j = ((eb.text.take j).drop i).take regCap := by
  have hlen := length_text h
  unfold extractToOpbuf
  split
  . have hn : (min ((j : Int) - i) regCap).toNat = min (j - i) regCap := by omega
    rw [hn, map_textAt h (by omega), List.drop_take, List.take_take, Nat.min_comm]
  . have heq : i = j := by omega
    rw [heq, List.drop_take, Nat.sub_self]
    simp

theorem extractLines_eq (h : GapInv eb) {i j : Nat} (hij : i ≤ j) (hj : j ≤ eb.text.length)
    : eb.extractLines i j = (closeText 10 ((eb.text.take j).drop i)).take regCap := by
  unfold extractLines
  rw [extractToOpbuf_eq h hij hj]
  generalize (eb.text.take j).drop i = c
  dsimp only
  unfold closeText
  by_cases hc : Closed 10 c
  . rw [if_pos hc]
    split
    . next hadd =>
      -- nothing has been clipped, so the newline stands there already
      have hshort : c.length ≤ regCap := by
        have := hadd.2.2
        rw [List.length_take] at this
        omega
      rw [List.take_of_length_le hshort] at hadd
      obtain rfl | hlast := hc
      . exact absurd rfl hadd.1
      . exact absurd hlast hadd.2.1
    . rfl
  . rw [if_neg hc]
    have hopen := not_or.mp hc
    split
    . next hadd =>
      have hshort : c.length < regCap := by
        have := hadd.2.2
        rw [List.length_take] at this
        omega
      rw [List.take_of_length_le (by omega), List.take_of_length_le (by simp; omega)]
    . next hkeep =>
      have hlong : regCap ≤ c.length := by
        by_contra hshort
        rw [List.take_of_length_le (by omega)] at hkeep
        exact hkeep ⟨hopen.1, hopen.2, by omega⟩
      rw [List.take_append_of_le_length hlong]

end Edits

end EditorBuffer

end TanjaOS
