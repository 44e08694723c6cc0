import TanjaOS.Lib.Nesting
import TanjaOS.Vi.Text

/-!
The bracket that `%` goes to. A bracket is matched against those of its own kind only.

In ASCII `(`, `)`, `[`, `]`, `{` and `}` are 40, 41, 91, 93, 123 and 125.
-/

open Lib

namespace TanjaOS

def isOpenBracket (c : Byte) : Bool :=
  c = 40 ∨ c = 91 ∨ c = 123

def isCloseBracket (c : Byte) : Bool :=
  c = 41 ∨ c = 93 ∨ c = 125

def bracketMatch (c : Byte) : Byte :=
  if c = 40 then 41
  else if c = 91 then 93
  else if c = 123 then 125
  else if c = 41 then 40
  else if c = 93 then 91
  else if c = 125 then 123
  else 0

def isBracket (c : Byte) : Bool :=
  isOpenBracket c || isCloseBracket c

namespace EditorBuffer

/--
`for (i = pos + 1; i < eb.len; i++)`, in `n` rounds
-/
def matchForward (eb : EditorBuffer) (c m : Byte) (n : Nat) (depth i : Int) : Int :=
  match n with
  | 0 => -1
  | n + 1 =>
    let t := eb.textAt i
    if t = c then matchForward eb c m n (depth + 1) (i + 1)
    else if t = m then if depth - 1 = 0 then i else matchForward eb c m n (depth - 1) (i + 1)
    else matchForward eb c m n depth (i + 1)

/--
`for (i = pos - 1; i >= 0; i--)`, in `n` rounds
-/
def matchBackward (eb : EditorBuffer) (c m : Byte) (n : Nat) (depth : Int) : Int :=
  match n with
  | 0 => -1
  | i + 1 =>
    let t := eb.textAt i
    if t = c then matchBackward eb c m i (depth + 1)
    else if t = m then if depth - 1 = 0 then i else matchBackward eb c m i (depth - 1)
    else matchBackward eb c m i depth

/--
What happens once a bracket has been found at `pos`.
-/
def matchBracketAt (eb : EditorBuffer) (pos : Int) : Int :=
  let c := eb.textAt pos
  let m := bracketMatch c
  if isOpenBracket c then
    eb.matchForward c m (eb.len - (pos + 1)).toNat 1 (pos + 1)
  else
    eb.matchBackward c m pos.toNat 1

def matchBracket (eb : EditorBuffer) (pos : Int) : Int :=
  if ¬isOpenBracket (eb.textAt pos) ∧ ¬isCloseBracket (eb.textAt pos) then
    let le := eb.lineEnd pos
    let i := scanUp (fun i => ¬isBracket (eb.textAt i)) (le - pos).toNat pos
    if i < le then eb.matchBracketAt i else -1
  else
    eb.matchBracketAt pos

end EditorBuffer

section Spec

/--
Brackets of the kind that `c` opens.
-/
def bracketWeight (t : Bytes) (c : Byte) (k : Nat) : Int :=
  if t[k]? = some c then 1 else if t[k]? = some (bracketMatch c) then -1 else 0

/--
The brackets at `i` and `j` belong together.
-/
def Paired (t : Bytes) (i j : Nat) : Prop :=
  ∃ c, isOpenBracket c ∧ j < t.length ∧ Matched (bracketWeight t c) i j

/--
The first bracket from `pos` on, it is in the same line.
-/
structure FirstBracket (t : Bytes) (pos i : Nat) : Prop where
  le : pos ≤ i
  bracket : ∃ c, t[i]? = some c ∧ isBracket c
  before : ∀ k, pos ≤ k → k < i → ∀ c, t[k]? = some c → c ≠ 10 ∧ ¬isBracket c

end Spec

section Brackets

variable {c : Byte} {t : Bytes} {i j : Nat}

theorem bracketMatch_involutive (h : isBracket c) : bracketMatch (bracketMatch c) = c := by
  unfold isBracket isOpenBracket isCloseBracket at h
  simp only [Bool.or_eq_true, decide_eq_true_eq] at h
  rcases h with (rfl | rfl | rfl) | (rfl | rfl | rfl) <;> rfl

theorem isClose_bracketMatch (h : isOpenBracket c) : isCloseBracket (bracketMatch c) := by
  unfold isOpenBracket at h
  simp only [decide_eq_true_eq] at h
  rcases h with rfl | rfl | rfl <;> rfl

theorem isOpen_bracketMatch (h : isCloseBracket c) : isOpenBracket (bracketMatch c) := by
  unfold isCloseBracket at h
  simp only [decide_eq_true_eq] at h
  rcases h with rfl | rfl | rfl <;> rfl

theorem not_isClose (h : isOpenBracket c) : ¬isCloseBracket c := by
  unfold isOpenBracket at h
  simp only [decide_eq_true_eq] at h
  rcases h with rfl | rfl | rfl <;> decide

theorem ne_bracketMatch (h : isOpenBracket c) : bracketMatch c ≠ c := by
  intro heq
  have hclose := isClose_bracketMatch h
  rw [heq] at hclose
  exact not_isClose h hclose

theorem bracketWeight_open (h : t[i]? = some c) : bracketWeight t c i = 1 :=
  if_pos h

theorem bracketWeight_close (hopen : isOpenBracket c) (h : t[i]? = some (bracketMatch c))
    : bracketWeight t c i = -1 := by
  have hne : t[i]? ≠ some c := by
    rw [h, ne_eq, Option.some.injEq]
    exact ne_bracketMatch hopen
  unfold bracketWeight
  rw [if_neg hne, if_pos h]

theorem bracketWeight_other (h : t[i]? ≠ some c) (h' : t[i]? ≠ some (bracketMatch c)) : bracketWeight t c i = 0 := by
  unfold bracketWeight
  rw [if_neg h, if_neg h']

theorem bracketWeight_pos (h : 0 < bracketWeight t c i) : t[i]? = some c := by
  unfold bracketWeight at h
  split at h
  . assumption
  . split at h <;> omega

theorem bracketWeight_neg (h : bracketWeight t c i < 0) : t[i]? = some (bracketMatch c) := by
  unfold bracketWeight at h
  split at h
  . omega
  . split at h
    . assumption
    . omega

theorem bracketWeight_bounds (t : Bytes) (c : Byte) (k : Nat)
    : -1 ≤ bracketWeight t c k ∧ bracketWeight t c k ≤ 1 := by
  unfold bracketWeight
  split
  . omega
  . split <;> omega

theorem Paired.kinds (h : Paired t i j)
    : ∃ c, isOpenBracket c ∧ t[i]? = some c ∧ t[j]? = some (bracketMatch c)
      ∧ Matched (bracketWeight t c) i j := by
  obtain ⟨c, hopen, _, hmatched⟩ := h
  exact ⟨c, hopen, bracketWeight_pos hmatched.opens, bracketWeight_neg hmatched.ends, hmatched⟩

theorem Paired.matched (h : Paired t i j) (hi : t[i]? = some c) : Matched (bracketWeight t c) i j := by
  obtain ⟨c', _, hc', _, hmatched⟩ := h.kinds
  rw [hi, Option.some.injEq] at hc'
  rwa [hc']

theorem FirstBracket.unique {pos i' : Nat} (h : FirstBracket t pos i) (h' : FirstBracket t pos i')
    : i = i' := by
  obtain ⟨c, hc, hbracket⟩ := h.bracket
  obtain ⟨c', hc', hbracket'⟩ := h'.bracket
  obtain hlt | heq | hgt := Nat.lt_trichotomy i i'
  . exact absurd hbracket (h'.before i h.le hlt c hc).2
  . exact heq
  . exact absurd hbracket' (h.before i' h'.le hgt c' hc').2

theorem Paired.brackets (h : Paired t i j)
    : FirstBracket t i i ∧ FirstBracket t j j := by
  obtain ⟨c, hopen, hi, hj, _⟩ := h.kinds
  have hother : isBracket (bracketMatch c) := by
    unfold isBracket
    rw [isClose_bracketMatch hopen, Bool.or_true]
  have hone : isBracket c := by
    unfold isBracket
    rw [hopen, Bool.true_or]
  exact ⟨⟨Nat.le_refl i, ⟨_, hi, hone⟩, fun k _ _ => by omega⟩, Nat.le_refl j, ⟨_, hj, hother⟩, fun k _ _ => by omega⟩

end Brackets

namespace EditorBuffer

variable {eb : EditorBuffer} {c : Byte}

section Scans

theorem textAt_iff (i : Nat) (hi : i < eb.len) (c : Byte) : eb.textAt i = c ↔ eb.text[i]? = some c := by
  rw [getElem?_text, if_pos hi, Option.some.injEq]

theorem matchForward_eq (hopen : isOpenBracket c) {n : Nat} {d : Int} {i : Nat} (hd : 0 < d) (hn : i + n = eb.len)
    : eb.matchForward c (bracketMatch c) n d i
      = ((closing (bracketWeight eb.text c) n d i).map Nat.cast).getD (-1) := by
  induction n generalizing d i with
  | zero => rfl
  | succ n ih =>
    have hi : (i : Int) < eb.len := by omega
    have hnext : ((i : Int) + 1) = ((i + 1 : Nat) : Int) := by omega
    unfold matchForward closing
    simp only [@textAt_iff eb i hi]
    rw [hnext]
    by_cases hc : eb.text[i]? = some c
    . rw [if_pos hc, bracketWeight_open hc, if_neg (by omega)]
      exact ih (by omega) (by omega)
    . rw [if_neg hc]
      by_cases hm : eb.text[i]? = some (bracketMatch c)
      . rw [if_pos hm, bracketWeight_close hopen hm, ← Int.sub_eq_add_neg]
        by_cases hzero : d - 1 = 0
        . rw [if_pos hzero, if_pos hzero]
          rfl
        . rw [if_neg hzero, if_neg hzero]
          exact ih (by omega) (by omega)
      . rw [if_neg hm, bracketWeight_other hc hm, Int.add_zero, if_neg (by omega)]
        exact ih hd (by omega)

theorem matchBackward_eq (hopen : isOpenBracket c) {n : Nat} {d : Int} (hd : 0 < d) (hn : n ≤ eb.len)
    : eb.matchBackward (bracketMatch c) c n d
      = ((opening (bracketWeight eb.text c) n d).map Nat.cast).getD (-1) := by
  induction n generalizing d with
  | zero => rfl
  | succ n ih =>
    have hlast : (n : Int) < eb.len := by omega
    unfold matchBackward opening
    simp only [@textAt_iff eb n hlast]
    by_cases hc : eb.text[n]? = some c
    . have hm : eb.text[n]? ≠ some (bracketMatch c) := by
        rw [hc, ne_eq, Option.some.injEq]
        exact (ne_bracketMatch hopen).symm
      rw [if_neg hm, if_pos hc, bracketWeight_open hc]
      by_cases hzero : d - 1 = 0
      . rw [if_pos hzero, if_pos hzero]
        rfl
      . rw [if_neg hzero, if_neg hzero]
        exact ih (by omega) (by omega)
    . by_cases hm : eb.text[n]? = some (bracketMatch c)
      . rw [if_pos hm, bracketWeight_close hopen hm, Int.sub_neg, if_neg (by omega)]
        exact ih (by omega) (by omega)
      . rw [if_neg hm, if_neg hc, bracketWeight_other hc hm, Int.sub_zero, if_neg (by omega)]
        exact ih hd (by omega)

end Scans

section Partner

theorem getD_cast_iff (o : Option Nat) (j : Nat) : (o.map Nat.cast).getD (-1 : Int) = j ↔ o = some j := by
  cases o with
  | none => simp
  | some k => simp

theorem lt_of_textAt (h : GapInv eb) {i : Nat} (hi : isBracket (eb.textAt i)) : i < eb.len := by
  by_contra hle
  have hlen := length_text h
  rw [textAt_eq, if_pos (Int.natCast_nonneg i), Int.toNat_natCast, List.getElem?_eq_none (by omega)] at hi
  contradiction

theorem matchBracketAt_open (h : GapInv eb) {i : Nat} (hi : i < eb.len) (hopen : isOpenBracket (eb.textAt i))
    (j : Nat)
    : eb.matchBracketAt i = j ↔ Paired eb.text i j := by
  have hlen := length_text h
  have hc := (textAt_iff i hi _).mp rfl
  have hnext : ((i : Int) + 1) = ((i + 1 : Nat) : Int) := by omega
  have hdepth : depth (bracketWeight eb.text (eb.textAt i)) (i + 1)
      = depth (bracketWeight eb.text (eb.textAt i)) i + 1 := by
    show _ + bracketWeight _ _ i = _
    rw [bracketWeight_open hc]
  have hscan := @closing_eq_some_iff (bracketWeight eb.text (eb.textAt i)) i j (i + 1)
    (fun k => (bracketWeight_bounds _ _ k).1) (eb.len - (i + 1 : Nat)).toNat 1 (Nat.lt_succ_self i) (by omega)
    (by
      intro x hx hle
      rw [Nat.le_antisymm hle hx]
      omega)
  unfold matchBracketAt
  rw [if_pos hopen, hnext, matchForward_eq hopen Int.one_pos (by omega), getD_cast_iff, hscan]
  constructor
  . rintro ⟨hmatched, _, hj⟩
    exact ⟨_, hopen, by omega, hmatched⟩
  . intro hpair
    have hmatched := hpair.matched hc
    obtain ⟨_, _, hj, _⟩ := hpair
    exact ⟨hmatched, hmatched.lt, by omega⟩

theorem matchBracketAt_close (h : GapInv eb) {j : Nat} (hj : j < eb.len) (hclose : isCloseBracket (eb.textAt j))
    (i : Nat)
    : eb.matchBracketAt j = i ↔ Paired eb.text i j := by
  have hlen := length_text h
  have hc := (textAt_iff j hj _).mp rfl
  have hopen := isOpen_bracketMatch hclose
  have hback : bracketMatch (bracketMatch (eb.textAt j)) = eb.textAt j :=
    bracketMatch_involutive (by unfold isBracket; rw [hclose, Bool.or_true])
  have hneg : bracketWeight eb.text (bracketMatch (eb.textAt j)) j = -1 :=
    bracketWeight_close hopen (hback.symm ▸ hc)
  have hdepth : depth (bracketWeight eb.text (bracketMatch (eb.textAt j))) (j + 1)
      = depth (bracketWeight eb.text (bracketMatch (eb.textAt j))) j - 1 := by
    show _ + bracketWeight _ _ j = _
    rw [hneg]
    omega
  have hscan := @opening_eq_some_iff (bracketWeight eb.text (bracketMatch (eb.textAt j))) i j
    (fun k => (bracketWeight_bounds _ _ k).2) j 1 (Nat.le_refl j) (by omega)
    (by
      intro x hx hle
      rw [Nat.le_antisymm hle hx]
      omega)
  have hscanned := matchBackward_eq hopen (n := j) (d := 1) Int.one_pos (Int.le_of_lt hj)
  rw [hback] at hscanned
  unfold matchBracketAt
  rw [if_neg (fun ho => not_isClose ho hclose), Int.toNat_natCast, hscanned, getD_cast_iff, hscan]
  constructor
  . rintro ⟨hmatched, _⟩
    exact ⟨_, hopen, by omega, hmatched⟩
  . rintro hpair
    obtain ⟨c, hc₁, _, hc₂, hmatched⟩ := hpair.kinds
    rw [hc, Option.some.injEq] at hc₂
    have hkind : c = bracketMatch (eb.textAt j) := by
      rw [hc₂, bracketMatch_involutive (by unfold isBracket; rw [hc₁, Bool.true_or])]
    rw [hkind] at hmatched
    exact ⟨hmatched, hmatched.lt⟩

theorem isBracket_iff (c : Byte) : isBracket c = false ↔ ¬isOpenBracket c ∧ ¬isCloseBracket c := by
  unfold isBracket
  simp

theorem matchBracket_first (h : GapInv eb) {pos : Nat} (hpos : pos ≤ eb.len)
    : (∃ i, FirstBracket eb.text pos i ∧ eb.matchBracket pos = eb.matchBracketAt i)
      ∨ (∀ i, ¬FirstBracket eb.text pos i) ∧ eb.matchBracket pos = -1 := by
  have hbyte : ∀ i : Nat, isBracket (eb.textAt i) → ∃ c, eb.text[i]? = some c ∧ isBracket c :=
    fun i hi => ⟨_, (textAt_iff i (lt_of_textAt h hi) _).mp rfl, hi⟩
  have hat : ∀ (i : Nat) (c : Byte), eb.text[i]? = some c → eb.textAt i = c := by
    intro i c hc
    rw [getElem?_text] at hc
    split at hc
    . exact Option.some.inj hc
    . contradiction
  unfold matchBracket
  by_cases hhere : isBracket (eb.textAt pos) = true
  . have hnot : ¬(¬isOpenBracket (eb.textAt pos) ∧ ¬isCloseBracket (eb.textAt pos)) := by
      rw [← isBracket_iff, hhere]
      decide
    rw [if_neg hnot]
    exact .inl ⟨pos, ⟨Nat.le_refl _, hbyte pos hhere, fun k _ _ => by omega⟩, rfl⟩
  rw [Bool.not_eq_true] at hhere
  rw [if_pos ((isBracket_iff _).mp hhere)]
  dsimp only
  generalize hle : eb.lineEnd pos = le
  have hlow : (pos : Int) ≤ le := hle ▸ le_lineEnd eb pos
  have hline : ∀ k : Nat, pos ≤ k → k < le → eb.textAt k ≠ 10 := by
    intro k hk hlt
    have hscanned := @scanUp_before (fun i => eb.textAt i ≠ 10) (eb.len - pos).toNat pos k (by omega)
      (by rw [← hle] at hlt; exact hlt)
    simpa using hscanned
  have hend : le < eb.len → eb.textAt le = 10 := by
    intro hlt
    have hstops := @scanUp_stops (fun i => eb.textAt i ≠ 10) (eb.len - pos).toNat pos
      (by rw [← hle] at hlt; unfold lineEnd at hlt; omega)
    rw [← hle]
    simpa [lineEnd] using hstops
  generalize hi : scanUp (fun i => decide ¬isBracket (eb.textAt i) = true) (le - pos).toNat pos = i
  have hfrom : (pos : Int) ≤ i := hi ▸ le_scanUp _ _
  obtain ⟨k, rfl⟩ := Int.eq_ofNat_of_zero_le (show 0 ≤ i by omega)
  have hplain : ∀ x : Nat, pos ≤ x → x < k → ¬isBracket (eb.textAt x) := by
    intro x hx hlt
    have hscanned := @scanUp_before (fun i => decide ¬isBracket (eb.textAt i) = true) (le - pos).toNat pos x (by omega)
      (by rw [hi]; omega)
    simpa using hscanned
  by_cases hin : (k : Int) < le
  . have hfound : isBracket (eb.textAt k) = true := by
      have hstops := @scanUp_stops (fun i => decide ¬isBracket (eb.textAt i) = true) (le - pos).toNat pos
        (by rw [hi]; omega)
      rw [hi] at hstops
      simpa using hstops
    rw [if_pos hin]
    refine .inl ⟨k, ⟨by omega, hbyte k hfound, ?_⟩, rfl⟩
    intro x hx hlt c hc
    rw [← hat x c hc]
    exact ⟨hline x hx (by omega), hplain x hx hlt⟩
  . rw [if_neg hin]
    refine .inr ⟨?_, rfl⟩
    intro i hfirst
    obtain ⟨c, hc, hbracket⟩ := hfirst.bracket
    have hle' := hfirst.le
    have htext := hat i c hc
    by_cases hbefore : i < k
    . apply hplain i hle' hbefore
      rw [htext]
      exact hbracket
    . -- the line ends before it
      have hlt : le < eb.len := by
        have := lt_of_textAt h (htext ▸ hbracket : isBracket (eb.textAt i) = true)
        omega
      obtain ⟨e, rfl⟩ := Int.eq_ofNat_of_zero_le (show 0 ≤ le by omega)
      obtain heq | hbehind := Nat.eq_or_lt_of_le (show e ≤ i by omega)
      . rw [heq, htext] at hend
        rw [hend (by omega)] at hbracket
        contradiction
      . have hnl := (textAt_iff e hlt _).mp (hend hlt)
        exact (hfirst.before e (by omega) hbehind 10 hnl).1 rfl

theorem matchBracket_eq_iff (h : GapInv eb) {pos : Nat} (hpos : pos ≤ eb.len) (j : Nat)
    : eb.matchBracket pos = j
      ↔ ∃ i, FirstBracket eb.text pos i ∧ (Paired eb.text i j ∨ Paired eb.text j i) := by
  have hspec : ∀ i, FirstBracket eb.text pos i →
      (eb.matchBracketAt i = j ↔ Paired eb.text i j ∨ Paired eb.text j i) := by
    intro i hfirst
    obtain ⟨c, hc, hbracket⟩ := hfirst.bracket
    have hi : i < eb.len := by
      have := (List.getElem?_eq_some_iff.mp hc).1
      have := length_text h
      omega
    have hat := (textAt_iff i hi c).mpr hc
    unfold isBracket at hbracket
    rw [Bool.or_eq_true] at hbracket
    obtain hopen | hclose := hbracket
    . rw [matchBracketAt_open h hi (hat ▸ hopen)]
      constructor
      . exact .inl
      . rintro (hpair | hpair)
        . exact hpair
        . obtain ⟨c', hopen', _, hc', _⟩ := hpair.kinds
          rw [hc, Option.some.injEq] at hc'
          exact absurd (hc' ▸ isClose_bracketMatch hopen') (not_isClose hopen)
    . rw [matchBracketAt_close h hi (hat ▸ hclose)]
      constructor
      . exact .inr
      . rintro (hpair | hpair)
        . obtain ⟨c', hopen', hc', _⟩ := hpair.kinds
          rw [hc, Option.some.injEq] at hc'
          exact absurd hclose (not_isClose (hc' ▸ hopen'))
        . exact hpair
  obtain ⟨i, hfirst, heq⟩ | ⟨hnone, heq⟩ := matchBracket_first h hpos
  . rw [heq, hspec i hfirst]
    constructor
    . exact fun hpair => ⟨i, hfirst, hpair⟩
    . rintro ⟨i', hfirst', hpair⟩
      rwa [hfirst.unique hfirst']
  . rw [heq]
    constructor
    . intro hneg
      omega
    . rintro ⟨i, hfirst, _⟩
      exact absurd hfirst (hnone i)

end Partner

/--
`%` goes from the first bracket in the rest of the line to the one that it belongs to, and from there back.
-/
theorem matchBracket_pairs (h : GapInv eb) (pos : Nat) (hpos : pos ≤ eb.len)
    : (∀ j : Nat, eb.matchBracket pos = j
        ↔ ∃ i, FirstBracket eb.text pos i ∧ (Paired eb.text i j ∨ Paired eb.text j i))
      ∧ (0 ≤ eb.matchBracket pos →
        ∃ i : Nat, FirstBracket eb.text pos i ∧ eb.matchBracket (eb.matchBracket pos) = i) := by
  refine ⟨matchBracket_eq_iff h hpos, ?_⟩
  intro hfound
  obtain ⟨j, hj⟩ := Int.eq_ofNat_of_zero_le hfound
  obtain ⟨i, hfirst, hpair⟩ := (matchBracket_eq_iff h hpos j).mp hj
  have hlen := length_text h
  refine ⟨i, hfirst, ?_⟩
  have hbracket : FirstBracket eb.text j j := hpair.elim (fun hp => hp.brackets.2) fun hp => hp.brackets.1
  obtain ⟨c, hc, _⟩ := hbracket.bracket
  have hlt := (List.getElem?_eq_some_iff.mp hc).1
  rw [hj]
  exact (matchBracket_eq_iff h (by omega) i).mpr ⟨j, hbracket, hpair.symm⟩

section Example

def callText : Bytes :=
  [102, 40, 91, 40, 41, 41]

theorem callText_paired : Paired callText 1 5 := by
  refine ⟨40, rfl, by decide, by decide, by decide, ?_⟩
  intro k hlt hle
  obtain rfl | rfl | rfl | rfl : k = 2 ∨ k = 3 ∨ k = 4 ∨ k = 5 := by omega
  . decide
  . decide
  . decide
  . decide

theorem callText_first : FirstBracket callText 0 1 := by
  refine ⟨Nat.zero_le 1, ⟨40, rfl, rfl⟩, ?_⟩
  intro k _ hlt c hc
  obtain rfl : k = 0 := by omega
  obtain rfl : (102 : Byte) = c := Option.some.inj hc
  decide

end Example

theorem matchBracket_pairs_call
    : (blankBuffer.load callText).matchBracket 0 = 5
      ∧ (blankBuffer.load callText).matchBracket 5 = 1 := by
  obtain ⟨hinv, htext⟩ := load_text blankBuffer (by decide : callText.length ≤ maxText - 1)
  obtain ⟨hgoes, hback⟩ := matchBracket_pairs hinv 0 (by decide)
  have hfive : (blankBuffer.load callText).matchBracket 0 = 5 := by
    refine (hgoes 5).mpr ⟨1, ?_, .inl ?_⟩
    . rw [htext]
      exact callText_first
    . rw [htext]
      exact callText_paired
  obtain ⟨i, hfirst, heq⟩ := hback (by rw [show ((0 : Nat) : Int) = 0 from rfl, hfive]; decide)
  rw [htext] at hfirst
  rw [show ((0 : Nat) : Int) = 0 from rfl, hfive, hfirst.unique callText_first] at heq
  exact ⟨hfive, heq⟩

end EditorBuffer

end TanjaOS
