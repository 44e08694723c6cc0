import TanjaOS.Fs.Basic
import TanjaOS.Lib.Split
import TanjaOS.Vi.Regex

/-!
What a pattern without groups means, and that the matcher finds it.
-/

open Lib

namespace TanjaOS

/--
What matches one character. In a class each range is given by its two ends.
-/
inductive RxAtom where
  | any
  | char (c : Byte)
  | set (neg : Bool) (ranges : List (Byte × Byte))
  deriving DecidableEq

structure RxItem where
  atom : RxAtom
  star : Bool
  deriving DecidableEq

/--
`^` at the beginning, `$` at the end, and what is between them.
-/
structure RxPattern where
  bol : Bool
  items : List RxItem
  eol : Bool
  deriving DecidableEq

/--
The order of characters is that of `char`, which is signed.
-/
def RxAtom.Matches (a : RxAtom) (x : Byte) : Prop :=
  match a with
  | any => True
  | char c => x = c
  | set neg ranges =>
    (∃ r ∈ ranges, r.1.toInt8 ≤ x.toInt8 ∧ x.toInt8 ≤ r.2.toInt8) ↔ neg = false

/--
The members of a class up to its bracket, and how many characters they are.
-/
def rxRanges (rest : Bytes) : List (Byte × Byte) × Nat :=
  match rest with
  | c :: d :: e :: rest =>
    if c = 93 then
      ([], 0)
    else if d = 45 ∧ e ≠ 93 then
      ((c, e) :: (rxRanges rest).1, (rxRanges rest).2 + 3)
    else
      ((c, c) :: (rxRanges (d :: e :: rest)).1, (rxRanges (d :: e :: rest)).2 + 1)
  | c :: rest =>
    if c = 93 then
      ([], 0)
    else
      ((c, c) :: (rxRanges rest).1, (rxRanges rest).2 + 1)
  | [] => ([], 0)

/--
A class, and how many characters it has behind the opening bracket. The closing one may be missing.
-/
def rxReadSet (rest : Bytes) : RxAtom × Nat :=
  let neg := decide (rest.head? = some 94)
  let i := if neg then 1 else 0
  let first := decide ((rest.drop i).head? = some 93)
  let i := if first then i + 1 else i
  let (ranges, n) := rxRanges (rest.drop i)
  let i := i + n
  let i := if (rest.drop i).head? = some 93 then i + 1 else i
  (.set neg (if first then (93, 93) :: ranges else ranges), i)

/--
The atom that starts with `c`, and how many characters it has behind that.
-/
def rxReadAtom (c : Byte) (rest : Bytes) : RxAtom × Nat :=
  if c = 46 then
    (.any, 0)
  else if c = 91 then
    rxReadSet rest
  else
    match rest with
    | e :: _ => if c = 92 then (.char e, 1) else (.char c, 0)
    | [] => (.char c, 0)

/--
The items of a pattern and whether there is a `$` at its end. A pattern with groups has none.
-/
def rxReadItems (pat : Bytes) : Option (List RxItem × Bool) :=
  match pat with
  | [] => some ([], false)
  | c :: rest =>
    if c = 36 ∧ rest = [] then
      some ([], true)
    else if c = 92 ∧ rest.head? = some 40 then
      none
    else
      let (atom, n) := rxReadAtom c rest
      if (rest.drop n).head? = some 42 then
        (rxReadItems (rest.drop (n + 1))).map fun (items, eol) => ({ atom, star := true } :: items, eol)
      else
        (rxReadItems (rest.drop n)).map fun (items, eol) => ({ atom, star := false } :: items, eol)
termination_by pat.length
decreasing_by
  all_goals
    simp only [List.length_drop, List.length_cons]
    omega

def rxRead (pat : Bytes) : Option RxPattern :=
  match pat with
  | 94 :: rest => (rxReadItems rest).map fun (items, eol) => { bol := true, items, eol }
  | _ => (rxReadItems pat).map fun (items, eol) => { bol := false, items, eol }

/--
`w` is made of one character for each item, any number for one with a star.
-/
inductive RxItems : List RxItem → Bytes → Prop where
  | nil : RxItems [] []
  | one {a : RxAtom} {items : List RxItem} {x : Byte} {w : Bytes} (hx : a.Matches x)
      (hw : RxItems items w) : RxItems ({ atom := a, star := false } :: items) (x :: w)
  | star {a : RxAtom} {items : List RxItem} {run w : Bytes} (hrun : ∀ x ∈ run, a.Matches x)
      (hw : RxItems items w) : RxItems ({ atom := a, star := true } :: items) (run ++ w)

/--
The `n` characters of the line from `i` on match the pattern, where they are.
-/
structure RxPattern.MatchesAt (p : RxPattern) (line : Bytes) (i n : Nat) : Prop where
  within : i + n ≤ line.length
  bol : p.bol → i = 0
  eol : p.eol → i + n = line.length
  items : RxItems p.items ((line.drop i).take n)

/-!
The matcher on a pattern that has been read.
-/

instance (a : RxAtom) (x : Byte) : Decidable (a.Matches x) := by
  cases a <;> unfold RxAtom.Matches <;> infer_instance

/--
`rxm` on the items, with the steps that it has and `l` in front of it.
-/
def matchItems (eol : Bool) (items : List RxItem) (b : Nat) (l : Bytes) : Option Nat × Nat :=
  match items with
  | [] =>
    if b = 0 then (none, b) else (if eol ∧ l ≠ [] then none else some 0, b - 1)
  | item :: items =>
    if b = 0 then
      (none, b)
    else if item.star then
      rxGreedy (fun i b =>
        let r := matchItems eol items b (l.drop i)
        (r.1.map (i + ·), r.2)) (l.takeWhile (item.atom.Matches ·)).length (b - 1)
    else
      match l with
      | [] => (none, b - 1)
      | x :: l =>
        if item.atom.Matches x then
          let r := matchItems eol items (b - 1) l
          (r.1.map (1 + ·), r.2)
        else
          (none, b - 1)

section Reading

variable {pat rest p : Bytes} {pi i k : Nat} {c x : Byte}

theorem charAt_add (s : Bytes) (i k : Nat) : charAt s (i + k) = charAt (s.drop i) k := by
  unfold charAt
  rw [List.getD_eq_getElem?_getD, List.getD_eq_getElem?_getD, List.getElem?_drop]

theorem charAt_drop (s : Bytes) (i : Nat) : charAt s i = charAt (s.drop i) 0 :=
  charAt_add s i 0

theorem charAt_eq_iff (hc : c ≠ 0) (s : Bytes) : charAt s 0 = c ↔ s.head? = some c := by
  cases s with
  | nil => simpa [charAt] using hc.symm
  | cons x s => simp [charAt]

theorem toInt8_inj (x c : Byte) : x.toInt8 = c.toInt8 ↔ x = c := by
  constructor
  . intro h
    have := congrArg Int8.toUInt8 h
    simpa using this
  . exact congrArg _

theorem rxFold_false_eq_iff (x c : Byte) : rxFold false x = rxFold false c ↔ x = c := by
  unfold rxFold
  simp only [Bool.false_eq_true, false_and, if_false]
  rw [Int8.toInt_inj, toInt8_inj]

theorem rxFold_false_le_iff (x c : Byte) : rxFold false x ≤ rxFold false c ↔ x.toInt8 ≤ c.toInt8 := by
  unfold rxFold
  simp only [Bool.false_eq_true, false_and, if_false]
  rw [Int8.le_iff_toInt_le]

/--
`x` is in one of the ranges.
-/
def InRanges (x : Byte) (ranges : List (Byte × Byte)) : Prop :=
  ∃ r ∈ ranges, r.1.toInt8 ≤ x.toInt8 ∧ x.toInt8 ≤ r.2.toInt8

instance (x : Byte) (ranges : List (Byte × Byte)) : Decidable (InRanges x ranges) := by
  unfold InRanges
  infer_instance

theorem inRanges_cons (x : Byte) (r : Byte × Byte) (ranges : List (Byte × Byte))
    : InRanges x (r :: ranges) ↔ (r.1.toInt8 ≤ x.toInt8 ∧ x.toInt8 ≤ r.2.toInt8) ∨ InRanges x ranges := by
  unfold InRanges
  simp

theorem inRanges_single (x c : Byte) (ranges : List (Byte × Byte))
    : InRanges x ((c, c) :: ranges) ↔ x = c ∨ InRanges x ranges := by
  rw [inRanges_cons]
  have hsame : c.toInt8 ≤ x.toInt8 ∧ x.toInt8 ≤ c.toInt8 ↔ x = c := by
    rw [Int8.le_iff_toInt_le, Int8.le_iff_toInt_le, ← toInt8_inj, ← Int8.toInt_inj]
    omega
  rw [hsame]

theorem rxMembers_eq (x : Byte) (rest : Bytes)
    : rxMembers false x rest = (decide (InRanges x (rxRanges rest).1), (rxRanges rest).2) := by
  fun_induction rxRanges rest with
  | case1 d e rest => simp [rxMembers, InRanges]
  | case2 c d e rest hc hd ih =>
    rw [rxMembers, if_neg hc, if_pos hd, ih]
    simp [inRanges_cons, rxFold_false_le_iff]
  | case3 c d e rest hc hd ih =>
    rw [rxMembers, if_neg hc, if_neg hd, ih]
    simp [inRanges_single, rxFold_false_eq_iff]
  | case4 rest hrest =>
    rw [rxMembers.eq_2 _ _ _ _ hrest, if_pos rfl]
    simp [InRanges]
  | case5 c rest hrest hc ih =>
    rw [rxMembers.eq_2 _ _ _ _ hrest, if_neg hc, ih]
    simp [inRanges_single, rxFold_false_eq_iff]
  | case6 => simp [rxMembers, InRanges]

theorem length_rxRanges (h0 : 0 ∉ rest)
    : (rxRanges rest).2 = (rest.takeWhile (fun c => c ≠ 0 ∧ c ≠ 93)).length := by
  fun_induction rxRanges rest with
  | case1 d e rest => simp
  | case2 c d e rest hc hd ih =>
    simp only [List.mem_cons, not_or] at h0
    rw [List.takeWhile_cons_of_pos (by simpa using ⟨Ne.symm h0.1, hc⟩),
      List.takeWhile_cons_of_pos (by simp [hd.1]),
      List.takeWhile_cons_of_pos (by simpa using ⟨Ne.symm h0.2.2.1, hd.2⟩), ih h0.2.2.2]
    rfl
  | case3 c d e rest hc hd ih =>
    rw [List.mem_cons, not_or] at h0
    rw [List.takeWhile_cons_of_pos (by simpa using ⟨Ne.symm h0.1, hc⟩), ih h0.2]
    rfl
  | case4 rest hrest => simp
  | case5 c rest hrest hc ih =>
    rw [List.mem_cons, not_or] at h0
    rw [List.takeWhile_cons_of_pos (by simpa using ⟨Ne.symm h0.1, hc⟩), ih h0.2]
    rfl
  | case6 => simp

theorem head?_drop_rxRanges (h0 : 0 ∉ rest)
    : (rest.drop (rxRanges rest).2).head? = none ∨ (rest.drop (rxRanges rest).2).head? = some 93 := by
  rw [length_rxRanges h0, drop_takeWhile]
  have hstop := List.head?_dropWhile_not (fun c : Byte => decide (c ≠ 0 ∧ c ≠ 93)) rest
  cases hhead : (rest.dropWhile (fun c : Byte => decide (c ≠ 0 ∧ c ≠ 93))).head? with
  | none => exact .inl rfl
  | some c =>
    rw [hhead] at hstop
    have hmem : c ∈ rest := (List.dropWhile_sublist _).mem (List.mem_of_mem_head? hhead)
    have hc : c ≠ 0 := fun hz => h0 (hz ▸ hmem)
    right
    simpa [hc] using hstop

theorem charAt_eq_iff_head (hc : c ≠ 0) (s : Bytes) (i : Nat)
    : charAt s i = c ↔ (s.drop i).head? = some c := by
  rw [charAt_drop, charAt_eq_iff hc]

theorem rxClass_eq (pat : Bytes) (pi : Nat) (x : Byte)
    : rxClass false pat pi x
        = (decide (x ≠ 0 ∧ (rxReadSet (pat.drop pi)).1.Matches x), pi + (rxReadSet (pat.drop pi)).2) := by
  have hset : ∀ (neg : Bool) ranges, (RxAtom.set neg ranges).Matches x ↔ (InRanges x ranges ↔ neg = false) := by
    intro neg ranges
    rfl
  unfold rxClass rxReadSet
  simp only [charAt_eq_iff_head (show (94 : Byte) ≠ 0 by decide),
    charAt_eq_iff_head (show (93 : Byte) ≠ 0 by decide), List.drop_drop, decide_eq_true_eq, rxMembers_eq]
  have hneg : (if (pat.drop pi).head? = some 94 then pi + 1 else pi)
      = pi + (if (pat.drop pi).head? = some 94 then 1 else 0) := by
    split <;> rfl
  rw [hneg]
  generalize (if (pat.drop pi).head? = some 94 then 1 else 0) = i
  have hfirst : (if (pat.drop (pi + i)).head? = some 93 then pi + i + 1 else pi + i)
      = pi + (if (pat.drop (pi + i)).head? = some 93 then i + 1 else i) := by
    split <;> rfl
  rw [hfirst]
  generalize hj : (if (pat.drop (pi + i)).head? = some 93 then i + 1 else i) = j
  obtain ⟨ranges, n⟩ := rxRanges (pat.drop (pi + j))
  dsimp only
  have hclosed : (if (pat.drop (pi + j + n)).head? = some 93 then pi + j + n + 1 else pi + j + n)
      = pi + (if (pat.drop (pi + (j + n))).head? = some 93 then j + n + 1 else j + n) := by
    rw [Nat.add_assoc]
    split <;> rfl
  rw [hclosed]
  simp only [hset]
  split
  . next hx => simp [hx]
  . next hx =>
    generalize decide ((pat.drop pi).head? = some 94) = neg
    by_cases hfirst' : (pat.drop (pi + i)).head? = some 93
    . simp only [hfirst', true_and, if_true, inRanges_single]
      cases neg <;> simp [hx]
    . simp only [hfirst', false_and, decide_false, Bool.false_or, if_false]
      cases neg <;> simp [hx]

theorem drop_succ_of_drop (hp : pat.drop pi = c :: rest) : pat.drop (pi + 1) = rest := by
  rw [← List.drop_drop, hp]
  rfl

theorem rxAtom_eq (h0 : 0 ∉ pat) (hp : pat.drop pi = c :: rest) (x : Byte)
    : rxAtom false pat pi x
        = (decide (x ≠ 0 ∧ (rxReadAtom c rest).1.Matches x), pi + 1 + (rxReadAtom c rest).2) := by
  have hc : charAt pat pi = c := by
    rw [charAt_drop, hp]
    rfl
  have hrest := drop_succ_of_drop hp
  have hclean : ∀ d ∈ c :: rest, d ≠ 0 := by
    intro d hd hz
    rw [← hp] at hd
    exact h0 (hz ▸ List.mem_of_mem_drop hd)
  have hc0 := hclean c List.mem_cons_self
  unfold rxAtom rxReadAtom
  dsimp only
  rw [hc]
  split
  . simp [RxAtom.Matches]
  . split
    . rw [rxClass_eq, hrest]
    . cases rest with
      | nil =>
        have hend : charAt pat (pi + 1) = 0 := by
          rw [charAt_drop, hrest]
          rfl
        rw [if_neg (fun h => h.2 hend)]
        simp only [rxFold_false_eq_iff, RxAtom.Matches, Nat.add_zero]
        congr 2
        rw [eq_iff_iff]
        constructor
        . intro hx
          exact ⟨hx ▸ hc0, hx⟩
        . exact And.right
      | cons e tl =>
        have he : charAt pat (pi + 1) = e := by
          rw [charAt_drop, hrest]
          rfl
        have he0 := hclean e (by simp)
        rw [he]
        by_cases hesc : c = 92
        . simp only [hesc, he0, ne_eq, not_false_eq_true, and_self, if_true, rxFold_false_eq_iff,
            RxAtom.Matches]
          congr 2
          rw [eq_iff_iff]
          constructor
          . intro hx
            exact ⟨hx ▸ he0, hx⟩
          . exact And.right
        . simp only [hesc, false_and, if_false, rxFold_false_eq_iff, RxAtom.Matches, Nat.add_zero]
          congr 2
          rw [eq_iff_iff]
          constructor
          . intro hx
            exact ⟨hx ▸ hc0, hx⟩
          . exact And.right

theorem rxAtomExtent_eq (h0 : 0 ∉ pat) (hp : pat.drop pi = c :: rest)
    : rxAtomExtent pat pi = 1 + (rxReadAtom c rest).2 := by
  have hc : charAt pat pi = c := by
    rw [charAt_drop, hp]
    rfl
  have hrest := drop_succ_of_drop hp
  have hclean : ∀ d ∈ c :: rest, d ≠ 0 := by
    intro d hd hz
    rw [← hp] at hd
    exact h0 (hz ▸ List.mem_of_mem_drop hd)
  unfold rxAtomExtent rxReadAtom
  rw [hc]
  by_cases hdot : c = 46
  . subst hdot
    rw [if_neg (by decide), if_neg (by simp)]
    simp
  . rw [if_neg hdot]
    by_cases hset : c = 91
    . rw [if_pos hset, if_pos hset]
      have hclean' : ∀ i, 0 ∉ pat.drop i := fun i h => h0 (List.mem_of_mem_drop h)
      unfold rxReadSet
      simp only [charAt_eq_iff_head (show (94 : Byte) ≠ 0 by decide),
        charAt_eq_iff_head (show (93 : Byte) ≠ 0 by decide), decide_eq_true_eq, ← hrest, List.drop_drop]
      have hneg : (if (pat.drop (pi + 1)).head? = some 94 then pi + 1 + 1 else pi + 1)
          = pi + 1 + (if (pat.drop (pi + 1)).head? = some 94 then 1 else 0) := by
        split <;> rfl
      rw [hneg]
      generalize (if (pat.drop (pi + 1)).head? = some 94 then 1 else 0) = i
      have hfirst : (if (pat.drop (pi + 1 + i)).head? = some 93 then pi + 1 + i + 1 else pi + 1 + i)
          = pi + 1 + (if (pat.drop (pi + 1 + i)).head? = some 93 then i + 1 else i) := by
        split <;> rfl
      rw [hfirst]
      generalize (if (pat.drop (pi + 1 + i)).head? = some 93 then i + 1 else i) = j
      rw [← length_rxRanges (hclean' _)]
      have hstop := head?_drop_rxRanges (hclean' (pi + 1 + j))
      rw [List.drop_drop] at hstop
      generalize (rxRanges (pat.drop (pi + 1 + j))).2 = n at hstop ⊢
      rw [Nat.add_assoc (pi + 1) j n] at hstop ⊢
      cases hstop with
      | inl hstop =>
        have hend : charAt pat (pi + 1 + (j + n)) = 0 := by
          rw [charAt_drop]
          unfold charAt
          rw [List.getD_eq_getElem?_getD, ← List.head?_eq_getElem?, hstop]
          rfl
        rw [if_neg (fun h => h hend), hstop, if_neg (by simp)]
        omega
      | inr hstop =>
        have hend : charAt pat (pi + 1 + (j + n)) = 93 := by
          rw [charAt_eq_iff_head (by decide)]
          exact hstop
        rw [if_pos (by rw [hend]; decide), if_pos hstop]
        omega
    . rw [if_neg hset, if_neg hset]
      cases rest with
      | nil =>
        have hend : charAt pat (pi + 1) = 0 := by
          rw [charAt_drop, hrest]
          rfl
        rw [if_neg (fun h => h.2 hend)]
        rfl
      | cons e tl =>
        have he : charAt pat (pi + 1) = e := by
          rw [charAt_drop, hrest]
          rfl
        have he0 := hclean e (by simp)
        rw [he]
        by_cases hesc : c = 92
        . simp [hesc, he0]
        . simp [hesc]

theorem rxReadItems_cases {items : List RxItem} {eol : Bool} (h : rxReadItems pat = some (items, eol))
    : (pat = [] ∧ items = [] ∧ eol = false) ∨ (pat = [36] ∧ items = [] ∧ eol = true)
      ∨ ∃ c rest items', pat = c :: rest ∧ ¬(c = 36 ∧ rest = []) ∧ ¬(c = 92 ∧ rest.head? = some 40)
        ∧ (((rest.drop (rxReadAtom c rest).2).head? = some 42
            ∧ items = { atom := (rxReadAtom c rest).1, star := true } :: items'
            ∧ rxReadItems (rest.drop ((rxReadAtom c rest).2 + 1)) = some (items', eol))
          ∨ ((rest.drop (rxReadAtom c rest).2).head? ≠ some 42
            ∧ items = { atom := (rxReadAtom c rest).1, star := false } :: items'
            ∧ rxReadItems (rest.drop (rxReadAtom c rest).2) = some (items', eol))) := by
  cases pat with
  | nil =>
    rw [rxReadItems] at h
    cases h
    exact .inl ⟨rfl, rfl, rfl⟩
  | cons c rest =>
    rw [rxReadItems] at h
    by_cases heol : c = 36 ∧ rest = []
    . rw [if_pos heol] at h
      cases h
      rw [heol.1, heol.2]
      exact .inr (.inl ⟨rfl, rfl, rfl⟩)
    . rw [if_neg heol] at h
      by_cases hgroup : c = 92 ∧ rest.head? = some 40
      . rw [if_pos hgroup] at h
        contradiction
      . rw [if_neg hgroup] at h
        dsimp only at h
        right
        right
        by_cases hstar : (rest.drop (rxReadAtom c rest).2).head? = some 42
        . rw [if_pos hstar] at h
          obtain ⟨⟨items', eol'⟩, hread, heq⟩ := Option.map_eq_some_iff.1 h
          cases heq
          exact ⟨c, rest, items', rfl, heol, hgroup, .inl ⟨hstar, rfl, hread⟩⟩
        . rw [if_neg hstar] at h
          obtain ⟨⟨items', eol'⟩, hread, heq⟩ := Option.map_eq_some_iff.1 h
          cases heq
          exact ⟨c, rest, items', rfl, heol, hgroup, .inr ⟨hstar, rfl, hread⟩⟩

end Reading

section Greedy

variable {σ τ : Type} {body : Nat → σ → Option Nat × σ} {n : Nat} {st : σ}

theorem rxGreedy_map {f : Nat → RxState → Option Nat × RxState} {g : Nat → Nat → Option Nat × Nat}
    {k : Nat} (hfg : ∀ i, i ≤ n → ∀ st, st.budget ≤ k →
      f i st = ((g i st.budget).1, { st with budget := (g i st.budget).2 }))
    (hg : ∀ i b, (g i b).2 ≤ b) {st : RxState} (hst : st.budget ≤ k)
    : rxGreedy f n st
        = ((rxGreedy g n st.budget).1, { st with budget := (rxGreedy g n st.budget).2 }) := by
  induction n generalizing st with
  | zero => exact hfg 0 (Nat.le_refl 0) st hst
  | succ n ih =>
    unfold rxGreedy
    rw [hfg (n + 1) (Nat.le_refl _) st hst]
    have hle := hg (n + 1) st.budget
    cases hres : g (n + 1) st.budget with
    | mk res b =>
      rw [hres] at hle
      cases res with
      | some len => rfl
      | none =>
        have hsame := @ih (fun i hi => hfg i (Nat.le_succ_of_le hi)) { st with budget := b }
          (Nat.le_trans hle hst)
        exact hsame

theorem rxGreedy_le {g : Nat → Nat → Option Nat × Nat} (hg : ∀ i b, (g i b).2 ≤ b) (n b : Nat)
    : (rxGreedy g n b).2 ≤ b := by
  induction n generalizing b with
  | zero => exact hg 0 b
  | succ n ih =>
    unfold rxGreedy
    have hle := hg (n + 1) b
    cases hres : g (n + 1) b with
    | mk res b' =>
      rw [hres] at hle
      cases res with
      | some len => exact hle
      | none => exact Nat.le_trans (ih b') hle

theorem rxGreedy_some {len : Nat} (h : (rxGreedy body n st).1 = some len)
    : ∃ i st', i ≤ n ∧ (body i st').1 = some len := by
  induction n generalizing st with
  | zero => exact ⟨0, st, Nat.le_refl 0, h⟩
  | succ n ih =>
    unfold rxGreedy at h
    cases hres : body (n + 1) st with
    | mk res st' =>
      rw [hres] at h
      cases res with
      | some len' => exact ⟨n + 1, st, Nat.le_refl _, by rw [hres]; exact h⟩
      | none =>
        obtain ⟨i, st'', hi, hbody⟩ := ih h
        exact ⟨i, st'', Nat.le_succ_of_le hi, hbody⟩

theorem rxGreedy_none {g : Nat → Nat → Option Nat × Nat} {P : Nat → Prop} {k : Nat}
    (hg : ∀ i, i ≤ n → ∀ b, k ≤ b → (g i b).1 = none → ¬P i ∧ b ≤ (g i b).2 + k) {b : Nat}
    (hb : (n + 1) * k ≤ b) (h : (rxGreedy g n b).1 = none)
    : (∀ i, i ≤ n → ¬P i) ∧ b ≤ (rxGreedy g n b).2 + (n + 1) * k := by
  induction n generalizing b with
  | zero =>
    rw [Nat.zero_add, Nat.one_mul] at hb ⊢
    obtain ⟨hp, hle⟩ := hg 0 (Nat.le_refl 0) b hb h
    refine ⟨?_, hle⟩
    intro i hi
    rw [Nat.le_zero.1 hi]
    exact hp
  | succ n ih =>
    rw [Nat.add_mul, Nat.one_mul] at hb ⊢
    have hneed : k ≤ b := Nat.le_trans (Nat.le_add_left _ _) hb
    unfold rxGreedy at h ⊢
    cases hres : g (n + 1) b with
    | mk res b' =>
      rw [hres] at h
      cases res with
      | some len => contradiction
      | none =>
        obtain ⟨hp, hle⟩ := hg (n + 1) (Nat.le_refl _) b hneed (by rw [hres])
        rw [hres] at hle
        dsimp only at hle h ⊢
        obtain ⟨hall, hle'⟩ := ih (fun i hi => hg i (Nat.le_succ_of_le hi)) (b := b') (by omega) h
        refine ⟨?_, by omega⟩
        intro i hi
        cases Nat.lt_or_eq_of_le hi with
        | inl hlt => exact hall i (Nat.le_of_lt_succ hlt)
        | inr heq => exact heq ▸ hp

end Greedy

section MatchItems

variable {items : List RxItem} {eol : Bool} {l : Bytes} {b : Nat}

theorem matchItems_le (eol : Bool) (items : List RxItem) (b : Nat) (l : Bytes)
    : (matchItems eol items b l).2 ≤ b := by
  induction items generalizing b l with
  | nil =>
    unfold matchItems
    split
    . exact Nat.le_refl b
    . exact Nat.sub_le b 1
  | cons item items ih =>
    unfold matchItems
    split
    . exact Nat.le_refl b
    . split
      . refine Nat.le_trans (rxGreedy_le ?_ _ _) (Nat.sub_le b 1)
        intro i b
        exact ih b (l.drop i)
      . split
        . exact Nat.sub_le b 1
        . split
          . exact Nat.le_trans (ih _ _) (Nat.sub_le b 1)
          . exact Nat.sub_le b 1

/--
`n` characters of `l` are a match: those that are left are none if they have to be.
-/
structure MatchesFront (eol : Bool) (items : List RxItem) (l : Bytes) (n : Nat) : Prop where
  le : n ≤ l.length
  eol : eol → n = l.length
  items : RxItems items (l.take n)

theorem matchItems_sound {n : Nat} (h : (matchItems eol items b l).1 = some n)
    : MatchesFront eol items l n := by
  induction items generalizing b l n with
  | nil =>
    unfold matchItems at h
    split at h
    . contradiction
    . dsimp only at h
      split at h
      . contradiction
      . next hne =>
        cases h
        refine ⟨Nat.zero_le _, ?_, RxItems.nil⟩
        intro heol
        have hl : l = [] := by
          by_contra hl
          exact hne ⟨heol, hl⟩
        rw [hl]
        rfl
  | cons item items ih =>
    obtain ⟨a, star⟩ := item
    unfold matchItems at h
    split at h
    . contradiction
    . split at h
      . next hstar =>
        dsimp only at hstar
        subst hstar
        obtain ⟨i, b', hi, hbody⟩ := rxGreedy_some h
        obtain ⟨m, hm, rfl⟩ := Option.map_eq_some_iff.1 hbody
        obtain ⟨hle, heol, hitems⟩ := ih hm
        have hrun : i ≤ l.length := Nat.le_trans hi (List.takeWhile_sublist _).length_le
        rw [List.length_drop] at hle heol
        refine ⟨by omega, fun h => by have := heol h; omega, ?_⟩
        rw [List.take_add]
        refine RxItems.star ?_ hitems
        intro x hx
        -- the characters tried for the star are from the run of those that match it
        have htake : l.take i = (l.takeWhile (a.Matches ·)).take i := by
          have := @List.take_append_of_le_length _ (l.takeWhile (a.Matches ·)) (l.dropWhile (a.Matches ·)) i hi
          rwa [List.takeWhile_append_dropWhile] at this
        rw [htake] at hx
        simpa using List.mem_takeWhile_imp (List.mem_of_mem_take hx)
      . next hstar =>
        dsimp only at hstar
        have hstar : star = false := by simpa using hstar
        subst hstar
        cases l with
        | nil => contradiction
        | cons x l =>
          dsimp only at h
          split at h
          . next hx =>
            obtain ⟨m, hm, rfl⟩ := Option.map_eq_some_iff.1 h
            obtain ⟨hle, heol, hitems⟩ := ih hm
            rw [Nat.add_comm]
            refine ⟨Nat.succ_le_succ hle, ?_, RxItems.one hx hitems⟩
            intro h
            rw [heol h]
            rfl
          . contradiction

theorem rxItems_star_iff {a : RxAtom} {w : Bytes}
    : RxItems ({ atom := a, star := true } :: items) w
        ↔ ∃ run tl, w = run ++ tl ∧ (∀ x ∈ run, a.Matches x) ∧ RxItems items tl := by
  constructor
  . intro h
    cases h with
    | star hrun hw => exact ⟨_, _, rfl, hrun, hw⟩
  . rintro ⟨run, tl, rfl, hrun, hw⟩
    exact RxItems.star hrun hw

def stepsFor (items : List RxItem) (len : Nat) : Nat :=
  match items with
  | [] => 1
  | item :: items =>
    if item.star then 1 + (len + 1) * stepsFor items len else 1 + stepsFor items len

theorem stepsFor_pos (items : List RxItem) (len : Nat) : 0 < stepsFor items len := by
  cases items with
  | nil => exact Nat.one_pos
  | cons item items =>
    unfold stepsFor
    split
    . omega
    . omega

theorem stepsFor_mono {len len' : Nat} (h : len ≤ len') : stepsFor items len ≤ stepsFor items len' := by
  induction items with
  | nil => exact Nat.le_refl 1
  | cons item items ih =>
    unfold stepsFor
    split
    . exact Nat.add_le_add_left (Nat.mul_le_mul (Nat.succ_le_succ h) ih) 1
    . exact Nat.add_le_add_left ih 1

theorem matchItems_star {a : RxAtom} (hb : b ≠ 0)
    : matchItems eol ({ atom := a, star := true } :: items) b l
        = rxGreedy (fun i b => ((matchItems eol items b (l.drop i)).1.map (i + ·),
            (matchItems eol items b (l.drop i)).2)) (l.takeWhile (a.Matches ·)).length (b - 1) := by
  rw [matchItems.eq_def]
  dsimp only
  rw [if_neg hb, if_pos rfl]

theorem matchItems_one_nil {a : RxAtom} (hb : b ≠ 0)
    : matchItems eol ({ atom := a, star := false } :: items) b [] = (none, b - 1) := by
  rw [matchItems.eq_def]
  dsimp only
  rw [if_neg hb, if_neg (by simp)]

theorem matchItems_one_cons {a : RxAtom} (hb : b ≠ 0) (x : Byte) (l : Bytes)
    : matchItems eol ({ atom := a, star := false } :: items) b (x :: l)
        = if a.Matches x then ((matchItems eol items (b - 1) l).1.map (1 + ·),
            (matchItems eol items (b - 1) l).2) else (none, b - 1) := by
  rw [matchItems.eq_def]
  dsimp only
  rw [if_neg hb, if_neg (by simp)]

theorem matchItems_complete (hb : stepsFor items l.length ≤ b) (h : (matchItems eol items b l).1 = none)
    : (∀ n, ¬MatchesFront eol items l n)
        ∧ b ≤ (matchItems eol items b l).2 + stepsFor items l.length := by
  induction items generalizing b l with
  | nil =>
    have hb : 1 ≤ b := hb
    unfold matchItems at h ⊢
    rw [if_neg (by omega)] at h ⊢
    dsimp only at h ⊢
    split at h
    . next hne =>
      refine ⟨?_, by unfold stepsFor; omega⟩
      rintro n ⟨hle, heol, hitems⟩
      have hn := heol hne.1
      rw [hn, List.take_length] at hitems
      cases hitems
      exact hne.2 rfl
    . contradiction
  | cons item items ih =>
    obtain ⟨a, star⟩ := item
    have hpos := stepsFor_pos items l.length
    cases star with
    | true =>
      have hb : 1 + (l.length + 1) * stepsFor items l.length ≤ b := hb
      have hkmax := (List.takeWhile_sublist (fun x : Byte => decide (a.Matches x)) (l := l)).length_le
      have hmul : ((l.takeWhile (a.Matches ·)).length + 1) * stepsFor items l.length
          ≤ (l.length + 1) * stepsFor items l.length :=
        Nat.mul_le_mul_right _ (Nat.succ_le_succ hkmax)
      rw [matchItems_star (by omega)] at h ⊢
      obtain ⟨hall, hsteps⟩ :=
        rxGreedy_none (P := fun i => ∃ n, MatchesFront eol items (l.drop i) n) (k := stepsFor items l.length)
          (by
            intro i hi b hneed hnone
            have hshort : (l.drop i).length ≤ l.length := by
              rw [List.length_drop]
              omega
            have hmono : stepsFor items (l.drop i).length ≤ stepsFor items l.length := stepsFor_mono hshort
            have hnone : (matchItems eol items b (l.drop i)).1 = none := by
              simpa using hnone
            obtain ⟨hno, hle⟩ := ih (Nat.le_trans hmono hneed) hnone
            exact ⟨fun ⟨n, hn⟩ => hno n hn, Nat.le_trans hle (Nat.add_le_add_left hmono _)⟩)
          (by omega) h
      refine ⟨?_, ?_⟩
      . rintro n ⟨hle, heol, hitems⟩
        obtain ⟨run, w, hw, hrun, hrest⟩ := rxItems_star_iff.1 hitems
        have hlen := congrArg List.length hw
        rw [List.length_take, List.length_append, Nat.min_eq_left hle] at hlen
        have hfront : l.take run.length = run := by
          have := congrArg (List.take run.length) hw
          rwa [List.take_take, Nat.min_eq_left (by omega), List.take_left] at this
        have hi : run.length ≤ (l.takeWhile (a.Matches ·)).length := by
          have hsplit := List.take_append_drop run.length l
          rw [hfront] at hsplit
          rw [← hsplit, List.takeWhile_append_of_pos (by simpa using hrun), List.length_append]
          omega
        refine hall run.length hi ⟨n - run.length, ?_, ?_, ?_⟩
        . rw [List.length_drop]
          omega
        . intro h
          have := heol h
          rw [List.length_drop]
          omega
        . have hrest' : (l.drop run.length).take (n - run.length) = w := by
            have := congrArg (List.drop run.length) hw
            rwa [List.drop_take, List.drop_left] at this
          rw [hrest']
          exact hrest
      . have hneed : stepsFor ({ atom := a, star := true } :: items) l.length
            = 1 + (l.length + 1) * stepsFor items l.length := rfl
        omega
    | false =>
      have hneed : stepsFor ({ atom := a, star := false } :: items) l.length
          = 1 + stepsFor items l.length := rfl
      cases l with
      | nil =>
        rw [matchItems_one_nil (by omega)]
        refine ⟨?_, by dsimp only; omega⟩
        rintro n ⟨hle, heol, hitems⟩
        rw [List.take_nil] at hitems
        cases hitems
      | cons x l =>
        have hmono : stepsFor items l.length ≤ stepsFor items (l.length + 1) :=
          stepsFor_mono (Nat.le_succ l.length)
        rw [List.length_cons] at hneed hpos hb ⊢
        rw [matchItems_one_cons (by omega)] at h ⊢
        split at h
        . next hx =>
          rw [if_pos hx]
          obtain ⟨hno, hle⟩ := ih (b := b - 1) (l := l) (by omega) (by simpa using h)
          refine ⟨?_, by dsimp only; omega⟩
          rintro n ⟨hlen, heol, hitems⟩
          cases n with
          | zero => cases hitems
          | succ n =>
            rw [List.take_succ_cons] at hitems
            cases hitems with
            | one _ hw => exact hno n ⟨Nat.le_of_succ_le_succ hlen, fun h => Nat.succ.inj (heol h), hw⟩
        . next hx =>
          rw [if_neg hx]
          refine ⟨?_, by dsimp only; omega⟩
          rintro n ⟨hlen, heol, hitems⟩
          cases n with
          | zero => cases hitems
          | succ n =>
            rw [List.take_succ_cons] at hitems
            cases hitems with
            | one hx' _ => exact hx hx'

end MatchItems

section Refinement

variable {pat line rest : Bytes} {pi s fuel : Nat} {c : Byte} {items : List RxItem} {eol : Bool}

/--
The string at the index `s`.
-/
def strFrom (line : Bytes) (s : Nat) : Bytes :=
  (line.drop s).takeWhile (· ≠ 0)

theorem strFrom_eq_nil (h : charAt line s = 0) : strFrom line s = [] := by
  rw [charAt_drop] at h
  unfold strFrom
  cases hl : line.drop s with
  | nil => rfl
  | cons x l =>
    rw [hl] at h
    have hx : x = 0 := h
    rw [List.takeWhile_cons_of_neg (by simpa using hx)]

theorem strFrom_eq_cons (h : charAt line s ≠ 0)
    : strFrom line s = charAt line s :: strFrom line (s + 1) := by
  have hs := charAt_drop line s
  unfold strFrom
  cases hl : line.drop s with
  | nil =>
    rw [hl] at hs
    exact absurd hs h
  | cons x l =>
    rw [hl] at hs
    have hx : charAt line s = x := hs
    rw [drop_succ_of_drop hl, hx, List.takeWhile_cons_of_pos (by simpa using hx ▸ h)]

theorem strFrom_add {i : Nat} (hi : i ≤ (strFrom line s).length)
    : strFrom line (s + i) = (strFrom line s).drop i := by
  induction i generalizing s with
  | zero => rfl
  | succ i ih =>
    by_cases hs : charAt line s = 0
    . rw [strFrom_eq_nil hs] at hi
      exact absurd hi (Nat.not_succ_le_zero i)
    . rw [strFrom_eq_cons hs] at hi ⊢
      rw [List.drop_succ_cons, ← ih (Nat.le_of_succ_le_succ hi)]
      congr 1
      omega

theorem head?_some_le {l : Bytes} {i : Nat} (h : (l.drop i).head? = some c) : i + 1 ≤ l.length := by
  rw [List.head?_drop] at h
  exact (List.getElem?_eq_some_iff.1 h).1

theorem rxReadSet_le (h0 : 0 ∉ rest) : (rxReadSet rest).2 ≤ rest.length := by
  unfold rxReadSet
  simp only [decide_eq_true_eq]
  have hi : (if rest.head? = some 94 then 1 else 0) ≤ rest.length := by
    split
    . next h => exact head?_some_le (i := 0) h
    . exact Nat.zero_le _
  generalize (if rest.head? = some 94 then 1 else 0) = i at *
  have hj : (if (rest.drop i).head? = some 93 then i + 1 else i) ≤ rest.length := by
    split
    . next h => exact head?_some_le h
    . exact hi
  generalize (if (rest.drop i).head? = some 93 then i + 1 else i) = j at *
  have hn : j + (rxRanges (rest.drop j)).2 ≤ rest.length := by
    rw [length_rxRanges (fun h => h0 (List.mem_of_mem_drop h))]
    have := (List.takeWhile_sublist (fun c : Byte => decide (c ≠ 0 ∧ c ≠ 93)) (l := rest.drop j)).length_le
    rw [List.length_drop] at this
    omega
  split
  . next h => exact head?_some_le h
  . exact hn

theorem rxReadAtom_le (h0 : 0 ∉ rest) : (rxReadAtom c rest).2 ≤ rest.length := by
  unfold rxReadAtom
  split
  . exact Nat.zero_le _
  . split
    . exact rxReadSet_le h0
    . split
      . split
        . exact Nat.succ_le_succ (Nat.zero_le _)
        . exact Nat.zero_le _
      . exact Nat.zero_le _

theorem matchItems_zero (eol : Bool) (items : List RxItem) (l : Bytes)
    : matchItems eol items 0 l = (none, 0) := by
  cases items with
  | nil => rfl
  | cons item items => rfl

theorem rxm_zero {ic : Bool} {stop : Nat} {exact_ : Option Nat} {st : RxState} (hb : st.budget = 0)
    : rxm ic pat line fuel st pi stop s exact_ = (none, st) := by
  cases fuel with
  | zero => rfl
  | succ fuel =>
    rw [rxm.eq_def]
    dsimp only
    rw [if_pos hb]

theorem rxm_end (hpi : pi ≤ pat.length)
    (hend : (pat.drop pi = [] ∧ eol = false) ∨ (pat.drop pi = [36] ∧ eol = true))
    {st : RxState} (hb : st.budget ≠ 0) (hst : st.budget ≤ fuel)
    : rxm false pat line fuel st pi pat.length s none
        = ((matchItems eol [] st.budget (strFrom line s)).1,
          { st with budget := (matchItems eol [] st.budget (strFrom line s)).2 }) := by
  obtain ⟨fuel, rfl⟩ : ∃ n, fuel = n + 1 := ⟨fuel - 1, by omega⟩
  rw [rxm.eq_def]
  dsimp only
  rw [if_neg hb]
  unfold matchItems
  rw [if_neg hb]
  cases hend with
  | inl hend =>
    have hlen := congrArg List.length hend.1
    rw [List.length_drop, List.length_nil] at hlen
    rw [if_pos (by omega), hend.2]
    simp
  | inr hend =>
    have hlen := congrArg List.length hend.1
    rw [List.length_drop, List.length_singleton] at hlen
    have hc : charAt pat pi = 36 := by
      rw [charAt_drop, hend.1]
      rfl
    rw [if_neg (by omega), if_neg (by rw [hc]; simp), if_pos ⟨hc, by omega⟩, hend.2]
    by_cases hs : charAt line s = 0
    . rw [strFrom_eq_nil hs]
      simp [hs]
    . rw [strFrom_eq_cons hs]
      simp [hs]

theorem rxm_atom (h0 : 0 ∉ pat) (hp : pat.drop pi = c :: rest) (hbol : pi = 0 → charAt pat 0 ≠ 94)
    (heol : ¬(c = 36 ∧ rest = [])) (hgroup : ¬(c = 92 ∧ rest.head? = some 40)) {st : RxState}
    (hb : st.budget ≠ 0)
    : rxm false pat line (fuel + 1) st pi pat.length s none
        = if (rest.drop (rxReadAtom c rest).2).head? = some 42 then
            rxGreedy (fun i st =>
              ((rxm false pat line fuel st (pi + 1 + (rxReadAtom c rest).2 + 1) pat.length (s + i) none).1.map
                (i + ·),
              (rxm false pat line fuel st (pi + 1 + (rxReadAtom c rest).2 + 1) pat.length (s + i) none).2))
              ((strFrom line s).takeWhile ((rxReadAtom c rest).1.Matches ·)).length
              { st with budget := st.budget - 1 }
          else if charAt line s ≠ 0 ∧ (rxReadAtom c rest).1.Matches (charAt line s) then
            ((rxm false pat line fuel { st with budget := st.budget - 1 } (pi + 1 + (rxReadAtom c rest).2)
              pat.length (s + 1) none).1.map (1 + ·),
            (rxm false pat line fuel { st with budget := st.budget - 1 } (pi + 1 + (rxReadAtom c rest).2)
              pat.length (s + 1) none).2)
          else
            (none, { st with budget := st.budget - 1 }) := by
  have hlen := congrArg List.length hp
  rw [List.length_drop, List.length_cons] at hlen
  have hc : charAt pat pi = c := by
    rw [charAt_drop, hp]
    rfl
  have hrest := drop_succ_of_drop hp
  rw [rxm.eq_def]
  dsimp only
  rw [if_neg hb, if_neg (by omega)]
  have hnobol : ¬(charAt pat pi = 94 ∧ pi = 0) := by
    rintro ⟨h94, rfl⟩
    exact hbol rfl h94
  have hnoeol : ¬(charAt pat pi = 36 ∧ pi + 1 = pat.length) := by
    rintro ⟨h36, hend⟩
    rw [hc] at h36
    exact heol ⟨h36, List.eq_nil_of_length_eq_zero (by omega)⟩
  have hnogroup : ¬(charAt pat pi = 92 ∧ pi + 1 < pat.length ∧ charAt pat (pi + 1) = 40) := by
    rintro ⟨h92, _, h40⟩
    rw [hc] at h92
    rw [charAt_eq_iff_head (by decide), hrest] at h40
    exact hgroup ⟨h92, h40⟩
  rw [if_neg hnobol, if_neg hnoeol, if_neg hnogroup, rxAtomExtent_eq h0 hp]
  simp only [rxAtom_eq h0 hp]
  have hstar : charAt pat (pi + (1 + (rxReadAtom c rest).2)) = 42
      ↔ (rest.drop (rxReadAtom c rest).2).head? = some 42 := by
    rw [charAt_eq_iff_head (by decide), ← Nat.add_assoc, ← List.drop_drop, hrest]
  by_cases h42 : (rest.drop (rxReadAtom c rest).2).head? = some 42
  . rw [if_pos (hstar.2 h42), if_pos h42]
    have hrun : (line.drop s).takeWhile (fun x => decide (x ≠ 0 ∧
          decide (x ≠ 0 ∧ (rxReadAtom c rest).1.Matches x) = true))
        = (strFrom line s).takeWhile ((rxReadAtom c rest).1.Matches ·) := by
      unfold strFrom
      rw [List.takeWhile_takeWhile]
      congr 1
      funext x
      by_cases hx : x = 0
      . simp [hx]
      . simp [hx]
    rw [hrun, ← Nat.add_assoc]
    rfl
  . rw [if_neg (fun h => h42 (hstar.1 h)), if_neg h42]
    by_cases hm : charAt line s ≠ 0 ∧ (rxReadAtom c rest).1.Matches (charAt line s)
    . rw [if_pos hm, if_neg (by rw [decide_eq_true hm]; decide)]
      rfl
    . rw [if_neg hm, if_pos (decide_eq_false hm)]

theorem rxm_eq (h0 : 0 ∉ pat) (hread : rxReadItems (pat.drop pi) = some (items, eol))
    (hpi : pi ≤ pat.length) (hbol : pi = 0 → charAt pat 0 ≠ 94) {st : RxState} (hst : st.budget ≤ fuel)
    (s : Nat)
    : rxm false pat line fuel st pi pat.length s none
        = ((matchItems eol items st.budget (strFrom line s)).1,
          { st with budget := (matchItems eol items st.budget (strFrom line s)).2 }) := by
  induction items generalizing pi fuel st s with
  | nil =>
    by_cases hb : st.budget = 0
    . rw [rxm_zero hb, hb, matchItems_zero, ← hb]
    . obtain ⟨hp, _, heol⟩ | ⟨hp, _, heol⟩ | ⟨_, _, _, _, _, _, ⟨_, h, _⟩ | ⟨_, h, _⟩⟩ :=
        rxReadItems_cases hread
      . exact rxm_end hpi (.inl ⟨hp, heol⟩) hb hst
      . exact rxm_end hpi (.inr ⟨hp, heol⟩) hb hst
      . contradiction
      . contradiction
  | cons item items ih =>
    by_cases hb : st.budget = 0
    . rw [rxm_zero hb, hb, matchItems_zero, ← hb]
    . obtain ⟨_, h, _⟩ | ⟨_, h, _⟩ | ⟨c, rest, items', hp, heol, hgroup, hcase⟩ := rxReadItems_cases hread
      . contradiction
      . contradiction
      . obtain ⟨fuel, rfl⟩ : ∃ n, fuel = n + 1 := ⟨fuel - 1, by omega⟩
        have hrest := drop_succ_of_drop hp
        have hlen := congrArg List.length hp
        rw [List.length_drop, List.length_cons] at hlen
        rw [rxm_atom h0 hp hbol heol hgroup hb]
        obtain ⟨hstar, heq, hread'⟩ | ⟨hstar, heq, hread'⟩ := hcase
        . cases heq
          rw [if_pos hstar, matchItems_star hb]
          have hnext : pat.drop (pi + 1 + (rxReadAtom c rest).2 + 1)
              = rest.drop ((rxReadAtom c rest).2 + 1) := by
            rw [Nat.add_assoc (pi + 1), ← List.drop_drop, hrest]
          have hle := head?_some_le hstar
          refine rxGreedy_map (k := fuel) ?_ ?_ (by dsimp only; omega)
          . intro i hi st hst
            have hi' := Nat.le_trans hi (List.takeWhile_sublist _).length_le
            rw [← strFrom_add hi']
            rw [ih (by rw [hnext]; exact hread') (by omega) (by omega) hst (s + i)]
          . intro i b
            exact matchItems_le eol _ b _
        . cases heq
          rw [if_neg hstar]
          have hnext : pat.drop (pi + 1 + (rxReadAtom c rest).2) = rest.drop (rxReadAtom c rest).2 := by
            rw [← List.drop_drop, hrest]
          have hle : (rxReadAtom c rest).2 ≤ rest.length := by
            apply rxReadAtom_le
            intro h
            rw [← hrest] at h
            exact h0 (List.mem_of_mem_drop h)
          have hih : rxm false pat line fuel { st with budget := st.budget - 1 }
                (pi + 1 + (rxReadAtom c rest).2) pat.length (s + 1) none
              = ((matchItems eol items (st.budget - 1) (strFrom line (s + 1))).1,
                { st with budget := (matchItems eol items (st.budget - 1) (strFrom line (s + 1))).2 }) :=
            ih (by rw [hnext]; exact hread') (by omega) (by omega) (by show st.budget - 1 ≤ fuel; omega) (s + 1)
          by_cases hs : charAt line s = 0
          . rw [if_neg (fun h => h.1 hs), strFrom_eq_nil hs, matchItems_one_nil hb]
          . rw [strFrom_eq_cons hs, matchItems_one_cons hb]
            by_cases hm : (rxReadAtom c rest).1.Matches (charAt line s)
            . rw [if_pos ⟨hs, hm⟩, if_pos hm, hih]
            . rw [if_neg (fun h => hm h.2), if_neg hm]

theorem rxm_read {p : RxPattern} (h0 : 0 ∉ pat) (hread : rxRead pat = some p) {st : RxState}
    (hst : st.budget ≤ fuel) (i : Nat)
    : (p.bol = true ↔ charAt pat 0 = 94)
        ∧ ∃ b, st.budget ≤ b + 1
          ∧ (rxm false pat line fuel st 0 pat.length i none).1
            = if p.bol ∧ i ≠ 0 then none else (matchItems p.eol p.items b (strFrom line i)).1 := by
  by_cases hbol : charAt pat 0 = 94
  . obtain ⟨rest, rfl⟩ : ∃ rest, pat = 94 :: rest := by
      cases pat with
      | nil => exact absurd hbol (by decide)
      | cons c rest =>
        have hc : c = 94 := hbol
        exact ⟨rest, by rw [hc]⟩
    obtain ⟨⟨items, eol⟩, hitems, rfl⟩ := Option.map_eq_some_iff.1 hread
    refine ⟨by simp [charAt], st.budget - 1, by omega, ?_⟩
    by_cases hb : st.budget = 0
    . rw [rxm_zero hb, hb, Nat.zero_sub, matchItems_zero]
      simp
    . obtain ⟨fuel, rfl⟩ : ∃ n, fuel = n + 1 := ⟨fuel - 1, by omega⟩
      rw [rxm.eq_def]
      dsimp only
      rw [if_neg hb, if_neg (by simp), if_pos ⟨hbol, rfl⟩]
      by_cases hi : i = 0
      . rw [if_neg (by simpa using hi), if_neg (by simp [hi])]
        have hitems' : rxReadItems ((94 :: rest).drop 1) = some (items, eol) := hitems
        rw [rxm_eq h0 hitems' (by simp) (by simp) (by dsimp only; omega)]
      . rw [if_pos hi, if_pos (by simp [hi])]
  . have hread' : (rxReadItems pat).map (fun (items, eol) => ({ bol := false, items, eol } : RxPattern))
        = some p := by
      rw [← hread]
      unfold rxRead
      split
      . next rest => exact absurd rfl hbol
      . rfl
    obtain ⟨⟨items, eol⟩, hitems, rfl⟩ := Option.map_eq_some_iff.1 hread'
    refine ⟨by simp [hbol], st.budget, Nat.le_succ _, ?_⟩
    have hitems' : rxReadItems (pat.drop 0) = some (items, eol) := hitems
    rw [rxm_eq h0 hitems' (Nat.zero_le _) (fun _ => hbol) hst]
    simp

end Refinement

/--
The pattern matches `n` characters of a string in the buffer, the one from `i` on.
-/
structure RxPattern.MatchesIn (p : RxPattern) (buf : Bytes) (i n : Nat) : Prop where
  bol : p.bol → i = 0
  front : MatchesFront p.eol p.items (strFrom buf i) n

/--
The steps are enough wherever the pattern is tried.
-/
def Affordable (p : RxPattern) (buf : Bytes) (i : Nat) : Prop :=
  stepsFor p.items (strFrom buf i).length < rxSteps

section Find

variable {pat buf : Bytes} {p : RxPattern} {fuel : Nat}

theorem rxm_try (h0 : 0 ∉ pat) (hread : rxRead pat = some p) (hfuel : rxSteps ≤ fuel) (st : RxState) (i : Nat)
    : (∀ n, (rxm false pat buf fuel { st with budget := rxSteps } 0 pat.length i none).1 = some n →
        p.MatchesIn buf i n)
      ∧ (Affordable p buf i →
        (rxm false pat buf fuel { st with budget := rxSteps } 0 pat.length i none).1 = none →
          ∀ n, ¬p.MatchesIn buf i n) := by
  obtain ⟨_, b, hb, heq⟩ :=
    @rxm_read pat buf fuel p h0 hread { st with budget := rxSteps } hfuel i
  rw [heq]
  by_cases hbol : p.bol ∧ i ≠ 0
  . rw [if_pos hbol]
    refine ⟨fun n h => by contradiction, fun _ _ n hn => hbol.2 (hn.bol hbol.1)⟩
  . rw [if_neg hbol]
    constructor
    . intro n hn
      refine ⟨?_, matchItems_sound hn⟩
      intro h
      by_contra hi
      exact hbol ⟨h, hi⟩
    . intro hafford hnone n hn
      have hafford : stepsFor p.items (strFrom buf i).length < rxSteps := hafford
      have hb : rxSteps ≤ b + 1 := hb
      exact (matchItems_complete (by omega) hnone).1 n hn.front

theorem rxFind.go_spec (h0 : 0 ∉ pat) (hread : rxRead pat = some p) (hfuel : rxSteps ≤ fuel) {n i : Nat}
    (hn : buf.length ≤ n + i) (st : RxState)
    : (∀ j m, (rxFind.go false pat buf fuel n i st).1 = some (j, m) →
        i ≤ j ∧ j < i + (strFrom buf i).length ∧ p.MatchesIn buf j m
          ∧ ((∀ k, i ≤ k → k < j → Affordable p buf k) →
            ∀ k, i ≤ k → k < j → ∀ m, ¬p.MatchesIn buf k m))
      ∧ ((rxFind.go false pat buf fuel n i st).1 = none →
        (∀ k, i ≤ k → k < i + (strFrom buf i).length → Affordable p buf k) →
          ∀ k, i ≤ k → k < i + (strFrom buf i).length → ∀ m, ¬p.MatchesIn buf k m) := by
  induction n generalizing i st with
  | zero =>
    have hend : charAt buf i = 0 := by
      unfold charAt
      rw [List.getD_eq_getElem?_getD, List.getElem?_eq_none (by omega)]
      rfl
    rw [strFrom_eq_nil hend]
    refine ⟨fun j m h => by contradiction, fun _ _ k hk hlt => ?_⟩
    rw [List.length_nil] at hlt
    omega
  | succ n ih =>
    unfold rxFind.go
    by_cases hend : charAt buf i = 0
    . rw [if_pos hend, strFrom_eq_nil hend]
      refine ⟨fun j m h => by contradiction, fun _ _ k hk hlt => ?_⟩
      rw [List.length_nil] at hlt
      omega
    . rw [if_neg hend]
      have hlen := congrArg List.length (strFrom_eq_cons hend)
      rw [List.length_cons] at hlen
      obtain ⟨hsome, hnone⟩ := @rxm_try pat buf p fuel h0 hread hfuel st i
      cases hres : rxm false pat buf fuel { st with budget := rxSteps } 0 pat.length i none with
      | mk res st' =>
        rw [hres] at hsome hnone
        cases res with
        | some mlen =>
          dsimp only
          refine ⟨?_, fun h => by contradiction⟩
          intro j m h
          cases h
          exact ⟨Nat.le_refl i, by omega, hsome mlen rfl, fun _ k hk hlt => absurd hlt (Nat.not_lt.2 hk)⟩
        | none =>
          dsimp only
          split
          . next hbol =>
            have hp := (@rxm_read pat buf fuel p h0 hread { st with budget := rxSteps } hfuel i).1.2 hbol
            refine ⟨fun j m h => by contradiction, fun _ hafford k hk hlt m hm => ?_⟩
            cases Nat.eq_or_lt_of_le hk with
            | inl heq =>
              subst heq
              exact hnone (hafford i hk hlt) rfl m hm
            | inr hik => exact absurd (hm.bol hp) (by omega)
          . obtain ⟨hfound, hmissed⟩ := ih (i := i + 1) (by omega) st'
            constructor
            . intro j m h
              obtain ⟨hle, hlt, hm, hfirst⟩ := hfound j m h
              refine ⟨by omega, by omega, hm, fun hafford k hk hkj m' hm' => ?_⟩
              cases Nat.eq_or_lt_of_le hk with
              | inl heq =>
                subst heq
                exact hnone (hafford i hk hkj) rfl m' hm'
              | inr hik =>
                exact hfirst (fun k hk => hafford k (by omega)) k hik hkj m' hm'
            . intro h hafford k hk hlt m' hm'
              cases Nat.eq_or_lt_of_le hk with
              | inl heq =>
                subst heq
                exact hnone (hafford i hk hlt) rfl m' hm'
              | inr hik =>
                exact hmissed h (fun k hk hlt => hafford k (by omega) (by omega)) k hik (by omega) m' hm'

theorem rxFind_fuel (h0 : 0 ∉ pat) (hread : rxRead pat = some p) (hfuel : rxSteps ≤ fuel) (from_ : Int)
    (st : RxState)
    : rxFind false pat buf fuel from_ st = rxFind false pat buf rxSteps from_ st := by
  have htry : ∀ i (st : RxState), st.budget = rxSteps →
      rxm false pat buf fuel st 0 pat.length i none = rxm false pat buf rxSteps st 0 pat.length i none := by
    intro i st hst
    by_cases hbol : charAt pat 0 = 94
    . obtain ⟨rest, rfl⟩ : ∃ rest, pat = 94 :: rest := by
        cases pat with
        | nil => exact absurd hbol (by decide)
        | cons c rest =>
          have hc : c = 94 := hbol
          exact ⟨rest, by rw [hc]⟩
      obtain ⟨⟨items, eol⟩, hitems, rfl⟩ := Option.map_eq_some_iff.1 hread
      have hitems' : rxReadItems ((94 :: rest).drop 1) = some (items, eol) := hitems
      obtain ⟨n, rfl⟩ : ∃ n, fuel = n + 1 := ⟨fuel - 1, by unfold rxSteps at hfuel; omega⟩
      have hb : st.budget ≠ 0 := by
        rw [hst]
        decide
      have hstep : ∀ n, rxSteps ≤ n + 1 →
          rxm false (94 :: rest) buf (n + 1) st 0 (94 :: rest).length i none
            = if i ≠ 0 then (none, { st with budget := st.budget - 1 })
              else ((matchItems eol items (st.budget - 1) (strFrom buf i)).1,
                { st with budget := (matchItems eol items (st.budget - 1) (strFrom buf i)).2 }) := by
        intro n hn
        rw [rxm.eq_def]
        dsimp only
        rw [if_neg hb, if_neg (by simp), if_pos ⟨hbol, rfl⟩]
        rw [rxm_eq h0 hitems' (by simp) (by simp) (by dsimp only; omega)]
      rw [hstep n hfuel]
      exact (hstep 59999 (Nat.le_refl _)).symm
    . have hread' : (rxReadItems pat).map (fun (items, eol) => ({ bol := false, items, eol } : RxPattern))
          = some p := by
        rw [← hread]
        unfold rxRead
        split
        . next rest => exact absurd rfl hbol
        . rfl
      obtain ⟨⟨items, eol⟩, hitems, rfl⟩ := Option.map_eq_some_iff.1 hread'
      have hitems' : rxReadItems (pat.drop 0) = some (items, eol) := hitems
      rw [rxm_eq h0 hitems' (Nat.zero_le _) (fun _ => hbol) (by omega),
        rxm_eq h0 hitems' (Nat.zero_le _) (fun _ => hbol) (by omega)]
  have hgo : ∀ n i (st : RxState),
      rxFind.go false pat buf fuel n i st = rxFind.go false pat buf rxSteps n i st := by
    intro n
    induction n with
    | zero =>
      intro i st
      rfl
    | succ n ih =>
      intro i st
      unfold rxFind.go
      rw [htry i { st with budget := rxSteps } rfl]
      simp only [ih]
  exact hgo _ _ st

end Find

section Line

variable {pat : CStr} {line : CStr} {stale : Bytes} {p : RxPattern} {from_ : Int} {st : RxState}
  {fuel : Nat}

/--
An array with the string `line` in it, and what has been left behind its null.
-/
def lineBuf (line : CStr) (stale : Bytes) : Bytes :=
  line.val ++ 0 :: stale

theorem strFrom_lineBuf {i : Nat} (hi : i ≤ line.val.length)
    : strFrom (lineBuf line stale) i = line.val.drop i := by
  have hall : strFrom (lineBuf line stale) 0 = line.val := by
    unfold strFrom lineBuf
    rw [List.drop_zero, List.takeWhile_append_of_pos]
    . simp
    . intro x hx
      have hx0 : x ≠ 0 := fun h => line.2 (h ▸ hx)
      simpa using hx0
  have hadd := @strFrom_add (lineBuf line stale) 0 i (by rw [hall]; exact hi)
  rw [Nat.zero_add, hall] at hadd
  exact hadd

theorem matchesIn_lineBuf {i n : Nat} (hi : i ≤ line.val.length)
    : p.MatchesIn (lineBuf line stale) i n ↔ p.MatchesAt line.val i n := by
  constructor
  . rintro ⟨hbol, hle, heol, hitems⟩
    rw [strFrom_lineBuf hi] at hle heol hitems
    rw [List.length_drop] at hle heol
    exact ⟨by omega, hbol, fun h => by have := heol h; omega, hitems⟩
  . rintro ⟨hle, hbol, heol, hitems⟩
    refine ⟨hbol, ?_, ?_, ?_⟩
    . rw [strFrom_lineBuf hi, List.length_drop]
      omega
    . rw [strFrom_lineBuf hi, List.length_drop]
      intro h
      have := heol h
      omega
    . rw [strFrom_lineBuf hi]
      exact hitems

/--
In what is left in the array from `i` on, up to the next null, there is nothing that matches.
-/
def NothingBehind (p : RxPattern) (buf : Bytes) (i : Nat) : Prop :=
  ∀ k, i ≤ k → k < i + (strFrom buf i).length → ∀ m, ¬p.MatchesIn buf k m

/--
What has been found is a match in the line.
-/
def FindsMatch (p : RxPattern) (line : Bytes) (from_ : Int) (res : Option (Nat × Nat)) : Prop :=
  ∀ i n, res = some (i, n) → from_ ≤ i ∧ p.MatchesAt line i n

/--
The first position with a match has been found, if there is one up to the end of the line.
-/
structure FindsFirst (p : RxPattern) (line : Bytes) (from_ : Int) (res : Option (Nat × Nat)) : Prop where
  none : res = none → ∀ j n : Nat, from_ ≤ j → j ≤ line.length → ¬p.MatchesAt line j n
  some : ∀ i m, res = some (i, m) → from_ ≤ i ∧ i ≤ line.length ∧ (∃ n, p.MatchesAt line i n)
    ∧ ∀ j n : Nat, from_ ≤ j → j < i → ¬p.MatchesAt line j n

theorem rxFind_line (hread : rxRead pat.val = some p) (hfuel : rxSteps ≤ fuel)
    (hfrom : from_ ≤ line.val.length)
    : (∀ i n, (rxFind false pat.val (lineBuf line stale) fuel from_ st).1 = some (i, n) →
        from_ ≤ i ∧ i < line.val.length ∧ p.MatchesAt line.val i n
          ∧ ((∀ k ≤ line.val.length, Affordable p (lineBuf line stale) k) →
            ∀ k m : Nat, from_ ≤ k → k < i → ¬p.MatchesAt line.val k m))
      ∧ ((rxFind false pat.val (lineBuf line stale) fuel from_ st).1 = none →
        (∀ k ≤ line.val.length, Affordable p (lineBuf line stale) k) →
          ∀ k m : Nat, from_ ≤ k → k < line.val.length → ¬p.MatchesAt line.val k m) := by
  have hle : from_.toNat ≤ line.val.length := by omega
  have hlen := congrArg List.length (@strFrom_lineBuf line stale from_.toNat hle)
  rw [List.length_drop] at hlen
  obtain ⟨hsome, hnone⟩ := @rxFind.go_spec pat.val (lineBuf line stale) p fuel pat.2 hread hfuel
    ((lineBuf line stale).length - from_.toNat) from_.toNat (by omega) st
  constructor
  . intro i n h
    obtain ⟨hi, hlt, hm, hfirst⟩ := hsome i n h
    refine ⟨by omega, by omega, (matchesIn_lineBuf (by omega)).1 hm, fun hafford k m hk hki hm' => ?_⟩
    exact hfirst (fun k _ hk => hafford k (by omega)) k (by omega) hki m
      ((matchesIn_lineBuf (by omega)).2 hm')
  . intro h hafford k m hk hlt hm
    exact hnone h (fun k _ hk => hafford k (by omega)) k (by omega) (by omega) m
      ((matchesIn_lineBuf (by omega)).2 hm)

theorem rxFind_behind (hread : rxRead pat.val = some p) (hfuel : rxSteps ≤ fuel)
    (hfrom : line.val.length < from_)
    : (∀ i n, (rxFind false pat.val (lineBuf line stale) fuel from_ st).1 = some (i, n) →
        line.val.length < i ∧ ¬NothingBehind p (lineBuf line stale) from_.toNat)
      ∧ ((rxFind false pat.val (lineBuf line stale) fuel from_ st).1 = none →
        (∀ k, from_ ≤ k → k < from_ + (strFrom (lineBuf line stale) from_.toNat).length →
          Affordable p (lineBuf line stale) k.toNat) →
          NothingBehind p (lineBuf line stale) from_.toNat) := by
  obtain ⟨hsome, hnone⟩ := @rxFind.go_spec pat.val (lineBuf line stale) p fuel pat.2 hread hfuel
    ((lineBuf line stale).length - from_.toNat) from_.toNat (by omega) st
  constructor
  . intro i n h
    obtain ⟨hi, hlt, hm, _⟩ := hsome i n h
    exact ⟨by omega, fun hno => hno i hi hlt n hm⟩
  . intro h hafford
    exact hnone h (fun k hk hlt => hafford k (by omega) (by omega))

theorem behind_of_findsMatch (hread : rxRead pat.val = some p) (hfuel : rxSteps ≤ fuel)
    (hafford : ∀ k, Affordable p (lineBuf line stale) k)
    (hfinds : FindsMatch p line.val from_ (rxFind false pat.val (lineBuf line stale) fuel from_ st).1)
    : from_ ≤ line.val.length ∨ NothingBehind p (lineBuf line stale) from_.toNat := by
  by_cases hle : from_ ≤ line.val.length
  . exact .inl hle
  . right
    have hbehind : line.val.length < from_ := by omega
    obtain ⟨hsome, hnone⟩ := @rxFind_behind pat line stale p from_ st fuel hread hfuel hbehind
    cases hres : (rxFind false pat.val (lineBuf line stale) fuel from_ st).1 with
    | none => exact hnone hres (fun k _ _ => hafford k.toNat)
    | some r =>
      have hm := (hfinds r.1 r.2 hres).2.within
      have hi := (hsome r.1 r.2 hres).1
      omega

/--
What `rx_find` finds is a match in the line if it starts in the line, or if nothing in what has been
left behind the line matches. With steps enough it is one only then.
-/
theorem rxFind_findsMatch (pat line : CStr) (stale : Bytes) (p : RxPattern) (from_ : Int) (st : RxState)
    (fuel : Nat) (hread : rxRead pat.val = some p) (hfuel : rxSteps ≤ fuel)
    : rxFind false pat.val (lineBuf line stale) fuel from_ st
          = rxFind false pat.val (lineBuf line stale) rxSteps from_ st
      ∧ ((from_ ≤ line.val.length ∨ NothingBehind p (lineBuf line stale) from_.toNat) →
        FindsMatch p line.val from_ (rxFind false pat.val (lineBuf line stale) fuel from_ st).1)
      ∧ ((∀ k, Affordable p (lineBuf line stale) k) →
        FindsMatch p line.val from_ (rxFind false pat.val (lineBuf line stale) fuel from_ st).1 →
          from_ ≤ line.val.length ∨ NothingBehind p (lineBuf line stale) from_.toNat) := by
  refine ⟨rxFind_fuel pat.2 hread hfuel from_ st, ?_, behind_of_findsMatch hread hfuel⟩
  intro hcond i n h
  cases Int.lt_or_le line.val.length from_ with
  | inl hbehind =>
    obtain ⟨hi, hno⟩ := (rxFind_behind hread hfuel hbehind).1 i n h
    exact absurd (hcond.resolve_left (by omega)) hno
  | inr hle =>
    obtain ⟨hi, _, hm, _⟩ := (rxFind_line hread hfuel hle).1 i n h
    exact ⟨hi, hm⟩

/--
The letter `b`, and the state of the matcher at the start.
-/
def letterB : RxPattern :=
  { bol := false, items := [{ atom := .char 98, star := false }], eol := false }

def rxBoot : RxState :=
  { budget := 0, spans := fun _ => (0, 0) }

theorem rxRead_letterB : rxRead [98] = some letterB := by
  simp [rxRead, rxReadItems, rxReadAtom, letterB]

theorem rxFind_findsMatch_letter
    : FindsMatch letterB [97, 98] 0
        (rxFind false [98] (lineBuf ⟨[97, 98], by decide⟩ []) rxSteps 0 rxBoot).1 :=
  (rxFind_findsMatch ⟨[98], by decide⟩ ⟨[97, 98], by decide⟩ [] letterB 0 rxBoot rxSteps rxRead_letterB
    (Nat.le_refl _)).2.1 (.inl (by decide))

/--
The line is empty and a `b` of the line before is still in the array: it is found at position one.
-/
theorem not_findsMatch_empty
    : ¬FindsMatch letterB [] 1
        (rxFind false [98] (lineBuf ⟨[], by decide⟩ [98, 0]) rxSteps 1 rxBoot).1 := by
  intro h
  have hcond := @behind_of_findsMatch ⟨[98], by decide⟩ ⟨[], by decide⟩ [98, 0] letterB 1 rxBoot rxSteps
    rxRead_letterB (Nat.le_refl _) (fun k => by show 2 < 60000; decide) h
  have hno := hcond.resolve_left (by decide)
  refine hno 1 (by decide) (by decide) 1 ⟨by decide, by decide, by decide, ?_⟩
  exact RxItems.one rfl RxItems.nil

section First

theorem rxReadItems_bounds {pat : Bytes} {items : List RxItem} {eol : Bool}
    (h : rxReadItems pat = some (items, eol))
    : items.length ≤ pat.length ∧ items.countP (·.star) ≤ pat.count 42 := by
  induction items generalizing pat with
  | nil => exact ⟨Nat.zero_le _, Nat.zero_le _⟩
  | cons item items ih =>
    obtain ⟨_, h, _⟩ | ⟨_, h, _⟩ | ⟨c, rest, items', rfl, _, _, hcase⟩ := rxReadItems_cases h
    . contradiction
    . contradiction
    . have hcons : rest.count 42 ≤ (c :: rest).count 42 := (List.sublist_cons_self c rest).count_le 42
      have hdrop := (List.drop_sublist (rxReadAtom c rest).2 rest).count_le 42
      obtain ⟨hstar, heq, hread⟩ | ⟨hstar, heq, hread⟩ := hcase
      . cases heq
        obtain ⟨hlen, hcount⟩ := ih hread
        rw [List.length_drop] at hlen
        obtain ⟨l, hl⟩ : ∃ l, rest.drop (rxReadAtom c rest).2 = 42 :: l := by
          cases hl : rest.drop (rxReadAtom c rest).2 with
          | nil =>
            rw [hl] at hstar
            contradiction
          | cons d l =>
            rw [hl] at hstar
            cases hstar
            exact ⟨l, rfl⟩
        have hnext := drop_succ_of_drop hl
        rw [hnext] at hcount
        rw [hl, List.count_cons_self] at hdrop
        rw [List.length_cons, List.length_cons, List.countP_cons_of_pos rfl]
        exact ⟨by omega, by omega⟩
      . cases heq
        obtain ⟨hlen, hcount⟩ := ih hread
        rw [List.length_drop] at hlen
        rw [List.length_cons, List.length_cons, List.countP_cons_of_neg (by simp)]
        exact ⟨by omega, by omega⟩

theorem rxRead_bounds {pat : Bytes} {p : RxPattern} (h : rxRead pat = some p)
    : p.items.length ≤ pat.length ∧ p.items.countP (·.star) ≤ pat.count 42 := by
  unfold rxRead at h
  split at h
  . next rest =>
    obtain ⟨⟨items, eol⟩, hread, rfl⟩ := Option.map_eq_some_iff.1 h
    obtain ⟨hlen, hcount⟩ := rxReadItems_bounds hread
    refine ⟨Nat.le_succ_of_le hlen, Nat.le_trans hcount ?_⟩
    exact (List.sublist_cons_self _ _).count_le 42
  . obtain ⟨⟨items, eol⟩, hread, rfl⟩ := Option.map_eq_some_iff.1 h
    exact rxReadItems_bounds hread

theorem stepsFor_plain {items : List RxItem} (h : items.countP (·.star) = 0) (len : Nat)
    : stepsFor items len = items.length + 1 := by
  induction items with
  | nil => rfl
  | cons item items ih =>
    rw [List.countP_eq_zero] at h
    have hstar : item.star = false := by
      simpa using h item List.mem_cons_self
    unfold stepsFor
    rw [hstar, ih (List.countP_eq_zero.2 fun x hx => h x (List.mem_cons_of_mem _ hx)), List.length_cons]
    simp only [Bool.false_eq_true, if_false]
    omega

theorem stepsFor_one {items : List RxItem} (h : items.countP (·.star) ≤ 1) (len : Nat)
    : stepsFor items len ≤ (items.length + 1) * (len + 2) := by
  induction items with
  | nil =>
    rw [List.length_nil, Nat.zero_add, Nat.one_mul]
    exact Nat.le_add_left 1 (len + 1)
  | cons item items ih =>
    have hsplit : (items.length + 1 + 1) * (len + 2) = (items.length + 1) * (len + 2) + (len + 2) := by
      rw [Nat.add_mul, Nat.one_mul]
    unfold stepsFor
    rw [List.length_cons, hsplit]
    cases hstar : item.star with
    | true =>
      rw [List.countP_cons_of_pos hstar] at h
      have hplain : items.countP (·.star) = 0 := Nat.le_zero.1 (Nat.le_of_succ_le_succ h)
      rw [if_pos rfl, stepsFor_plain hplain, Nat.mul_comm]
      have hmul : (items.length + 1) * (len + 2) = (items.length + 1) * (len + 1) + (items.length + 1) := by
        rw [← Nat.mul_succ]
      omega
    | false =>
      rw [List.countP_cons_of_neg (by simp [hstar])] at h
      have := ih h
      simp only [Bool.false_eq_true, if_false]
      omega

theorem affordable_of_short {pat buf : Bytes} {p : RxPattern} {k : Nat} (hread : rxRead pat = some p)
    (hpat : pat.length ≤ 100) (hstar : pat.count 42 ≤ 1) (hlen : (strFrom buf k).length ≤ 200)
    : Affordable p buf k := by
  obtain ⟨hitems, hcount⟩ := rxRead_bounds hread
  have hsteps := stepsFor_one (Nat.le_trans hcount hstar) (strFrom buf k).length
  have hmul : (p.items.length + 1) * ((strFrom buf k).length + 2) ≤ 101 * 202 :=
    Nat.mul_le_mul (by omega) (by omega)
  unfold Affordable rxSteps
  omega

/--
Some position in front of the end of the line starts a match, or the end does not.
-/
def FoundBeforeEnd (p : RxPattern) (line : Bytes) (from_ : Int) : Prop :=
  (∃ j n : Nat, from_ ≤ j ∧ j < line.length ∧ p.MatchesAt line j n)
    ∨ ∀ n, ¬p.MatchesAt line line.length n

theorem findsFirst_of_before (hread : rxRead pat.val = some p) (hfuel : rxSteps ≤ fuel)
    (hafford : ∀ k ≤ line.val.length, Affordable p (lineBuf line stale) k)
    (hfrom : from_ ≤ line.val.length) (hfound : FoundBeforeEnd p line.val from_)
    : FindsFirst p line.val from_ (rxFind false pat.val (lineBuf line stale) fuel from_ st).1 := by
  obtain ⟨hsome, hnone⟩ := @rxFind_line pat line stale p from_ st fuel hread hfuel hfrom
  constructor
  . intro hres j n hj hlen hm
    have hno := hnone hres hafford
    cases Nat.lt_or_eq_of_le hlen with
    | inl hlt => exact hno j n hj hlt hm
    | inr heq =>
      obtain ⟨k, m, hk, hlt, hm'⟩ | hend := hfound
      . exact hno k m hk hlt hm'
      . exact hend n (heq ▸ hm)
  . intro i m hres
    obtain ⟨hi, hlt, hm, hfirst⟩ := hsome i m hres
    exact ⟨hi, Nat.le_of_lt hlt, ⟨m, hm⟩, fun j n hj hji => hfirst hafford j n hj hji⟩

theorem before_of_findsFirst (hread : rxRead pat.val = some p) (hfuel : rxSteps ≤ fuel)
    (hfrom : from_ ≤ line.val.length)
    (hfinds : FindsFirst p line.val from_ (rxFind false pat.val (lineBuf line stale) fuel from_ st).1)
    : FoundBeforeEnd p line.val from_ := by
  obtain ⟨hsome, -⟩ := @rxFind_line pat line stale p from_ st fuel hread hfuel hfrom
  cases hres : (rxFind false pat.val (lineBuf line stale) fuel from_ st).1 with
  | none => exact .inr fun n hm => hfinds.none hres line.val.length n hfrom (Nat.le_refl _) hm
  | some r =>
    obtain ⟨hi, hlt, hm, -⟩ := hsome r.1 r.2 hres
    exact .inl ⟨r.1, r.2, hi, hlt, hm⟩

/--
From a position in the line on `rx_find` finds the first match, but none that is only at its end.
Behind the line there is none to be found, unless one has been left there.
-/
theorem rxFind_findsFirst_iff (pat line : CStr) (stale : Bytes) (p : RxPattern) (from_ : Int)
    (st : RxState) (hread : rxRead pat.val = some p) (hpat : pat.val.length ≤ 100)
    (hstar : pat.val.count 42 ≤ 1) (hline : line.val.length ≤ 200)
    : (from_ ≤ line.val.length →
        (FindsFirst p line.val from_ (rxFind false pat.val (lineBuf line stale) rxSteps from_ st).1
          ↔ FoundBeforeEnd p line.val from_))
      ∧ (line.val.length < from_ →
        (NothingBehind p (lineBuf line stale) from_.toNat →
          FindsFirst p line.val from_ (rxFind false pat.val (lineBuf line stale) rxSteps from_ st).1)
        ∧ ((strFrom (lineBuf line stale) from_.toNat).length ≤ 200 →
          FindsFirst p line.val from_ (rxFind false pat.val (lineBuf line stale) rxSteps from_ st).1 →
            NothingBehind p (lineBuf line stale) from_.toNat)) := by
  have hafford : ∀ k ≤ line.val.length, Affordable p (lineBuf line stale) k := by
    intro k hk
    apply affordable_of_short hread hpat hstar
    rw [strFrom_lineBuf hk, List.length_drop]
    omega
  constructor
  . intro hfrom
    exact ⟨before_of_findsFirst hread (Nat.le_refl _) hfrom,
      findsFirst_of_before hread (Nat.le_refl _) hafford hfrom⟩
  . intro hbehind
    obtain ⟨hsome, hnone⟩ := @rxFind_behind pat line stale p from_ st rxSteps hread (Nat.le_refl _) hbehind
    constructor
    . intro hno
      constructor
      . intro _ j n hj hlen
        omega
      . intro i m hres
        exact absurd hno (hsome i m hres).2
    . intro hshort hfinds
      cases hres : (rxFind false pat.val (lineBuf line stale) rxSteps from_ st).1 with
      | some r =>
        have := (hfinds.some r.1 r.2 hres).2.1
        have := (hsome r.1 r.2 hres).1
        omega
      | none =>
        refine hnone hres (fun k hk hlt => ?_)
        apply affordable_of_short hread hpat hstar
        have hle : k.toNat - from_.toNat ≤ (strFrom (lineBuf line stale) from_.toNat).length := by omega
        have hadd := strFrom_add hle
        have hk' : from_.toNat + (k.toNat - from_.toNat) = k.toNat := by omega
        rw [hk'] at hadd
        rw [hadd, List.length_drop]
        omega

/--
`b` in `ab`.
-/
theorem rxFind_findsFirst_letter
    : FindsFirst letterB [97, 98] 0
        (rxFind false [98] (lineBuf ⟨[97, 98], by decide⟩ []) rxSteps 0 rxBoot).1 :=
  ((rxFind_findsFirst_iff ⟨[98], by decide⟩ ⟨[97, 98], by decide⟩ [] letterB 0 rxBoot rxRead_letterB
    (by decide) (by decide) (by decide)).1 (by decide)).2
      (.inl ⟨1, 1, by decide, by decide, ⟨by decide, by decide, by decide, RxItems.one rfl RxItems.nil⟩⟩)

/--
The end of the line alone is not found, not even in an empty line.
-/
theorem not_findsFirst_eol
    : ¬FindsFirst { bol := false, items := [], eol := true } [] 0
        (rxFind false [36] (lineBuf ⟨[], by decide⟩ []) rxSteps 0 rxBoot).1 := by
  intro h
  have hread : rxRead [36] = some { bol := false, items := [], eol := true } := by
    simp [rxRead, rxReadItems]
  have hfound := @before_of_findsFirst ⟨[36], by decide⟩ ⟨[], by decide⟩ [] _ 0 rxBoot rxSteps hread
    (Nat.le_refl _) (by decide) h
  obtain ⟨j, n, _, hlt, _⟩ | hend := hfound
  . exact absurd hlt (Nat.not_lt_zero j)
  . exact hend 0 ⟨by decide, by decide, by decide, RxItems.nil⟩

end First

end Line

end TanjaOS
