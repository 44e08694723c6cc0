import Mathlib.Data.Nat.Init

/-!
Brackets in a sequence, which has the weight 1 where a bracket opens and -1 where it closes. The depth
in front of a place is the sum of the weights before it.
-/

namespace Lib

def depth (w : Nat → Int) : Nat → Int
  | 0 => 0
  | k + 1 => depth w k + w k

/--
What is opened at `i` is closed at `j`.
-/
structure Matched (w : Nat → Int) (i j : Nat) : Prop where
  lt : i < j
  closes : depth w (j + 1) = depth w i
  inside : ∀ k, i < k → k ≤ j → depth w i < depth w k

/--
The first of the `n` places from `i` on where nothing is open any more, if `d` are open before it.
-/
def closing (w : Nat → Int) : Nat → Int → Nat → Option Nat
  | 0, _, _ => none
  | n + 1, d, i => if d + w i = 0 then some i else closing w n (d + w i) (i + 1)

/--
The last of the first `n` places where the `d` that are closed behind it have all been opened.
-/
def opening (w : Nat → Int) : Nat → Int → Option Nat
  | 0, _ => none
  | n + 1, d => if d - w n = 0 then some n else opening w n (d - w n)

namespace Matched

variable {w : Nat → Int} {i j i' j' : Nat}

theorem opens (h : Matched w i j) : 0 < w i := by
  have hfirst := h.inside (i + 1) (Nat.lt_succ_self i) h.lt
  simp only [depth] at hfirst
  omega

theorem ends (h : Matched w i j) : w j < 0 := by
  have hlast := h.inside j h.lt (Nat.le_refl j)
  have hcloses := h.closes
  simp only [depth] at hcloses
  omega

theorem unique_close (h : Matched w i j) (h' : Matched w i j') : j = j' := by
  obtain hlt | heq | hgt := Nat.lt_trichotomy j j'
  . have hinside := h'.inside (j + 1) (by have := h.lt; omega) hlt
    have hcloses := h.closes
    omega
  . exact heq
  . have hinside := h.inside (j' + 1) (by have := h'.lt; omega) hgt
    have hcloses := h'.closes
    omega

theorem unique_open (h : Matched w i j) (h' : Matched w i' j) : i = i' := by
  have hcloses := h.closes
  have hcloses' := h'.closes
  obtain hlt | heq | hgt := Nat.lt_trichotomy i i'
  . have hinside := h.inside i' hlt (Nat.le_of_lt h'.lt)
    omega
  . exact heq
  . have hinside := h'.inside i hgt (Nat.le_of_lt h.lt)
    omega

end Matched

section Scan

variable {w : Nat → Int} {i j k : Nat}

theorem closing_eq_some_iff (hw : ∀ k, -1 ≤ w k) (n : Nat) {d : Int} (hlt : i < k)
    (hd : d = depth w k - depth w i) (hinside : ∀ x, i < x → x ≤ k → depth w i < depth w x)
    : closing w n d k = some j ↔ Matched w i j ∧ k ≤ j ∧ j < k + n := by
  induction n generalizing d k with
  | zero =>
    simp only [closing]
    constructor
    . intro h
      contradiction
    . rintro ⟨_, hle, hj⟩
      omega
  | succ n ih =>
    have hstep : depth w (k + 1) = depth w k + w k := rfl
    have hopen := hinside k hlt (Nat.le_refl k)
    unfold closing
    by_cases hzero : d + w k = 0
    . rw [if_pos hzero]
      have hmatched : Matched w i k := ⟨hlt, by omega, hinside⟩
      constructor
      . intro h
        cases h
        exact ⟨hmatched, Nat.le_refl _, by omega⟩
      . rintro ⟨h, _, _⟩
        rw [hmatched.unique_close h]
    . rw [if_neg hzero]
      have hnext : ∀ x, i < x → x ≤ k + 1 → depth w i < depth w x := by
        intro x hx hle
        obtain heq | hlt' := Nat.eq_or_lt_of_le hle
        . have := hw k
          rw [heq]
          omega
        . exact hinside x hx (Nat.le_of_lt_succ hlt')
      rw [ih (by omega) (by omega) hnext]
      constructor
      . rintro ⟨h, hle, hj⟩
        exact ⟨h, by omega, by omega⟩
      . rintro ⟨h, hle, hj⟩
        have hne : k ≠ j := by
          rintro rfl
          have hcloses := h.closes
          omega
        exact ⟨h, by omega, by omega⟩

theorem opening_eq_some_iff (hw : ∀ k, w k ≤ 1) (n : Nat) {d : Int} (hle : n ≤ j)
    (hd : d = depth w n - depth w (j + 1)) (hinside : ∀ x, n ≤ x → x ≤ j → depth w (j + 1) < depth w x)
    : opening w n d = some i ↔ Matched w i j ∧ i < n := by
  induction n generalizing d with
  | zero =>
    simp only [opening]
    constructor
    . intro h
      contradiction
    . rintro ⟨_, hi⟩
      omega
  | succ n ih =>
    have hstep : depth w (n + 1) = depth w n + w n := rfl
    have hopen := hinside (n + 1) (Nat.le_refl _) hle
    unfold opening
    by_cases hzero : d - w n = 0
    . rw [if_pos hzero]
      have hmatched : Matched w n j := by
        refine ⟨hle, by omega, ?_⟩
        intro x hx hxj
        have := hinside x hx hxj
        omega
      constructor
      . intro h
        cases h
        exact ⟨hmatched, Nat.lt_succ_self _⟩
      . rintro ⟨h, _⟩
        rw [hmatched.unique_open h]
    . rw [if_neg hzero]
      have hnext : ∀ x, n ≤ x → x ≤ j → depth w (j + 1) < depth w x := by
        intro x hx hxj
        obtain heq | hlt := Nat.eq_or_lt_of_le hx
        . have := hw n
          rw [← heq]
          omega
        . exact hinside x hlt hxj
      rw [ih (by omega) (by omega) hnext]
      constructor
      . rintro ⟨h, hi⟩
        exact ⟨h, by omega⟩
      . rintro ⟨h, hi⟩
        have hne : i ≠ n := by
          rintro rfl
          have hcloses := h.closes
          omega
        exact ⟨h, by omega⟩

end Scan

end Lib
