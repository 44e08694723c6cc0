import TanjaOS.Lib.Wildcard
import TanjaOS.Shell.Expand

/-!
Wildcards: what `glob_match` accepts.
-/

open Lib

namespace TanjaOS

/--
The last star stands for what is in front of `resume`, and the pattern behind it has matched up to
here.
-/
def GlobInv (p n : Bytes) (last : Option (Bytes × Bytes)) : Prop :=
  ∀ q r, last = some (q, r) → ∃ u, star ∉ u ∧ q = u ++ p ∧ r = u ++ n

/--
What is left to do: fill the pattern from here, or give more to the last star.
-/
def GlobGoal (p n : Bytes) (last : Option (Bytes × Bytes)) : Prop :=
  Fills star p n ∨ ∃ q r, last = some (q, r) ∧ ∃ k, Fills star q (r.drop (k + 1))

theorem globMatchLoop_iff {p n : Bytes} {last : Option (Bytes × Bytes)}
    {h : ∀ l ∈ last, n.length ≤ l.2.length} (hinv : GlobInv p n last)
    : globMatchLoop p n last h ↔ GlobGoal p n last := by
  fun_induction globMatchLoop p n last h with
  | case1 p last h =>
    rw [decide_eq_true_eq, ← fills_empty]
    constructor
    . exact fun hp => Or.inl hp
    . rintro (hp | ⟨q, r, hlast, k, hk⟩)
      . exact hp
      . obtain ⟨u, hu, rfl, rfl⟩ := hinv q r hlast
        obtain ⟨m, hm, hp⟩ := (fills_append hu).mp hk
        have hlen := congrArg List.length hm
        rw [List.append_nil, List.length_drop, List.length_append] at hlen
        obtain rfl : m = [] := List.eq_nil_of_length_eq_zero (by omega)
        exact hp
  | case2 p last c n h hstar _ ih =>
    obtain ⟨p, rfl⟩ : ∃ p', p = star :: p' := by
      cases p with
      | nil => simp at hstar
      | cons d p => exact ⟨p, by simpa using hstar⟩
    have hnew : GlobInv p (c :: n) (some (p, c :: n)) := by
      rintro q r ⟨⟩
      exact ⟨[], by simp, rfl, rfl⟩
    rw [ih hnew]
    constructor
    . rintro (hp | ⟨q, r, hlast, k, hk⟩)
      . exact Or.inl (fills_star.mpr ⟨0, hp⟩)
      . cases hlast
        exact Or.inl (fills_star.mpr ⟨k + 1, hk⟩)
    . intro hgoal
      have hp : Fills star (star :: p) (c :: n) := by
        obtain hp | ⟨q, r, hlast, k, hk⟩ := hgoal
        . exact hp
        . obtain ⟨u, hu, rfl, rfl⟩ := hinv q r hlast
          exact hk.of_earlier hu
      obtain ⟨k, hk⟩ := fills_star.mp hp
      cases k with
      | zero => exact Or.inl hk
      | succ k => exact Or.inr ⟨p, c :: n, rfl, k, hk⟩
  | case3 p last c n h hstar hc _ ih =>
    obtain ⟨p, rfl⟩ : ∃ p', p = c :: p' := by
      cases p with
      | nil => simp at hc
      | cons d p => exact ⟨p, by simpa using hc⟩
    have hne : c ≠ star := by simpa using hstar
    have hnew : GlobInv p n last := by
      intro q r hlast
      obtain ⟨u, hu, rfl, rfl⟩ := hinv q r hlast
      refine ⟨u ++ [c], ?_, by simp, by simp⟩
      simp [hu, Ne.symm hne]
    rw [ih hnew]
    unfold GlobGoal
    rw [List.tail_cons, fills_char hne]
    simp
  | case4 p c n hstar hc h =>
    simp [GlobGoal, not_fills_of_mismatch hstar hc]
  | case5 p c n hstar hc q resume h _ ih =>
    have hnew : GlobInv q resume.tail (some (q, resume.tail)) := by
      rintro q r ⟨⟩
      exact ⟨[], by simp, rfl, rfl⟩
    rw [ih hnew]
    unfold GlobGoal
    rw [or_iff_right (not_fills_of_mismatch hstar hc)]
    constructor
    . rintro (hq | ⟨q', r, hlast, k, hk⟩)
      . exact ⟨q, resume, rfl, 0, by rwa [List.drop_one]⟩
      . cases hlast
        exact ⟨q, resume, rfl, k + 1, by rwa [List.drop_tail] at hk⟩
    . rintro ⟨q', r, hlast, k, hk⟩
      cases hlast
      cases k with
      | zero => exact Or.inl (by rwa [List.drop_one] at hk)
      | succ k => exact Or.inr ⟨q, resume.tail, rfl, k, by rwa [List.drop_tail]⟩

/--
A name matches if the stars of the pattern can be replaced so that it comes out. The matcher stops on
every pattern and name.
-/
theorem globMatch_iff (pat name : Bytes)
    : globMatch pat name ↔ ∃ fills, fillStars star pat fills = name := by
  unfold globMatch
  rw [globMatchLoop_iff (by rintro q r ⟨⟩)]
  simp [GlobGoal, Fills]

end TanjaOS
