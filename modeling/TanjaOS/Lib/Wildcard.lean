import Mathlib.Data.List.Basic

/-!
Patterns with wildcards, over any alphabet.
-/

namespace Lib

/--
`p` with its stars replaced by `fills`, one after the other.
-/
def fillStars {α : Type} [DecidableEq α] (star : α) : List α → List (List α) → List α
  | [], _ => []
  | c :: p, fills =>
    if c = star then
      fills.head?.getD [] ++ fillStars star p fills.tail
    else
      c :: fillStars star p fills

/--
`n` is `p` with something in the place of each star.
-/
def Fills {α : Type} [DecidableEq α] (star : α) (p n : List α) : Prop :=
  ∃ fills, fillStars star p fills = n

section Fills

variable {α : Type} [DecidableEq α] {star c : α} {p n u : List α}

theorem fills_nil : Fills star [] n ↔ n = [] := by
  constructor
  . rintro ⟨_, rfl⟩
    rfl
  . rintro rfl
    exact ⟨[], rfl⟩

theorem fills_star : Fills star (star :: p) n ↔ ∃ k, Fills star p (n.drop k) := by
  constructor
  . rintro ⟨fills, rfl⟩
    refine ⟨(fills.head?.getD []).length, fills.tail, ?_⟩
    rw [fillStars, if_pos rfl, List.drop_left]
  . rintro ⟨k, fills, hfills⟩
    refine ⟨n.take k :: fills, ?_⟩
    rw [fillStars, if_pos rfl, List.tail_cons, hfills]
    exact List.take_append_drop k n

theorem fills_char (hc : c ≠ star) : Fills star (c :: p) n ↔ ∃ m, n = c :: m ∧ Fills star p m := by
  constructor
  . rintro ⟨fills, rfl⟩
    exact ⟨fillStars star p fills, by rw [fillStars, if_neg hc], fills, rfl⟩
  . rintro ⟨m, rfl, fills, rfl⟩
    exact ⟨fills, by rw [fillStars, if_neg hc]⟩

theorem fills_append (hu : star ∉ u) : Fills star (u ++ p) n ↔ ∃ m, n = u ++ m ∧ Fills star p m := by
  induction u generalizing n with
  | nil => simp
  | cons c u ih =>
    rw [List.mem_cons, not_or] at hu
    rw [List.cons_append, fills_char (Ne.symm hu.1)]
    constructor
    . rintro ⟨m, rfl, hm⟩
      obtain ⟨m, rfl, hp⟩ := (ih hu.2).mp hm
      exact ⟨m, rfl, hp⟩
    . rintro ⟨m, rfl, hp⟩
      exact ⟨u ++ m, rfl, (ih hu.2).mpr ⟨m, rfl, hp⟩⟩

theorem fills_empty : Fills star p [] ↔ p.dropWhile (· = star) = [] := by
  induction p with
  | nil => simp [fills_nil]
  | cons c p ih =>
    by_cases hc : c = star
    . subst hc
      simpa [fills_star] using ih
    . simp [fills_char hc, hc]

theorem Fills.of_earlier {k : Nat} (hu : star ∉ u) (h : Fills star (u ++ star :: p) ((u ++ n).drop k))
    : Fills star (star :: p) n := by
  obtain ⟨m, hm, hp⟩ := (fills_append hu).mp h
  obtain ⟨j, hj⟩ := fills_star.mp hp
  have hsuffix : m <:+ n := by
    have hone : m <:+ u ++ n := (List.suffix_append u m).trans (hm ▸ List.drop_suffix k (u ++ n))
    apply List.suffix_of_suffix_length_le hone (List.suffix_append u n)
    have hlen := congrArg List.length hm
    rw [List.length_drop, List.length_append, List.length_append] at hlen
    omega
  obtain ⟨w, rfl⟩ := hsuffix
  apply fills_star.mpr
  refine ⟨w.length + j, ?_⟩
  rw [← List.drop_drop, List.drop_left]
  exact hj

theorem not_fills_of_mismatch (hstar : ¬p.head? = some star) (hc : ¬p.head? = some c)
    : ¬Fills star p (c :: n) := by
  cases p with
  | nil => simp [fills_nil]
  | cons d p =>
    rw [fills_char (by simpa using hstar)]
    rintro ⟨m, heq, _⟩
    simp only [List.cons.injEq] at heq
    simp [heq.1] at hc

end Fills

end Lib
