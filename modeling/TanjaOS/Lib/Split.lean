import Mathlib.Algebra.BigOperators.Group.List.Basic
import Mathlib.Algebra.GroupWithZero.Nat
import Mathlib.Data.List.Basic

/-!
The pieces that a list is cut into at separators.
-/

namespace Lib

variable {α : Type} {p : α → Bool} {xs c : List α}

theorem drop_takeWhile (p : α → Bool) (xs : List α)
    : xs.drop (xs.takeWhile p).length = xs.dropWhile p := by
  have hdrop := @List.drop_left _ (xs.takeWhile p) (xs.dropWhile p)
  rwa [List.takeWhile_append_dropWhile] at hdrop

theorem mem_splitOnP (hc : c ∈ xs.splitOnP p) : ∀ x ∈ c, x ∈ xs ∧ p x = false := by
  induction xs generalizing c with
  | nil =>
    rw [List.splitOnP_nil, List.mem_singleton] at hc
    simp [hc]
  | cons y xs ih =>
    have hin : ∀ c ∈ xs.splitOnP p, ∀ x ∈ c, x ∈ y :: xs ∧ p x = false := by
      intro c hc x hx
      exact ⟨List.mem_cons_of_mem y (ih hc x hx).1, (ih hc x hx).2⟩
    rw [List.splitOnP_cons_eq_if_modifyHead] at hc
    split at hc
    . rw [List.mem_cons] at hc
      cases hc with
      | inl hc => simp [hc]
      | inr hc => exact hin c hc
    . next hy =>
      obtain ⟨d, ds, heq⟩ := List.exists_cons_of_ne_nil (List.splitOnP_ne_nil p xs)
      rw [heq] at hin hc
      rw [List.modifyHead_cons, List.mem_cons] at hc
      cases hc with
      | inl hc =>
        rw [hc]
        intro x hx
        cases hx with
        | head => exact ⟨List.mem_cons_self, by simpa using hy⟩
        | tail _ hx => exact hin d List.mem_cons_self x hx
      | inr hc => exact hin c (List.mem_cons_of_mem d hc)

theorem sum_length_splitOnP : ((xs.splitOnP p).map (·.length + 1)).sum = xs.length + 1 := by
  induction xs with
  | nil => simp [List.splitOnP_nil]
  | cons y xs ih =>
    rw [List.splitOnP_cons_eq_if_modifyHead]
    split
    . rw [List.map_cons, List.sum_cons, ih, List.length_nil, List.length_cons]
      omega
    . obtain ⟨d, ds, heq⟩ := List.exists_cons_of_ne_nil (List.splitOnP_ne_nil p xs)
      rw [heq, List.map_cons, List.sum_cons] at ih
      rw [heq, List.modifyHead_cons, List.map_cons, List.sum_cons, List.length_cons, List.length_cons]
      omega

theorem splitOn_lines [BEq α] [LawfulBEq α] {nl : α} {ls : List (List α)} (h : ∀ l ∈ ls, nl ∉ l)
    : (ls.flatMap (· ++ [nl])).splitOn nl = ls ++ [[]] := by
  induction ls with
  | nil => simp
  | cons l ls ih =>
    rw [List.forall_mem_cons] at h
    have hl : ∀ x ∈ l, (x == nl) = false := by
      intro x hx
      rw [beq_eq_false_iff_ne]
      rintro rfl
      exact h.1 hx
    rw [List.flatMap_cons, List.append_assoc, List.singleton_append]
    unfold List.splitOn at ih ⊢
    rw [List.splitOnP_append_cons_of_forall_mem hl nl (beq_self_eq_true nl), ih h.2, List.cons_append]

end Lib
