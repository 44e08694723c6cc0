import TanjaOS.Lib.Split
import TanjaOS.Shell.Expand

/-!
The words of a text, and texts that are made of words.
-/

open Lib

namespace TanjaOS

theorem words_cons {w t : Bytes} (hw : ∀ x ∈ w, isBlank x = false) (hne : w ≠ [])
    : words (w ++ 32 :: t) = w :: words t := by
  unfold words
  rw [List.splitOnP_append_cons_of_forall_mem hw 32 (by decide) t, List.filter_cons_of_pos (by simpa using hne)]

theorem words_single {w : Bytes} (hw : ∀ x ∈ w, isBlank x = false) (hne : w ≠ [])
    : words w = [w] := by
  unfold words
  rw [List.splitOnP_eq_singleton hw, List.filter_cons_of_pos (by simpa using hne), List.filter_nil]

theorem mem_words {text w : Bytes} (h : w ∈ words text)
    : w ≠ [] ∧ (∀ x ∈ w, isBlank x = false) ∧ ∀ x ∈ w, x ∈ text := by
  unfold words at h
  rw [List.mem_filter] at h
  exact ⟨by simpa using h.2, fun x hx => (mem_splitOnP h.1 x hx).2, fun x hx => (mem_splitOnP h.1 x hx).1⟩

def spaced : List Bytes → Bytes
  | [] => []
  | w :: ws => w ++ ws.flatMap (32 :: ·)

theorem sum_length_words (text : Bytes) : ((words text).map (·.length + 1)).sum ≤ text.length + 1 := by
  rw [← @sum_length_splitOnP _ isBlank text]
  apply List.Sublist.sum_le_sum
  . exact (List.filter_sublist).map _
  . simp

theorem length_spaced (ws : List Bytes) : (spaced ws).length ≤ (ws.map (·.length + 1)).sum - 1 := by
  cases ws with
  | nil => simp [spaced]
  | cons w ws => simp [spaced, List.length_flatMap]

theorem length_spaced_words (text : Bytes) : (spaced (words text)).length ≤ text.length := by
  have hspaced := length_spaced (words text)
  have hwords := sum_length_words text
  omega

theorem words_spaced {ws : List Bytes} (h : ∀ w ∈ ws, w ≠ [] ∧ ∀ x ∈ w, isBlank x = false)
    : words (spaced ws) = ws := by
  induction ws with
  | nil => rfl
  | cons w ws ih =>
    have hw := h w List.mem_cons_self
    cases ws with
    | nil =>
      rw [spaced, List.flatMap_nil, List.append_nil]
      exact words_single hw.2 hw.1
    | cons v vs =>
      have hspaced : spaced (w :: v :: vs) = w ++ 32 :: spaced (v :: vs) := rfl
      rw [hspaced, words_cons hw.2 hw.1, ih (fun u hu => h u (List.mem_cons_of_mem w hu))]

theorem words_dropWhile (text : Bytes) : words (text.dropWhile (· = 32)) = words text := by
  induction text with
  | nil => rfl
  | cons x text ih =>
    by_cases hx : x = 32
    . have hcons : words (x :: text) = words text := by
        unfold words
        rw [hx, List.splitOnP_cons_eq_if_modifyHead, if_pos (by decide), List.filter_cons_of_neg (by simp)]
      rw [List.dropWhile_cons_of_pos (by simpa using hx), ih, hcons]
    . rw [List.dropWhile_cons_of_neg (by simpa using hx)]

theorem mem_spaced {ws : List Bytes} {x : Byte} (h : x ∈ spaced ws) : x = 32 ∨ ∃ w ∈ ws, x ∈ w := by
  cases ws with
  | nil => simp [spaced] at h
  | cons w ws =>
    simp only [spaced, List.mem_append, List.mem_flatMap, List.mem_cons] at h
    obtain h | ⟨v, hv, h | h⟩ := h
    . exact Or.inr ⟨w, List.mem_cons_self, h⟩
    . exact Or.inl h
    . exact Or.inr ⟨v, List.mem_cons_of_mem w hv, h⟩

theorem spaced_append {ws vs : List Bytes} (hw : ws ≠ []) (hv : vs ≠ [])
    : spaced (ws ++ vs) = spaced ws ++ 32 :: spaced vs := by
  cases ws with
  | nil => contradiction
  | cons w ws =>
    cases vs with
    | nil => contradiction
    | cons v vs => simp [spaced]

theorem length_spaced_le (ws vs : List Bytes) : (spaced ws).length ≤ (spaced (ws ++ vs)).length := by
  cases ws with
  | nil => simp [spaced]
  | cons w ws => simp [spaced, List.flatMap_append]

end TanjaOS
