import TanjaOS.Fs.Path.Lemmas

/-!
Strings in `char` arrays and look ups in the tables.
-/

open Lib

namespace TanjaOS

theorem Buf.zero_not_mem_str {n : Nat} (b : Buf n) : 0 ∉ b.str := by
  intro h
  have := List.mem_takeWhile_imp h
  simp at this

theorem str_strcpySafe {d : Buf fsPathCap} {x : Bytes} (hnul : 0 ∉ x) (hlen : x.length ≤ 255)
    : (strcpySafe d x).str = x := by
  unfold strcpySafe Buf.str
  simp only [fsPathCap, Nat.add_one_sub_one]
  rw [List.take_of_length_le hlen, List.takeWhile_append_of_pos]
  . simp
  . intro b hb
    simp only [ne_eq, decide_not, Bool.not_eq_eq_eq_not, Bool.not_true, decide_eq_false_iff_not]
    rintro rfl
    contradiction

theorem fileIndex_eq_some {s : FsState} {x : Bytes} {i : Fin maxF} (h : fileIndex s x = some i)
    : s.IsFile i x := by
  have := List.find?_some h
  simpa using this

theorem fileIndex_eq_none {s : FsState} {x : Bytes}
    : fileIndex s x = none ↔ ∀ i, ¬s.IsFile i x := by
  unfold fileIndex
  rw [List.find?_eq_none]
  simp

theorem dirIndex_eq_some {s : FsState} {x : Bytes} {i : Fin maxD} (h : dirIndex s x = some i)
    : s.IsDir i x := by
  have := List.find?_some h
  simpa using this

theorem dirIndex_eq_none {s : FsState} {x : Bytes}
    : dirIndex s x = none ↔ ∀ i, ¬s.IsDir i x := by
  unfold dirIndex
  rw [List.find?_eq_none]
  simp

namespace FsState

def UsedFile (s : FsState) (x : Bytes) : Prop :=
  ∃ i, s.IsFile i x

def UsedDir (s : FsState) (x : Bytes) : Prop :=
  ∃ i, s.IsDir i x

end FsState

theorem fileIndex_isSome {s : FsState} {x : Bytes} : (fileIndex s x).isSome ↔ s.UsedFile x := by
  cases h : fileIndex s x with
  | none =>
    rw [fileIndex_eq_none] at h
    simpa [FsState.UsedFile] using h
  | some i =>
    simp only [Option.isSome_some, true_iff]
    exact ⟨i, fileIndex_eq_some h⟩

theorem dirIndex_isSome {s : FsState} {x : Bytes} : (dirIndex s x).isSome ↔ s.UsedDir x := by
  cases h : dirIndex s x with
  | none =>
    rw [dirIndex_eq_none] at h
    simpa [FsState.UsedDir] using h
  | some i =>
    simp only [Option.isSome_some, true_iff]
    exact ⟨i, dirIndex_eq_some h⟩

theorem mem_of_mem_components {path c : Bytes} {b : Byte} (hc : c ∈ components path) (hb : b ∈ c)
    : b ∈ path := by
  unfold components at hc
  rw [List.mem_filter] at hc
  exact (mem_splitOnP hc.1 b hb).1

theorem mem_absPath {cwd name : Bytes} {b : Byte} (h : b ∈ absPath cwd name)
    : b = slash ∨ b ∈ cwd ∨ b ∈ name := by
  have hstep : ∀ (comps : List Bytes) (st : absPath.State), b ∈ (comps.foldl absPath.step st).out →
      b = slash ∨ b ∈ st.out ∨ ∃ c ∈ comps, b ∈ c := by
    intro comps
    induction comps with
    | nil =>
      intro st hb
      exact Or.inr (Or.inl hb)
    | cons c comps ih =>
      intro st hb
      obtain hb | hb | ⟨d, hd, hb⟩ := ih _ hb
      . exact Or.inl hb
      . unfold absPath.step at hb
        split at hb
        . exact Or.inr (Or.inl hb)
        . split at hb
          . split at hb
            . exact Or.inr (Or.inl hb)
            . exact Or.inr (Or.inl (List.mem_of_mem_take hb))
          . split at hb
            . exact Or.inr (Or.inl hb)
            . simp only [List.mem_append] at hb
              cases hb with
              | inl hb =>
                split at hb
                . simp only [List.mem_append, List.mem_singleton] at hb
                  tauto
                . exact Or.inr (Or.inl hb)
              | inr hb => exact Or.inr (Or.inr ⟨c, by simp, List.mem_of_mem_take hb⟩)
      . exact Or.inr (Or.inr ⟨d, by simp [hd], hb⟩)
  obtain hb | hb | ⟨c, hc, hb⟩ := hstep _ _ h
  . exact Or.inl hb
  . simp only [List.mem_singleton] at hb
    exact Or.inl hb
  . have hb := mem_of_mem_components hc hb
    unfold absPath.combined at hb
    split at hb
    . exact Or.inr (Or.inr (List.mem_of_mem_take hb))
    . have hpre : b ∈ (if cwd.take 511 = [] then [slash] else cwd.take 511) →
          b = slash ∨ b ∈ cwd := by
        split
        . intro hb
          exact Or.inl (List.mem_singleton.mp hb)
        . intro hb
          exact Or.inr (List.mem_of_mem_take hb)
      dsimp only at hb
      generalize (if cwd.take 511 = [] then [slash] else cwd.take 511) = pre at hb hpre
      simp only [List.mem_append] at hb
      cases hb with
      | inl hb =>
        split at hb
        . simp only [List.mem_append, List.mem_singleton] at hb
          tauto
        . tauto
      | inr hb => exact Or.inr (Or.inr (List.mem_of_mem_take hb))

theorem absPath_no_nul {cwd name : Bytes} (hcwd : 0 ∉ cwd) (hname : 0 ∉ name)
    : 0 ∉ absPath cwd name := by
  intro h
  obtain h | h | h := mem_absPath h
  . exact absurd h (by decide)
  . contradiction
  . contradiction

end TanjaOS
