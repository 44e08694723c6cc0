import TanjaOS.Fs.Delete.Listing
import TanjaOS.Fs.Namespace

/-!
Where the paths lead that a recursive delete puts together from its argument and the pieces of a
listing.
-/

open Lib

namespace TanjaOS

open absPath (Normal walk combined)

/--
The paths to which `childPath` appends.
-/
def Proper (path : Bytes) : Prop :=
  path = [slash] ∨ (2 ≤ path.length ∧ path.length ≤ 255)

def slashed (path : Bytes) : Bytes :=
  if path.getLast? = some slash ∨ 255 ≤ path.length then path else path ++ [slash]

theorem Proper.ne_nil {path : Bytes} (h : Proper path) : path ≠ [] := by
  rintro rfl
  obtain h | h := h
  . simp at h
  . simp at h

theorem Proper.length_le {path : Bytes} (h : Proper path) : path.length ≤ 255 := by
  obtain rfl | h := h
  . simp
  . exact h.2

theorem length_slashed_le {path : Bytes} (h : Proper path) : (slashed path).length ≤ 255 := by
  have := h.length_le
  unfold slashed
  split
  . assumption
  . next hno =>
    rw [not_or] at hno
    simp only [List.length_append, List.length_singleton]
    omega

theorem length_le_slashed (path : Bytes) : path.length ≤ (slashed path).length := by
  unfold slashed
  split
  . exact Nat.le_refl _
  . simp

theorem childPath_eq {path : Bytes} (h : Proper path) (entry : Bytes)
    : childPath path entry = slashed path ++ entry.take (255 - (slashed path).length) := by
  unfold childPath
  obtain rfl | ⟨hlo, hhi⟩ := h
  . simp [slashed]
  . have hroot : path ≠ [slash] := by
      rintro rfl
      simp at hlo
    have hstr : min (strlenSafe path) 255 = path.length := by
      unfold strlenSafe
      omega
    simp only [if_neg hroot, hstr, List.take_length]
    have hslashed : (if 1 < path.length ∧ path.getLast? ≠ some slash ∧ path.length < 255 then
        path ++ [slash] else if path.length = 0 then path ++ [slash] else path) = slashed path := by
      unfold slashed
      by_cases hlast : path.getLast? = some slash ∨ 255 ≤ path.length
      . rw [if_pos hlast, if_neg, if_neg (by omega)]
        rintro ⟨_, hne, hlt⟩
        cases hlast with
        | inl hlast => exact hne hlast
        | inr hlast => omega
      . rw [if_neg hlast]
        rw [not_or] at hlast
        rw [if_pos ⟨by omega, hlast.1, by omega⟩]
    rw [hslashed]

theorem combined_append {cwd path f : Bytes} (hcwd : cwd.length ≤ 255) (hpath : path ≠ [])
    (hlen : (path ++ f).length ≤ 255)
    : combined cwd (path ++ f) = combined cwd path ++ f := by
  have hhead : (path ++ f).head? = path.head? := List.head?_append_of_ne_nil _ hpath
  have hpre : ∀ pre : Bytes, pre.length ≤ 256 →
      pre ++ (path ++ f).take (511 - pre.length) = pre ++ path.take (511 - pre.length) ++ f := by
    intro pre hpre
    rw [List.length_append] at hlen
    rw [List.take_of_length_le (by rw [List.length_append]; omega), List.take_of_length_le (by omega),
      List.append_assoc]
  unfold combined
  rw [hhead]
  split
  . rw [List.length_append] at hlen
    rw [List.take_of_length_le (by rw [List.length_append]; omega), List.take_of_length_le (by omega)]
  . apply hpre
    have hsep : ∀ pre : Bytes, pre.length ≤ 255 →
        (if 1 < pre.length ∧ pre.getLast? ≠ some slash then pre ++ [slash] else pre).length
          ≤ 256 := by
      intro pre hpre
      split
      . simp only [List.length_append, List.length_singleton]
        omega
      . omega
    apply hsep
    split
    . simp
    . rw [List.length_take]
      omega

theorem walk_append {cwd path f : Bytes} (h : Proper path) (hcwd : cwd.length ≤ 255)
    (hlen : (slashed path).length + f.length ≤ 255)
    : walk cwd (slashed path ++ f) = (components f).foldl absPath.step (walk cwd path) := by
  have hcomps : components (combined cwd (slashed path ++ f))
      = components (combined cwd path) ++ components f := by
    unfold slashed at hlen ⊢
    split
    . next hno =>
      rw [if_pos hno] at hlen
      rw [combined_append hcwd h.ne_nil (by rw [List.length_append]; omega)]
      by_cases hlast : path.getLast? = some slash
      . obtain ⟨pre, hpre⟩ : ∃ pre, combined cwd path = pre ++ [slash] := by
          obtain ⟨init, hinit⟩ := List.getLast?_eq_some_iff.mp hlast
          by_cases hnil : init = []
          . rw [hnil, List.nil_append] at hinit
            rw [hinit]
            exact ⟨[], by simp [combined]⟩
          . rw [hinit, combined_append hcwd hnil (by rw [← hinit]; omega)]
            exact ⟨_, rfl⟩
        rw [hpre, List.append_assoc, List.singleton_append, components_append_slash,
          components_append_slash]
        simp [components_nil]
      . have hnil : f = [] := by
          apply List.eq_nil_of_length_eq_zero
          cases hno with
          | inl hno => contradiction
          | inr hno => omega
        rw [hnil, components_nil, List.append_nil, List.append_nil]
    . next hno =>
      rw [if_neg hno] at hlen
      simp only [List.length_append, List.length_singleton] at hlen
      rw [List.append_assoc, combined_append hcwd h.ne_nil (by simp; omega), List.singleton_append,
        components_append_slash]
  unfold walk
  rw [hcomps, List.foldl_append]

theorem walk_child {cwd path f : Bytes} (h : Proper path) (hcwd : cwd.length ≤ 255)
    (hf : slash ∉ f) (hlen : (slashed path).length + f.length ≤ 255)
    : walk cwd (slashed path ++ f) = if f = [] then walk cwd path else absPath.step (walk cwd path) f := by
  rw [walk_append h hcwd hlen, components_of_no_slash hf]
  split <;> rfl

/--
`c` is a subdirectory of the directory with the components `cs`.
-/
structure IsKid (s : FsState) (cs : List Bytes) (c : Bytes) : Prop where
  used : s.UsedDir (sepd cs ++ c)
  ne_nil : c ≠ []
  no_slash : slash ∉ c

theorem count_sepd {cs : List Bytes} (h : ∀ c ∈ cs, slash ∉ c)
    : (sepd cs).count slash = cs.length + 1 := by
  induction cs with
  | nil => rfl
  | cons c cs ih =>
    have hc : c.count slash = 0 := List.count_eq_zero_of_not_mem (h c (by simp))
    have hcs : (sepd cs).count slash = cs.length + 1 := by
      apply ih
      intro d hd
      apply h
      simp [hd]
    simp [sepd, hc, hcs]

theorem PathText.depth_lt {cs : List Bytes} {c : Bytes} (h : PathText (sepd cs ++ c))
    (hcs : ∀ d ∈ cs, slash ∉ d) (hne : c ≠ []) (hslash : slash ∉ c)
    : cs.length < 64 := by
  have hcount : (sepd cs ++ c).count slash = cs.length + 1 := by
    rw [List.count_append, count_sepd hcs, List.count_eq_zero_of_not_mem hslash]
  have hlast : (sepd cs ++ c).getLast? ≠ some slash := by
    rw [List.getLast?_append_of_ne_nil _ hne]
    intro hlast
    exact hslash (List.mem_of_getLast? hlast)
  have hrender : ∀ ds, Canon ds → sepd cs ++ c = render ds → cs.length < 64 := by
    intro ds hcanon heq
    cases ds with
    | nil =>
      rw [heq] at hlast
      exact absurd rfl hlast
    | cons d ds =>
      have hd := (hcanon.comps d (by simp)).no_slash
      have hds : ∀ e ∈ ds, slash ∉ e := fun e he => (hcanon.comps e (by simp [he])).no_slash
      have hdepth := hcanon.depth
      rw [heq, render, List.count_append, count_sepd hds, List.count_eq_zero_of_not_mem hd] at hcount
      simp only [List.length_cons] at hdepth
      omega
  obtain ⟨ds, hcanon, heq | ⟨hdepth, _, htext⟩⟩ := h
  . exact hrender ds hcanon heq
  . have hds : ∀ e ∈ ds, slash ∉ e := fun e he => (hcanon.comps e he).no_slash
    obtain ⟨w, hw, heq, _⟩ | ⟨w, _, heq, _⟩ | ⟨heq, _⟩ := htext
    . rw [heq, List.count_append, count_sepd hds, List.count_eq_zero_of_not_mem hw] at hcount
      omega
    . rw [heq] at hlast
      simp at hlast
    . exact hrender ds hcanon heq

theorem sepd_of_canon {cs : List Bytes} (h : Canon cs)
    : (if render cs = [slash] then [slash] else render cs ++ [slash]) = sepd cs := by
  by_cases hcs : cs = []
  . subst hcs
    rfl
  . have hone := (one_lt_length_render h.comps).mpr hcs
    rw [if_neg (by intro heq; simp [heq] at hone), sepd_eq, if_neg hcs]

namespace NsInv

variable {s : FsState} {cs : List Bytes} {c : Bytes}

theorem kid_length (h : NsInv s) (hkid : IsKid s cs c) : (sepd cs).length + c.length ≤ 255 := by
  obtain ⟨i, hi⟩ := hkid.used
  have := (h.dirs i _ hi).length_le
  rwa [List.length_append] at this

theorem kid_depth (h : NsInv s) (hcanon : Canon cs) (hkid : IsKid s cs c) : cs.length < 64 := by
  obtain ⟨i, hi⟩ := hkid.used
  apply (h.dirs i _ hi).depth_lt _ hkid.ne_nil hkid.no_slash
  intro d hd
  exact (hcanon.comps d hd).no_slash

theorem dirNames_length (h : NsInv s) : ∀ x ∈ dirNames s, x.length ≤ 255 := by
  intro x hx
  obtain ⟨i, _, hi⟩ := mem_dirNames.mp hx
  exact (h.dirs i x hi).length_le

theorem mem_subdirs (h : NsInv s) (hcanon : Canon cs) : c ∈ subdirs s (render cs) ↔ IsKid s cs c := by
  unfold subdirs
  rw [List.mem_filterMap]
  constructor
  . rintro ⟨x, hx, hc⟩
    have hlen := h.dirNames_length x hx
    have heq := listChild_eq hcanon.len hlen hc
    rw [sepd_of_canon hcanon] at heq
    obtain ⟨i, _, hi⟩ := mem_dirNames.mp hx
    obtain ⟨hne, hslash, _⟩ := listChild_text hc
    exact ⟨⟨i, heq ▸ hi⟩, hne, hslash⟩
  . intro hkid
    have hlen := h.kid_length hkid
    have hpos := List.length_pos_of_ne_nil hkid.ne_nil
    have hsep := length_sepd_pos cs
    obtain ⟨i, hi⟩ := hkid.used
    refine ⟨sepd cs ++ c, mem_dirNames.mpr ⟨i, ?_, hi⟩, ?_⟩
    . rintro rfl
      have := congrArg List.length ((h.root _ _ hi).mpr rfl)
      simp only [List.length_append, List.length_singleton] at this
      omega
    . rw [← sepd_of_canon hcanon]
      apply listChild_append _ _ hkid.ne_nil hkid.no_slash
      . have := length_render_le_sepd cs
        by_cases hcs : cs = []
        . subst hcs
          simp only [render, sepd, List.length_singleton] at *
          omega
        . rw [sepd_eq, if_neg hcs] at hlen
          simp only [List.length_append, List.length_singleton] at hlen
          omega
      . exact List.ne_nil_of_length_pos (length_render_pos cs)

theorem normal_of_subdirs {path : Bytes} (h : NsInv s)
    (hc : c ∈ subdirs s (absPath s.cwd.str path))
    : ∃ cs, Normal cs (walk s.cwd.str path) := by
  apply absPath.normal_of_length
  unfold subdirs at hc
  rw [List.mem_filterMap] at hc
  obtain ⟨x, hx, hc⟩ := hc
  have hlen := h.dirNames_length x hx
  have heq := congrArg List.length
    (listChild_eq (absPath_text s.cwd.str path).length_le hlen hc)
  have hpos := List.length_pos_of_ne_nil (listChild_text hc).1
  rw [absPath_eq] at heq
  rw [List.length_append] at heq
  split at heq
  . next hroot => simp [hroot]
  . simp only [List.length_append, List.length_singleton] at heq
    omega

end NsInv

end TanjaOS
