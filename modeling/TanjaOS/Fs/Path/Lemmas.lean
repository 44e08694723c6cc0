import TanjaOS.Lib.Split
import TanjaOS.Fs.Path.Impl

/-!
What the output of `absPath` looks like. As long as the output stays below its 255 byte limit it is
the text of a list of proper components; at the limit a component is cut off, its separator may be
all that is left of it, and popping a component that was pushed on a full output cuts one byte off
the component before it.
-/

open Lib

namespace TanjaOS

/--
A component that is pushed: neither `.` nor `..`.
-/
structure Comp (c : Bytes) : Prop where
  ne_nil : c ≠ []
  no_slash : slash ∉ c
  ne_dot : c ≠ [dot]
  ne_dotdot : c ≠ [dot, dot]

/--
The text of a list of components, deepest first, with a slash at the end.
-/
def sepd : List Bytes → Bytes
  | [] => [slash]
  | c :: cs => sepd cs ++ c ++ [slash]

def render : List Bytes → Bytes
  | [] => [slash]
  | c :: cs => sepd cs ++ c

def offs : List Bytes → List Nat
  | [] => []
  | _ :: cs => (sepd cs).length :: offs cs

/--
A list of components whose text `absPath` reproduces.
-/
structure Canon (cs : List Bytes) : Prop where
  comps : ∀ c ∈ cs, Comp c
  depth : cs.length ≤ 64
  len : (render cs).length ≤ 255

@[simp]
theorem length_offs (cs : List Bytes) : (offs cs).length = cs.length := by
  induction cs with
  | nil => rfl
  | cons c cs ih => simp [offs, ih]

theorem sepd_cons (c : Bytes) (cs : List Bytes) : sepd (c :: cs) = render (c :: cs) ++ [slash] := rfl

theorem length_render_pos (cs : List Bytes) : 0 < (render cs).length := by
  cases cs with
  | nil => simp [render]
  | cons c cs =>
    cases cs with
    | nil => simp [render, sepd]
    | cons d cs => simp [render, sepd]

theorem length_sepd_pos (cs : List Bytes) : 0 < (sepd cs).length := by
  cases cs <;> simp [sepd]

theorem length_render_le_sepd (cs : List Bytes) : (render cs).length ≤ (sepd cs).length := by
  cases cs with
  | nil => simp [render, sepd]
  | cons c cs => simp [sepd_cons]

theorem render_isPrefix (cs : List Bytes) (w : Bytes) : render cs <+: sepd cs ++ w := by
  cases cs with
  | nil => exact List.prefix_append _ _
  | cons c cs =>
    rw [sepd_cons, List.append_assoc]
    exact List.prefix_append _ _

theorem one_lt_length_render {cs : List Bytes} (h : ∀ c ∈ cs, Comp c)
    : 1 < (render cs).length ↔ cs ≠ [] := by
  cases cs with
  | nil => simp [render]
  | cons c cs =>
    have hc := (h c (by simp)).ne_nil
    have := length_sepd_pos cs
    have := List.length_pos_of_ne_nil hc
    simp only [render, List.length_append, ne_eq, reduceCtorEq, not_false_eq_true, iff_true]
    omega

theorem head_sepd (cs : List Bytes) : (sepd cs).head? = some slash := by
  induction cs with
  | nil => rfl
  | cons c cs ih =>
    have hne : sepd cs ≠ [] := List.ne_nil_of_length_pos (length_sepd_pos cs)
    obtain ⟨a, as, heq⟩ := List.exists_cons_of_ne_nil hne
    simp_all [sepd]

theorem head_render (cs : List Bytes) : (render cs).head? = some slash := by
  cases cs with
  | nil => rfl
  | cons c cs =>
    have := head_sepd cs
    have hne : sepd cs ≠ [] := List.ne_nil_of_length_pos (length_sepd_pos cs)
    obtain ⟨a, as, heq⟩ := List.exists_cons_of_ne_nil hne
    simp_all [render]

theorem Canon.tail {c : Bytes} {cs : List Bytes} (h : Canon (c :: cs)) : Canon cs where
  comps := by
    intro d hd
    apply h.comps
    simp [hd]
  depth := by
    have := h.depth
    simp only [List.length_cons] at this
    omega
  len := by
    have := h.len
    have := length_render_le_sepd cs
    simp only [render, List.length_append] at *
    omega

theorem Canon.nil : Canon [] where
  comps := by simp
  depth := by simp
  len := by simp [render]

theorem Canon.cons {c : Bytes} {cs : List Bytes} (h : Canon cs) (hc : Comp c)
    (hdepth : cs.length < 64) (hlen : (sepd cs).length + c.length ≤ 255)
    : Canon (c :: cs) where
  comps := by
    intro d hd
    rw [List.mem_cons] at hd
    cases hd with
    | inl hd => rwa [hd]
    | inr hd => exact h.comps d hd
  depth := by simpa using hdepth
  len := by simpa [render] using hlen

theorem components_nil : components [] = [] := rfl

theorem components_append_slash (a b : Bytes)
    : components (a ++ slash :: b) = components a ++ components b := by
  unfold components List.splitOn
  rw [List.splitOnP_append_cons _ _ (by simp)]
  simp

theorem components_of_no_slash {c : Bytes} (h : slash ∉ c)
    : components c = if c = [] then [] else [c] := by
  unfold components List.splitOn
  rw [List.splitOnP_eq_singleton]
  . split <;> simp_all
  . intro x hx
    rw [beq_eq_false_iff_ne]
    rintro rfl
    contradiction

theorem mem_components {path c : Bytes} (h : c ∈ components path) : c ≠ [] ∧ slash ∉ c := by
  unfold components at h
  rw [List.mem_filter] at h
  refine ⟨by simpa using h.2, ?_⟩
  intro hslash
  simpa using (mem_splitOnP h.1 slash hslash).2

theorem components_sepd {cs : List Bytes} (h : ∀ c ∈ cs, Comp c)
    : components (sepd cs) = cs.reverse := by
  induction cs with
  | nil => rfl
  | cons c cs ih =>
    have hc := h c (by simp)
    have htail : ∀ d ∈ cs, Comp d := by
      intro d hd
      apply h
      simp [hd]
    -- the separator that `sepd cs` ends in is the one in front of `c`
    have hsplit : ∃ pre, sepd cs = pre ++ [slash] := by
      cases cs with
      | nil => exact ⟨[], rfl⟩
      | cons d ds => exact ⟨_, rfl⟩
    obtain ⟨pre, hpre⟩ := hsplit
    have hcomp := ih htail
    rw [hpre, components_append_slash, components_nil, List.append_nil] at hcomp
    have : sepd (c :: cs) = pre ++ slash :: (c ++ slash :: []) := by
      simp [sepd, hpre]
    rw [this, components_append_slash, components_append_slash, hcomp, components_nil,
      components_of_no_slash hc.no_slash, if_neg hc.ne_nil]
    simp

theorem components_render {cs : List Bytes} (h : ∀ c ∈ cs, Comp c)
    : components (render cs) = cs.reverse := by
  cases cs with
  | nil => rfl
  | cons c cs =>
    have := components_sepd h
    rw [sepd_cons, components_append_slash, components_nil, List.append_nil] at this
    assumption

namespace absPath

theorem take_pop {cs : List Bytes} {out : Bytes} (h : render cs <+: out)
    : out.take (if 1 < (sepd cs).length then (sepd cs).length - 1 else (sepd cs).length)
        = render cs := by
  have hlen : (if 1 < (sepd cs).length then (sepd cs).length - 1 else (sepd cs).length)
      = (render cs).length := by
    cases cs with
    | nil => simp [sepd, render]
    | cons c cs =>
      have := length_render_pos (c :: cs)
      rw [sepd_cons]
      simp only [List.length_append, List.length_singleton]
      rw [if_pos (by omega)]
      omega
  rw [hlen]
  exact (List.prefix_iff_eq_take.mp h).symm

theorem push_sepd {cs : List Bytes} (h : Canon cs) (hlen : (render cs).length < 255)
    : (if 1 < strlenSafe (render cs) ∧ strlenSafe (render cs) < 255 then render cs ++ [slash]
        else render cs) = sepd cs := by
  have hstr : strlenSafe (render cs) = (render cs).length := by
    unfold strlenSafe
    omega
  rw [hstr]
  cases cs with
  | nil => simp [render, sepd]
  | cons c cs =>
    have := (one_lt_length_render h.comps).mpr (by simp)
    rw [if_pos ⟨this, hlen⟩]
    rfl

/--
The text is that of `cs`, each component of it in full.
-/
structure Normal (cs : List Bytes) (st : State) : Prop where
  canon : Canon cs
  out : st.out = render cs
  starts : st.starts = offs cs

/--
What the output can be once it has been full: behind the separator of `cs` stands part of a
component, maybe with a slash behind it, or the separator is gone too.
-/
def EdgeText (cs : List Bytes) (out : Bytes) : Prop :=
  (∃ w, slash ∉ w ∧ out = sepd cs ++ w ∧ 254 ≤ out.length ∧ out.length ≤ 255)
    ∨ (∃ w, slash ∉ w ∧ out = sepd cs ++ w ++ [slash] ∧ out.length = 255)
    ∨ (out = render cs ∧ out.length = 254)

/--
At the limit. On top of the components of `cs` there is one more, and any number of those that were
pushed on a full output.
-/
structure Edge (cs : List Bytes) (st : State) : Prop where
  canon : Canon cs
  depth : cs.length < 64
  len : (render cs).length ≤ 254
  text : EdgeText cs st.out
  starts : ∃ g, st.starts = List.replicate g 255 ++ (sepd cs).length :: offs cs

def Shape (st : State) : Prop :=
  ∃ cs, Normal cs st ∨ Edge cs st

theorem EdgeText.le_length {cs : List Bytes} {out : Bytes} (h : EdgeText cs out)
    : 254 ≤ out.length ∧ out.length ≤ 255 := by
  obtain ⟨w, _, _, h⟩ | ⟨w, _, _, h⟩ | ⟨_, h⟩ := h <;> omega

theorem EdgeText.isPrefix {cs : List Bytes} {out : Bytes} (h : EdgeText cs out)
    : render cs <+: out := by
  obtain ⟨w, _, h, _⟩ | ⟨w, _, h, _⟩ | ⟨h, _⟩ := h
  . rw [h]
    apply render_isPrefix
  . rw [h, List.append_assoc]
    apply render_isPrefix
  . rw [h]

theorem EdgeText.take {cs : List Bytes} {out : Bytes} (h : EdgeText cs out)
    (hlen : (render cs).length ≤ 254)
    : EdgeText cs (out.take 254) := by
  obtain ⟨w, hw, hout, hlo, hhi⟩ | ⟨w, hw, hout, hlo⟩ | ⟨hout, hlo⟩ := h
  . by_cases hsep : (sepd cs).length ≤ 254
    . left
      refine ⟨w.take (254 - (sepd cs).length), ?_, ?_, ?_, ?_⟩
      . intro hmem
        exact hw (List.mem_of_mem_take hmem)
      . rw [hout, List.take_append]
        rw [List.take_of_length_le hsep]
      . simp
        omega
      . simp
    . right
      right
      have hpre : render cs <+: out := by
        apply EdgeText.isPrefix
        left
        exact ⟨w, hw, hout, hlo, hhi⟩
      have hlen' : (render cs).length = 254 := by
        cases cs with
        | nil => simp [sepd] at hsep
        | cons c cs =>
          rw [sepd_cons] at hsep
          simp only [List.length_append, List.length_singleton] at hsep
          omega
      have := List.prefix_iff_eq_take.mp hpre
      rw [hlen'] at this
      rw [← this]
      exact ⟨rfl, hlen'⟩
  . left
    refine ⟨w, hw, ?_, ?_, ?_⟩
    . have : (sepd cs ++ w).length = 254 := by
        rw [hout] at hlo
        simp only [List.length_append, List.length_singleton] at hlo ⊢
        omega
      rw [hout, ← this, List.take_left]
    . simp
      omega
    . simp
  . right
    right
    rw [List.take_of_length_le (by omega)]
    exact ⟨hout, hlo⟩

theorem EdgeText.push {cs : List Bytes} {out : Bytes} (h : EdgeText cs out)
    : ∃ out', (if 1 < strlenSafe out ∧ strlenSafe out < 255 then out ++ [slash] else out) = out'
        ∧ out'.length = 255 ∧ EdgeText cs out' := by
  have hlen := h.le_length
  have hstr : strlenSafe out = out.length := by
    unfold strlenSafe
    omega
  refine ⟨_, rfl, ?_⟩
  rw [hstr]
  by_cases hfull : out.length = 255
  . rw [if_neg (by omega)]
    exact ⟨hfull, h⟩
  . rw [if_pos (by omega)]
    refine ⟨by simp; omega, ?_⟩
    obtain ⟨w, hw, hout, hlo, hhi⟩ | ⟨w, hw, hout, hlo⟩ | ⟨hout, hlo⟩ := h
    . right
      left
      refine ⟨w, hw, by rw [hout], by simp; omega⟩
    . omega
    . left
      have hne : cs ≠ [] := by
        rintro rfl
        simp [render] at hout
        simp [hout] at hlo
      obtain ⟨c, cs, rfl⟩ := List.exists_cons_of_ne_nil hne
      refine ⟨[], by simp, ?_, by simp; omega, by simp; omega⟩
      rw [hout, sepd_cons, List.append_nil]

theorem Normal.step {cs : List Bytes} {st : State} {c : Bytes} (h : Normal cs st) (hne : c ≠ [])
    (hslash : slash ∉ c)
    : Shape (step st c) := by
  obtain ⟨out, starts⟩ := st
  obtain ⟨hcanon, hout, hstarts⟩ := h
  simp only at hout hstarts
  subst hout hstarts
  unfold absPath.step
  split
  . exact ⟨cs, Or.inl ⟨hcanon, rfl, rfl⟩⟩
  . next hdot =>
    split
    . cases cs with
      | nil => exact ⟨[], Or.inl ⟨hcanon, rfl, rfl⟩⟩
      | cons d cs =>
        refine ⟨cs, Or.inl ⟨hcanon.tail, ?_, rfl⟩⟩
        simp only [offs]
        apply take_pop
        apply render_isPrefix
    . next hdotdot =>
      have hcomp : Comp c := ⟨hne, hslash, hdot, hdotdot⟩
      split
      . exact ⟨cs, Or.inl ⟨hcanon, rfl, rfl⟩⟩
      . next hdepth =>
        simp only [length_offs, Nat.not_le] at hdepth
        dsimp only
        by_cases hfull : (render cs).length < 255
        . rw [push_sepd hcanon hfull]
          by_cases hfit : (sepd cs).length + c.length ≤ 255
          . rw [List.take_of_length_le (by omega)]
            exact ⟨c :: cs, Or.inl ⟨hcanon.cons hcomp hdepth hfit, rfl, rfl⟩⟩
          . refine ⟨cs, Or.inr ⟨hcanon, hdepth, by omega, ?_, 0, rfl⟩⟩
            left
            refine ⟨c.take (255 - (sepd cs).length), ?_, rfl, ?_, ?_⟩
            . intro hmem
              exact hslash (List.mem_of_mem_take hmem)
            . simp
              omega
            . have : (sepd cs).length ≤ 255 := by
                cases cs with
                | nil => simp [sepd]
                | cons d cs =>
                  simp only [sepd_cons, List.length_append, List.length_singleton]
                  omega
              simp
              omega
        . have hlen := hcanon.len
          have hstr : ¬(1 < strlenSafe (render cs) ∧ strlenSafe (render cs) < 255) := by
            unfold strlenSafe
            omega
          rw [if_neg hstr]
          -- the component leaves no trace but an offset
          have hcs : cs ≠ [] := by
            rintro rfl
            simp [render] at hfull
          obtain ⟨d, cs, rfl⟩ := List.exists_cons_of_ne_nil hcs
          have hd := hcanon.comps d (by simp)
          have hd' := List.length_pos_of_ne_nil hd.ne_nil
          have heq : (render (d :: cs)).length = 255 := by omega
          have hsum := heq
          simp only [render, List.length_append] at hsum
          have := length_render_le_sepd cs
          refine ⟨cs, Or.inr ⟨hcanon.tail, ?_, by omega, ?_, 1, ?_⟩⟩
          . simp only [List.length_cons] at hdepth
            omega
          . left
            refine ⟨d, hd.no_slash, ?_, ?_, ?_⟩
            . simp only [heq, Nat.sub_self, List.take_zero, List.append_nil]
              rfl
            . simp only [heq, Nat.sub_self, List.take_zero, List.append_nil]
              omega
            . simp only [heq, Nat.sub_self, List.take_zero, List.append_nil]
              omega
          . simp [heq, offs]

theorem Edge.step {cs : List Bytes} {st : State} {c : Bytes} (h : Edge cs st)
    : Shape (step st c) := by
  obtain ⟨out, starts⟩ := st
  have hkeep := h
  obtain ⟨hcanon, hdepth, hlen, htext, g, hstarts⟩ := h
  simp only at htext hstarts
  unfold absPath.step
  split
  . exact ⟨cs, Or.inr hkeep⟩
  . split
    . cases g with
      | zero =>
        simp only [List.replicate_zero, List.nil_append] at hstarts
        subst hstarts
        refine ⟨cs, Or.inl ⟨hcanon, ?_, rfl⟩⟩
        exact take_pop htext.isPrefix
      | succ g =>
        simp only [List.replicate_succ, List.cons_append] at hstarts
        subst hstarts
        exact ⟨cs, Or.inr ⟨hcanon, hdepth, hlen, htext.take hlen, g, rfl⟩⟩
    . split
      . exact ⟨cs, Or.inr hkeep⟩
      . obtain ⟨out', heq, hlen', htext'⟩ := htext.push
        dsimp only
        rw [heq]
        refine ⟨cs, Or.inr ⟨hcanon, hdepth, hlen, ?_, g + 1, ?_⟩⟩
        . simpa [hlen'] using htext'
        . simp [hlen', hstarts, List.replicate_succ]

theorem Shape.foldl {st : State} {comps : List Bytes} (h : Shape st)
    (hcomps : ∀ c ∈ comps, c ≠ [] ∧ slash ∉ c)
    : Shape (comps.foldl step st) := by
  induction comps generalizing st with
  | nil => assumption
  | cons c comps ih =>
    have hc := hcomps c (by simp)
    rw [List.foldl_cons]
    apply ih
    . obtain ⟨cs, h | h⟩ := h
      . exact h.step hc.1 hc.2
      . exact h.step
    . intro d hd
      apply hcomps
      simp [hd]

theorem shape (comps : List Bytes) (h : ∀ c ∈ comps, c ≠ [] ∧ slash ∉ c)
    : Shape (comps.foldl step ⟨[slash], []⟩) := by
  apply Shape.foldl
  . exact ⟨[], Or.inl ⟨Canon.nil, rfl, rfl⟩⟩
  . assumption

/--
The state in which `absPath` ends.
-/
def walk (cwd name : Bytes) : State :=
  (components (combined cwd name)).foldl step ⟨[slash], []⟩

theorem walk_shape (cwd name : Bytes) : Shape (walk cwd name) := by
  apply shape
  intro c hc
  exact mem_components hc

theorem normal_of_length {cwd name : Bytes} (h : (walk cwd name).out.length < 254)
    : ∃ cs, Normal cs (walk cwd name) := by
  obtain ⟨cs, hn | he⟩ := walk_shape cwd name
  . exact ⟨cs, hn⟩
  . have := he.text.le_length
    omega

theorem step_out {cs : List Bytes} {st : State} {c : Bytes} (h : Normal cs st) (hc : Comp c)
    (hdepth : cs.length < 64) (hlen : (render cs).length < 255)
    : (step st c).out = sepd cs ++ c.take (255 - (sepd cs).length) := by
  obtain ⟨out, starts⟩ := st
  obtain ⟨hcanon, hout, hstarts⟩ := h
  simp only at hout hstarts
  subst hout hstarts
  simp only [absPath.step, hc.ne_dot, hc.ne_dotdot, length_offs, ↓reduceIte]
  rw [if_neg (by omega), push_sepd hcanon hlen]

theorem step_push {cs : List Bytes} {st : State} {c : Bytes} (h : Normal cs st) (hc : Comp c)
    (hdepth : cs.length < 64) (hlen : (sepd cs).length + c.length ≤ 255)
    : Normal (c :: cs) (step st c) := by
  obtain ⟨out, starts⟩ := st
  obtain ⟨hcanon, hout, hstarts⟩ := h
  simp only at hout hstarts
  subst hout hstarts
  have hpos := List.length_pos_of_ne_nil hc.ne_nil
  have hle := length_render_le_sepd cs
  refine ⟨hcanon.cons hc hdepth hlen, ?_, ?_⟩
  . rw [step_out ⟨hcanon, rfl, rfl⟩ hc hdepth (by omega), List.take_of_length_le (by omega)]
    rfl
  . simp only [absPath.step, hc.ne_dot, hc.ne_dotdot, length_offs, ↓reduceIte]
    rw [if_neg (by omega), push_sepd hcanon (by omega)]
    rfl

theorem step_dotdot {d : Bytes} {cs : List Bytes} {st : State} (h : Normal (d :: cs) st)
    : Normal cs (step st [dot, dot]) := by
  obtain ⟨out, starts⟩ := st
  obtain ⟨hcanon, hout, hstarts⟩ := h
  simp only at hout hstarts
  subst hout hstarts
  refine ⟨hcanon.tail, ?_, ?_⟩
  . simp only [absPath.step, offs, ↓reduceIte]
    rw [if_neg (by decide)]
    exact take_pop (render_isPrefix cs d)
  . simp only [absPath.step, offs, ↓reduceIte]
    rw [if_neg (by decide)]

theorem step_dotdot_nil {st : State} (h : Normal [] st) : Normal [] (step st [dot, dot]) := by
  obtain ⟨out, starts⟩ := st
  obtain ⟨hcanon, hout, hstarts⟩ := h
  simp only [offs] at hout hstarts
  subst hout hstarts
  exact ⟨hcanon, rfl, rfl⟩

theorem step_dot (st : State) : step st [dot] = st := by
  simp [absPath.step]

theorem step_ne_root {st : State} {c : Bytes} (h : Shape st) (hc : Comp c)
    : (step st c).out ≠ [slash] := by
  intro heq
  have hlen := congrArg List.length heq
  have hpos := List.length_pos_of_ne_nil hc.ne_nil
  simp only [absPath.step, hc.ne_dot, hc.ne_dotdot, ↓reduceIte] at hlen
  split at hlen
  . next hdepth =>
    obtain ⟨cs, hn | he⟩ := h
    . rw [hn.starts, length_offs] at hdepth
      rw [hn.out] at hlen
      have := (one_lt_length_render hn.canon.comps).mpr (by rintro rfl; simp at hdepth)
      simp only [List.length_singleton] at hlen
      omega
    . have := he.text.le_length
      simp only [List.length_singleton] at hlen
      omega
  . have hout : 0 < st.out.length := by
      obtain ⟨cs, hn | he⟩ := h
      . rw [hn.out]
        apply length_render_pos
      . have := he.text.le_length
        omega
    unfold strlenSafe at hlen
    split at hlen
    . simp only [List.length_append, List.length_singleton, List.length_take] at hlen
      omega
    . next hno =>
      simp only [List.length_append, List.length_singleton, List.length_take] at hlen
      omega

theorem foldl_reverse {cs : List Bytes} (h : Canon cs)
    : Normal cs (cs.reverse.foldl step ⟨[slash], []⟩) := by
  induction cs with
  | nil => exact ⟨h, rfl, rfl⟩
  | cons c cs ih =>
    have hdepth := h.depth
    have hlen := h.len
    simp only [List.length_cons, render, List.length_append] at hdepth hlen
    rw [List.reverse_cons, List.foldl_append]
    exact step_push (ih h.tail) (h.comps c (by simp)) (by omega) hlen

theorem walk_render {cwd : Bytes} {cs : List Bytes} (h : Canon cs)
    : Normal cs (walk cwd (render cs)) := by
  have hlen := h.len
  unfold walk combined
  rw [if_pos (head_render cs), List.take_of_length_le (by omega), components_render h.comps]
  exact foldl_reverse h

end absPath

open absPath (EdgeText walk)

theorem absPath_eq (cwd name : Bytes) : absPath cwd name = (walk cwd name).out := rfl

theorem absPath_render {cwd : Bytes} {cs : List Bytes} (h : Canon cs)
    : absPath cwd (render cs) = render cs := by
  rw [absPath_eq]
  exact (absPath.walk_render h).out

/--
The texts that `absPath` can yield.
-/
def PathText (x : Bytes) : Prop :=
  ∃ cs, Canon cs ∧ (x = render cs ∨ (cs.length < 64 ∧ (render cs).length ≤ 254 ∧ EdgeText cs x))

theorem absPath_text (cwd name : Bytes) : PathText (absPath cwd name) := by
  obtain ⟨cs, hn | he⟩ := absPath.walk_shape cwd name
  . exact ⟨cs, hn.canon, Or.inl hn.out⟩
  . exact ⟨cs, he.canon, Or.inr ⟨he.depth, he.len, he.text⟩⟩

namespace PathText

variable {x : Bytes}

theorem length_le (h : PathText x) : x.length ≤ 255 := by
  obtain ⟨cs, hcanon, h | ⟨_, _, h⟩⟩ := h
  . rw [h]
    exact hcanon.len
  . exact h.le_length.2

theorem ne_nil (h : PathText x) : x ≠ [] := by
  obtain ⟨cs, hcanon, h | ⟨_, _, h⟩⟩ := h
  . rw [h]
    exact List.ne_nil_of_length_pos (length_render_pos cs)
  . have := h.le_length.1
    rintro rfl
    simp at this

theorem head (h : PathText x) : x.head? = some slash := by
  obtain ⟨cs, hcanon, h | ⟨_, _, h⟩⟩ := h
  . rw [h, head_render]
  . obtain ⟨w, heq⟩ := h.isPrefix
    rw [← heq, List.head?_append_of_ne_nil _ (List.ne_nil_of_length_pos (length_render_pos cs)),
      head_render]

theorem root : PathText [slash] :=
  ⟨[], Canon.nil, Or.inl rfl⟩

end PathText

def parentText (x : Bytes) : Bytes :=
  x.take (lastCut x - 1)

theorem lastCut_append {a w : Bytes} (h : slash ∉ w) : lastCut (a ++ slash :: w) = a.length + 1 := by
  unfold lastCut
  have hrev : (a ++ slash :: w).reverse = w.reverse ++ slash :: a.reverse := by simp
  rw [hrev, List.takeWhile_append_of_pos]
  . simp
    omega
  . intro b hb
    rw [List.mem_reverse] at hb
    simp only [ne_eq, decide_not, Bool.not_eq_eq_eq_not, Bool.not_true, decide_eq_false_iff_not]
    rintro rfl
    contradiction

theorem parentText_append {a w : Bytes} (h : slash ∉ w) : parentText (a ++ slash :: w) = a := by
  unfold parentText
  rw [lastCut_append h]
  simp

theorem eq_append_parentText {x : Bytes} (h : slash ∈ x)
    : ∃ w, slash ∉ w ∧ x = parentText x ++ slash :: w := by
  obtain ⟨as, bs, heq, has⟩ := List.eq_append_cons_of_mem (List.mem_reverse.mpr h)
  have hx : x = bs.reverse ++ slash :: as.reverse := by
    have := congrArg List.reverse heq
    simpa using this
  have hw : slash ∉ as.reverse := by rwa [List.mem_reverse]
  refine ⟨as.reverse, hw, ?_⟩
  conv => rhs; rw [hx, parentText_append hw]
  exact hx

theorem eq_of_parentText {x y : Bytes} (h : parentText x = y) (hy : y ≠ [])
    : ∃ w, slash ∉ w ∧ x = y ++ slash :: w := by
  by_cases hmem : slash ∈ x
  . rw [← h]
    exact eq_append_parentText hmem
  . have hall : x.reverse.takeWhile (· ≠ slash) = x.reverse := by
      rw [List.takeWhile_eq_self_iff]
      intro b hb
      simp only [ne_eq, decide_not, Bool.not_eq_eq_eq_not, Bool.not_true, decide_eq_false_iff_not]
      rintro rfl
      exact hmem (List.mem_reverse.mp hb)
    unfold parentText lastCut at h
    rw [hall] at h
    simp at h
    exact absurd h hy

theorem sepd_eq (cs : List Bytes)
    : sepd cs = (if cs = [] then [] else render cs) ++ [slash] := by
  cases cs with
  | nil => rfl
  | cons c cs => simp [sepd_cons]

theorem parentText_sepd (cs : List Bytes) {w : Bytes} (h : slash ∉ w)
    : parentText (sepd cs ++ w) = if cs = [] then [] else render cs := by
  rw [sepd_eq, List.append_assoc, List.singleton_append, parentText_append h]

/--
The slip at the output limit: the last but one component of `x` is empty, `.` or `..`.
-/
def BadTail (x : Bytes) : Prop :=
  [slash, slash] <:+ x ∨ [slash, dot, slash] <:+ x ∨ [slash, dot, dot, slash] <:+ x

instance (x : Bytes) : Decidable (BadTail x) :=
  inferInstanceAs (Decidable (_ ∨ _ ∨ _))

theorem PathText.parent {x : Bytes} (h : PathText x) (hbad : ¬BadTail x)
    : parentText x = [] ∨ ∃ cs, Canon cs ∧ cs ≠ [] ∧ parentText x = render cs := by
  have hsepd : ∀ cs w, Canon cs → slash ∉ w → x = sepd cs ++ w →
      parentText x = [] ∨ ∃ cs, Canon cs ∧ cs ≠ [] ∧ parentText x = render cs := by
    intro cs w hcanon hw heq
    rw [heq, parentText_sepd cs hw]
    by_cases hcs : cs = []
    . left
      rw [if_pos hcs]
    . right
      exact ⟨cs, hcanon, hcs, by rw [if_neg hcs]⟩
  have hrender : ∀ cs, Canon cs → x = render cs →
      parentText x = [] ∨ ∃ cs, Canon cs ∧ cs ≠ [] ∧ parentText x = render cs := by
    intro cs hcanon heq
    cases cs with
    | nil =>
      left
      rw [heq]
      rfl
    | cons c cs => exact hsepd cs c hcanon.tail (hcanon.comps c (by simp)).no_slash heq
  obtain ⟨cs, hcanon, heq | ⟨hdepth, hlen, htext⟩⟩ := h
  . exact hrender cs hcanon heq
  . obtain ⟨w, hw, heq, _, _⟩ | ⟨w, hw, heq, hx⟩ | ⟨heq, _⟩ := htext
    . exact hsepd cs w hcanon hw heq
    . -- a slash is all that is left of the last component, `w` is the one before
      right
      have hw' : Comp w := by
        refine ⟨?_, hw, ?_, ?_⟩
        . rintro rfl
          apply hbad
          left
          rw [heq, sepd_eq]
          exact ⟨if cs = [] then [] else render cs, by simp⟩
        . rintro rfl
          apply hbad
          right
          left
          rw [heq, sepd_eq]
          exact ⟨if cs = [] then [] else render cs, by simp⟩
        . rintro rfl
          apply hbad
          right
          right
          rw [heq, sepd_eq]
          exact ⟨if cs = [] then [] else render cs, by simp⟩
      refine ⟨w :: cs, hcanon.cons hw' hdepth ?_, by simp, ?_⟩
      . rw [heq] at hx
        simp only [List.length_append, List.length_singleton] at hx
        omega
      . rw [heq, parentText_append (by simp)]
        rfl
    . exact hrender cs hcanon heq

end TanjaOS
