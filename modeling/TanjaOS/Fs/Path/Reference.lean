import TanjaOS.Fs.Path.Lemmas

/-!
The meaning of a path: what is left when its `.` and `..` components have been carried out. `absPath`
computes it as long as no more than 64 components are kept at any point.
-/

open Lib

namespace TanjaOS

def pathJoin (cwd name : Bytes) : Bytes :=
  if name.head? = some slash then
    name
  else if cwd = [slash] then
    cwd ++ name
  else
    cwd ++ [slash] ++ name

def keep (stack : List Bytes) (comp : Bytes) : List Bytes :=
  if comp = [dot] then
    stack
  else if comp = [dot, dot] then
    stack.tail
  else
    comp :: stack

def kept (cwd name : Bytes) : List Bytes :=
  (components (pathJoin cwd name)).foldl keep []

def refPath (cwd name : Bytes) : Bytes :=
  slash :: [slash].intercalate (kept cwd name).reverse

/--
No more than 64 components are kept at any point.
-/
def DepthOk (comps : List Bytes) : Prop :=
  ∀ pre, pre <+: comps → (pre.foldl keep []).length ≤ 64

/--
A directory as `fs_change_directory` leaves it.
-/
def CanonText (x : Bytes) : Prop :=
  ∃ cs, Canon cs ∧ x = render cs

section Cost

def cost (cs : List Bytes) : Nat :=
  (cs.map (fun c => c.length + 1)).sum

@[simp]
theorem cost_nil : cost [] = 0 := rfl

@[simp]
theorem cost_cons (c : Bytes) (cs : List Bytes) : cost (c :: cs) = c.length + 1 + cost cs := rfl

@[simp]
theorem cost_append (cs ds : List Bytes) : cost (cs ++ ds) = cost cs + cost ds := by
  simp [cost]

theorem length_sepd (cs : List Bytes) : (sepd cs).length = cost cs + 1 := by
  induction cs with
  | nil => rfl
  | cons c cs ih =>
    rw [sepd, List.length_append, List.length_append, ih, cost_cons]
    simp only [List.length_singleton]
    omega

theorem two_mul_length_le_cost {cs : List Bytes} (h : ∀ c ∈ cs, c ≠ [])
    : 2 * cs.length ≤ cost cs := by
  induction cs with
  | nil => exact Nat.le_refl 0
  | cons c cs ih =>
    have hpos := List.length_pos_of_ne_nil (h c List.mem_cons_self)
    have := ih (fun d hd => h d (List.mem_cons_of_mem c hd))
    rw [List.length_cons, cost_cons]
    omega

theorem cost_components_le (path : Bytes) : cost (components path) ≤ path.length + 1 := by
  generalize hn : path.length = n
  induction n using Nat.strong_induction_on generalizing path with
  | _ n ih =>
    by_cases hmem : slash ∈ path
    . obtain ⟨a, b, rfl, _⟩ := List.eq_append_cons_of_mem hmem
      rw [List.length_append, List.length_cons] at hn
      have ha := ih a.length (by omega) a rfl
      have hb := ih b.length (by omega) b rfl
      rw [components_append_slash, cost_append]
      omega
    . rw [components_of_no_slash hmem]
      split
      . exact Nat.zero_le _
      . rw [cost_cons, cost_nil, hn]

theorem cost_components_head {path : Bytes} (h : path.head? = some slash)
    : cost (components path) ≤ path.length := by
  cases path with
  | nil => contradiction
  | cons b rest =>
    have hb : b = slash := Option.some.inj h
    subst hb
    have hcomps : components (slash :: rest) = components rest := by
      have := components_append_slash [] rest
      rwa [components_nil, List.nil_append, List.nil_append] at this
    rw [hcomps]
    exact cost_components_le rest

end Cost

section Render

theorem intercalate_concat {ds : List Bytes} (hne : ds ≠ []) (c : Bytes)
    : [slash].intercalate (ds ++ [c]) = [slash].intercalate ds ++ [slash] ++ c := by
  induction ds with
  | nil => contradiction
  | cons d ds ih =>
    cases ds with
    | nil => simp [List.intercalate]
    | cons e ds =>
      have := ih (List.cons_ne_nil e ds)
      rw [List.cons_append, List.cons_append, List.intercalate_cons_cons, ← List.cons_append, this,
        List.intercalate_cons_cons]
      simp only [List.append_assoc]

theorem render_eq_intercalate (cs : List Bytes)
    : render cs = slash :: [slash].intercalate cs.reverse := by
  induction cs with
  | nil => rfl
  | cons c cs ih =>
    cases cs with
    | nil => simp [render, sepd, List.intercalate]
    | cons d cs =>
      have hne : (d :: cs).reverse ≠ [] := by simp
      rw [render, sepd_cons, ih, @List.reverse_cons _ c, intercalate_concat hne]
      simp

theorem render_inj {cs ds : List Bytes} (hcs : ∀ c ∈ cs, Comp c) (hds : ∀ c ∈ ds, Comp c)
    (h : render cs = render ds) : cs = ds := by
  have hcomps := congrArg components h
  rw [components_render hcs, components_render hds] at hcomps
  exact List.reverse_injective hcomps

end Render

section Walk

open absPath

variable {cs rs comps : List Bytes} {st : State}

theorem keep_dot (stack : List Bytes) : keep stack [dot] = stack := rfl

theorem keep_dotdot (stack : List Bytes) : keep stack [dot, dot] = stack.tail := rfl

theorem keep_comp {c : Bytes} (h : Comp c) (stack : List Bytes) : keep stack c = c :: stack := by
  unfold keep
  rw [if_neg h.ne_dot, if_neg h.ne_dotdot]

theorem keep_comps {stack : List Bytes} {c : Bytes} (h : ∀ d ∈ stack, Comp d)
    (hc : c ≠ [] ∧ slash ∉ c) : ∀ d ∈ keep stack c, Comp d := by
  unfold keep
  split
  . exact h
  . next hdot =>
    split
    . intro d hd
      exact h d (List.mem_of_mem_tail hd)
    . next hdotdot =>
      intro d hd
      rcases List.mem_cons.mp hd with rfl | hd
      . exact ⟨hc.1, hc.2, hdot, hdotdot⟩
      . exact h d hd

theorem foldl_keep_comps {stack : List Bytes} (h : ∀ d ∈ stack, Comp d)
    (hcomps : ∀ c ∈ comps, c ≠ [] ∧ slash ∉ c) : ∀ d ∈ comps.foldl keep stack, Comp d := by
  induction comps generalizing stack with
  | nil => exact h
  | cons c comps ih =>
    exact ih (keep_comps h (hcomps c List.mem_cons_self))
      (fun d hd => hcomps d (List.mem_cons_of_mem c hd))

theorem length_foldl_keep_le (comps stack : List Bytes)
    : (comps.foldl keep stack).length ≤ stack.length + comps.length := by
  induction comps generalizing stack with
  | nil => exact Nat.le_refl _
  | cons c comps ih =>
    have hone : (keep stack c).length ≤ stack.length + 1 := by
      unfold keep
      split
      . omega
      . split
        . rw [List.length_tail]
          omega
        . exact Nat.le_refl _
    have := ih (keep stack c)
    rw [List.foldl_cons, List.length_cons]
    omega

theorem depthOk_of_length (h : comps.length ≤ 64) : DepthOk comps := by
  intro pre hpre
  have hshort := hpre.length_le
  have := length_foldl_keep_le pre []
  rw [List.length_nil] at this
  omega

theorem step_full (h : Normal cs st) {c : Bytes} (hc : Comp c) (hfull : cs.length = 64)
    : step st c = st := by
  obtain ⟨out, starts⟩ := st
  obtain ⟨_, _, hstarts⟩ := h
  simp only at hstarts
  subst hstarts
  simp only [absPath.step, hc.ne_dot, hc.ne_dotdot, length_offs, ↓reduceIte]
  rw [if_pos (by omega)]

theorem foldl_behind (hcomps : ∀ c ∈ comps, c ≠ [] ∧ slash ∉ c) (h : Normal cs st) {u : Nat}
    (hcs : cost cs ≤ u) (hused : 130 + 3 * (64 - cs.length) ≤ u)
    (hbudget : u + cost comps ≤ 255) (hlt : cs.length < rs.length)
    : ∃ cs', Normal cs' (comps.foldl step st) ∧ cs'.length < (comps.foldl keep rs).length := by
  induction comps generalizing cs rs st u with
  | nil => exact ⟨cs, h, hlt⟩
  | cons c comps ih =>
    have hrest : ∀ d ∈ comps, d ≠ [] ∧ slash ∉ d := fun d hd => hcomps d (List.mem_cons_of_mem c hd)
    have hdepth := h.canon.depth
    rw [cost_cons] at hbudget
    rw [List.foldl_cons, List.foldl_cons]
    by_cases hdot : c = [dot]
    . subst hdot
      rw [step_dot, keep_dot]
      exact ih hrest h (u := u + 2) (by omega) (by omega)
        (by simp only [List.length_singleton] at hbudget; omega) hlt
    by_cases hdotdot : c = [dot, dot]
    . subst hdotdot
      rw [keep_dotdot]
      cases cs with
      | nil =>
        simp only [List.length_nil] at hused
        omega
      | cons d cs =>
        rw [List.length_cons] at hused hlt hdepth
        rw [cost_cons] at hcs
        simp only [List.length_cons, List.length_nil] at hbudget
        exact ih hrest (step_dotdot h) (u := u + 3) (by omega) (by omega) (by omega)
          (by rw [List.length_tail]; omega)
    . have hc : Comp c :=
        ⟨(hcomps c List.mem_cons_self).1, (hcomps c List.mem_cons_self).2, hdot, hdotdot⟩
      have hpos := List.length_pos_of_ne_nil hc.ne_nil
      rw [keep_comp hc]
      by_cases hfull : cs.length = 64
      . rw [step_full h hc hfull]
        exact ih hrest h (u := u + c.length + 1) (by omega) (by omega) (by omega)
          (by rw [List.length_cons]; omega)
      . have hpush := step_push h hc (by omega) (by rw [length_sepd]; omega)
        exact ih hrest hpush (u := u + c.length + 1) (by rw [cost_cons]; omega)
          (by rw [List.length_cons]; omega) (by omega) (by simp only [List.length_cons]; omega)

theorem depthOk_cons {c : Bytes} {stack : List Bytes}
    : (∀ pre, pre <+: c :: comps → (pre.foldl keep stack).length ≤ 64)
        ↔ stack.length ≤ 64 ∧ ∀ pre, pre <+: comps → (pre.foldl keep (keep stack c)).length ≤ 64 := by
  constructor
  . intro h
    refine ⟨h [] (List.nil_prefix), fun pre hpre => ?_⟩
    exact h (c :: pre) (List.cons_prefix_cons.mpr ⟨rfl, hpre⟩)
  . rintro ⟨hnow, hlater⟩ pre hpre
    cases pre with
    | nil => exact hnow
    | cons d pre =>
      obtain ⟨rfl, hpre'⟩ := List.cons_prefix_cons.mp hpre
      exact hlater pre hpre'

theorem foldl_keep (hcomps : ∀ c ∈ comps, c ≠ [] ∧ slash ∉ c) (h : Normal cs st)
    (hbudget : cost cs + cost comps ≤ 255)
    : ((∀ pre, pre <+: comps → (pre.foldl keep cs).length ≤ 64) →
          Normal (comps.foldl keep cs) (comps.foldl step st))
        ∧ ((¬∀ pre, pre <+: comps → (pre.foldl keep cs).length ≤ 64) →
          ∃ cs', Normal cs' (comps.foldl step st) ∧ cs'.length < (comps.foldl keep cs).length) := by
  induction comps generalizing cs st with
  | nil =>
    refine ⟨fun _ => h, fun hbad => absurd ?_ hbad⟩
    intro pre hpre
    rw [List.prefix_nil.mp hpre]
    exact h.canon.depth
  | cons c comps ih =>
    have hrest : ∀ d ∈ comps, d ≠ [] ∧ slash ∉ d := fun d hd => hcomps d (List.mem_cons_of_mem c hd)
    have hdepth := h.canon.depth
    rw [cost_cons] at hbudget
    rw [List.foldl_cons, List.foldl_cons, depthOk_cons]
    have hstep : (Normal (keep cs c) (step st c) ∧ cost (keep cs c) + cost comps ≤ 255)
        ∨ (Comp c ∧ cs.length = 64) := by
      by_cases hdot : c = [dot]
      . subst hdot
        rw [step_dot, keep_dot]
        exact .inl ⟨h, by omega⟩
      by_cases hdotdot : c = [dot, dot]
      . subst hdotdot
        left
        rw [keep_dotdot]
        cases cs with
        | nil => exact ⟨step_dotdot_nil h, by rw [List.tail_nil]; omega⟩
        | cons d cs =>
          rw [cost_cons] at hbudget
          exact ⟨step_dotdot h, by rw [List.tail_cons]; omega⟩
      . have hc : Comp c :=
          ⟨(hcomps c List.mem_cons_self).1, (hcomps c List.mem_cons_self).2, hdot, hdotdot⟩
        by_cases hfull : cs.length = 64
        . exact .inr ⟨hc, hfull⟩
        . left
          rw [keep_comp hc, cost_cons]
          exact ⟨step_push h hc (by omega) (by rw [length_sepd]; omega), by omega⟩
    rcases hstep with ⟨hnormal, hcost⟩ | ⟨hc, hfull⟩
    . obtain ⟨hgood, hlost⟩ := ih hrest hnormal hcost
      exact ⟨fun hok => hgood hok.2, fun hbad => hlost (fun hok => hbad ⟨hdepth, hok⟩)⟩
    . have hpos := List.length_pos_of_ne_nil hc.ne_nil
      have hcost := two_mul_length_le_cost (fun d hd => (h.canon.comps d hd).ne_nil)
      rw [keep_comp hc, step_full h hc hfull]
      constructor
      . rintro ⟨_, hok⟩
        have := hok [] List.nil_prefix
        rw [List.foldl_nil, List.length_cons] at this
        omega
      . intro _
        exact foldl_behind hrest h (u := cost cs + c.length + 1) (by omega) (by omega) (by omega)
          (by rw [List.length_cons]; omega)

end Walk

section Join

variable {cwd name : Bytes}

theorem getLast_render {cs : List Bytes} (h : Canon cs) (hne : cs ≠ [])
    : (render cs).getLast? ≠ some slash := by
  cases cs with
  | nil => contradiction
  | cons c cs =>
    have hc := h.comps c List.mem_cons_self
    rw [render, List.getLast?_append_of_ne_nil _ hc.ne_nil]
    intro hlast
    exact hc.no_slash (List.mem_of_getLast? hlast)

theorem combined_eq_pathJoin (hcwd : CanonText cwd) (hlen : (pathJoin cwd name).length ≤ 255)
    : absPath.combined cwd name = pathJoin cwd name := by
  obtain ⟨cs, hcanon, rfl⟩ := hcwd
  unfold pathJoin at hlen ⊢
  unfold absPath.combined
  split at hlen
  . next habs => rw [if_pos habs, if_pos habs, List.take_of_length_le (by omega)]
  . next hrel =>
    have hcs := hcanon.len
    have hpos := length_render_pos cs
    have hne := List.ne_nil_of_length_pos hpos
    rw [if_neg hrel, if_neg hrel]
    dsimp only
    rw [List.take_of_length_le (by omega), if_neg hne]
    cases cs with
    | nil =>
      have hroot : render [] = [slash] := rfl
      rw [hroot, if_pos rfl] at hlen ⊢
      rw [if_neg (by decide)]
      rw [List.length_append] at hlen
      rw [List.take_of_length_le (by omega)]
    | cons c cs =>
      have hdeep := (one_lt_length_render hcanon.comps).mpr (List.cons_ne_nil c cs)
      have hnroot : render (c :: cs) ≠ [slash] := by
        intro heq
        rw [heq] at hdeep
        simp at hdeep
      rw [if_neg hnroot] at hlen ⊢
      rw [if_pos ⟨hdeep, getLast_render hcanon (List.cons_ne_nil c cs)⟩]
      rw [List.length_append, List.length_append, List.length_singleton] at hlen
      rw [List.take_of_length_le (by rw [List.length_append, List.length_singleton]; omega)]

theorem head_pathJoin (hcwd : CanonText cwd) : (pathJoin cwd name).head? = some slash := by
  obtain ⟨cs, _, rfl⟩ := hcwd
  have hne := List.ne_nil_of_length_pos (length_render_pos cs)
  unfold pathJoin
  split
  . assumption
  . split
    . rw [List.head?_append_of_ne_nil _ hne, head_render]
    . rw [List.append_assoc, List.head?_append_of_ne_nil _ hne, head_render]

theorem kept_comps : ∀ c ∈ kept cwd name, Comp c :=
  foldl_keep_comps (fun _ hd => absurd hd List.not_mem_nil) (fun _ hc => mem_components hc)

theorem refPath_eq (cwd name : Bytes) : refPath cwd name = render (kept cwd name) :=
  (render_eq_intercalate _).symm

theorem absPath_kept (hcwd : CanonText cwd) (hlen : (pathJoin cwd name).length ≤ 255)
    : (DepthOk (components (pathJoin cwd name)) → Canon (kept cwd name)
          ∧ absPath cwd name = refPath cwd name)
        ∧ (¬DepthOk (components (pathJoin cwd name)) → absPath cwd name ≠ refPath cwd name) := by
  have hcomps : ∀ c ∈ components (pathJoin cwd name), c ≠ [] ∧ slash ∉ c := fun c hc => mem_components hc
  have hcost := cost_components_head (@head_pathJoin cwd name hcwd)
  have hstart : absPath.Normal [] ⟨[slash], []⟩ := ⟨Canon.nil, rfl, rfl⟩
  obtain ⟨hgood, hlost⟩ := foldl_keep hcomps hstart (by rw [cost_nil]; omega)
  have hwalk : absPath.walk cwd name = (components (pathJoin cwd name)).foldl absPath.step ⟨[slash], []⟩ := by
    unfold absPath.walk
    rw [combined_eq_pathJoin hcwd hlen]
  rw [absPath_eq, hwalk, refPath_eq]
  constructor
  . intro hok
    have hnormal := hgood hok
    exact ⟨hnormal.canon, hnormal.out⟩
  . intro hbad heq
    obtain ⟨cs, hnormal, hlt⟩ := hlost hbad
    rw [hnormal.out] at heq
    have hsame : cs = kept cwd name := render_inj hnormal.canon.comps kept_comps heq
    rw [hsame] at hlt
    exact Nat.lt_irrefl _ hlt

/--
A path that has its meaning, the results do not depend on where they are looked up.
-/
structure Meant (cwd name : Bytes) : Prop where
  again : ∀ cwd', absPath cwd' (absPath cwd name) = absPath cwd name
  proper : ∃ cs, Canon cs ∧ absPath cwd name = render cs
  same : ∀ other, (pathJoin cwd other).length ≤ 255 → DepthOk (components (pathJoin cwd other)) →
    (absPath cwd name = absPath cwd other ↔ refPath cwd name = refPath cwd other)

end Join

/--
A text of at most 255 bytes is resolved as it should be exactly if no more than 64 components are
kept at any point.
-/
theorem absPath_reference {cwd name : Bytes} (hcwd : CanonText cwd)
    (hlen : (pathJoin cwd name).length ≤ 255)
    : (absPath cwd name = refPath cwd name ↔ DepthOk (components (pathJoin cwd name)))
        ∧ (DepthOk (components (pathJoin cwd name)) → Meant cwd name) := by
  obtain ⟨hgood, hbad⟩ := absPath_kept hcwd hlen
  constructor
  . constructor
    . intro heq
      by_contra hdeep
      exact hbad hdeep heq
    . intro hok
      exact (hgood hok).2
  . intro hok
    obtain ⟨hcanon, heq⟩ := hgood hok
    have htext : absPath cwd name = render (kept cwd name) := heq.trans (refPath_eq cwd name)
    refine ⟨fun cwd' => ?_, ⟨_, hcanon, htext⟩, fun other hlen' hok' => ?_⟩
    . rw [htext]
      exact absPath_render hcanon
    . rw [heq, ((absPath_kept hcwd hlen').1 hok').2]

theorem absPath_reference_home
    : absPath [slash, 104] [dot, dot, slash, slash, 97, slash, dot, slash, 98]
        = [slash, 97, slash, 98] := by
  have hcwd : CanonText [slash, 104] :=
    ⟨[[104]], Canon.nil.cons ⟨by decide, by decide, by decide, by decide⟩ (by decide) (by decide), rfl⟩
  have hok : DepthOk (components
      (pathJoin [slash, 104] [dot, dot, slash, slash, 97, slash, dot, slash, 98])) :=
    depthOk_of_length (by decide +kernel)
  rw [(absPath_reference hcwd (by decide)).1.mpr hok]
  decide +kernel

/--
The text `/a` 65 times over.
-/
def deepPath : Bytes :=
  (List.replicate 65 [slash, 97]).flatten

theorem not_absPath_reference
    : ¬∀ cwd name, CanonText cwd → (pathJoin cwd name).length ≤ 255 →
        absPath cwd name = refPath cwd name := by
  intro hall
  have hroot : CanonText [slash] := ⟨[], Canon.nil, rfl⟩
  have hlen : (pathJoin [slash] deepPath).length ≤ 255 := by decide +kernel
  have hdeep : ¬DepthOk (components (pathJoin [slash] deepPath)) := by
    intro hok
    have := hok _ (List.prefix_refl _)
    revert this
    decide +kernel
  exact (absPath_kept hroot hlen).2 hdeep (hall [slash] deepPath hroot hlen)

end TanjaOS
