import TanjaOS.Account.Identity
import TanjaOS.Fs.Delete.Within

/-!
Home directories: what creating an account and deleting it with `-r` does to the filesystem stays
below `/home` and out of the homes of others, if that is where the name leads.
-/

open Lib

namespace TanjaOS

open absPath (Normal walk)

section Names

/--
`home`
-/
def homeName : Bytes :=
  [104, 111, 109, 101]

/--
Where the home directory of `name` is.
-/
def homeOf (name : Bytes) : Bytes :=
  absPath [slash] (homePath80 name)

/--
`/home/<component>` or a path below it, and no user of `others` is at home there. Root is not at home
below `/home`.
-/
structure InHome (others : List User) (x : Bytes) : Prop where
  below : ∃ c, Comp c ∧ Below [c, homeName] x
  foreign : ∀ u ∈ others, u.uid ≠ 0 → ¬AtOrBelow (homeOf u.username) x

/--
The home directory of `name`, or a subdirectory that the account gets.
-/
def HomeTree (name x : Bytes) : Prop :=
  x = homeOf name ∨ ∃ sub ∈ homeSubdirs, x = childPrefix (homeOf name) ++ sub

variable {cwd base sub name : Bytes}

theorem walk_absolute (hhead : base.head? = some slash) (hlen : base.length ≤ 511)
    : walk cwd base = (components base).foldl absPath.step ⟨[slash], []⟩ := by
  unfold walk absPath.combined
  rw [if_pos hhead, List.take_of_length_le hlen]

theorem head_homePath80 : (homePath80 name).head? = some slash := rfl

theorem length_homePath80 : (homePath80 name).length ≤ 78 := by
  unfold homePath80 homePrefix
  rw [List.length_append, List.length_take]
  simp only [List.length_cons, List.length_nil]
  omega

theorem zero_not_mem_homePath80 (hnul : 0 ∉ name) : 0 ∉ homePath80 name := by
  unfold homePath80
  rw [List.mem_append, not_or]
  exact ⟨by decide, fun hmem => hnul (List.mem_of_mem_take hmem)⟩

theorem homeSubdirPath_eq (hhead : base.head? = some slash) (hlen : base.length ≤ 255)
    : ∃ q, homeSubdirPath base sub = q ++ slash :: sub ∧ components base = components q
        ∧ q.length ≤ base.length ∧ (q ++ [slash]).head? = some slash ∧ ∀ b ∈ q, b ∈ base := by
  have hstr : strlenSafe base = base.length := by
    unfold strlenSafe
    omega
  obtain rfl | ⟨init, b, hinit⟩ := List.eq_nil_or_concat base
  . contradiction
  . rw [List.concat_eq_append] at hinit
    subst hinit
    have hback : (init ++ [b])[(init ++ [b]).length - 1]? = some b := by simp
    unfold homeSubdirPath
    dsimp only
    rw [hstr, hback, if_pos hhead]
    by_cases hb : b = slash
    . subst hb
      have htake : (init ++ [slash]).take ((init ++ [slash]).length - 1) = init := by simp
      have hone : components (init ++ [slash]) = components init := by
        rw [components_append_slash, components_nil, List.append_nil]
      rw [if_pos rfl, htake]
      by_cases hlast : init.getLast? = some slash
      . obtain ⟨q, rfl⟩ := List.getLast?_eq_some_iff.mp hlast
        rw [if_pos hlast]
        refine ⟨q, by simp, ?_, by simp, ?_, fun b hb => by simp [hb]⟩
        . rw [hone, components_append_slash, components_nil, List.append_nil]
        . rw [List.head?_append_of_ne_nil _ (by simp)] at hhead
          exact hhead
      . rw [if_neg hlast]
        exact ⟨init, by simp, hone, by simp, hhead, fun b hb => by simp [hb]⟩
    . have hlast : (init ++ [b]).getLast? ≠ some slash := by
        simpa using hb
      have hsome : ¬some b = some slash := fun heq => hb (Option.some.inj heq)
      rw [if_neg hsome, List.take_length, if_neg hlast]
      refine ⟨init ++ [b], by simp, rfl, Nat.le_refl _, ?_, fun _ hb => hb⟩
      rw [List.head?_append_of_ne_nil _ (by simp)]
      exact hhead

theorem length_step_le (st : absPath.State) (c : Bytes)
    : (absPath.step st c).out.length ≤ st.out.length + (c.length + 1) := by
  unfold absPath.step
  split
  . omega
  . split
    . split
      . omega
      . dsimp only
        rw [List.length_take]
        omega
    . split
      . omega
      . dsimp only
        rw [List.length_append, List.length_take]
        split
        . rw [List.length_append, List.length_singleton]
          omega
        . omega

theorem length_steps_le (st : absPath.State) (cs : List Bytes)
    : (cs.foldl absPath.step st).out.length ≤ st.out.length + cost cs := by
  induction cs generalizing st with
  | nil => exact Nat.le_refl _
  | cons c cs ih =>
    have hone := length_step_le st c
    have hrest := ih (absPath.step st c)
    rw [List.foldl_cons, cost_cons]
    omega

theorem normal_homePath80 (cwd name : Bytes)
    : ∃ cs, Normal cs (walk cwd (homePath80 name)) ∧ cost cs ≤ 79 := by
  have hlen := @length_homePath80 name
  have hcost := cost_components_head (@head_homePath80 name)
  have hle := length_steps_le ⟨[slash], []⟩ (components (homePath80 name))
  rw [← @walk_absolute cwd _ head_homePath80 (by omega)] at hle
  simp only [List.length_singleton] at hle
  obtain ⟨cs, hn⟩ : ∃ cs, Normal cs (walk cwd (homePath80 name)) :=
    absPath.normal_of_length (by omega)
  refine ⟨cs, hn, ?_⟩
  have hsep := length_render_le_sepd cs
  have hout := congrArg List.length hn.out
  have hfull := length_sepd cs
  by_cases hcs : cs = []
  . rw [hcs]
    exact Nat.zero_le _
  . rw [sepd_of_ne_nil hcs, List.length_append, List.length_singleton] at hfull
    omega

theorem homeOf_eq (cwd name : Bytes) : absPath cwd (homePath80 name) = homeOf name := by
  have hlen := @length_homePath80 name
  unfold homeOf
  rw [absPath_eq, absPath_eq, walk_absolute head_homePath80 (by omega),
    walk_absolute head_homePath80 (by omega)]

theorem homeSubdirs_comp : ∀ sub ∈ homeSubdirs, (sub ≠ [] ∧ slash ∉ sub ∧ sub ≠ [dot] ∧ sub ≠ [dot, dot])
    ∧ sub.length ≤ 9 ∧ 0 ∉ sub := by
  decide

theorem absPath_homeSubdirPath {cs : List Bytes} (hsub : sub ∈ homeSubdirs)
    (hn : Normal cs (walk cwd (homePath80 name))) (hcost : cost cs ≤ 79)
    : absPath cwd (homeSubdirPath (homePath80 name) sub) = sepd cs ++ sub := by
  obtain ⟨⟨hne, hslash, hdot, hdotdot⟩, hshort, _⟩ := homeSubdirs_comp sub hsub
  have hlen := @length_homePath80 name
  obtain ⟨q, heq, hcomps, hq, hhead, _⟩ :=
    @homeSubdirPath_eq (homePath80 name) sub head_homePath80 (by omega)
  have hhead' : (q ++ slash :: sub).head? = some slash := by
    rw [List.append_cons, List.head?_append_of_ne_nil _ (by simp)]
    exact hhead
  have hdepth := two_mul_length_le_cost (fun c hc => (hn.canon.comps c hc).ne_nil)
  rw [walk_absolute head_homePath80 (by omega), hcomps] at hn
  rw [heq, absPath_eq, walk_absolute hhead' (by simp; omega), components_append_slash,
    components_of_no_slash hslash, if_neg hne, List.foldl_append]
  exact (absPath.step_push hn ⟨hne, hslash, hdot, hdotdot⟩ (by omega)
    (by rw [length_sepd]; omega)).out

theorem render_homeOf (name : Bytes)
    : ∃ cs, (∀ cwd, Normal cs (walk cwd (homePath80 name))) ∧ homeOf name = render cs ∧ cost cs ≤ 79 := by
  have hlen := @length_homePath80 name
  obtain ⟨cs, hn, hcost⟩ := normal_homePath80 [slash] name
  refine ⟨cs, fun cwd => ?_, ?_, hcost⟩
  . rw [walk_absolute head_homePath80 (by omega)] at hn ⊢
    exact hn
  . unfold homeOf
    rw [absPath_eq]
    exact hn.out

theorem inTree_iff {x : Bytes} : InTree cwd (homePath80 name) x ↔ HomeTree name x := by
  obtain ⟨cs, hn, hout, hcost⟩ := render_homeOf name
  have hsub : ∀ sub ∈ homeSubdirs,
      absPath cwd (homeSubdirPath (homePath80 name) sub) = childPrefix (homeOf name) ++ sub := by
    intro sub hsub
    rw [absPath_homeSubdirPath hsub (hn cwd) hcost, hout, childPrefix_render (hn cwd).canon]
  unfold InTree InSubdirs HomeTree
  rw [homeOf_eq]
  constructor
  . rintro (h | ⟨sub, hmem, h⟩)
    . exact Or.inl h
    . exact Or.inr ⟨sub, hmem, h.trans (hsub sub hmem)⟩
  . rintro (h | ⟨sub, hmem, h⟩)
    . exact Or.inl h
    . exact Or.inr ⟨sub, hmem, h.trans (hsub sub hmem).symm⟩

theorem homeSubdirPath_no_nul (hnul : 0 ∉ name) (hsub : sub ∈ homeSubdirs)
    : sub ≠ [] ∧ 0 ∉ homeSubdirPath (homePath80 name) sub := by
  have hbase := zero_not_mem_homePath80 hnul
  have hlen := @length_homePath80 name
  obtain ⟨hcomp, _, hsub0⟩ := homeSubdirs_comp sub hsub
  obtain ⟨q, heq, _, _, _, hmem⟩ := @homeSubdirPath_eq (homePath80 name) sub head_homePath80 (by omega)
  rw [heq]
  simp only [List.mem_append, List.mem_cons, not_or]
  exact ⟨hcomp.1, fun hq => hbase (hmem 0 hq), by decide, hsub0⟩

theorem only_homeTree {s : FsState} (hnul : 0 ∉ name) (uid : Int32)
    : Only (HomeTree name) s (fsCreateHomeTree s (homePath80 name) uid).2 :=
  (only_fsCreateHomeTree (zero_not_mem_homePath80 hnul)
    (fun _ hsub => (homeSubdirPath_no_nul hnul hsub).2) uid).mono fun _ hx => inTree_iff.mp hx

theorem Below.below {as cs : List Bytes} {y : Bytes} (has : as ≠ []) (hcs : cs ≠ [])
    (h : Below as (render cs)) (hy : sepd cs <+: y)
    : Below as y := by
  right
  obtain heq | hpre := h
  . rw [sepd_of_ne_nil has, ← heq, ← sepd_of_ne_nil hcs]
    exact hy
  . rw [sepd_of_ne_nil hcs] at hy
    exact hpre.trans ((List.prefix_append _ _).trans hy)

theorem homeOf_ne_nil : homeOf name ≠ [] := by
  obtain ⟨cs, _, hout, _⟩ := render_homeOf name
  rw [hout]
  exact List.ne_nil_of_length_pos (length_render_pos cs)

theorem not_inHome_root {others : List User} : ¬InHome others [slash] := by
  intro hin
  obtain ⟨c, hc, heq | hpre⟩ := hin.below
  . have := congrArg List.length heq
    simp [render, sepd, homeName] at this
  . have := hpre.length_le
    simp [sepd, homeName] at this

theorem childPrefix_le {h k : Bytes} (hk : k ≠ []) (hle : childPrefix h <+: childPrefix k)
    : AtOrBelow h k := by
  by_cases hroot : k = [slash]
  . subst hroot
    exact Or.inr hle
  . have hsplit : childPrefix k = k ++ [slash] := if_neg hroot
    rw [hsplit, List.prefix_concat_iff] at hle
    obtain heq | hle := hle
    . by_cases hh : h = [slash]
      . subst hh
        exact absurd (List.append_cancel_right (heq.symm.trans (List.nil_append [slash]).symm)) hk
      . unfold childPrefix at heq
        rw [if_neg hh] at heq
        exact Or.inl (List.append_cancel_right heq).symm
    . exact Or.inr hle

theorem AtOrBelow.comparable {h k x : Bytes} (hh : h ≠ []) (hk : k ≠ []) (hx : AtOrBelow h x)
    (hx' : AtOrBelow k x)
    : AtOrBelow h k ∨ AtOrBelow k h := by
  obtain rfl | hpre := hx
  . exact Or.inr hx'
  . obtain rfl | hpre' := hx'
    . exact Or.inl (Or.inr hpre)
    . obtain hle | hle := List.prefix_or_prefix_of_prefix hpre hpre'
      . exact Or.inl (childPrefix_le hk hle)
      . exact Or.inr (childPrefix_le hh hle)

/--
The home directory of `name` is below `/home`, and nobody of `others` is at home around it or in it.
-/
structure OwnSubtree (others : List User) (name : Bytes) : Prop where
  own : InHome others (homeOf name)
  apart : ∀ u ∈ others, u.uid ≠ 0 → ¬AtOrBelow (homeOf name) (homeOf u.username)

theorem OwnSubtree.inHome {others : List User} {x : Bytes} (h : OwnSubtree others name)
    (hx : AtOrBelow (homeOf name) x)
    : InHome others x where
  below := by
    obtain ⟨cs, hn, hout, _⟩ := render_homeOf name
    obtain ⟨c, hc, hbelow⟩ := h.own.below
    obtain rfl | hpre := hx
    . exact ⟨c, hc, hbelow⟩
    . have hcs : cs ≠ [] := by
        rintro rfl
        exact not_inHome_root (hout ▸ h.own)
      rw [hout, childPrefix_render (hn []).canon] at hpre
      rw [hout] at hbelow
      exact ⟨c, hc, hbelow.below (by simp) hcs hpre⟩
  foreign u hu huid hx' := by
    obtain hle | hle := hx.comparable homeOf_ne_nil homeOf_ne_nil hx'
    . exact h.apart u hu huid hle
    . exact h.own.foreign u hu huid hle

end Names

section Chain

/--
Root has made the directory with the components `cs`, and those above it.
-/
structure Chain (cs : List Bytes) (s : FsState) : Prop where
  run : FsRun (fun s c => c.NoWrap s) (fsInit (.zeroed 64)) s
  uid : s.fsCurUid = 0
  files : ∀ x, ¬s.UsedFile x
  dirs : ∀ x, s.UsedDir x → ∃ as, as <:+ cs ∧ x = render as
  here : ∀ as, as <:+ cs → s.UsedDir (render as)
  slots : (Finset.univ.filter (fun i => s.dused i ≠ 0)).card ≤ cs.length + 1
  mode : ∀ i, s.dmode i = 0o755

variable {s : FsState} {cs : List Bytes} {c : Bytes}

theorem Chain.zero : Chain [] (fsInit (.zeroed 64)) where
  run := .refl
  uid := rfl
  files x := by
    rintro ⟨i, hi⟩
    exact not_isFile_fsInit hi
  dirs x := by
    rintro ⟨i, hi⟩
    rw [(isDir_fsInit.mp hi).2]
    exact ⟨[], List.suffix_rfl, rfl⟩
  here as has := by
    rw [List.suffix_nil.mp has]
    exact ⟨rootSlot, isDir_fsInit.mpr ⟨rfl, rfl⟩⟩
  slots := by
    have hone : Finset.univ.filter (fun i => (fsInit (.zeroed 64)).dused i ≠ 0) ⊆ {rootSlot} := by
      intro i hi
      rw [Finset.mem_filter] at hi
      rw [Finset.mem_singleton]
      by_contra hne
      exact hi.2 (if_neg hne)
    exact Finset.card_le_card hone
  mode _ := rfl

theorem Chain.parent (h : Chain cs s) (hcanon : Canon (c :: cs)) {path : Bytes}
    (habs : absPath s.cwd.str path = render (c :: cs))
    : parentExists s path := by
  have hslash := (hcanon.comps c (by simp)).no_slash
  unfold TanjaOS.parentExists
  dsimp only
  rw [habs]
  split
  . rfl
  . split
    . rfl
    . next hcut =>
      change fsDirectoryExists s (parentText (render (c :: cs))) = true
      by_cases hcs : cs = []
      . subst hcs
        have hone : lastCut (render [c]) = 1 := lastCut_append (a := []) hslash
        omega
      . have hone := (one_lt_length_render hcanon.tail.comps).mpr hcs
        have hne : render cs ≠ [] := by
          intro heq
          simp [heq] at hone
        have hroot : render cs ≠ [slash] := by
          intro heq
          simp [heq] at hone
        rw [render, parentText_sepd cs hslash, if_neg hcs]
        unfold fsDirectoryExists
        rw [if_neg hne, if_neg hroot, absPath_render hcanon.tail, dirIndex_isSome]
        exact h.here cs List.suffix_rfl

theorem Chain.free (h : Chain cs s) (hlen : cs.length < 62)
    : ∃ i, (List.finRange maxD).find? (fun i => 1 ≤ i.val ∧ s.dused i = 0) = some i := by
  cases hfind : (List.finRange maxD).find? (fun i => 1 ≤ i.val ∧ s.dused i = 0) with
  | some i => exact ⟨i, rfl⟩
  | none =>
    rw [List.find?_eq_none] at hfind
    have hall : Finset.univ.erase rootSlot ⊆ Finset.univ.filter (fun i => s.dused i ≠ 0) := by
      intro i hi
      rw [Finset.mem_erase] at hi
      rw [Finset.mem_filter]
      refine ⟨Finset.mem_univ i, fun hfree => ?_⟩
      have hpos : 1 ≤ i.val := by
        by_contra hzero
        apply hi.1
        apply Fin.ext
        change i.val = 0
        omega
      exact hfind i (List.mem_finRange i) (by simpa using ⟨hpos, hfree⟩)
    have hcard := Finset.card_le_card hall
    have hslots := h.slots
    rw [Finset.card_erase_of_mem (Finset.mem_univ _), Finset.card_univ, Fintype.card_fin] at hcard
    have hmax : maxD = 64 := rfl
    omega

theorem Chain.succ (h : Chain cs s) (hcanon : Canon (c :: cs)) (hnul : 0 ∉ render (c :: cs))
    (hlen : cs.length < 62)
    : ∃ s', Chain (c :: cs) s' := by
  let path : CStr := ⟨render (c :: cs), hnul⟩
  have habs : absPath s.cwd.str path = render (c :: cs) := absPath_render hcanon
  have hlong : (render cs).length < (render (c :: cs)).length := by
    have hpos := List.length_pos_of_ne_nil (hcanon.comps c (by simp)).ne_nil
    have hle := length_render_le_sepd cs
    rw [render.eq_2, List.length_append]
    omega
  have hnew : ¬s.UsedDir (render (c :: cs)) := by
    intro hused
    obtain ⟨as, has, heq⟩ := h.dirs _ hused
    have hle := (render_isPrefix_of_suffix has).length_le
    rw [← heq] at hle
    omega
  obtain ⟨i, hi⟩ := h.free hlen
  have hfree : s.dused i = 0 := by
    have := List.find?_some hi
    simp only [decide_eq_true_eq] at this
    exact this.2
  have hmake : fsCreateDirectory { s with fsCurUid := 0 } path
      = (0, { s with fsCurUid := 0, fsErrno := 0 }.addDir i (render (c :: cs))) := by
    have hne : path.val ≠ [] := by
      change render (c :: cs) ≠ []
      exact List.ne_nil_of_length_pos (length_render_pos _)
    have hroot : render (c :: cs) ≠ [slash] := by
      intro heq
      have := length_render_pos cs
      rw [heq, List.length_singleton] at hlong
      omega
    have hparent : parentExists { s with fsCurUid := 0, fsErrno := 0 } path = true :=
      h.parent hcanon habs
    have hdir : ¬(dirIndex { s with fsCurUid := 0, fsErrno := 0 } (render (c :: cs))).isSome := by
      rw [dirIndex_isSome]
      exact hnew
    have hfile : ¬(fileIndex { s with fsCurUid := 0, fsErrno := 0 } (render (c :: cs))).isSome := by
      rw [fileIndex_isSome]
      exact h.files _
    unfold fsCreateDirectory
    dsimp only
    rw [if_neg hne, if_neg (by simpa using hparent), habs, if_neg hroot, if_neg hdir, if_neg hfile,
      mayModifyParent_root rfl]
    dsimp only
    rw [hi]
  have hstep : FsCall.Step ⟨0, .createDirectory path⟩ s
      (fsCreateDirectory { s with fsCurUid := 0 } path).2 := FsCall.step 0 rfl
  have hmade := fun j x => @FsState.isDir_addDir { s with fsCurUid := 0, fsErrno := 0 }
    (render (c :: cs)) x i j hnul hcanon.len
  have hold : ∀ j x, s.IsDir j x → j ≠ i := by
    rintro j x hj rfl
    exact hj.1 hfree
  refine ⟨(fsCreateDirectory { s with fsCurUid := 0 } path).2, Run.call h.run hstep trivial, ?_, ?_, ?_, ?_, ?_,
    ?_⟩
  . rw [hmake]
    rfl
  . rw [hmake]
    exact h.files
  . rw [hmake]
    rintro x ⟨j, hj⟩
    obtain ⟨_, rfl⟩ | ⟨_, hj⟩ := (hmade j x).mp hj
    . exact ⟨c :: cs, List.suffix_rfl, rfl⟩
    . obtain ⟨as, has, rfl⟩ := h.dirs x ⟨j, hj⟩
      exact ⟨as, has.trans (List.suffix_cons c cs), rfl⟩
  . rw [hmake]
    intro as has
    obtain rfl | has := List.suffix_cons_iff.mp has
    . exact ⟨i, (hmade i _).mpr (Or.inl ⟨rfl, rfl⟩)⟩
    . obtain ⟨j, hj⟩ := h.here as has
      exact ⟨j, (hmade j _).mpr (Or.inr ⟨hold j _ hj, hj⟩)⟩
  . rw [hmake]
    have hsub : Finset.univ.filter (fun j => (Function.update s.dused i 1) j ≠ 0)
        ⊆ insert i (Finset.univ.filter (fun j => s.dused j ≠ 0)) := by
      intro j hj
      rw [Finset.mem_insert, Finset.mem_filter]
      rw [Finset.mem_filter] at hj
      by_cases hji : j = i
      . exact Or.inl hji
      . rw [Function.update_of_ne hji] at hj
        exact Or.inr hj
    exact Nat.le_trans (Finset.card_le_card hsub)
      (Nat.le_trans (Finset.card_insert_le _ _) (Nat.succ_le_succ h.slots))
  . rw [hmake]
    intro j
    by_cases hji : j = i
    . simp [FsState.addDir, hji]
    . simp [FsState.addDir, hji, h.mode j]

theorem Chain.all (hcanon : Canon cs) (hnul : 0 ∉ render cs) (hlen : cs.length < 62)
    : ∃ s, Chain cs s := by
  induction cs with
  | nil => exact ⟨_, Chain.zero⟩
  | cons c cs ih =>
    have htail : 0 ∉ render cs := by
      intro hmem
      exact hnul ((render_isPrefix cs c).subset hmem)
    rw [List.length_cons] at hlen
    obtain ⟨s, h⟩ := ih hcanon.tail htail (by omega)
    exact h.succ hcanon hnul (by omega)

theorem Chain.holds (h : Chain cs s) : Holds (render cs) (fun m => m = 0o755) s := by
  have hfile : fileIndex s (render cs) = none := by
    rw [fileIndex_eq_none]
    exact fun i hi => h.files _ ⟨i, hi⟩
  obtain ⟨d, hd⟩ := Option.isSome_iff_exists.mp (dirIndex_isSome.mpr (h.here cs List.suffix_rfl))
  exact .of_index hfile hd (h.mode d)

theorem Chain.fits (h : Chain cs s) (hinv : NsInv s) (d : Bytes) : ListingFits s d := by
  have hnil : childFiles s d = [] := by
    rw [List.eq_nil_iff_forall_not_mem]
    intro e he
    obtain ⟨x, hx, _⟩ := mem_childFiles.mp he
    exact h.files x hx
  rw [listingFits_iff hinv, room_iff _ _ (fun e he => childFiles_ne_nil he)]
  exact Or.inl hnil

end Chain

section Create

variable {name x : Bytes} {others : List User}

/--
A state that calls of the filesystem lead to, with no write that wraps around.
-/
def Reached (s : FsState) : Prop :=
  ∃ s₀ bytes, s₀.fpoolBytes = fsSetPool bytes ∧ FsRun (fun s c => c.NoWrap s) (fsInit s₀) s

/--
In the states that `P` allows, `op` touches only what is below `/home` and nobody's home of `others`.
-/
def StaysHome (P : FsState → Prop) (others : List User) (op : HomeOp) : Prop :=
  ∀ fuel s s', P s → op.exec fuel s = some s' → Only (InHome others) s s'

/--
The home directory of `name` and its subdirectories are below `/home` and nobody's home of `others`.
-/
def OwnHome (others : List User) (name : Bytes) : Prop :=
  ∀ x, HomeTree name x → InHome others x

theorem homeOf_no_nul (hnul : 0 ∉ name) : 0 ∉ homeOf name := by
  rw [← homeOf_eq (fsInit (.zeroed 64)).cwd.str]
  exact CStr.absPath_no_nul _ ⟨homePath80 name, zero_not_mem_homePath80 hnul⟩

theorem HomeTree.canon (h : HomeTree name x) (hnul : 0 ∉ name)
    : ∃ cs ds, homeOf name = render cs ∧ x = render ds ∧ cs <:+ ds ∧ Canon ds ∧ 0 ∉ render ds
      ∧ ds.length < 62 := by
  obtain ⟨cs, hn, hout, hcost⟩ := render_homeOf name
  have hcanon := (hn []).canon
  have hdepth := two_mul_length_le_cost (fun c hc => (hcanon.comps c hc).ne_nil)
  have hnul := homeOf_no_nul hnul
  obtain rfl | ⟨sub, hsub, rfl⟩ := h
  . refine ⟨cs, cs, hout, hout, List.suffix_rfl, hcanon, ?_, by omega⟩
    rw [← hout]
    exact hnul
  . obtain ⟨⟨hne, hslash, hdot, hdotdot⟩, hshort, hsub0⟩ := homeSubdirs_comp sub hsub
    have hrender : childPrefix (homeOf name) ++ sub = render (sub :: cs) := by
      rw [hout, childPrefix_render hcanon]
      rfl
    refine ⟨cs, sub :: cs, hout, hrender, List.suffix_cons sub cs,
      hcanon.cons ⟨hne, hslash, hdot, hdotdot⟩ (by omega) (by rw [length_sepd]; omega), ?_, by simp; omega⟩
    rw [← hrender, List.mem_append, not_or]
    refine ⟨?_, hsub0⟩
    unfold childPrefix
    split
    . decide
    . rw [List.mem_append, not_or]
      exact ⟨hnul, by decide⟩

theorem homeTree_taken (h : HomeTree name x) (hnul : 0 ∉ name) (uid : Int32)
    : ∃ s, Reached s ∧ (fsCreateHomeTree s (homePath80 name) uid).2.dirs x ≠ s.dirs x := by
  obtain ⟨cs, ds, hout, rfl, hsuffix, hcanon, hnulx, hlen⟩ := h.canon hnul
  obtain ⟨s, hs⟩ := Chain.all hcanon hnulx hlen
  refine ⟨s, ⟨.zeroed 64, 64, by decide, hs.run⟩, fun heq => ?_⟩
  have hne : homePath80 name ≠ [] := by simp [homePath80, homePrefix]
  have hexists : fsDirectoryExists { s with fsCurUid := 0 } (homePath80 name) = true := by
    unfold fsDirectoryExists
    rw [if_neg hne]
    split
    . rfl
    . rw [homeOf_eq, dirIndex_isSome, hout]
      exact hs.here cs hsuffix
  obtain ⟨v, hv, hmode⟩ := hs.holds.dir
  obtain ⟨v', hv', hmode'⟩ := (hs.holds.homeTree_private hne hexists (inTree_iff.mpr h)
    (fun _ hsub => homeSubdirPath_no_nul hnul hsub) uid).dir
  rw [heq, hv, Option.some.injEq] at hv'
  rw [← hv', hmode] at hmode'
  contradiction

theorem createHomeTree_stays (hnul : 0 ∉ name) (h : OwnHome others name) (uid : Int32)
    : StaysHome (fun _ => True) others (.createHomeTree (homePath80 name) uid) := by
  intro fuel s s' _ hexec
  rw [← Option.some.inj hexec]
  exact (only_homeTree hnul uid).mono h

theorem ownHome_of_stays (hnul : 0 ∉ name) {uid : Int32}
    (h : StaysHome Reached others (.createHomeTree (homePath80 name) uid))
    : OwnHome others name := by
  intro x hx
  by_contra hout
  obtain ⟨s, hs, hne⟩ := homeTree_taken hx hnul uid
  exact hne ((h 0 s _ hs rfl).dirs x hout)

end Create

section Delete

variable {s s' : FsState} {name : Bytes} {others : List User} {fuel : Nat}

/--
Each path that is put together for something below the home directory of `name` leads there.
-/
def HomeClean (s : FsState) (name : Bytes) : Prop :=
  ∀ x, s.Used x → homeOf name ++ [slash] <+: x → CanonText x
    ∧ newline ∉ x.drop ((homeOf name).length + 1)
    ∧ (slashed (homePath80 name)).length + (x.length - ((homeOf name).length + 1)) ≤ 255

theorem deleteTree_removed {n : Nat} (hroot : homeOf name ≠ [slash]) (hnul : 0 ∉ name)
    (hinv : DeleteInv s) (hclean : HomeClean s name) (hfits : ∀ d, s.UsedDir d → ListingFits s d)
    (hused : s.UsedDir (homeOf name)) (hfuel : 65 ≤ n)
    : ∃ s', fsDeleteDirectoryRecursive n s (homePath80 name) = some (0, s')
        ∧ Removed (fun x => x = homeOf name ∨ homeOf name ++ [slash] <+: x) s s' := by
  obtain ⟨cs, hn, hout, hcost⟩ := render_homeOf name
  have hcwd := homeOf_eq s.cwd.str name
  have hdel : Deletable s (homePath80 name) := by
    refine ⟨by simp [homePath80, homePrefix], ?_, ?_, ?_⟩
    . have hsame : absPath s.cwd.str (homeOf name) = homeOf name := by
        rw [hout]
        exact absPath_render (hn []).canon
      unfold fsDirectoryExists
      rw [hcwd, if_neg homeOf_ne_nil, if_neg hroot, hsame]
      rw [dirIndex_isSome]
      exact hused
    . intro hone
      simp [homePath80, homePrefix] at hone
    . rw [hcwd]
      exact hclean
  have hgone := @delete_subtree s n ⟨homePath80 name, zero_not_mem_homePath80 hnul⟩ hinv hdel
    (by rw [hcwd]; exact hused) (by rw [hcwd]; exact hroot) (fun d hd _ => hfits d hd) hfuel
  dsimp only at hgone
  rw [hcwd] at hgone
  exact hgone

theorem exists_homePath80_iff : fsDirectoryExists s (homePath80 name) ↔ s.UsedDir (homeOf name) := by
  have hnil : homePath80 name ≠ [] := by simp [homePath80, homePrefix]
  have hnot : homePath80 name ≠ [slash] := by simp [homePath80, homePrefix]
  unfold fsDirectoryExists
  rw [if_neg hnil, if_neg hnot, homeOf_eq, dirIndex_isSome]

theorem only_deleteTree {bs : List Block} (hroot : homeOf name ≠ [slash]) (hnul : 0 ∉ name)
    (htree : NsInv s) (hblocks : DataInv s bs) (hclean : HomeClean s name)
    (hrun : (HomeOp.deleteTree (homePath80 name)).exec fuel s = some s')
    : Only (AtOrBelow (homeOf name)) s s' := by
  obtain ⟨cs, hn, hout, _⟩ := render_homeOf name
  have hcs : cs ≠ [] := by
    rintro rfl
    exact hroot hout
  have hsepd : sepd cs = homeOf name ++ [slash] := by
    rw [sepd_of_ne_nil hcs, hout]
  have hlen := @length_homePath80 name
  have htidy : Tidy s (homePath80 name) cs := by
    refine ⟨htree, ⟨bs, hblocks⟩, zero_not_mem_homePath80 hnul, Or.inr ⟨?_, by omega⟩, hn _, hcs, ?_⟩
    . simp [homePath80, homePrefix]
    . rw [hsepd, List.length_append, List.length_singleton]
      exact hclean
  unfold HomeOp.exec at hrun
  dsimp only at hrun
  split at hrun
  . obtain ⟨⟨rc, t⟩, hcall, rfl⟩ := Option.map_eq_some_iff.mp hrun
    apply (htidy.pruned_delete hcall).only.mono
    rintro x (rfl | hpre)
    . exact Or.inl hout.symm
    . right
      rw [hout, childPrefix_render (hn []).canon]
      exact hpre
  . rw [← Option.some.inj hrun]
    exact .refl _ s

theorem deleteTree_stays (hnul : 0 ∉ name) (h : OwnSubtree others name)
    : StaysHome (fun s => Reached s ∧ HomeClean s name) others (.deleteTree (homePath80 name)) := by
  have hroot : homeOf name ≠ [slash] := fun heq => not_inHome_root (heq ▸ h.own)
  rintro fuel s s' ⟨⟨s₀, bytes, hpool, hrun⟩, hclean⟩ hexec
  have hinv := ContentInv.run hpool hrun s.fsCurUid
  obtain ⟨bs, hblocks⟩ := hinv.inv
  exact (only_deleteTree hroot hnul hinv.names hblocks hclean hexec).mono fun x hx => h.inHome hx

theorem deleteTree_taken {ds : List Bytes} (hroot : homeOf name ≠ [slash]) (hnul : 0 ∉ name)
    (hcanon : Canon ds) (hx : AtOrBelow (homeOf name) (render ds)) (hnulx : 0 ∉ render ds)
    (hline : newline ∉ (render ds).drop ((homeOf name).length + 1)) (hlen : (render ds).length ≤ 80)
    : ∃ s, Reached s ∧ HomeClean s name
        ∧ ∃ s', (HomeOp.deleteTree (homePath80 name)).exec 65 s = some s'
          ∧ s'.dirs (render ds) ≠ s.dirs (render ds) := by
  obtain ⟨cs, hn, hout, hcost⟩ := render_homeOf name
  have hcs : cs ≠ [] := by
    rintro rfl
    exact hroot hout
  have hsepd : sepd cs = homeOf name ++ [slash] := by
    rw [sepd_of_ne_nil hcs, hout]
  have hsuffix : cs <:+ ds := by
    obtain heq | hpre := hx
    . rw [hout] at heq
      rw [render_inj hcanon.comps (hn []).canon.comps heq]
    . rw [hout, childPrefix_render (hn []).canon] at hpre
      obtain ⟨es, d, heq, hcanon'⟩ := CanonText.split ⟨ds, hcanon, rfl⟩ (hn []).canon hcs hpre
      rw [render_inj hcanon.comps hcanon'.comps heq]
      exact ⟨es ++ [d], by simp⟩
  have hdepth := two_mul_length_le_cost (fun c hc => (hcanon.comps c hc).ne_nil)
  have hcost' := length_render_le_sepd ds
  have hfull := length_sepd ds
  have hds : ds ≠ [] := fun hnil => hcs (List.suffix_nil.mp (hnil ▸ hsuffix))
  rw [sepd_of_ne_nil hds, List.length_append, List.length_singleton] at hfull
  obtain ⟨s, hs⟩ := Chain.all hcanon hnulx (by omega)
  have hreached : Reached s := ⟨.zeroed 64, 64, by decide, hs.run⟩
  have hinv := @ContentInv.run (.zeroed 64) s 64 (by decide) hs.run s.fsCurUid
  have hslashed : (slashed (homePath80 name)).length ≤ 79 := by
    have := @length_homePath80 name
    unfold slashed
    split
    . omega
    . rw [List.length_append, List.length_singleton]
      omega
  have hclean : HomeClean s name := by
    intro y hy _
    obtain ⟨as, has, rfl⟩ := hs.dirs y (hy.resolve_left (hs.files y))
    have hpre := render_isPrefix_of_suffix has
    have hle := hpre.length_le
    exact ⟨⟨as, hcanon.of_suffix has, rfl⟩, fun hmem => hline ((hpre.drop _).subset hmem), by omega⟩
  obtain ⟨s', hcall, hrem⟩ := deleteTree_removed hroot hnul ⟨hinv.names, hinv.inv, hs.uid⟩ hclean
    (fun d _ => hs.fits hinv.names d) (by rw [hout]; exact hs.here cs hsuffix) (Nat.le_refl 65)
  refine ⟨s, hreached, hclean, s', ?_, ?_⟩
  . unfold HomeOp.exec
    dsimp only
    rw [if_pos (exists_homePath80_iff.mpr (by rw [hout]; exact hs.here cs hsuffix)), hcall]
    rfl
  . obtain ⟨v, hv, _⟩ := hs.holds.dir
    have hgone : s'.dirs (render ds) = none := by
      unfold FsState.dirs
      rw [Option.map_eq_none_iff, dirIndex_eq_none]
      intro i hi
      apply ((hrem.dirs i _).mp hi).2
      obtain heq | hpre := hx
      . exact Or.inl heq
      . right
        rw [← hsepd, ← childPrefix_render (hn []).canon, ← hout]
        exact hpre
    rw [hgone, hv]
    simp

theorem homeOf_no_newline (h : newline ∉ name) : newline ∉ homeOf name := by
  intro hmem
  obtain heq | hcwd | hname := mem_absPath hmem
  . exact absurd heq (by decide)
  . exact absurd hcwd (by decide)
  . unfold homePath80 at hname
    obtain hpre | hname := List.mem_append.mp hname
    . exact absurd hpre (by decide)
    . exact h (List.mem_of_mem_take hname)

theorem inHome_of_stays {x : Bytes} (hroot : homeOf name ≠ [slash]) (hnul : 0 ∉ name)
    (h : StaysHome (fun s => Reached s ∧ HomeClean s name) others (.deleteTree (homePath80 name)))
    {user : Bytes} (hx : AtOrBelow (homeOf name) x) (huser : x = homeOf user) (hnulu : 0 ∉ user)
    (hline : newline ∉ x.drop ((homeOf name).length + 1))
    : InHome others x := by
  by_contra hout
  obtain ⟨ds, hn, hds, hcost⟩ := render_homeOf user
  have hnulx := homeOf_no_nul hnulu
  have hlen := length_render_le_sepd ds
  have hfull := length_sepd ds
  rw [hds] at huser hnulx
  rw [huser] at hx hline hout
  obtain ⟨s, hs, hclean, s', hexec, hne⟩ := deleteTree_taken hroot hnul (hn []).canon hx hnulx hline
    (by omega)
  exact hne ((h 65 s s' ⟨hs, hclean⟩ hexec).dirs _ hout)

theorem ownSubtree_of_stays (hroot : homeOf name ≠ [slash]) (hnul : 0 ∉ name)
    (husers : ∀ u ∈ others, 0 ∉ u.username ∧ newline ∉ u.username)
    (h : StaysHome (fun s => Reached s ∧ HomeClean s name) others (.deleteTree (homePath80 name)))
    : OwnSubtree others name where
  own := by
    refine inHome_of_stays hroot hnul h (Or.inl rfl) rfl hnul ?_
    rw [List.drop_of_length_le (by omega)]
    simp
  apart u hu huid hx := by
    obtain ⟨hnulu, hline⟩ := husers u hu
    have hin := inHome_of_stays hroot hnul h hx rfl hnulu
      (fun hmem => homeOf_no_newline hline (List.mem_of_mem_drop hmem))
    exact hin.foreign u hu huid (Or.inl rfl)

end Delete

section Commands

variable {cur : Session} {acc acc' : Accounts} {input : CmdInput} {ops : List HomeOp}

theorem userAddFull_asks {name password : Bytes} {uid : Int32}
    : (userAddFull acc name password uid).2.2 = []
      ∨ ∃ newUid, (userAddFull acc name password uid).2.2 = [.createHomeTree (homePath80 name) newUid] := by
  unfold userAddFull
  split
  . exact Or.inl rfl
  . split
    . exact Or.inl rfl
    . split
      . exact Or.inl rfl
      . exact Or.inr ⟨_, rfl⟩

theorem cmdUseradd_asks (h : cmdUseradd cur acc input = some (acc', ops))
    : ops = [] ∨ ∃ name o uid, useraddRequest cur acc input = some (name, o)
        ∧ ops = [.createHomeTree (homePath80 name) uid] := by
  unfold cmdUseradd at h
  split at h
  . simp only [Option.some.injEq, Prod.mk.injEq] at h
    exact Or.inl h.2.symm
  . next name o hrequest =>
    have hadd : ∀ pass, (userAddFull acc name pass o.uid).2 = (acc', ops) →
        ops = [] ∨ ∃ name o uid, useraddRequest cur acc input = some (name, o)
          ∧ ops = [.createHomeTree (homePath80 name) uid] := by
      intro pass heq
      obtain hnone | ⟨uid, hone⟩ := @userAddFull_asks acc name pass o.uid
      . rw [heq] at hnone
        exact Or.inl hnone
      . rw [heq] at hone
        exact Or.inr ⟨name, o, uid, hrequest, hone⟩
    split at h
    . exact hadd _ (Option.some.inj h)
    . contradiction
    . dsimp only at h
      split at h
      . simp only [Option.some.injEq, Prod.mk.injEq] at h
        exact Or.inl h.2.symm
      . exact hadd _ (Option.some.inj h)

/--
What the wizard asks for when it has added `u`.
-/
def homeOp (u : User) : HomeOp :=
  .createHomeTree (homePath80 u.username) u.uid

theorem askUsers_asks {n : Nat} {typed rest : List CStr} {ops₀ : List HomeOp}
    (h : askUsers acc ops₀ n typed = some (acc', ops, rest))
    : ∃ users, acc'.users = acc.users ++ users ∧ ops = ops₀ ++ users.map homeOp
        ∧ ∀ u ∈ users, 0 ∉ u.username := by
  fun_induction askUsers acc ops₀ n typed with
  | case1 => contradiction
  | case2 => contradiction
  | case3 acc =>
    simp only [Option.some.injEq, Prod.mk.injEq] at h
    exact ⟨[], by simp [h.1], by simp [h.2.1], by simp⟩
  | case4 _ _ _ _ _ _ _ _ ih => exact ih h
  | case5 => contradiction
  | case6 => contradiction
  | case7 acc ops₀ n line typed ans _ _ name typed₁ hlogin pass typed₂ hpass _ acc₁ home hadd ih =>
    obtain ⟨hname, _, hfind, hlen⟩ := askLogin_ok hlogin
    obtain ⟨users, husers, hops, hnul⟩ := ih h
    have htake : name.take (maxUsername - 1) = name := List.take_of_length_le (by omega)
    have hsome : ¬(acc.userFind name).isSome := by
      rw [Accounts.userFind_isSome hname.ne_nil]
      exact hfind
    unfold userAdd userAddFull at hadd
    rw [if_neg hname.ne_nil, if_neg hsome] at hadd
    split at hadd
    . simp only [Prod.mk.injEq] at hadd
      obtain ⟨_, rfl, rfl⟩ := hadd
      exact ⟨users, husers, by simpa using hops, hnul⟩
    . simp only [Prod.mk.injEq] at hadd
      obtain ⟨_, rfl, rfl⟩ := hadd
      rw [htake] at husers
      refine ⟨_ :: users, husers.trans (List.append_cons _ _ _).symm, ?_, ?_⟩
      . rw [hops, List.append_assoc]
        rfl
      . intro u hu
        obtain rfl | hu := List.mem_cons.mp hu
        . exact hname.no_nul
        . exact hnul u hu

theorem setupWizard_asks {typed : List CStr} (h : setupWizard acc typed = some (acc', ops))
    : ops = (acc'.users.drop acc.users.length).map homeOp
      ∧ ∀ u ∈ acc'.users.drop acc.users.length, 0 ∉ u.username := by
  unfold setupWizard at h
  split at h
  . contradiction
  . next acc₁ typed₁ hask =>
    obtain ⟨pw, _, hset⟩ := askRootPassword_eq hask
    split at h
    . contradiction
    . contradiction
    . next acc₂ ops₂ line typed₂ husers =>
      simp only [Option.some.injEq, Prod.mk.injEq] at h
      obtain ⟨users, heq, hops, hnul⟩ := askUsers_asks husers
      have hlen : acc₁.users.length = acc.users.length := by
        rw [hset]
        simp [setPassword, Accounts.modifyUser]
      have hdrop : acc'.users.drop acc.users.length = users := by
        rw [← h.1, ← hlen]
        dsimp only
        rw [heq, List.drop_left]
      rw [hdrop, ← h.2, hops]
      exact ⟨rfl, hnul⟩

theorem cmdUserdel_asks (h : cmdUserdel cur acc input = some (acc', ops))
    : ops = [] ∨ ∃ name, userdelArgs {} (splitArgs (strncpyText 256 input.args input.behind) 16)
          = some ⟨true, some name⟩
        ∧ 0 ∉ name ∧ acc' = (userDel acc name).2 ∧ ops = [.deleteTree (homePath80 name)] := by
  unfold cmdUserdel at h
  split at h
  . exact Or.inl (Prod.mk.inj (Option.some.inj h)).2.symm
  . split at h
    . exact Or.inl (Prod.mk.inj (Option.some.inj h)).2.symm
    . next o hargs =>
      split at h
      . exact Or.inl (Prod.mk.inj (Option.some.inj h)).2.symm
      . next name hname =>
        obtain ⟨rmhome, oname⟩ := o
        dsimp only at hname h
        subst hname
        have hword : WordOk name := userdelArgs_ok hargs (by simp)
          (splitArgs_ok (strncpyText_no_nul input.args input.behind)) name rfl
        split at h
        . exact Or.inl (Prod.mk.inj (Option.some.inj h)).2.symm
        . split at h
          . exact Or.inl (Prod.mk.inj (Option.some.inj h)).2.symm
          . obtain ⟨hacc, hops⟩ := Prod.mk.inj (Option.some.inj h)
            cases rmhome with
            | false => exact Or.inl hops.symm
            | true => exact Or.inr ⟨name, hargs, hword.no_nul, hacc.symm, hops.symm⟩

/--
What `useradd`, `setup_wizard` and `userdel -r` do to the filesystem stays below `/home` and out of the
homes of others, if the names lead there, and an account is created only so.
-/
theorem account_commands_stay_home (cur : Session) (acc acc' : Accounts) (ops : List HomeOp)
    : (∀ input, cmdUseradd cur acc input = some (acc', ops) → ops = [] ∨
        ∃ name o uid, useraddRequest cur acc input = some (name, o)
          ∧ ops = [.createHomeTree (homePath80 name) uid]
          ∧ (OwnHome acc.users name →
            StaysHome (fun _ => True) acc.users (.createHomeTree (homePath80 name) uid))
          ∧ (StaysHome Reached acc.users (.createHomeTree (homePath80 name) uid) →
            OwnHome acc.users name))
      ∧ (∀ typed, setupWizard acc typed = some (acc', ops) →
        ops = (acc'.users.drop acc.users.length).map homeOp
          ∧ ∀ before u after, acc'.users = before ++ u :: after → acc.users.length ≤ before.length →
            (OwnHome before u.username → StaysHome (fun _ => True) before (homeOp u))
              ∧ (StaysHome Reached before (homeOp u) → OwnHome before u.username))
      ∧ ∀ input, cmdUserdel cur acc input = some (acc', ops) → ops = [] ∨
        ∃ name, userdelArgs {} (splitArgs (strncpyText 256 input.args input.behind) 16)
            = some ⟨true, some name⟩
          ∧ ops = [.deleteTree (homePath80 name)]
          ∧ (OwnSubtree acc'.users name →
            StaysHome (fun s => Reached s ∧ HomeClean s name) acc'.users
              (.deleteTree (homePath80 name)))
          ∧ (homeOf name ≠ [slash] → (∀ u ∈ acc'.users, 0 ∉ u.username ∧ newline ∉ u.username) →
            StaysHome (fun s => Reached s ∧ HomeClean s name) acc'.users
              (.deleteTree (homePath80 name)) →
            OwnSubtree acc'.users name) := by
  refine ⟨?_, ?_, ?_⟩
  . intro input hcmd
    obtain rfl | ⟨name, o, uid, hrequest, hops⟩ := cmdUseradd_asks hcmd
    . exact Or.inl rfl
    . have hnul := (useraddRequest_ok hrequest).1.no_nul
      exact Or.inr ⟨name, o, uid, hrequest, hops, fun h => createHomeTree_stays hnul h uid,
        ownHome_of_stays hnul⟩
  . intro typed hcmd
    obtain ⟨hops, hnuls⟩ := setupWizard_asks hcmd
    refine ⟨hops, fun before u after hsplit hlen => ?_⟩
    have hmem : u ∈ acc'.users.drop acc.users.length := by
      rw [hsplit, List.drop_append_of_le_length hlen]
      simp
    exact ⟨fun h => createHomeTree_stays (hnuls u hmem) h u.uid, ownHome_of_stays (hnuls u hmem)⟩
  . intro input hcmd
    obtain rfl | ⟨name, hargs, hnul, _, hops⟩ := cmdUserdel_asks hcmd
    . exact Or.inl rfl
    . exact Or.inr ⟨name, hargs, hops, deleteTree_stays hnul,
        fun hroot husers => ownSubtree_of_stays hroot hnul husers⟩

/--
The home of the account `..` is the root directory.
-/
theorem useradd_leaves_home
    : ¬∀ cur acc acc' input ops, cmdUseradd cur acc input = some (acc', ops) →
        ∀ op ∈ ops, StaysHome Reached acc.users op := by
  intro h
  have hasked : cmdUseradd rootSession bootAccounts
        (typed [45, 112, 32, 120, 32, 46, 46] (by decide))
      = some ((userAddFull bootAccounts [46, 46] [120] 0).2.1,
          [.createHomeTree (homePath80 [46, 46]) 1000]) := by
    decide +kernel
  have hstart : Reached (fsInit (.zeroed 64)) := ⟨.zeroed 64, 64, by decide, .refl⟩
  have honly := h rootSession bootAccounts _ _ _ hasked _ List.mem_cons_self 0 _ _ hstart rfl
  have hsame := honly.dirs [slash] not_inHome_root
  revert hsame
  decide +kernel

end Commands

end TanjaOS
