import TanjaOS.Fs.Delete.Reach
import TanjaOS.Fs.Delete.Success
import TanjaOS.Fs.Listing

/-!
What a recursive delete by root removes: the directory and what is below it, if every path that it
puts together leads to the entry that it is meant for.
-/

open Lib
open Lib.Tiling

namespace TanjaOS

open absPath (Normal walk)

structure DeleteInv (s : FsState) : Prop where
  names : NsInv s
  blocks : ∃ bs, DataInv s bs
  uid : s.fsCurUid = 0

/--
The names of `gone` are gone, all others are left with everything that belongs to them.
-/
structure Removed (gone : Bytes → Prop) (s t : FsState) : Prop where
  inv : DeleteInv t
  cwd : t.cwd = s.cwd
  dirs : ∀ i x, t.IsDir i x ↔ s.IsDir i x ∧ ¬gone x
  files : ∀ i x, t.IsFile i x ↔ s.IsFile i x ∧ ¬gone x
  same : ∀ i, t.fused i ≠ 0 → SameFile s t i
  fowner : t.fowner = s.fowner
  fmode : t.fmode = s.fmode
  downer : t.downer = s.downer
  dmode : t.dmode = s.dmode

namespace DeleteInv

variable {s : FsState} {e : Nat}

theorem errno (e : Nat) (h : DeleteInv s) : DeleteInv { s with fsErrno := e } := by
  obtain ⟨bs, hinv⟩ := h.blocks
  refine ⟨?_, ⟨bs, hinv.pool, hinv.held, hinv.distinct⟩, h.uid⟩
  exact h.names.congr ⟨rfl, rfl, rfl, rfl, rfl, rfl⟩

end DeleteInv

namespace Removed

variable {gone gone' : Bytes → Prop} {s t u : FsState} {x : Bytes}

theorem errno (e : Nat) (h : DeleteInv s) : Removed (fun _ => False) s { s with fsErrno := e } where
  inv := h.errno e
  cwd := rfl
  dirs _ _ := ⟨fun hx => ⟨hx, fun hno => hno⟩, fun hx => hx.1⟩
  files _ _ := ⟨fun hx => ⟨hx, fun hno => hno⟩, fun hx => hx.1⟩
  same _ _ := ⟨rfl, rfl, rfl⟩
  fowner := rfl
  fmode := rfl
  downer := rfl
  dmode := rfl

theorem refl (h : DeleteInv s) : Removed (fun _ => False) s s :=
  errno s.fsErrno h

theorem usedDir (h : Removed gone s t) : t.UsedDir x ↔ s.UsedDir x ∧ ¬gone x := by
  unfold FsState.UsedDir
  simp only [h.dirs, exists_and_right]

theorem usedFile (h : Removed gone s t) : t.UsedFile x ↔ s.UsedFile x ∧ ¬gone x := by
  unfold FsState.UsedFile
  simp only [h.files, exists_and_right]

theorem used (h : Removed gone s t) : t.Used x ↔ s.Used x ∧ ¬gone x := by
  unfold FsState.Used
  rw [h.usedDir, h.usedFile, or_and_right]

theorem trans (h : Removed gone s t) (h' : Removed gone' t u)
    : Removed (fun x => gone x ∨ gone' x) s u where
  inv := h'.inv
  cwd := h'.cwd.trans h.cwd
  dirs i x := by
    rw [h'.dirs, h.dirs, not_or, and_assoc]
  files i x := by
    rw [h'.files, h.files, not_or, and_assoc]
  same i hused := by
    have hfile := ((h'.files i _).mp ⟨hused, rfl⟩).1
    exact (h.same i hfile.1).trans (h'.same i hused)
  fowner := h'.fowner.trans h.fowner
  fmode := h'.fmode.trans h.fmode
  downer := h'.downer.trans h.downer
  dmode := h'.dmode.trans h.dmode

theorem congr (h : Removed gone s t) (heq : ∀ x, s.Used x → (gone x ↔ gone' x))
    : Removed gone' s t where
  inv := h.inv
  cwd := h.cwd
  dirs i x := by
    rw [h.dirs]
    constructor
    . rintro ⟨hx, hno⟩
      exact ⟨hx, fun hgone => hno ((heq x (Or.inr ⟨i, hx⟩)).mpr hgone)⟩
    . rintro ⟨hx, hno⟩
      exact ⟨hx, fun hgone => hno ((heq x (Or.inr ⟨i, hx⟩)).mp hgone)⟩
  files i x := by
    rw [h.files]
    constructor
    . rintro ⟨hx, hno⟩
      exact ⟨hx, fun hgone => hno ((heq x (Or.inl ⟨i, hx⟩)).mpr hgone)⟩
    . rintro ⟨hx, hno⟩
      exact ⟨hx, fun hgone => hno ((heq x (Or.inl ⟨i, hx⟩)).mp hgone)⟩
  same := h.same
  fowner := h.fowner
  fmode := h.fmode
  downer := h.downer
  dmode := h.dmode

end Removed

section Steps

variable {s : FsState}

theorem DeleteInv.file {path : CStr} (h : DeleteInv s) (hne : path.val ≠ [])
    (hused : s.UsedFile (absPath s.cwd.str path))
    : (fsDeleteFile s path).1 = 0
        ∧ Removed (fun x => x = absPath s.cwd.str path) s (fsDeleteFile s path).2 := by
  have hdel := fsDeleteFile_deletes s path
  obtain ⟨bs, hinv⟩ := h.blocks
  have herr : DataInv { s with fsErrno := 0 } bs := ⟨hinv.pool, hinv.held, hinv.distinct⟩
  rw [← fileIndex_isSome] at hused
  obtain ⟨i, hi⟩ := Option.isSome_iff_exists.mp hused
  have hfile := fileIndex_eq_some hi
  have hi' : fileIndex { s with fsErrno := 0 } (absPath s.cwd.str path) = some i := hi
  have heq : fsDeleteFile s path = (0, ({ s with fsErrno := 0 }.dropFile i).freeData i) := by
    unfold fsDeleteFile
    dsimp only
    rw [if_neg hne, mayModifyParent_root (s := { s with fsErrno := 0 }) h.uid]
    dsimp only
    rw [hi']
  obtain ⟨bs', hblocks⟩ := hinv.prims (g := { Grant.any with wild := False }) (fun hwild => hwild)
    (hdel.prims _ trivial trivial)
  have hnames := hdel.inv h.names
  obtain ⟨hdropped, hother⟩ := herr.dropFile i
  obtain ⟨_, _, _, _, hother'⟩ := hdropped.freeData i
  rw [heq] at hblocks hnames ⊢
  have hfiles : ∀ j x, (({ s with fsErrno := 0 }.dropFile i).freeData i).IsFile j x
      ↔ s.IsFile j x ∧ ¬x = absPath s.cwd.str path := by
    intro j x
    have hdrop : (({ s with fsErrno := 0 }.dropFile i).freeData i).IsFile j x
        ↔ j ≠ i ∧ s.IsFile j x := @FsState.isFile_dropFile { s with fsErrno := 0 } x i j
    rw [hdrop]
    constructor
    . rintro ⟨hne, hj⟩
      refine ⟨hj, ?_⟩
      rintro rfl
      exact hne (h.names.file_unique j i _ hj hfile)
    . rintro ⟨hj, hx⟩
      refine ⟨?_, hj⟩
      rintro rfl
      exact hx (hj.2.symm.trans hfile.2)
  refine ⟨rfl, ⟨hnames, ⟨bs', hblocks⟩, h.uid⟩, rfl, ?_, hfiles, ?_, rfl, rfl, rfl, rfl⟩
  . intro j x
    constructor
    . intro hj
      refine ⟨hj, ?_⟩
      rintro rfl
      exact h.names.disjoint _ ⟨i, hfile⟩ ⟨j, hj⟩
    . exact fun hj => hj.1
  . intro j hj
    have hij : j ≠ i := by
      rintro rfl
      exact hj (by simp [FsState.freeData, FsState.dropFile])
    have hsame : SameFile s { s with fsErrno := 0 } j := ⟨rfl, rfl, rfl⟩
    exact hsame.trans ((hother j hij).trans (hother' j hij))

theorem prefix_of_isDirectChild {y x : Bytes} (hy : y.length ≤ 255) (h : isDirectChild y x)
    : y ++ [slash] <+: x := by
  have hlen : strlenSafe y = y.length := by
    unfold strlenSafe
    omega
  unfold isDirectChild at h
  rw [hlen] at h
  simp only [decide_eq_true_eq, List.take_length] at h
  obtain ⟨_, htake, hslash, _⟩ := h
  have hdrop : x.drop y.length = slash :: x.drop (y.length + 1) := by
    rw [List.drop_eq_getElem?_toList_append, hslash]
    rfl
  refine ⟨x.drop (y.length + 1), ?_⟩
  rw [List.append_assoc, List.singleton_append, ← hdrop]
  conv => rhs; rw [← List.take_append_drop y.length x, htake]

theorem DeleteInv.directory {path : CStr} (h : DeleteInv s) (hne : path.val ≠ [])
    (hused : s.UsedDir (absPath s.cwd.str path)) (hroot : absPath s.cwd.str path ≠ [slash])
    (hempty : ∀ x, s.Used x → ¬absPath s.cwd.str path ++ [slash] <+: x)
    : (fsDeleteDirectory s path).1 = 0
        ∧ Removed (fun x => x = absPath s.cwd.str path) s (fsDeleteDirectory s path).2 := by
  have hdel := fsDeleteDirectory_deletes s path
  have hlen := (absPath_text s.cwd.str path).length_le
  obtain ⟨bs, hinv⟩ := h.blocks
  rw [← dirIndex_isSome] at hused
  obtain ⟨i, hi⟩ := Option.isSome_iff_exists.mp hused
  have hdir := dirIndex_eq_some hi
  have hi' : dirIndex { s with fsErrno := 0 } (absPath s.cwd.str path) = some i := hi
  have hpath : path.val ≠ [slash] := by
    intro heq
    rw [heq] at hroot
    exact hroot (absPath_render Canon.nil)
  have heq : fsDeleteDirectory s path = (0, { s with fsErrno := 0 }.dropDir i) := by
    unfold fsDeleteDirectory
    dsimp only
    rw [if_neg hne, mayModifyParent_root (s := { s with fsErrno := 0 }) h.uid]
    dsimp only
    rw [if_neg hne, if_neg hpath, if_neg, if_neg, hi']
    . rintro ⟨j, hj, _, hchild⟩
      exact hempty _ (Or.inr ⟨j, hj, rfl⟩) (prefix_of_isDirectChild hlen hchild)
    . rintro ⟨j, hj, hchild⟩
      exact hempty _ (Or.inl ⟨j, hj, rfl⟩) (prefix_of_isDirectChild hlen hchild)
  obtain ⟨bs', hblocks⟩ := hinv.prims (g := { Grant.any with wild := False }) (fun hwild => hwild)
    (hdel.prims _ trivial trivial)
  have hnames := hdel.inv h.names
  rw [heq] at hblocks hnames ⊢
  refine ⟨rfl, ⟨hnames, ⟨bs', hblocks⟩, h.uid⟩, rfl, ?_, ?_, ?_, rfl, rfl, rfl, rfl⟩
  . intro j x
    have hdrop : ({ s with fsErrno := 0 }.dropDir i).IsDir j x ↔ j ≠ i ∧ s.IsDir j x :=
      @FsState.isDir_dropDir { s with fsErrno := 0 } x i j
    rw [hdrop]
    constructor
    . rintro ⟨hne, hj⟩
      refine ⟨hj, ?_⟩
      rintro rfl
      exact hne (h.names.dir_unique j i _ hj hdir)
    . rintro ⟨hj, hx⟩
      refine ⟨?_, hj⟩
      rintro rfl
      exact hx (hj.2.symm.trans hdir.2)
  . intro j x
    constructor
    . intro hj
      refine ⟨hj, ?_⟩
      rintro rfl
      exact h.names.disjoint _ ⟨j, hj⟩ ⟨i, hdir⟩
    . exact fun hj => hj.1
  . exact fun j _ => ⟨rfl, rfl, rfl⟩

end Steps

section Names

variable {cs ds : List Bytes} {c d x : Bytes}

theorem childPrefix_render (h : Canon cs) : childPrefix (render cs) = sepd cs :=
  sepd_of_canon h

theorem sepd_of_ne_nil (h : cs ≠ []) : sepd cs = render cs ++ [slash] := by
  rw [sepd_eq, if_neg h]

theorem sepd_isPrefix (ds cs : List Bytes) : sepd cs <+: sepd (ds ++ cs) := by
  induction ds with
  | nil => exact List.prefix_refl _
  | cons d ds ih =>
    rw [List.cons_append, sepd, List.append_assoc]
    exact ih.trans (List.prefix_append _ _)

theorem render_isPrefix_of_suffix {as cs : List Bytes} (h : as <:+ cs) : render as <+: render cs := by
  obtain ⟨ds, rfl⟩ := h
  cases ds with
  | nil => exact List.prefix_refl _
  | cons d ds =>
    have hself : render as <+: sepd as := by simpa using render_isPrefix as []
    rw [List.cons_append, render.eq_2]
    exact (hself.trans (sepd_isPrefix ds as)).trans (List.prefix_append _ _)

theorem Canon.of_suffix {as cs : List Bytes} (h : Canon cs) (has : as <:+ cs) : Canon as where
  comps c hc := h.comps c (has.mem hc)
  depth := Nat.le_trans has.length_le h.depth
  len := Nat.le_trans (render_isPrefix_of_suffix has).length_le h.len

theorem CanonText.split (h : CanonText x) (hcs : Canon cs) (hne : cs ≠ []) (hpre : sepd cs <+: x)
    : ∃ ds d, x = render (ds ++ d :: cs) ∧ Canon (ds ++ d :: cs) := by
  obtain ⟨es, hcanon, rfl⟩ := h
  obtain ⟨r, hr⟩ := hpre
  rw [sepd_of_ne_nil hne, List.append_assoc, List.singleton_append] at hr
  have hcomps := congrArg components hr
  rw [components_append_slash, components_render hcs.comps, components_render hcanon.comps] at hcomps
  have hes : es = (components r).reverse ++ cs := by
    have := congrArg List.reverse hcomps
    rw [List.reverse_append, List.reverse_reverse, List.reverse_reverse] at this
    exact this.symm
  rcases List.eq_nil_or_concat (components r).reverse with hnil | ⟨ds, d, hds⟩
  . rw [hnil, List.nil_append] at hes
    have := congrArg List.length hr
    rw [hes] at this
    simp at this
  . refine ⟨ds, d, ?_, ?_⟩
    . rw [hes, hds]
      simp
    . rw [hes, hds] at hcanon
      simpa using hcanon

theorem CanonText.kid (h : CanonText (sepd cs ++ c)) (hcs : Canon cs) (hne : cs ≠ [])
    (hslash : slash ∉ c) (hc : c ≠ [])
    : Canon (c :: cs) := by
  obtain ⟨es, hcanon, heq⟩ := h
  rw [sepd_of_ne_nil hne, List.append_assoc, List.singleton_append] at heq
  have hcomps := congrArg components heq
  rw [components_append_slash, components_render hcs.comps, components_render hcanon.comps,
    components_of_no_slash hslash, if_neg hc] at hcomps
  have hes : es = c :: cs := by
    have := congrArg List.reverse hcomps
    simpa using this.symm
  rwa [hes] at hcanon

theorem NsInv.ancestor {s : FsState} (h : NsInv s) (hcanon : Canon (ds ++ d :: cs))
    (hused : s.Used (render (ds ++ d :: cs)))
    : ds ≠ [] → s.UsedDir (render (d :: cs)) := by
  induction ds with
  | nil => exact fun hnil => absurd rfl hnil
  | cons e ds ih =>
    intro _
    have htail : Canon (ds ++ d :: cs) := hcanon.tail
    have hparent : s.UsedDir (render (ds ++ d :: cs)) := by
      apply h.parent _ _ hused htail (by simp)
      rw [List.cons_append, render, parentText_sepd _ (hcanon.comps e (by simp)).no_slash,
        if_neg (by simp)]
    by_cases hds : ds = []
    . rw [hds] at hparent
      exact hparent
    . exact ih htail (Or.inr hparent) hds

end Names

section Fits

variable {gone : Bytes → Prop} {s t : FsState} {d : Bytes}

theorem Room.mono {n m : Nat} {cs ds : List Bytes} (h : Room n cs) (hle : m ≤ n)
    (hsub : ds.Sublist cs)
    : Room m ds := by
  induction hsub generalizing n m with
  | slnil => trivial
  | cons c _ ih => exact ih h.2.2 (by omega)
  | cons_cons c _ ih =>
    obtain ⟨h₁, h₂, h₃⟩ := h
    exact ⟨by omega, by omega, ih h₃ (by omega)⟩

theorem Removed.fileNames (h : Removed gone s t) : (fileNames t).Sublist (fileNames s) := by
  have hused : ∀ i, t.fused i ≠ 0 → s.fused i ≠ 0 ∧ (t.fname i).str = (s.fname i).str := by
    intro i hi
    obtain ⟨⟨hi', heq⟩, _⟩ := (h.files i _).mp ⟨hi, rfl⟩
    exact ⟨hi', heq.symm⟩
  unfold TanjaOS.fileNames
  have hmap : ((List.finRange maxF).filter (fun i => t.fused i ≠ 0)).map (fun i => (t.fname i).str)
      = ((List.finRange maxF).filter (fun i => t.fused i ≠ 0)).map (fun i => (s.fname i).str) := by
    apply List.map_congr_left
    intro i hi
    simp only [List.mem_filter, decide_eq_true_eq] at hi
    exact (hused i hi.2).2
  rw [hmap]
  apply List.Sublist.map
  apply List.monotone_filter_right
  intro i hi
  simp only [decide_eq_true_eq] at hi ⊢
  exact (hused i hi).1

theorem Removed.dirNames (h : Removed gone s t) : (dirNames t).Sublist (dirNames s) := by
  have hused : ∀ i, t.dused i ≠ 0 → s.dused i ≠ 0 ∧ (t.dname i).str = (s.dname i).str := by
    intro i hi
    obtain ⟨⟨hi', heq⟩, _⟩ := (h.dirs i _).mp ⟨hi, rfl⟩
    exact ⟨hi', heq.symm⟩
  unfold TanjaOS.dirNames
  have hmap : ((List.finRange maxD).filter (fun i => 1 ≤ i.val ∧ t.dused i ≠ 0)).map
        (fun i => (t.dname i).str)
      = ((List.finRange maxD).filter (fun i => 1 ≤ i.val ∧ t.dused i ≠ 0)).map
        (fun i => (s.dname i).str) := by
    apply List.map_congr_left
    intro i hi
    simp only [List.mem_filter, decide_eq_true_eq] at hi
    exact (hused i hi.2.2).2
  rw [hmap]
  apply List.Sublist.map
  apply List.monotone_filter_right
  intro i hi
  simp only [decide_eq_true_eq] at hi ⊢
  exact ⟨hi.1, (hused i hi.2).1⟩

theorem Removed.listingFits (h : Removed gone s t) (hs : NsInv s) (hfits : ListingFits s d)
    : ListingFits t d := by
  rw [listingFits_iff hs] at hfits
  rw [listingFits_iff h.inv.names]
  apply hfits.mono
  . have hdirs : (childDirs t d).Sublist (childDirs s d) := h.dirNames.filterMap _
    exact (hdirs.flatMap _).length_le
  . exact h.fileNames.filterMap _

end Fits

/--
A path with the components `cs`, not the root, such that the paths that are put together behind it for
the names below lead to them.
-/
structure Tidy (s : FsState) (path : Bytes) (cs : List Bytes) : Prop where
  tree : NsInv s
  blocks : ∃ bs, DataInv s bs
  nul : 0 ∉ path
  proper : Proper path
  walk : Normal cs (walk s.cwd.str path)
  ne_root : cs ≠ []
  names : ∀ x, s.Used x → sepd cs <+: x → CanonText x ∧ newline ∉ x.drop (sepd cs).length
    ∧ (slashed path).length + (x.length - (sepd cs).length) ≤ 255

structure Ready (s : FsState) (path : Bytes) (cs : List Bytes) : Prop extends Tidy s path cs where
  uid : s.fsCurUid = 0
  used : s.UsedDir (render cs)
  fits : ∀ d, s.UsedDir d → Below cs d → ListingFits s d

def GoneBy (cs : List Bytes) (e x : Bytes) : Prop :=
  if e.getLast? = some slash then Below (e.dropLast :: cs) x else x = sepd cs ++ e

structure Kid (path : Bytes) (cs : List Bytes) (c : Bytes) : Prop where
  canon : Canon (c :: cs)
  line : newline ∉ c
  len : (slashed path).length + c.length ≤ 255
  nul : 0 ∉ c

namespace Tidy

variable {s : FsState} {path : Bytes} {cs : List Bytes} {c e x : Bytes}

theorem out (h : Tidy s path cs) : absPath s.cwd.str path = render cs := by
  rw [absPath_eq]
  exact h.walk.out

theorem kid (h : Tidy s path cs) (hused : s.Used (sepd cs ++ c)) (hslash : slash ∉ c) (hc : c ≠ [])
    : Kid path cs c := by
  obtain ⟨hcanon, hnl, hlen⟩ := h.names _ hused (List.prefix_append _ _)
  rw [List.drop_left] at hnl
  rw [List.length_append, Nat.add_sub_cancel_left] at hlen
  refine ⟨hcanon.kid h.walk.canon h.ne_root hslash hc, hnl, hlen, fun hmem => ?_⟩
  obtain ⟨i, hi⟩ | ⟨i, hi⟩ := hused
  . exact Buf.zero_not_mem_str (s.fname i) (by rw [hi.2]; simp [hmem])
  . exact Buf.zero_not_mem_str (s.dname i) (by rw [hi.2]; simp [hmem])

theorem child_eq (h : Tidy s path cs) (hlen : (slashed path).length + c.length ≤ 255)
    : childPath path c = slashed path ++ c := by
  rw [childPath_eq h.proper, List.take_of_length_le (by omega)]

theorem child_walk (h : Tidy s path cs) (hcanon : Canon (c :: cs))
    (hlen : (slashed path).length + c.length ≤ 255)
    : Normal (c :: cs) (absPath.walk s.cwd.str (slashed path ++ c)) := by
  have hcomp := hcanon.comps c (by simp)
  have hdepth := hcanon.depth
  have htext := hcanon.len
  rw [List.length_cons] at hdepth
  rw [render, List.length_append] at htext
  rw [walk_child h.proper h.tree.cwd.length_le hcomp.no_slash hlen, if_neg hcomp.ne_nil]
  exact absPath.step_push h.walk hcomp (by omega) htext

theorem child_nul (h : Tidy s path cs) (hc : 0 ∉ c) : 0 ∉ slashed path ++ c := by
  have hpath : 0 ∉ slashed path := by
    unfold slashed
    split
    . exact h.nul
    . rw [List.mem_append, not_or]
      exact ⟨h.nul, by decide⟩
  rw [List.mem_append, not_or]
  exact ⟨hpath, hc⟩

theorem child (h : Tidy s path cs) (hkid : Kid path cs c) : Tidy s (slashed path ++ c) (c :: cs) := by
  have hcomp := hkid.canon.comps c (by simp)
  have hlen := hkid.len
  have hpos := List.length_pos_of_ne_nil hcomp.ne_nil
  have hpath := h.proper.ne_nil
  have hlong := List.length_pos_of_ne_nil hpath
  have hle := length_le_slashed path
  have hpre : sepd (c :: cs) = sepd cs ++ (c ++ [slash]) := by
    rw [sepd, List.append_assoc]
  refine ⟨h.tree, h.blocks, h.child_nul hkid.nul, ?_, h.child_walk hkid.canon hlen, by simp, ?_⟩
  . right
    rw [List.length_append]
    omega
  . intro x hx hbelow
    obtain ⟨htext, hnl', hlen'⟩ := h.names x hx ((sepd_isPrefix [c] cs).trans hbelow)
    have hlong := hbelow.length_le
    have hsum : (sepd (c :: cs)).length = (sepd cs).length + (c.length + 1) := by
      rw [hpre, List.length_append, List.length_append, List.length_singleton]
    refine ⟨htext, ?_, ?_⟩
    . rw [hsum, ← List.drop_drop]
      exact fun hmem => hnl' (List.mem_of_mem_drop hmem)
    . rw [length_slashed_append path hcomp.no_slash hcomp.ne_nil (by omega)]
      simp only [List.length_append, List.length_singleton]
      omega

theorem childOf_iff (h : Tidy s path cs)
    : ChildOf (render cs) x c ↔ x = sepd cs ++ c ∧ c ≠ [] ∧ slash ∉ c := by
  rw [← childPrefix_render h.walk.canon]
  constructor
  . exact fun hc => ⟨hc.name, hc.ne_nil, hc.component⟩
  . exact fun hc => ⟨hc.1, hc.2.1, hc.2.2⟩

theorem entry_iff (h : Tidy s path cs)
    : IsEntry s (render cs) e
      ↔ (∃ c, s.UsedDir (sepd cs ++ c) ∧ c ≠ [] ∧ slash ∉ c ∧ e = c ++ [slash])
        ∨ (s.UsedFile (sepd cs ++ e) ∧ e ≠ [] ∧ slash ∉ e) := by
  unfold IsEntry
  simp only [h.childOf_iff]
  constructor
  . rintro (⟨x, c, hx, ⟨rfl, hc, hslash⟩, rfl⟩ | ⟨x, hx, rfl, he, hslash⟩)
    . exact Or.inl ⟨c, hx, hc, hslash, rfl⟩
    . exact Or.inr ⟨hx, he, hslash⟩
  . rintro (⟨c, hx, hc, hslash, rfl⟩ | ⟨hx, he, hslash⟩)
    . exact Or.inl ⟨_, c, hx, ⟨rfl, hc, hslash⟩, rfl⟩
    . exact Or.inr ⟨_, hx, rfl, he, hslash⟩

theorem entry_kid (h : Tidy s path cs) (he : IsEntry s (render cs) e)
    : (∃ c, Kid path cs c ∧ e = c ++ [slash]) ∨ Kid path cs e := by
  obtain ⟨c, hdir, hc, hslash, rfl⟩ | ⟨hfile, hne, hslash⟩ := h.entry_iff.mp he
  . exact Or.inl ⟨c, h.kid (Or.inr hdir) hslash hc, rfl⟩
  . exact Or.inr (h.kid (Or.inl hfile) hslash hne)

theorem entry_line (h : Tidy s path cs) (he : IsEntry s (render cs) e) : newline ∉ e ∧ e.length ≤ 255 := by
  have hpos := length_le_slashed path
  have hpath := List.length_pos_of_ne_nil h.proper.ne_nil
  obtain ⟨c, hkid, rfl⟩ | hkid := h.entry_kid he
  . have hlen := hkid.len
    rw [List.mem_append, not_or, List.length_append, List.length_singleton]
    exact ⟨⟨hkid.line, by decide⟩, by omega⟩
  . have hlen := hkid.len
    exact ⟨hkid.line, by omega⟩

end Tidy

namespace Ready

variable {s t : FsState} {path : Bytes} {cs : List Bytes} {c e x : Bytes} {gone : Bytes → Prop}

theorem inv (h : Ready s path cs) : DeleteInv s :=
  ⟨h.tree, h.blocks, h.uid⟩

theorem subdirectory (h : Ready s path cs) (hused : s.UsedDir (sepd cs ++ c)) (hkid : Kid path cs c)
    : Ready s (slashed path ++ c) (c :: cs) :=
  ⟨h.child hkid, h.uid, hused, fun d hd hbelow => h.fits d hd hbelow.of_kid⟩

theorem removed (h : Ready s path cs) (hrem : Removed gone s t) (hself : ¬gone (render cs))
    : Ready t path cs where
  tree := hrem.inv.names
  blocks := hrem.inv.blocks
  nul := h.nul
  proper := h.proper
  walk := by
    rw [hrem.cwd]
    exact h.walk
  ne_root := h.ne_root
  uid := hrem.inv.uid
  used := hrem.usedDir.mpr ⟨h.used, hself⟩
  names x hx hbelow := h.names x (hrem.used.mp hx).1 hbelow
  fits d hd hbelow := hrem.listingFits h.inv.names (h.fits d (hrem.usedDir.mp hd).1 hbelow)

theorem goneBy_dir : GoneBy cs (c ++ [slash]) x ↔ Below (c :: cs) x := by
  unfold GoneBy
  rw [List.getLast?_append_of_ne_nil _ (by simp), if_pos (by simp), List.dropLast_concat]

theorem goneBy_file (hslash : slash ∉ e) : GoneBy cs e x ↔ x = sepd cs ++ e := by
  unfold GoneBy
  rw [if_neg]
  exact fun hlast => hslash (List.mem_of_getLast? hlast)

theorem goneBy_below (h : Ready s path cs) (he : IsEntry s (render cs) e)
    : (GoneBy cs e x → Below cs x) ∧ ¬GoneBy cs e (render cs) := by
  obtain ⟨c, _, hc, _, rfl⟩ | ⟨_, hne, hslash⟩ := h.entry_iff.mp he
  . rw [goneBy_dir, goneBy_dir]
    exact ⟨Below.of_kid, not_below_self hc⟩
  . rw [goneBy_file hslash, goneBy_file hslash]
    constructor
    . rintro rfl
      exact Or.inr (List.prefix_append _ _)
    . intro heq
      have hlen := congrArg List.length heq
      have hle := length_render_le_sepd cs
      have hpos := List.length_pos_of_ne_nil hne
      rw [List.length_append] at hlen
      omega

theorem entry_stays {e' : Bytes} (h : Ready s path cs) (he : IsEntry s (render cs) e)
    (he' : IsEntry s (render cs) e') (hne : e ≠ e') (hrem : Removed (GoneBy cs e) s t)
    : IsEntry t (render cs) e' := by
  have hself := (h.goneBy_below (x := []) he).2
  have hdisjoint : ∀ c, s.UsedFile (sepd cs ++ c) → ¬s.UsedDir (sepd cs ++ c) :=
    fun c => h.inv.names.disjoint _
  rw [(h.removed hrem hself).entry_iff]
  obtain ⟨c', hdir', hc', hslash', rfl⟩ | ⟨hfile', hc', hslash'⟩ := h.entry_iff.mp he'
  . left
    refine ⟨c', hrem.usedDir.mpr ⟨hdir', ?_⟩, hc', hslash', rfl⟩
    obtain ⟨c, _, _, _, rfl⟩ | ⟨hfile, _, hslash⟩ := h.entry_iff.mp he
    . rw [goneBy_dir]
      apply not_below_kid hslash'
      rintro rfl
      exact hne rfl
    . rw [goneBy_file hslash]
      intro heq
      rw [List.append_cancel_left heq] at hdir'
      exact hdisjoint e hfile hdir'
  . right
    refine ⟨hrem.usedFile.mpr ⟨hfile', ?_⟩, hc', hslash'⟩
    obtain ⟨c, hdir, _, _, rfl⟩ | ⟨_, _, hslash⟩ := h.entry_iff.mp he
    . rw [goneBy_dir]
      apply not_below_kid hslash'
      rintro rfl
      exact hdisjoint c hfile' hdir
    . rw [goneBy_file hslash]
      intro heq
      exact hne (List.append_cancel_left heq).symm

theorem covered (h : Ready s path cs) (hx : s.Used x) (hpre : sepd cs <+: x)
    : ∃ e ∈ entries s (render cs), GoneBy cs e x := by
  obtain ⟨ds, d, rfl, hcanon⟩ := (h.names x hx hpre).1.split h.walk.canon h.ne_root hpre
  have hd := hcanon.comps d (by simp)
  simp only [mem_entries h.inv.names, h.entry_iff]
  by_cases hds : ds = []
  . subst hds
    obtain hfile | hdir := hx
    . refine ⟨d, Or.inr ⟨hfile, hd.ne_nil, hd.no_slash⟩, ?_⟩
      rw [goneBy_file hd.no_slash]
      rfl
    . refine ⟨d ++ [slash], Or.inl ⟨d, hdir, hd.ne_nil, hd.no_slash, rfl⟩, ?_⟩
      rw [goneBy_dir]
      exact Or.inl rfl
  . have hdir := h.inv.names.ancestor hcanon hx hds
    refine ⟨d ++ [slash], Or.inl ⟨d, hdir, hd.ne_nil, hd.no_slash, rfl⟩, ?_⟩
    rw [goneBy_dir]
    obtain ⟨e, ds, rfl⟩ := List.exists_cons_of_ne_nil hds
    right
    rw [List.cons_append, render]
    exact (sepd_isPrefix ds (d :: cs)).trans (List.prefix_append _ _)

end Ready

section Loop

variable {n : Nat} {s t : FsState} {path : Bytes} {cs : List Bytes}

theorem splitEntries_lines {es : List Bytes} (h : ∀ e ∈ es, newline ∉ e ∧ e.length ≤ 255)
    : splitEntries (es.flatMap (· ++ [newline])) = es := by
  induction es with
  | nil => simp [splitEntries]
  | cons e es ih =>
    obtain ⟨hnl, hlen⟩ := h e (by simp)
    rw [List.flatMap_cons, List.append_assoc, List.singleton_append, splitEntries_line _ hnl hlen,
      ih (fun e he => h e (by simp [he]))]

def Removes (n : Nat) : Prop :=
  ∀ s path cs, Ready s path cs → 65 ≤ n + cs.length →
    ∃ s', fsDeleteDirectoryRecursive n s path = some (0, s') ∧ Removed (Below cs) s s'

theorem Ready.line {e : Bytes} (hrec : Removes n) (h : Ready s path cs) (he : IsEntry s (render cs) e)
    (hfuel : 65 ≤ n + 1 + cs.length)
    : e ≠ [] ∧ ∃ t, (if e.getLast? = some slash then
          fsDeleteDirectoryRecursive n s (childPath path e.dropLast)
        else
          some (fsDeleteFile s (childPath path e))) = some (0, t)
      ∧ Removed (GoneBy cs e) s t := by
  obtain ⟨c, hdir, hc, hslash, rfl⟩ | ⟨hfile, hne, hslash⟩ := h.entry_iff.mp he
  . have hkid := h.kid (Or.inr hdir) hslash hc
    obtain ⟨t, hcall, hrem⟩ := hrec s (slashed path ++ c) (c :: cs) (h.subdirectory hdir hkid)
      (by rw [List.length_cons]; omega)
    refine ⟨by simp, t, ?_, hrem.congr (fun x _ => Ready.goneBy_dir.symm)⟩
    rw [List.getLast?_append_of_ne_nil _ (by simp), if_pos (by simp), List.dropLast_concat,
      h.child_eq hkid.len]
    exact hcall
  . have hkid := h.kid (Or.inl hfile) hslash hne
    have hwalk := h.child_walk hkid.canon hkid.len
    have hnul := h.child_nul hkid.nul
    have hout : absPath s.cwd.str (slashed path ++ e) = sepd cs ++ e := by
      rw [absPath_eq]
      exact hwalk.out
    have hpath : slashed path ++ e ≠ [] := by simp [hne]
    obtain ⟨hrc, hrem⟩ := @DeleteInv.file s ⟨slashed path ++ e, hnul⟩ h.inv hpath (by rwa [hout])
    refine ⟨hne, (fsDeleteFile s (slashed path ++ e)).2, ?_, ?_⟩
    . rw [if_neg (fun hlast => hslash (List.mem_of_getLast? hlast)), h.child_eq hkid.len]
      exact congrArg some (Prod.ext hrc rfl)
    . apply hrem.congr
      intro x _
      rw [Ready.goneBy_file hslash]
      dsimp only
      rw [hout]

theorem Ready.loop (hrec : Removes n) {es : List Bytes} (h : Ready s path cs)
    (hes : ∀ e ∈ es, IsEntry s (render cs) e) (hnodup : es.Nodup) (hfuel : 65 ≤ n + 1 + cs.length)
    : ∃ t, deleteEntries (fsDeleteDirectoryRecursive n) path es s = some (0, t)
        ∧ Removed (fun x => ∃ e ∈ es, GoneBy cs e x) s t := by
  induction es generalizing s with
  | nil => exact ⟨s, rfl, (Removed.refl h.inv).congr (by simp)⟩
  | cons e es ih =>
    rw [List.nodup_cons] at hnodup
    obtain ⟨hnew, hnodup⟩ := hnodup
    have he := hes e (by simp)
    obtain ⟨hne, t, hcall, hrem⟩ := h.line hrec he hfuel
    have hself := (h.goneBy_below (x := []) he).2
    obtain ⟨u, hrest, hrem'⟩ := ih (h.removed hrem hself) (by
      intro e' he'
      apply h.entry_stays he (hes e' (by simp [he'])) _ hrem
      rintro rfl
      contradiction) hnodup
    refine ⟨u, ?_, (hrem.trans hrem').congr ?_⟩
    . rw [deleteEntries, if_neg hne]
      dsimp only
      rw [hcall]
      exact hrest
    . intro x _
      simp

theorem fsDeleteDirectoryRecursive_root {s₁ : FsState} (h : DeleteInv s) (hne : path ≠ [])
    (hpath : path ≠ [slash]) (hused : s.UsedDir (absPath s.cwd.str path))
    (hfound : fsDirectoryExists s (absPath s.cwd.str path))
    (hloop : deleteEntries (fsDeleteDirectoryRecursive n) path
      (splitEntries (fsListDirectory.lines s (absPath s.cwd.str path))) { s with fsErrno := 0 }
        = some (0, s₁))
    (hdone : (fsDeleteDirectory s₁ path).1 = 0)
    : fsDeleteDirectoryRecursive (n + 1) s path = some (0, (fsDeleteDirectory s₁ path).2) := by
  have hexists : fsDirectoryExists { s with fsErrno := 0 } path := by
    unfold fsDirectoryExists
    rw [if_neg hne, if_neg hpath]
    exact dirIndex_isSome.mpr hused
  have hlist : fsListDirectory { s with fsErrno := 0 } path
      = (0, fsListDirectory.lines s (absPath s.cwd.str path), { s with fsErrno := 0 }) := by
    have hfound' : fsDirectoryExists { s with fsErrno := 0 } (absPath s.cwd.str path) := hfound
    obtain ⟨i, hi⟩ := Option.isSome_iff_exists.mp (dirIndex_isSome.mpr hused)
    have hi' : dirIndex { s with fsErrno := 0 } (absPath s.cwd.str path) = some i := hi
    have huid := h.uid
    unfold fsListDirectory
    dsimp only
    rw [if_neg hne, if_neg (by simpa using hfound'), hi']
    dsimp only
    unfold permAllows
    rw [if_pos huid, if_pos rfl]
    rfl
  rw [fsDeleteDirectoryRecursive]
  dsimp only
  rw [if_neg hne, mayModifyParent_root (s := { s with fsErrno := 0 }) h.uid]
  dsimp only
  rw [if_neg hne, if_neg (by simpa using hexists), hlist]
  dsimp only
  rw [if_neg (by simp), hloop]
  dsimp only
  rw [if_neg (by simp), hdone]
  simp

theorem removes (n : Nat) : Removes n := by
  induction n with
  | zero =>
    intro s path cs h hfuel
    have := h.walk.canon.depth
    omega
  | succ n ih =>
    intro s path cs h hfuel
    have herr := h.removed (Removed.errno 0 h.inv) (fun hno => hno)
    have hcanon := h.walk.canon
    have htext : PathText (render cs) := by
      rw [← h.out]
      exact absPath_text _ _
    have hentries : entries { s with fsErrno := 0 } (render cs) = entries s (render cs) := rfl
    have hlines : splitEntries (fsListDirectory.lines s (absPath s.cwd.str path))
        = entries s (render cs) := by
      rw [h.out, lines_of_fits h.inv.names htext (h.fits _ h.used (Or.inl rfl))]
      apply splitEntries_lines
      intro e he
      exact h.entry_line ((mem_entries h.tree).mp he)
    have hes : ∀ e ∈ entries s (render cs), IsEntry { s with fsErrno := 0 } (render cs) e :=
      fun e he => (mem_entries herr.inv.names).mp (hentries ▸ he)
    obtain ⟨t, hloop, hrem⟩ := herr.loop ih hes (nodup_entries h.inv.names) hfuel
    have hbelow : ∀ x, (∃ e ∈ entries s (render cs), GoneBy cs e x) → Below cs x := by
      rintro x ⟨e, he, hgone⟩
      exact (h.goneBy_below ((mem_entries h.inv.names).mp he)).1 hgone
    have hself : ¬∃ e ∈ entries s (render cs), GoneBy cs e (render cs) := by
      rintro ⟨e, he, hgone⟩
      exact (h.goneBy_below (x := []) ((mem_entries h.inv.names).mp he)).2 hgone
    have hcwd : t.cwd = s.cwd := hrem.cwd
    have hout : absPath t.cwd.str path = render cs := by
      rw [hcwd, h.out]
    have hne_root : render cs ≠ [slash] := by
      intro heq
      have hlong := (one_lt_length_render hcanon.comps).mpr h.ne_root
      rw [heq] at hlong
      simp at hlong
    have hempty : ∀ x, t.Used x → ¬absPath t.cwd.str path ++ [slash] <+: x := by
      intro x hx hpre
      rw [hout, ← sepd_of_ne_nil h.ne_root] at hpre
      obtain ⟨hx, hgone⟩ := hrem.used.mp hx
      exact hgone (h.covered hx hpre)
    obtain ⟨hdone, hrem'⟩ := @DeleteInv.directory t ⟨path, h.nul⟩ hrem.inv h.proper.ne_nil
      (by rw [hout]; exact hrem.usedDir.mpr ⟨h.used, hself⟩) (by rwa [hout]) hempty
    have hpath : path ≠ [slash] := by
      intro heq
      apply hne_root
      rw [← h.out, heq]
      exact absPath_render Canon.nil
    refine ⟨(fsDeleteDirectory t path).2, ?_, ?_⟩
    . apply fsDeleteDirectoryRecursive_root h.inv h.proper.ne_nil hpath
      . rw [h.out]
        exact h.used
      . rw [h.out]
        unfold fsDirectoryExists
        rw [if_neg htext.ne_nil, if_neg hne_root, absPath_render hcanon]
        exact dirIndex_isSome.mpr h.used
      . rw [hlines]
        exact hloop
      . exact hdone
    . apply ((Removed.errno 0 h.inv).trans (hrem.trans hrem')).congr
      intro x hx
      dsimp only
      rw [hout, false_or]
      constructor
      . rintro (hgone | rfl)
        . exact hbelow x hgone
        . exact Or.inl rfl
      . rintro (rfl | hpre)
        . exact Or.inr rfl
        . exact Or.inl (h.covered hx hpre)

end Loop

structure DirView where
  owner : Int32
  mode : UInt16
  deriving DecidableEq

def FsState.dirs (s : FsState) (x : Bytes) : Option DirView :=
  (dirIndex s x).map (fun i => ⟨s.downer i, s.dmode i⟩)

theorem dirs_congr {s s' : FsState} {x : Bytes} (hdir : ∀ i, s'.IsDir i x ↔ s.IsDir i x)
    (hview : ∀ i, s.IsDir i x → s'.downer i = s.downer i ∧ s'.dmode i = s.dmode i)
    : s'.dirs x = s.dirs x := by
  have hidx : dirIndex s' x = dirIndex s x := by
    unfold dirIndex
    congr 1
    funext i
    rw [decide_eq_decide]
    exact hdir i
  unfold FsState.dirs
  rw [hidx]
  cases hi : dirIndex s x with
  | none => rfl
  | some i =>
    obtain ⟨howner, hmode⟩ := hview i (dirIndex_eq_some hi)
    simp only [Option.map_some, howner, hmode]

/--
Nothing is left of the directory `c`, and everything else is as it was.
-/
structure SubtreeRemoved (s s' : FsState) (c : Bytes) : Prop where
  gone : ∀ x, s'.Used x → x ≠ c ∧ ¬c ++ [slash] <+: x
  files : ∀ x, x ≠ c → ¬c ++ [slash] <+: x → s'.files x = s.files x
  dirs : ∀ x, x ≠ c → ¬c ++ [slash] <+: x → s'.dirs x = s.dirs x

/--
The listing finds the directory under its full path, and what is put together for an entry below it
leads there: a path of one character gets no slash, a line ends at a newline and a path at 255 bytes.
-/
structure Deletable (s : FsState) (path : Bytes) : Prop where
  ne_nil : path ≠ []
  found : fsDirectoryExists s (absPath s.cwd.str path)
  joined : path.length = 1 → ∀ x, s.Used x → ¬absPath s.cwd.str path ++ [slash] <+: x
  names : ∀ x, s.Used x → absPath s.cwd.str path ++ [slash] <+: x → CanonText x
    ∧ newline ∉ x.drop ((absPath s.cwd.str path).length + 1)
    ∧ (slashed path).length + (x.length - ((absPath s.cwd.str path).length + 1)) ≤ 255

section Call

variable {s t : FsState} {n : Nat} {path : CStr} {c : Bytes}

theorem Removed.subtree (h : Removed (fun x => x = c ∨ c ++ [slash] <+: x) s t)
    : SubtreeRemoved s t c := by
  refine ⟨?_, ?_, ?_⟩
  . intro x hx
    have hno := (h.used.mp hx).2
    rw [not_or] at hno
    exact hno
  . intro x hne hbelow
    have hno : ¬(x = c ∨ c ++ [slash] <+: x) := not_or.mpr ⟨hne, hbelow⟩
    have hfile : ∀ i, t.IsFile i x ↔ s.IsFile i x := by
      intro i
      rw [h.files, and_iff_left hno]
    apply files_congr hfile
    intro i hi
    have hsame := h.same i ((hfile i).mpr hi).1
    simp only [FsState.view, hsame.bytes, hsame.fsize, h.fowner, h.fmode]
  . intro x hne hbelow
    have hno : ¬(x = c ∨ c ++ [slash] <+: x) := not_or.mpr ⟨hne, hbelow⟩
    apply dirs_congr
    . intro i
      rw [h.dirs, and_iff_left hno]
    . intro i _
      rw [h.downer, h.dmode]
      exact ⟨rfl, rfl⟩

theorem entries_eq_nil (h : NsInv s) (hroot : c ≠ [slash])
    (hempty : ∀ x, s.Used x → ¬c ++ [slash] <+: x)
    : entries s c = [] := by
  have hlead : childPrefix c = c ++ [slash] := if_neg hroot
  rw [List.eq_nil_iff_forall_not_mem]
  intro e he
  rw [mem_entries h] at he
  obtain ⟨x, d, hx, hchild, _⟩ | ⟨x, hx, hchild⟩ := he
  . apply hempty x (Or.inr hx)
    rw [hchild.name, hlead]
    exact List.prefix_append _ _
  . apply hempty x (Or.inl hx)
    rw [hchild.name, hlead]
    exact List.prefix_append _ _

theorem delete_empty (h : DeleteInv s) (hdel : Deletable s path)
    (hused : s.UsedDir (absPath s.cwd.str path)) (hroot : absPath s.cwd.str path ≠ [slash])
    (hempty : ∀ x, s.Used x → ¬absPath s.cwd.str path ++ [slash] <+: x)
    : ∃ s', fsDeleteDirectoryRecursive (n + 1) s path = some (0, s')
        ∧ Removed (fun x => x = absPath s.cwd.str path ∨ absPath s.cwd.str path ++ [slash] <+: x)
            s s' := by
  have hpath : path.val ≠ [slash] := by
    intro heq
    rw [heq] at hroot
    exact hroot (absPath_render Canon.nil)
  have hlines : fsListDirectory.lines s (absPath s.cwd.str path) = [] :=
    (lines_eq_nil_iff h.names (absPath_text _ _)).mpr (entries_eq_nil h.names hroot hempty)
  have herr := h.errno 0
  obtain ⟨hdone, hrem⟩ := @DeleteInv.directory { s with fsErrno := 0 } path herr hdel.ne_nil hused
    hroot hempty
  refine ⟨(fsDeleteDirectory { s with fsErrno := 0 } path).2, ?_, ?_⟩
  . apply fsDeleteDirectoryRecursive_root h hdel.ne_nil hpath hused hdel.found
    . rw [hlines]
      simp [splitEntries, deleteEntries]
    . exact hdone
  . apply ((Removed.errno 0 h).trans hrem).congr
    intro x hx
    have hno := hempty x hx
    simp [hno]

theorem delete_subtree (h : DeleteInv s) (hdel : Deletable s path)
    (hused : s.UsedDir (absPath s.cwd.str path)) (hroot : absPath s.cwd.str path ≠ [slash])
    (hfits : ∀ d, s.UsedDir d →
      d = absPath s.cwd.str path ∨ absPath s.cwd.str path ++ [slash] <+: d → ListingFits s d)
    (hfuel : 65 ≤ n)
    : ∃ s', fsDeleteDirectoryRecursive n s path = some (0, s')
        ∧ Removed (fun x => x = absPath s.cwd.str path ∨ absPath s.cwd.str path ++ [slash] <+: x)
            s s' := by
  by_cases hempty : ∀ x, s.Used x → ¬absPath s.cwd.str path ++ [slash] <+: x
  . obtain ⟨m, rfl⟩ : ∃ m, n = m + 1 := ⟨n - 1, by omega⟩
    exact delete_empty h hdel hused hroot hempty
  . simp only [not_forall, not_not] at hempty
    obtain ⟨x, hx, hpre⟩ := hempty
    obtain ⟨hcanon, _, hlen⟩ := hdel.names x hx hpre
    have hnil : absPath s.cwd.str path ++ [slash] ≠ x := by
      rintro rfl
      obtain ⟨es, hes, heq⟩ := hcanon
      by_cases hnil : es = []
      . rw [hnil] at heq
        have := congrArg List.length heq
        have hpos := List.length_pos_of_ne_nil (absPath_text s.cwd.str path).ne_nil
        rw [List.length_append, render] at this
        simp only [List.length_singleton] at this
        omega
      . have hlast := getLast_render hes hnil
        rw [← heq] at hlast
        simp at hlast
    have hlong : x.length ≤ 255 := by
      obtain ⟨es, hes, rfl⟩ := hcanon
      exact hes.len
    have hrest : (absPath s.cwd.str path).length + 1 < x.length := by
      have hle := hpre.length_le
      rw [List.length_append, List.length_singleton] at hle
      by_contra hge
      apply hnil
      apply hpre.eq_of_length
      rw [List.length_append, List.length_singleton]
      omega
    have hshort : (walk s.cwd.str path).out.length < 254 := by
      rw [← absPath_eq]
      omega
    obtain ⟨cs, hn⟩ := absPath.normal_of_length hshort
    have hout : absPath s.cwd.str path = render cs := by
      rw [absPath_eq]
      exact hn.out
    have hcs : cs ≠ [] := by
      rintro rfl
      exact hroot hout
    have hsepd : sepd cs = absPath s.cwd.str path ++ [slash] := by
      rw [sepd_of_ne_nil hcs, hout]
    have hsum : (sepd cs).length = (absPath s.cwd.str path).length + 1 := by
      rw [hsepd, List.length_append, List.length_singleton]
    have hready : Ready s path cs := by
      have hpos := List.length_pos_of_ne_nil hdel.ne_nil
      have hle := length_le_slashed path.val
      refine ⟨⟨h.names, h.blocks, path.property, Or.inr ⟨?_, by omega⟩, hn, hcs, ?_⟩, h.uid, hout ▸ hused, ?_⟩
      . by_contra hone
        exact hdel.joined (by omega) x hx hpre
      . rw [hsum, hsepd]
        exact hdel.names
      . intro d hd hbelow
        apply hfits d hd
        unfold Below at hbelow
        rwa [hsepd, ← hout] at hbelow
    obtain ⟨s', hcall, hrem⟩ := removes n s path.val cs hready (by omega)
    refine ⟨s', hcall, hrem.congr ?_⟩
    intro y _
    unfold Below
    rw [hsepd, ← hout]

theorem deletable_of_success {s' : FsState} (h : NsInv s) (htwo : 2 ≤ path.val.length)
    (hlen : path.val.length ≤ 255)
    (hcanon : ∀ x, s.Used x → absPath s.cwd.str path ++ [slash] <+: x → CanonText x)
    (hcall : fsDeleteDirectoryRecursive n s path = some (0, s'))
    (hgone : ∀ x, s'.Used x → ¬absPath s.cwd.str path ++ [slash] <+: x)
    : Deletable s path := by
  have hproper : Proper path := Or.inr ⟨htwo, hlen⟩
  refine ⟨hproper.ne_nil, found_of_success hproper.ne_nil hcall, fun hone => by omega, ?_⟩
  intro x hx hpre
  have hno : ¬s'.Used x := fun hx' => hgone x hx' hpre
  obtain rfl | hreach := (delete_reaches hproper path.property hcall).lost x hx hno
  . have := hpre.length_le
    simp at this
  . exact ⟨hcanon x hx hpre, hreach.fits hproper h.cwd.length_le hpre⟩

end Call

/--
Root's recursive delete after any run without a wrapped write, with 65 nested calls at most. Behind a
path of one character, or of more than 255, a wrong path can lead to the right name by chance, and so
it can for a name that is not canonical.
-/
theorem delete_removes_subtree (s₀ s : FsState) (bytes : UInt32) (path : CStr)
    (hpool : s₀.fpoolBytes = fsSetPool bytes)
    (hrun : FsRun (fun s c => c.NoWrap s) (fsInit s₀) s)
    (hused : s.UsedDir (absPath s.cwd.str path)) (hroot : absPath s.cwd.str path ≠ [slash])
    (hfits : ∀ d, s.UsedDir d →
      d = absPath s.cwd.str path ∨ absPath s.cwd.str path ++ [slash] <+: d → ListingFits s d)
    : (Deletable s path → ∀ n, 65 ≤ n →
        ∃ s', fsDeleteDirectoryRecursive n { s with fsCurUid := 0 } path = some (0, s')
          ∧ SubtreeRemoved s s' (absPath s.cwd.str path))
      ∧ (2 ≤ path.val.length → path.val.length ≤ 255 →
        (∀ x, s.Used x → absPath s.cwd.str path ++ [slash] <+: x → CanonText x) →
        ∀ n s', fsDeleteDirectoryRecursive n { s with fsCurUid := 0 } path = some (0, s') →
          SubtreeRemoved s s' (absPath s.cwd.str path) → Deletable s path) := by
  have h := ContentInv.run hpool hrun 0
  constructor
  . intro hdel n hfuel
    have hinv : DeleteInv { s with fsCurUid := 0 } := ⟨h.names, h.inv, rfl⟩
    have hdel' : Deletable { s with fsCurUid := 0 } path :=
      ⟨hdel.ne_nil, hdel.found, hdel.joined, hdel.names⟩
    obtain ⟨s', hcall, hrem⟩ := delete_subtree hinv hdel' hused hroot hfits hfuel
    obtain ⟨hgone, hfiles, hdirs⟩ := hrem.subtree
    exact ⟨s', hcall, hgone, hfiles, hdirs⟩
  . intro htwo hlen hcanon n s' hcall hrem
    obtain ⟨hne, hfound, hjoined, hnames⟩ := deletable_of_success (s := { s with fsCurUid := 0 })
      h.names htwo hlen hcanon hcall (fun x hx => (hrem.gone x hx).2)
    exact ⟨hne, hfound, hjoined, hnames⟩

section Example

/-!
A directory with one file, under a name of two bytes and under a name of one.
-/

def pairPath : CStr :=
  ⟨[120, 121], by decide⟩

def pairFile : CStr :=
  ⟨[slash, 120, 121, slash, 102], by decide⟩

def singlePath : CStr :=
  ⟨[120], by decide⟩

def singleFile : CStr :=
  ⟨[slash, 120, slash, 102], by decide⟩

def joinedFile : CStr :=
  ⟨[slash, 120, 102], by decide⟩

/--
Root makes the directory `dir` and the files `file` and `other`.
-/
def nested (dir file other : CStr) : FsState :=
  (fsCreateFile { withFile with fsCurUid := 0 } other).2
where
  withDir : FsState :=
    (fsCreateDirectory { fsInit (.zeroed 64) with fsCurUid := 0 } dir).2

  withFile : FsState :=
    (fsCreateFile { withDir with fsCurUid := 0 } file).2

theorem nested_run {ok : FsState → FsCall → Prop} (hok : ∀ s c, c.NoWrap s → ok s c)
    (dir file other : CStr)
    : FsRun ok (fsInit (.zeroed 64)) (nested dir file other) := by
  have hdir : FsCall.Step ⟨0, .createDirectory dir⟩ (fsInit (.zeroed 64)) (nested.withDir dir) :=
    FsCall.step 0 rfl
  have hfile : FsCall.Step ⟨0, .createFile file⟩ (nested.withDir dir) (nested.withFile dir file) :=
    FsCall.step 0 rfl
  have hother : FsCall.Step ⟨0, .createFile other⟩ (nested.withFile dir file)
      (nested dir file other) := FsCall.step 0 rfl
  have hrun := Run.call .refl hdir (hok _ _ trivial)
  exact (hrun.call hfile (hok _ _ trivial)).call hother (hok _ _ trivial)

end Example

theorem delete_removes_subtree_pair
    : ∃ s', fsDeleteDirectoryRecursive 65
          { nested pairPath pairFile notePath with fsCurUid := 0 } pairPath = some (0, s')
        ∧ SubtreeRemoved (nested pairPath pairFile notePath) s' [slash, 120, 121] := by
  have hpath : absPath (nested pairPath pairFile notePath).cwd.str pairPath = [slash, 120, 121] := by
    decide +kernel
  have hdirs : ∀ i, (nested pairPath pairFile notePath).dused i ≠ 0 →
      ((nested pairPath pairFile notePath).dname i).str = [slash]
        ∨ ((nested pairPath pairFile notePath).dname i).str = [slash, 120, 121] := by
    decide +kernel
  have hfiles : ∀ i, (nested pairPath pairFile notePath).fused i ≠ 0 →
      ((nested pairPath pairFile notePath).fname i).str = pairFile
        ∨ ((nested pairPath pairFile notePath).fname i).str = notePath := by
    decide +kernel
  have hlist : listingSize (nested pairPath pairFile notePath) [slash, 120, 121] = 2 := by
    decide +kernel
  have hcanon : CanonText pairFile := by
    refine ⟨[[102], [120, 121]], ⟨?_, by decide, by decide⟩, by decide⟩
    intro c hc
    simp only [List.mem_cons, List.not_mem_nil, or_false] at hc
    obtain rfl | rfl := hc
    . exact ⟨by decide, by decide, by decide, by decide⟩
    . exact ⟨by decide, by decide, by decide, by decide⟩
  have hbelow : ∀ x, (nested pairPath pairFile notePath).Used x → [slash, 120, 121] ++ [slash] <+: x →
      x = pairFile := by
    rintro x (⟨i, hi, rfl⟩ | ⟨i, hi, rfl⟩) hpre
    . obtain heq | heq := hfiles i hi
      . exact heq
      . rw [heq] at hpre
        exact absurd hpre (by decide)
    . obtain heq | heq := hdirs i hi
      . rw [heq] at hpre
        exact absurd hpre (by decide)
      . rw [heq] at hpre
        exact absurd hpre (by decide)
  have h := delete_removes_subtree (.zeroed 64) (nested pairPath pairFile notePath) 64 pairPath
    (by decide) (nested_run (fun _ _ hwrap => hwrap) _ _ _)
  rw [hpath] at h
  refine (h ?_ ?_ ?_).1 ?_ 65 (by decide)
  . rw [← dirIndex_isSome]
    decide +kernel
  . decide
  . intro d hd hbelow'
    have hd' : d = [slash, 120, 121] := by
      obtain rfl | hpre := hbelow'
      . rfl
      . have heq := hbelow d (Or.inr hd) hpre
        obtain ⟨i, hi, rfl⟩ := hd
        obtain heq' | heq' := hdirs i hi
        . rw [heq'] at heq
          exact absurd heq (by decide)
        . exact heq'
    rw [hd']
    unfold ListingFits
    rw [hlist]
    exact ⟨by decide, fun heq => absurd heq (by decide)⟩
  . refine ⟨by decide, by decide +kernel, fun hone => absurd hone (by decide), ?_⟩
    rw [hpath]
    intro x hx hpre
    rw [hbelow x hx hpre]
    exact ⟨hcanon, by decide, by decide⟩

/--
`x` with the entry `f`: what is deleted is `xf`, and then `x` still has its entry.
-/
theorem delete_joins
    : ¬∀ s₀ s bytes (path : CStr), s₀.fpoolBytes = fsSetPool bytes →
        FsRun (fun s c => c.NoWrap s) (fsInit s₀) s → s.UsedDir (absPath s.cwd.str path) →
        absPath s.cwd.str path ≠ [slash] →
        (∀ d, s.UsedDir d →
          d = absPath s.cwd.str path ∨ absPath s.cwd.str path ++ [slash] <+: d → ListingFits s d) →
        ∃ n s', fsDeleteDirectoryRecursive n { s with fsCurUid := 0 } path = some (0, s')
          ∧ SubtreeRemoved s s' (absPath s.cwd.str path) := by
  intro h
  have hpath : absPath (nested singlePath singleFile joinedFile).cwd.str singlePath
      = [slash, 120] := by
    decide +kernel
  have hdirs : ∀ i, (nested singlePath singleFile joinedFile).dused i ≠ 0 →
      listingSize (nested singlePath singleFile joinedFile)
        ((nested singlePath singleFile joinedFile).dname i).str ≤ 100 := by
    decide +kernel
  have hlines : fsListDirectory.lines { nested singlePath singleFile joinedFile with fsCurUid := 0 }
      [slash, 120] = [102, newline] := by
    decide +kernel
  have hsplit : splitEntries [102, newline] = [[102]] := by
    have hline := splitEntries_line (a := [102]) [] (by decide) (by decide)
    rw [splitEntries] at hline
    exact hline
  obtain ⟨n, s', hcall, _⟩ := h (.zeroed 64) (nested singlePath singleFile joinedFile) 64 singlePath
    (by decide) (nested_run (fun _ _ hwrap => hwrap) _ _ _)
    (by rw [← dirIndex_isSome]; decide +kernel) (by rw [hpath]; decide) (by
      rintro _ ⟨i, hi, rfl⟩ _
      have hsize := hdirs i hi
      exact ⟨by omega, fun heq => by omega⟩)
  cases n with
  | zero => simp [fsDeleteDirectoryRecursive] at hcall
  | succ n =>
    obtain ⟨hne, _⟩ | ⟨_, _, rc₁, s₁, hloop, hend⟩ := fsDeleteDirectoryRecursive_cases hcall
    . exact hne rfl
    . have hchild : childPath singlePath [102] = [120, 102] := by decide +kernel
      have hentry : deleteEntries (fsDeleteDirectoryRecursive n) singlePath [[102]]
          { nested singlePath singleFile joinedFile with fsCurUid := 0, fsErrno := 0 }
          = some (0, (fsDeleteFile
              { nested singlePath singleFile joinedFile with fsCurUid := 0, fsErrno := 0 }
              [120, 102]).2) := by
        have hdone : (fsDeleteFile
            { nested singlePath singleFile joinedFile with fsCurUid := 0, fsErrno := 0 }
            [120, 102]).1 = 0 := by decide +kernel
        rw [deleteEntries, if_neg (by decide)]
        dsimp only
        rw [if_neg (by decide), hchild]
        simp [deleteEntries, hdone]
      rw [show absPath _ _ = [slash, 120] from hpath, hlines, hsplit, hentry] at hloop
      obtain ⟨hne, hrc, _⟩ | ⟨_, _, hdone⟩ := hend
      . exact hrc rfl
      . have hdone := hdone rfl
        rw [← (Prod.mk.inj (Option.some.inj hloop)).2] at hdone
        revert hdone
        decide +kernel

end TanjaOS
