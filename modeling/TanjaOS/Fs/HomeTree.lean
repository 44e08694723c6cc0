import TanjaOS.Fs.Home
import TanjaOS.Fs.Delete.Subtree

/-!
What making a home directory touches, and what it does to a directory that is there already.
-/

open Lib

namespace TanjaOS

/--
Nothing has changed but what `P` says.
-/
structure Only (P : Bytes → Prop) (s t : FsState) : Prop where
  cwd : t.cwd = s.cwd
  files : ∀ x, ¬P x → t.files x = s.files x
  dirs : ∀ x, ¬P x → t.dirs x = s.dirs x

namespace Only

variable {P Q : Bytes → Prop} {s t u : FsState}

theorem errno (P : Bytes → Prop) (s : FsState) (e : Nat) : Only P s { s with fsErrno := e } :=
  ⟨rfl, fun _ _ => rfl, fun _ _ => rfl⟩

theorem uid (P : Bytes → Prop) (s : FsState) (uid : Int32) : Only P s { s with fsCurUid := uid } :=
  ⟨rfl, fun _ _ => rfl, fun _ _ => rfl⟩

theorem refl (P : Bytes → Prop) (s : FsState) : Only P s s :=
  ⟨rfl, fun _ _ => rfl, fun _ _ => rfl⟩

theorem trans (h : Only P s t) (h' : Only P t u) : Only P s u where
  cwd := h'.cwd.trans h.cwd
  files x hx := (h'.files x hx).trans (h.files x hx)
  dirs x hx := (h'.dirs x hx).trans (h.dirs x hx)

theorem mono (h : Only P s t) (himp : ∀ x, P x → Q x) : Only Q s t where
  cwd := h.cwd
  files x hx := h.files x fun hp => hx (himp x hp)
  dirs x hx := h.dirs x fun hp => hx (himp x hp)

end Only

section Ops

variable {s : FsState}

theorem cwd_fsCreateFile (path : CStr) : (fsCreateFile s path).2.cwd = s.cwd := by
  obtain ⟨e, heq, _⟩ | ⟨i, heq, _⟩ := fsCreateFile_cases (g := Grant.any) s path (fun _ => trivial)
  . rw [heq]
  . rw [heq]
    rfl

theorem only_fsCreateDirectory (path : CStr)
    : Only (fun x => x = absPath s.cwd.str path) s (fsCreateDirectory s path).2 := by
  obtain ⟨e, heq⟩ | ⟨i, heq, hfree, _⟩ := fsCreateDirectory_cases (g := Grant.any) s path trivial
  . rw [heq]
    exact .errno _ s e
  . rw [heq]
    refine ⟨rfl, fun _ _ => rfl, fun x hx => ?_⟩
    have hiff : ∀ j y, ({ s with fsErrno := 0 }.addDir i (absPath s.cwd.str path)).IsDir j y
        ↔ (j = i ∧ y = absPath s.cwd.str path) ∨ (j ≠ i ∧ s.IsDir j y) := fun j y =>
      FsState.isDir_addDir (CStr.absPath_no_nul s path) (absPath_text _ _).length_le
    have hne : ∀ j, s.IsDir j x → j ≠ i := by
      rintro j hj rfl
      exact hj.1 hfree
    apply dirs_congr
    . intro j
      rw [hiff]
      constructor
      . rintro (⟨_, rfl⟩ | ⟨_, hj⟩)
        . exact absurd rfl hx
        . exact hj
      . exact fun hj => Or.inr ⟨hne j hj, hj⟩
    . intro j hj
      simp [FsState.addDir, hne j hj]

theorem only_file {x : Bytes} {f : Fin maxF} (hf : s.IsFile f x) {fowner : Fin maxF → Int32}
    {fmode : Fin maxF → UInt16} (howner : ∀ j, j ≠ f → fowner j = s.fowner j)
    (hmode : ∀ j, j ≠ f → fmode j = s.fmode j)
    : Only (fun y => y = x) s { s with fowner := fowner, fmode := fmode } := by
  refine ⟨rfl, fun y hy => ?_, fun _ _ => rfl⟩
  apply files_congr
  . exact fun _ => Iff.rfl
  . intro j hj
    have hne : j ≠ f := by
      rintro rfl
      exact hy (hj.2.symm.trans hf.2)
    unfold FsState.view FsState.fileBytes
    dsimp only
    rw [howner j hne, hmode j hne]

theorem only_dir {x : Bytes} {d : Fin maxD} (hd : s.IsDir d x) {downer : Fin maxD → Int32}
    {dmode : Fin maxD → UInt16} (howner : ∀ j, j ≠ d → downer j = s.downer j)
    (hmode : ∀ j, j ≠ d → dmode j = s.dmode j)
    : Only (fun y => y = x) s { s with downer := downer, dmode := dmode } := by
  refine ⟨rfl, fun _ _ => rfl, fun y hy => ?_⟩
  apply dirs_congr
  . exact fun _ => Iff.rfl
  . intro j hj
    have hne : j ≠ d := by
      rintro rfl
      exact hy (hj.2.symm.trans hd.2)
    exact ⟨howner j hne, hmode j hne⟩

theorem only_fsChown (path : Bytes) (uid : Int32)
    : Only (fun x => x = absPath s.cwd.str path) s (fsChown s path uid).2 := by
  unfold fsChown
  dsimp only
  split
  . exact .refl _ s
  . split
    . exact .refl _ s
    . split
      . next f hf =>
        exact only_file (fileIndex_eq_some hf) (fun j hj => Function.update_of_ne hj _ _)
          (fun _ _ => rfl)
      . split
        . next d hd =>
          exact only_dir (dirIndex_eq_some hd) (fun j hj => Function.update_of_ne hj _ _)
            (fun _ _ => rfl)
        . exact .refl _ s

theorem only_fsChmod (path : Bytes) (mode : UInt32)
    : Only (fun x => x = absPath s.cwd.str path) s (fsChmod s path mode).2 := by
  unfold fsChmod
  dsimp only
  split
  . exact .refl _ s
  . split
    . next f hf =>
      split
      . exact only_file (fileIndex_eq_some hf) (fun _ _ => rfl)
          (fun j hj => Function.update_of_ne hj _ _)
      . exact .refl _ s
    . split
      . next d hd =>
        split
        . exact only_dir (dirIndex_eq_some hd) (fun _ _ => rfl)
            (fun j hj => Function.update_of_ne hj _ _)
        . exact .refl _ s
      . exact .refl _ s

theorem only_giveDirectory (path : Bytes) (uid : Int32)
    : Only (fun x => x = absPath s.cwd.str path) s (giveDirectory s path uid) := by
  have hown := only_fsChown (s := s) path uid
  have hmode := @only_fsChmod (fsChown s path uid).2 path 0o700
  rw [hown.cwd] at hmode
  exact hown.trans hmode

theorem only_makeSubdir {base sub : Bytes} (hnul : 0 ∉ homeSubdirPath base sub) (uid : Int32)
    : Only (fun x => x = absPath s.cwd.str (homeSubdirPath base sub)) s (makeSubdir base uid s sub) := by
  unfold makeSubdir
  dsimp only
  split
  . exact only_giveDirectory _ uid
  . have hmade := @only_fsCreateDirectory s ⟨homeSubdirPath base sub, hnul⟩
    have hgiven := @only_giveDirectory (fsCreateDirectory s (homeSubdirPath base sub)).2
      (homeSubdirPath base sub) uid
    rw [hmade.cwd] at hgiven
    exact hmade.trans hgiven

def InSubdirs (cwd base x : Bytes) : Prop :=
  ∃ sub ∈ homeSubdirs, x = absPath cwd (homeSubdirPath base sub)

theorem only_makeSubdirs {base : Bytes} {subs : List Bytes} (uid : Int32)
    (hsubs : ∀ sub ∈ subs, sub ∈ homeSubdirs ∧ 0 ∉ homeSubdirPath base sub)
    : Only (InSubdirs s.cwd.str base) s (subs.foldl (makeSubdir base uid) s) := by
  induction subs generalizing s with
  | nil => exact .refl _ s
  | cons sub subs ih =>
    obtain ⟨hsub, hnul⟩ := hsubs sub (by simp)
    have hone := @only_makeSubdir s base sub hnul uid
    have hrest := @ih (makeSubdir base uid s sub) (fun d hd => hsubs d (by simp [hd]))
    rw [hone.cwd] at hrest
    rw [List.foldl_cons]
    exact (hone.mono fun x hx => ⟨sub, hsub, hx⟩).trans hrest

def InTree (cwd base x : Bytes) : Prop :=
  x = absPath cwd base ∨ InSubdirs cwd base x

theorem only_fsCreateHomeTree {base : Bytes} (hbase : 0 ∉ base)
    (hsubs : ∀ sub ∈ homeSubdirs, 0 ∉ homeSubdirPath base sub) (uid : Int32)
    : Only (InTree s.cwd.str base) s (fsCreateHomeTree s base uid).2 := by
  have hroot : Only (InTree s.cwd.str base) s { s with fsCurUid := 0 } := .uid _ s 0
  unfold fsCreateHomeTree
  dsimp only
  have htree : Only (InTree s.cwd.str base) { s with fsCurUid := 0 }
      (makeHomeTree { s with fsCurUid := 0 } base uid).2 := by
    have hmade := @only_fsCreateDirectory { s with fsCurUid := 0 } ⟨base, hbase⟩
    have hrest : ∀ t : FsState, t.cwd = s.cwd →
        Only (InTree s.cwd.str base) t
          (giveDirectory (homeSubdirs.foldl (makeSubdir base uid) t) base uid) := by
      intro t hcwd
      have hsub := @only_makeSubdirs t base homeSubdirs uid (fun sub h => ⟨h, hsubs sub h⟩)
      have hgiven := @only_giveDirectory (homeSubdirs.foldl (makeSubdir base uid) t) base uid
      rw [hsub.cwd] at hgiven
      rw [hcwd] at hsub hgiven
      exact (hsub.mono fun x hx => Or.inr hx).trans (hgiven.mono fun x hx => Or.inl hx)
    unfold makeHomeTree
    by_cases hexists : fsDirectoryExists { s with fsCurUid := 0 } base
    . rw [if_pos hexists]
      exact hrest _ rfl
    . rw [if_neg hexists]
      dsimp only
      split
      . exact hmade.mono fun x hx => Or.inl hx
      . exact (hmade.mono fun x hx => Or.inl hx).trans (hrest _ hmade.cwd)
  exact (hroot.trans htree).trans (.uid _ _ _)

/--
`x` is a directory, with a mode that `M` allows.
-/
structure Holds (x : Bytes) (M : UInt16 → Prop) (s : FsState) : Prop where
  noFile : s.files x = none
  dir : ∃ v, s.dirs x = some v ∧ M v.mode

namespace Holds

variable {x path base : Bytes} {M : UInt16 → Prop} {t : FsState}

theorem fileIndex_eq (h : Holds x M s) : fileIndex s x = none :=
  Option.map_eq_none_iff.mp h.noFile

theorem dirIndex_eq (h : Holds x M s) : ∃ d, dirIndex s x = some d ∧ M (s.dmode d) := by
  obtain ⟨v, hv, hmode⟩ := h.dir
  obtain ⟨d, hd, rfl⟩ := Option.map_eq_some_iff.mp hv
  exact ⟨d, hd, hmode⟩

theorem of_index {d : Fin maxD} (hfile : fileIndex s x = none) (hdir : dirIndex s x = some d)
    (hmode : M (s.dmode d))
    : Holds x M s where
  noFile := Option.map_eq_none_iff.mpr hfile
  dir := ⟨_, Option.map_eq_some_iff.mpr ⟨d, hdir, rfl⟩, hmode⟩

theorem only {P : Bytes → Prop} (h : Holds x M s) (honly : Only P s t) (hx : ¬P x) : Holds x M t where
  noFile := (honly.files x hx).trans h.noFile
  dir := by
    rw [honly.dirs x hx]
    exact h.dir

theorem create (h : Holds x M s) (path : CStr) : Holds x M (fsCreateDirectory s path).2 := by
  by_cases hx : x = absPath s.cwd.str path
  . obtain ⟨d, hd, _⟩ := h.dirIndex_eq
    have hsome : (dirIndex { s with fsErrno := 0 } (absPath s.cwd.str path)).isSome := by
      rw [← hx]
      exact Option.isSome_iff_exists.mpr ⟨d, hd⟩
    have hsame : (fsCreateDirectory s path).2 = { s with fsErrno := 0 } := by
      unfold fsCreateDirectory
      dsimp only
      split
      . rfl
      . split
        . rfl
        . split
          . rfl
          . rfl
    rw [hsame]
    exact ⟨h.noFile, h.dir⟩
  . exact h.only (only_fsCreateDirectory path) hx

theorem chown (h : Holds x M s) (path : Bytes) (uid : Int32) : Holds x M (fsChown s path uid).2 := by
  by_cases hx : x = absPath s.cwd.str path
  . obtain ⟨d, hd, hmode⟩ := h.dirIndex_eq
    unfold fsChown
    dsimp only
    rw [← hx, h.fileIndex_eq, hd]
    dsimp only
    split
    . exact h
    . split
      . exact h
      . exact .of_index h.fileIndex_eq hd hmode
  . exact h.only (only_fsChown path uid) hx

theorem chmod (h : Holds x M s) (hM : M 0o700) (path : Bytes)
    : Holds x M (fsChmod s path 0o700).2 := by
  by_cases hx : x = absPath s.cwd.str path
  . obtain ⟨d, hd, hmode⟩ := h.dirIndex_eq
    unfold fsChmod
    dsimp only
    rw [← hx, h.fileIndex_eq, hd]
    dsimp only
    split
    . exact h
    . split
      . refine .of_index h.fileIndex_eq hd ?_
        dsimp only
        rw [Function.update_self]
        exact hM
      . exact h
  . exact h.only (only_fsChmod path _) hx

theorem give (h : Holds x M s) (hM : M 0o700) (path : Bytes) (uid : Int32)
    : Holds x M (giveDirectory s path uid) :=
  (h.chown path uid).chmod hM path

theorem give_private (h : Holds x M s) (hroot : s.fsCurUid = 0) (hne : path ≠ [])
    (hx : x = absPath s.cwd.str path) (uid : Int32)
    : Holds x (fun m => m = 0o700) (giveDirectory s path uid) := by
  obtain ⟨d, hd, hmode⟩ := (h.chown path uid).dirIndex_eq
  have huid : (fsChown s path uid).2.fsCurUid = 0 := (fsChown_uid uid).trans hroot
  have hcwd := (only_fsChown (s := s) path uid).cwd
  unfold giveDirectory fsChmod
  dsimp only
  rw [if_neg hne, hcwd, ← hx, (h.chown path uid).fileIndex_eq, hd]
  dsimp only
  rw [if_pos (by simp [mayChmod, huid])]
  refine .of_index (h.chown path uid).fileIndex_eq hd ?_
  dsimp only
  rw [Function.update_self]
  rfl

theorem any (h : Holds x M s) : Holds x (fun _ => True) s := by
  obtain ⟨v, hv, _⟩ := h.dir
  exact ⟨h.noFile, v, hv, trivial⟩

theorem found (h : Holds x M s) (hne : path ≠ []) (hx : x = absPath s.cwd.str path)
    : fsDirectoryExists s path := by
  obtain ⟨d, hd, _⟩ := h.dirIndex_eq
  unfold fsDirectoryExists
  rw [if_neg hne, ← hx]
  split
  . rfl
  . exact Option.isSome_iff_exists.mpr ⟨d, hd⟩

theorem subdir {sub : Bytes} (h : Holds x M s) (hM : M 0o700) (hnul : 0 ∉ homeSubdirPath base sub)
    (uid : Int32)
    : Holds x M (makeSubdir base uid s sub) := by
  unfold makeSubdir
  dsimp only
  split
  . exact h.give hM _ uid
  . exact (h.create ⟨homeSubdirPath base sub, hnul⟩).give hM _ uid

theorem subdirs (h : Holds x M s) (hM : M 0o700) {subs : List Bytes} (uid : Int32)
    (hsubs : ∀ sub ∈ subs, 0 ∉ homeSubdirPath base sub)
    : Holds x M (subs.foldl (makeSubdir base uid) s) := by
  induction subs generalizing s with
  | nil => exact h
  | cons sub subs ih =>
    rw [List.foldl_cons]
    exact ih (h.subdir hM (hsubs sub (by simp)) uid) (fun d hd => hsubs d (by simp [hd]))

end Holds

theorem makeSubdir_uid (base : Bytes) (uid : Int32) (s : FsState) (sub : Bytes)
    : (makeSubdir base uid s sub).fsCurUid = s.fsCurUid := by
  unfold makeSubdir giveDirectory
  dsimp only
  rw [fsChmod_uid, fsChown_uid]
  split
  . rfl
  . exact fsCreateDirectory_uid

theorem makeSubdirs_uid (base : Bytes) (uid : Int32) (subs : List Bytes)
    : (subs.foldl (makeSubdir base uid) s).fsCurUid = s.fsCurUid := by
  induction subs generalizing s with
  | nil => rfl
  | cons sub subs ih =>
    rw [List.foldl_cons, ih, makeSubdir_uid]

section Tree

variable {x base : Bytes} {M : UInt16 → Prop}

theorem Holds.subdirs_private {sub : Bytes} {subs : List Bytes} (h : Holds x M s)
    (hroot : s.fsCurUid = 0) (hmem : sub ∈ subs) (hx : x = absPath s.cwd.str (homeSubdirPath base sub))
    (hsubs : ∀ sub ∈ subs, sub ≠ [] ∧ 0 ∉ homeSubdirPath base sub) (uid : Int32)
    : Holds x (fun m => m = 0o700) (subs.foldl (makeSubdir base uid) s) := by
  induction subs generalizing s M with
  | nil => simp at hmem
  | cons d subs ih =>
    rw [List.foldl_cons]
    by_cases hd : d = sub
    . subst hd
      have hne : homeSubdirPath base d ≠ [] :=
        List.append_ne_nil_of_right_ne_nil _ (hsubs d (by simp)).1
      have hone : Holds x (fun m => m = 0o700) (makeSubdir base uid s d) := by
        unfold makeSubdir
        dsimp only
        rw [if_pos (h.found hne hx)]
        exact h.give_private hroot hne hx uid
      exact hone.subdirs rfl uid (fun sub hsub => (hsubs sub (by simp [hsub])).2)
    . have hrest : sub ∈ subs := by
        rw [List.mem_cons] at hmem
        exact hmem.resolve_left (Ne.symm hd)
      have hnul := (hsubs d (by simp)).2
      have hcwd := (@only_makeSubdir s base d hnul uid).cwd
      refine ih (h.any.subdir trivial hnul uid) ?_ hrest ?_ (fun sub hsub => hsubs sub (by simp [hsub]))
      . rw [makeSubdir_uid]
        exact hroot
      . rw [hcwd]
        exact hx

theorem Holds.homeTree_private (h : Holds x M s) (hne : base ≠ [])
    (hexists : fsDirectoryExists { s with fsCurUid := 0 } base) (hx : InTree s.cwd.str base x)
    (hsubs : ∀ sub ∈ homeSubdirs, sub ≠ [] ∧ 0 ∉ homeSubdirPath base sub) (uid : Int32)
    : Holds x (fun m => m = 0o700) (fsCreateHomeTree s base uid).2 := by
  have hroot : Holds x M { s with fsCurUid := 0 } := ⟨h.noFile, h.dir⟩
  have hcwd := (@only_makeSubdirs { s with fsCurUid := 0 } base homeSubdirs uid
    (fun sub hsub => ⟨hsub, (hsubs sub hsub).2⟩)).cwd
  have hgiven : Holds x (fun m => m = 0o700)
      (giveDirectory (homeSubdirs.foldl (makeSubdir base uid) { s with fsCurUid := 0 }) base uid) := by
    obtain hbase | ⟨sub, hsub, hmade⟩ := hx
    . apply (hroot.any.subdirs trivial uid fun sub hsub => (hsubs sub hsub).2).give_private
        (makeSubdirs_uid base uid homeSubdirs) hne
      rw [hcwd]
      exact hbase
    . exact (hroot.subdirs_private rfl hsub hmade hsubs uid).give rfl base uid
  unfold fsCreateHomeTree makeHomeTree
  dsimp only
  rw [if_pos hexists]
  exact ⟨hgiven.noFile, hgiven.dir⟩

end Tree

end Ops

end TanjaOS
