import TanjaOS.Fs.Ops.Lemmas

/-!
The namespace. Nothing but the names themselves says which entry lies in which directory, so the
invariant is one about texts.
-/

open Lib

namespace TanjaOS

open FsState (SameNames)

/--
What holds of the names after any operations. Whether the root is in use is not part of it.
-/
structure NsInv (s : FsState) : Prop where
  files : ∀ i x, s.IsFile i x → PathText x
  dirs : ∀ i x, s.IsDir i x → PathText x
  cwd : PathText s.cwd.str
  file_unique : ∀ i j x, s.IsFile i x → s.IsFile j x → i = j
  dir_unique : ∀ i j x, s.IsDir i x → s.IsDir j x → i = j
  disjoint : ∀ x, s.UsedFile x → ¬s.UsedDir x
  parent : ∀ x cs, s.UsedFile x ∨ s.UsedDir x → Canon cs → cs ≠ [] → parentText x = render cs →
    s.UsedDir (render cs)
  root : ∀ i x, s.IsDir i x → (x = [slash] ↔ i = rootSlot)

namespace FsState.SameNames

variable {s s' : FsState}

theorem isFile (h : SameNames s s') (i : Fin maxF) (x : Bytes) : s'.IsFile i x ↔ s.IsFile i x := by
  unfold FsState.IsFile
  rw [h.fused, h.fname]

theorem isDir (h : SameNames s s') (i : Fin maxD) (x : Bytes) : s'.IsDir i x ↔ s.IsDir i x := by
  unfold FsState.IsDir
  rw [h.dused, h.dname]

theorem usedFile (h : SameNames s s') (x : Bytes) : s'.UsedFile x ↔ s.UsedFile x :=
  exists_congr fun i => h.isFile i x

theorem usedDir (h : SameNames s s') (x : Bytes) : s'.UsedDir x ↔ s.UsedDir x :=
  exists_congr fun i => h.isDir i x

end FsState.SameNames

theorem isDirectChild_of_parentText {x y : Bytes} (hx : x.length ≤ 255) (hy : y ≠ [])
    (h : parentText x = y)
    : isDirectChild y x := by
  obtain ⟨w, hw, rfl⟩ := eq_of_parentText h hy
  simp only [List.length_append, List.length_cons] at hx
  have hlen : strlenSafe y = y.length := by
    unfold strlenSafe
    omega
  have hlen' : strlenSafe (y ++ slash :: w) = y.length + (w.length + 1) := by
    unfold strlenSafe
    simp only [List.length_append, List.length_cons]
    omega
  unfold isDirectChild
  rw [hlen, hlen']
  simp [hw]

theorem usedDir_of_parentExists {s : FsState} {path : Bytes} {cs : List Bytes}
    (h : parentExists s path) (hcanon : Canon cs) (hcs : cs ≠ [])
    (hparent : parentText (absPath s.cwd.str path) = render cs)
    : s.UsedDir (render cs) := by
  have hone := (one_lt_length_render hcanon.comps).mpr hcs
  obtain ⟨w, _, hfull⟩ := eq_of_parentText hparent (by rintro heq; simp [heq] at hone)
  unfold parentExists at h
  dsimp only at h
  split at h
  . next hlen =>
    unfold strlenSafe at hlen
    rw [hfull] at hlen
    simp only [List.length_append, List.length_cons] at hlen
    omega
  . split at h
    . next hcut =>
      have := congrArg List.length hparent
      unfold parentText at this
      simp only [List.length_take] at this
      omega
    . change fsDirectoryExists s (parentText (absPath s.cwd.str path)) = true at h
      rw [hparent] at h
      unfold fsDirectoryExists at h
      have hne : render cs ≠ [] := by
        intro heq
        simp [heq] at hone
      have hroot : render cs ≠ [slash] := by
        intro heq
        simp [heq] at hone
      rw [if_neg hne, if_neg hroot, absPath_render hcanon, dirIndex_isSome] at h
      exact h

namespace NsInv

variable {g : Grant} {s s' : FsState}

theorem mono (h : NsInv s) (hfile : ∀ i x, s'.IsFile i x → s.IsFile i x)
    (hdir : ∀ i x, s'.IsDir i x → s.IsDir i x) (hcwd : PathText s'.cwd.str)
    (hparent : ∀ x cs, s'.UsedFile x ∨ s'.UsedDir x → Canon cs → cs ≠ [] →
      parentText x = render cs → s.UsedDir (render cs) → s'.UsedDir (render cs))
    : NsInv s' where
  files := by
    intro i x hx
    exact h.files i x (hfile i x hx)
  dirs := by
    intro i x hx
    exact h.dirs i x (hdir i x hx)
  cwd := hcwd
  file_unique := by
    intro i j x hi hj
    exact h.file_unique i j x (hfile i x hi) (hfile j x hj)
  dir_unique := by
    intro i j x hi hj
    exact h.dir_unique i j x (hdir i x hi) (hdir j x hj)
  disjoint := by
    rintro x ⟨i, hi⟩ ⟨j, hj⟩
    exact h.disjoint x ⟨i, hfile i x hi⟩ ⟨j, hdir j x hj⟩
  parent := by
    intro x cs hx hcanon hcs hpar
    apply hparent x cs hx hcanon hcs hpar
    apply h.parent x cs ?_ hcanon hcs hpar
    obtain ⟨i, hi⟩ | ⟨i, hi⟩ := hx
    . exact Or.inl ⟨i, hfile i x hi⟩
    . exact Or.inr ⟨i, hdir i x hi⟩
  root := by
    intro i x hx
    exact h.root i x (hdir i x hx)

theorem congr (h : NsInv s) (hsame : SameNames s s') : NsInv s' := by
  apply h.mono
  . intro i x
    exact (hsame.isFile i x).mp
  . intro i x
    exact (hsame.isDir i x).mp
  . rw [hsame.cwd]
    exact h.cwd
  . intro x cs _ _ _ _ hpar
    rwa [hsame.usedDir]

theorem dropFile {i : Fin maxF} (h : NsInv s) : NsInv (s.dropFile i) := by
  apply h.mono
  . intro j x hx
    exact (FsState.isFile_dropFile.mp hx).2
  . intro j x hx
    exact hx
  . exact h.cwd
  . intro x cs _ _ _ _ hpar
    exact hpar

theorem dropDir {x : Bytes} {i : Fin maxD} (h : NsInv s) (hdir : s.IsDir i x)
    (hfiles : ∀ i, s.fused i ≠ 0 → ¬isDirectChild x (s.fname i).str)
    (hdirs : ∀ i, s.dused i ≠ 0 → (s.dname i).str ≠ x → ¬isDirectChild x (s.dname i).str)
    : NsInv (s.dropDir i) := by
  have hne : x ≠ [] := (h.dirs i x hdir).ne_nil
  apply h.mono
  . intro j y hy
    exact hy
  . intro j y hy
    exact (FsState.isDir_dropDir.mp hy).2
  . exact h.cwd
  . rintro y cs hy _ _ hpar ⟨j, hj⟩
    refine ⟨j, FsState.isDir_dropDir.mpr ⟨?_, hj⟩⟩
    rintro rfl
    -- the parent would be the directory that goes, and the test would have seen its child
    have hx : render cs = x := hj.2.symm.trans hdir.2
    rw [hx] at hpar
    obtain ⟨k, hk⟩ | ⟨k, hk⟩ := hy
    . have hchild := isDirectChild_of_parentText (h.files k y hk).length_le hne hpar
      rw [← hk.2] at hchild
      exact hfiles k hk.1 hchild
    . obtain ⟨hkj, hk⟩ := FsState.isDir_dropDir.mp hk
      have hchild := isDirectChild_of_parentText (h.dirs k y hk).length_le hne hpar
      rw [← hk.2] at hchild
      apply hdirs k hk.1 ?_ hchild
      intro heq
      exact hkj (h.dir_unique k j x ⟨hk.1, heq⟩ hdir)

theorem addDir {path : CStr} {i : Fin maxD} (h : NsInv s) (hpos : i ≠ rootSlot)
    (hfree : s.dused i = 0) (hparent : parentExists s path)
    (hroot : absPath s.cwd.str path ≠ [slash])
    (hdir : ¬s.UsedDir (absPath s.cwd.str path)) (hfile : ¬s.UsedFile (absPath s.cwd.str path))
    : NsInv (s.addDir i (absPath s.cwd.str path)) := by
  have htext := absPath_text s.cwd.str path
  have hiff : ∀ j y, (s.addDir i (absPath s.cwd.str path)).IsDir j y
      ↔ (j = i ∧ y = absPath s.cwd.str path) ∨ (j ≠ i ∧ s.IsDir j y) := by
    intro j y
    exact FsState.isDir_addDir (CStr.absPath_no_nul s path) htext.length_le
  have hmono : ∀ y, s.UsedDir y → (s.addDir i (absPath s.cwd.str path)).UsedDir y := by
    rintro y ⟨j, hj⟩
    refine ⟨j, (hiff j y).mpr (Or.inr ⟨?_, hj⟩)⟩
    rintro rfl
    exact hj.1 hfree
  refine ⟨h.files, ?_, h.cwd, h.file_unique, ?_, ?_, ?_, ?_⟩
  . intro j y hy
    rw [hiff] at hy
    obtain ⟨_, rfl⟩ | ⟨_, hy⟩ := hy
    . exact htext
    . exact h.dirs j y hy
  . intro j k y hj hk
    rw [hiff] at hj hk
    obtain ⟨rfl, rfl⟩ | ⟨_, hj⟩ := hj
    . obtain ⟨rfl, _⟩ | ⟨_, hk⟩ := hk
      . rfl
      . exact absurd ⟨k, hk⟩ hdir
    . obtain ⟨rfl, rfl⟩ | ⟨_, hk⟩ := hk
      . exact absurd ⟨j, hj⟩ hdir
      . exact h.dir_unique j k y hj hk
  . rintro y hy ⟨j, hj⟩
    rw [hiff] at hj
    obtain ⟨_, rfl⟩ | ⟨_, hj⟩ := hj
    . exact hfile hy
    . exact h.disjoint y hy ⟨j, hj⟩
  . intro y cs hy hcanon hcs hpar
    apply hmono
    obtain hy | ⟨j, hj⟩ := hy
    . exact h.parent y cs (Or.inl hy) hcanon hcs hpar
    . rw [hiff] at hj
      obtain ⟨_, rfl⟩ | ⟨_, hj⟩ := hj
      . exact usedDir_of_parentExists hparent hcanon hcs hpar
      . exact h.parent y cs (Or.inr ⟨j, hj⟩) hcanon hcs hpar
  . intro j y hy
    rw [hiff] at hy
    obtain ⟨rfl, rfl⟩ | ⟨_, hy⟩ := hy
    . simp [hpos, hroot]
    . exact h.root j y hy

theorem addFile {path : CStr} {i : Fin maxF} (h : NsInv s) (hparent : parentExists s path)
    (hdir : ¬s.UsedDir (absPath s.cwd.str path)) (hfile : ¬s.UsedFile (absPath s.cwd.str path))
    : NsInv (s.addFile i (absPath s.cwd.str path)) := by
  have htext := absPath_text s.cwd.str path
  have hiff : ∀ j y, (s.addFile i (absPath s.cwd.str path)).IsFile j y
      ↔ (j = i ∧ y = absPath s.cwd.str path) ∨ (j ≠ i ∧ s.IsFile j y) := by
    intro j y
    exact FsState.isFile_addFile (CStr.absPath_no_nul s path) htext.length_le
  refine ⟨?_, h.dirs, h.cwd, ?_, h.dir_unique, ?_, ?_, h.root⟩
  . intro j y hy
    rw [hiff] at hy
    obtain ⟨_, rfl⟩ | ⟨_, hy⟩ := hy
    . exact htext
    . exact h.files j y hy
  . intro j k y hj hk
    rw [hiff] at hj hk
    obtain ⟨rfl, rfl⟩ | ⟨_, hj⟩ := hj
    . obtain ⟨rfl, _⟩ | ⟨_, hk⟩ := hk
      . rfl
      . exact absurd ⟨k, hk⟩ hfile
    . obtain ⟨rfl, rfl⟩ | ⟨_, hk⟩ := hk
      . exact absurd ⟨j, hj⟩ hfile
      . exact h.file_unique j k y hj hk
  . rintro y ⟨j, hj⟩ hy
    rw [hiff] at hj
    obtain ⟨_, rfl⟩ | ⟨_, hj⟩ := hj
    . exact hdir hy
    . exact h.disjoint y ⟨j, hj⟩ hy
  . intro y cs hy hcanon hcs hpar
    obtain ⟨j, hj⟩ | hy := hy
    . rw [hiff] at hj
      obtain ⟨_, rfl⟩ | ⟨_, hj⟩ := hj
      . exact usedDir_of_parentExists hparent hcanon hcs hpar
      . exact h.parent y cs (Or.inl ⟨j, hj⟩) hcanon hcs hpar
    . exact h.parent y cs (Or.inr hy) hcanon hcs hpar

theorem prim (h : NsInv s) (hprim : Prim g s s') : NsInv s' := by
  cases hprim with
  | errno => exact h.congr ⟨rfl, rfl, rfl, rfl, rfl, rfl⟩
  | chdir x htext hnul =>
    apply h.mono
    . intro i y hy
      exact hy
    . intro i y hy
      exact hy
    . dsimp only
      rwa [str_strcpySafe hnul htext.length_le]
    . intro y cs _ _ _ _ hpar
      exact hpar
  | addDir path i hpos hfree hparent hroot hdir hfile =>
    exact h.addDir hpos hfree hparent hroot hdir hfile
  | dropDir path i hdir _ hfiles hdirs => exact h.dropDir hdir hfiles hdirs
  | addFile path i _ hparent hdir hfile => exact h.addFile hparent hdir hfile
  | dropFile path i => exact (h.dropFile (i := i)).congr ⟨rfl, rfl, rfl, rfl, rfl, rfl⟩
  | rollBack i => exact h.dropFile
  | coalesce => exact h.congr ⟨rfl, rfl, rfl, rfl, rfl, rfl⟩
  | resize i size => exact h.congr (FsState.sameNames_fdataResize i size)
  | store i offset data => exact h.congr (FsState.sameNames_storeFile i offset data)
  | terminate i => exact h.congr (FsState.sameNames_storeFile i _ _)
  | chmod => exact h.congr ⟨rfl, rfl, rfl, rfl, rfl, rfl⟩
  | chown => exact h.congr ⟨rfl, rfl, rfl, rfl, rfl, rfl⟩

theorem prims (h : NsInv s) (hprims : Prims g s s') : NsInv s' := by
  induction hprims with
  | refl => exact h
  | tail _ hprim ih => exact ih.prim hprim

end NsInv

end TanjaOS
