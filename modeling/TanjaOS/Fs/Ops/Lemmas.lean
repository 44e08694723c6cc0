import TanjaOS.Fs.Ops.Prim

/-!
Each operation is a sequence of the changes of `Prim`.
-/

open Lib

namespace TanjaOS

variable {g : Grant} {s : FsState}

theorem CStr.absPath_no_nul (s : FsState) (path : CStr) : 0 ∉ absPath s.cwd.str path :=
  TanjaOS.absPath_no_nul (Buf.zero_not_mem_str _) path.property

theorem fsCreateDirectory_cases (s : FsState) (path : CStr)
    (hcreate : g.create (absPath s.cwd.str path))
    : (∃ e, (fsCreateDirectory s path).2 = { s with fsErrno := e })
      ∨ ∃ i, (fsCreateDirectory s path).2
            = { s with fsErrno := 0 }.addDir i (absPath s.cwd.str path)
          ∧ s.dused i = 0 ∧ absPath s.cwd.str path ≠ [slash]
          ∧ (mayModifyParent { s with fsErrno := 0 } (absPath s.cwd.str path)).1
          ∧ Prim g { s with fsErrno := 0 }
              ({ s with fsErrno := 0 }.addDir i (absPath s.cwd.str path)) := by
  unfold fsCreateDirectory
  dsimp only
  split
  . exact Or.inl ⟨0, rfl⟩
  . split
    . exact Or.inl ⟨0, rfl⟩
    . next hparent =>
      split
      . exact Or.inl ⟨0, rfl⟩
      . next hroot =>
        split
        . exact Or.inl ⟨0, rfl⟩
        . next hdir =>
          split
          . exact Or.inl ⟨0, rfl⟩
          . next hfile =>
            obtain hmay | hmay := mayModifyParent_cases { s with fsErrno := 0 }
              (absPath s.cwd.str path)
            . rw [hmay]
              dsimp only
              split
              . exact Or.inl ⟨0, rfl⟩
              . next i hi =>
                have hfree := List.find?_some hi
                simp only [decide_eq_true_eq] at hfree
                have hpos : i ≠ rootSlot := by
                  rintro rfl
                  simp [rootSlot] at hfree
                rw [dirIndex_isSome] at hdir
                rw [fileIndex_isSome] at hfile
                refine Or.inr ⟨i, rfl, hfree.2, hroot, rfl, ?_⟩
                exact .addDir path i hpos hfree.2 (by simpa using hparent) hroot hdir hfile
                  (by rw [hmay]) hcreate
            . rw [hmay]
              exact Or.inl ⟨13, rfl⟩

theorem fsCreateDirectory_prims (path : CStr) (hcreate : g.create (absPath s.cwd.str path))
    : Prims g s (fsCreateDirectory s path).2 := by
  obtain ⟨e, heq⟩ | ⟨i, heq, _, _, _, hprim⟩ := fsCreateDirectory_cases s path hcreate
  . rw [heq]
    exact Prims.single (.errno e)
  . rw [heq]
    exact (Prims.single (.errno 0)).tail hprim

theorem fsCreateFile_cases (s : FsState) (path : CStr)
    (hcreate : ¬s.UsedFile (absPath s.cwd.str path) → g.create (absPath s.cwd.str path))
    : (∃ e, (fsCreateFile s path).2 = { s with fsErrno := e }
        ∧ ((fsCreateFile s path).1 = 0 → s.UsedFile (absPath s.cwd.str path)))
      ∨ ∃ i, fsCreateFile s path
            = (0, { s with fsErrno := 0 }.addFile i (absPath s.cwd.str path))
          ∧ s.fused i = 0 ∧ ¬s.UsedDir (absPath s.cwd.str path)
          ∧ (mayModifyParent { s with fsErrno := 0 } (absPath s.cwd.str path)).1
          ∧ Prim g { s with fsErrno := 0 }
              ({ s with fsErrno := 0 }.addFile i (absPath s.cwd.str path)) := by
  unfold fsCreateFile
  dsimp only
  split
  . exact Or.inl ⟨0, rfl, by simp⟩
  . split
    . exact Or.inl ⟨0, rfl, by simp⟩
    . next hparent =>
      split
      . next hfile =>
        rw [fileIndex_isSome] at hfile
        exact Or.inl ⟨0, rfl, fun _ => hfile⟩
      . next hfile =>
        split
        . exact Or.inl ⟨0, rfl, by simp⟩
        . next hdir =>
          obtain hmay | hmay := mayModifyParent_cases { s with fsErrno := 0 }
            (absPath s.cwd.str path)
          . rw [hmay]
            dsimp only
            split
            . exact Or.inl ⟨0, rfl, by simp⟩
            . next i hi =>
              have hfree := List.find?_some hi
              simp only [decide_eq_true_eq] at hfree
              rw [dirIndex_isSome] at hdir
              rw [fileIndex_isSome] at hfile
              refine Or.inr ⟨i, rfl, hfree, hdir, rfl, ?_⟩
              exact .addFile path i hfree (by simpa using hparent) hdir hfile (by rw [hmay])
                (hcreate hfile)
          . rw [hmay]
            exact Or.inl ⟨13, rfl, by simp⟩

theorem fsCreateFile_prims (path : CStr)
    (hcreate : ¬s.UsedFile (absPath s.cwd.str path) → g.create (absPath s.cwd.str path))
    : Prims g s (fsCreateFile s path).2 := by
  obtain ⟨e, heq, _⟩ | ⟨i, heq, _, _, _, hprim⟩ := fsCreateFile_cases s path hcreate
  . rw [heq]
    exact Prims.single (.errno e)
  . rw [heq]
    exact (Prims.single (.errno 0)).tail hprim

theorem fsCreateFile_index {path : CStr} {idx : Fin maxF}
    (hnone : fileIndex s (absPath s.cwd.str path) = none) (hrc : (fsCreateFile s path).1 = 0)
    (hidx : fileIndex (fsCreateFile s path).2 (absPath s.cwd.str path) = some idx)
    : s.fused idx = 0 ∧ (fsCreateFile s path).2.fused idx ≠ 0
        ∧ (fsCreateFile s path).2.fsize idx = 0 := by
  have hfile := fileIndex_eq_some hidx
  rw [fileIndex_eq_none] at hnone
  obtain ⟨e, _, hex⟩ | ⟨i, heq, hfree, _⟩ := fsCreateFile_cases (g := Grant.any) s path (fun _ => trivial)
  . obtain ⟨i, hi⟩ := hex hrc
    exact absurd hi (hnone i)
  . have hused := hfile.1
    rw [heq] at hfile hused ⊢
    rw [FsState.isFile_addFile (CStr.absPath_no_nul s path) (absPath_text _ _).length_le] at hfile
    obtain ⟨rfl, _⟩ | ⟨_, hfile⟩ := hfile
    . exact ⟨hfree, hused, by simp [FsState.addFile]⟩
    . exact absurd hfile (hnone idx)

theorem fsDeleteDirectory_cases (s : FsState) (path : CStr)
    : (∃ e, (fsDeleteDirectory s path).2 = { s with fsErrno := e }
        ∧ (fsDeleteDirectory s path).1 ≠ 0)
      ∨ ∃ i, fsDeleteDirectory s path = (0, { s with fsErrno := 0 }.dropDir i)
          ∧ s.IsDir i (absPath s.cwd.str path)
          ∧ path.val ≠ [slash]
          ∧ (∀ i, s.fused i ≠ 0 → ¬isDirectChild (absPath s.cwd.str path) (s.fname i).str)
          ∧ (∀ i, s.dused i ≠ 0 → (s.dname i).str ≠ absPath s.cwd.str path →
              ¬isDirectChild (absPath s.cwd.str path) (s.dname i).str)
          ∧ (mayModifyParent { s with fsErrno := 0 } (absPath s.cwd.str path)).1 := by
  unfold fsDeleteDirectory
  dsimp only
  by_cases hnil : path.val = []
  . simp only [hnil, ↓reduceIte]
    exact Or.inl ⟨0, rfl, by simp⟩
  . rw [if_neg hnil]
    obtain hmay | hmay := mayModifyParent_cases { s with fsErrno := 0 } (absPath s.cwd.str path)
    . rw [hmay]
      dsimp only
      rw [if_neg hnil]
      split
      . exact Or.inl ⟨0, rfl, by simp⟩
      . next hroot =>
        split
        . exact Or.inl ⟨0, rfl, by simp⟩
        . next hfiles =>
          split
          . exact Or.inl ⟨0, rfl, by simp⟩
          . next hdirs =>
            split
            . exact Or.inl ⟨0, rfl, by simp⟩
            . next i hi =>
              refine Or.inr ⟨i, rfl, dirIndex_eq_some hi, hroot, ?_, ?_, rfl⟩
              . intro i hused hchild
                exact hfiles ⟨i, hused, hchild⟩
              . intro i hused hne hchild
                exact hdirs ⟨i, hused, hne, hchild⟩
    . rw [hmay]
      exact Or.inl ⟨13, rfl, by simp⟩

theorem fsDeleteDirectory_prims (path : CStr) (hgrant : g.dropDir)
    : Prims g s (fsDeleteDirectory s path).2 := by
  obtain ⟨e, heq, _⟩ | ⟨i, heq, hdir, hroot, hfiles, hdirs, hmay⟩ := fsDeleteDirectory_cases s path
  . rw [heq]
    exact Prims.single (.errno e)
  . rw [heq]
    have herr : Prims g s { s with fsErrno := 0 } := Prims.single (.errno 0)
    exact herr.tail (.dropDir path i hdir hroot hfiles hdirs hmay hgrant)

theorem fsDeleteFile_prims (path : CStr) (hgrant : g.dropFile)
    : Prims g s (fsDeleteFile s path).2 := by
  have herr : Prims g s { s with fsErrno := 0 } := Prims.single (.errno 0)
  unfold fsDeleteFile
  dsimp only
  split
  . exact herr
  . obtain hmay | hmay := mayModifyParent_cases { s with fsErrno := 0 } (absPath s.cwd.str path)
    . rw [hmay]
      dsimp only
      split
      . exact herr
      . next i hi =>
        exact herr.tail (.dropFile path i (fileIndex_eq_some hi) (by rw [hmay]) hgrant)
    . rw [hmay]
      exact herr.tail (.errno 13)

theorem rollBack_prims {idx : Fin maxF} (size : Nat) (hused : s.fused idx ≠ 0)
    (hfail : (fdataResize s idx size).1 ≠ 0) (hcontent : g.content idx)
    (hroll : s.fsize idx = 0 → s.fdata idx = none → g.rollBack idx)
    : Prims g s (rollBack (fdataResize s idx size).2 idx) := by
  have hprim : Prims g s (fdataResize s idx size).2 := Prims.single (.resize idx size hused hcontent)
  obtain ⟨pool, hpool⟩ := FsState.fdataResize_failed hfail
  rw [hpool] at hprim ⊢
  unfold rollBack
  split
  . next h => exact hprim.tail (.rollBack idx hused h.1 h.2 (hroll h.1 h.2))
  . exact hprim

theorem store_prims {idx : Fin maxF} {offset size : Nat} {data : Bytes}
    (hfit : ¬g.wild → offset + data.length ≤ size) (hsize : s.fsize idx = size)
    (hused : s.fused idx ≠ 0) (hcontent : g.content idx)
    : Prims g s ((s.storeFile idx offset data).storeFile idx size [0]) := by
  subst hsize
  have hprim : Prims g s (s.storeFile idx offset data) :=
    Prims.single (.store idx offset data hused hfit hcontent)
  have hkeep := FsState.sameNames_storeFile (s := s) idx offset data
  rw [← FsState.fsize_storeFile (s := s) idx offset data]
  refine hprim.tail (.terminate idx ?_)
  rw [hkeep.fused]
  exact hused

theorem fsWriteFile.write_prims {data : Bytes} {idx : Fin maxF} (hused : s.fused idx ≠ 0)
    (hcontent : g.content idx)
    (hroll : s.fsize idx = 0 → s.fdata idx = none → (fdataResize s idx data.length).1 ≠ 0 →
      g.rollBack idx)
    : Prims g s (fsWriteFile.write data s idx).2 := by
  unfold fsWriteFile.write
  split
  . next hbig =>
    have hres : fdataResize s idx data.length = (-2, s) := by
      unfold fdataResize
      rw [if_pos hbig]
    have := rollBack_prims data.length hused (by simp [hres]) hcontent
      (fun hsize hdata => hroll hsize hdata (by simp [hres]))
    simpa [hres] using this
  . dsimp only
    split
    . next hfail =>
      exact rollBack_prims _ hused hfail hcontent (fun hsize hdata => hroll hsize hdata hfail)
    . next hok =>
      simp only [ne_eq, Decidable.not_not] at hok
      have hprim : Prims g s (fdataResize s idx data.length).2 :=
        Prims.single (.resize idx _ hused hcontent)
      exact hprim.trans (store_prims (fun _ => by omega) (FsState.fsize_fdataResize hok)
        (by rwa [(FsState.sameNames_fdataResize idx _).fused]) hcontent)

theorem fsWriteFile_new (path : CStr) (data : Bytes)
    (hnone : fileIndex s (absPath s.cwd.str path) = none)
    (hnew : ∀ i, s.fused i = 0 → g.content i ∧ g.rollBack i)
    : Prims g (fsCreateFile { s with fsErrno := 0 } path).2 (fsWriteFile s path data).2 := by
  have hnone' : fileIndex { s with fsErrno := 0 } (absPath s.cwd.str path) = none := hnone
  unfold fsWriteFile
  dsimp only
  rw [hnone']
  dsimp only
  split
  . exact Relation.ReflTransGen.refl
  . next hrc =>
    simp only [ne_eq, Decidable.not_not] at hrc
    split
    . exact Relation.ReflTransGen.refl
    . next idx hidx =>
      obtain ⟨hfree, hused, _⟩ := fsCreateFile_index hnone' hrc hidx
      apply fsWriteFile.write_prims hused (hnew idx hfree).1
      intro _ _ _
      exact (hnew idx hfree).2

theorem fsWriteFile_prims (path : CStr) (data : Bytes)
    (hcreate : ¬s.UsedFile (absPath s.cwd.str path) → g.create (absPath s.cwd.str path))
    (hnew : ∀ i, s.fused i = 0 → g.content i ∧ g.rollBack i)
    (hold : ∀ i, s.IsFile i (absPath s.cwd.str path) →
      permAllows s (s.fmode i) (s.fowner i) 0o200 → g.content i)
    (hroll : ∀ i, s.IsFile i (absPath s.cwd.str path) →
      permAllows s (s.fmode i) (s.fowner i) 0o200 → s.fsize i = 0 → s.fdata i = none →
      (fdataResize s i data.length).1 ≠ 0 → g.rollBack i)
    : Prims g s (fsWriteFile s path data).2 := by
  have herr : Prims g s { s with fsErrno := 0 } := Prims.single (.errno 0)
  cases hidx : fileIndex s (absPath s.cwd.str path) with
  | none =>
    have hmade : Prims g { s with fsErrno := 0 } _ := fsCreateFile_prims path hcreate
    exact (herr.trans hmade).trans (fsWriteFile_new path data hidx hnew)
  | some idx =>
    have hidx' : fileIndex { s with fsErrno := 0 } (absPath s.cwd.str path) = some idx := hidx
    have hfile : s.IsFile idx (absPath s.cwd.str path) := fileIndex_eq_some hidx
    unfold fsWriteFile
    dsimp only
    rw [hidx']
    dsimp only
    split
    . next hperm =>
      apply herr.trans
      apply fsWriteFile.write_prims (s := { s with fsErrno := 0 }) hfile.1 (hold idx hfile hperm)
      intro hsize hdata hfail
      apply hroll idx hfile hperm hsize hdata
      rwa [FsState.fdataResize_errno] at hfail
    . exact herr.tail (.errno 13)

theorem fsPreallocFile.resize_prims {size : Nat} {idx : Fin maxF} (hused : s.fused idx ≠ 0)
    (hcontent : g.content idx)
    : Prims g s (fsPreallocFile.resize size s idx).2 := by
  have hprim : Prims g s { s with fpool := fpoolCoalesce s.fpoolBytes s.fpool } :=
    Prims.single .coalesce
  have hprim := hprim.tail (.resize idx size hused hcontent)
  unfold fsPreallocFile.resize
  dsimp only
  split <;> exact hprim

theorem fsPreallocFile_new (path : CStr) (size : Nat)
    (hnone : fileIndex s (absPath s.cwd.str path) = none) (hnew : ∀ i, s.fused i = 0 → g.content i)
    : (fsPreallocFile s path size).2 = s
      ∨ Prims g (fsCreateFile s path).2 (fsPreallocFile s path size).2 := by
  unfold fsPreallocFile
  dsimp only
  rw [hnone]
  dsimp only
  split
  . exact Or.inl rfl
  . right
    split
    . exact Relation.ReflTransGen.refl
    . next hrc =>
      simp only [ne_eq, Decidable.not_not] at hrc
      split
      . exact Relation.ReflTransGen.refl
      . next idx hidx =>
        obtain ⟨hfree, hused, _⟩ := fsCreateFile_index hnone hrc hidx
        exact fsPreallocFile.resize_prims hused (hnew idx hfree)

theorem fsPreallocFile_prims (path : CStr) (size : Nat)
    (hcreate : ¬s.UsedFile (absPath s.cwd.str path) → g.create (absPath s.cwd.str path))
    (hnew : ∀ i, s.fused i = 0 → g.content i)
    (hold : ∀ i, s.IsFile i (absPath s.cwd.str path) → size ≠ 0 → size ≤ maxFileData - 1 →
      g.content i)
    : Prims g s (fsPreallocFile s path size).2 := by
  cases hidx : fileIndex s (absPath s.cwd.str path) with
  | none =>
    cases fsPreallocFile_new path size hidx hnew with
    | inl heq =>
      rw [heq]
    | inr hprims => exact (fsCreateFile_prims path hcreate).trans hprims
  | some idx =>
    have hfile := fileIndex_eq_some hidx
    unfold fsPreallocFile
    dsimp only
    rw [hidx]
    dsimp only
    split
    . exact Relation.ReflTransGen.refl
    . exact fsPreallocFile.resize_prims hfile.1 (hold idx hfile (by tauto) (by omega))

theorem fsWriteAt_prims (path : CStr) {offset : Nat} {data : Bytes}
    (hwrap : ¬g.wild → ∀ i, s.IsFile i (absPath s.cwd.str path) → s.fdata i ≠ none →
      (offset + data.length) % 2 ^ 32 ≤ s.fsize i → offset + data.length < 2 ^ 32)
    (hold : ∀ i, s.IsFile i (absPath s.cwd.str path) →
      (offset + data.length) % 2 ^ 32 ≤ s.fsize i → data ≠ [] → g.content i)
    : Prims g s (fsWriteAt s path offset data).2 := by
  unfold fsWriteAt
  dsimp only
  split
  . exact Relation.ReflTransGen.refl
  . next hdata =>
    split
    . exact Relation.ReflTransGen.refl
    . next idx hidx =>
      have hfile := fileIndex_eq_some hidx
      split
      . exact Relation.ReflTransGen.refl
      . next hheld =>
        split
        . exact Relation.ReflTransGen.refl
        . next hfit =>
          rw [Nat.not_lt] at hfit
          have hcontent := hold idx hfile hfit (by rintro rfl; simp at hdata)
          refine Prims.single (.store idx offset data hfile.1 ?_ hcontent)
          intro hwild
          rwa [Nat.mod_eq_of_lt (hwrap hwild idx hfile hheld hfit)] at hfit

theorem fsAppendFile.append_prims {data : Bytes} {idx : Fin maxF} {oldsz : Nat}
    (hused : s.fused idx ≠ 0)
    (hwrap : ¬g.wild → (oldsz + data.length) % 2 ^ 32 ≤ maxFileData - 1 → oldsz + data.length < 2 ^ 32)
    (hcontent : g.content idx)
    : Prims g s (fsAppendFile.append data s idx oldsz).2 := by
  unfold fsAppendFile.append
  dsimp only
  split
  . exact Relation.ReflTransGen.refl
  . next hfit =>
    have hprim : Prims g s (fdataResize s idx ((oldsz + data.length) % 2 ^ 32)).2 :=
      Prims.single (.resize idx _ hused hcontent)
    split
    . exact hprim
    . next hok =>
      simp only [ne_eq, Decidable.not_not] at hok
      refine hprim.trans (store_prims ?_ (FsState.fsize_fdataResize hok)
        (by rwa [(FsState.sameNames_fdataResize idx _).fused]) hcontent)
      intro hwild
      rw [Nat.mod_eq_of_lt (hwrap hwild (Nat.not_lt.mp hfit))]

theorem fsAppendFile_new (path : CStr) {data : Bytes} (hlen : data.length < 2 ^ 32)
    (hnone : fileIndex s (absPath s.cwd.str path) = none) (hnew : ∀ i, s.fused i = 0 → g.content i)
    : (fsAppendFile s path data).2 = { s with fsErrno := 0 }
      ∨ Prims g (fsCreateFile { s with fsErrno := 0 } path).2 (fsAppendFile s path data).2 := by
  have hnone' : fileIndex { s with fsErrno := 0 } (absPath s.cwd.str path) = none := hnone
  unfold fsAppendFile
  dsimp only
  rw [hnone']
  dsimp only
  split
  . exact Or.inl rfl
  . right
    split
    . exact Relation.ReflTransGen.refl
    . next hrc =>
      simp only [ne_eq, Decidable.not_not] at hrc
      split
      . exact Relation.ReflTransGen.refl
      . next idx hidx =>
        obtain ⟨hfree, hused, _⟩ := fsCreateFile_index hnone' hrc hidx
        exact fsAppendFile.append_prims hused (fun _ _ => by omega) (hnew idx hfree)

theorem fsAppendFile_prims (path : CStr) {data : Bytes}
    (hcreate : ¬s.UsedFile (absPath s.cwd.str path) → g.create (absPath s.cwd.str path))
    (hwrap : ¬g.wild → ∀ i, s.IsFile i (absPath s.cwd.str path) → path.val ≠ [] →
      permAllows s (s.fmode i) (s.fowner i) 0o200 →
      (s.fsize i + data.length) % 2 ^ 32 ≤ maxFileData - 1 → s.fsize i + data.length < 2 ^ 32)
    (hlen : data.length < 2 ^ 32)
    (hnew : ∀ i, s.fused i = 0 → g.content i)
    (hold : ∀ i, s.IsFile i (absPath s.cwd.str path) →
      permAllows s (s.fmode i) (s.fowner i) 0o200 → g.content i)
    : Prims g s (fsAppendFile s path data).2 := by
  have herr : Prims g s { s with fsErrno := 0 } := Prims.single (.errno 0)
  cases hidx : fileIndex s (absPath s.cwd.str path) with
  | none =>
    cases fsAppendFile_new path hlen hidx hnew with
    | inl heq =>
      rw [heq]
      exact herr
    | inr hprims =>
      have hmade : Prims g { s with fsErrno := 0 } _ := fsCreateFile_prims path hcreate
      exact (herr.trans hmade).trans hprims
  | some idx =>
    have hidx' : fileIndex { s with fsErrno := 0 } (absPath s.cwd.str path) = some idx := hidx
    have hfile : s.IsFile idx (absPath s.cwd.str path) := fileIndex_eq_some hidx
    unfold fsAppendFile
    dsimp only
    rw [hidx']
    dsimp only
    split
    . exact herr
    . next hpath =>
      have hne : path.val ≠ [] := fun h => hpath (Or.inl h)
      split
      . next hperm =>
        apply herr.trans
        exact fsAppendFile.append_prims (s := { s with fsErrno := 0 }) hfile.1
          (fun hwild => hwrap hwild idx hfile hne hperm) (hold idx hfile hperm)
      . exact herr.tail (.errno 13)

theorem fsChangeDirectory_prims (path : CStr) : Prims g s (fsChangeDirectory s path).2 := by
  have herr : Prims g s { s with fsErrno := 0 } := Prims.single (.errno 0)
  unfold fsChangeDirectory
  dsimp only
  split
  . exact herr.tail (.chdir _ PathText.root (by decide))
  . split
    . exact herr
    . split
      . exact herr.tail (.chdir _ (absPath_text _ _) (CStr.absPath_no_nul s path))
      . exact herr.tail (.errno 13)

theorem fsChmod_prims (path : Bytes) (mode : UInt32) (hgrant : g.mode)
    : Prims g s (fsChmod s path mode).2 := by
  unfold fsChmod
  dsimp only
  split
  . exact Relation.ReflTransGen.refl
  . split
    . next f hf =>
      split
      . next hmay =>
        apply Prims.single
        apply Prim.chmod (s := s) _ s.dmode
        . intro i hi
          by_cases hif : i = f
          . rwa [hif]
          . simp [hif] at hi
        . intro i hi
          contradiction
        . exact hgrant
      . exact Relation.ReflTransGen.refl
    . split
      . next d hd =>
        split
        . next hmay =>
          apply Prims.single
          apply Prim.chmod (s := s) s.fmode _
          . intro i hi
            contradiction
          . intro i hi
            by_cases hid : i = d
            . rwa [hid]
            . simp [hid] at hi
          . exact hgrant
        . exact Relation.ReflTransGen.refl
      . exact Relation.ReflTransGen.refl

theorem fsChmodRecursive_prims (path : Bytes) (mode : UInt32) (hgrant : g.mode)
    : Prims g s (fsChmodRecursive s path mode).2 := by
  unfold fsChmodRecursive
  split
  . exact Relation.ReflTransGen.refl
  . have hprim := fsChmod_prims (s := s) (absPath s.cwd.str path) mode hgrant
    dsimp only
    split
    . exact hprim
    . generalize (fsChmod s (absPath s.cwd.str path) mode).2 = t at *
      apply hprim.tail
      apply Prim.chmod
      . intro i hi
        split at hi
        . next hsel =>
          simp only [decide_eq_true_eq] at hsel
          exact hsel.2.2
        . contradiction
      . intro i hi
        split at hi
        . next hsel =>
          simp only [decide_eq_true_eq] at hsel
          exact hsel.2.2
        . contradiction
      . exact hgrant

theorem fsChown_prims (path : Bytes) (uid : Int32) (hgrant : s.fsCurUid = 0 → g.owner)
    : Prims g s (fsChown s path uid).2 := by
  unfold fsChown
  dsimp only
  split
  . exact Relation.ReflTransGen.refl
  . split
    . exact Relation.ReflTransGen.refl
    . next huid =>
      simp only [ne_eq, Decidable.not_not] at huid
      split
      . exact Prims.single (.chown _ _ (hgrant huid))
      . split
        . exact Prims.single (.chown _ _ (hgrant huid))
        . exact Relation.ReflTransGen.refl

theorem fsChownRecursive_prims (path : Bytes) (uid : Int32) (hgrant : s.fsCurUid = 0 → g.owner)
    : Prims g s (fsChownRecursive s path uid).2 := by
  unfold fsChownRecursive
  split
  . exact Relation.ReflTransGen.refl
  . split
    . exact Relation.ReflTransGen.refl
    . next huid =>
      simp only [ne_eq, Decidable.not_not] at huid
      have hprim := fsChown_prims (absPath s.cwd.str path) uid hgrant
      dsimp only
      split
      . exact hprim
      . exact hprim.tail (.chown _ _ (hgrant huid))

end TanjaOS
