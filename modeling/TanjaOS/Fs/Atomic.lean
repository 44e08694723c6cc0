import TanjaOS.Fs.Authority
import TanjaOS.Fs.Content

/-!
What a write that fails leaves behind. `fs_write_file` takes a file off again whenever it is empty,
whether it has made it or not, and the other two operations do not take off what they have made.
-/

open Lib
open Lib.Tiling

namespace TanjaOS

/--
A call that fails leaves all files as they were.
-/
def Atomic (s : FsState) (r : Int × FsState) : Prop :=
  r.1 ≠ 0 → ∀ x, r.2.files x = s.files x

/--
`fs_create_file` takes a slot for `path`.
-/
def CanCreate (s : FsState) (path : Bytes) : Prop :=
  path ≠ [] ∧ parentExists s path ∧ ¬s.UsedFile (absPath s.cwd.str path)
    ∧ ¬s.UsedDir (absPath s.cwd.str path) ∧ (mayModifyParent s (absPath s.cwd.str path)).1
    ∧ ∃ i, s.fused i = 0

/--
An empty file that may be written, but there is no room for what is to be written.
-/
def EmptyFull (s : FsState) (path data : Bytes) : Prop :=
  ∃ i, fileIndex s (absPath s.cwd.str path) = some i ∧ permAllows s (s.fmode i) (s.fowner i) 0o200
    ∧ s.fsize i = 0 ∧ s.fdata i = none ∧ NoRoom s data.length

/--
A file that can be made, but there is no room for what is to be appended.
-/
def MadeFull (s : FsState) (path data : Bytes) : Prop :=
  CanCreate s path ∧ NoRoom s data.length

/--
A file that can be made, but there is no room for the bytes to be reserved.
-/
def MadeUnreserved (s : FsState) (path : Bytes) (size : Nat) : Prop :=
  CanCreate s path ∧ size ≠ 0 ∧ size ≤ maxFileData - 1
    ∧ NoRoom { s with fpool := fpoolCoalesce s.fpoolBytes s.fpool } size

section Resize

variable {s : FsState} {bs : List Block} {i : Fin maxF} {size : Nat}

theorem fdataResize_ne_zero_iff : (fdataResize s i size).1 ≠ 0 ↔ NoRoom s size := by
  constructor
  . exact noRoom_of_fdataResize
  . intro hroom
    unfold fdataResize
    obtain hmax | ⟨hne, hnone⟩ := hroom
    . rw [if_pos hmax]
      simp
    . rw [if_neg hne]
      split
      . simp
      . split
        . simp
        . next heq =>
          rw [heq] at hnone
          contradiction

theorem DataInv.resize_failed (h : DataInv s bs) (hroom : NoRoom s size)
    : (fdataResize s i size).2 = s := by
  have hrc := fdataResize_ne_zero_iff (i := i).mpr hroom
  by_cases hmax : maxFileData - 1 < size
  . unfold fdataResize
    rw [if_pos hmax]
  . obtain hmax' | ⟨hne, _⟩ := hroom
    . contradiction
    . have hlt : size < maxFileData := by
        have : 0 < maxFileData := by decide
        omega
      cases hfit : firstFit 8 16 (DataInv.need size) bs with
      | none => rw [h.resize_full hne hlt hfit]
      | some r => exact absurd (h.resize_fits hne hlt hfit).1 hrc

theorem DataInv.write_full {data : Bytes} (h : DataInv s bs) (hroom : NoRoom s data.length)
    : (fsWriteFile.write data s i).1 ≠ 0 ∧ (fsWriteFile.write data s i).2 = rollBack s i := by
  have hrc := fdataResize_ne_zero_iff (i := i).mpr hroom
  unfold fsWriteFile.write
  split
  . simp
  . dsimp only
    rw [if_pos hrc, h.resize_failed hroom]
    simp

theorem write_room {data : Bytes} (hroom : ¬NoRoom s data.length)
    : (fsWriteFile.write data s i).1 = 0 := by
  have hrc : ¬(fdataResize s i data.length).1 ≠ 0 := by rwa [fdataResize_ne_zero_iff]
  unfold fsWriteFile.write
  split
  . next hmax => exact absurd (Or.inl hmax) hroom
  . dsimp only
    rw [if_neg hrc]

theorem DataInv.append_failed {data : Bytes} {oldsz : Nat} (h : DataInv s bs)
    (hrc : (fsAppendFile.append data s i oldsz).1 ≠ 0)
    : (fsAppendFile.append data s i oldsz).2 = s := by
  unfold fsAppendFile.append at hrc ⊢
  dsimp only at hrc ⊢
  split
  . rfl
  . next hmax =>
    rw [if_neg hmax] at hrc
    split
    . next hfail => exact h.resize_failed (fdataResize_ne_zero_iff.mp hfail)
    . next hres =>
      rw [if_neg hres] at hrc
      contradiction

theorem append_ne_zero_iff {data : Bytes} (hlen : data.length < 2 ^ 32)
    : (fsAppendFile.append data s i 0).1 ≠ 0 ↔ NoRoom s data.length := by
  have hsum : (0 + data.length) % 2 ^ 32 = data.length := by
    rw [Nat.zero_add]
    exact Nat.mod_eq_of_lt hlen
  unfold fsAppendFile.append
  rw [hsum]
  dsimp only
  split
  . next hmax =>
    simp only [ne_eq, Int.reduceNeg, reduceCtorEq, not_false_eq_true, true_iff]
    exact Or.inl hmax
  . rw [← fdataResize_ne_zero_iff (i := i)]
    split
    . next hfail => simpa using hfail
    . next hres => simpa using hres

theorem prealloc_ne_zero_iff
    : (fsPreallocFile.resize size s i).1 ≠ 0
      ↔ NoRoom { s with fpool := fpoolCoalesce s.fpoolBytes s.fpool } size := by
  rw [← fdataResize_ne_zero_iff (i := i)]
  unfold fsPreallocFile.resize
  dsimp only
  split
  . next hfail => simpa using hfail
  . next hres => simpa using hres

theorem DataInv.prealloc_failed (h : DataInv s bs) (hrc : (fsPreallocFile.resize size s i).1 ≠ 0)
    : ∀ x, (fsPreallocFile.resize size s i).2.files x = s.files x := by
  have hroom := prealloc_ne_zero_iff.mp hrc
  obtain ⟨bs', hinv, hsame⟩ := h.coalesce
  have hfail := hinv.resize_failed (i := i) hroom
  have heq : (fsPreallocFile.resize size s i).2
      = { s with fpool := fpoolCoalesce s.fpoolBytes s.fpool } := by
    unfold fsPreallocFile.resize
    dsimp only
    rw [if_pos (fdataResize_ne_zero_iff.mpr hroom), hfail]
  rw [heq]
  intro x
  apply files_congr
  . intro j
    exact Iff.rfl
  . intro j _
    unfold FsState.view
    rw [(hsame j).bytes]

end Resize

section Created

variable {s : FsState}

theorem fsCreateFile_eq_zero_iff {path : CStr} (hnone : fileIndex s (absPath s.cwd.str path) = none)
    : (fsCreateFile s path).1 = 0 ↔ CanCreate s path := by
  have hfile : ¬s.UsedFile (absPath s.cwd.str path) := by
    rw [← fileIndex_isSome, hnone]
    simp
  have hmay : ∀ e, (mayModifyParent { s with fsErrno := e } (absPath s.cwd.str path)).1
      = (mayModifyParent s (absPath s.cwd.str path)).1 := by
    intro e
    have hidx : ∀ x, dirIndex { s with fsErrno := e } x = dirIndex s x := fun _ => rfl
    have hperm : ∀ m o b, permAllows { s with fsErrno := e } m o b = permAllows s m o b :=
      fun _ _ _ => rfl
    unfold mayModifyParent
    rw [hidx]
    cases dirIndex s (splitParent (absPath s.cwd.str path)) with
    | none => rfl
    | some d =>
      dsimp only
      rw [hperm]
      split <;> rfl
  have hidx : fileIndex { s with fsErrno := 0 } (absPath s.cwd.str path) = none := hnone
  have hdir : (dirIndex { s with fsErrno := 0 } (absPath s.cwd.str path)).isSome
      ↔ s.UsedDir (absPath s.cwd.str path) := dirIndex_isSome
  have hparent : parentExists { s with fsErrno := 0 } path = parentExists s path := rfl
  unfold CanCreate fsCreateFile
  dsimp only
  rw [hidx, hparent, ← hmay 0]
  by_cases hpath : path.val = []
  . simp [hpath]
  by_cases hpar : parentExists s path = true
  case neg => simp [hpath, hpar]
  by_cases hd : s.UsedDir (absPath s.cwd.str path)
  . simp [hpath, hpar, hd, hdir.mpr hd]
  have hd' : ¬(dirIndex { s with fsErrno := 0 } (absPath s.cwd.str path)).isSome := by rwa [hdir]
  rw [if_neg hpath, if_neg (by simpa using hpar), if_neg (by simp), if_neg hd']
  obtain hok | hok := mayModifyParent_cases { s with fsErrno := 0 } (absPath s.cwd.str path)
  . rw [hok]
    dsimp only
    cases hfind : (List.finRange maxF).find? (fun i => s.fused i = 0) with
    | none =>
      rw [List.find?_eq_none] at hfind
      simp only [List.mem_finRange, decide_eq_true_eq, true_implies] at hfind
      simp [hfind]
    | some i =>
      have hfree := List.find?_some hfind
      simp only [decide_eq_true_eq] at hfree
      simp only [true_iff]
      exact ⟨hpath, hpar, hfile, hd, trivial, i, hfree⟩
  . rw [hok]
    simp

theorem fsCreateFile_failed {path : CStr} (hrc : (fsCreateFile s path).1 ≠ 0)
    : ∀ x, (fsCreateFile s path).2.files x = s.files x := by
  obtain ⟨e, heq, _⟩ | ⟨i, heq, _⟩ := fsCreateFile_cases (g := Grant.any) s path (fun _ => trivial)
  . rw [heq]
    intro x
    rfl
  . rw [heq] at hrc
    contradiction

structure NewFile (s t : FsState) (x : Bytes) (idx : Fin maxF) : Prop where
  target : Target s t x idx
  absent : s.files x = none
  fsize : t.fsize idx = 0
  fdata : t.fdata idx = none
  fpool : t.fpool = s.fpool
  fpoolBytes : t.fpoolBytes = s.fpoolBytes

theorem ContentInv.made {path : CStr} (h : ContentInv s)
    (hnone : fileIndex s (absPath s.cwd.str path) = none) (hrc : (fsCreateFile s path).1 = 0)
    : ∃ idx, fileIndex (fsCreateFile s path).2 (absPath s.cwd.str path) = some idx
        ∧ NewFile s (fsCreateFile s path).2 (absPath s.cwd.str path) idx := by
  obtain ⟨e, _, hex⟩ | ⟨i, heq, hfree, _⟩ :=
    fsCreateFile_cases (g := Grant.any) s path (fun _ => trivial)
  . obtain ⟨j, hj⟩ := hex hrc
    rw [fileIndex_eq_none] at hnone
    exact absurd hj (hnone j)
  . have hfile : ∀ j, (fsCreateFile s path).2.IsFile j (absPath s.cwd.str path) ↔ j = i := by
      intro j
      rw [heq, FsState.isFile_addFile (CStr.absPath_no_nul s path) (absPath_text _ _).length_le]
      rw [fileIndex_eq_none] at hnone
      constructor
      . rintro (⟨hj, _⟩ | ⟨_, hj⟩)
        . exact hj
        . exact absurd hj (hnone j)
      . exact fun hj => Or.inl ⟨hj, rfl⟩
    cases hidx : fileIndex (fsCreateFile s path).2 (absPath s.cwd.str path) with
    | none =>
      rw [fileIndex_eq_none] at hidx
      exact absurd ((hfile i).mpr rfl) (hidx i)
    | some idx =>
      obtain rfl := (hfile idx).mp (fileIndex_eq_some hidx)
      refine ⟨idx, rfl, h.created path idx hnone hrc hidx, ?_, ?_, ?_, ?_, ?_⟩
      . unfold FsState.files
        rw [hnone]
        rfl
      all_goals
        rw [heq]
        simp [FsState.addFile]

namespace NewFile

variable {t : FsState} {x : Bytes} {idx : Fin maxF} {size : Nat}

theorem noRoom_iff (h : NewFile s t x idx) : NoRoom t size ↔ NoRoom s size := by
  unfold NoRoom
  rw [h.fpool, h.fpoolBytes]

theorem noRoom_coalesced_iff (h : NewFile s t x idx)
    : NoRoom { t with fpool := fpoolCoalesce t.fpoolBytes t.fpool } size
      ↔ NoRoom { s with fpool := fpoolCoalesce s.fpoolBytes s.fpool } size := by
  unfold NoRoom
  rw [h.fpool, h.fpoolBytes]

theorem files_ne (h : NewFile s t x idx) : t.files x ≠ s.files x := by
  rw [h.absent]
  unfold FsState.files
  rw [h.target.index]
  simp

theorem atomic_iff {r : Int × FsState} (h : NewFile s t x idx)
    (hkeep : r.1 ≠ 0 → ∀ y, r.2.files y = t.files y)
    : Atomic s r ↔ r.1 = 0 := by
  constructor
  . intro hatomic
    by_contra hrc
    have hx := hatomic hrc x
    rw [hkeep hrc] at hx
    exact h.files_ne hx
  . exact fun hdone hrc => absurd hdone hrc

end NewFile

theorem files_dropFile {x y : Bytes} {idx : Fin maxF} (hidx : fileIndex s x = some idx)
    (hunique : ∀ j, s.IsFile j x → j = idx)
    : (s.dropFile idx).files y = if y = x then none else s.files y := by
  split
  . next heq =>
    subst heq
    unfold FsState.files
    have hnone : fileIndex (s.dropFile idx) y = none := by
      rw [fileIndex_eq_none]
      intro j hj
      rw [FsState.isFile_dropFile] at hj
      exact hj.1 (hunique j hj.2)
    rw [hnone]
    rfl
  . next hne =>
    have hother : ∀ j, s.IsFile j y → j ≠ idx := by
      rintro j hj rfl
      apply hne
      rw [← hj.2, ← (fileIndex_eq_some hidx).2]
    apply files_congr
    . intro j
      rw [FsState.isFile_dropFile]
      exact ⟨fun hj => hj.2, fun hj => ⟨hother j hj, hj⟩⟩
    . intro j hj
      unfold FsState.view FsState.fileBytes FsState.dropFile
      simp [hother j hj]

end Created

section Ops

variable {s : FsState}

theorem Atomic.of_eq_zero {r : Int × FsState} (h : r.1 = 0) : Atomic s r :=
  fun hrc => absurd h hrc

theorem NewFile.rollBack {t : FsState} {x : Bytes} {idx : Fin maxF} (h : NewFile s t x idx)
    : ∀ y, (TanjaOS.rollBack t idx).files y = s.files y := by
  intro y
  unfold TanjaOS.rollBack
  rw [if_pos ⟨h.fsize, h.fdata⟩, files_dropFile h.target.index h.target.unique]
  split
  . next heq =>
    rw [heq]
    exact h.absent.symm
  . next hne => exact h.target.other y hne

theorem fsWriteFile_atomic_iff (path : CStr) (data : Bytes) (h : ContentInv s)
    : Atomic s (fsWriteFile s path data) ↔ ¬EmptyFull s path data := by
  obtain ⟨bs, hinv⟩ := h.inv
  cases hidx : fileIndex s (absPath s.cwd.str path) with
  | some i =>
    have hidx' : fileIndex { s with fsErrno := 0 } (absPath s.cwd.str path) = some i := hidx
    have htarget := h.found 0 hidx
    have hinv' : DataInv { s with fsErrno := 0 } bs := ⟨hinv.pool, hinv.held, hinv.distinct⟩
    have hempty : EmptyFull s path data
        ↔ permAllows s (s.fmode i) (s.fowner i) 0o200 ∧ s.fsize i = 0 ∧ s.fdata i = none
          ∧ NoRoom s data.length := by
      unfold EmptyFull
      rw [hidx]
      simp
    rw [hempty]
    unfold fsWriteFile
    dsimp only
    rw [hidx']
    dsimp only
    split
    . next hperm =>
      have hperm' : permAllows s (s.fmode i) (s.fowner i) 0o200 := hperm
      by_cases hroom : NoRoom s data.length
      . obtain ⟨hrc, hrolled⟩ := hinv'.write_full (i := i) hroom
        by_cases hfile : s.fsize i = 0 ∧ s.fdata i = none
        . -- the old file is taken for a new one
          have hgone : ¬Atomic s (fsWriteFile.write data { s with fsErrno := 0 } i) := by
            intro hatomic
            have hx := hatomic hrc (absPath s.cwd.str path)
            rw [hrolled] at hx
            unfold TanjaOS.rollBack at hx
            rw [if_pos hfile, files_dropFile hidx' htarget.unique, if_pos rfl] at hx
            unfold FsState.files at hx
            rw [hidx] at hx
            contradiction
          simp [hgone, hperm', hfile, hroom]
        . have hkept : Atomic s (fsWriteFile.write data { s with fsErrno := 0 } i) := by
            intro _ x
            rw [hrolled]
            unfold TanjaOS.rollBack
            rw [if_neg hfile]
            rfl
          simp only [hkept, true_iff]
          exact fun hbad => hfile ⟨hbad.2.1, hbad.2.2.1⟩
      . have hdone : (fsWriteFile.write data { s with fsErrno := 0 } i).1 = 0 := write_room hroom
        simp only [Atomic.of_eq_zero hdone, true_iff]
        exact fun hbad => hroom hbad.2.2.2
    . next hperm =>
      have hdeny : Atomic s (-2, fsDeny { s with fsErrno := 0 }) := fun _ _ => rfl
      simp only [hdeny, true_iff]
      exact fun hbad => hperm hbad.1
  | none =>
    have hidx' : fileIndex { s with fsErrno := 0 } (absPath s.cwd.str path) = none := hidx
    have hmade : fsCreateFile { s with fsErrno := 0 } path = fsCreateFile s path := rfl
    have hempty : ¬EmptyFull s path data := by
      unfold EmptyFull
      rw [hidx]
      simp
    simp only [hempty, not_false_eq_true, iff_true]
    unfold fsWriteFile
    dsimp only
    rw [hidx', hmade]
    dsimp only
    split
    . next hfail => exact fun _ => fsCreateFile_failed hfail
    . next hcreate =>
      simp only [ne_eq, Decidable.not_not] at hcreate
      obtain ⟨i, hi, hnew⟩ := h.made hidx hcreate
      obtain ⟨bs', hinv'⟩ := hnew.target.inv
      rw [hi]
      dsimp only
      by_cases hroom : NoRoom (fsCreateFile s path).2 data.length
      . obtain ⟨_, hrolled⟩ := hinv'.write_full (i := i) hroom
        intro _ x
        rw [hrolled]
        exact hnew.rollBack x
      . exact Atomic.of_eq_zero (write_room hroom)

theorem fsAppendFile_atomic_iff (path : CStr) (data : Data) (h : ContentInv s)
    : Atomic s (fsAppendFile s path data) ↔ ¬MadeFull s path data := by
  obtain ⟨bs, hinv⟩ := h.inv
  have hzero : data.val = [] → ¬MadeFull s path data := by
    rintro hnil ⟨_, hroom⟩
    rw [hnil] at hroom
    obtain hmax | ⟨hne, _⟩ := hroom
    . simp at hmax
    . simp at hne
  have hpath : path.val = [] → ¬MadeFull s path data := fun hnil hmade => hmade.1.1 hnil
  cases hidx : fileIndex s (absPath s.cwd.str path) with
  | some i =>
    have hidx' : fileIndex { s with fsErrno := 0 } (absPath s.cwd.str path) = some i := hidx
    have hinv' : DataInv { s with fsErrno := 0 } bs := ⟨hinv.pool, hinv.held, hinv.distinct⟩
    have hmade : ¬MadeFull s path data := by
      rintro ⟨⟨_, _, hfile, _⟩, _⟩
      rw [← fileIndex_isSome, hidx] at hfile
      contradiction
    simp only [hmade, not_false_eq_true, iff_true]
    unfold fsAppendFile
    dsimp only
    rw [hidx']
    dsimp only
    split
    . exact fun _ _ => rfl
    . split
      . intro hrc x
        rw [hinv'.append_failed hrc]
        rfl
      . exact fun _ _ => rfl
  | none =>
    have hidx' : fileIndex { s with fsErrno := 0 } (absPath s.cwd.str path) = none := hidx
    have hmade : fsCreateFile { s with fsErrno := 0 } path = fsCreateFile s path := rfl
    unfold fsAppendFile
    dsimp only
    rw [hidx', hmade]
    dsimp only
    split
    . next hargs =>
      have hno : ¬MadeFull s path data := by
        obtain hnil | hnil := hargs
        . exact hpath hnil
        . exact hzero (List.length_eq_zero_iff.mp hnil)
      simp only [hno, not_false_eq_true, iff_true]
      exact fun _ _ => rfl
    . split
      . next hfail =>
        have hno : ¬MadeFull s path data := by
          rintro ⟨hcreate, _⟩
          rw [← fsCreateFile_eq_zero_iff hidx] at hcreate
          contradiction
        simp only [hno, not_false_eq_true, iff_true]
        exact fun _ => fsCreateFile_failed hfail
      . next hcreate =>
        simp only [ne_eq, Decidable.not_not] at hcreate
        obtain ⟨i, hi, hnew⟩ := h.made hidx hcreate
        obtain ⟨bs', hinv'⟩ := hnew.target.inv
        have hfull : MadeFull s path data
            ↔ (fsAppendFile.append data (fsCreateFile s path).2 i 0).1 ≠ 0 := by
          rw [append_ne_zero_iff data.property, hnew.noRoom_iff]
          unfold MadeFull
          rw [← fsCreateFile_eq_zero_iff hidx]
          simp [hcreate]
        rw [hi, hfull]
        dsimp only
        rw [not_not]
        apply hnew.atomic_iff
        intro hrc x
        rw [hinv'.append_failed hrc]

theorem fsPreallocFile_atomic_iff (path : CStr) (size : Nat) (h : ContentInv s)
    : Atomic s (fsPreallocFile s path size) ↔ ¬MadeUnreserved s path size := by
  obtain ⟨bs, hinv⟩ := h.inv
  unfold fsPreallocFile
  dsimp only
  split
  . next hargs =>
    have hno : ¬MadeUnreserved s path size := by
      rintro ⟨hcreate, hne, hle, _⟩
      obtain hnil | hzero | hmax := hargs
      . exact hcreate.1 hnil
      . exact hne hzero
      . omega
    simp only [hno, not_false_eq_true, iff_true]
    exact fun _ _ => rfl
  . next hargs =>
    cases hidx : fileIndex s (absPath s.cwd.str path) with
    | some i =>
      have hno : ¬MadeUnreserved s path size := by
        rintro ⟨⟨_, _, hfile, _⟩, _⟩
        rw [← fileIndex_isSome, hidx] at hfile
        contradiction
      simp only [hno, not_false_eq_true, iff_true]
      exact hinv.prealloc_failed
    | none =>
      dsimp only
      split
      . next hfail =>
        have hno : ¬MadeUnreserved s path size := by
          rintro ⟨hcreate, _⟩
          rw [← fsCreateFile_eq_zero_iff hidx] at hcreate
          contradiction
        simp only [hno, not_false_eq_true, iff_true]
        exact fun _ => fsCreateFile_failed hfail
      . next hcreate =>
        simp only [ne_eq, Decidable.not_not] at hcreate
        obtain ⟨i, hi, hnew⟩ := h.made hidx hcreate
        obtain ⟨bs', hinv'⟩ := hnew.target.inv
        have hfull : MadeUnreserved s path size
            ↔ (fsPreallocFile.resize size (fsCreateFile s path).2 i).1 ≠ 0 := by
          rw [prealloc_ne_zero_iff, hnew.noRoom_coalesced_iff]
          unfold MadeUnreserved
          rw [← fsCreateFile_eq_zero_iff hidx]
          simp only [hcreate, true_and]
          have hne : size ≠ 0 := by omega
          have hle : size ≤ maxFileData - 1 := by omega
          simp only [hne, hle, ne_eq, not_false_eq_true, true_and]
        rw [hi, hfull]
        dsimp only
        rw [not_not]
        apply hnew.atomic_iff
        exact hinv'.prealloc_failed

end Ops

/--
Every write to `s` by `uid` that fails leaves the files alone.
-/
structure WritesAtomic (s : FsState) (uid : Int32) : Prop where
  write : ∀ (path : CStr) (data : Data), Atomic s (fsWriteFile { s with fsCurUid := uid } path data)
  append : ∀ (path : CStr) (data : Data),
    Atomic s (fsAppendFile { s with fsCurUid := uid } path data)
  prealloc : ∀ (path : CStr) (size : UInt32),
    Atomic s (fsPreallocFile { s with fsCurUid := uid } path size.toNat)

/--
Any run without a wrapped write, and then any write.
-/
theorem failed_writes_atomic (s₀ s : FsState) (bytes : UInt32) (uid : Int32)
    (hpool : s₀.fpoolBytes = fsSetPool bytes)
    (hrun : FsRun (fun s c => c.NoWrap s) (fsInit s₀) s)
    : (∀ (path : CStr) (data : Data),
        Atomic s (fsWriteFile { s with fsCurUid := uid } path data)
          ↔ ¬EmptyFull { s with fsCurUid := uid } path data)
      ∧ (∀ (path : CStr) (data : Data),
        Atomic s (fsAppendFile { s with fsCurUid := uid } path data)
          ↔ ¬MadeFull { s with fsCurUid := uid } path data)
      ∧ ∀ (path : CStr) (size : UInt32),
        Atomic s (fsPreallocFile { s with fsCurUid := uid } path size.toNat)
          ↔ ¬MadeUnreserved { s with fsCurUid := uid } path size.toNat := by
  have h := ContentInv.run hpool hrun uid
  refine ⟨?_, ?_, ?_⟩
  . intro path data
    exact fsWriteFile_atomic_iff path data h
  . intro path data
    exact fsAppendFile_atomic_iff path data h
  . intro path size
    exact fsPreallocFile_atomic_iff path size.toNat h

section Example

/-!
Root makes `/a`. The pool is too small for what is written to it then.
-/

def longData : Data :=
  ⟨List.replicate 64 1, by decide⟩

def emptied : FsState :=
  (fsCreateFile { fsInit (.zeroed 64) with fsCurUid := 0 } notePath).2

theorem emptied_run {ok : FsState → FsCall → Prop} (hok : ∀ s c, c.NoWrap s → ok s c)
    : FsRun ok (fsInit (.zeroed 64)) emptied := by
  have hcreate : FsCall.Step ⟨0, .createFile notePath⟩ (fsInit (.zeroed 64)) emptied :=
    FsCall.step 0 rfl
  exact Run.call .refl hcreate (hok _ _ trivial)

end Example

/--
Root cannot write to a file that is not empty, and nothing happens.
-/
theorem failed_writes_atomic_noted
    : (fsWriteFile { noted with fsCurUid := 0 } notePath longData).1 = -3
      ∧ ∀ x, (fsWriteFile { noted with fsCurUid := 0 } notePath longData).2.files x
          = noted.files x := by
  have hrc : (fsWriteFile { noted with fsCurUid := 0 } notePath longData).1 = -3 := by
    decide +kernel
  have hwrite := (failed_writes_atomic (.zeroed 64) noted 64 0 (by decide)
    (noted_run (fun _ _ hwrap => hwrap))).1 notePath longData
  have hfull : ¬EmptyFull { noted with fsCurUid := 0 } notePath longData := by
    rintro ⟨i, hidx, _, hsize, _⟩
    have hfirst : fileIndex { noted with fsCurUid := 0 } (absPath noted.cwd.str notePath)
        = some ⟨0, by decide⟩ := by decide +kernel
    rw [hfirst] at hidx
    injection hidx with hidx
    subst hidx
    revert hsize
    decide +kernel
  refine ⟨hrc, hwrite.mpr hfull ?_⟩
  rw [hrc]
  decide

/--
The empty `/a` is gone.
-/
theorem failed_writes_leave_traces
    : ¬∀ s₀ s bytes uid, s₀.fpoolBytes = fsSetPool bytes → AnyRun (fsInit s₀) s →
        WritesAtomic s uid := by
  intro h
  have hwrite := (h (.zeroed 64) emptied 64 0 (by decide) (emptied_run (fun _ _ _ => trivial))).write
    notePath longData (by decide +kernel) notePath.val
  revert hwrite
  decide +kernel

end TanjaOS
