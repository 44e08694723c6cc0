import TanjaOS.Fs.Atomic

/-!
What the file operations do to the map of files, and what they leave alone.
-/

open Lib

namespace TanjaOS

structure SameDirs (s s' : FsState) : Prop where
  dname : s'.dname = s.dname
  dused : s'.dused = s.dused
  downer : s'.downer = s.downer
  dmode : s'.dmode = s.dmode
  cwd : s'.cwd = s.cwd
  fsCurUid : s'.fsCurUid = s.fsCurUid

namespace SameDirs

variable {s s' s'' : FsState}

theorem refl (s : FsState) : SameDirs s s :=
  ⟨rfl, rfl, rfl, rfl, rfl, rfl⟩

theorem trans (h : SameDirs s s') (h' : SameDirs s' s'') : SameDirs s s'' where
  dname := h'.dname.trans h.dname
  dused := h'.dused.trans h.dused
  downer := h'.downer.trans h.downer
  dmode := h'.dmode.trans h.dmode
  cwd := h'.cwd.trans h.cwd
  fsCurUid := h'.fsCurUid.trans h.fsCurUid

theorem errno (s : FsState) (e : Nat) : SameDirs s { s with fsErrno := e } :=
  ⟨rfl, rfl, rfl, rfl, rfl, rfl⟩

theorem of_frame (h : s'.frame = s.frame) : SameDirs s s' where
  dname := (congrArg FsState.dname h :)
  dused := (congrArg FsState.dused h :)
  downer := (congrArg FsState.downer h :)
  dmode := (congrArg FsState.dmode h :)
  cwd := (congrArg FsState.cwd h :)
  fsCurUid := (congrArg FsState.fsCurUid h :)

theorem permAllows (h : SameDirs s s') (mode : UInt16) (owner : Int32) (bit : UInt16)
    : TanjaOS.permAllows s' mode owner bit = TanjaOS.permAllows s mode owner bit := by
  unfold TanjaOS.permAllows
  rw [h.fsCurUid]

theorem mayModify (h : SameDirs s s') (x : Bytes) : (mayModifyParent s' x).1 = (mayModifyParent s x).1 := by
  have hidx : dirIndex s' (splitParent x) = dirIndex s (splitParent x) := by
    unfold dirIndex
    congr 1
    funext d
    rw [decide_eq_decide]
    unfold FsState.IsDir
    rw [h.dname, h.dused]
  unfold mayModifyParent
  rw [hidx]
  cases dirIndex s (splitParent x) with
  | none => rfl
  | some d =>
    dsimp only
    rw [h.permAllows, h.dmode, h.downer]
    split <;> rfl

theorem absPath (h : SameDirs s s') (path : Bytes) : absPath s'.cwd.str path = TanjaOS.absPath s.cwd.str path := by
  rw [h.cwd]

theorem createFile (s : FsState) (path : CStr) : SameDirs s (fsCreateFile s path).2 := by
  obtain ⟨e, heq, _⟩ | ⟨i, heq, _⟩ := @fsCreateFile_cases Grant.any s path (fun _ => trivial)
  . rw [heq]
    exact .errno s e
  . rw [heq]
    exact ⟨rfl, rfl, rfl, rfl, rfl, rfl⟩

theorem rollBack (s : FsState) (i : Fin maxF) : SameDirs s (rollBack s i) := by
  unfold TanjaOS.rollBack
  split
  . exact ⟨rfl, rfl, rfl, rfl, rfl, rfl⟩
  . exact .refl s

theorem write (data : Bytes) (s : FsState) (i : Fin maxF) : SameDirs s (fsWriteFile.write data s i).2 := by
  have hresize : SameDirs s (fdataResize s i data.length).2 := .of_frame (FsState.frame_fdataResize i _)
  unfold fsWriteFile.write
  split
  . exact .rollBack s i
  . dsimp only
    split
    . exact hresize.trans (.rollBack _ i)
    . exact (hresize.trans (.of_frame (FsState.frame_storeFile i _ _))).trans
        (.of_frame (FsState.frame_storeFile i _ _))

theorem append (data : Bytes) (s : FsState) (i : Fin maxF) (oldsz : Nat)
    : SameDirs s (fsAppendFile.append data s i oldsz).2 := by
  unfold fsAppendFile.append
  dsimp only
  split
  . exact .refl s
  . have hresize : SameDirs s (fdataResize s i ((oldsz + data.length) % 2 ^ 32)).2 :=
      .of_frame (FsState.frame_fdataResize i _)
    split
    . exact hresize
    . exact (hresize.trans (.of_frame (FsState.frame_storeFile i _ _))).trans
        (.of_frame (FsState.frame_storeFile i _ _))

theorem writeFile (s : FsState) (path : CStr) (data : Bytes) : SameDirs s (fsWriteFile s path data).2 := by
  have herr := SameDirs.errno s 0
  have hmade := SameDirs.createFile s path
  have hcreate : fsCreateFile { s with fsErrno := 0 } path = fsCreateFile s path := rfl
  unfold fsWriteFile
  dsimp only
  split
  . split
    . exact herr.trans (.write data _ _)
    . exact .errno s 13
  . rw [hcreate]
    split
    . exact hmade
    . split
      . exact hmade
      . exact hmade.trans (.write data _ _)

theorem appendFile (s : FsState) (path : CStr) (data : Bytes) : SameDirs s (fsAppendFile s path data).2 := by
  have herr := SameDirs.errno s 0
  have hmade := SameDirs.createFile s path
  have hcreate : fsCreateFile { s with fsErrno := 0 } path = fsCreateFile s path := rfl
  unfold fsAppendFile
  dsimp only
  split
  . exact herr
  . split
    . split
      . exact herr.trans (.append data _ _ _)
      . exact .errno s 13
    . rw [hcreate]
      split
      . exact hmade
      . split
        . exact hmade
        . exact hmade.trans (.append data _ _ _)

end SameDirs

section Files

variable {s : FsState} {x : Bytes}

theorem files_found {i : Fin maxF} (hidx : fileIndex s x = some i) : s.files x = some (s.view i) := by
  unfold FsState.files
  rw [hidx]
  rfl

theorem files_eq_some {view : FileView} (h : s.files x = some view)
    : ∃ j, fileIndex s x = some j ∧ s.view j = view := by
  unfold FsState.files at h
  cases hidx : fileIndex s x with
  | none =>
    rw [hidx] at h
    contradiction
  | some j =>
    rw [hidx] at h
    exact ⟨j, rfl, Option.some.inj h⟩

end Files

section Delete

variable {s : FsState}

theorem ContentInv.prims {s' : FsState} (h : ContentInv s) (hprims : Prims { Grant.any with wild := False } s s')
    : ContentInv s' := by
  obtain ⟨bs, hinv⟩ := h.inv
  exact ⟨h.names.prims hprims, hinv.prims (fun hwild => hwild) hprims, h.sizes.prims hprims⟩

theorem files_dropFile_freeData {x y : Bytes} {i : Fin maxF} (h : ContentInv s) (hidx : fileIndex s x = some i)
    : ((s.dropFile i).freeData i).files y = if y = x then none else s.files y := by
  obtain ⟨bs, hinv⟩ := h.inv
  obtain ⟨_, _, _, _, hother⟩ := (hinv.dropFile i).1.freeData i
  rw [← files_dropFile hidx (fun j hj => h.names.file_unique j i x hj (fileIndex_eq_some hidx))]
  apply files_congr
  . intro j
    exact Iff.rfl
  . intro j hj
    have hji : j ≠ i := (FsState.isFile_dropFile.mp hj).1
    unfold FsState.view
    rw [(hother j hji).bytes]
    simp [FsState.freeData, hji]

theorem fsDeleteFile_found {path : Bytes} {i : Fin maxF} (h : ContentInv s) (hpath : path ≠ [])
    (hidx : fileIndex s (absPath s.cwd.str path) = some i)
    : ((mayModifyParent s (absPath s.cwd.str path)).1 = true →
          (fsDeleteFile s path).1 = 0
            ∧ ∀ y, (fsDeleteFile s path).2.files y = if y = absPath s.cwd.str path then none else s.files y)
        ∧ ((mayModifyParent s (absPath s.cwd.str path)).1 = false →
          (fsDeleteFile s path).1 ≠ 0 ∧ ∀ y, (fsDeleteFile s path).2.files y = s.files y) := by
  have hidx' : fileIndex { s with fsErrno := 0 } (absPath s.cwd.str path) = some i := hidx
  have hmay := (SameDirs.errno s 0).mayModify (absPath s.cwd.str path)
  have hinv : ContentInv { s with fsErrno := 0 } := h.prims (Prims.single (.errno 0))
  unfold fsDeleteFile
  dsimp only
  rw [if_neg hpath, ← hmay]
  obtain hyes | hno := mayModifyParent_cases { s with fsErrno := 0 } (absPath s.cwd.str path)
  . rw [hyes]
    dsimp only
    rw [hidx']
    refine ⟨fun _ => ⟨rfl, fun y => ?_⟩, fun hfalse => by contradiction⟩
    exact files_dropFile_freeData hinv hidx'
  . rw [hno]
    dsimp only
    exact ⟨fun htrue => by contradiction, fun _ => ⟨by simp, fun y => rfl⟩⟩

end Delete

section Write

variable {s : FsState}

def WriteWorks (s : FsState) (path data : Bytes) : Prop :=
  ¬NoRoom s data.length ∧
    ((∃ i, fileIndex s (absPath s.cwd.str path) = some i ∧ permAllows s (s.fmode i) (s.fowner i) 0o200)
      ∨ CanCreate s path)

theorem fsWriteFile_eq_zero_iff (path : CStr) (data : Bytes) (h : ContentInv s)
    : (fsWriteFile s path data).1 = 0 ↔ WriteWorks s path data := by
  have hwrite : ∀ (t : FsState) bs i, DataInv t bs → ((fsWriteFile.write data t i).1 = 0 ↔ ¬NoRoom t data.length) := by
    intro t bs i hinv
    constructor
    . intro hrc hroom
      exact (hinv.write_full hroom).1 hrc
    . exact write_room
  unfold WriteWorks
  cases hidx : fileIndex s (absPath s.cwd.str path) with
  | some i =>
    obtain ⟨bs, hinv⟩ := (h.prims (Prims.single (.errno 0))).inv
    have hidx' : fileIndex { s with fsErrno := 0 } (absPath s.cwd.str path) = some i := hidx
    have hno : ¬CanCreate s path := by
      rintro ⟨_, _, hfile, _⟩
      rw [← fileIndex_isSome, hidx] at hfile
      contradiction
    have hperm : permAllows { s with fsErrno := 0 } (s.fmode i) (s.fowner i) 0o200
        = permAllows s (s.fmode i) (s.fowner i) 0o200 := rfl
    unfold fsWriteFile
    dsimp only
    rw [hidx']
    dsimp only
    rw [hperm]
    simp only [Option.some.injEq, exists_eq_left', hno, or_false]
    split
    . next hyes =>
      rw [hwrite _ bs i hinv]
      exact ⟨fun hroom => ⟨hroom, hyes⟩, fun hall => hall.1⟩
    . next hdeny => exact ⟨fun hrc => by contradiction, fun hall => absurd hall.2 hdeny⟩
  | none =>
    have hidx' : fileIndex { s with fsErrno := 0 } (absPath s.cwd.str path) = none := hidx
    have hmade : fsCreateFile { s with fsErrno := 0 } path = fsCreateFile s path := rfl
    have hcan := fsCreateFile_eq_zero_iff hidx
    unfold fsWriteFile
    dsimp only
    rw [hidx', hmade]
    dsimp only
    simp only [reduceCtorEq, false_and, exists_false, false_or]
    rw [← hcan]
    split
    . next hfail => exact ⟨fun hrc => by contradiction, fun hall => absurd hall.2 hfail⟩
    . next hcreate =>
      simp only [ne_eq, Decidable.not_not] at hcreate
      obtain ⟨i, hi, hnew⟩ := h.made hidx hcreate
      obtain ⟨bs, hinv⟩ := hnew.target.inv
      rw [hi]
      dsimp only
      rw [hwrite _ bs i hinv, hnew.noRoom_iff]
      exact ⟨fun hroom => ⟨hroom, hcreate⟩, fun hall => hall.1⟩

theorem fsWriteFile_found {path data : Bytes} {i : Fin maxF} (hidx : fileIndex s (absPath s.cwd.str path) = some i)
    (hperm : permAllows s (s.fmode i) (s.fowner i) 0o200)
    : fsWriteFile s path data = fsWriteFile.write data { s with fsErrno := 0 } i := by
  have hidx' : fileIndex { s with fsErrno := 0 } (absPath s.cwd.str path) = some i := hidx
  have hperm' : permAllows { s with fsErrno := 0 } (s.fmode i) (s.fowner i) 0o200 := hperm
  unfold fsWriteFile
  dsimp only
  rw [hidx']
  dsimp only
  rw [if_pos hperm']

theorem fsWriteFile_view {path : CStr} {data : Bytes} {i : Fin maxF} (h : ContentInv s)
    (hidx : fileIndex s (absPath s.cwd.str path) = some i) (hrc : (fsWriteFile s path data).1 = 0)
    : (fsWriteFile s path data).2.files (absPath s.cwd.str path)
        = some ⟨data, data.length, s.fowner i, s.fmode i⟩ := by
  have hreplaced := fsWriteFile_replaced h hrc
  have hframe : (fsWriteFile s path data).2.frame = { s with fsErrno := 0 }.frame := by
    have hidx' : fileIndex { s with fsErrno := 0 } (absPath s.cwd.str path) = some i := hidx
    unfold fsWriteFile at hrc ⊢
    dsimp only at hrc ⊢
    rw [hidx'] at hrc ⊢
    dsimp only at hrc ⊢
    split
    . next hperm =>
      rw [if_pos hperm] at hrc
      unfold fsWriteFile.write at hrc ⊢
      split
      . next hmax =>
        rw [if_pos hmax] at hrc
        contradiction
      . next hmax =>
        rw [if_neg hmax] at hrc
        dsimp only at hrc ⊢
        split
        . next hfail =>
          rw [if_pos hfail] at hrc
          contradiction
        . rw [FsState.frame_storeFile, FsState.frame_storeFile, FsState.frame_fdataResize]
    . next hperm =>
      rw [if_neg hperm] at hrc
      contradiction
  have hindex : fileIndex (fsWriteFile s path data).2 (absPath s.cwd.str path) = some i := by
    rw [← hidx]
    apply fileIndex_congr
    intro j
    unfold FsState.IsFile
    rw [show (fsWriteFile s path data).2.fused = s.fused from (congrArg FsState.fused hframe :),
      show (fsWriteFile s path data).2.fname = s.fname from (congrArg FsState.fname hframe :)]
  have hcontent := hreplaced.content
  have hsize := hreplaced.size
  unfold FsState.files at hcontent hsize ⊢
  rw [hindex] at hcontent hsize ⊢
  simp only [Option.map_some, Option.some.injEq, FsState.view] at hcontent hsize ⊢
  rw [hcontent, hsize, show (fsWriteFile s path data).2.fowner = s.fowner from (congrArg FsState.fowner hframe :),
    show (fsWriteFile s path data).2.fmode = s.fmode from (congrArg FsState.fmode hframe :)]

theorem fsWriteFile_same_iff {path : CStr} {data : Bytes} (h : ContentInv s) (hrc : (fsWriteFile s path data).1 = 0)
    : (∀ y, (fsWriteFile s path data).2.files y = s.files y)
        ↔ (s.files (absPath s.cwd.str path)).map FileView.bytes = some data := by
  have hreplaced := fsWriteFile_replaced h hrc
  constructor
  . intro hsame
    rw [← hsame]
    exact hreplaced.content
  . intro hbytes y
    by_cases hy : y = absPath s.cwd.str path
    . subst hy
      cases hidx : fileIndex s (absPath s.cwd.str path) with
      | none =>
        unfold FsState.files at hbytes
        rw [hidx] at hbytes
        contradiction
      | some i =>
        rw [files_found hidx] at hbytes ⊢
        have hdata : s.fileBytes i = data := Option.some.inj hbytes
        rw [fsWriteFile_view h hidx hrc, ← hdata, DataInv.length_fileBytes (h.sizes i).2]
        rfl
    . exact hreplaced.other y hy

theorem ContentInv.writeFile (path : CStr) (data : Bytes) (h : ContentInv s)
    : ContentInv (fsWriteFile s path data).2 :=
  h.prims (fsWriteFile_prims path data (fun _ => trivial) (fun _ _ => ⟨trivial, trivial⟩) (fun _ _ _ => trivial)
    (fun _ _ _ _ _ _ => trivial))

theorem ContentInv.createFile (path : CStr) (h : ContentInv s) : ContentInv (fsCreateFile s path).2 :=
  h.prims (fsCreateFile_prims path (fun _ => trivial))

end Write

end TanjaOS
