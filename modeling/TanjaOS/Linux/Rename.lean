import TanjaOS.Fs.Effects
import TanjaOS.Linux.Flags

/-!
Both ways to rename a file. They copy it under its new name and then delete the old one.
-/

open Lib

namespace TanjaOS

section Impl

/--
`fs_get_file_size`, where a file that may not be read has a size of -2.
-/
def fsGetFileSize (s : FsState) (path : Bytes) : Nat × FsState :=
  let s := { s with fsErrno := 0 }
  if path = [] then
    (0, s)
  else
    match fileIndex s (absPath s.cwd.str path) with
    | none => (0, s)
    | some i =>
      if permAllows s (s.fmode i) (s.fowner i) 0o400 then
        (s.fsize i, s)
      else
        (2 ^ 32 - 2, fsDeny s)

/--
`rename`. `room` says whether `malloc` has `sz + 1` bytes.
-/
def rename (s : FsState) (room : Bool) (oldpath newpath : Bytes) : Int × FsState :=
  if ¬fsFileExists s oldpath then
    (-1, s)
  else
    let (sz, s) := fsGetFileSize s oldpath
    if ¬room then
      (-1, s)
    else
      let r := fsReadFile s oldpath (UInt32.ofNat (sz + 1))
      let s := r.state
      if r.rc ≠ 0 then
        (-1, s)
      else
        let tmp := r.buffer.take (r.size.getD (sz + 1))
        let (cr, s) := if fsFileExists s newpath then (0, s) else fsCreateFile s newpath
        if cr ≠ 0 then
          (-1, s)
        else
          let (w, s) := fsWriteFile s newpath tmp
          if w ≠ 0 then (-1, s) else fsDeleteFile s oldpath

def renameChunk : Nat := 65536

/--
The loop of `sys_rename`, `false` if it had to give up. `steps` is as many chunks as there can be.
-/
def renameLoop (obuf nbuf : Bytes) (total steps off : Nat) (s : FsState) : Bool × FsState :=
  match steps with
  | 0 => (true, s)
  | steps + 1 =>
    if off < total then
      let want := min (total - off) renameChunk
      let r := fsReadFileRange s obuf off want
      let got := r.size.getD 0
      if r.rc ≠ 0 ∨ got = 0 then
        (false, (fsDeleteFile r.state nbuf).2)
      else
        let (rc, s) := fsAppendFile r.state nbuf (r.buffer.take got)
        if rc ≠ 0 then
          (false, (fsDeleteFile s nbuf).2)
        else
          renameLoop obuf nbuf total steps (off + got) s
    else
      (true, s)

/--
`sys_rename` behind `lxnorm`.
-/
def renameFile (s : FsState) (obuf nbuf : Bytes) : Nat × FsState :=
  if ¬fsFileExists s obuf then
    (lxErr ENOENT_L, s)
  else if fsFileExists s nbuf then
    (lxErr EEXIST_L, s)
  else
    let (total, s) := fsGetFileSize s obuf
    let (rc, s) := fsCreateFile s nbuf
    if rc ≠ 0 then
      (lxErr 1, s)
    else
      match renameLoop obuf nbuf total total 0 s with
      | (false, s) => (lxErr 1, s)
      | (true, s) => (0, (fsDeleteFile s obuf).2)

/--
What `obuf` and `nbuf` hold.
-/
def renameBuf (s : FsState) (path : Bytes) : Bytes :=
  (lxnorm s path).take 255

def sysRename (s : FsState) (oldp newp : Bytes) : Nat × FsState :=
  renameFile s (renameBuf s oldp) (renameBuf s newp)

end Impl

section Spec

/--
A call that renames `x` to `y` has done so or has changed nothing.
-/
structure RenameSafe (s : FsState) (x y : Bytes) (done : Prop) (s' : FsState) : Prop where
  moved : done → x ≠ y → s.files x ≠ none ∧ (s'.files y).map FileView.bytes = (s.files x).map FileView.bytes
    ∧ s'.files x = none ∧ ∀ z, z ≠ x → z ≠ y → s'.files z = s.files z
  same : done → x = y → ∀ z, s'.files z = s.files z
  failed : ¬done → ∀ z, s'.files z = s.files z

/--
Whenever the copy works the old name is another one and can be deleted, and an empty file is not written without room.
-/
def RenameFine (s : FsState) (room : Bool) (old new : Bytes) : Prop :=
  ∀ i, old ≠ [] → new ≠ [] → room → fileIndex s (absPath s.cwd.str old) = some i → FileReadable s i →
    ¬EmptyFull s new (s.fileBytes i) ∧
      (WriteWorks s new (s.fileBytes i) →
        (absPath s.cwd.str old = absPath s.cwd.str new → (mayModifyParent s (absPath s.cwd.str old)).1 = false)
          ∧ (absPath s.cwd.str old ≠ absPath s.cwd.str new →
            (mayModifyParent s (absPath s.cwd.str old)).1 = true
              ∨ (s.files (absPath s.cwd.str new)).map FileView.bytes = some (s.fileBytes i)))

/--
The bytes can be appended to `new` chunk by chunk.
-/
inductive CopyFits (new : Bytes) : FsState → Bytes → Prop where
  | done (s : FsState) : CopyFits new s []
  | chunk {s : FsState} {bs : Bytes} (hne : bs ≠ []) (hrc : (fsAppendFile s new (bs.take renameChunk)).1 = 0)
      (hrest : CopyFits new (fsAppendFile s new (bs.take renameChunk)).2 (bs.drop renameChunk))
      : CopyFits new s bs

def RenameFileFine (s : FsState) (old new : Bytes) : Prop :=
  ∀ i, old ≠ [] → fileIndex s (absPath s.cwd.str old) = some i → FileReadable s i → ¬fsFileExists s new →
    CanCreate s new → CopyFits new (fsCreateFile s new).2 (s.fileBytes i) →
    (mayModifyParent s (absPath s.cwd.str old)).1 = true

def RenameKeeps (s : FsState) (room : Bool) (old new : Bytes) : Prop :=
  RenameSafe s (absPath s.cwd.str old) (absPath s.cwd.str new) ((rename s room old new).1 = 0)
    (rename s room old new).2

def SysRenameKeeps (s : FsState) (oldp newp : Bytes) : Prop :=
  RenameSafe s (absPath s.cwd.str (renameBuf s oldp)) (absPath s.cwd.str (renameBuf s newp))
    ((sysRename s oldp newp).1 = 0) (sysRename s oldp newp).2

end Spec

section Libc

variable {s : FsState} {room : Bool} {old new : CStr} {i : Fin maxF}

theorem RenameSafe.unchanged {x y : Bytes} {done : Prop} {s' : FsState} (hno : ¬done)
    : RenameSafe s x y done s' ↔ ∀ z, s'.files z = s.files z :=
  ⟨fun h => h.failed hno, fun h => ⟨fun hdone => absurd hdone hno, fun hdone => absurd hdone hno, fun _ => h⟩⟩

theorem fsFileExists_iff {path : Bytes}
    : fsFileExists s path = true ↔ path ≠ [] ∧ ∃ i, fileIndex s (absPath s.cwd.str path) = some i := by
  unfold fsFileExists
  rw [decide_eq_true_iff, Option.isSome_iff_exists]

theorem fileIndex_of_missing {path : Bytes} (hpath : path ≠ []) (h : ¬fsFileExists s path)
    : fileIndex s (absPath s.cwd.str path) = none := by
  rw [Option.eq_none_iff_forall_ne_some]
  intro k hk
  exact h (fsFileExists_iff.mpr ⟨hpath, k, hk⟩)

theorem fsGetFileSize_readable {path : Bytes} (hpath : path ≠ [])
    (hidx : fileIndex s (absPath s.cwd.str path) = some i) (hperm : FileReadable s i)
    : fsGetFileSize s path = (s.fsize i, { s with fsErrno := 0 }) := by
  have hidx' : fileIndex { s with fsErrno := 0 } (absPath s.cwd.str path) = some i := hidx
  have hperm' : permAllows { s with fsErrno := 0 } (s.fmode i) (s.fowner i) 0o400 = true := hperm
  unfold fsGetFileSize
  dsimp only
  rw [if_neg hpath, hidx']
  dsimp only
  rw [if_pos hperm']

theorem fsGetFileSize_denied {path : Bytes} (hpath : path ≠ [])
    (hidx : fileIndex s (absPath s.cwd.str path) = some i) (hperm : ¬FileReadable s i)
    : fsGetFileSize s path = (2 ^ 32 - 2, { s with fsErrno := 13 }) := by
  have hidx' : fileIndex { s with fsErrno := 0 } (absPath s.cwd.str path) = some i := hidx
  have hperm' : ¬permAllows { s with fsErrno := 0 } (s.fmode i) (s.fowner i) 0o400 = true := hperm
  unfold fsGetFileSize
  dsimp only
  rw [if_neg hpath, hidx']
  dsimp only
  rw [if_neg hperm']
  rfl

theorem made_writable (h : ContentInv s) (hnone : fileIndex s (absPath s.cwd.str new) = none)
    (hrc : (fsCreateFile s new).1 = 0)
    : ∃ k, fileIndex (fsCreateFile s new).2 (absPath s.cwd.str new) = some k
      ∧ permAllows (fsCreateFile s new).2 ((fsCreateFile s new).2.fmode k) ((fsCreateFile s new).2.fowner k) 0o200
      ∧ { (fsCreateFile s new).2 with fsErrno := 0 } = (fsCreateFile s new).2 := by
  obtain ⟨e, _, hex⟩ | ⟨k, heq, _⟩ := @fsCreateFile_cases Grant.any s new (fun _ => trivial)
  . rw [fileIndex_eq_none] at hnone
    obtain ⟨k, hk⟩ := hex hrc
    exact absurd hk (hnone k)
  . obtain ⟨idx, hidx, hnewfile⟩ := h.made hnone hrc
    have hfile : (fsCreateFile s new).2.IsFile k (absPath s.cwd.str new) := by
      rw [heq, FsState.isFile_addFile (CStr.absPath_no_nul s new) (absPath_text _ _).length_le]
      exact .inl ⟨rfl, rfl⟩
    obtain rfl := hnewfile.target.unique k hfile
    refine ⟨k, hidx, ?_, ?_⟩
    . rw [heq]
      unfold permAllows FsState.addFile
      simp only [Function.update_self]
      split
      . rfl
      . decide
    . rw [heq]
      rfl

theorem create_write_eq (data : Bytes) (h : ContentInv s) (hnew : new.val ≠ [])
    : let made := if fsFileExists s new then (0, s) else fsCreateFile s new
      (made.1 ≠ 0 → (fsWriteFile s new data).1 ≠ 0 ∧ (fsWriteFile s new data).2 = made.2)
        ∧ (made.1 = 0 → fsWriteFile made.2 new data = fsWriteFile s new data) := by
  dsimp only
  by_cases hexists : fsFileExists s new = true
  . rw [if_pos hexists]
    exact ⟨fun hne => absurd rfl hne, fun _ => rfl⟩
  . rw [if_neg hexists]
    have hnone := fileIndex_of_missing hnew hexists
    have hnone' : fileIndex { s with fsErrno := 0 } (absPath s.cwd.str new) = none := hnone
    have hmade : fsCreateFile { s with fsErrno := 0 } new = fsCreateFile s new := rfl
    constructor
    . intro hrc
      unfold fsWriteFile
      simp only [hnone', hmade]
      rw [if_pos hrc]
      exact ⟨by simp, rfl⟩
    . intro hrc
      obtain ⟨k, hk, hperm, hzero⟩ := made_writable h hnone hrc
      have hcwd : (fsCreateFile s new).2.cwd = s.cwd := (SameDirs.createFile s new).cwd
      have hleft : fsWriteFile s new data = fsWriteFile.write data (fsCreateFile s new).2 k := by
        unfold fsWriteFile
        simp only [hnone', hmade, if_neg (not_not_intro hrc), hk]
      rw [hleft, fsWriteFile_found (by rw [hcwd]; exact hk) hperm, hzero]

theorem fsReadFile_whole {path : Bytes} (h : ContentInv s) (hidx : fileIndex s (absPath s.cwd.str path) = some i)
    (hread : FileReadable s i)
    : fsReadFile s path (UInt32.ofNat (s.fsize i + 1))
      = ⟨0, s.fileBytes i ++ [0], some (s.fsize i), { s with fsErrno := 0 }⟩ := by
  have hlen := DataInv.length_fileBytes (h.sizes i).2
  have hmax := (h.sizes i).1
  have hcap : (UInt32.ofNat (s.fsize i + 1) + 1).toNat = s.fsize i + 2 := by
    rw [UInt32.toNat_add, UInt32.toNat_ofNat']
    unfold maxFileData at hmax
    simp
    omega
  have hwhole := @fsReadFilePrefix_readable { s with fsErrno := 0 } path i (s.fsize i + 2) hidx (h.sizes i).2
    (by omega) hread
  unfold fsReadFile
  rw [hcap, hwhole]
  have hbytes : { s with fsErrno := 0 }.fileBytes i = s.fileBytes i := rfl
  have hsize : min (s.fsize i) (s.fsize i + 2 - 1) = s.fsize i := by omega
  rw [hbytes, List.take_of_length_le (by omega)]
  dsimp only
  rw [hsize]

theorem rename_attempt (h : ContentInv s) (hold : old.val ≠ [])
    (hidx : fileIndex s (absPath s.cwd.str old) = some i) (hread : FileReadable s i)
    : rename s true old new =
      let made := if fsFileExists s new then (0, { s with fsErrno := 0 }) else fsCreateFile s new
      if made.1 ≠ 0 then (-1, made.2)
      else
        let w := fsWriteFile made.2 new (s.fileBytes i)
        if w.1 ≠ 0 then (-1, w.2) else fsDeleteFile w.2 old := by
  have hexists : fsFileExists s old = true := fsFileExists_iff.mpr ⟨hold, i, hidx⟩
  have hlen := DataInv.length_fileBytes (h.sizes i).2
  have hwhole : fsReadFile { s with fsErrno := 0 } old (UInt32.ofNat (s.fsize i + 1))
      = ⟨0, s.fileBytes i ++ [0], some (s.fsize i), { s with fsErrno := 0 }⟩ :=
    fsReadFile_whole (h.prims (Prims.single (.errno 0))) hidx hread
  have hbytes : (s.fileBytes i ++ [0]).take (s.fsize i) = s.fileBytes i := by
    rw [← hlen, List.take_left]
  unfold rename
  rw [if_neg (not_not_intro hexists), fsGetFileSize_readable hold hidx hread]
  dsimp only
  rw [if_neg (by simp), hwhole]
  dsimp only
  rw [if_neg (by simp), Option.getD_some, hbytes]
  have hnew : fsFileExists { s with fsErrno := 0 } new = fsFileExists s new := rfl
  have hmade : fsCreateFile { s with fsErrno := 0 } new = fsCreateFile s new := rfl
  rw [hnew, hmade]

theorem fsReadFile_denied {path : Bytes} (size : Nat) (hidx : fileIndex s (absPath s.cwd.str path) = some i)
    (hread : ¬FileReadable s i)
    : (fsReadFile s path (UInt32.ofNat (size + 1))).rc ≠ 0 := by
  unfold fsReadFile
  by_cases hcap : (UInt32.ofNat (size + 1) + 1).toNat = 0
  . rw [hcap]
    unfold fsReadFilePrefix
    simp
  . exact @fsReadFilePrefix_denied { s with fsErrno := 0 } path i _ hidx hcap hread

theorem fsReadFile_files (s : FsState) (path : Bytes) (size : UInt32) (x : Bytes)
    : (fsReadFile s path size).state.files x = s.files x := by
  unfold fsReadFile fsReadFilePrefix
  dsimp only
  split
  . rfl
  . split
    . rfl
    . split <;> rfl

theorem fsGetFileSize_files (s : FsState) (path x : Bytes) : (fsGetFileSize s path).2.files x = s.files x := by
  unfold fsGetFileSize
  dsimp only
  split
  . rfl
  . split
    . rfl
    . split <;> rfl

theorem rename_refused (hno : ∀ i, old.val ≠ [] → room = true → fileIndex s (absPath s.cwd.str old) = some i →
      ¬FileReadable s i)
    : (rename s room old new).1 ≠ 0 ∧ ∀ z, (rename s room old new).2.files z = s.files z := by
  unfold rename
  by_cases hexists : fsFileExists s old = true
  . obtain ⟨hold, i, hidx⟩ := fsFileExists_iff.mp hexists
    rw [if_neg (not_not_intro hexists)]
    dsimp only
    by_cases hroom : room = true
    . have hread := hno i hold hroom hidx
      have hidx' : fileIndex { s with fsErrno := 13 } (absPath s.cwd.str old) = some i := hidx
      have hread' : ¬FileReadable { s with fsErrno := 13 } i := hread
      rw [if_neg (not_not_intro hroom), fsGetFileSize_denied hold hidx hread]
      dsimp only
      rw [if_pos (fsReadFile_denied _ hidx' hread')]
      exact ⟨by simp, fun z => fsReadFile_files _ _ _ z⟩
    . rw [if_pos hroom]
      exact ⟨by simp, fun z => fsGetFileSize_files s old z⟩
  . rw [if_pos hexists]
    exact ⟨by simp, fun z => rfl⟩

theorem rename_nameless (h : ContentInv s) (hold : old.val ≠ [])
    (hidx : fileIndex s (absPath s.cwd.str old) = some i) (hread : FileReadable s i) (hnew : new.val = [])
    : (rename s true old new).1 ≠ 0 ∧ ∀ z, (rename s true old new).2.files z = s.files z := by
  have hnone : ¬fsFileExists s new = true := by
    rw [fsFileExists_iff, hnew]
    simp
  have hfail : fsCreateFile s new = (-1, { s with fsErrno := 0 }) := by
    unfold fsCreateFile
    rw [hnew]
    rfl
  rw [rename_attempt h hold hidx hread]
  dsimp only
  rw [if_neg hnone, hfail, if_pos (by simp)]
  exact ⟨by simp, fun z => rfl⟩

theorem rename_copied (h : ContentInv s) (hold : old.val ≠ [])
    (hidx : fileIndex s (absPath s.cwd.str old) = some i) (hread : FileReadable s i) (hnew : new.val ≠ [])
    : ((fsWriteFile s new (s.fileBytes i)).1 ≠ 0 →
          rename s true old new = (-1, (fsWriteFile s new (s.fileBytes i)).2))
        ∧ ((fsWriteFile s new (s.fileBytes i)).1 = 0 →
          rename s true old new = fsDeleteFile (fsWriteFile s new (s.fileBytes i)).2 old) := by
  have herrno : ContentInv { s with fsErrno := 0 } := h.prims (Prims.single (.errno 0))
  obtain ⟨hfail, hmade⟩ := create_write_eq (s := { s with fsErrno := 0 }) (s.fileBytes i) herrno hnew
  have hwrite : fsWriteFile { s with fsErrno := 0 } new (s.fileBytes i) = fsWriteFile s new (s.fileBytes i) := rfl
  have hcreate : fsCreateFile { s with fsErrno := 0 } new = fsCreateFile s new := rfl
  have hexists : fsFileExists { s with fsErrno := 0 } new = fsFileExists s new := rfl
  rw [hwrite, hcreate, hexists] at hfail hmade
  rw [rename_attempt h hold hidx hread]
  dsimp only
  by_cases hrc : (if fsFileExists s new = true then (0, { s with fsErrno := 0 }) else fsCreateFile s new).1 ≠ 0
  . obtain ⟨hne, hstate⟩ := hfail hrc
    rw [if_pos hrc, hstate]
    exact ⟨fun _ => rfl, fun hzero => absurd hzero hne⟩
  . rw [if_neg hrc, hmade (not_not.mp hrc)]
    constructor
    . intro hne
      rw [if_pos hne]
    . intro hzero
      rw [if_neg (not_not_intro hzero)]

theorem moved_safe_iff (h : ContentInv s) (hold : old.val ≠ [])
    (hidx : fileIndex s (absPath s.cwd.str old) = some i) (hrc : (fsWriteFile s new (s.fileBytes i)).1 = 0)
    : RenameSafe s (absPath s.cwd.str old) (absPath s.cwd.str new)
        ((fsDeleteFile (fsWriteFile s new (s.fileBytes i)).2 old).1 = 0)
        (fsDeleteFile (fsWriteFile s new (s.fileBytes i)).2 old).2
      ↔ (absPath s.cwd.str old = absPath s.cwd.str new → (mayModifyParent s (absPath s.cwd.str old)).1 = false)
        ∧ (absPath s.cwd.str old ≠ absPath s.cwd.str new →
          (mayModifyParent s (absPath s.cwd.str old)).1 = true
            ∨ (s.files (absPath s.cwd.str new)).map FileView.bytes = some (s.fileBytes i)) := by
  have hreplaced := fsWriteFile_replaced h hrc
  have hsame := fsWriteFile_same_iff h hrc
  have hdirs := SameDirs.writeFile s new (s.fileBytes i)
  have hview := files_found hidx
  have hinv := h.writeFile new (s.fileBytes i)
  generalize (fsWriteFile s new (s.fileBytes i)).2 = t at hreplaced hsame hdirs hinv ⊢
  have hpath : absPath t.cwd.str old = absPath s.cwd.str old := hdirs.absPath old
  have hthere : ∃ j, fileIndex t (absPath t.cwd.str old) = some j := by
    rw [← Option.ne_none_iff_exists']
    intro hnone
    have hgone : t.files (absPath s.cwd.str old) = none := by
      unfold FsState.files
      rw [← hpath, hnone]
      rfl
    by_cases heq : absPath s.cwd.str old = absPath s.cwd.str new
    . have hcontent := hreplaced.content
      rw [← heq, hgone] at hcontent
      contradiction
    . rw [hreplaced.other _ heq, hview] at hgone
      contradiction
  obtain ⟨j, hj⟩ := hthere
  obtain ⟨hmay, hdenied⟩ := fsDeleteFile_found hinv hold hj
  rw [hpath, hdirs.mayModify] at hmay hdenied
  cases hyes : (mayModifyParent s (absPath s.cwd.str old)).1 with
  | true =>
    obtain ⟨hdone, hfiles⟩ := hmay hyes
    by_cases heq : absPath s.cwd.str old = absPath s.cwd.str new
    . -- the only name of the file is deleted
      have hlost : ¬RenameSafe s (absPath s.cwd.str old) (absPath s.cwd.str new) ((fsDeleteFile t old).1 = 0)
          (fsDeleteFile t old).2 := by
        intro hsafe
        have hkept := hsafe.same hdone heq (absPath s.cwd.str old)
        rw [hfiles, if_pos rfl, hview] at hkept
        contradiction
      exact iff_of_false hlost (fun hall => absurd (hall.1 heq) (by simp))
    . have hsafe : RenameSafe s (absPath s.cwd.str old) (absPath s.cwd.str new) ((fsDeleteFile t old).1 = 0)
          (fsDeleteFile t old).2 := by
        refine ⟨fun _ _ => ⟨by rw [hview]; simp, ?_, ?_, ?_⟩, fun _ hxy => absurd hxy heq,
          fun hno => absurd hdone hno⟩
        . rw [hfiles, if_neg (Ne.symm heq), hreplaced.content, hview]
          rfl
        . rw [hfiles, if_pos rfl]
        . intro z hzx hzy
          rw [hfiles, if_neg hzx]
          exact hreplaced.other z hzy
      simp [hsafe, heq]
  | false =>
    obtain ⟨hfailed, hfiles⟩ := hdenied hyes
    rw [RenameSafe.unchanged hfailed]
    simp only [hfiles]
    rw [hsame]
    by_cases heq : absPath s.cwd.str old = absPath s.cwd.str new
    . rw [← heq, hview]
      simp [FsState.view]
    . simp [heq]

theorem rename_keeps_iff (h : ContentInv s) : RenameKeeps s room old new ↔ RenameFine s room old new := by
  unfold RenameKeeps
  by_cases hhas : ∃ i, old.val ≠ [] ∧ room = true ∧ fileIndex s (absPath s.cwd.str old) = some i ∧ FileReadable s i
  . obtain ⟨i, hold, rfl, hidx, hread⟩ := hhas
    by_cases hnew : new.val = []
    . obtain ⟨hrc, hsame⟩ := rename_nameless h hold hidx hread hnew
      rw [RenameSafe.unchanged hrc]
      exact ⟨fun _ _ _ hne => absurd hnew hne, fun _ => hsame⟩
    . have hfine : RenameFine s true old new ↔ ¬EmptyFull s new (s.fileBytes i) ∧ (WriteWorks s new (s.fileBytes i) →
          (absPath s.cwd.str old = absPath s.cwd.str new → (mayModifyParent s (absPath s.cwd.str old)).1 = false)
            ∧ (absPath s.cwd.str old ≠ absPath s.cwd.str new →
              (mayModifyParent s (absPath s.cwd.str old)).1 = true
                ∨ (s.files (absPath s.cwd.str new)).map FileView.bytes = some (s.fileBytes i))) := by
        constructor
        . intro hall
          exact hall i hold hnew rfl hidx hread
        . intro hone k _ _ _ hk _
          have hki : i = k := Option.some.inj (hidx.symm.trans hk)
          rw [← hki]
          exact hone
      obtain ⟨hfail, hmoved⟩ := rename_copied h hold hidx hread hnew
      have hworks := fsWriteFile_eq_zero_iff new (s.fileBytes i) h
      rw [hfine]
      by_cases hrc : (fsWriteFile s new (s.fileBytes i)).1 = 0
      . -- the copy works, what is left is to delete the old name
        have hroom : ¬EmptyFull s new (s.fileBytes i) := fun ⟨_, _, _, _, _, hfull⟩ => (hworks.mp hrc).1 hfull
        rw [hmoved hrc, moved_safe_iff h hold hidx hrc]
        exact ⟨fun hsafe => ⟨hroom, fun _ => hsafe⟩, fun hall => hall.2 (hworks.mp hrc)⟩
      . -- the copy fails, and leaves no trace unless it has dropped an empty file
        have hno : ¬WriteWorks s new (s.fileBytes i) := fun hdoes => hrc (hworks.mpr hdoes)
        rw [hfail hrc, RenameSafe.unchanged (by simp), ← fsWriteFile_atomic_iff new (s.fileBytes i) h]
        exact ⟨fun hsame => ⟨fun _ => hsame, fun hdoes => absurd hdoes hno⟩, fun hall => hall.1 hrc⟩
  . have hno : ∀ i, old.val ≠ [] → room = true → fileIndex s (absPath s.cwd.str old) = some i → ¬FileReadable s i :=
      fun i hold hroom hidx hread => hhas ⟨i, hold, hroom, hidx, hread⟩
    obtain ⟨hrc, hsame⟩ := @rename_refused s room old new hno
    rw [RenameSafe.unchanged hrc]
    exact ⟨fun _ i hold _ hroom hidx hread => absurd hread (hno i hold hroom hidx), fun _ => hsame⟩

end Libc

section Copy

variable {s t : FsState} {obuf nbuf : CStr} {x y done : Bytes} {i : Fin maxF}

/--
File `y` has been made and holds `done`, and that is all that has happened.
-/
structure Copying (s : FsState) (y done : Bytes) (t : FsState) : Prop where
  inv : ContentInv t
  dirs : SameDirs s t
  content : (t.files y).map FileView.bytes = some done
  other : ∀ z, z ≠ y → t.files z = s.files z

theorem Copying.found (h : Copying s y done t) : ∃ j, fileIndex t y = some j := by
  have hcontent := h.content
  cases hview : t.files y with
  | none =>
    rw [hview] at hcontent
    contradiction
  | some view =>
    obtain ⟨j, hj, _⟩ := files_eq_some hview
    exact ⟨j, hj⟩

theorem Copying.errno (h : Copying s y done t) (e : Nat) : Copying s y done { t with fsErrno := e } where
  inv := h.inv.prims (Prims.single (.errno e))
  dirs := h.dirs.trans (.errno t e)
  content := h.content
  other := h.other

theorem Copying.undone (h : Copying s (absPath s.cwd.str nbuf) done t) (hname : nbuf.val ≠ [])
    (hmay : (mayModifyParent s (absPath s.cwd.str nbuf)).1 = true) (habsent : s.files (absPath s.cwd.str nbuf) = none)
    : ∀ z, (fsDeleteFile t nbuf).2.files z = s.files z := by
  have hpath : absPath t.cwd.str nbuf = absPath s.cwd.str nbuf := h.dirs.absPath nbuf
  obtain ⟨j, hj⟩ := h.found
  rw [← hpath] at hj
  obtain ⟨hdone, _⟩ := fsDeleteFile_found h.inv hname hj
  rw [hpath, h.dirs.mayModify] at hdone
  obtain ⟨_, hfiles⟩ := hdone hmay
  intro z
  rw [hfiles]
  split
  . next heq =>
    rw [heq]
    exact habsent.symm
  . next hne => exact h.other z hne

theorem Copying.append (h : Copying s (absPath s.cwd.str nbuf) done t) {chunk : Bytes} (hne : chunk ≠ [])
    (hlen : chunk.length ≤ renameChunk)
    : ((fsAppendFile t nbuf chunk).1 = 0 →
          Copying s (absPath s.cwd.str nbuf) (done ++ chunk) (fsAppendFile t nbuf chunk).2)
        ∧ ((fsAppendFile t nbuf chunk).1 ≠ 0 →
          Copying s (absPath s.cwd.str nbuf) done (fsAppendFile t nbuf chunk).2) := by
  have hpath : absPath t.cwd.str nbuf = absPath s.cwd.str nbuf := h.dirs.absPath nbuf
  have hshort : chunk.length < 2 ^ 32 := by
    unfold renameChunk at hlen
    omega
  have hprims : Prims { Grant.any with wild := False } t (fsAppendFile t nbuf chunk).2 := by
    refine fsAppendFile_prims nbuf (fun _ => trivial) (fun _ j _ => ?_) hshort (fun _ _ => trivial)
      (fun _ _ _ => trivial)
    have hsize := (h.inv.sizes j).1
    unfold renameChunk at hlen
    unfold maxFileData at hsize
    omega
  have hinv := h.inv.prims hprims
  have hdirs := h.dirs.trans (.appendFile t nbuf chunk)
  constructor
  . intro hrc
    have hmax : chunk.length < maxFileData := by
      unfold renameChunk at hlen
      unfold maxFileData
      omega
    have hreplaced := fsAppendFile_replaced h.inv hne hmax hrc
    rw [hpath] at hreplaced
    refine ⟨hinv, hdirs, ?_, fun z hz => (hreplaced.other z hz).trans (h.other z hz)⟩
    rw [hreplaced.content]
    have hcontent := h.content
    cases hview : t.files (absPath s.cwd.str nbuf) with
    | none =>
      rw [hview] at hcontent
      contradiction
    | some view =>
      rw [hview] at hcontent
      rw [← Option.some.inj hcontent]
      rfl
  . intro hrc
    obtain ⟨j, hj⟩ := h.found
    have hno : ¬MadeFull t nbuf chunk := by
      rintro ⟨⟨_, _, hfile, _⟩, _⟩
      rw [hpath, ← fileIndex_isSome, hj] at hfile
      contradiction
    have hsame := (fsAppendFile_atomic_iff nbuf ⟨chunk, hshort⟩ h.inv).mpr hno hrc
    refine ⟨hinv, hdirs, ?_, fun z hz => (hsame z).trans (h.other z hz)⟩
    rw [hsame]
    exact h.content

theorem fsReadFileRange_readable {path : Bytes} {off want : Nat} (hidx : fileIndex s (absPath s.cwd.str path) = some i)
    (hread : FileReadable s i) (hwant : want ≠ 0) (hin : off + want ≤ s.fsize i)
    : fsReadFileRange s path off want
      = ⟨0, ((s.fileBytes i).drop off).take want, some want, { s with fsErrno := 0 }⟩ := by
  have hidx' : fileIndex { s with fsErrno := 0 } (absPath s.cwd.str path) = some i := hidx
  have hread' : permAllows { s with fsErrno := 0 } (s.fmode i) (s.fowner i) 0o400 := hread
  have hload : { s with fsErrno := 0 }.loadFile i off want = ((s.fileBytes i).drop off).take want := loadFile_eq hin
  have hmin : min (s.fsize i - off) want = want := by omega
  unfold fsReadFileRange
  dsimp only
  rw [if_neg hwant, hidx']
  dsimp only
  rw [if_pos hread', if_neg (by omega), hmin, hload]

theorem fsReadFileRange_denied {path : Bytes} {off want : Nat} (hidx : fileIndex s (absPath s.cwd.str path) = some i)
    (hread : ¬FileReadable s i) (hwant : want ≠ 0)
    : fsReadFileRange s path off want = ⟨-2, [], some 0, { s with fsErrno := 13 }⟩ := by
  have hidx' : fileIndex { s with fsErrno := 0 } (absPath s.cwd.str path) = some i := hidx
  have hread' : ¬permAllows { s with fsErrno := 0 } (s.fmode i) (s.fowner i) 0o400 := hread
  unfold fsReadFileRange
  dsimp only
  rw [if_neg hwant, hidx']
  dsimp only
  rw [if_neg hread']
  rfl

theorem Copying.old (h : Copying s y done t) (hxy : absPath s.cwd.str obuf ≠ y)
    (hidx : fileIndex s (absPath s.cwd.str obuf) = some i)
    : ∃ j, fileIndex t (absPath t.cwd.str obuf) = some j ∧ t.view j = s.view i
      ∧ (FileReadable t j ↔ FileReadable s i) := by
  have hpath : absPath t.cwd.str obuf = absPath s.cwd.str obuf := h.dirs.absPath obuf
  have hview : t.files (absPath s.cwd.str obuf) = some (s.view i) := by
    rw [h.other _ hxy]
    exact files_found hidx
  obtain ⟨j, hj, heq⟩ := files_eq_some hview
  refine ⟨j, by rw [hpath]; exact hj, heq, ?_⟩
  have howner : t.fowner j = s.fowner i := congrArg FileView.owner heq
  have hmode : t.fmode j = s.fmode i := congrArg FileView.mode heq
  unfold FileReadable
  rw [h.dirs.permAllows, howner, hmode]

theorem CopyFits.chunk_iff {new bs : Bytes} (hne : bs ≠ [])
    : CopyFits new t bs ↔ (fsAppendFile t new (bs.take renameChunk)).1 = 0
      ∧ CopyFits new (fsAppendFile t new (bs.take renameChunk)).2 (bs.drop renameChunk) := by
  constructor
  . intro h
    cases h with
    | done => contradiction
    | chunk _ hrc hrest => exact ⟨hrc, hrest⟩
  . rintro ⟨hrc, hrest⟩
    exact .chunk hne hrc hrest

theorem renameLoop_chunk {total steps off : Nat} {chunk : Bytes} (hlt : off < total)
    (hrange : fsReadFileRange t obuf off (min (total - off) renameChunk)
      = ⟨0, chunk, some chunk.length, { t with fsErrno := 0 }⟩)
    (hne : chunk ≠ [])
    : renameLoop obuf nbuf total (steps + 1) off t =
      if (fsAppendFile t nbuf chunk).1 ≠ 0 then (false, (fsDeleteFile (fsAppendFile t nbuf chunk).2 nbuf).2)
      else renameLoop obuf nbuf total steps (off + chunk.length) (fsAppendFile t nbuf chunk).2 := by
  have hlen : chunk.length ≠ 0 := by simpa using hne
  conv => lhs; unfold renameLoop
  rw [if_pos hlt]
  dsimp only
  rw [hrange]
  dsimp only [Option.getD_some]
  rw [if_neg (by simp [hlen])]
  simp only [List.take_length]
  rfl

theorem renameLoop_copied (hxy : absPath s.cwd.str obuf ≠ absPath s.cwd.str nbuf) (hname : nbuf.val ≠ [])
    (hmay : (mayModifyParent s (absPath s.cwd.str nbuf)).1 = true) (habsent : s.files (absPath s.cwd.str nbuf) = none)
    (hidx : fileIndex s (absPath s.cwd.str obuf) = some i) (hread : FileReadable s i)
    (hlen : (s.fileBytes i).length = s.fsize i) (steps off : Nat) (t : FsState) (hoff : off ≤ s.fsize i)
    (hsteps : s.fsize i ≤ off + steps) (h : Copying s (absPath s.cwd.str nbuf) ((s.fileBytes i).take off) t)
    : ((renameLoop obuf nbuf (s.fsize i) steps off t).1 = true ↔ CopyFits nbuf t ((s.fileBytes i).drop off))
      ∧ ((renameLoop obuf nbuf (s.fsize i) steps off t).1 = true →
        Copying s (absPath s.cwd.str nbuf) (s.fileBytes i) (renameLoop obuf nbuf (s.fsize i) steps off t).2)
      ∧ ((renameLoop obuf nbuf (s.fsize i) steps off t).1 ≠ true →
        ∀ z, (renameLoop obuf nbuf (s.fsize i) steps off t).2.files z = s.files z) := by
  have hended : ∀ off' t', off' = s.fsize i → Copying s (absPath s.cwd.str nbuf) ((s.fileBytes i).take off') t' →
      (true = true ↔ CopyFits nbuf t' ((s.fileBytes i).drop off'))
        ∧ (true = true → Copying s (absPath s.cwd.str nbuf) (s.fileBytes i) t')
        ∧ (true ≠ true → ∀ z, t'.files z = s.files z) := by
    rintro off' t' rfl hcopied
    rw [List.take_of_length_le (by omega)] at hcopied
    rw [List.drop_of_length_le (by omega)]
    exact ⟨iff_of_true rfl (.done t'), fun _ => hcopied, fun hno => absurd rfl hno⟩
  induction steps generalizing off t with
  | zero => exact hended off t (by omega) h
  | succ steps ih =>
    by_cases hlt : off < s.fsize i
    . obtain ⟨j, hj, hview, hreadable⟩ := h.old hxy hidx
      have hsize : t.fsize j = s.fsize i := congrArg FileView.size hview
      have hbytes : t.fileBytes j = s.fileBytes i := congrArg FileView.bytes hview
      have hwant : min (s.fsize i - off) renameChunk ≠ 0 := by
        unfold renameChunk
        omega
      have htake : ((s.fileBytes i).drop off).take (min (s.fsize i - off) renameChunk)
          = ((s.fileBytes i).drop off).take renameChunk := by
        rw [← hlen, ← List.length_drop, Nat.min_comm, ← List.take_take, List.take_length]
      have hgot : (((s.fileBytes i).drop off).take renameChunk).length = min (s.fsize i - off) renameChunk := by
        rw [List.length_take, List.length_drop, hlen, Nat.min_comm]
      have hrange : fsReadFileRange t obuf off (min (s.fsize i - off) renameChunk)
          = ⟨0, ((s.fileBytes i).drop off).take renameChunk,
            some (((s.fileBytes i).drop off).take renameChunk).length, { t with fsErrno := 0 }⟩ := by
        rw [fsReadFileRange_readable hj (hreadable.mpr hread) hwant (by omega), hbytes, htake, hgot]
      have hleft : (s.fileBytes i).drop off ≠ [] := by
        rw [← List.length_pos_iff, List.length_drop]
        omega
      have hchunk : ((s.fileBytes i).drop off).take renameChunk ≠ [] := by
        rw [← List.length_pos_iff, hgot]
        omega
      obtain ⟨hcopied, hfailed⟩ := h.append hchunk (List.length_take_le _ _)
      rw [renameLoop_chunk hlt hrange hchunk, CopyFits.chunk_iff hleft, hgot]
      split
      . next hrc =>
        refine ⟨iff_of_false (by simp) (fun hfits => hrc hfits.1), fun htrue => by contradiction, fun _ => ?_⟩
        exact (hfailed hrc).undone hname hmay habsent
      . next hrc =>
        rw [not_not] at hrc
        have hgrown : (s.fileBytes i).take off ++ ((s.fileBytes i).drop off).take renameChunk
            = (s.fileBytes i).take (off + min (s.fsize i - off) renameChunk) := by
          rw [← htake, ← List.take_add]
        have hrest : ((s.fileBytes i).drop off).drop renameChunk
            = (s.fileBytes i).drop (off + min (s.fsize i - off) renameChunk) := by
          rw [List.drop_drop]
          obtain hmin | hmin := Nat.le_total (s.fsize i - off) renameChunk
          . rw [Nat.min_eq_left hmin, List.drop_of_length_le (by omega), List.drop_of_length_le (by omega)]
          . rw [Nat.min_eq_right hmin]
        have hnext := hcopied hrc
        rw [hgrown] at hnext
        rw [hrest]
        simp only [hrc, true_and]
        exact ih _ _ (by omega) (by omega) hnext
    . unfold renameLoop
      rw [if_neg hlt]
      exact hended off t (by omega) h

theorem renameLoop_denied (hxy : absPath s.cwd.str obuf ≠ absPath s.cwd.str nbuf) (hname : nbuf.val ≠ [])
    (hmay : (mayModifyParent s (absPath s.cwd.str nbuf)).1 = true) (habsent : s.files (absPath s.cwd.str nbuf) = none)
    (hidx : fileIndex s (absPath s.cwd.str obuf) = some i) (hread : ¬FileReadable s i) {total : Nat} (hpos : 0 < total)
    (h : Copying s (absPath s.cwd.str nbuf) done t)
    : (renameLoop obuf nbuf total total 0 t).1 = false
      ∧ ∀ z, (renameLoop obuf nbuf total total 0 t).2.files z = s.files z := by
  obtain ⟨j, hj, _, hreadable⟩ := h.old hxy hidx
  obtain ⟨steps, rfl⟩ := Nat.exists_eq_succ_of_ne_zero (Nat.ne_of_gt hpos)
  have hwant : min (steps + 1 - 0) renameChunk ≠ 0 := by
    unfold renameChunk
    omega
  have hdenied : fsReadFileRange t obuf 0 (min (steps + 1 - 0) renameChunk) = _ :=
    fsReadFileRange_denied hj (fun hyes => hread (hreadable.mp hyes)) hwant
  unfold renameLoop
  dsimp only [Nat.succ_eq_add_one]
  rw [if_pos hpos, hdenied]
  dsimp only
  rw [if_pos (by simp)]
  exact ⟨rfl, (h.errno 13).undone hname hmay habsent⟩

theorem Copying.made (h : ContentInv s) (hnone : fileIndex s (absPath s.cwd.str nbuf) = none)
    (hrc : (fsCreateFile s nbuf).1 = 0)
    : Copying s (absPath s.cwd.str nbuf) [] (fsCreateFile s nbuf).2 := by
  obtain ⟨j, hj, hnew⟩ := h.made hnone hrc
  refine ⟨h.createFile nbuf, .createFile s nbuf, ?_, hnew.target.other⟩
  rw [files_found hj]
  simp only [Option.map_some, FsState.view, FsState.fileBytes]
  rw [hnew.fdata]

theorem copied_safe_iff (hxy : absPath s.cwd.str obuf ≠ absPath s.cwd.str nbuf) (hname : obuf.val ≠ [])
    (hidx : fileIndex s (absPath s.cwd.str obuf) = some i)
    (h : Copying s (absPath s.cwd.str nbuf) (s.fileBytes i) t)
    : RenameSafe s (absPath s.cwd.str obuf) (absPath s.cwd.str nbuf) (0 = 0) (fsDeleteFile t obuf).2
      ↔ (mayModifyParent s (absPath s.cwd.str obuf)).1 = true := by
  have hpath : absPath t.cwd.str obuf = absPath s.cwd.str obuf := h.dirs.absPath obuf
  have hview := files_found hidx
  obtain ⟨j, hj, _⟩ := h.old hxy hidx
  obtain ⟨hmay, hdenied⟩ := fsDeleteFile_found h.inv hname hj
  rw [hpath, h.dirs.mayModify] at hmay hdenied
  constructor
  . intro hsafe
    by_contra hno
    obtain ⟨_, hfiles⟩ := hdenied (Bool.eq_false_of_not_eq_true hno)
    obtain ⟨_, _, hgone, _⟩ := hsafe.moved rfl hxy
    rw [hfiles, h.other _ hxy, hview] at hgone
    contradiction
  . intro hyes
    obtain ⟨_, hfiles⟩ := hmay hyes
    refine ⟨fun _ _ => ⟨by rw [hview]; simp, ?_, ?_, ?_⟩, fun _ heq => absurd heq hxy, fun hno => absurd rfl hno⟩
    . rw [hfiles, if_neg (Ne.symm hxy), h.content, hview]
      rfl
    . rw [hfiles, if_pos rfl]
    . intro z hzx hzy
      rw [hfiles, if_neg hzx]
      exact h.other z hzy

theorem lxErr_ne_zero {e : Nat} (h : e < 2 ^ 32) : lxErr e ≠ 0 := by
  unfold lxErr
  omega

theorem renameLoop_cases (h : ContentInv s) (hidx : fileIndex s (absPath s.cwd.str obuf) = some i)
    (hname : nbuf.val ≠ []) (hthere : ¬fsFileExists s nbuf) (hrc : (fsCreateFile s nbuf).1 = 0) {total : Nat}
    (hreadable : FileReadable s i → total = s.fsize i) (hdenied : ¬FileReadable s i → 0 < total)
    : ((renameLoop obuf nbuf total total 0 (fsCreateFile s nbuf).2).1 = true ∧ FileReadable s i
          ∧ CopyFits nbuf (fsCreateFile s nbuf).2 (s.fileBytes i)
          ∧ Copying s (absPath s.cwd.str nbuf) (s.fileBytes i)
            (renameLoop obuf nbuf total total 0 (fsCreateFile s nbuf).2).2)
        ∨ ((renameLoop obuf nbuf total total 0 (fsCreateFile s nbuf).2).1 = false
          ∧ (∀ z, (renameLoop obuf nbuf total total 0 (fsCreateFile s nbuf).2).2.files z = s.files z)
          ∧ ¬(FileReadable s i ∧ CopyFits nbuf (fsCreateFile s nbuf).2 (s.fileBytes i))) := by
  have hnone := fileIndex_of_missing hname hthere
  obtain ⟨_, _, _, _, hmay, _⟩ := (fsCreateFile_eq_zero_iff hnone).mp hrc
  have hxy : absPath s.cwd.str obuf ≠ absPath s.cwd.str nbuf := by
    intro heq
    rw [← heq, hidx] at hnone
    contradiction
  have habsent : s.files (absPath s.cwd.str nbuf) = none := by
    unfold FsState.files
    rw [hnone]
    rfl
  have hmade := Copying.made h hnone hrc
  by_cases hread : FileReadable s i
  . obtain rfl := hreadable hread
    have hlen := DataInv.length_fileBytes (h.sizes i).2
    obtain ⟨hfits, hcopied, hfailed⟩ := renameLoop_copied hxy hname hmay habsent hidx hread hlen (s.fsize i) 0
      (fsCreateFile s nbuf).2 (Nat.zero_le _) (by omega) hmade
    rw [List.drop_zero] at hfits
    by_cases hok : (renameLoop obuf nbuf (s.fsize i) (s.fsize i) 0 (fsCreateFile s nbuf).2).1 = true
    . exact .inl ⟨hok, hread, hfits.mp hok, hcopied hok⟩
    . exact .inr ⟨Bool.eq_false_of_not_eq_true hok, hfailed hok, fun hboth => hok (hfits.mpr hboth.2)⟩
  . obtain ⟨hstop, hsame⟩ := renameLoop_denied hxy hname hmay habsent hidx hread (hdenied hread) hmade
    exact .inr ⟨hstop, hsame, fun hboth => hread hboth.1⟩

theorem refused_safe_iff {r : Nat × FsState} (hrc : r.1 ≠ 0) (hsame : ∀ z, r.2.files z = s.files z)
    (hfine : RenameFileFine s obuf nbuf)
    : RenameSafe s (absPath s.cwd.str obuf) (absPath s.cwd.str nbuf) (r.1 = 0) r.2 ↔ RenameFileFine s obuf nbuf := by
  rw [RenameSafe.unchanged hrc]
  exact iff_of_true hsame hfine

theorem fsGetFileSize_found (hold : obuf.val ≠ []) (hidx : fileIndex s (absPath s.cwd.str obuf) = some i)
    : ∃ total e, fsGetFileSize s obuf = (total, { s with fsErrno := e })
      ∧ (FileReadable s i → total = s.fsize i) ∧ (¬FileReadable s i → 0 < total) := by
  by_cases hread : FileReadable s i
  . exact ⟨_, _, fsGetFileSize_readable hold hidx hread, fun _ => rfl, fun hno => absurd hread hno⟩
  . exact ⟨_, _, fsGetFileSize_denied hold hidx hread, fun hyes => absurd hyes hread, fun _ => by simp⟩

theorem renameFile_safe_iff (h : ContentInv s)
    : RenameSafe s (absPath s.cwd.str obuf) (absPath s.cwd.str nbuf) ((renameFile s obuf nbuf).1 = 0)
        (renameFile s obuf nbuf).2
      ↔ RenameFileFine s obuf nbuf := by
  have herr : lxErr 1 ≠ 0 := lxErr_ne_zero (by decide)
  unfold renameFile
  by_cases hexists : fsFileExists s obuf = true
  . obtain ⟨hold, i, hidx⟩ := fsFileExists_iff.mp hexists
    have honly : ∀ k, fileIndex s (absPath s.cwd.str obuf) = some k → k = i :=
      fun k hk => Option.some.inj (hk.symm.trans hidx)
    rw [if_neg (not_not_intro hexists)]
    by_cases hthere : fsFileExists s nbuf = true
    . rw [if_pos hthere]
      exact refused_safe_iff (lxErr_ne_zero (by decide)) (fun _ => rfl) (fun _ _ _ _ hno => absurd hthere hno)
    . rw [if_neg hthere]
      have hcreate : ∀ e, fsCreateFile { s with fsErrno := e } nbuf = fsCreateFile s nbuf := fun _ => rfl
      -- an old file that may not be read is taken to be almost 4 GiB long
      obtain ⟨total, e, htotal, hreadable, hdenied⟩ := fsGetFileSize_found hold hidx
      rw [htotal]
      dsimp only
      rw [hcreate]
      by_cases hrc : (fsCreateFile s nbuf).1 = 0
      . have hname : nbuf.val ≠ [] := by
          intro hnil
          unfold fsCreateFile at hrc
          rw [hnil] at hrc
          contradiction
        have hnone := fileIndex_of_missing hname hthere
        have hcases := renameLoop_cases h hidx hname hthere hrc hreadable hdenied
        rw [if_neg (not_not_intro hrc)]
        generalize renameLoop obuf nbuf total total 0 (fsCreateFile s nbuf).2 = r at hcases ⊢
        obtain ⟨ok, t⟩ := r
        obtain ⟨hok, hread, hfits, hcopied⟩ | ⟨hok, hsame, hno⟩ := hcases
        . dsimp only at hok hcopied
          subst hok
          have hxy : absPath s.cwd.str obuf ≠ absPath s.cwd.str nbuf := by
            intro heq
            rw [← heq, hidx] at hnone
            contradiction
          have hsafe := copied_safe_iff hxy hold hidx hcopied
          dsimp only at hsafe ⊢
          rw [hsafe]
          constructor
          . intro hmay _ _ _ _ _ _ _
            exact hmay
          . intro hfine
            exact hfine i hold hidx hread hthere ((fsCreateFile_eq_zero_iff hnone).mp hrc) hfits
        . dsimp only at hok hsame
          subst hok
          apply refused_safe_iff herr hsame
          intro k _ hk hread _ _ hfits
          rw [honly k hk] at hread hfits
          exact absurd ⟨hread, hfits⟩ hno
      . rw [if_pos hrc]
        apply refused_safe_iff herr (fsCreateFile_failed hrc)
        intro _ _ _ _ _ hcan _
        exact absurd ((fsCreateFile_eq_zero_iff (fileIndex_of_missing hcan.1 hthere)).mpr hcan) hrc
  . rw [if_pos hexists]
    have hmissing : lxErr ENOENT_L ≠ 0 := lxErr_ne_zero (by decide)
    refine refused_safe_iff hmissing (fun _ => rfl) ?_
    intro i hold hidx
    exact absurd (fsFileExists_iff.mpr ⟨hold, i, hidx⟩) hexists

end Copy

section Main

theorem CStr.renameBuf_no_nul (s : FsState) (path : CStr) : 0 ∉ renameBuf s path :=
  fun h => CStr.lxnorm_no_nul s path (List.mem_of_mem_take h)

/--
For any filesystem, any user and any two paths.
-/
theorem renames_keep_iff (s₀ s : FsState) (bytes : UInt32) (uid : Int32) (room : Bool) (old new : CStr)
    (hpool : s₀.fpoolBytes = fsSetPool bytes) (hrun : FsRun (fun s c => c.NoWrap s) (fsInit s₀) s)
    : (RenameKeeps { s with fsCurUid := uid } room old new ↔ RenameFine { s with fsCurUid := uid } room old new)
      ∧ (SysRenameKeeps { s with fsCurUid := uid } old new
        ↔ RenameFileFine { s with fsCurUid := uid } (renameBuf { s with fsCurUid := uid } old)
            (renameBuf { s with fsCurUid := uid } new)) := by
  have h := ContentInv.run hpool hrun uid
  exact ⟨rename_keeps_iff h, @renameFile_safe_iff _ ⟨_, CStr.renameBuf_no_nul _ old⟩ ⟨_, CStr.renameBuf_no_nul _ new⟩ h⟩

theorem renames_keep_iff_note
    : RenameKeeps { noted with fsCurUid := 0 } true notePath copyPath
      ∧ SysRenameKeeps { noted with fsCurUid := 0 } notePath copyPath := by
  obtain ⟨hlibc, hsys⟩ := renames_keep_iff (.zeroed 64) noted 64 0 true notePath copyPath (by decide)
    (noted_run (fun _ _ hwrap => hwrap))
  have hnone : fileIndex { noted with fsCurUid := 0 } (absPath noted.cwd.str copyPath) = none := by decide +kernel
  have hmay : (mayModifyParent { noted with fsCurUid := 0 } (absPath noted.cwd.str notePath)).1 = true := by
    decide +kernel
  constructor
  . rw [hlibc]
    intro i _ _ _ _ _
    refine ⟨?_, fun _ => ⟨fun heq => absurd heq (by decide +kernel), fun _ => .inl hmay⟩⟩
    rintro ⟨j, hj, _⟩
    rw [hnone] at hj
    contradiction
  . rw [hsys]
    intro _ _ _ _ _ _ _
    decide +kernel

/--
A file that is renamed to its own name is deleted.
-/
theorem rename_deletes : ¬RenameKeeps { noted with fsCurUid := 0 } true notePath notePath := by
  intro h
  have hdone : (rename { noted with fsCurUid := 0 } true notePath notePath).1 = 0 := by decide +kernel
  have hkept := h.same hdone rfl notePath
  have hgone : (rename { noted with fsCurUid := 0 } true notePath notePath).2.files notePath = none := by
    decide +kernel
  have hbefore : { noted with fsCurUid := 0 }.files notePath ≠ none := by decide +kernel
  exact hbefore (hkept.symm.trans hgone)

end Main

end TanjaOS
