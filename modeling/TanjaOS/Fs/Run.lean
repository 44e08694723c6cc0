import TanjaOS.Lib.Run
import TanjaOS.Fs.Data
import TanjaOS.Fs.Delete.Root

/-!
Runs of the filesystem: any calls in any order, each by any user.
-/

open Lib

namespace TanjaOS

inductive FsOp where
  | createDirectory (path : CStr)
  | deleteDirectory (path : CStr)
  | deleteDirectoryRecursive (path : CStr)
  | listDirectory (path : CStr)
  | changeDirectory (path : CStr)
  | createFile (path : CStr)
  | deleteFile (path : CStr)
  | writeFile (path : CStr) (data : Data)
  | appendFile (path : CStr) (data : Data)
  | preallocFile (path : CStr) (size : UInt32)
  | writeAt (path : CStr) (offset : UInt32) (data : Data)
  | chmod (path : CStr) (mode : UInt32)
  | chmodRecursive (path : CStr) (mode : UInt32)
  | chown (path : CStr) (uid : Int32)
  | chownRecursive (path : CStr) (uid : Int32)
  | reassignUid (oldUid newUid : Int32)

namespace FsOp

/--
`fuel` bounds the nested calls of a recursive delete.
-/
def exec (op : FsOp) (fuel : Nat) (s : FsState) : Option (Int × FsState) :=
  match op with
  | createDirectory path => some (fsCreateDirectory s path)
  | deleteDirectory path => some (fsDeleteDirectory s path)
  | deleteDirectoryRecursive path => fsDeleteDirectoryRecursive fuel s path
  | listDirectory path => some ((fsListDirectory s path).1, (fsListDirectory s path).2.2)
  | changeDirectory path => some (fsChangeDirectory s path)
  | createFile path => some (fsCreateFile s path)
  | deleteFile path => some (fsDeleteFile s path)
  | writeFile path data => some (fsWriteFile s path data)
  | appendFile path data => some (fsAppendFile s path data)
  | preallocFile path size => some (fsPreallocFile s path size.toNat)
  | writeAt path offset data => some (fsWriteAt s path offset.toNat data)
  | chmod path mode => some (fsChmod s path mode)
  | chmodRecursive path mode => some (fsChmodRecursive s path mode)
  | chown path uid => some (fsChown s path uid)
  | chownRecursive path uid => some (fsChownRecursive s path uid)
  | reassignUid oldUid newUid => some (fsReassignUid s oldUid newUid)

/--
The `uint32_t` sum of offset and length does not wrap around in a write that the code does not
refuse. When it does, the bytes are not stored where the file is.
-/
def NoWrap (op : FsOp) (s : FsState) : Prop :=
  match op with
  | appendFile path data =>
    ∀ i, s.IsFile i (absPath s.cwd.str path) → path.val ≠ [] →
      permAllows s (s.fmode i) (s.fowner i) 0o200 →
      (s.fsize i + data.val.length) % 2 ^ 32 ≤ maxFileData - 1 →
      s.fsize i + data.val.length < 2 ^ 32
  | writeAt path offset data =>
    ∀ i, s.IsFile i (absPath s.cwd.str path) → s.fdata i ≠ none →
      (offset.toNat + data.val.length) % 2 ^ 32 ≤ s.fsize i →
      offset.toNat + data.val.length < 2 ^ 32
  | _ => True

/--
What `op` has to be granted in state `s`, see `Prim`.
-/
def Needs (op : FsOp) (s : FsState) (g : Grant) : Prop :=
  match op with
  | createDirectory path => g.create (absPath s.cwd.str path)
  | createFile path => ¬s.UsedFile (absPath s.cwd.str path) → g.create (absPath s.cwd.str path)
  | deleteDirectory _ => g.dropDir
  | deleteDirectoryRecursive _ => g.dropDir ∧ g.dropFile
  | deleteFile _ => g.dropFile
  | writeFile path data =>
    (¬s.UsedFile (absPath s.cwd.str path) → g.create (absPath s.cwd.str path))
      ∧ (∀ i, s.fused i = 0 → g.content i ∧ g.rollBack i)
      ∧ (∀ i, s.IsFile i (absPath s.cwd.str path) →
          permAllows s (s.fmode i) (s.fowner i) 0o200 → g.content i)
      ∧ (∀ i, s.IsFile i (absPath s.cwd.str path) →
          permAllows s (s.fmode i) (s.fowner i) 0o200 → s.fsize i = 0 → s.fdata i = none →
          (fdataResize s i data.val.length).1 ≠ 0 → g.rollBack i)
  | appendFile path _ =>
    (¬s.UsedFile (absPath s.cwd.str path) → g.create (absPath s.cwd.str path))
      ∧ (∀ i, s.fused i = 0 → g.content i)
      ∧ (∀ i, s.IsFile i (absPath s.cwd.str path) →
          permAllows s (s.fmode i) (s.fowner i) 0o200 → g.content i)
  | preallocFile path size =>
    (¬s.UsedFile (absPath s.cwd.str path) → g.create (absPath s.cwd.str path))
      ∧ (∀ i, s.fused i = 0 → g.content i)
      ∧ (∀ i, s.IsFile i (absPath s.cwd.str path) → size.toNat ≠ 0 →
          size.toNat ≤ maxFileData - 1 → g.content i)
  | writeAt path offset data =>
    ∀ i, s.IsFile i (absPath s.cwd.str path) →
      (offset.toNat + data.val.length) % 2 ^ 32 ≤ s.fsize i → data.val ≠ [] → g.content i
  | chmod _ _ | chmodRecursive _ _ => g.mode
  | chown _ _ | chownRecursive _ _ => s.fsCurUid = 0 → g.owner
  | reassignUid _ _ => g.owner
  | _ => True

end FsOp

structure FsCall where
  uid : Int32
  op : FsOp

def FsCall.NoWrap (c : FsCall) (s : FsState) : Prop :=
  c.op.NoWrap { s with fsCurUid := c.uid }

def FsCall.Step (c : FsCall) (s s' : FsState) : Prop :=
  ∃ fuel rc, c.op.exec fuel { s with fsCurUid := c.uid } = some (rc, s')

theorem FsCall.step {c : FsCall} (fuel : Nat) {s : FsState} {res : Int × FsState}
    (h : c.op.exec fuel { s with fsCurUid := c.uid } = some res)
    : c.Step s res.2 :=
  ⟨fuel, res.1, h⟩

/--
A run of calls that all meet `ok`.
-/
abbrev FsRun (ok : FsState → FsCall → Prop) : FsState → FsState → Prop :=
  Run FsCall.Step ok

theorem fsListDirectory_prims {g : Grant} {s : FsState} (path : Bytes)
    : Prims g s (fsListDirectory s path).2.2 := by
  have herr : Prims g s { s with fsErrno := 0 } := Prims.single (.errno 0)
  unfold fsListDirectory
  dsimp only
  generalize (if path = [] then s.cwd.str else absPath s.cwd.str path) = lp
  split
  . exact herr
  . split
    . split
      . exact herr
      . exact herr.tail (.errno 13)
    . exact herr

theorem FsOp.exec_prims {op : FsOp} {g : Grant} {fuel : Nat} {s s' : FsState} {rc : Int}
    (hwrap : ¬g.wild → op.NoWrap s) (hneeds : op.Needs s g) (h : op.exec fuel s = some (rc, s'))
    : Prims g s s' := by
  have hres : ∀ {x : Int × FsState}, Prims g s x.2 → some x = some (rc, s') → Prims g s s' := by
    intro x hx heq
    rwa [Option.some.inj heq] at hx
  cases op with
  | createDirectory path => exact hres (fsCreateDirectory_prims path hneeds) h
  | deleteDirectory path => exact hres (fsDeleteDirectory_prims path hneeds) h
  | deleteDirectoryRecursive path =>
    exact (fsDeleteDirectoryRecursive_deletes path.property h).prims g hneeds.1 hneeds.2
  | listDirectory path => exact hres (fsListDirectory_prims path.val) h
  | changeDirectory path => exact hres (fsChangeDirectory_prims path) h
  | createFile path => exact hres (fsCreateFile_prims path hneeds) h
  | deleteFile path => exact hres (fsDeleteFile_prims path hneeds) h
  | writeFile path data =>
    obtain ⟨hcreate, hnew, hold, hroll⟩ := hneeds
    exact hres (fsWriteFile_prims path data.val hcreate hnew hold hroll) h
  | appendFile path data =>
    obtain ⟨hcreate, hnew, hold⟩ := hneeds
    exact hres (fsAppendFile_prims path hcreate hwrap data.property hnew hold) h
  | preallocFile path size =>
    obtain ⟨hcreate, hnew, hold⟩ := hneeds
    exact hres (fsPreallocFile_prims path size.toNat hcreate hnew hold) h
  | writeAt path offset data =>
    exact hres (fsWriteAt_prims path (fun hwild i hi => hwrap hwild i hi) hneeds) h
  | chmod path mode => exact hres (fsChmod_prims path.val mode hneeds) h
  | chmodRecursive path mode => exact hres (fsChmodRecursive_prims path.val mode hneeds) h
  | chown path uid => exact hres (fsChown_prims path.val uid hneeds) h
  | chownRecursive path uid => exact hres (fsChownRecursive_prims path.val uid hneeds) h
  | reassignUid oldUid newUid => exact hres (Prims.single (.chown _ _ hneeds)) h

theorem FsOp.needs_any (op : FsOp) (s : FsState) : op.Needs s Grant.any := by
  cases op <;> simp [Needs, Grant.any]

theorem NsInv.setUid {s : FsState} (h : NsInv s) (uid : Int32) : NsInv { s with fsCurUid := uid } where
  files := h.files
  dirs := h.dirs
  cwd := h.cwd
  file_unique := h.file_unique
  dir_unique := h.dir_unique
  disjoint := h.disjoint
  parent := h.parent
  root := h.root

theorem FsCall.prims_any {c : FsCall} {s s' : FsState} (hcall : c.Step s s')
    : Prims Grant.any { s with fsCurUid := c.uid } s' := by
  obtain ⟨fuel, rc, hexec⟩ := hcall
  exact FsOp.exec_prims (fun hwild => absurd trivial hwild) (FsOp.needs_any _ _) hexec

theorem NsInv.call {c : FsCall} {s s' : FsState} (h : NsInv s) (hcall : c.Step s s') : NsInv s' :=
  (h.setUid c.uid).prims (FsCall.prims_any hcall)

theorem isDir_fsInit {s : FsState} {i : Fin maxD} {x : Bytes}
    : (fsInit s).IsDir i x ↔ i = rootSlot ∧ x = [slash] := by
  unfold FsState.IsDir fsInit
  by_cases hi : i = rootSlot
  . simp only [hi, ↓reduceIte, true_and]
    rw [str_strcpySafe (by decide) (by simp)]
    have : (1 : UInt8) ≠ 0 := by decide
    simp only [ne_eq, this, not_false_eq_true, true_and]
    exact eq_comm
  . simp [hi]

theorem not_isFile_fsInit {s : FsState} {i : Fin maxF} {x : Bytes} : ¬(fsInit s).IsFile i x := by
  rintro ⟨hused, _⟩
  exact hused rfl

theorem NsInv.init (s : FsState) : NsInv (fsInit s) where
  files i x h := absurd h not_isFile_fsInit
  dirs i x h := by
    rw [(isDir_fsInit.mp h).2]
    exact PathText.root
  cwd := by
    unfold fsInit
    rw [str_strcpySafe (by decide) (by simp)]
    exact PathText.root
  file_unique i j x h _ := absurd h not_isFile_fsInit
  dir_unique i j x hi hj := by
    rw [(isDir_fsInit.mp hi).1, (isDir_fsInit.mp hj).1]
  disjoint x hx := by
    obtain ⟨i, hi⟩ := hx
    exact absurd hi not_isFile_fsInit
  parent x cs hx hcanon hcs hpar := by
    obtain ⟨i, hi⟩ | ⟨i, hi⟩ := hx
    . exact absurd hi not_isFile_fsInit
    . rw [(isDir_fsInit.mp hi).2] at hpar
      have := congrArg List.length hpar
      have := length_render_pos cs
      simp [parentText, lastCut] at *
      omega
  root i x h := by
    obtain ⟨rfl, rfl⟩ := isDir_fsInit.mp h
    simp

theorem DataInv.setUid {s : FsState} {bs : List Block} (h : DataInv s bs) (uid : Int32)
    : DataInv { s with fsCurUid := uid } bs :=
  ⟨h.pool, h.held, h.distinct⟩

theorem DataInv.call {c : FsCall} {s s' : FsState} {bs : List Block} (hwrap : c.NoWrap s)
    (h : DataInv s bs) (hcall : c.Step s s')
    : ∃ bs', DataInv s' bs' := by
  obtain ⟨fuel, rc, hexec⟩ := hcall
  have hneeds : c.op.Needs { s with fsCurUid := c.uid } { Grant.any with wild := False } := by
    cases c.op <;> simp [FsOp.Needs, Grant.any]
  have hprims := FsOp.exec_prims (fun _ => hwrap) hneeds hexec
  exact (h.setUid c.uid).prims (fun hwild => hwild) hprims

theorem DataInv.init_run {s₀ : FsState} (h16 : 16 ∣ s₀.fpoolBytes.toNat)
    : ∃ bs, DataInv (fsInit s₀) bs :=
  ⟨_, DataInv.init (s := fsInit s₀) h16 rfl (fun _ => rfl)⟩

theorem DataInv.run {s₀ s : FsState} (h16 : 16 ∣ s₀.fpoolBytes.toNat)
    (h : FsRun (fun s c => c.NoWrap s) (fsInit s₀) s)
    : ∃ bs, DataInv s bs := by
  apply Run.keeps (I := fun s => ∃ bs, DataInv s bs) _ (DataInv.init_run h16) h
  rintro s c s' hwrap ⟨bs, hinv⟩ hcall
  exact hinv.call hwrap hcall

abbrev AnyRun : FsState → FsState → Prop :=
  FsRun (fun _ _ => True)

theorem SizeOk.init (s : FsState) : SizeOk (fsInit s) := by
  intro i
  exact ⟨Nat.zero_lt_succ _, fun _ => rfl⟩

theorem SizeOk.run {s₀ s : FsState} (h : AnyRun (fsInit s₀) s) : SizeOk s := by
  apply Run.keeps (I := SizeOk) _ (SizeOk.init s₀) h
  intro s c s' _ hok hcall
  have hstart : SizeOk { s with fsCurUid := c.uid } := hok
  exact hstart.prims (FsCall.prims_any hcall)

theorem fpoolBytes_run {ok : FsState → FsCall → Prop} {s₀ s : FsState} (h : FsRun ok (fsInit s₀) s)
    : s.fpoolBytes = s₀.fpoolBytes := by
  apply Run.keeps (I := fun s => s.fpoolBytes = s₀.fpoolBytes) _ _ h
  . intro s c s' _ heq hcall
    rw [(FsCall.prims_any hcall).fpoolBytes_eq]
    exact heq
  . rfl

end TanjaOS
