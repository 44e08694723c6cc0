import TanjaOS.Fs.Run

/-!
The names in the tables as a tree, and its root.
-/

open Lib

namespace TanjaOS

namespace FsOp

/--
The name that `op` may add.
-/
def created (op : FsOp) (s : FsState) : Option Bytes :=
  match op with
  | createDirectory path | createFile path | writeFile path _ | appendFile path _
  | preallocFile path _ => some (absPath s.cwd.str path)
  | _ => none

/--
The path that `op` deletes.
-/
def deleted (op : FsOp) : Option CStr :=
  match op with
  | deleteDirectory path | deleteDirectoryRecursive path | deleteFile path => some path
  | _ => none

end FsOp

/--
No two entries have the same name, and the text before the last slash of a name is empty or the name
of a directory.
-/
structure NamesOk (s : FsState) : Prop where
  file_unique : ∀ i j x, s.IsFile i x → s.IsFile j x → i = j
  dir_unique : ∀ i j x, s.IsDir i x → s.IsDir j x → i = j
  disjoint : ∀ x, s.UsedFile x → ¬s.UsedDir x
  parent : ∀ x, s.UsedFile x ∨ s.UsedDir x → x ≠ [slash] →
    parentText x = [] ∨ s.UsedDir (parentText x)

/--
The call does not add a name that `absPath` left with an empty, `.` or `..` component.
-/
def CreateOk (s : FsState) (c : FsCall) : Prop :=
  c.NoWrap s ∧ ∀ x ∈ c.op.created s, ¬BadTail x

def NamesAvoid (bad : Bytes → Prop) (s : FsState) : Prop :=
  ∀ x, s.UsedFile x ∨ s.UsedDir x → ¬bad x

theorem NamesAvoid.prim {bad : Bytes → Prop} {g : Grant} {s s' : FsState}
    (hcreate : ∀ x, g.create x → ¬bad x) (h : NamesAvoid bad s) (hprim : Prim g s s')
    : NamesAvoid bad s' := by
  have hcongr : FsState.SameNames s s' → NamesAvoid bad s' := by
    intro hsame x
    rw [hsame.usedFile, hsame.usedDir]
    exact h x
  cases hprim with
  | errno => exact h
  | chdir => exact h
  | addDir path i _ _ _ _ _ _ _ hgrant =>
    rintro x (hx | ⟨j, hj⟩)
    . exact h x (Or.inl hx)
    . rw [FsState.isDir_addDir (CStr.absPath_no_nul s path) (absPath_text _ _).length_le] at hj
      obtain ⟨_, rfl⟩ | ⟨_, hj⟩ := hj
      . exact hcreate _ hgrant
      . exact h x (Or.inr ⟨j, hj⟩)
  | dropDir path i =>
    rintro x (hx | ⟨j, hj⟩)
    . exact h x (Or.inl hx)
    . exact h x (Or.inr ⟨j, (FsState.isDir_dropDir.mp hj).2⟩)
  | addFile path i _ _ _ _ _ hgrant =>
    rintro x (⟨j, hj⟩ | hx)
    . rw [FsState.isFile_addFile (CStr.absPath_no_nul s path) (absPath_text _ _).length_le] at hj
      obtain ⟨_, rfl⟩ | ⟨_, hj⟩ := hj
      . exact hcreate _ hgrant
      . exact h x (Or.inl ⟨j, hj⟩)
    . exact h x (Or.inr hx)
  | dropFile path i =>
    rintro x (⟨j, hj⟩ | hx)
    . exact h x (Or.inl ⟨j, (FsState.isFile_dropFile.mp hj).2⟩)
    . exact h x (Or.inr hx)
  | rollBack i =>
    rintro x (⟨j, hj⟩ | hx)
    . exact h x (Or.inl ⟨j, (FsState.isFile_dropFile.mp hj).2⟩)
    . exact h x (Or.inr hx)
  | coalesce => exact h
  | resize i size => exact hcongr (FsState.sameNames_fdataResize i size)
  | store i offset data => exact hcongr (FsState.sameNames_storeFile i offset data)
  | terminate i => exact hcongr (FsState.sameNames_storeFile i _ _)
  | chmod => exact h
  | chown => exact h

theorem NamesAvoid.call {bad : Bytes → Prop} {c : FsCall} {s s' : FsState}
    (hcreated : ∀ x ∈ c.op.created s, ¬bad x) (h : NamesAvoid bad s) (hcall : c.Step s s')
    : NamesAvoid bad s' := by
  obtain ⟨fuel, rc, hexec⟩ := hcall
  have hneeds : c.op.Needs { s with fsCurUid := c.uid }
      { Grant.any with create := fun x => ¬bad x } := by
    cases hop : c.op <;> rw [hop] at hcreated <;>
      simp_all [FsOp.Needs, FsOp.created, Grant.any]
  have hprims := FsOp.exec_prims (fun hwild => absurd trivial hwild) hneeds hexec
  have hstart : NamesAvoid bad { s with fsCurUid := c.uid } := h
  clear hexec
  induction hprims with
  | refl => exact hstart
  | tail _ hprim ih => exact ih.prim (fun x hx => hx) hprim

theorem NamesAvoid.init {bad : Bytes → Prop} (hroot : ¬bad [slash]) (s₀ : FsState)
    : NamesAvoid bad (fsInit s₀) := by
  rintro x (⟨i, hi⟩ | ⟨i, hi⟩)
  . exact absurd hi not_isFile_fsInit
  . rwa [(isDir_fsInit.mp hi).2]

theorem names_form_tree (s₀ s : FsState) (h : FsRun CreateOk (fsInit s₀) s) : NamesOk s := by
  have hinv : NsInv s ∧ NamesAvoid BadTail s := by
    apply Run.keeps (I := fun s => NsInv s ∧ NamesAvoid BadTail s) _ _ h
    . rintro s c s' hok ⟨hinv, hbad⟩ hcall
      exact ⟨hinv.call hcall, hbad.call hok.2 hcall⟩
    . exact ⟨NsInv.init s₀, NamesAvoid.init (by decide) s₀⟩
  obtain ⟨hinv, hbad⟩ := hinv
  refine ⟨hinv.file_unique, hinv.dir_unique, hinv.disjoint, ?_⟩
  intro x hx hroot
  have htext : PathText x := by
    obtain ⟨i, hi⟩ | ⟨i, hi⟩ := hx
    . exact hinv.files i x hi
    . exact hinv.dirs i x hi
  obtain hnil | ⟨cs, hcanon, hcs, heq⟩ := htext.parent (hbad x hx)
  . exact Or.inl hnil
  . right
    rw [heq]
    exact hinv.parent x cs hx hcanon hcs heq

/--
`mkdir /a`.
-/
theorem names_form_tree_mkdir
    : ∃ s : FsState, s.UsedDir [slash, 97] ∧ NamesOk s := by
  have hmkdir : FsCall.Step ⟨0, .createDirectory ⟨[slash, 97], by decide⟩⟩ (fsInit (.zeroed 0)) _ :=
    FsCall.step 0 rfl
  refine ⟨_, ?_, names_form_tree (.zeroed 0) _ (Run.call .refl hmkdir ⟨trivial, ?_⟩)⟩
  . rw [← dirIndex_isSome]
    decide +kernel
  . decide +kernel

/--
The directory `/aa..a` of 253 bytes, in which there is room for a slash and one more byte.
-/
def longDir : CStr :=
  ⟨slash :: List.replicate 252 97, by decide⟩

/--
`x/y/../z` in this directory: `x` is cut off at 255 bytes, `y` leaves no trace but an offset, and
taking it off again cuts `x` as well.
-/
def slipPath : CStr :=
  ⟨longDir.val ++ [slash, 120, slash, 121, slash, dot, dot, slash, 122], by decide⟩

def slipDirState : FsState :=
  (fsCreateDirectory { fsInit (.zeroed 0) with fsCurUid := 0 } longDir).2

def slipState : FsState :=
  (fsCreateFile { slipDirState with fsCurUid := 0 } slipPath).2

theorem names_form_tree_slip
    : ¬∀ s₀ s, FsRun (fun s c => c.NoWrap s
          ∧ ∀ path ∈ c.op.deleted, absPath s.cwd.str path ≠ [slash]) (fsInit s₀) s →
        NamesOk s := by
  intro h
  have hrun : FsRun (fun s c => c.NoWrap s
      ∧ ∀ path ∈ c.op.deleted, absPath s.cwd.str path ≠ [slash]) (fsInit (.zeroed 0)) slipState := by
    have hmkdir : FsCall.Step ⟨0, .createDirectory longDir⟩ (fsInit (.zeroed 0)) slipDirState :=
      FsCall.step 0 rfl
    have hcreate : FsCall.Step ⟨0, .createFile slipPath⟩ slipDirState slipState :=
      FsCall.step 0 rfl
    refine Run.call (Run.call .refl hmkdir ⟨trivial, ?_⟩) hcreate ⟨trivial, ?_⟩
    . simp [FsOp.deleted]
    . simp [FsOp.deleted]
  have hfile : slipState.UsedFile (longDir.val ++ [slash, slash]) := by
    rw [← fileIndex_isSome]
    decide +kernel
  obtain hnil | hdir := (h _ _ hrun).parent _ (Or.inl hfile) (by decide +kernel)
  . exact absurd hnil (by decide +kernel)
  . rw [← dirIndex_isSome] at hdir
    exact absurd hdir (by decide +kernel)

/--
The path whose directory `op` deletes.
-/
def FsOp.deletedDir (op : FsOp) : Option CStr :=
  match op with
  | deleteDirectory path | deleteDirectoryRecursive path => some path
  | _ => none

/--
Looking at the root, `fs_delete_directory` or its recursive variant gives up before it deletes
anything: the argument is empty or `/` as it stands, the user may not modify what is taken for the
parent, or the root is not empty.
-/
def FsOp.SparesRoot (op : FsOp) (s : FsState) : Prop :=
  match op with
  | deleteDirectory path =>
    path.val = [] ∨ path.val = [slash] ∨ (mayModifyParent { s with fsErrno := 0 } [slash]).1 = false
      ∨ (∃ x, s.UsedFile x ∧ isDirectChild [slash] x)
      ∨ ∃ x, s.UsedDir x ∧ x ≠ [slash] ∧ isDirectChild [slash] x
  | deleteDirectoryRecursive path =>
    path.val = [] ∨ path.val = [slash] ∨ (mayModifyParent { s with fsErrno := 0 } [slash]).1 = false
  | _ => True

/--
The call stores nothing outside of a file and does not get to delete the root under another name than `/`.
-/
def RootSafe (s : FsState) (c : FsCall) : Prop :=
  c.NoWrap s ∧ ∀ path ∈ c.op.deletedDir, absPath s.cwd.str path = [slash] →
    c.op.SparesRoot { s with fsCurUid := c.uid }

theorem usedDir_of_prims {g : Grant} {s s' : FsState} {x : Bytes} (hg : ¬g.dropDir)
    (h : s.UsedDir x) (hprims : Prims g s s')
    : s'.UsedDir x := by
  induction hprims with
  | refl => exact h
  | tail _ hprim ih =>
    cases hprim with
    | addDir path i hpos hfree =>
      obtain ⟨j, hj⟩ := ih
      refine ⟨j, ?_⟩
      rw [FsState.isDir_addDir (CStr.absPath_no_nul _ path) (absPath_text _ _).length_le]
      right
      refine ⟨?_, hj⟩
      rintro rfl
      exact hj.1 hfree
    | dropDir path i _ _ _ _ _ hgrant => contradiction
    | resize i size => exact ((FsState.sameNames_fdataResize i size).usedDir x).mpr ih
    | store i offset data => exact ((FsState.sameNames_storeFile i offset data).usedDir x).mpr ih
    | terminate i => exact ((FsState.sameNames_storeFile i _ _).usedDir x).mpr ih
    | _ => exact ih

theorem deleteDirectory_keeps_root {s : FsState} (path : CStr) (h : s.UsedDir [slash])
    (hsafe : absPath s.cwd.str path = [slash] → (FsOp.deleteDirectory path).SparesRoot s)
    : (fsDeleteDirectory s path).2.UsedDir [slash] := by
  obtain ⟨e, heq, _⟩ | ⟨i, heq, hdir, hspelled, hfiles, hdirs, hmay⟩ := fsDeleteDirectory_cases s path
  . rw [heq]
    exact h
  . by_cases hfull : absPath s.cwd.str path = [slash]
    . exfalso
      rw [hfull] at hfiles hdirs hmay
      obtain hnil | hroot | hdeny | ⟨x, ⟨j, hj⟩, hchild⟩ | ⟨x, ⟨j, hj⟩, hne, hchild⟩ := hsafe hfull
      . have hrc : (fsDeleteDirectory s path).1 = -1 := by
          rw [hnil]
          rfl
        rw [heq] at hrc
        contradiction
      . exact hspelled hroot
      . rw [hdeny] at hmay
        contradiction
      . exact hfiles j hj.1 (by rwa [hj.2])
      . exact hdirs j hj.1 (by rwa [hj.2]) (by rwa [hj.2])
    . exact fsDeleteDirectory_root path h (Or.inl hfull)

theorem deleteRecursive_keeps_root {s s' : FsState} {fuel : Nat} {rc : Int} (path : CStr) (hinv : NsInv s)
    (h : s.UsedDir [slash])
    (hsafe : absPath s.cwd.str path = [slash] → (FsOp.deleteDirectoryRecursive path).SparesRoot s)
    (hexec : fsDeleteDirectoryRecursive fuel s path = some (rc, s'))
    : s'.UsedDir [slash] := by
  have hkeeps := fun hpath => (keepsRoot fuel).1 s path rc s' hinv path.property h hpath hexec
  by_cases hfull : absPath s.cwd.str path = [slash]
  . obtain hnil | hroot | hdeny := hsafe hfull
    . cases fuel with
      | zero => cases hexec
      | succ fuel =>
        unfold fsDeleteDirectoryRecursive at hexec
        simp only [hnil, ↓reduceIte, Option.some.injEq, Prod.mk.injEq] at hexec
        rwa [← hexec.2]
    . exact hkeeps (Or.inr hroot)
    . cases fuel with
      | zero => cases hexec
      | succ fuel =>
        unfold fsDeleteDirectoryRecursive at hexec
        dsimp only at hexec
        by_cases hnil : path.val = []
        . simp only [hnil, ↓reduceIte, Option.some.injEq, Prod.mk.injEq] at hexec
          rwa [← hexec.2]
        . rw [if_neg hnil, hfull] at hexec
          obtain hmay | hmay := mayModifyParent_cases { s with fsErrno := 0 } [slash]
          . rw [hmay] at hdeny
            contradiction
          . rw [hmay] at hexec
            simp only [Option.some.injEq, Prod.mk.injEq] at hexec
            rwa [← hexec.2]
  . exact hkeeps (Or.inl hfull)

theorem usedDir_root_call {c : FsCall} {s s' : FsState} (hok : RootSafe s c) (hinv : NsInv s)
    (h : s.UsedDir [slash]) (hcall : c.Step s s')
    : s'.UsedDir [slash] := by
  obtain ⟨fuel, rc, hexec⟩ := hcall
  have hother : c.op.deletedDir = none → s'.UsedDir [slash] := by
    intro hnone
    have hneeds : c.op.Needs { s with fsCurUid := c.uid } { Grant.any with dropDir := False } := by
      cases hop : c.op <;> rw [hop] at hnone <;>
        simp_all [FsOp.Needs, FsOp.deletedDir, Grant.any]
    have hprims := FsOp.exec_prims (fun hwild => absurd trivial hwild) hneeds hexec
    exact usedDir_of_prims (s := { s with fsCurUid := c.uid }) (fun hdrop => hdrop) h hprims
  obtain ⟨_, hok⟩ := hok
  cases hop : c.op with
  | deleteDirectory path =>
    rw [hop] at hok hexec
    have hroot := deleteDirectory_keeps_root (s := { s with fsCurUid := c.uid }) path h (hok path rfl)
    simp only [FsOp.exec, Option.some.injEq] at hexec
    rwa [hexec] at hroot
  | deleteDirectoryRecursive path =>
    rw [hop] at hok hexec
    exact deleteRecursive_keeps_root path (hinv.setUid c.uid) h (hok path rfl) hexec
  | _ =>
    apply hother
    rw [hop]
    rfl

end TanjaOS
