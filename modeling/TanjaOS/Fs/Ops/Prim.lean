import TanjaOS.Fs.Ops.Impl
import TanjaOS.Fs.Lemmas

/-!
The changes to the tables that the operations are made of. Every operation is a sequence of these,
so that an invariant of the tables has to be checked for each of them only.
-/

open Lib

namespace TanjaOS

/--
What the operation at hand may do: which names it may add, whether directories or files may go, whose
content it may change, which file it may take off again because it could not be written, and whether
modes and owners may change. `wild` is for stores that wrap around and do not hit the file they are meant for.
-/
structure Grant where
  create : Bytes → Prop
  dropDir : Prop
  dropFile : Prop
  content : Fin maxF → Prop
  rollBack : Fin maxF → Prop
  mode : Prop
  owner : Prop
  wild : Prop

def Grant.any : Grant where
  create _ := True
  dropDir := True
  dropFile := True
  content _ := True
  rollBack _ := True
  mode := True
  owner := True
  wild := True

inductive Prim (g : Grant) (s : FsState) : FsState → Prop where
  | errno (e : Nat) : Prim g s { s with fsErrno := e }
  | chdir (x : Bytes) (htext : PathText x) (hnul : 0 ∉ x)
      : Prim g s { s with cwd := strcpySafe s.cwd x }
  | addDir (path : CStr) (i : Fin maxD) (hpos : i ≠ rootSlot) (hfree : s.dused i = 0)
      (hparent : parentExists s path) (hroot : absPath s.cwd.str path ≠ [slash])
      (hdir : ¬s.UsedDir (absPath s.cwd.str path)) (hfile : ¬s.UsedFile (absPath s.cwd.str path))
      (hmay : (mayModifyParent s (absPath s.cwd.str path)).1)
      (hgrant : g.create (absPath s.cwd.str path))
      : Prim g s (s.addDir i (absPath s.cwd.str path))
  | dropDir (path : CStr) (i : Fin maxD) (hdir : s.IsDir i (absPath s.cwd.str path))
      (hpath : path.val ≠ [slash])
      (hfiles : ∀ i, s.fused i ≠ 0 → ¬isDirectChild (absPath s.cwd.str path) (s.fname i).str)
      (hdirs : ∀ i, s.dused i ≠ 0 → (s.dname i).str ≠ absPath s.cwd.str path →
        ¬isDirectChild (absPath s.cwd.str path) (s.dname i).str)
      (hmay : (mayModifyParent s (absPath s.cwd.str path)).1) (hgrant : g.dropDir)
      : Prim g s (s.dropDir i)
  | addFile (path : CStr) (i : Fin maxF) (hfree : s.fused i = 0)
      (hparent : parentExists s path)
      (hdir : ¬s.UsedDir (absPath s.cwd.str path)) (hfile : ¬s.UsedFile (absPath s.cwd.str path))
      (hmay : (mayModifyParent s (absPath s.cwd.str path)).1)
      (hgrant : g.create (absPath s.cwd.str path))
      : Prim g s (s.addFile i (absPath s.cwd.str path))
  | dropFile (path : CStr) (i : Fin maxF) (hfile : s.IsFile i (absPath s.cwd.str path))
      (hmay : (mayModifyParent s (absPath s.cwd.str path)).1) (hgrant : g.dropFile)
      : Prim g s ((s.dropFile i).freeData i)
  | rollBack (i : Fin maxF) (hused : s.fused i ≠ 0) (hsize : s.fsize i = 0)
      (hdata : s.fdata i = none) (hgrant : g.rollBack i)
      : Prim g s (s.dropFile i)
  | coalesce : Prim g s { s with fpool := fpoolCoalesce s.fpoolBytes s.fpool }
  | resize (i : Fin maxF) (size : Nat) (hused : s.fused i ≠ 0) (hgrant : g.content i)
      : Prim g s (fdataResize s i size).2
  | store (i : Fin maxF) (offset : Nat) (data : Bytes) (hused : s.fused i ≠ 0)
      (hfit : ¬g.wild → offset + data.length ≤ s.fsize i) (hgrant : g.content i)
      : Prim g s (s.storeFile i offset data)
  /-- The NUL behind the content. -/
  | terminate (i : Fin maxF) (hused : s.fused i ≠ 0)
      : Prim g s (s.storeFile i (s.fsize i) [0])
  | chmod (fmode : Fin maxF → UInt16) (dmode : Fin maxD → UInt16)
      (hfile : ∀ i, fmode i ≠ s.fmode i → mayChmod s (s.fowner i))
      (hdir : ∀ i, dmode i ≠ s.dmode i → mayChmod s (s.downer i)) (hgrant : g.mode)
      : Prim g s { s with fmode := fmode, dmode := dmode }
  | chown (fowner : Fin maxF → Int32) (downer : Fin maxD → Int32) (hgrant : g.owner)
      : Prim g s { s with fowner := fowner, downer := downer }

abbrev Prims (g : Grant) : FsState → FsState → Prop :=
  Relation.ReflTransGen (Prim g)

theorem Prims.single {g : Grant} {s s' : FsState} (h : Prim g s s') : Prims g s s' :=
  Relation.ReflTransGen.single h

section Tables

/-!
Both tables are a used flag and a name for each slot.
-/

variable {n : Nat} {used : Fin n → UInt8} {name : Fin n → Buf fsPathCap} {i j : Fin n} {x y : Bytes}

theorem inUse_add (hnul : 0 ∉ x) (hlen : x.length ≤ 255)
    : (Function.update used i 1 j ≠ 0
        ∧ (Function.update name i (strcpySafe (name i) x) j).str = y)
      ↔ (j = i ∧ y = x) ∨ (j ≠ i ∧ used j ≠ 0 ∧ (name j).str = y) := by
  by_cases hij : j = i
  . subst hij
    have hone : (1 : UInt8) ≠ 0 := by decide
    simp only [Function.update_self, ne_eq, hone, not_false_eq_true, true_and,
      str_strcpySafe hnul hlen, not_true_eq_false, false_and, or_false]
    exact eq_comm
  . simp [hij]

theorem inUse_drop
    : (Function.update used i 0 j ≠ 0
        ∧ (Function.update name i (strcpySafe (name i) []) j).str = y)
      ↔ j ≠ i ∧ used j ≠ 0 ∧ (name j).str = y := by
  by_cases hij : j = i
  . subst hij
    simp
  . simp [hij]

end Tables

namespace FsState

variable {s : FsState} {x y : Bytes}

theorem isDir_addDir {i j : Fin maxD} (hnul : 0 ∉ x) (hlen : x.length ≤ 255)
    : (s.addDir i x).IsDir j y ↔ (j = i ∧ y = x) ∨ (j ≠ i ∧ s.IsDir j y) :=
  inUse_add hnul hlen

theorem isFile_addFile {i j : Fin maxF} (hnul : 0 ∉ x) (hlen : x.length ≤ 255)
    : (s.addFile i x).IsFile j y ↔ (j = i ∧ y = x) ∨ (j ≠ i ∧ s.IsFile j y) :=
  inUse_add hnul hlen

theorem isDir_dropDir {i j : Fin maxD} : (s.dropDir i).IsDir j y ↔ j ≠ i ∧ s.IsDir j y :=
  inUse_drop

theorem isFile_dropFile {i j : Fin maxF} : (s.dropFile i).IsFile j y ↔ j ≠ i ∧ s.IsFile j y :=
  inUse_drop

structure SameNames (s s' : FsState) : Prop where
  fname : s'.fname = s.fname
  fused : s'.fused = s.fused
  dname : s'.dname = s.dname
  dused : s'.dused = s.dused
  cwd : s'.cwd = s.cwd
  fsCurUid : s'.fsCurUid = s.fsCurUid

theorem sameNames_storeFile (i : Fin maxF) (offset : Nat) (data : Bytes)
    : SameNames s (s.storeFile i offset data) := by
  unfold storeFile
  split <;> exact ⟨rfl, rfl, rfl, rfl, rfl, rfl⟩

theorem fsize_storeFile (i : Fin maxF) (offset : Nat) (data : Bytes)
    : (s.storeFile i offset data).fsize = s.fsize := by
  unfold storeFile
  split <;> rfl

theorem fdata_storeFile (i : Fin maxF) (offset : Nat) (data : Bytes)
    : (s.storeFile i offset data).fdata = s.fdata := by
  unfold storeFile
  split <;> rfl

theorem sameNames_fdataResize (i : Fin maxF) (size : Nat)
    : SameNames s (fdataResize s i size).2 := by
  unfold fdataResize
  split
  . exact ⟨rfl, rfl, rfl, rfl, rfl, rfl⟩
  . split
    . exact ⟨rfl, rfl, rfl, rfl, rfl, rfl⟩
    . split <;> exact ⟨rfl, rfl, rfl, rfl, rfl, rfl⟩

def frame (s : FsState) : FsState :=
  { s with fsize := fun _ => 0, fdata := fun _ => none, fpool := fun _ => 0 }

theorem frame_storeFile (i : Fin maxF) (offset : Nat) (data : Bytes)
    : (s.storeFile i offset data).frame = s.frame := by
  unfold FsState.storeFile
  split <;> rfl

theorem frame_fdataResize (i : Fin maxF) (size : Nat)
    : (fdataResize s i size).2.frame = s.frame := by
  unfold fdataResize
  split
  . rfl
  . split
    . rfl
    . split <;> rfl

theorem fdataResize_errno (i : Fin maxF) (size e : Nat)
    : (fdataResize { s with fsErrno := e } i size).1 = (fdataResize s i size).1 := by
  unfold fdataResize
  dsimp only
  split
  . rfl
  . split
    . rfl
    . generalize fpoolAlloc s.fpoolBytes s.fpool (size + 1) = r
      obtain ⟨p | p, pool⟩ := r <;> rfl

theorem fsize_fdataResize {i : Fin maxF} {size : Nat} (h : (fdataResize s i size).1 = 0)
    : (fdataResize s i size).2.fsize i = size := by
  unfold fdataResize at h ⊢
  split
  . simp_all
  . split
    . simp_all [freeData]
    . split
      . simp_all
      . simp

theorem fdataResize_failed {i : Fin maxF} {size : Nat} (h : (fdataResize s i size).1 ≠ 0)
    : ∃ pool, (fdataResize s i size).2 = { s with fpool := pool } := by
  unfold fdataResize at h ⊢
  split
  . exact ⟨s.fpool, rfl⟩
  . split
    . simp_all
    . split
      . exact ⟨_, rfl⟩
      . simp_all

end FsState

theorem mayModifyParent_cases (s : FsState) (x : Bytes)
    : mayModifyParent s x = (true, s) ∨ mayModifyParent s x = (false, fsDeny s) := by
  unfold mayModifyParent
  split
  . exact Or.inl rfl
  . split
    . exact Or.inl rfl
    . exact Or.inr rfl

end TanjaOS
