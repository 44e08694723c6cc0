import TanjaOS.Fs.Pool.Impl

/-!
The filesystem's tables. Strings are the bytes before the terminating NUL, the tables hold them in
`char` arrays whose bytes behind the NUL are stale but still end up in a saved image.
-/

open Lib

namespace TanjaOS

def maxF : Nat := 96

theorem maxF_pos : 0 < maxF := by decide

def maxD : Nat := 64

def fsPathCap : Nat := 256

/--
The slot that `fs_init` gives to the root directory.
-/
def rootSlot : Fin maxD := ⟨0, by decide⟩

def slash : Byte := 47

def dot : Byte := 46

def newline : Byte := 10

/--
A `char` array of `n` bytes.
-/
structure Buf (n : Nat) where
  bytes : Bytes
  size : bytes.length = n
  deriving DecidableEq

namespace Buf

/--
The C string that an array holds.
-/
def str {n : Nat} (b : Buf n) : Bytes :=
  b.bytes.takeWhile (· ≠ 0)

end Buf

/--
A string argument: any bytes but NUL.
-/
abbrev CStr := { s : Bytes // 0 ∉ s }

/--
A data argument, its length is passed along as a `uint32_t`.
-/
abbrev Data := { d : Bytes // d.length < 2 ^ 32 }

def strcpySafe (d : Buf fsPathCap) (s : Bytes) : Buf fsPathCap where
  bytes := s.take (fsPathCap - 1) ++ 0 :: d.bytes.drop ((s.take (fsPathCap - 1)).length + 1)
  size := by
    have := d.size
    simp only [fsPathCap] at *
    simp
    omega

def strlenSafe (s : Bytes) : Nat :=
  min s.length 1023

structure FsState where
  fname : Fin maxF → Buf fsPathCap
  /-- `NULL` or a pointer into the pool. -/
  fdata : Fin maxF → Option Nat
  /-- Only ever assigned from sizes below `maxFileData`, never negative. -/
  fsize : Fin maxF → Nat
  /-- 0 or 1, or whatever byte a loaded image holds. -/
  fused : Fin maxF → UInt8
  fowner : Fin maxF → Int32
  fmode : Fin maxF → UInt16
  dname : Fin maxD → Buf fsPathCap
  dused : Fin maxD → UInt8
  downer : Fin maxD → Int32
  dmode : Fin maxD → UInt16
  cwd : Buf fsPathCap
  fsCurUid : Int32
  fsErrno : Nat
  fpoolBytes : UInt32
  /-- The memory from `fpool_base` on. -/
  fpool : Mem

namespace FsState

/--
Slot `i` holds a file called `name`.
-/
def IsFile (s : FsState) (i : Fin maxF) (name : Bytes) : Prop :=
  s.fused i ≠ 0 ∧ (s.fname i).str = name

def IsDir (s : FsState) (i : Fin maxD) (name : Bytes) : Prop :=
  s.dused i ≠ 0 ∧ (s.dname i).str = name

/--
The `fsize[i]` bytes at `fdata[i]`.
-/
def fileBytes (s : FsState) (i : Fin maxF) : Bytes :=
  match s.fdata i with
  | none => []
  | some p => s.fpool.readBytes p (s.fsize i)

/--
Static storage before `fs_init`, with a pool of `fpoolBytes` bytes.
-/
def zeroed (fpoolBytes : UInt32) : FsState where
  fname _ := ⟨List.replicate fsPathCap 0, List.length_replicate⟩
  fdata _ := none
  fsize _ := 0
  fused _ := 0
  fowner _ := 0
  fmode _ := 0
  dname _ := ⟨List.replicate fsPathCap 0, List.length_replicate⟩
  dused _ := 0
  downer _ := 0
  dmode _ := 0
  cwd := ⟨List.replicate fsPathCap 0, List.length_replicate⟩
  fsCurUid := 0
  fsErrno := 0
  fpoolBytes := fpoolBytes
  fpool _ := 0

instance (s : FsState) (i : Fin maxF) (name : Bytes) : Decidable (s.IsFile i name) :=
  inferInstanceAs (Decidable (_ ∧ _))

instance (s : FsState) (i : Fin maxD) (name : Bytes) : Decidable (s.IsDir i name) :=
  inferInstanceAs (Decidable (_ ∧ _))

end FsState

def fileIndex (s : FsState) (abs : Bytes) : Option (Fin maxF) :=
  (List.finRange maxF).find? (fun i => s.IsFile i abs)

def dirIndex (s : FsState) (abs : Bytes) : Option (Fin maxD) :=
  (List.finRange maxD).find? (fun i => s.IsDir i abs)

/--
`EACCES`, as left behind by a refused operation.
-/
def fsDeny (s : FsState) : FsState :=
  { s with fsErrno := 13 }

def permAllows (s : FsState) (mode : UInt16) (owner : Int32) (bit : UInt16) : Bool :=
  if s.fsCurUid = 0 then
    true
  else if s.fsCurUid = owner then
    mode &&& bit ≠ 0
  else
    mode &&& (bit >>> 6) ≠ 0

def fsInit (s : FsState) : FsState :=
  { s with
    fpool := fpoolInit s.fpoolBytes s.fpool
    fused := fun _ => 0
    fsize := fun _ => 0
    fdata := fun _ => none
    fname := fun i => strcpySafe (s.fname i) []
    fowner := fun _ => 0
    fmode := fun _ => 0o755
    dused := fun i => if i = rootSlot then 1 else 0
    dname := fun i => strcpySafe (s.dname i) (if i = rootSlot then [slash] else [])
    downer := fun _ => 0
    dmode := fun _ => 0o755
    cwd := strcpySafe s.cwd [slash]
  }

end TanjaOS
