import TanjaOS.Fs.Content

/-!
`fs_read_file`: what it stores in a buffer whose capacity is passed in `*size`.
-/

open Lib

namespace TanjaOS

section Prefix

variable {s : FsState} {path : Bytes} {i : Fin maxF} {capacity : Nat}

theorem fsReadFilePrefix_readable (hidx : fileIndex s (absPath s.cwd.str path) = some i)
    (hsize : s.fdata i = none → s.fsize i = 0) (hcap : capacity ≠ 0)
    (hperm : permAllows s (s.fmode i) (s.fowner i) 0o400)
    : fsReadFilePrefix s path capacity
      = ⟨0, (s.fileBytes i).take (capacity - 1) ++ [0], some (min (s.fsize i) (capacity - 1)),
          { s with fsErrno := 0 }⟩ := by
  have hidx' : fileIndex { s with fsErrno := 0 } (absPath s.cwd.str path) = some i := hidx
  have hperm' : permAllows { s with fsErrno := 0 } (s.fmode i) (s.fowner i) 0o400 := hperm
  have hlen := DataInv.length_fileBytes hsize
  have hload : { s with fsErrno := 0 }.loadFile i 0 (min (s.fsize i) (capacity - 1))
      = (s.fileBytes i).take (capacity - 1) := by
    have hslice : s.loadFile i 0 (min (s.fsize i) (capacity - 1)) = _ := loadFile_eq (by omega)
    rw [List.drop_zero, ← hlen, Nat.min_comm, ← List.take_take, List.take_length] at hslice
    rwa [Nat.min_comm, ← hlen]
  unfold fsReadFilePrefix
  dsimp only
  rw [if_neg hcap, hidx']
  dsimp only
  rw [if_pos hperm', hload]

theorem fsReadFilePrefix_denied (hidx : fileIndex s (absPath s.cwd.str path) = some i)
    (hcap : capacity ≠ 0) (hperm : ¬permAllows s (s.fmode i) (s.fowner i) 0o400)
    : (fsReadFilePrefix s path capacity).rc ≠ 0 := by
  have hidx' : fileIndex { s with fsErrno := 0 } (absPath s.cwd.str path) = some i := hidx
  have hperm' : ¬permAllows { s with fsErrno := 0 } (s.fmode i) (s.fowner i) 0o400 := hperm
  unfold fsReadFilePrefix
  dsimp only
  rw [if_neg hcap, hidx']
  dsimp only
  rw [if_neg hperm']
  simp

end Prefix

def fsReadFile (s : FsState) (path : Bytes) (size : UInt32) : ReadResult :=
  fsReadFilePrefix { s with fsErrno := 0 } path (size + 1).toNat

/--
A buffer of `c` bytes gets no more than `c - 1` bytes of file `i` and a NUL, and `*size` says how many.
-/
structure ReadsWithin (s : FsState) (path : Bytes) (c : UInt32) (i : Fin maxF) : Prop where
  rc : (fsReadFile s path c).rc = 0
  content : (fsReadFile s path c).buffer = (s.fileBytes i).take (min (s.fsize i) (c.toNat - 1)) ++ [0]
  size : (fsReadFile s path c).size = some (min (s.fsize i) (c.toNat - 1))
  within : (fsReadFile s path c).buffer.length ≤ c.toNat

section ReadFile

variable {s : FsState} {path : Bytes} {c : UInt32} {i : Fin maxF}

theorem fsReadFile_wraps (h : c.toNat + 1 = 2 ^ 32) : (fsReadFile s path c).rc = -1 := by
  have hzero : (c + 1).toNat = 0 := by
    rw [UInt32.toNat_add]
    change (c.toNat + 1) % 2 ^ 32 = 0
    rw [h, Nat.mod_self]
  unfold fsReadFile fsReadFilePrefix
  dsimp only
  rw [if_pos hzero]

theorem fsReadFile_eq (hidx : fileIndex s (absPath s.cwd.str path) = some i)
    (hperm : permAllows s (s.fmode i) (s.fowner i) 0o400) (h : c.toNat + 1 < 2 ^ 32)
    : (fsReadFile s path c).rc = 0
      ∧ (fsReadFile s path c).buffer = (s.fileBytes i).take (min (s.fsize i) c.toNat) ++ [0]
      ∧ (fsReadFile s path c).size = some (min (s.fsize i) c.toNat) := by
  have hcap : (c + 1).toNat = c.toNat + 1 := by
    rw [UInt32.toNat_add]
    exact Nat.mod_eq_of_lt h
  have hload : { s with fsErrno := 0 }.loadFile i 0 (min (s.fsize i) c.toNat)
      = (s.fileBytes i).take (min (s.fsize i) c.toNat) := by
    have hle : 0 + min (s.fsize i) c.toNat ≤ s.fsize i := by omega
    have heq := @loadFile_eq { s with fsErrno := 0 } i 0 _ hle
    rw [List.drop_zero] at heq
    exact heq
  have hidx' : fileIndex { s with fsErrno := 0 } (absPath s.cwd.str path) = some i := hidx
  have hperm' : permAllows { s with fsErrno := 0 } (s.fmode i) (s.fowner i) 0o400 = true := hperm
  unfold fsReadFile fsReadFilePrefix
  dsimp only
  rw [hcap, if_neg (by omega), hidx']
  dsimp only
  rw [if_pos hperm', Nat.add_sub_cancel, hload]
  exact ⟨rfl, rfl, rfl⟩

/--
The buffer is big enough for a file of less than `c` bytes, as long as `c + 1` does not wrap around.
-/
theorem reads_within_iff (s : FsState) (path : Bytes) (c : UInt32) (i : Fin maxF) (hc : 1 ≤ c.toNat)
    (hidx : fileIndex s (absPath s.cwd.str path) = some i)
    (hperm : permAllows s (s.fmode i) (s.fowner i) 0o400)
    : ReadsWithin s path c i ↔ s.fsize i < c.toNat ∧ c.toNat + 1 < 2 ^ 32 := by
  constructor
  . intro h
    have hlt := c.toNat_lt
    have hwrap : c.toNat + 1 < 2 ^ 32 := by
      by_contra hno
      have hrc := h.rc
      rw [fsReadFile_wraps (by omega)] at hrc
      contradiction
    have hsize := h.size
    rw [(fsReadFile_eq hidx hperm hwrap).2.2, Option.some.injEq] at hsize
    omega
  . rintro ⟨hsize, hwrap⟩
    obtain ⟨hrc, hbuffer, hcount⟩ := fsReadFile_eq hidx hperm hwrap
    have hsame : min (s.fsize i) c.toNat = min (s.fsize i) (c.toNat - 1) := by omega
    rw [hsame] at hbuffer hcount
    refine ⟨hrc, hbuffer, hcount, ?_⟩
    rw [hbuffer, List.length_append, List.length_take, List.length_singleton]
    omega

end ReadFile

section Example

/-!
Root writes `xy` to `/f` and reads it back.
-/

def readPath : CStr :=
  ⟨[47, 102], by decide⟩

def readSlot : Fin maxF :=
  ⟨0, maxF_pos⟩

def readFileMade : FsState :=
  (fsWriteFile { fsInit (.zeroed 64) with fsCurUid := 0 } readPath [120, 121]).2

/--
A buffer of three bytes is enough.
-/
theorem reads_within_three
    : fileIndex readFileMade (absPath readFileMade.cwd.str readPath) = some readSlot
      ∧ ReadsWithin readFileMade readPath 3 readSlot := by
  have hidx : fileIndex readFileMade (absPath readFileMade.cwd.str readPath) = some readSlot := by
    decide +kernel
  exact ⟨hidx, (reads_within_iff readFileMade readPath 3 readSlot (by decide) hidx (by decide +kernel)).mpr
    (by decide +kernel)⟩

/--
A buffer of two bytes gets a third one.
-/
theorem not_reads_within
    : ¬∀ s path c i, 1 ≤ UInt32.toNat c → fileIndex s (absPath s.cwd.str path) = some i →
        permAllows s (s.fmode i) (s.fowner i) 0o400 → ReadsWithin s path c i := by
  intro h
  have hread := h readFileMade readPath 2 readSlot (by decide) (by decide +kernel) (by decide +kernel)
  have hwithin := hread.within
  revert hwithin
  decide +kernel

end Example

end TanjaOS
