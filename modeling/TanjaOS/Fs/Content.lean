import TanjaOS.Fs.Run

/-!
File contents as a map from paths to byte strings: what a write leaves in it, and what the readers
hand out of it.
-/

open Lib
open Lib.Tiling

namespace TanjaOS

structure ReadResult where
  rc : Int
  /-- The bytes stored at the start of the buffer. -/
  buffer : Bytes
  /-- The number stored in `*size`, if any. -/
  size : Option Nat
  state : FsState

/--
`n` bytes from `fdata[i] + offset` on.
-/
def FsState.loadFile (s : FsState) (i : Fin maxF) (offset n : Nat) : Bytes :=
  match s.fdata i with
  | none => []
  | some p => s.fpool.readBytes (p + offset) n

def fsReadFilePrefix (s : FsState) (path : Bytes) (capacity : Nat) : ReadResult :=
  let s := { s with fsErrno := 0 }
  if capacity = 0 then
    ⟨-1, [], none, s⟩
  else
    match fileIndex s (absPath s.cwd.str path) with
    | none => ⟨-1, [0], some 0, s⟩
    | some i =>
      if permAllows s (s.fmode i) (s.fowner i) 0o400 then
        let sz := min (s.fsize i) (capacity - 1)
        ⟨0, s.loadFile i 0 sz ++ [0], some sz, s⟩
      else
        ⟨-2, [0], some 0, fsDeny s⟩

def fsReadFileRange (s : FsState) (path : Bytes) (offset capacity : Nat) : ReadResult :=
  let s := { s with fsErrno := 0 }
  if capacity = 0 then
    ⟨-1, [], none, s⟩
  else
    match fileIndex s (absPath s.cwd.str path) with
    | none => ⟨-1, [], some 0, s⟩
    | some i =>
      if permAllows s (s.fmode i) (s.fowner i) 0o400 then
        if s.fsize i ≤ offset then
          ⟨0, [0], some 0, s⟩
        else
          let n := min (s.fsize i - offset) capacity
          ⟨0, s.loadFile i offset n, some n, s⟩
      else
        ⟨-2, [], some 0, fsDeny s⟩

structure FileView where
  bytes : Bytes
  size : Nat
  owner : Int32
  mode : UInt16
  deriving DecidableEq

namespace FsState

def view (s : FsState) (i : Fin maxF) : FileView :=
  ⟨s.fileBytes i, s.fsize i, s.fowner i, s.fmode i⟩

def files (s : FsState) (x : Bytes) : Option FileView :=
  (fileIndex s x).map s.view

end FsState

/--
Whoever may read `x` gets what is asked for of `new`.
-/
def Delivers (s : FsState) (x new : Bytes) : Prop :=
  ∀ uid i (path : CStr) capacity, s.IsFile i x → absPath s.cwd.str path = x →
    permAllows { s with fsCurUid := uid } (s.fmode i) (s.fowner i) 0o400 → capacity ≠ 0 →
    ((fsReadFilePrefix { s with fsCurUid := uid } path capacity).rc = 0
      ∧ (fsReadFilePrefix { s with fsCurUid := uid } path capacity).size
          = some (min new.length (capacity - 1))
      ∧ (fsReadFilePrefix { s with fsCurUid := uid } path capacity).buffer
          = new.take (capacity - 1) ++ [0])
    ∧ ∀ offset,
        (fsReadFileRange { s with fsCurUid := uid } path offset capacity).rc = 0
          ∧ (fsReadFileRange { s with fsCurUid := uid } path offset capacity).size
              = some (min (offset + capacity) new.length - offset)
          ∧ (fsReadFileRange { s with fsCurUid := uid } path offset capacity).buffer.take
                (min (offset + capacity) new.length - offset)
              = (new.drop offset).take capacity

/--
File `x` now holds `new`, and that is all that has happened to the files.
-/
structure Replaced (s s' : FsState) (x new : Bytes) : Prop where
  content : (s'.files x).map FileView.bytes = some new
  size : (s'.files x).map FileView.size = some new.length
  other : ∀ y, y ≠ x → s'.files y = s.files y
  delivers : Delivers s' x new

/--
Every write to `s` by `uid` that works does to the map what its name says.
-/
structure WritesRefine (s : FsState) (uid : Int32) : Prop where
  write : ∀ (path : CStr) (data : Data), data.val ≠ [] → data.val.length < maxFileData →
    (fsWriteFile { s with fsCurUid := uid } path data).1 = 0 →
    Replaced s (fsWriteFile { s with fsCurUid := uid } path data).2 (absPath s.cwd.str path) data
  append : ∀ (path : CStr) (data : Data), data.val ≠ [] → data.val.length < maxFileData →
    (fsAppendFile { s with fsCurUid := uid } path data).1 = 0 →
    Replaced s (fsAppendFile { s with fsCurUid := uid } path data).2 (absPath s.cwd.str path)
      (((s.files (absPath s.cwd.str path)).elim [] FileView.bytes) ++ data)
  writeAt : ∀ (path : CStr) (offset : UInt32) (data : Data), data.val ≠ [] →
    data.val.length < maxFileData → offset.toNat < maxFileData →
    (fsWriteAt { s with fsCurUid := uid } path offset.toNat data).1 = 0 →
    ∃ old, (s.files (absPath s.cwd.str path)).map FileView.bytes = some old
      ∧ offset.toNat + data.val.length ≤ old.length
      ∧ Replaced s (fsWriteAt { s with fsCurUid := uid } path offset.toNat data).2
          (absPath s.cwd.str path)
          (old.take offset.toNat ++ data.val ++ old.drop (offset.toNat + data.val.length))

section Slices

variable {s : FsState}

theorem loadFile_eq {i : Fin maxF} {offset n : Nat} (h : offset + n ≤ s.fsize i)
    : s.loadFile i offset n = ((s.fileBytes i).drop offset).take n := by
  unfold FsState.loadFile FsState.fileBytes
  cases s.fdata i with
  | none => simp
  | some p =>
    dsimp only
    rw [Mem.drop_readBytes (by omega), Mem.take_readBytes (by omega)]

theorem delivers_fileBytes {x : Bytes} {i : Fin maxF} (hidx : fileIndex s x = some i)
    (hsize : s.fdata i = none → s.fsize i = 0) (hunique : ∀ j, s.IsFile j x → j = i)
    : Delivers s x (s.fileBytes i) := by
  have hlen := DataInv.length_fileBytes hsize
  intro uid j path capacity hfile habs hperm hcap
  obtain rfl := hunique j hfile
  have hidx' : fileIndex { s with fsCurUid := uid, fsErrno := 0 } (absPath s.cwd.str path)
      = some j := by
    rw [habs]
    exact hidx
  have hperm' : permAllows { s with fsCurUid := uid, fsErrno := 0 } (s.fmode j) (s.fowner j) 0o400 :=
    hperm
  have hload : ∀ offset n, offset + n ≤ s.fsize j →
      { s with fsCurUid := uid, fsErrno := 0 }.loadFile j offset n
        = ((s.fileBytes j).drop offset).take n :=
    fun offset n => loadFile_eq (s := { s with fsCurUid := uid, fsErrno := 0 })
  refine ⟨?_, ?_⟩
  . unfold fsReadFilePrefix
    dsimp only
    rw [if_neg hcap, hidx']
    dsimp only
    rw [if_pos hperm', hlen]
    refine ⟨rfl, rfl, ?_⟩
    dsimp only
    rw [hload _ _ (by omega), List.drop_zero, ← hlen, Nat.min_comm, ← List.take_take]
    simp
  . intro offset
    unfold fsReadFileRange
    dsimp only
    rw [if_neg hcap, hidx']
    dsimp only
    rw [if_pos hperm', hlen]
    split
    . next hle =>
      have hzero : min (offset + capacity) (s.fsize j) - offset = 0 := by omega
      rw [hzero, List.drop_eq_nil_of_le (by omega)]
      simp
    . next hlt =>
      have hn : min (offset + capacity) (s.fsize j) - offset = min (s.fsize j - offset) capacity := by
        omega
      rw [hn]
      refine ⟨rfl, rfl, ?_⟩
      dsimp only
      rw [hload _ _ (by omega)]
      have htake : ((s.fileBytes j).drop offset).take (s.fsize j - offset)
          = (s.fileBytes j).drop offset := by
        apply List.take_of_length_le
        rw [List.length_drop]
        omega
      rw [List.take_take, min_self, Nat.min_comm, ← List.take_take, htake]

end Slices

section Store

variable {s : FsState} {bs : List Block}

theorem fileBytes_storeFile_at {i : Fin maxF} {offset : Nat} {data : Bytes} (h : DataInv s bs)
    (hdata : s.fdata i = none → s.fsize i = 0) (hfit : offset + data.length ≤ s.fsize i)
    : (s.storeFile i offset data).fileBytes i
        = (s.fileBytes i).take offset ++ data ++ (s.fileBytes i).drop (offset + data.length) := by
  obtain ⟨_, _, hpool⟩ := h.storeFile i offset data (by omega)
  unfold FsState.fileBytes
  rw [FsState.fdata_storeFile, FsState.fsize_storeFile]
  cases hp : s.fdata i with
  | none =>
    have hzero := hdata hp
    have hnil : data = [] := List.length_eq_zero_iff.mp (by omega)
    simp [hnil]
  | some p =>
    dsimp only
    have hsplit : s.fsize i = offset + data.length + (s.fsize i - (offset + data.length)) := by omega
    rw [hpool p hp, Mem.take_readBytes (by omega), Mem.drop_readBytes (by omega)]
    conv => lhs; rw [hsplit]
    rw [Mem.readBytes_add, Mem.readBytes_add, Mem.readBytes_writeBytes_same,
      Mem.readBytes_writeBytes_disjoint _ (by omega), Mem.readBytes_writeBytes_disjoint _ (by omega)]

theorem fpool_freeData {i : Fin maxF} {q qsize : Nat} (h : DataInv s bs)
    (hmem : (q, qsize) ∈ live 8 0 bs) (hne : s.fdata i ≠ some q)
    : ∀ a, q ≤ a → a < q + qsize → (s.freeData i).fpool a = s.fpool a := by
  unfold FsState.freeData
  cases hp : s.fdata i with
  | none =>
    intro a _ _
    rfl
  | some p =>
    obtain ⟨size, hpmem, _⟩ := h.held i p hp
    obtain ⟨_, _, _, hkeep⟩ := h.pool.free hpmem
    apply hkeep (q, qsize) hmem
    rintro rfl
    exact hne hp

theorem take_fdataResize {i : Fin maxF} {size : Nat} (h : DataInv s bs)
    (hdata : s.fdata i = none → s.fsize i = 0) (hpos : size ≠ 0)
    (hrc : (fdataResize s i size).1 = 0)
    : ((fdataResize s i size).2.fileBytes i).take (min (s.fsize i) size)
        = (s.fileBytes i).take (min (s.fsize i) size) := by
  have hmax : size < maxFileData := by
    unfold fdataResize at hrc
    split at hrc
    . contradiction
    . omega
  cases hfit : firstFit 8 16 (DataInv.need size) bs with
  | none =>
    rw [h.resize_full hpos hmax hfit] at hrc
    contradiction
  | some r =>
    obtain ⟨o, bs'⟩ := r
    obtain ⟨pool, psize, halloc, hmem, hpsize, hunheld, hpool⟩ := h.moved hfit
    have hbound := (hpool pool (fun _ _ => rfl)).1.block_bound hmem
    dsimp only at hbound
    obtain ⟨hinv, _⟩ := hpool _ (DataInv.copied_outside (i := i) hbound hpsize)
    have hold := ((hpool pool (fun _ _ => rfl)).2 i).bytes
    unfold fdataResize
    rw [if_neg (by omega), if_neg hpos, halloc]
    unfold FsState.fileBytes at hold ⊢
    simp only [Function.update_self]
    rw [Mem.take_readBytes (Nat.min_le_right _ _)]
    cases hp : s.fdata i with
    | none => simp [hdata hp]
    | some old =>
      rw [hp] at hold
      dsimp only at hold ⊢
      -- freeing the old block leaves the new one alone, the NUL comes behind the copy
      have hfree := fpool_freeData (i := i) hinv hmem (hunheld i)
      rw [Mem.readBytes_congr (fun a ha ha' => hfree a ha (by omega)),
        storeAt_eq_writeBytes (by simp; omega), Mem.readBytes_writeBytes_disjoint _ (by omega)]
      unfold FsState.copyData
      rw [hp]
      dsimp only
      rw [storeAt_eq_writeBytes (by simp; omega)]
      have hsame := Mem.readBytes_writeBytes_same (m := pool) (o + 8)
        (pool.readBytes old (min (s.fsize i) size))
      rw [Mem.length_readBytes] at hsame
      rw [hsame, ← hold, Mem.take_readBytes (Nat.min_le_left _ _)]

end Store

/--
In state `t` slot `idx` has the file `x` that is about to be written, be it new or not.
-/
structure Target (s t : FsState) (x : Bytes) (idx : Fin maxF) : Prop where
  index : fileIndex t x = some idx
  unique : ∀ j, t.IsFile j x → j = idx
  inv : ∃ bs, DataInv t bs
  sizes : SizeOk t
  content : t.fileBytes idx = (s.files x).elim [] FileView.bytes
  other : ∀ y, y ≠ x → t.files y = s.files y

theorem fileIndex_congr {s s' : FsState} {x : Bytes} (h : ∀ i, s'.IsFile i x ↔ s.IsFile i x)
    : fileIndex s' x = fileIndex s x := by
  unfold fileIndex
  congr 1
  funext i
  simp only [h i]

theorem files_congr {s s' : FsState} {x : Bytes} (hfile : ∀ i, s'.IsFile i x ↔ s.IsFile i x)
    (hview : ∀ i, s.IsFile i x → s'.view i = s.view i)
    : s'.files x = s.files x := by
  unfold FsState.files
  rw [fileIndex_congr hfile]
  cases hidx : fileIndex s x with
  | none => rfl
  | some i =>
    simp only [Option.map_some, Option.some.injEq]
    exact hview i (fileIndex_eq_some hidx)

namespace Target

variable {s t : FsState} {bs : List Block} {x : Bytes} {idx : Fin maxF}

theorem found (hns : NsInv s) (hinv : DataInv s bs) (hsizes : SizeOk s)
    (hidx : fileIndex s x = some idx)
    : Target s s x idx where
  index := hidx
  unique j hj := hns.file_unique j idx x hj (fileIndex_eq_some hidx)
  inv := ⟨bs, hinv⟩
  sizes := hsizes
  content := by
    unfold FsState.files
    rw [hidx]
    rfl
  other y _ := rfl

theorem created {path : CStr} (hns : NsInv s) (hinv : DataInv s bs) (hsizes : SizeOk s)
    (hnone : fileIndex s (absPath s.cwd.str path) = none) (hrc : (fsCreateFile s path).1 = 0)
    (hidx : fileIndex (fsCreateFile s path).2 (absPath s.cwd.str path) = some idx)
    : Target s (fsCreateFile s path).2 (absPath s.cwd.str path) idx := by
  have hprims : Prims { Grant.any with wild := False } s (fsCreateFile s path).2 :=
    fsCreateFile_prims path (fun _ => trivial)
  obtain ⟨hfree, _, hzero⟩ := fsCreateFile_index hnone hrc hidx
  have hsizes' := hsizes.prims hprims
  have hempty : (fsCreateFile s path).2.fileBytes idx = [] := by
    rw [← List.length_eq_zero_iff, DataInv.length_fileBytes (hsizes' idx).2]
    exact hzero
  refine ⟨hidx, ?_, hinv.prims (fun hwild => hwild) hprims, hsizes', ?_, ?_⟩
  . intro j hj
    exact (hns.prims hprims).file_unique j idx _ hj (fileIndex_eq_some hidx)
  . rw [hempty]
    unfold FsState.files
    rw [hnone]
    rfl
  . obtain ⟨e, _, hex⟩ | ⟨i, heq, hfree, _⟩ :=
      fsCreateFile_cases (g := Grant.any) s path (fun _ => trivial)
    . obtain ⟨j, hj⟩ := hex hrc
      rw [fileIndex_eq_none] at hnone
      exact absurd hj (hnone j)
    . rw [heq]
      intro y hy
      have hmade := fun j => FsState.isFile_addFile (s := { s with fsErrno := 0 }) (y := y) (i := i)
        (j := j) (CStr.absPath_no_nul s path) (absPath_text _ _).length_le
      have hold : ∀ j, s.IsFile j y → j ≠ i := by
        rintro j hj rfl
        exact hj.1 hfree
      apply files_congr
      . intro j
        rw [hmade j]
        simp only [hy, and_false, false_or]
        exact ⟨fun hj => hj.2, fun hj => ⟨hold j hj, hj⟩⟩
      . intro j hj
        unfold FsState.view FsState.fileBytes FsState.addFile
        simp [hold j hj]

theorem replaced {s' : FsState} {new : Bytes} (h : Target s t x idx) (hframe : s'.frame = t.frame)
    (hother : ∀ j, j ≠ idx → SameFile t s' j) (hnew : s'.fileBytes idx = new)
    (hsize : s'.fdata idx = none → s'.fsize idx = 0)
    : Replaced s s' x new := by
  have hfused : s'.fused = t.fused := by
    have := congrArg FsState.fused hframe
    exact this
  have hfname : s'.fname = t.fname := by
    have := congrArg FsState.fname hframe
    exact this
  have hfowner : s'.fowner = t.fowner := by
    have := congrArg FsState.fowner hframe
    exact this
  have hfmode : s'.fmode = t.fmode := by
    have := congrArg FsState.fmode hframe
    exact this
  have hfile : ∀ y i, s'.IsFile i y ↔ t.IsFile i y := by
    intro y i
    unfold FsState.IsFile
    rw [hfused, hfname]
  have hidx : fileIndex s' x = some idx := by
    rw [fileIndex_congr (hfile x)]
    exact h.index
  have hlen := DataInv.length_fileBytes hsize
  rw [hnew] at hlen
  refine ⟨?_, ?_, ?_, ?_⟩
  . unfold FsState.files
    rw [hidx]
    simpa [FsState.view] using hnew
  . unfold FsState.files
    rw [hidx]
    simp [FsState.view, hlen]
  . intro y hy
    rw [← h.other y hy]
    apply files_congr (hfile y)
    intro j hj
    have hne : j ≠ idx := by
      rintro rfl
      apply hy
      rw [← hj.2, ← (fileIndex_eq_some h.index).2]
    unfold FsState.view
    rw [(hother j hne).bytes, (hother j hne).fsize, hfowner, hfmode]
  . rw [← hnew]
    apply delivers_fileBytes hidx hsize
    intro j hj
    rw [hfile] at hj
    exact h.unique j hj

theorem fdataResize_fdata {i : Fin maxF} {size : Nat} (hpos : size ≠ 0)
    (hrc : (fdataResize t i size).1 = 0)
    : (fdataResize t i size).2.fdata i ≠ none := by
  unfold fdataResize at hrc ⊢
  split
  . simp_all
  . split
    . simp_all
    . simp

theorem stored {offset size : Nat} (data : Bytes) (h : Target s t x idx) (hpos : size ≠ 0)
    (hrc : (fdataResize t idx size).1 = 0) (hfit : offset + data.length = size)
    (hkeep : offset ≤ t.fsize idx)
    : Replaced s (((fdataResize t idx size).2.storeFile idx offset data).storeFile idx size [0]) x
        ((t.fileBytes idx).take offset ++ data) := by
  obtain ⟨bs, hinv⟩ := h.inv
  obtain ⟨⟨bs', hinv'⟩, hother⟩ := hinv.resize idx size
  have htake := take_fdataResize hinv (h.sizes idx).2 hpos hrc
  have hdata := fdataResize_fdata hpos hrc
  have hsize := FsState.fsize_fdataResize hrc
  have hframe := FsState.frame_fdataResize (s := t) idx size
  generalize (fdataResize t idx size).2 = r at *
  have hzero : r.fdata idx = none → r.fsize idx = 0 := fun hnone => absurd hnone hdata
  obtain ⟨hinv'', hother', _⟩ := hinv'.storeFile idx offset data (by omega)
  have hend : size = (r.storeFile idx offset data).fsize idx := by
    rw [FsState.fsize_storeFile, hsize]
  obtain ⟨_, hother'', _⟩ := hinv''.storeFile idx size [0] (by simp; omega)
  apply h.replaced
  . rw [FsState.frame_storeFile, FsState.frame_storeFile, hframe]
  . intro j hj
    exact ((hother j hj).trans (hother' j hj)).trans (hother'' j hj)
  . have hterm := hinv''.fileBytes_terminate (i := idx) (b := 0)
    rw [← hend] at hterm
    rw [hterm, fileBytes_storeFile_at hinv' hzero (by omega)]
    have hlen := DataInv.length_fileBytes hzero
    rw [List.drop_eq_nil_of_le (by omega), List.append_nil]
    congr 1
    have hcut := congrArg (List.take offset) htake
    simp only [List.take_take] at hcut
    have hmin : min offset (min (t.fsize idx) size) = offset := by omega
    rwa [hmin] at hcut
  . intro hnone
    rw [FsState.fdata_storeFile, FsState.fdata_storeFile] at hnone
    contradiction

end Target

section Ops

variable {s : FsState} {bs : List Block}

/--
The state before a write as `Target` needs it.
-/
structure ContentInv (s : FsState) : Prop where
  names : NsInv s
  inv : ∃ bs, DataInv s bs
  sizes : SizeOk s

theorem ContentInv.found {x : Bytes} {idx : Fin maxF} (h : ContentInv s) (e : Nat)
    (hidx : fileIndex s x = some idx)
    : Target s { s with fsErrno := e } x idx := by
  obtain ⟨bs, hinv⟩ := h.inv
  obtain ⟨hindex, hunique, ⟨bs', hpool⟩, hsizes, hcontent, hother⟩ :=
    Target.found h.names hinv h.sizes hidx
  exact ⟨hindex, hunique, ⟨bs', hpool.pool, hpool.held, hpool.distinct⟩, hsizes, hcontent, hother⟩

theorem ContentInv.created (path : CStr) (idx : Fin maxF) (h : ContentInv s)
    (hnone : fileIndex s (absPath s.cwd.str path) = none)
    (hrc : (fsCreateFile { s with fsErrno := 0 } path).1 = 0)
    (hidx : fileIndex (fsCreateFile { s with fsErrno := 0 } path).2 (absPath s.cwd.str path)
      = some idx)
    : Target s (fsCreateFile { s with fsErrno := 0 } path).2 (absPath s.cwd.str path) idx := by
  obtain ⟨bs, hinv⟩ := h.inv
  have hmade : fsCreateFile { s with fsErrno := 0 } path = fsCreateFile s path := rfl
  rw [hmade] at hrc hidx ⊢
  exact Target.created h.names hinv h.sizes hnone hrc hidx

theorem fsWriteFile.emptied {t : FsState} {x : Bytes} {idx : Fin maxF} (h : Target s t x idx)
    : Replaced s (fsWriteFile.write [] t idx).2 x [] := by
  obtain ⟨bs, hinv⟩ := h.inv
  obtain ⟨_, _, _, _, hother⟩ := hinv.freeData idx
  have hdata : (t.freeData idx).fdata idx = none := by simp [FsState.freeData]
  have hstore : ∀ data, (t.freeData idx).storeFile idx 0 data = t.freeData idx := by
    intro data
    unfold FsState.storeFile
    rw [hdata]
  have hwrite : (fsWriteFile.write [] t idx).2 = t.freeData idx := by
    unfold fsWriteFile.write fdataResize
    rw [List.length_nil, if_neg (by omega), if_neg (by omega), if_pos rfl]
    dsimp only
    rw [if_neg (by decide), hstore, hstore]
  rw [hwrite]
  apply h.replaced
  . rfl
  . exact hother
  . unfold FsState.fileBytes
    rw [hdata]
  . intro _
    simp [FsState.freeData]

theorem fsWriteFile.replaced {t : FsState} {x : Bytes} {idx : Fin maxF} {data : Bytes}
    (h : Target s t x idx) (hrc : (fsWriteFile.write data t idx).1 = 0)
    : Replaced s (fsWriteFile.write data t idx).2 x data := by
  by_cases hne : data = []
  . subst hne
    exact fsWriteFile.emptied h
  have hpos : data.length ≠ 0 := by simpa using hne
  unfold fsWriteFile.write at hrc ⊢
  split
  . simp_all
  . next hmax =>
    rw [if_neg hmax] at hrc
    dsimp only at hrc ⊢
    split
    . next hfail =>
      rw [if_pos hfail] at hrc
      contradiction
    . next hres =>
      have hstored := h.stored data hpos (by simpa using hres) (Nat.zero_add _)
        (Nat.zero_le _)
      rwa [List.take_zero, List.nil_append] at hstored

theorem fsWriteFile_replaced {path : CStr} {data : Bytes} (h : ContentInv s)
    (hrc : (fsWriteFile s path data).1 = 0)
    : Replaced s (fsWriteFile s path data).2 (absPath s.cwd.str path) data := by
  cases hidx : fileIndex s (absPath s.cwd.str path) with
  | some idx =>
    have hidx' : fileIndex { s with fsErrno := 0 } (absPath s.cwd.str path) = some idx := hidx
    unfold fsWriteFile at hrc ⊢
    dsimp only at hrc ⊢
    rw [hidx'] at hrc ⊢
    dsimp only at hrc ⊢
    split
    . next hperm =>
      rw [if_pos hperm] at hrc
      exact fsWriteFile.replaced (h.found 0 hidx) hrc
    . next hperm =>
      rw [if_neg hperm] at hrc
      contradiction
  | none =>
    have hnone : fileIndex { s with fsErrno := 0 } (absPath s.cwd.str path) = none := hidx
    have hmade := fun idx => h.created path idx hidx
    unfold fsWriteFile at hrc ⊢
    dsimp only at hrc ⊢
    rw [hnone] at hrc ⊢
    dsimp only at hrc ⊢
    split
    . next hfail =>
      rw [if_pos hfail] at hrc
      contradiction
    . next hcreate =>
      rw [if_neg hcreate] at hrc
      split
      . simp_all
      . next idx hidx' =>
        rw [hidx'] at hrc
        exact fsWriteFile.replaced (hmade idx (by simpa using hcreate) hidx') hrc

theorem fsAppendFile.replaced {t : FsState} {x : Bytes} {idx : Fin maxF} {data : Bytes} {oldsz : Nat}
    (h : Target s t x idx) (hne : data ≠ []) (hold : oldsz = t.fsize idx)
    (hlen : data.length < maxFileData) (hrc : (fsAppendFile.append data t idx oldsz).1 = 0)
    : Replaced s (fsAppendFile.append data t idx oldsz).2 x
        ((s.files x).elim [] FileView.bytes ++ data) := by
  have hpos : data.length ≠ 0 := by simpa using hne
  have hsum : (oldsz + data.length) % 2 ^ 32 = oldsz + data.length := by
    have := (h.sizes idx).1
    apply Nat.mod_eq_of_lt
    unfold maxFileData at *
    omega
  unfold fsAppendFile.append at hrc ⊢
  rw [hsum] at hrc ⊢
  dsimp only at hrc ⊢
  split
  . simp_all
  . next hmax =>
    rw [if_neg hmax] at hrc
    split
    . next hfail =>
      rw [if_pos hfail] at hrc
      contradiction
    . next hres =>
      have hstored := @Target.stored _ _ _ _ oldsz (oldsz + data.length) data h
        (by omega) (by simpa using hres) rfl (by omega)
      have hall : (t.fileBytes idx).take oldsz = t.fileBytes idx := by
        apply List.take_of_length_le
        rw [DataInv.length_fileBytes (h.sizes idx).2, hold]
      rwa [hall, h.content] at hstored

theorem fsAppendFile_replaced {path : CStr} {data : Bytes} (h : ContentInv s) (hne : data ≠ [])
    (hlen : data.length < maxFileData) (hrc : (fsAppendFile s path data).1 = 0)
    : Replaced s (fsAppendFile s path data).2 (absPath s.cwd.str path)
        ((s.files (absPath s.cwd.str path)).elim [] FileView.bytes ++ data) := by
  cases hidx : fileIndex s (absPath s.cwd.str path) with
  | some idx =>
    have hidx' : fileIndex { s with fsErrno := 0 } (absPath s.cwd.str path) = some idx := hidx
    unfold fsAppendFile at hrc ⊢
    dsimp only at hrc ⊢
    rw [hidx'] at hrc ⊢
    dsimp only at hrc ⊢
    split
    . simp_all
    . next hargs =>
      rw [if_neg hargs] at hrc
      split
      . next hperm =>
        rw [if_pos hperm] at hrc
        exact fsAppendFile.replaced (h.found 0 hidx) hne rfl hlen hrc
      . next hperm =>
        rw [if_neg hperm] at hrc
        contradiction
  | none =>
    have hnone : fileIndex { s with fsErrno := 0 } (absPath s.cwd.str path) = none := hidx
    have hmade := fun idx => h.created path idx hidx
    have hempty := fun idx => @fsCreateFile_index _ path idx hnone
    unfold fsAppendFile at hrc ⊢
    dsimp only at hrc ⊢
    rw [hnone] at hrc ⊢
    dsimp only at hrc ⊢
    split
    . simp_all
    . next hargs =>
      rw [if_neg hargs] at hrc
      split
      . next hfail =>
        rw [if_pos hfail] at hrc
        contradiction
      . next hcreate =>
        rw [if_neg hcreate] at hrc
        simp only [ne_eq, Decidable.not_not] at hcreate
        split
        . simp_all
        . next idx hidx' =>
          rw [hidx'] at hrc
          exact fsAppendFile.replaced (hmade idx hcreate hidx') hne
            (hempty idx hcreate hidx').2.2.symm hlen hrc

theorem fsWriteAt_replaced {path : CStr} {offset : Nat} {data : Bytes} (h : ContentInv s)
    (hlen : data.length < maxFileData) (hoff : offset < maxFileData)
    (hrc : (fsWriteAt s path offset data).1 = 0)
    : ∃ old, (s.files (absPath s.cwd.str path)).map FileView.bytes = some old
        ∧ offset + data.length ≤ old.length
        ∧ Replaced s (fsWriteAt s path offset data).2 (absPath s.cwd.str path)
            (old.take offset ++ data ++ old.drop (offset + data.length)) := by
  have hsum : (offset + data.length) % 2 ^ 32 = offset + data.length := by
    apply Nat.mod_eq_of_lt
    unfold maxFileData at *
    omega
  unfold fsWriteAt at hrc ⊢
  rw [hsum] at hrc ⊢
  dsimp only at hrc ⊢
  split
  . simp_all
  . next hne =>
    rw [if_neg hne] at hrc
    split
    . simp_all
    . next idx hidx =>
      rw [hidx] at hrc
      dsimp only at hrc
      split
      . simp_all
      . next hdata =>
        rw [if_neg hdata] at hrc
        split
        . simp_all
        . next hfit =>
          obtain ⟨bs, hinv⟩ := h.inv
          have hsize := (h.sizes idx).2
          have htarget := h.found s.fsErrno hidx
          obtain ⟨_, hother, _⟩ := hinv.storeFile idx offset data (by omega)
          refine ⟨s.fileBytes idx, ?_, ?_, ?_⟩
          . unfold FsState.files
            rw [hidx]
            rfl
          . rw [DataInv.length_fileBytes hsize]
            omega
          . apply htarget.replaced
            . exact FsState.frame_storeFile idx offset data
            . exact hother
            . exact fileBytes_storeFile_at hinv hsize (by omega)
            . intro hnone
              rw [FsState.fdata_storeFile] at hnone
              contradiction

end Ops

theorem ContentInv.run {s₀ s : FsState} {bytes : UInt32} (hpool : s₀.fpoolBytes = fsSetPool bytes)
    (hrun : FsRun (fun s c => c.NoWrap s) (fsInit s₀) s) (uid : Int32)
    : ContentInv { s with fsCurUid := uid } := by
  have h16 : 16 ∣ s₀.fpoolBytes.toNat := by
    rw [hpool]
    exact fsSetPool_dvd bytes
  have hany : AnyRun (fsInit s₀) s := hrun.mono (fun _ _ _ => trivial)
  obtain ⟨bs, hinv⟩ := DataInv.run h16 hrun
  have hns : NsInv s := Run.keeps (I := NsInv) (fun _ _ _ _ h => h.call) (NsInv.init s₀) hany
  have hsizes := SizeOk.run hany
  exact ⟨hns.setUid uid, ⟨bs, hinv.setUid uid⟩, hsizes⟩

/--
Any run without a wrapped write, and then any write that works.
-/
theorem writes_refine (s₀ s : FsState) (bytes : UInt32) (uid : Int32)
    (hpool : s₀.fpoolBytes = fsSetPool bytes)
    (hrun : FsRun (fun s c => c.NoWrap s) (fsInit s₀) s)
    : WritesRefine s uid := by
  have h := ContentInv.run hpool hrun uid
  refine ⟨?_, ?_, ?_⟩
  . intro path data _ _ hrc
    obtain ⟨hcontent, hsize, hother, hdeliver⟩ := fsWriteFile_replaced h hrc
    exact ⟨hcontent, hsize, hother, hdeliver⟩
  . intro path data hne hlen hrc
    obtain ⟨hcontent, hsize, hother, hdeliver⟩ := fsAppendFile_replaced h hne hlen hrc
    exact ⟨hcontent, hsize, hother, hdeliver⟩
  . intro path offset data hne hlen hoff hrc
    obtain ⟨old, hold, hfit, hcontent, hsize, hother, hdeliver⟩ := fsWriteAt_replaced h hlen hoff hrc
    exact ⟨old, hold, hfit, hcontent, hsize, hother, hdeliver⟩

section Example

/-!
Root writes one byte to `/a`. A write at offset `2 ^ 32 - 8` then marks the block of `/a` as free,
so that the next file gets it.
-/

def notePath : CStr :=
  ⟨[slash, 97], by decide⟩

def copyPath : CStr :=
  ⟨[slash, 99], by decide⟩

def noteByte : Data :=
  ⟨[1], by decide⟩

def copyByte : Data :=
  ⟨[7], by decide⟩

def freedHeader : Data :=
  ⟨[4, 0, 0, 0, 1, 0, 0, 0, 1], by decide⟩

def noted : FsState :=
  (fsWriteFile { fsInit (.zeroed 64) with fsCurUid := 0 } notePath noteByte).2

def noteFreed : FsState :=
  (fsWriteAt { noted with fsCurUid := 0 } notePath 4294967288 freedHeader).2

theorem noted_run {ok : FsState → FsCall → Prop} (hok : ∀ s c, c.NoWrap s → ok s c)
    : FsRun ok (fsInit (.zeroed 64)) noted := by
  have hwrite : FsCall.Step ⟨0, .writeFile notePath noteByte⟩ (fsInit (.zeroed 64)) noted :=
    FsCall.step 0 rfl
  exact Run.call .refl hwrite (hok _ _ trivial)

end Example

theorem writes_refine_noted
    : (fsWriteFile { noted with fsCurUid := 1000 } copyPath copyByte).1 ≠ 0
      ∧ (fsWriteFile { noted with fsCurUid := 0 } copyPath copyByte).1 = 0
      ∧ Replaced noted (fsWriteFile { noted with fsCurUid := 0 } copyPath copyByte).2 copyPath.val
          copyByte.val := by
  have hrc : (fsWriteFile { noted with fsCurUid := 0 } copyPath copyByte).1 = 0 := by decide +kernel
  refine ⟨by decide +kernel, hrc, ?_⟩
  have hwrite := (writes_refine (.zeroed 64) noted 64 0 (by decide)
    (noted_run (fun _ _ hwrap => hwrap))).write copyPath copyByte (by decide) (by decide) hrc
  have hpath : absPath noted.cwd.str copyPath = copyPath.val := by decide +kernel
  rwa [hpath] at hwrite

theorem writes_refine_wrapped
    : ¬∀ s₀ s bytes uid, s₀.fpoolBytes = fsSetPool bytes → AnyRun (fsInit s₀) s →
        WritesRefine s uid := by
  intro h
  have hfree : FsCall.Step ⟨0, .writeAt notePath 4294967288 freedHeader⟩ noted noteFreed :=
    FsCall.step 0 rfl
  have hrun : AnyRun (fsInit (.zeroed 64)) noteFreed :=
    Run.call (noted_run (fun _ _ _ => trivial)) hfree trivial
  have hwrite := (h (.zeroed 64) noteFreed 64 0 (by decide) hrun).write copyPath copyByte (by decide)
    (by decide) (by decide +kernel)
  have hnote := hwrite.other notePath.val (by decide +kernel)
  revert hnote
  decide +kernel

end TanjaOS
