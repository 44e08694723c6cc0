import TanjaOS.Fs.Atomic

/-!
Where the operations touch the contents of files. Each of them is written down once more with the
list of its accesses to `fdata[idx][k]`.
-/

open Lib
open Lib.Tiling

namespace TanjaOS

/--
One access, with the tables and the pool as they are then. What is stored in the block itself does
not matter.
-/
structure Access where
  state : FsState
  idx : Fin maxF
  k : Nat

/--
The file has a live block, and the access goes to one of its bytes or to the NUL behind them.
-/
def Access.Inside (a : Access) : Prop :=
  ∃ bs p size, PoolInv a.state.fpoolBytes a.state.fpool bs ∧ a.state.fdata a.idx = some p
    ∧ (p, size) ∈ live 8 0 bs ∧ a.state.fsize a.idx < size ∧ a.k ≤ a.state.fsize a.idx

def AllInside (log : List Access) : Prop :=
  ∀ a ∈ log, a.Inside

/--
A loop over `n` bytes from `fdata[idx][offset]` on. The index is a `uint32_t`.
-/
def FsState.accesses (s : FsState) (idx : Fin maxF) (offset n : Nat) : List Access :=
  (List.range n).map (fun j => ⟨s, idx, (offset + j) % 2 ^ 32⟩)

def fdataResizeLog (s : FsState) (idx : Fin maxF) (size : Nat) : (Int × FsState) × List Access :=
  (fdataResize s idx size, reads)
where
  reads : List Access :=
    if maxFileData - 1 < size ∨ size = 0 then
      []
    else
      match fpoolAlloc s.fpoolBytes s.fpool (size + 1) with
      | (none, _) => []
      | (some _, pool) =>
        if s.fdata idx ≠ none ∧ 0 < s.fsize idx then
          { s with fpool := pool }.accesses idx 0 (min (s.fsize idx) size)
        else
          []

def fsWriteFileLog (s : FsState) (path data : Bytes) : (Int × FsState) × List Access :=
  let s := { s with fsErrno := 0 }
  let full := absPath s.cwd.str path
  match fileIndex s full with
  | some idx =>
    if permAllows s (s.fmode idx) (s.fowner idx) 0o200 then
      write s idx
    else
      ((-2, fsDeny s), [])
  | none =>
    let (rc, s) := fsCreateFile s path
    if rc ≠ 0 then
      ((-1, s), [])
    else
      match fileIndex s full with
      | none => ((-1, s), [])
      | some idx => write s idx
where
  write (s : FsState) (idx : Fin maxF) : (Int × FsState) × List Access :=
    if maxFileData - 1 < data.length then
      ((-2, rollBack s idx), [])
    else
      let ((rc, s), log) := fdataResizeLog s idx data.length
      if rc ≠ 0 then
        ((-3, rollBack s idx), log)
      else
        ((0, (s.storeFile idx 0 data).storeFile idx data.length [0]),
          log ++ s.accesses idx 0 data.length ++ s.accesses idx data.length 1)

def fsWriteAtLog (s : FsState) (path : Bytes) (offset : Nat) (data : Bytes)
    : (Int × FsState) × List Access :=
  let full := absPath s.cwd.str path
  if data.length = 0 then
    ((-1, s), [])
  else
    match fileIndex s full with
    | none => ((-1, s), [])
    | some idx =>
      if s.fdata idx = none then
        ((-1, s), [])
      else if s.fsize idx < (offset + data.length) % 2 ^ 32 then
        ((-3, s), [])
      else
        ((0, s.storeFile idx offset data), s.accesses idx offset data.length)

def fsAppendFileLog (s : FsState) (path data : Bytes) : (Int × FsState) × List Access :=
  let s := { s with fsErrno := 0 }
  let full := absPath s.cwd.str path
  if path = [] ∨ data.length = 0 then
    ((-1, s), [])
  else
    match fileIndex s full with
    | some idx =>
      if permAllows s (s.fmode idx) (s.fowner idx) 0o200 then
        append s idx (s.fsize idx)
      else
        ((-2, fsDeny s), [])
    | none =>
      let (rc, s) := fsCreateFile s path
      if rc ≠ 0 then
        ((rc, s), [])
      else
        match fileIndex s full with
        | none => ((-1, s), [])
        | some idx => append s idx 0
where
  append (s : FsState) (idx : Fin maxF) (oldsz : Nat) : (Int × FsState) × List Access :=
    let newsz := (oldsz + data.length) % 2 ^ 32
    if maxFileData - 1 < newsz then
      ((-3, s), [])
    else
      let ((rc, s), log) := fdataResizeLog s idx newsz
      if rc ≠ 0 then
        ((-4, s), log)
      else
        ((0, (s.storeFile idx oldsz data).storeFile idx newsz [0]),
          log ++ s.accesses idx oldsz data.length ++ s.accesses idx newsz 1)

section Results

/-!
The accesses are those of the operations themselves.
-/

variable {s : FsState} {path data : Bytes}

theorem fsWriteFileLog.write_fst {idx : Fin maxF}
    : (fsWriteFileLog.write data s idx).1 = fsWriteFile.write data s idx := by
  unfold fsWriteFileLog.write fsWriteFile.write fdataResizeLog
  split
  . rfl
  . dsimp only
    split <;> rfl

theorem fsWriteFileLog_fst : (fsWriteFileLog s path data).1 = fsWriteFile s path data := by
  unfold fsWriteFileLog fsWriteFile
  dsimp only
  cases fileIndex { s with fsErrno := 0 } (absPath s.cwd.str path) with
  | some idx =>
    dsimp only
    rw [apply_ite Prod.fst, fsWriteFileLog.write_fst]
  | none =>
    dsimp only
    rw [apply_ite Prod.fst]
    cases fileIndex (fsCreateFile { s with fsErrno := 0 } path).2 (absPath s.cwd.str path) with
    | none => rfl
    | some idx =>
      dsimp only
      rw [fsWriteFileLog.write_fst]

theorem fsWriteAtLog_fst {offset : Nat}
    : (fsWriteAtLog s path offset data).1 = fsWriteAt s path offset data := by
  unfold fsWriteAtLog fsWriteAt
  dsimp only
  rw [apply_ite Prod.fst]
  cases fileIndex s (absPath s.cwd.str path) with
  | none => rfl
  | some idx =>
    dsimp only
    rw [apply_ite Prod.fst, apply_ite Prod.fst]

theorem fsAppendFileLog.append_fst {idx : Fin maxF} {oldsz : Nat}
    : (fsAppendFileLog.append data s idx oldsz).1 = fsAppendFile.append data s idx oldsz := by
  unfold fsAppendFileLog.append fsAppendFile.append fdataResizeLog
  dsimp only
  split
  . rfl
  . split <;> rfl

theorem fsAppendFileLog_fst : (fsAppendFileLog s path data).1 = fsAppendFile s path data := by
  unfold fsAppendFileLog fsAppendFile
  dsimp only
  rw [apply_ite Prod.fst]
  cases fileIndex { s with fsErrno := 0 } (absPath s.cwd.str path) with
  | some idx =>
    dsimp only
    rw [apply_ite Prod.fst, fsAppendFileLog.append_fst]
  | none =>
    dsimp only
    rw [apply_ite Prod.fst]
    cases fileIndex (fsCreateFile { s with fsErrno := 0 } path).2 (absPath s.cwd.str path) with
    | none => rfl
    | some idx =>
      dsimp only
      rw [fsAppendFileLog.append_fst]

end Results

section Inside

variable {s : FsState} {bs : List Block} {idx : Fin maxF}

theorem allInside_nil : AllInside [] := by
  intro a ha
  contradiction

theorem allInside_append {log log' : List Access}
    : AllInside (log ++ log') ↔ AllInside log ∧ AllInside log' := by
  unfold AllInside
  simp only [List.mem_append]
  constructor
  . intro h
    exact ⟨fun a ha => h a (Or.inl ha), fun a ha => h a (Or.inr ha)⟩
  . rintro ⟨h, h'⟩ a (ha | ha)
    . exact h a ha
    . exact h' a ha

theorem DataInv.accesses_held {p offset n : Nat} (h : DataInv s bs) (hp : s.fdata idx = some p)
    (hfit : offset + n ≤ s.fsize idx + 1)
    : AllInside (s.accesses idx offset n) := by
  obtain ⟨size, hmem, hsize⟩ := h.held idx p hp
  have hbound := h.block_bound hmem
  have hpool := s.fpoolBytes.toNat_lt
  intro a ha
  unfold FsState.accesses at ha
  rw [List.mem_map] at ha
  obtain ⟨j, hj, rfl⟩ := ha
  rw [List.mem_range] at hj
  refine ⟨bs, p, size, h.pool, hp, hmem, hsize, ?_⟩
  dsimp only
  rw [Nat.mod_eq_of_lt (by omega)]
  omega

theorem not_allInside {offset n j : Nat} (hj : j < n)
    (hout : s.fdata idx = none ∨ s.fsize idx < (offset + j) % 2 ^ 32)
    : ¬AllInside (s.accesses idx offset n) := by
  intro h
  have hmem : (⟨s, idx, (offset + j) % 2 ^ 32⟩ : Access) ∈ s.accesses idx offset n := by
    unfold FsState.accesses
    rw [List.mem_map]
    exact ⟨j, List.mem_range.mpr hj, rfl⟩
  obtain ⟨_, p, _, _, hp, _, _, hk⟩ := h _ hmem
  dsimp only at hp hk
  obtain hnone | hlt := hout
  . rw [hnone] at hp
    contradiction
  . omega

theorem DataInv.reads_inside (idx : Fin maxF) (size : Nat) (h : DataInv s bs)
    : AllInside (fdataResizeLog s idx size).2 := by
  unfold fdataResizeLog fdataResizeLog.reads
  dsimp only
  split
  . exact allInside_nil
  . next hsize =>
    cases hfit : firstFit 8 16 (DataInv.need size) bs with
    | none =>
      rw [h.pool.alloc_eq_none hfit]
      exact allInside_nil
    | some r =>
      obtain ⟨o, bs'⟩ := r
      obtain ⟨pool, psize, halloc, _, _, _, hpool⟩ := h.moved hfit
      obtain ⟨hinv, _⟩ := hpool pool (fun _ _ => rfl)
      rw [halloc]
      dsimp only
      split
      . next hold =>
        obtain ⟨p, hp⟩ := Option.ne_none_iff_exists'.mp hold.1
        refine hinv.accesses_held hp ?_
        dsimp only
        omega
      . exact allInside_nil

theorem resize_zero : fdataResize s idx 0 = (0, s.freeData idx) := by
  unfold fdataResize
  rw [if_neg (by omega), if_pos rfl]

theorem DataInv.write_inside_iff {data : Bytes} (h : DataInv s bs)
    : AllInside (fsWriteFileLog.write data s idx).2 ↔ data ≠ [] := by
  unfold fsWriteFileLog.write
  split
  . next hmax =>
    simp only [allInside_nil, ne_eq, true_iff]
    rintro rfl
    simp at hmax
  . have hreads := h.reads_inside idx data.length
    have hres : (fdataResizeLog s idx data.length).1 = fdataResize s idx data.length := rfl
    by_cases hne : data = []
    . subst hne
      have hzero : (fdataResizeLog s idx ([] : Bytes).length).1 = (0, s.freeData idx) := resize_zero
      generalize fdataResizeLog s idx ([] : Bytes).length = r at *
      obtain ⟨⟨rc, t⟩, log⟩ := r
      dsimp only at hzero hreads ⊢
      obtain ⟨rfl, rfl⟩ := Prod.mk.inj hzero
      rw [if_neg (by decide), allInside_append]
      simp only [ne_eq, not_true_eq_false, iff_false, not_and]
      intro _
      apply not_allInside (j := 0) (by decide)
      left
      simp [FsState.freeData]
    . have hpos : data.length ≠ 0 := by simpa using hne
      have hdata := @Target.fdataResize_fdata s idx data.length hpos
      have hsize := @FsState.fsize_fdataResize s idx data.length
      obtain ⟨⟨bs', hinv⟩, _⟩ := h.resize idx data.length
      generalize fdataResizeLog s idx data.length = r at *
      rw [← hres] at hdata hsize hinv
      obtain ⟨⟨rc, t⟩, log⟩ := r
      dsimp only at hdata hsize hinv hreads ⊢
      split
      . simp [hreads, hne]
      . next hrc =>
        simp only [ne_eq, Decidable.not_not] at hrc
        obtain ⟨p, hp⟩ := Option.ne_none_iff_exists'.mp (hdata hrc)
        have hsize := hsize hrc
        simp only [ne_eq, hne, not_false_eq_true, iff_true]
        rw [allInside_append, allInside_append]
        exact ⟨⟨hreads, hinv.accesses_held hp (by omega)⟩, hinv.accesses_held hp (by omega)⟩

theorem DataInv.append_inside_iff {data : Bytes} {oldsz : Nat} (h : DataInv s bs)
    (hne : data ≠ []) (hold : oldsz < 2 ^ 32) (hlen : data.length < 2 ^ 32)
    : AllInside (fsAppendFileLog.append data s idx oldsz).2
      ↔ ¬(2 ^ 32 ≤ oldsz + data.length ∧ ¬NoRoom s ((oldsz + data.length) % 2 ^ 32)) := by
  have hpos : 0 < data.length := List.length_pos_of_ne_nil hne
  unfold fsAppendFileLog.append
  obtain ⟨newsz, hnew⟩ : ∃ newsz, newsz = (oldsz + data.length) % 2 ^ 32 := ⟨_, rfl⟩
  rw [← hnew]
  dsimp only
  split
  . next hmax =>
    simp only [allInside_nil, true_iff, not_and]
    exact fun _ hroom => hroom (Or.inl hmax)
  . have hreads := h.reads_inside idx newsz
    have hroom := @fdataResize_ne_zero_iff s idx newsz
    have hsize := @FsState.fsize_fdataResize s idx newsz
    have hdata := @Target.fdataResize_fdata s idx newsz
    obtain ⟨⟨bs', hinv⟩, _⟩ := h.resize idx newsz
    have hres : (fdataResizeLog s idx newsz).1 = fdataResize s idx newsz := rfl
    generalize fdataResizeLog s idx newsz = r at *
    rw [← hres] at hroom hsize hdata hinv
    obtain ⟨⟨rc, t⟩, log⟩ := r
    dsimp only at hroom hsize hdata hinv hreads ⊢
    split
    . next hrc =>
      have hfull := hroom.mp hrc
      simp [hreads, hfull]
    . next hrc =>
      have hfits : ¬NoRoom s newsz := fun hfull => hrc (hroom.mpr hfull)
      simp only [ne_eq, Decidable.not_not] at hrc
      have hsize := hsize hrc
      simp only [hfits, not_false_eq_true, and_true, Nat.not_le]
      rw [allInside_append, allInside_append]
      constructor
      . rintro ⟨⟨_, hstores⟩, _⟩
        by_contra hwrap
        -- the first byte goes behind the new end
        have hfirst : (oldsz + 0) % 2 ^ 32 = oldsz := by omega
        refine not_allInside (j := 0) hpos ?_ hstores
        right
        omega
      . intro hsum
        have hexact : newsz = oldsz + data.length := by omega
        obtain ⟨p, hp⟩ := Option.ne_none_iff_exists'.mp (hdata (by omega) hrc)
        exact ⟨⟨hreads, hinv.accesses_held hp (by omega)⟩, hinv.accesses_held hp (by omega)⟩

end Inside

/--
A file that is there or can be made is written with nothing: it has no block, and the NUL goes to
address 0.
-/
def Cleared (s : FsState) (path data : Bytes) : Prop :=
  data = [] ∧ ((∃ i, fileIndex s (absPath s.cwd.str path) = some i
    ∧ permAllows s (s.fmode i) (s.fowner i) 0o200) ∨ CanCreate s path)

/--
The new size of a file wraps around, and there is room for what is left of it.
-/
def SizeWraps (s : FsState) (path data : Bytes) : Prop :=
  path ≠ [] ∧ ∃ i, fileIndex s (absPath s.cwd.str path) = some i
    ∧ permAllows s (s.fmode i) (s.fowner i) 0o200 ∧ 2 ^ 32 ≤ s.fsize i + data.length
    ∧ ¬NoRoom s ((s.fsize i + data.length) % 2 ^ 32)

/--
The end of the bytes to be written wraps around, and what is left of it is in the file.
-/
def EndWraps (s : FsState) (path : Bytes) (offset : Nat) (data : Bytes) : Prop :=
  data ≠ [] ∧ ∃ i, fileIndex s (absPath s.cwd.str path) = some i ∧ s.fdata i ≠ none
    ∧ 2 ^ 32 ≤ offset + data.length ∧ (offset + data.length) % 2 ^ 32 ≤ s.fsize i

section Ops

variable {s : FsState} {bs : List Block} {path : CStr}

theorem fsCreateFile_found (hnone : fileIndex s (absPath s.cwd.str path) = none)
    (hrc : (fsCreateFile s path).1 = 0)
    : ∃ i, fileIndex (fsCreateFile s path).2 (absPath s.cwd.str path) = some i
        ∧ (fsCreateFile s path).2.fsize i = 0 := by
  cases hidx : fileIndex (fsCreateFile s path).2 (absPath s.cwd.str path) with
  | some i => exact ⟨i, rfl, (fsCreateFile_index hnone hrc hidx).2.2⟩
  | none =>
    rw [fileIndex_eq_none] at hnone hidx
    obtain ⟨_, _, hex⟩ | ⟨i, heq, _⟩ := fsCreateFile_cases (g := Grant.any) s path (fun _ => trivial)
    . obtain ⟨i, hi⟩ := hex hrc
      exact absurd hi (hnone i)
    . have hfile : (fsCreateFile s path).2.IsFile i (absPath s.cwd.str path) := by
        rw [heq, FsState.isFile_addFile (CStr.absPath_no_nul s path) (absPath_text _ _).length_le]
        exact Or.inl ⟨rfl, rfl⟩
      exact absurd hfile (hidx i)

theorem DataInv.created (path : CStr) (h : DataInv s bs)
    : ∃ bs', DataInv (fsCreateFile s path).2 bs' :=
  h.prims (g := { Grant.any with wild := False }) (fun hwild => hwild)
    (fsCreateFile_prims path (fun _ => trivial))

theorem not_canCreate {i : Fin maxF} (hidx : fileIndex s (absPath s.cwd.str path) = some i)
    : ¬CanCreate s path := by
  rintro ⟨_, _, hfile, _⟩
  rw [← fileIndex_isSome, hidx] at hfile
  contradiction

theorem DataInv.fsWriteFile_inside_iff {data : Bytes} (h : DataInv s bs)
    : AllInside (fsWriteFileLog s path data).2 ↔ ¬Cleared s path data := by
  unfold fsWriteFileLog Cleared
  dsimp only
  cases hidx : fileIndex s (absPath s.cwd.str path) with
  | some i =>
    have hidx' : fileIndex { s with fsErrno := 0 } (absPath s.cwd.str path) = some i := hidx
    have herr : DataInv { s with fsErrno := 0 } bs := ⟨h.pool, h.held, h.distinct⟩
    rw [hidx']
    dsimp only
    split
    . next hperm =>
      have hperm' : permAllows s (s.fmode i) (s.fowner i) 0o200 := hperm
      rw [herr.write_inside_iff]
      simp [hperm']
    . next hperm =>
      have hperm' : ¬permAllows s (s.fmode i) (s.fowner i) 0o200 := hperm
      simp [allInside_nil, hperm', not_canCreate hidx]
  | none =>
    have hidx' : fileIndex { s with fsErrno := 0 } (absPath s.cwd.str path) = none := hidx
    have hmade : fsCreateFile { s with fsErrno := 0 } path = fsCreateFile s path := rfl
    have hcan := fsCreateFile_eq_zero_iff hidx
    rw [hidx', hmade]
    dsimp only
    split
    . next hfail =>
      rw [ne_eq, hcan] at hfail
      simp [allInside_nil, hfail]
    . next hcreate =>
      rw [not_not] at hcreate
      obtain ⟨i, hi, _⟩ := fsCreateFile_found hidx hcreate
      obtain ⟨bs', hinv⟩ := h.created path
      rw [hcan] at hcreate
      rw [hi]
      dsimp only
      rw [hinv.write_inside_iff]
      simp [hcreate]

theorem DataInv.fsAppendFile_inside_iff (data : Data) (h : DataInv s bs)
    (hsizes : ∀ i, s.fsize i < maxFileData)
    : AllInside (fsAppendFileLog s path data).2 ↔ ¬SizeWraps s path data := by
  have hlen := data.property
  have hmax : maxFileData < 2 ^ 32 := by decide
  unfold fsAppendFileLog
  dsimp only
  split
  . next hargs =>
    simp only [allInside_nil, true_iff]
    rintro ⟨hpath, i, _, _, hsum, _⟩
    have hzero := hargs.resolve_left hpath
    have := hsizes i
    omega
  . next hargs =>
    rw [not_or, List.length_eq_zero_iff] at hargs
    obtain ⟨hpath, hne⟩ := hargs
    unfold SizeWraps
    cases hidx : fileIndex s (absPath s.cwd.str path) with
    | some i =>
      have hidx' : fileIndex { s with fsErrno := 0 } (absPath s.cwd.str path) = some i := hidx
      have herr : DataInv { s with fsErrno := 0 } bs := ⟨h.pool, h.held, h.distinct⟩
      have hsize : { s with fsErrno := 0 }.fsize i < 2 ^ 32 := Nat.lt_trans (hsizes i) hmax
      have hroom : ∀ size, NoRoom { s with fsErrno := 0 } size ↔ NoRoom s size := fun _ => Iff.rfl
      rw [hidx']
      dsimp only
      split
      . next hperm =>
        have hperm' : permAllows s (s.fmode i) (s.fowner i) 0o200 := hperm
        rw [herr.append_inside_iff hne hsize hlen, hroom]
        simp [hpath, hperm']
      . next hperm =>
        have hperm' : ¬permAllows s (s.fmode i) (s.fowner i) 0o200 := hperm
        simp [allInside_nil, hperm']
    | none =>
      have hidx' : fileIndex { s with fsErrno := 0 } (absPath s.cwd.str path) = none := hidx
      have hmade : fsCreateFile { s with fsErrno := 0 } path = fsCreateFile s path := rfl
      rw [hidx', hmade]
      dsimp only
      split
      . simp [allInside_nil]
      . next hcreate =>
        rw [not_not] at hcreate
        obtain ⟨i, hi, _⟩ := fsCreateFile_found hidx hcreate
        obtain ⟨bs', hinv⟩ := h.created path
        rw [hi]
        dsimp only
        -- a new file starts at 0
        have hsum : ¬2 ^ 32 ≤ data.val.length := by omega
        rw [hinv.append_inside_iff hne (by decide) hlen, Nat.zero_add]
        simp only [hsum, false_and, not_false_eq_true, true_iff]
        rintro ⟨_, _, hj, _⟩
        contradiction

theorem DataInv.fsWriteAt_inside_iff {offset : Nat} (data : Data) (h : DataInv s bs)
    (hsizes : ∀ i, s.fsize i < maxFileData) (hoff : offset < 2 ^ 32)
    : AllInside (fsWriteAtLog s path offset data).2 ↔ ¬EndWraps s path offset data := by
  have hlen := data.property
  have hmax : maxFileData < 2 ^ 32 := by decide
  unfold fsWriteAtLog EndWraps
  dsimp only
  split
  . next hzero => simp [allInside_nil, List.length_eq_zero_iff.mp hzero]
  . next hne =>
    rw [List.length_eq_zero_iff] at hne
    cases hidx : fileIndex s (absPath s.cwd.str path) with
    | none => simp [allInside_nil]
    | some i =>
      have hsize := hsizes i
      dsimp only
      split
      . next hnone => simp [allInside_nil, hnone]
      . next hdata =>
        split
        . next hfit =>
          simp only [allInside_nil, true_iff]
          rintro ⟨_, j, hj, _, _, hend⟩
          obtain rfl := Option.some.inj hj
          omega
        . next hfit =>
          by_cases hsum : 2 ^ 32 ≤ offset + data.val.length
          . -- the byte at the end of the address space
            have hout : ¬AllInside (s.accesses i offset data.val.length) :=
              not_allInside (j := 2 ^ 32 - 1 - offset) (by omega) (Or.inr (by omega))
            simp only [hout, false_iff, not_not]
            exact ⟨hne, i, rfl, hdata, hsum, by omega⟩
          . obtain ⟨p, hp⟩ := Option.ne_none_iff_exists'.mp hdata
            simp only [h.accesses_held hp (show offset + data.val.length ≤ s.fsize i + 1 by omega),
              true_iff]
            rintro ⟨_, _, _, _, hsum', _⟩
            contradiction

end Ops

end TanjaOS
