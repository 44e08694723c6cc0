import TanjaOS.Fs.ReadFile
import TanjaOS.Linux.Getdents
import TanjaOS.Linux.ReadOnly

/-!
What `sys_open` makes of its flags.
-/

open Lib

namespace TanjaOS

section Spec

def Flag (flags bit : UInt32) : Prop :=
  flags &&& bit ≠ 0

instance (flags bit : UInt32) : Decidable (Flag flags bit) :=
  inferInstanceAs (Decidable (_ ≠ _))

def WriteAccess (flags : UInt32) : Prop :=
  Flag flags (oWronly ||| oRdwr)

instance (flags : UInt32) : Decidable (WriteAccess flags) :=
  inferInstanceAs (Decidable (Flag _ _))

def Exclusive (flags : UInt32) : Prop :=
  Flag flags oCreat ∧ Flag flags oExcl

instance (flags : UInt32) : Decidable (Exclusive flags) :=
  inferInstanceAs (Decidable (_ ∧ _))

def FileReadable (s : FsState) (j : Fin maxF) : Prop :=
  permAllows s (s.fmode j) (s.fowner j) 0o400

/--
The directory is found under its canonical path and may be listed. The root need not have a record.
-/
def MayList (s : FsState) (x : Bytes) : Prop :=
  fsDirectoryExists s x ∧ ∀ k, dirIndex s x = some k → permAllows s (s.dmode k) (s.downer k) 0o400

def PathExists (s : FsState) (path : Bytes) : Prop :=
  fsFileExists s path ∨ fsDirectoryExists s path

def HasOpened (r : Nat × LxState) : Prop :=
  r.1 < linuxMaxFd

/--
All that a call can change is `fs_errno` and what entries hold that are not in use.
-/
structure Untouched (st st' : LxState) : Prop where
  fs : ∃ e, st'.fs = { st.fs with fsErrno := e }
  used : ∀ j, (st'.lfd j).used = (st.lfd j).used
  entry : ∀ j, (st.lfd j).used → st'.lfd j = st.lfd j
  slots : st'.slotUsed = st.slotUsed
  spilled : st'.spilled = st.spilled

/--
Descriptor `i` shows file `j`.
-/
structure OpenedAs (st st' : LxState) (i : Fin linuxMaxFd) (j : Fin maxF) (flags : UInt32) : Prop where
  used : (st'.lfd i).used
  bytes : st'.getData (st'.lfd i).data 0 (st'.lfd i).len
    = if Flag flags oTrunc ∧ WriteAccess flags then [] else st.fs.fileBytes j
  pos : (st'.lfd i).pos = if Flag flags oAppend then (st'.lfd i).len else 0

def LxState.recordAnew (st : LxState) : LxState :=
  { st with spilled := false }

/--
What the flags promise.
-/
structure HonoursFlags (st : LxState) (path : CStr) (flags : UInt32) : Prop where
  missing : ¬PathExists st.fs (lxnorm st.fs path) →
    (HasOpened (sysOpen st path flags) ↔ Flag flags oCreat ∧ CanCreate st.fs (lxnorm st.fs path))
  exclusive : Exclusive flags →
    (HasOpened (sysOpen st path flags)
      ↔ ¬PathExists st.fs (lxnorm st.fs path) ∧ CanCreate st.fs (lxnorm st.fs path))
  existing : ∀ j, lxnorm st.fs path ≠ [] → fsDirectoryExists st.fs (lxnorm st.fs path) = false →
    fileIndex st.fs (absPath st.fs.cwd.str (lxnorm st.fs path)) = some j → FileReadable st.fs j → ¬Exclusive flags →
    ∃ i, (sysOpen st path flags).1 = i.val ∧ OpenedAs st (sysOpen st path flags).2 i j flags
  failed : ¬HasOpened (sysOpen st path flags) → Untouched st (sysOpen st path flags).2

/--
No lock file is asked for where one could be made or where the path can be opened, no directory is opened for
writing that may not be listed, and a file that is opened for writing fits into its slot.
-/
structure FlagsFine (s : FsState) (path : Bytes) (flags : UInt32) : Prop where
  directory : fsDirectoryExists s path →
    (MayList s (absPath s.cwd.str path) → ¬Exclusive flags) ∧ (¬MayList s (absPath s.cwd.str path) → ¬WriteAccess flags)
  missing : ¬PathExists s path → ¬(Exclusive flags ∧ CanCreate s path)
  file : ∀ j, path ≠ [] → fsDirectoryExists s path = false → fileIndex s (absPath s.cwd.str path) = some j →
    FileReadable s j → ¬Exclusive flags ∧ (WriteAccess flags → s.fsize j ≤ lxWriteSlotBytes)

end Spec

section Start

variable {st st' : LxState} {i : Fin linuxMaxFd} {flags : UInt32}

/--
The state in which `sys_open` looks at the path.
-/
structure Started (st st' : LxState) (i : Fin linuxMaxFd) (flags : UInt32) : Prop where
  fs : st'.fs = st.fs
  spilled : st'.spilled = st.spilled
  free : (st.lfd i).used = false
  other : ∀ j, j ≠ i → st'.lfd j = st.lfd j
  used : (st'.lfd i).used
  pos : (st'.lfd i).pos = 0
  writable : (st'.lfd i).writable = decide (WriteAccess flags)
  released : (slotRelease st' (st'.lfd i).slot).slotUsed = st.slotUsed
  write : WriteAccess flags → ∃ s, st.slotUsed s = false ∧ st'.slotUsed s = true
    ∧ (st'.lfd i).slot = some s ∧ (st'.lfd i).data = .slot s ∧ (st'.lfd i).cap = lxWriteSlotBytes
  read : ¬WriteAccess flags → (st'.lfd i).slot = none

theorem lxnorm_nil (s : FsState) : lxnorm s [] = [] := rfl

theorem CStr.lxnorm_no_nul (s : FsState) (path : CStr) : 0 ∉ lxnorm s path := by
  have hpath := path.property
  unfold lxnorm
  split
  . exact Buf.zero_not_mem_str _
  . split
    . next rest heq =>
      intro h
      have hrest := List.mem_of_mem_take h
      rw [heq] at hpath
      exact hpath (List.mem_cons_of_mem _ (List.mem_cons_of_mem _ hrest))
    . intro h
      exact hpath (List.mem_of_mem_take h)

theorem sysOpen_started {path : Bytes} (hpath : lxnorm st.fs path ≠ []) (hfree : (fdFree st).isSome)
    (hslot : ∃ t, st.slotUsed t = false)
    : ∃ i st', Started st st' i flags ∧ sysOpen st path flags = openPath st' i (lxnorm st.fs path) flags := by
  obtain ⟨i, hi⟩ := Option.isSome_iff_exists.mp hfree
  have hne : path ≠ [] := by
    rintro rfl
    exact hpath (lxnorm_nil _)
  have hunused := (fdFree_some hi).2
  unfold sysOpen
  rw [if_neg (not_or.mpr ⟨hne, hpath⟩)]
  dsimp only
  rw [hi]
  dsimp only
  by_cases hwrite : flags &&& (oWronly ||| oRdwr) ≠ 0
  . rw [if_pos hwrite]
    split
    . next st' hclaim =>
      have hsome := (@slotClaim_isSome { st with opens := st.opens + 1 }).mpr hslot
      rw [hclaim] at hsome
      contradiction
    . next s st' hclaim =>
      obtain ⟨hs, rfl⟩ := slotClaim_some hclaim
      refine ⟨i, _, ?_, rfl⟩
      have hs' : st.slotUsed s = false := hs
      refine ⟨rfl, rfl, hunused, fun j hj => by simp [hj], by simp, by simp [LinuxFd.zero], ?_, ?_, ?_, ?_⟩
      . simp only [LxState.lfd_setFd, ↓reduceIte]
        exact (decide_eq_true hwrite).symm
      . simp only [LxState.lfd_setFd, ↓reduceIte]
        funext t
        show (if t = s then false else if t = s then true else st.slotUsed t) = st.slotUsed t
        by_cases ht : t = s
        . rw [if_pos ht, ht, hs']
        . rw [if_neg ht, if_neg ht]
      . intro _
        refine ⟨s, hs, by simp, by simp, by simp, by simp⟩
      . exact fun hno => absurd hwrite hno
  . rw [if_neg hwrite]
    refine ⟨i, _, ?_, rfl⟩
    refine ⟨rfl, rfl, hunused, fun j hj => by simp [hj], by simp, by simp [LinuxFd.zero], ?_, ?_, ?_, ?_⟩
    . simp only [LxState.lfd_setFd, ↓reduceIte]
      exact (decide_eq_false hwrite).symm
    . simp [LinuxFd.zero, slotRelease]
    . exact fun hyes => absurd hyes hwrite
    . simp [LinuxFd.zero]

theorem Started.untouched {t : LxState} {f : LinuxFd} (h : Started st st' i flags)
    (hfs : ∃ e, t.fs = { st.fs with fsErrno := e }) (hspilled : t.spilled = st'.spilled)
    (hlfd : t.lfd = fun j => if j = i then f else st'.lfd j) (hused : f.used = false)
    (hslots : t.slotUsed = (slotRelease st' (st'.lfd i).slot).slotUsed)
    : Untouched st t where
  fs := hfs
  used j := by
    rw [hlfd]
    dsimp only
    split
    . next hj => rw [hj, hused, h.free]
    . next hj => rw [h.other j hj]
  entry j hj := by
    rw [hlfd]
    dsimp only
    split
    . next heq =>
      rw [heq, h.free] at hj
      contradiction
    . next hne => exact h.other j hne
  slots := hslots.trans h.released
  spilled := hspilled.trans h.spilled

theorem Started.openFailed {t : LxState} (h : Started st st' i flags)
    (hfs : ∃ e, t.fs = { st.fs with fsErrno := e }) (hspilled : t.spilled = st'.spilled)
    (hlfd : t.lfd = st'.lfd) (hslots : t.slotUsed = st'.slotUsed)
    : Untouched st (openFailed t i) := by
  unfold TanjaOS.openFailed
  apply h.untouched (f := { st'.lfd i with used := false })
  . cases (t.lfd i).slot <;> exact hfs
  . cases (t.lfd i).slot <;> exact hspilled
  . rw [LxState.lfd_slotRelease, LxState.lfd_setFd, hlfd]
  . rfl
  . rw [hlfd]
    cases (st'.lfd i).slot with
    | none => exact hslots
    | some s =>
      show (fun t' => if t' = s then false else t.slotUsed t') = fun t' => if t' = s then false else st'.slotUsed t'
      rw [hslots]

end Start

section Branches

variable {st st' : LxState} {i : Fin linuxMaxFd} {path : Bytes} {flags : UInt32} {j : Fin maxF}

theorem hasOpened_val (st : LxState) (i : Fin linuxMaxFd) : HasOpened (i.val, st) :=
  i.isLt

theorem not_hasOpened {st : LxState} {e : Nat} (he : e < 4096) : ¬HasOpened (lxErr e, st) := by
  unfold HasOpened lxErr linuxMaxFd
  dsimp only
  omega

theorem fsListDirectory_rc {s : FsState} (hpath : path ≠ [])
    : ((fsListDirectory s path).1 = 0 ↔ MayList s (absPath s.cwd.str path))
        ∧ ∃ e, (fsListDirectory s path).2.2 = { s with fsErrno := e } := by
  have hfound : ∀ x, fsDirectoryExists { s with fsErrno := 0 } x = fsDirectoryExists s x := fun _ => rfl
  have hidx : ∀ x, dirIndex { s with fsErrno := 0 } x = dirIndex s x := fun _ => rfl
  unfold fsListDirectory MayList
  dsimp only
  rw [if_neg hpath, hfound]
  by_cases hdir : fsDirectoryExists s (absPath s.cwd.str path) = true
  . rw [if_neg (not_not_intro hdir), hidx]
    cases dirIndex s (absPath s.cwd.str path) with
    | none => exact ⟨⟨fun _ => ⟨hdir, fun _ hk => by contradiction⟩, fun _ => rfl⟩, ⟨0, rfl⟩⟩
    | some k =>
      have hperm : permAllows { s with fsErrno := 0 } (s.dmode k) (s.downer k) 0o400
          = permAllows s (s.dmode k) (s.downer k) 0o400 := rfl
      dsimp only
      rw [hperm]
      constructor
      . constructor
        . intro hrc
          refine ⟨hdir, fun k' hk' => ?_⟩
          cases hk'
          by_contra hno
          rw [if_neg hno] at hrc
          contradiction
        . intro hmay
          rw [if_pos (hmay.2 k rfl)]
      . split
        . exact ⟨0, rfl⟩
        . exact ⟨13, rfl⟩
  . rw [if_pos hdir]
    exact ⟨⟨fun hrc => by contradiction, fun hmay => absurd hmay.1 hdir⟩, ⟨0, rfl⟩⟩

theorem Started.openDir (h : Started st st' i flags) (hpath : path ≠ [])
    : (MayList st.fs (absPath st.fs.cwd.str path) → HasOpened (openDir st' i path))
        ∧ (¬MayList st.fs (absPath st.fs.cwd.str path) → ¬HasOpened (openDir st' i path)
          ∧ (¬WriteAccess flags → Untouched st (openDir st' i path).2)
          ∧ (WriteAccess flags → (openDir st' i path).2.slotUsed ≠ st.slotUsed)) := by
  obtain ⟨hrc, herrno⟩ := @fsListDirectory_rc path st.fs hpath
  unfold TanjaOS.openDir
  dsimp only
  rw [h.fs]
  constructor
  . intro hmay
    rw [if_neg (not_not_intro (hrc.mpr hmay))]
    exact hasOpened_val _ i
  . intro hno
    rw [if_pos (fun heq => hno (hrc.mp heq))]
    refine ⟨not_hasOpened (by decide), ?_, ?_⟩
    . intro hread
      apply h.untouched (f := { st'.lfd i with isDir := true, used := false })
      . exact herrno
      . rfl
      . rfl
      . rfl
      . rw [h.read hread]
        rfl
    . intro hwrite heq
      obtain ⟨s, hfree, htaken, _⟩ := h.write hwrite
      have hs := congrFun heq s
      rw [hfree] at hs
      change st'.slotUsed s = false at hs
      rw [htaken] at hs
      contradiction

theorem fsCreateFile_errno {s : FsState} {path : CStr} (hrc : (fsCreateFile s path).1 ≠ 0)
    : ∃ e, (fsCreateFile s path).2 = { s with fsErrno := e } := by
  obtain ⟨e, heq, _⟩ | ⟨k, heq, _⟩ := @fsCreateFile_cases Grant.any s path (fun _ => trivial)
  . exact ⟨e, heq⟩
  . rw [heq] at hrc
    contradiction

theorem Started.openNew (h : Started st st' i flags) (path : CStr)
    (hnone : fileIndex st.fs (absPath st.fs.cwd.str path) = none)
    : (HasOpened (openNew st' i path flags)
          ↔ Flag flags oCreat ∧ ¬Flag flags oExcl ∧ CanCreate st.fs path)
        ∧ (¬HasOpened (openNew st' i path flags) → Untouched st (openNew st' i path flags).2) := by
  have hcan := fsCreateFile_eq_zero_iff hnone
  unfold TanjaOS.openNew
  by_cases hcreat : flags &&& oCreat = 0
  . rw [if_pos hcreat]
    refine ⟨⟨fun hopened => absurd hopened (not_hasOpened (by decide)), fun hall => absurd hcreat hall.1⟩, fun _ => ?_⟩
    exact h.openFailed ⟨st.fs.fsErrno, h.fs⟩ rfl rfl rfl
  . rw [if_neg hcreat]
    by_cases hexcl : flags &&& oExcl ≠ 0
    . rw [if_pos hexcl]
      refine ⟨⟨fun hopened => absurd hopened (not_hasOpened (by decide)), fun hall => absurd hexcl hall.2.1⟩,
        fun _ => ?_⟩
      exact h.openFailed ⟨st.fs.fsErrno, h.fs⟩ rfl rfl rfl
    . rw [if_neg hexcl]
      dsimp only
      rw [h.fs]
      by_cases hrc : (fsCreateFile st.fs path).1 = 0
      . rw [if_neg (not_not_intro hrc)]
        exact ⟨⟨fun _ => ⟨hcreat, hexcl, hcan.mp hrc⟩, fun _ => hasOpened_val _ i⟩,
          fun hno => absurd (hasOpened_val _ i) hno⟩
      . rw [if_pos hrc]
        constructor
        . constructor
          . intro hopened
            exact absurd hopened (not_hasOpened (by split <;> decide))
          . rintro ⟨_, _, hall⟩
            exact absurd (hcan.mpr hall) hrc
        . intro _
          exact h.openFailed (fsCreateFile_errno hrc) rfl rfl rfl

theorem data_openFile (t : LxState) : ((openFile t i path flags).lfd i).data = (t.lfd i).data := by
  unfold openFile
  simp only [LxState.lfd_setFd, ↓reduceIte]
  split <;> split <;> rfl

theorem used_openFile (t : LxState) : ((openFile t i path flags).lfd i).used = (t.lfd i).used := by
  unfold openFile
  simp only [LxState.lfd_setFd, ↓reduceIte]
  split <;> split <;> rfl

theorem len_openFile (t : LxState)
    : ((openFile t i path flags).lfd i).len
      = if Flag flags oTrunc ∧ (t.lfd i).writable then 0 else (t.lfd i).len := by
  unfold openFile Flag
  simp only [LxState.lfd_setFd, ↓reduceIte]
  split <;> split <;> rfl

theorem pos_openFile (t : LxState)
    : ((openFile t i path flags).lfd i).pos
      = if Flag flags oAppend then ((openFile t i path flags).lfd i).len else (t.lfd i).pos := by
  unfold openFile Flag
  simp only [LxState.lfd_setFd, ↓reduceIte]
  by_cases happend : flags &&& oAppend ≠ 0
  . rw [if_pos happend, if_pos happend]
  . rw [if_neg happend, if_neg happend]
    split <;> rfl

theorem openFile_openedAs {t : LxState} (hused : (t.lfd i).used) (hpos : (t.lfd i).pos = 0)
    (hwritable : (t.lfd i).writable = decide (WriteAccess flags))
    (hbytes : t.getData (t.lfd i).data 0 (t.lfd i).len = st.fs.fileBytes j)
    : OpenedAs st (openFile t i path flags) i j flags where
  used := by rw [used_openFile]; exact hused
  bytes := by
    have hdata : ∀ d off n, (openFile t i path flags).getData d off n = t.getData d off n := by
      intro d off n
      cases d <;> rfl
    rw [hdata, data_openFile, len_openFile, hwritable]
    simp only [decide_eq_true_iff]
    split
    . rfl
    . exact hbytes
  pos := by rw [pos_openFile, hpos]

theorem getData_file {t : LxState} (hsize : st.fs.fdata j = none → st.fs.fsize j = 0) (hpool : t.fs.fpool = st.fs.fpool)
    : t.getData (match st.fs.fdata j with | some p => .pool p | none => .null) 0 (st.fs.fsize j)
        = st.fs.fileBytes j := by
  unfold FsState.fileBytes LxState.getData
  cases hp : st.fs.fdata j with
  | none =>
    rw [hsize hp]
    rfl
  | some p =>
    unfold LxState.dataMem Mem.readBytes
    dsimp only
    rw [hpool]
    simp only [Nat.zero_add]

theorem Started.openRead (h : Started st st' i flags) (hsize : st.fs.fdata j = none → st.fs.fsize j = 0)
    (hread : ¬WriteAccess flags) (hpath : path ≠ []) (hfile : fileIndex st.fs (absPath st.fs.cwd.str path) = some j)
    : (FileReadable st.fs j → (openRead st' i path flags).1 = i.val ∧
          OpenedAs st (openRead st' i path flags).2 i j flags)
        ∧ (¬FileReadable st.fs j → ¬HasOpened (openRead st' i path flags)
          ∧ Untouched st (openRead st' i path flags).2) := by
  constructor
  . intro hperm
    have hptr := fsFileDataPtr_eq hpath hfile hperm
    unfold TanjaOS.openRead
    dsimp only
    rw [h.fs, hptr]
    have hopened : ∀ d, d = (match st.fs.fdata j with | some p => LxData.pool p | none => .null) →
        OpenedAs st (openFile (LxState.setFd { st' with fs := { st.fs with fsErrno := 0 } } i
          { st'.lfd i with data := d, len := st.fs.fsize j, zeroCopy := true }) i path flags) i j flags := by
      intro d hd
      apply openFile_openedAs
      . simpa using h.used
      . simpa using h.pos
      . simpa using h.writable
      . simp only [LxState.lfd_setFd, ↓reduceIte]
        rw [hd]
        exact getData_file hsize rfl
    cases hp : st.fs.fdata j with
    | none => exact ⟨rfl, hopened _ (by rw [hp])⟩
    | some p => exact ⟨rfl, hopened _ (by rw [hp])⟩
  . intro hperm
    have hptr : fsFileDataPtr st.fs path = (none, { st.fs with fsErrno := 13 }) := by
      have hfile' : fileIndex { st.fs with fsErrno := 0 } (absPath st.fs.cwd.str path) = some j := hfile
      have hperm' : ¬permAllows { st.fs with fsErrno := 0 } (st.fs.fmode j) (st.fs.fowner j) 0o400 = true := hperm
      unfold fsFileDataPtr
      dsimp only
      rw [if_neg hpath, hfile']
      dsimp only
      rw [if_neg hperm']
      rfl
    unfold TanjaOS.openRead
    dsimp only
    rw [h.fs, hptr]
    dsimp only
    rw [if_pos rfl]
    refine ⟨not_hasOpened (by decide), ?_⟩
    apply h.untouched (f := { st'.lfd i with used := false })
    . exact ⟨13, rfl⟩
    . rfl
    . rfl
    . rfl
    . rw [h.read hread]
      rfl

theorem Started.openWrite (h : Started st st' i flags) (hclean : st.spilled = false)
    (hsize : st.fs.fdata j = none → st.fs.fsize j = 0) (hmax : st.fs.fsize j ≤ maxFileSize)
    (hwrite : WriteAccess flags) (hfile : fileIndex st.fs (absPath st.fs.cwd.str path) = some j)
    : (FileReadable st.fs j → st.fs.fsize j ≤ lxWriteSlotBytes →
          (openWrite st' i path flags).1 = i.val ∧ OpenedAs st (openWrite st' i path flags).2 i j flags)
        ∧ (FileReadable st.fs j → ¬st.fs.fsize j ≤ lxWriteSlotBytes →
          ¬HasOpened (openWrite st' i path flags) ∧ (openWrite st' i path flags).2.spilled = true)
        ∧ (¬FileReadable st.fs j → ¬HasOpened (openWrite st' i path flags)
          ∧ Untouched st (openWrite st' i path flags).2) := by
  obtain ⟨s, _, _, hslot, hdata, hcap⟩ := h.write hwrite
  have hlen : (st.fs.fileBytes j).length = st.fs.fsize j := DataInv.length_fileBytes hsize
  have hspilled : ∀ fs' bs, (LxState.putData { st' with fs := fs' } (.slot s) 0 bs).spilled
      = decide (0 < bs.length ∧ lxWriteSlotBytes < bs.length) := by
    intro fs' bs
    show (st'.spilled || decide (0 < bs.length ∧ lxWriteSlotBytes < 0 + bs.length)) = _
    rw [h.spilled, hclean, Nat.zero_add, Bool.false_or]
  have hroom : ∀ fs' bs, ((LxState.putData { st' with fs := fs' } (.slot s) 0 bs).lfd i).cap = lxWriteSlotBytes := by
    intro fs' bs
    rw [LxState.lfd_putData]
    exact hcap
  have hfailed : ∀ t : LxState, (TanjaOS.openFailed t i).spilled = t.spilled := by
    intro t
    unfold TanjaOS.openFailed
    cases (t.lfd i).slot <;> rfl
  have hread : FileReadable st.fs j → fsReadFilePrefix st.fs path (maxFileSize + 1)
      = ⟨0, st.fs.fileBytes j ++ [0], some (st.fs.fsize j), { st.fs with fsErrno := 0 }⟩ := by
    intro hperm
    rw [fsReadFilePrefix_readable hfile hsize (by decide) hperm, Nat.add_sub_cancel, Nat.min_eq_left hmax,
      List.take_of_length_le (by omega)]
  unfold TanjaOS.openWrite
  dsimp only
  rw [h.fs, hdata]
  refine ⟨?_, ?_, ?_⟩
  . intro hperm hle
    rw [hread hperm]
    dsimp only
    rw [if_neg (by decide), if_neg (by rw [hroom]; exact Nat.not_lt.mpr hle)]
    refine ⟨rfl, ?_⟩
    apply openFile_openedAs
    . simpa using h.used
    . simpa using h.pos
    . simpa using h.writable
    . simp only [LxState.lfd_setFd, LxState.lfd_putData, ↓reduceIte, Option.getD_some, hdata]
      have hstaged := @Mem.readBytes_writeBytes_sub (st'.scratch s) 0 0 (st.fs.fsize j) (st.fs.fileBytes j ++ [0])
        (by rw [List.length_append, hlen]; omega)
      rw [List.drop_zero, List.take_append_of_le_length (Nat.le_of_eq hlen.symm),
        List.take_of_length_le (Nat.le_of_eq hlen)] at hstaged
      rw [← hstaged]
      unfold LxState.getData LxState.dataMem LxState.setFd LxState.putData
      dsimp only
      rw [if_pos rfl, hstaged]
      exact hstaged
  . intro hperm hlong
    rw [hread hperm]
    dsimp only
    rw [if_neg (by decide), if_pos (by rw [hroom]; exact Nat.lt_of_not_le hlong)]
    refine ⟨not_hasOpened (by decide), ?_⟩
    rw [hfailed, hspilled, decide_eq_true_iff, List.length_append, hlen, List.length_singleton]
    omega
  . intro hperm
    have hdenied : fsReadFilePrefix st.fs path (maxFileSize + 1) = ⟨-2, [0], some 0, { st.fs with fsErrno := 13 }⟩ := by
      have hfile' : fileIndex { st.fs with fsErrno := 0 } (absPath st.fs.cwd.str path) = some j := hfile
      have hperm' : ¬permAllows { st.fs with fsErrno := 0 } (st.fs.fmode j) (st.fs.fowner j) 0o400 = true := hperm
      unfold fsReadFilePrefix
      dsimp only
      rw [if_neg (by decide), hfile']
      dsimp only
      rw [if_neg hperm']
      rfl
    rw [hdenied]
    dsimp only
    rw [if_pos (by decide)]
    refine ⟨not_hasOpened (by decide), ?_⟩
    apply h.openFailed
    . exact ⟨13, rfl⟩
    . rw [hspilled, h.spilled, hclean]
      decide
    . exact LxState.lfd_putData _ _ _
    . exact LxState.slotUsed_putData _ _ _

end Branches

section Main

variable {st : LxState} {path : CStr} {flags : UInt32}

theorem not_canCreate_nil (s : FsState) : ¬CanCreate s [] :=
  fun h => h.1 rfl

theorem not_pathExists {s : FsState} {p : Bytes} (hdir : fsDirectoryExists s p = false)
    (hnone : fileIndex s (absPath s.cwd.str p) = none)
    : ¬PathExists s p := by
  unfold PathExists fsFileExists
  rw [hdir, hnone]
  simp

theorem honours_empty (hpath : lxnorm st.fs path = []) : HonoursFlags st path flags ∧ FlagsFine st.fs [] flags := by
  have hopen : sysOpen st path flags = (lxErr ENOENT_L, st) := by
    unfold sysOpen
    rw [if_pos (.inr hpath)]
  have hno : ¬HasOpened (lxErr ENOENT_L, st) := not_hasOpened (by decide)
  constructor
  . constructor
    . rw [hopen, hpath]
      exact fun _ => ⟨fun h => absurd h hno, fun h => absurd h.2 (not_canCreate_nil _)⟩
    . rw [hopen, hpath]
      exact fun _ => ⟨fun h => absurd h hno, fun h => absurd h.2 (not_canCreate_nil _)⟩
    . exact fun _ hne => absurd hpath hne
    . rw [hopen]
      exact fun _ => ⟨⟨st.fs.fsErrno, rfl⟩, fun _ => rfl, fun _ _ => rfl, rfl, rfl⟩
  . refine ⟨fun hdir => ?_, fun _ h => not_canCreate_nil _ h.2, fun _ hne => absurd rfl hne⟩
    simp [fsDirectoryExists] at hdir

theorem honours_directory {i : Fin linuxMaxFd} {st' : LxState} {p : Bytes} (h : Started st st' i flags)
    (hp : lxnorm st.fs path = p) (hne : p ≠ []) (hdir : fsDirectoryExists st.fs p)
    (hopen : sysOpen st path flags = openPath st' i p flags)
    : HonoursFlags st path flags ↔ FlagsFine st.fs p flags := by
  have hexists : PathExists st.fs p := .inr hdir
  obtain ⟨hlist, hunlisted⟩ := h.openDir hne
  unfold openPath at hopen
  rw [h.fs, if_pos hdir] at hopen
  rw [← hopen] at hlist hunlisted
  constructor
  . intro hall
    refine ⟨fun _ => ⟨?_, ?_⟩, fun hno => absurd hexists hno, fun _ _ hno => absurd hdir (by rw [hno]; decide)⟩
    . intro hmay hexcl
      have hnone := ((hall.exclusive hexcl).mp (hlist hmay)).1
      rw [hp] at hnone
      exact hnone hexists
    . intro hno hwrite
      obtain ⟨hclosed, _, hleak⟩ := hunlisted hno
      exact hleak hwrite (hall.failed hclosed).slots
  . intro hfine
    obtain ⟨hlisted, hread⟩ := hfine.directory hdir
    constructor
    . rw [hp]
      exact fun hno => absurd hexists hno
    . rw [hp]
      intro hexcl
      refine ⟨fun hopened => ?_, fun hall => absurd hexists hall.1⟩
      by_cases hmay : MayList st.fs (absPath st.fs.cwd.str p)
      . exact absurd hexcl (hlisted hmay)
      . exact absurd hopened (hunlisted hmay).1
    . rw [hp]
      exact fun _ _ hno => absurd hdir (by rw [hno]; decide)
    . intro hclosed
      by_cases hmay : MayList st.fs (absPath st.fs.cwd.str p)
      . exact absurd (hlist hmay) hclosed
      . exact (hunlisted hmay).2.1 (hread hmay)

theorem honours_missing {i : Fin linuxMaxFd} {st' : LxState} {p : Bytes} (h : Started st st' i flags)
    (hp : lxnorm st.fs path = p) (hdir : fsDirectoryExists st.fs p = false)
    (hnone : fileIndex st.fs (absPath st.fs.cwd.str p) = none) (hopen : sysOpen st path flags = openPath st' i p flags)
    : HonoursFlags st path flags ↔ FlagsFine st.fs p flags := by
  have hmissing := not_pathExists hdir hnone
  have hnul : 0 ∉ p := by
    rw [← hp]
    exact CStr.lxnorm_no_nul st.fs path
  obtain ⟨hnew, hfailed⟩ := h.openNew ⟨p, hnul⟩ hnone
  have hfile : ¬fsFileExists st.fs p = true := fun hyes => hmissing (.inl hyes)
  unfold openPath at hopen
  rw [h.fs, if_neg (by rw [hdir]; decide), if_pos hfile] at hopen
  rw [← hopen] at hnew hfailed
  constructor
  . intro hall
    refine ⟨fun hyes => absurd hyes (by rw [hdir]; decide), ?_, fun j _ _ hj => by rw [hnone] at hj; cases hj⟩
    rintro _ ⟨hexcl, hcan⟩
    have hopened := (hall.exclusive hexcl).mpr (by rw [hp]; exact ⟨hmissing, hcan⟩)
    exact (hnew.mp hopened).2.1 hexcl.2
  . intro hfine
    have hno := hfine.missing hmissing
    constructor
    . rw [hp]
      intro _
      rw [hnew]
      refine ⟨fun hall => ⟨hall.1, hall.2.2⟩, fun hall => ⟨hall.1, fun hexcl => ?_, hall.2⟩⟩
      exact hno ⟨⟨hall.1, hexcl⟩, hall.2⟩
    . rw [hp]
      intro hexcl
      rw [hnew]
      exact ⟨fun hall => absurd hexcl.2 hall.2.1, fun hall => absurd ⟨hexcl, hall.2⟩ hno⟩
    . rw [hp]
      intro j _ _ hj
      rw [hnone] at hj
      cases hj
    . exact hfailed

theorem honours_file {i : Fin linuxMaxFd} {st' : LxState} {p : Bytes} {j : Fin maxF} (h : Started st st' i flags)
    (hclean : st.spilled = false) (hsize : SizeOk st.fs) (hp : lxnorm st.fs path = p) (hne : p ≠ [])
    (hdir : fsDirectoryExists st.fs p = false) (hfile : fileIndex st.fs (absPath st.fs.cwd.str p) = some j)
    (hopen : sysOpen st path flags = openPath st' i p flags)
    : HonoursFlags st path flags ↔ FlagsFine st.fs p flags := by
  have hfound : fsFileExists st.fs p = true := by
    unfold fsFileExists
    rw [hfile]
    simpa using hne
  have hexists : PathExists st.fs p := .inl hfound
  have hmax : st.fs.fsize j ≤ maxFileSize := Nat.le_of_lt (hsize j).1
  -- whether the file can be opened at all
  have hcases : (FileReadable st.fs j → (WriteAccess flags → st.fs.fsize j ≤ lxWriteSlotBytes) →
        (sysOpen st path flags).1 = i.val ∧ OpenedAs st (sysOpen st path flags).2 i j flags)
      ∧ (FileReadable st.fs j → WriteAccess flags → ¬st.fs.fsize j ≤ lxWriteSlotBytes →
        ¬HasOpened (sysOpen st path flags) ∧ (sysOpen st path flags).2.spilled = true)
      ∧ (¬FileReadable st.fs j → ¬HasOpened (sysOpen st path flags) ∧ Untouched st (sysOpen st path flags).2) := by
    rw [hopen]
    unfold openPath
    rw [h.fs, if_neg (by rw [hdir]; decide), if_neg (not_not_intro hfound), h.writable]
    by_cases hwrite : WriteAccess flags
    . rw [if_pos (decide_eq_true hwrite)]
      obtain ⟨hfits, hlong, hdenied⟩ := h.openWrite hclean (hsize j).2 hmax hwrite hfile
      exact ⟨fun hperm hle => hfits hperm (hle hwrite), fun hperm _ => hlong hperm, hdenied⟩
    . rw [if_neg (by simpa using hwrite)]
      obtain ⟨hopened, hdenied⟩ := h.openRead (hsize j).2 hwrite hne hfile
      exact ⟨fun hperm _ => hopened hperm, fun _ hyes => absurd hyes hwrite, hdenied⟩
  obtain ⟨hopened, hlong, hdenied⟩ := hcases
  have hval : (sysOpen st path flags).1 = i.val → HasOpened (sysOpen st path flags) := by
    intro heq
    unfold HasOpened
    rw [heq]
    exact i.isLt
  constructor
  . intro hall
    refine ⟨fun hyes => absurd hyes (by rw [hdir]; decide), fun hno => absurd hexists hno, ?_⟩
    intro k _ _ hk hperm
    rw [hfile] at hk
    cases hk
    have hexcl : ¬Exclusive flags := by
      intro hexcl
      by_cases hfits : WriteAccess flags → st.fs.fsize j ≤ lxWriteSlotBytes
      . have hnone := ((hall.exclusive hexcl).mp (hval (hopened hperm hfits).1)).1
        rw [hp] at hnone
        exact hnone hexists
      . rw [Classical.not_imp] at hfits
        obtain ⟨hclosed, hspilled⟩ := hlong hperm hfits.1 hfits.2
        have hsame := (hall.failed hclosed).spilled
        rw [hspilled, hclean] at hsame
        contradiction
    refine ⟨hexcl, fun hwrite => ?_⟩
    by_contra hlen
    obtain ⟨k, hk, _⟩ := hall.existing j (by rw [hp]; exact hne) (by rw [hp]; exact hdir) (by rw [hp]; exact hfile)
      hperm hexcl
    refine (hlong hperm hwrite hlen).1 ?_
    unfold HasOpened
    rw [hk]
    exact k.isLt
  . intro hfine
    have hfine := hfine.file j hne hdir hfile
    constructor
    . rw [hp]
      exact fun hno => absurd hexists hno
    . rw [hp]
      intro hexcl
      refine ⟨fun hyes => ?_, fun hall => absurd hexists hall.1⟩
      by_cases hperm : FileReadable st.fs j
      . exact absurd hexcl (hfine hperm).1
      . exact absurd hyes (hdenied hperm).1
    . rw [hp]
      intro k _ _ hk hperm _
      rw [hfile] at hk
      cases hk
      exact ⟨i, hopened hperm (hfine hperm).2⟩
    . intro hclosed
      by_cases hperm : FileReadable st.fs j
      . exact absurd (hval (hopened hperm (hfine hperm).2).1) hclosed
      . exact (hdenied hperm).2

theorem honours_iff (hclean : st.spilled = false) (hsize : SizeOk st.fs) (hfree : (fdFree st).isSome)
    (hslot : ∃ t, st.slotUsed t = false)
    : HonoursFlags st path flags ↔ FlagsFine st.fs (lxnorm st.fs path) flags := by
  by_cases hpath : lxnorm st.fs path = []
  . obtain ⟨hall, hfine⟩ := @honours_empty st path flags hpath
    rw [hpath]
    exact ⟨fun _ => hfine, fun _ => hall⟩
  . obtain ⟨i, st', hstart, hopen⟩ := @sysOpen_started st flags path hpath hfree hslot
    cases hdir : fsDirectoryExists st.fs (lxnorm st.fs path) with
    | true => exact honours_directory hstart rfl hpath hdir hopen
    | false =>
      cases hfile : fileIndex st.fs (absPath st.fs.cwd.str (lxnorm st.fs path)) with
      | none => exact honours_missing hstart rfl hdir hfile hopen
      | some j => exact honours_file hstart hclean hsize rfl hpath hdir hfile hopen

/--
For any filesystem and any path.
-/
theorem sysOpen_flags_iff (s₀ s : FsState) (uid : Int32) (st : LxState) (path : CStr) (flags : UInt32)
    (hrun : AnyRun (fsInit s₀) s) (hfs : st.fs = { s with fsCurUid := uid }) (hfree : (fdFree st).isSome)
    (hslot : ∃ t, st.slotUsed t = false)
    : HonoursFlags st.recordAnew path flags ↔ FlagsFine st.fs (lxnorm st.fs path) flags := by
  have hsize : SizeOk st.fs := by
    rw [hfs]
    exact fun i => SizeOk.run hrun i
  exact @honours_iff st.recordAnew path flags rfl hsize hfree hslot

section Example

theorem notedStart_fdFree : (fdFree notedStart).isSome := by decide +kernel

theorem notedStart_slot : ∃ t, notedStart.slotUsed t = false :=
  ⟨⟨0, by decide⟩, rfl⟩

def lockFlags : UInt32 :=
  oWronly ||| oCreat ||| oExcl

end Example

theorem sysOpen_flags_iff_note : HonoursFlags notedStart.recordAnew notePath oAppend := by
  apply (sysOpen_flags_iff (.zeroed 64) noted noted.fsCurUid notedStart notePath oAppend
    (noted_run (fun _ _ _ => trivial)) rfl notedStart_fdFree notedStart_slot).mpr
  have hdir : fsDirectoryExists notedStart.fs (lxnorm notedStart.fs notePath) = false := by decide +kernel
  have hfile : fsFileExists notedStart.fs (lxnorm notedStart.fs notePath) = true := by decide +kernel
  refine ⟨fun hyes => absurd hyes (by rw [hdir]; decide), fun hno => absurd (.inl hfile) hno, fun _ _ _ _ _ => ?_⟩
  exact ⟨by decide, fun hwrite => absurd hwrite (by decide)⟩

/--
A lock file that does not exist cannot be made.
-/
theorem sysOpen_lock : ¬HonoursFlags notedStart.recordAnew copyPath lockFlags := by
  intro h
  have hmissing : ¬PathExists notedStart.recordAnew.fs (lxnorm notedStart.recordAnew.fs copyPath) := by
    unfold PathExists
    decide +kernel
  have hpath : lxnorm notedStart.recordAnew.fs copyPath = copyPath.val := by decide +kernel
  have hnone : fileIndex notedStart.recordAnew.fs (absPath notedStart.recordAnew.fs.cwd.str copyPath) = none := by
    decide +kernel
  have hcan : CanCreate notedStart.recordAnew.fs copyPath := by
    rw [← fsCreateFile_eq_zero_iff hnone]
    decide +kernel
  have hopened := (h.missing hmissing).mpr ⟨by decide, by rw [hpath]; exact hcan⟩
  have hrefused : ¬(sysOpen notedStart.recordAnew copyPath lockFlags).1 < linuxMaxFd := by decide +kernel
  exact hrefused hopened

end Main

end TanjaOS
