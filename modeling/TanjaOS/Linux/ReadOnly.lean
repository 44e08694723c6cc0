import TanjaOS.Linux.Opened

/-!
What the calls on a read-only descriptor and its duplicates do to the files.
-/

open Lib

namespace TanjaOS

namespace FsState

/--
The byte at address `a` of the pool is one of a file.
-/
def Stored (s : FsState) (a : Nat) : Prop :=
  ∃ i p, s.fused i ≠ 0 ∧ s.fdata i = some p ∧ p ≤ a ∧ a < p + s.fsize i

structure SameStore (s s' : FsState) : Prop where
  fname : s'.fname = s.fname
  fused : s'.fused = s.fused
  fdata : s'.fdata = s.fdata
  fsize : s'.fsize = s.fsize
  fowner : s'.fowner = s.fowner
  fmode : s'.fmode = s.fmode
  stored : ∀ a, s.Stored a → s'.fpool a = s.fpool a

namespace SameStore

variable {s s' s'' : FsState}

theorem refl (s : FsState) : SameStore s s :=
  ⟨rfl, rfl, rfl, rfl, rfl, rfl, fun _ _ => rfl⟩

theorem trans (h : SameStore s s') (h' : SameStore s' s'') : SameStore s s'' where
  fname := h'.fname.trans h.fname
  fused := h'.fused.trans h.fused
  fdata := h'.fdata.trans h.fdata
  fsize := h'.fsize.trans h.fsize
  fowner := h'.fowner.trans h.fowner
  fmode := h'.fmode.trans h.fmode
  stored a ha := by
    have ha' : s'.Stored a := by
      unfold Stored
      rw [h.fused, h.fdata, h.fsize]
      exact ha
    rw [h'.stored a ha', h.stored a ha]

theorem errno (s : FsState) (e : Nat) : SameStore s { s with fsErrno := e } :=
  ⟨rfl, rfl, rfl, rfl, rfl, rfl, fun _ _ => rfl⟩

theorem pool {m : Mem} (h : ∀ a, s.Stored a → m a = s.fpool a)
    : SameStore s { s with fpool := m } :=
  ⟨rfl, rfl, rfl, rfl, rfl, rfl, h⟩

theorem fileBytes (h : SameStore s s') {i : Fin maxF} (hused : s.fused i ≠ 0)
    : s'.fileBytes i = s.fileBytes i := by
  unfold FsState.fileBytes
  rw [h.fdata, h.fsize]
  split
  . rfl
  . next p hp =>
    apply Mem.readBytes_congr
    intro a hle hlt
    exact h.stored a ⟨i, p, hused, hp, hle, hlt⟩

theorem isFile (h : SameStore s s') (i : Fin maxF) (x : Bytes) : s'.IsFile i x ↔ s.IsFile i x := by
  unfold FsState.IsFile
  rw [h.fused, h.fname]

theorem files (h : SameStore s s') : s'.files = s.files := by
  funext x
  apply files_congr (fun i => h.isFile i x)
  intro i hi
  unfold FsState.view
  rw [h.fileBytes hi.1, h.fsize, h.fowner, h.fmode]

end SameStore

end FsState

open FsState (SameStore)

/--
`ftruncate` to `len` bytes clears address `a` of the pool.
-/
def Clears (st : LxState) (f : LinuxFd) (len a : Nat) : Prop :=
  match f.data with
  | .null => (st.poolBase + a + (2 ^ 32 - len)) % 2 ^ 32 < f.len - len
  | .pool p => p + len ≤ a ∧ a < p + f.len
  | .slot _ | .dirList => False

/--
Address `a` of the pool is among the `len` bytes from `base` on.
-/
def Covers (st : LxState) (base len a : Nat) : Prop :=
  (st.poolBase + a + (2 ^ 32 - base)) % 2 ^ 32 < len

namespace LxCall

/--
The call goes through a descriptor that stems from call `n` of `sys_open`.
-/
def On (n : Nat) (st : LxState) : LxCall → Prop
  | .read fd _ _ | .write fd _ | .writev fd _ | .lseek fd _ _ | .ftruncate fd _ | .pread fd _ _
  | .dup fd | .close fd => ∀ i, fdGet st fd = some i → (st.lfd i).opened = n
  | .mmap _ _ _ file _ => ∃ fd, file = some fd ∧ ∀ i, fdGet st fd = some i → (st.lfd i).opened = n
  | .open _ _ | .dup2 _ _ | .chdir _ | .fs _ _ => False

/--
The call clears no bytes of a file: `ftruncate` does not make the descriptor shorter, unless what it
cuts off is zero, and `mmap` does not wrap around onto the pool.
-/
def ClearsNoFile (st : LxState) : LxCall → Prop
  | .ftruncate fd len =>
    ∀ i a, fdGet st fd = some i → (st.lfd i).isDir = false → len.toNat ≤ maxFileSize →
      len.toNat < (st.lfd i).len → st.fs.Stored a → Clears st (st.lfd i) len.toNat a →
      st.fs.fpool a = 0
  | .mmap fixed addr len _ _ =>
    ∀ a base st', len.toNat ≠ 0 → st.fs.Stored a →
      mmapPlace st fixed addr.toNat ((len.toNat + 4095) % 2 ^ 32 / 4096 * 4096) = .ok (base, st') →
      ¬Covers st base ((len.toNat + 4095) % 2 ^ 32 / 4096 * 4096) a
  | _ => True

end LxCall

section Steps

variable {st : LxState} {n : Nat}

theorem fsFileDataPtr_same (s : FsState) (path : Bytes) : SameStore s (fsFileDataPtr s path).2 := by
  unfold fsFileDataPtr
  dsimp only
  split
  . exact .errno s 0
  . split
    . exact .errno s 0
    . split
      . exact .errno s 0
      . exact .errno s 13

theorem fs_touch (d : LxData) (off k : Nat) : (st.touch d off k).fs = st.fs := by
  unfold LxState.touch
  split <;> rfl

theorem poolBase_touch (d : LxData) (off k : Nat) : (st.touch d off k).poolBase = st.poolBase := by
  unfold LxState.touch
  split <;> rfl

theorem fillAbs_same {base len : Nat} {v : Nat → Byte}
    (h : ∀ a, st.fs.Stored a → Covers st base len a →
      v ((st.poolBase + a + (2 ^ 32 - base)) % 2 ^ 32) = st.fs.fpool a)
    : SameStore st.fs (st.fillAbs base len v).fs := by
  apply SameStore.pool
  intro a ha
  show (if (st.poolBase + a + (2 ^ 32 - base)) % 2 ^ 32 < len
    then v ((st.poolBase + a + (2 ^ 32 - base)) % 2 ^ 32) else st.fs.fpool a) = st.fs.fpool a
  split
  . next hin => exact h a ha hin
  . rfl

theorem putData_zeros_same {f : LinuxFd} {len : Nat}
    (h : ∀ a, st.fs.Stored a → Clears st f len a → st.fs.fpool a = 0)
    : SameStore st.fs (st.putData f.data len (List.replicate (f.len - len) 0)).fs := by
  unfold Clears at h
  unfold LxState.putData
  cases hd : f.data with
  | null =>
    rw [hd] at h
    have hzero : SameStore st.fs (st.fillAbs len (f.len - len) (fun j =>
        (List.replicate (f.len - len) (0 : Byte)).getD j 0)).fs := by
      apply fillAbs_same
      intro a ha hin
      rw [h a ha hin, List.getD_replicate _ hin]
    rw [List.length_replicate]
    exact hzero
  | pool p =>
    rw [hd] at h
    apply SameStore.pool
    intro a ha
    dsimp only [LxState.touch]
    by_cases hlow : a < p + len
    . rw [Mem.writeBytes_of_lt _ hlow]
    . by_cases hhigh : p + f.len ≤ a
      . rw [Mem.writeBytes_of_ge]
        rw [List.length_replicate]
        omega
      . have hzero := h a ha ⟨by omega, by omega⟩
        have hin : a - (p + len) < (List.replicate (f.len - len) (0 : Byte)).length := by
          rw [List.length_replicate]
          omega
        have hmem : st.fs.fpool.writeBytes (p + len) (List.replicate (f.len - len) 0)
            (p + len + (a - (p + len))) = _ := Mem.writeBytes_of_mem _ hin
        have haddr : p + len + (a - (p + len)) = a := by omega
        rw [haddr] at hmem
        rw [hzero, hmem]
        simp
  | slot s => exact .refl _
  | dirList => exact .refl _

/--
All descriptors from call `n` of `sys_open` are read-only.
-/
def ReadOnlyFrom (n : Nat) (st : LxState) : Prop :=
  ∀ i, (st.lfd i).used → (st.lfd i).opened = n → (st.lfd i).writable = false

theorem fdFlush_same {i : Fin linuxMaxFd} (h : (st.lfd i).writable = false)
    : (fdFlush st i).fs = st.fs := by
  unfold fdFlush
  dsimp only
  rw [if_neg (by simp [h])]
  rfl

theorem sysClose_same {fd : Nat} (hro : ReadOnlyFrom n st)
    (hon : ∀ i, fdGet st fd = some i → (st.lfd i).opened = n)
    : (sysClose st fd).2.fs = st.fs := by
  unfold sysClose
  split
  . rfl
  . next i hget =>
    have hflush := fdFlush_same (hro i (fdGet_some hget).2.2 (hon i hget))
    dsimp only
    split
    . exact hflush
    . cases ((fdFlush st i).lfd i).slot <;> exact hflush

theorem sysDup_same (fd : Nat) : (sysDup st fd).2.fs = st.fs := by
  unfold sysDup
  split
  . rfl
  . split <;> rfl

theorem readData_same (i : Fin linuxMaxFd) (count : Nat)
    : (sysRead.readData st i count).2.fs = st.fs := by
  unfold sysRead.readData
  dsimp only
  split
  . rfl
  . exact fs_touch _ _ _

theorem sysRead_same (fd count : Nat) (line : Bytes)
    : SameStore st.fs (sysRead st fd count line).2.fs := by
  unfold sysRead
  dsimp only
  split
  . exact .refl _
  . split
    . exact .refl _
    . next i _ =>
      split
      . exact .refl _
      . split
        . have hptr := fsFileDataPtr_same st.fs (st.lfd i).path
          split
          . rw [readData_same]
            exact hptr
          . split
            . exact hptr
            . exact hptr
        . rw [readData_same]
          exact .refl _

theorem sysWrite_same {fd : Nat} {buf : Bytes} (hro : ReadOnlyFrom n st)
    (hon : ∀ i, fdGet st fd = some i → (st.lfd i).opened = n)
    : (sysWrite st fd buf).2 = st := by
  unfold sysWrite
  split
  . rfl
  . split
    . rfl
    . next i hget =>
      have := hro i (fdGet_some hget).2.2 (hon i hget)
      rw [if_pos (by simp [this])]

theorem sysWritev_same {fd : Nat} {bufs : List Bytes} {total : Nat} (hro : ReadOnlyFrom n st)
    (hon : ∀ i, fdGet st fd = some i → (st.lfd i).opened = n)
    : (sysWritev st fd bufs total).2 = st := by
  induction bufs generalizing total with
  | nil => rfl
  | cons buf bufs ih =>
    unfold sysWritev
    dsimp only
    rw [sysWrite_same hro hon]
    split
    . rfl
    . split
      . rfl
      . exact ih

theorem sysLseek_same (fd : Nat) (off : Int32) (whence : Nat)
    : (sysLseek st fd off whence).2.fs = st.fs := by
  unfold sysLseek
  split
  . rfl
  . split <;> rfl

theorem sysFtruncate_same {fd len : Nat}
    (hclear : ∀ i a, fdGet st fd = some i → (st.lfd i).isDir = false → len ≤ maxFileSize →
      len < (st.lfd i).len → st.fs.Stored a → Clears st (st.lfd i) len a → st.fs.fpool a = 0)
    : SameStore st.fs (sysFtruncate st fd len).2.fs := by
  unfold sysFtruncate
  split
  . exact .refl _
  . next i hget =>
    dsimp only
    split
    . exact .refl _
    . next hdir =>
      split
      . exact .refl _
      . next hmax =>
        split
        . next hlt =>
          apply putData_zeros_same
          intro a
          exact hclear i a hget (by simpa using hdir) (by omega) hlt
        . exact .refl _

theorem sysPread_same (fd count off : Nat) : (sysPread st fd count off).2.fs = st.fs := by
  unfold sysPread
  split
  . rfl
  . dsimp only
    split
    . rfl
    . exact fs_touch _ _ _

theorem mmapPlace_fs {st' : LxState} {fixed : Bool} {addr len base : Nat}
    (h : mmapPlace st fixed addr len = .ok (base, st'))
    : st'.fs = st.fs ∧ st'.poolBase = st.poolBase := by
  unfold mmapPlace at h
  split at h
  . split at h
    . contradiction
    . cases h
      exact ⟨rfl, rfl⟩
  . split at h
    . contradiction
    . split at h
      . contradiction
      . cases h
        exact ⟨rfl, rfl⟩

theorem sysMmap_same {fixed : Bool} {addr len : Nat} {file : Option Nat} {off : Nat}
    (hclear : ∀ a base st', len ≠ 0 → st.fs.Stored a →
      mmapPlace st fixed addr ((len + 4095) % 2 ^ 32 / 4096 * 4096) = .ok (base, st') →
      ¬Covers st base ((len + 4095) % 2 ^ 32 / 4096 * 4096) a)
    : SameStore st.fs (sysMmap st fixed addr len file off).2.fs := by
  unfold sysMmap
  split
  . exact .refl _
  . next hlen =>
    dsimp only
    split
    . exact .refl _
    . next base st' hplace =>
      obtain ⟨hfs, hbase⟩ := mmapPlace_fs hplace
      have hcover : ∀ a, st.fs.Stored a →
          ¬Covers st base ((len + 4095) % 2 ^ 32 / 4096 * 4096) a := by
        intro a ha
        exact hclear a base st' hlen ha hplace
      generalize (len + 4095) % 2 ^ 32 / 4096 * 4096 = pages at *
      have hzero : SameStore st.fs (st'.fillAbs base pages (fun _ => 0)).fs := by
        rw [← hfs]
        apply fillAbs_same
        intro a ha hin
        unfold Covers at hin
        rw [hbase] at hin
        rw [hfs] at ha
        exact absurd hin (hcover a ha)
      split
      . exact hzero
      . split
        . exact hzero
        . split
          . exact hzero
          . dsimp only
            apply hzero.trans
            refine SameStore.trans ?_ (fillAbs_same ?_)
            . rw [fs_touch]
              exact .refl _
            . intro a ha hcov
              rw [fs_touch] at ha
              unfold Covers at hcov
              rw [poolBase_touch] at hcov
              have ha' : st.fs.Stored a := by
                rw [← hfs]
                exact ha
              refine absurd ?_ (hcover a ha')
              unfold Covers
              rw [← hbase]
              exact hcov.trans_le (Nat.min_le_right _ _)

theorem lxStep_same {c : LxCall} (hro : ReadOnlyFrom n st) (hon : c.On n st)
    (hclear : c.ClearsNoFile st)
    : SameStore st.fs (lxStep st c).2.fs := by
  have hrefl : ∀ {s : FsState}, s = st.fs → SameStore st.fs s := by
    rintro s rfl
    exact .refl _
  cases c with
  | read fd count line => exact sysRead_same fd count line
  | write fd buf => exact hrefl (congrArg LxState.fs (sysWrite_same hro hon))
  | writev fd bufs => exact hrefl (congrArg LxState.fs (sysWritev_same hro hon))
  | lseek fd off whence => exact hrefl (sysLseek_same fd off whence)
  | ftruncate fd len => exact sysFtruncate_same hclear
  | pread fd count off => exact hrefl (sysPread_same fd count off)
  | mmap fixed addr len file off => exact sysMmap_same hclear
  | dup fd => exact hrefl (sysDup_same fd)
  | close fd => exact hrefl (sysClose_same hro hon)
  | «open» | dup2 | chdir | fs => exact absurd hon id

theorem ReadOnlyFrom.same {st' : LxState} (h : ReadOnlyFrom n st) (hst : SameTables st st')
    : ReadOnlyFrom n st' := by
  intro i hused hopened
  have hi := hst.entry i
  rw [hi.used] at hused
  rw [hi.opened] at hopened
  rw [hi.writable]
  exact h i hused hopened

theorem ReadOnlyFrom.setFd {i : Fin linuxMaxFd} {f : LinuxFd} (h : ReadOnlyFrom n st)
    (hf : f.used → f.opened = n → f.writable = false)
    : ReadOnlyFrom n (st.setFd i f) := by
  intro j
  rw [LxState.lfd_setFd]
  dsimp only
  split
  . exact hf
  . exact h j

theorem ReadOnlyFrom.lxStep {c : LxCall} (h : ReadOnlyFrom n st) (hon : c.On n st)
    : ReadOnlyFrom n (lxStep st c).2 := by
  cases c with
  | close fd =>
    unfold TanjaOS.lxStep sysClose
    dsimp only [TanjaOS.lxStep.plain]
    split
    . exact h
    . next i _ =>
      have hst := h.same (.fdFlush i)
      split
      . apply hst.setFd
        simp
      . refine ReadOnlyFrom.setFd ?_ (by simp)
        cases ((fdFlush st i).lfd i).slot <;> exact hst
  | dup fd =>
    unfold TanjaOS.lxStep sysDup
    dsimp only [TanjaOS.lxStep.plain]
    split
    . exact h
    . next i _ =>
      split
      . exact h
      . exact h.setFd (h i)
  | «open» | dup2 => exact absurd hon id
  | _ => exact h.same (SameTables.lxStep (by simp) (by simp) (by simp) (by simp))

theorem ReadOnlyFrom.sysOpen {path : Bytes} {flags : UInt32} (h : Stamped st)
    (hflags : flags &&& (oWronly ||| oRdwr) = 0)
    : ReadOnlyFrom (st.opens + 1) (sysOpen st path flags).2 := by
  intro j _ hopened
  have hold : (st.lfd j).opened ≠ st.opens + 1 := by
    have := h j
    omega
  obtain heq | ⟨_, i, _, hother, _, hwritable⟩ := sysOpen_entries st path flags
  . rw [heq] at hopened
    contradiction
  . by_cases hj : j = i
    . rw [hj, hwritable]
      simpa using hflags
    . rw [hother j hj] at hopened
      contradiction

end Steps

theorem readOnly_keeps_files (st₀ st st' : LxState) (path : CStr) (flags : UInt32)
    (hreach : LxRun (fun _ _ => True) st₀.boot st) (hflags : flags &&& (oWronly ||| oRdwr) = 0)
    (hrun : LxRun (fun st' c => c.On (st.opens + 1) st' ∧ c.ClearsNoFile st')
      (sysOpen st path flags).2 st')
    : st'.fs.files = (sysOpen st path flags).2.fs.files := by
  have hinv : ReadOnlyFrom (st.opens + 1) st' ∧ SameStore (sysOpen st path flags).2.fs st'.fs := by
    refine Run.keeps (I := fun st' =>
      ReadOnlyFrom (st.opens + 1) st' ∧ SameStore (sysOpen st path flags).2.fs st'.fs) ?_ ?_ hrun
    . rintro st' c _ ⟨hon, hclear⟩ ⟨hro, hsame⟩ rfl
      exact ⟨hro.lxStep hon, hsame.trans (lxStep_same hro hon hclear)⟩
    . exact ⟨ReadOnlyFrom.sysOpen (Stamped.run hreach) hflags, .refl _⟩
  exact hinv.2.files

section Example

/-!
`/a` holds one byte and is opened for reading. `ftruncate` to 0 clears the byte in the pool.
-/

def notedStart : LxState :=
  (LxState.fresh noted).boot

def noteReadable : LxState :=
  (sysOpen notedStart notePath 0).2

def noteRead : LxState :=
  (lxStep noteReadable (.read 3 1 [])).2

def noteCleared : LxState :=
  (lxStep noteReadable (.ftruncate 3 0)).2

theorem note_on (i : Fin linuxMaxFd)
    : fdGet noteReadable 3 = some i → (noteReadable.lfd i).opened = notedStart.opens + 1 := by
  revert i
  decide +kernel

end Example

theorem readOnly_keeps_files_note
    : (sysOpen notedStart notePath 0).1 = 3 ∧ noteRead.fs.files = noteReadable.fs.files := by
  refine ⟨by decide +kernel, ?_⟩
  apply readOnly_keeps_files (LxState.fresh noted) notedStart noteRead notePath 0 .refl (by decide)
  exact Run.call .refl (c := LxCall.read 3 1 []) rfl ⟨note_on, trivial⟩

theorem readOnly_keeps_files_cleared
    : ¬∀ (st₀ st st' : LxState) (path : CStr) (flags : UInt32),
        LxRun (fun _ _ => True) st₀.boot st → flags &&& (oWronly ||| oRdwr) = 0 →
        LxRun (fun st' c => c.On (st.opens + 1) st') (sysOpen st path flags).2 st' →
        st'.fs.files = (sysOpen st path flags).2.fs.files := by
  intro h
  have hrun : LxRun (fun st' c => c.On (notedStart.opens + 1) st') noteReadable noteCleared :=
    Run.call .refl (c := LxCall.ftruncate 3 0) rfl note_on
  have hfiles := h (LxState.fresh noted) notedStart noteCleared notePath 0 .refl (by decide) hrun
  have hnote := congrFun hfiles notePath.val
  revert hnote
  decide +kernel

end TanjaOS
