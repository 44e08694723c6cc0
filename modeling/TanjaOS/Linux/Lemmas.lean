import TanjaOS.Linux.Impl

/-!
What the file syscalls keep: all but four of them leave the slots alone, and of a descriptor change
only the position, the length and what goes with these.
-/

open Lib

namespace TanjaOS

namespace LxState

variable {st : LxState}

@[simp]
theorem lfd_touch (d : LxData) (off n : Nat) : (st.touch d off n).lfd = st.lfd := by
  unfold touch
  split <;> rfl

@[simp]
theorem slotUsed_touch (d : LxData) (off n : Nat) : (st.touch d off n).slotUsed = st.slotUsed := by
  unfold touch
  split <;> rfl

@[simp]
theorem lfd_fillAbs (a n : Nat) (v : Nat → Byte) : (st.fillAbs a n v).lfd = st.lfd := rfl

@[simp]
theorem lfd_putData (d : LxData) (off : Nat) (bs : Bytes) : (st.putData d off bs).lfd = st.lfd := by
  cases d <;> simp [putData]

@[simp]
theorem slotUsed_putData (d : LxData) (off : Nat) (bs : Bytes)
    : (st.putData d off bs).slotUsed = st.slotUsed := by
  cases d <;> simp [putData, fillAbs]

@[simp]
theorem opens_touch (d : LxData) (off n : Nat) : (st.touch d off n).opens = st.opens := by
  unfold touch
  split <;> rfl

@[simp]
theorem opens_putData (d : LxData) (off : Nat) (bs : Bytes)
    : (st.putData d off bs).opens = st.opens := by
  cases d <;> simp [putData, fillAbs]

@[simp]
theorem lfd_setFd (i : Fin linuxMaxFd) (f : LinuxFd)
    : (st.setFd i f).lfd = fun j => if j = i then f else st.lfd j := rfl

@[simp]
theorem slotUsed_setFd (i : Fin linuxMaxFd) (f : LinuxFd) : (st.setFd i f).slotUsed = st.slotUsed :=
  rfl

@[simp]
theorem lfd_slotRelease (s : Option (Fin lxWriteSlots)) : (slotRelease st s).lfd = st.lfd := by
  cases s <;> rfl

end LxState

theorem lfd_fdFlush (st : LxState) (i : Fin linuxMaxFd)
    : (fdFlush st i).lfd = fun j => if j = i then { st.lfd i with dirty := false } else st.lfd j := by
  unfold fdFlush
  dsimp only
  split <;> simp

theorem slotUsed_fdFlush (st : LxState) (i : Fin linuxMaxFd)
    : (fdFlush st i).slotUsed = st.slotUsed := by
  unfold fdFlush
  dsimp only
  split <;> simp

theorem opens_fdFlush (st : LxState) (i : Fin linuxMaxFd) : (fdFlush st i).opens = st.opens := by
  unfold fdFlush
  dsimp only
  split
  . exact LxState.opens_touch _ _ _
  . rfl

theorem fsFileDataPtr_eq {s : FsState} {path : Bytes} {j : Fin maxF} (hpath : path ≠ [])
    (hnamed : fileIndex s (absPath s.cwd.str path) = some j)
    (hperm : permAllows s (s.fmode j) (s.fowner j) 0o400)
    : fsFileDataPtr s path = (some (s.fdata j, s.fsize j), { s with fsErrno := 0 }) := by
  have hnamed' : fileIndex { s with fsErrno := 0 } (absPath s.cwd.str path) = some j := hnamed
  have hperm' : permAllows { s with fsErrno := 0 } (s.fmode j) (s.fowner j) 0o400 := hperm
  unfold fsFileDataPtr
  dsimp only
  rw [if_neg hpath, hnamed']
  dsimp only
  rw [if_pos hperm']

theorem fdGet_some {st : LxState} {fd : Nat} {i : Fin linuxMaxFd} (h : fdGet st fd = some i)
    : 3 ≤ i.val ∧ i.val = fd ∧ (st.lfd i).used = true := by
  unfold fdGet at h
  split at h
  . next hfd =>
    split at h
    . next hused =>
      cases h
      exact ⟨hfd.1, rfl, hused⟩
    . cases h
  . cases h

theorem fdFree_some {st : LxState} {i : Fin linuxMaxFd} (h : fdFree st = some i)
    : 3 ≤ i.val ∧ (st.lfd i).used = false := by
  have := List.find?_some h
  simpa using this

theorem slotClaim_some {st st' : LxState} {s : Fin lxWriteSlots} (h : slotClaim st = (some s, st'))
    : st.slotUsed s = false
        ∧ st' = { st with slotUsed := fun t => if t = s then true else st.slotUsed t } := by
  unfold slotClaim at h
  split at h
  . cases h
  . next heq =>
    cases h
    have := List.find?_some heq
    exact ⟨by simpa using this, rfl⟩

theorem slotClaim_none {st st' : LxState} (h : slotClaim st = (none, st')) : st' = st := by
  unfold slotClaim at h
  split at h <;> cases h
  rfl

theorem slotClaim_isSome {st : LxState} : (slotClaim st).1.isSome ↔ ∃ s, st.slotUsed s = false := by
  unfold slotClaim
  split
  . next hnone =>
    rw [List.find?_eq_none] at hnone
    simpa using hnone
  . next s hsome =>
    have := List.find?_some hsome
    simp only [Option.isSome_some, true_iff]
    exact ⟨s, by simpa using this⟩

structure LinuxFd.Same (f f' : LinuxFd) : Prop where
  used : f'.used = f.used
  isDir : f'.isDir = f.isDir
  writable : f'.writable = f.writable
  append : f'.append = f.append
  zeroCopy : f'.zeroCopy = f.zeroCopy
  path : f'.path = f.path
  data : f.zeroCopy = false → f'.data = f.data
  cap : f'.cap = f.cap
  slot : f'.slot = f.slot
  opened : f'.opened = f.opened

namespace LinuxFd.Same

theorem refl (f : LinuxFd) : f.Same f :=
  ⟨rfl, rfl, rfl, rfl, rfl, rfl, fun _ => rfl, rfl, rfl, rfl⟩

theorem trans {f g k : LinuxFd} (h : f.Same g) (h' : g.Same k) : f.Same k where
  used := h'.used.trans h.used
  isDir := h'.isDir.trans h.isDir
  writable := h'.writable.trans h.writable
  append := h'.append.trans h.append
  zeroCopy := h'.zeroCopy.trans h.zeroCopy
  path := h'.path.trans h.path
  data hcopy := (h'.data (h.zeroCopy.trans hcopy)).trans (h.data hcopy)
  cap := h'.cap.trans h.cap
  slot := h'.slot.trans h.slot
  opened := h'.opened.trans h.opened

theorem symm {f g : LinuxFd} (h : f.Same g) : g.Same f where
  used := h.used.symm
  isDir := h.isDir.symm
  writable := h.writable.symm
  append := h.append.symm
  zeroCopy := h.zeroCopy.symm
  path := h.path.symm
  data hcopy := (h.data (h.zeroCopy.symm.trans hcopy)).symm
  cap := h.cap.symm
  slot := h.slot.symm
  opened := h.opened.symm

end LinuxFd.Same

structure SameTables (st st' : LxState) : Prop where
  slotUsed : st'.slotUsed = st.slotUsed
  opens : st'.opens = st.opens
  entry : ∀ i, (st.lfd i).Same (st'.lfd i)

namespace SameTables

variable {st st' : LxState}

theorem of_eq (hfd : st'.lfd = st.lfd) (hslot : st'.slotUsed = st.slotUsed)
    (hopens : st'.opens = st.opens)
    : SameTables st st' where
  slotUsed := hslot
  opens := hopens
  entry i := by
    rw [hfd]
    exact .refl _

theorem refl (st : LxState) : SameTables st st :=
  of_eq rfl rfl rfl

theorem trans {st'' : LxState} (h : SameTables st st') (h' : SameTables st' st'')
    : SameTables st st'' where
  slotUsed := h'.slotUsed.trans h.slotUsed
  opens := h'.opens.trans h.opens
  entry i := (h.entry i).trans (h'.entry i)

theorem setFd {i : Fin linuxMaxFd} {f : LinuxFd} (h : SameTables st st') (hf : (st.lfd i).Same f)
    : SameTables st (st'.setFd i f) where
  slotUsed := h.slotUsed
  opens := h.opens
  entry j := by
    rw [LxState.lfd_setFd]
    dsimp only
    split
    . next hj =>
      rw [hj]
      exact hf
    . exact h.entry j

theorem fdFlush (i : Fin linuxMaxFd) : SameTables st (fdFlush st i) where
  slotUsed := slotUsed_fdFlush st i
  opens := opens_fdFlush st i
  entry j := by
    rw [lfd_fdFlush]
    dsimp only
    split
    . next hj =>
      rw [hj]
      exact ⟨rfl, rfl, rfl, rfl, rfl, rfl, fun _ => rfl, rfl, rfl, rfl⟩
    . exact .refl _

theorem touch (d : LxData) (off n : Nat) : SameTables st (st.touch d off n) :=
  of_eq (by simp) (by simp) (by simp)

theorem readData (i : Fin linuxMaxFd) (count : Nat)
    : SameTables st (sysRead.readData st i count).2 := by
  unfold sysRead.readData
  dsimp only
  split
  . exact refl st
  . apply setFd (touch _ _ _)
    exact ⟨rfl, rfl, rfl, rfl, rfl, rfl, fun _ => rfl, rfl, rfl, rfl⟩

theorem sysRead (fd count : Nat) (line : Bytes) : SameTables st (sysRead st fd count line).2 := by
  unfold TanjaOS.sysRead
  dsimp only
  split
  . exact refl st
  . split
    . exact refl st
    . next i _ =>
      split
      . exact refl st
      . split
        . next hcopy =>
          have hnew : ∀ {data len}, (st.lfd i).Same { st.lfd i with data := data, len := len } := by
            intro data len
            exact ⟨rfl, rfl, rfl, rfl, rfl, rfl, fun hnot => absurd hcopy (by simp [hnot]), rfl, rfl,
              rfl⟩
          split
          . refine trans ?_ (readData _ _)
            exact setFd (of_eq rfl rfl rfl) hnew
          . split
            . exact of_eq rfl rfl rfl
            . exact setFd (of_eq rfl rfl rfl) hnew
        . exact readData i count

theorem fillGap {i : Fin linuxMaxFd} (h : TanjaOS.fillGap st i = some st') : SameTables st st' := by
  unfold TanjaOS.fillGap at h
  dsimp only at h
  split at h
  . cases h
    exact refl st
  . split at h
    . contradiction
    . cases h
      apply setFd
      . exact of_eq (by simp) (by simp) (by simp)
      . exact ⟨rfl, rfl, rfl, rfl, rfl, rfl, fun _ => rfl, rfl, rfl, rfl⟩

theorem writeData (i : Fin linuxMaxFd) (buf : Bytes) : SameTables st (writeData st i buf).2 := by
  unfold TanjaOS.writeData
  apply setFd
  . exact of_eq (by simp) (by simp) (by simp)
  . exact ⟨rfl, rfl, rfl, rfl, rfl, rfl, fun _ => rfl, rfl, rfl, rfl⟩

theorem seekAppend (i : Fin linuxMaxFd) : SameTables st (seekAppend st i) := by
  unfold TanjaOS.seekAppend
  split
  . apply setFd (refl st)
    exact ⟨rfl, rfl, rfl, rfl, rfl, rfl, fun _ => rfl, rfl, rfl, rfl⟩
  . exact refl st

theorem sysWrite (fd : Nat) (buf : Bytes) : SameTables st (sysWrite st fd buf).2 := by
  unfold TanjaOS.sysWrite
  split
  . exact refl st
  . split
    . exact refl st
    . next i _ =>
      split
      . exact refl st
      . split
        . exact refl st
        . dsimp only
          split
          . exact seekAppend i
          . next hgap => exact ((seekAppend i).trans (fillGap hgap)).trans (writeData i buf)

theorem sysWritev (fd : Nat) (bufs : List Bytes) (total : Nat)
    : SameTables st (sysWritev st fd bufs total).2 := by
  induction bufs generalizing st total with
  | nil => exact refl st
  | cons buf bufs ih =>
    unfold TanjaOS.sysWritev
    dsimp only
    split
    . exact sysWrite fd buf
    . split
      . exact sysWrite fd buf
      . exact (sysWrite fd buf).trans (ih _)

theorem sysLseek (fd : Nat) (off : Int32) (whence : Nat)
    : SameTables st (sysLseek st fd off whence).2 := by
  unfold TanjaOS.sysLseek
  split
  . exact refl st
  . split
    . exact refl st
    . apply setFd (refl st)
      exact ⟨rfl, rfl, rfl, rfl, rfl, rfl, fun _ => rfl, rfl, rfl, rfl⟩

theorem sysFtruncate (fd len : Nat) : SameTables st (sysFtruncate st fd len).2 := by
  unfold TanjaOS.sysFtruncate
  split
  . exact refl st
  . dsimp only
    split
    . exact refl st
    . split
      . exact refl st
      . apply setFd
        . split
          . exact of_eq (by simp) (by simp) (by simp)
          . exact refl st
        . exact ⟨rfl, rfl, rfl, rfl, rfl, rfl, fun _ => rfl, rfl, rfl, rfl⟩

theorem sysPread (fd count off : Nat) : SameTables st (sysPread st fd count off).2 := by
  unfold TanjaOS.sysPread
  split
  . exact refl st
  . dsimp only
    split
    . exact refl st
    . exact touch _ _ _

theorem fillAbs (a n : Nat) (v : Nat → Byte) : SameTables st (st.fillAbs a n v) :=
  of_eq rfl rfl rfl

theorem mmapPlace {fixed : Bool} {addr len a : Nat}
    (h : TanjaOS.mmapPlace st fixed addr len = .ok (a, st'))
    : SameTables st st' := by
  unfold TanjaOS.mmapPlace at h
  split at h
  . split at h
    . contradiction
    . cases h
      exact refl st
  . split at h
    . contradiction
    . split at h
      . contradiction
      . cases h
        exact of_eq rfl rfl rfl

theorem sysMmap (fixed : Bool) (addr len : Nat) (file : Option Nat) (off : Nat)
    : SameTables st (sysMmap st fixed addr len file off).2 := by
  unfold TanjaOS.sysMmap
  split
  . exact refl st
  . dsimp only
    split
    . exact refl st
    . next a st' hplace =>
      have hst := (mmapPlace hplace).trans
        (fillAbs a ((len + 4095) % 2 ^ 32 / 4096 * 4096) (fun _ => 0))
      split
      . exact hst
      . split
        . exact hst
        . split
          . exact hst
          . dsimp only
            exact (hst.trans (touch _ _ _)).trans (fillAbs _ _ _)

theorem lxStep {c : LxCall} (hopen : ∀ path flags, c ≠ .open path flags)
    (hclose : ∀ fd, c ≠ .close fd) (hdup : ∀ fd, c ≠ .dup fd)
    (hdup2 : ∀ oldfd newfd, c ≠ .dup2 oldfd newfd)
    : SameTables st (lxStep st c).2 := by
  cases c with
  | «open» path flags => exact absurd rfl (hopen path flags)
  | close fd => exact absurd rfl (hclose fd)
  | dup fd => exact absurd rfl (hdup fd)
  | dup2 oldfd newfd => exact absurd rfl (hdup2 oldfd newfd)
  | read fd count line => exact sysRead fd count line
  | write fd buf => exact sysWrite fd buf
  | writev fd bufs => exact sysWritev fd _ 0
  | lseek fd off whence => exact sysLseek fd off whence
  | ftruncate fd len => exact sysFtruncate fd len.toNat
  | pread fd count off => exact sysPread fd count off
  | mmap fixed addr len file off => exact sysMmap fixed addr.toNat len.toNat file off
  | chdir path => exact of_eq rfl rfl rfl
  | fs op fuel =>
    unfold TanjaOS.lxStep
    dsimp only
    split
    . exact refl st
    . exact of_eq rfl rfl rfl

end SameTables

end TanjaOS
