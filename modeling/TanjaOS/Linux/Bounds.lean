import TanjaOS.Linux.Slots

/-!
Staging: what is read and written through a descriptor for writing stays inside of its slot.
-/

open Lib

namespace TanjaOS

structure LinuxFd.InSlot (f : LinuxFd) : Prop where
  staged : f.writable → f.isDir = false →
    f.zeroCopy = false ∧ f.cap = lxWriteSlotBytes ∧ f.len ≤ f.cap
      ∧ ∃ s, f.slot = some s ∧ f.data = .slot s
  unstaged : ∀ s, f.data = .slot s → f.writable ∧ f.isDir = false

/--
No access has left its slot so far, and no descriptor invites one that does.
-/
structure StagingInv (st : LxState) : Prop where
  spilled : st.spilled = false
  inSlot : ∀ i, (st.lfd i).used → (st.lfd i).InSlot

namespace LinuxFd.InSlot

variable {f : LinuxFd}

theorem length_le (h : f.InSlot) {s : Fin lxWriteSlots} (hdata : f.data = .slot s)
    : f.len ≤ lxWriteSlotBytes := by
  obtain ⟨hwritable, hdir⟩ := h.unstaged s hdata
  obtain ⟨_, hcap, hlen, _⟩ := h.staged hwritable hdir
  omega

theorem congr {f' : LinuxFd} (h : f.InSlot) (hwritable : f'.writable = f.writable)
    (hdir : f'.isDir = f.isDir) (hcopy : f'.zeroCopy = f.zeroCopy) (hcap : f'.cap = f.cap)
    (hslot : f'.slot = f.slot) (hdata : f'.data = f.data) (hlen : f'.len ≤ f.len)
    : f'.InSlot := by
  constructor
  . rw [hwritable, hdir, hcopy, hcap, hslot, hdata]
    intro hw hd
    obtain ⟨hz, hc, hl, hs⟩ := h.staged hw hd
    exact ⟨hz, hc, hlen.trans hl, hs⟩
  . rw [hdata, hwritable, hdir]
    exact h.unstaged

theorem resize (h : f.InSlot) (f' : LinuxFd) (hsame : f.Same f')
    (hlen : f.writable → f.isDir = false → f'.len ≤ lxWriteSlotBytes)
    (hdata : f.zeroCopy → ∀ s, f'.data ≠ .slot s)
    : f'.InSlot := by
  constructor
  . intro hwritable hdir
    rw [hsame.writable] at hwritable
    rw [hsame.isDir] at hdir
    obtain ⟨hcopy, hcap, _, s, hslot, hd⟩ := h.staged hwritable hdir
    refine ⟨hsame.zeroCopy.trans hcopy, hsame.cap.trans hcap, ?_, s, hsame.slot.trans hslot, ?_⟩
    . rw [hsame.cap, hcap]
      exact hlen hwritable hdir
    . exact (hsame.data hcopy).trans hd
  . intro s hs
    rw [hsame.writable, hsame.isDir]
    cases hcopy : f.zeroCopy with
    | true => exact absurd hs (hdata hcopy s)
    | false =>
      apply h.unstaged s
      rw [← hsame.data hcopy]
      exact hs

end LinuxFd.InSlot

section Access

variable {st : LxState}

theorem spilled_touch {d : LxData} {off n : Nat}
    (h : ∀ s, d = .slot s → n = 0 ∨ off + n ≤ lxWriteSlotBytes)
    : (st.touch d off n).spilled = st.spilled := by
  unfold LxState.touch
  split
  . next s =>
    have hin : ¬(0 < n ∧ lxWriteSlotBytes < off + n) := by
      have := h s rfl
      omega
    simp only [hin, decide_false, Bool.or_false]
  . rfl

theorem spilled_putData {d : LxData} {off : Nat} {bs : Bytes}
    (h : ∀ s, d = .slot s → bs.length = 0 ∨ off + bs.length ≤ lxWriteSlotBytes)
    : (st.putData d off bs).spilled = st.spilled := by
  have htouch : (st.touch d off bs.length).spilled = st.spilled := spilled_touch h
  rw [← htouch]
  cases d <;> rfl

end Access

namespace StagingInv

variable {st st' : LxState} {i : Fin linuxMaxFd}

theorem of_eq (h : StagingInv st) (hfd : st'.lfd = st.lfd) (hspilled : st'.spilled = st.spilled)
    : StagingInv st' where
  spilled := hspilled.trans h.spilled
  inSlot := by
    rw [hfd]
    exact h.inSlot

theorem withFs (h : StagingInv st) (s : FsState) : StagingInv { st with fs := s } :=
  h.of_eq rfl rfl

theorem setFd {f : LinuxFd} (h : StagingInv st) (hf : f.used → f.InSlot)
    : StagingInv (st.setFd i f) where
  spilled := h.spilled
  inSlot j hused := by
    rw [LxState.lfd_setFd] at hused ⊢
    dsimp only at hused ⊢
    split
    . next hj =>
      rw [if_pos hj] at hused
      exact hf hused
    . next hj =>
      rw [if_neg hj] at hused
      exact h.inSlot j hused

theorem touch {d : LxData} {off n : Nat} (h : StagingInv st)
    (hin : ∀ s, d = .slot s → n = 0 ∨ off + n ≤ lxWriteSlotBytes)
    : StagingInv (st.touch d off n) :=
  h.of_eq (by simp) (spilled_touch hin)

theorem putData {d : LxData} {off : Nat} {bs : Bytes} (h : StagingInv st)
    (hin : ∀ s, d = .slot s → bs.length = 0 ∨ off + bs.length ≤ lxWriteSlotBytes)
    : StagingInv (st.putData d off bs) :=
  h.of_eq (by simp) (spilled_putData hin)

theorem slotRelease {s : Option (Fin lxWriteSlots)} (h : StagingInv st)
    : StagingInv (slotRelease st s) :=
  h.of_eq (by simp) (by cases s <;> rfl)

theorem inLength (h : StagingInv st) (off n : Nat) (hused : (st.lfd i).used)
    (hn : n = 0 ∨ off + n ≤ (st.lfd i).len)
    : ∀ s, (st.lfd i).data = .slot s → n = 0 ∨ off + n ≤ lxWriteSlotBytes := by
  intro s hs
  have := (h.inSlot i hused).length_le hs
  omega

theorem fdFlush (h : StagingInv st) (hused : (st.lfd i).used) : StagingInv (fdFlush st i) := by
  unfold TanjaOS.fdFlush
  dsimp only
  have hsame : (st.lfd i).Same { st.lfd i with dirty := false } :=
    ⟨rfl, rfl, rfl, rfl, rfl, rfl, fun _ => rfl, rfl, rfl, rfl⟩
  apply setFd
  . split
    . have hin := h.touch (h.inLength 0 (st.lfd i).len hused (.inr (by omega)))
      exact hin.of_eq rfl rfl
    . exact h
  . intro _
    exact (h.inSlot i hused).congr rfl rfl rfl rfl rfl rfl (Nat.le_refl _)

section Open

variable {path : Bytes} {flags : UInt32}

theorem openFile {f : LinuxFd} (h : StagingInv st) (hf : f.InSlot)
    : StagingInv (openFile (st.setFd i f) i path flags) := by
  unfold TanjaOS.openFile
  dsimp only
  apply setFd (h.setFd (fun _ => hf))
  intro _
  simp only [LxState.lfd_setFd, ↓reduceIte]
  split <;> split
  all_goals exact hf.congr rfl rfl rfl rfl rfl rfl (by simp)

theorem openFailed (h : StagingInv st) : StagingInv (openFailed st i) := by
  unfold TanjaOS.openFailed
  apply slotRelease
  apply h.setFd
  simp

theorem openDir (h : StagingInv st) : StagingInv (openDir st i path).2 := by
  unfold TanjaOS.openDir
  dsimp only
  split
  . apply setFd
    . exact h.of_eq rfl rfl
    . simp
  . apply setFd
    . exact h.of_eq rfl rfl
    intro _
    refine ⟨fun _ hdir => ?_, fun s hs => ?_⟩
    . contradiction
    . contradiction

theorem openNew (h : StagingInv st) (hi : (st.lfd i).InSlot)
    : StagingInv (openNew st i path flags).2 := by
  unfold TanjaOS.openNew
  split
  . exact h.openFailed
  . split
    . exact h.openFailed
    . dsimp only
      split
      . exact (h.withFs _).openFailed
      . apply setFd
        . exact h.withFs _
        intro _
        exact hi.congr rfl rfl rfl rfl rfl rfl (Nat.zero_le _)

theorem openRead (h : StagingInv st) (hwritable : (st.lfd i).writable = false)
    : StagingInv (openRead st i path flags).2 := by
  have hf : ∀ d len, (∀ s, d ≠ LxData.slot s) →
      ({ st.lfd i with data := d, len := len, zeroCopy := true } : LinuxFd).InSlot := by
    intro d len hd
    refine ⟨fun hw => ?_, fun s hs => absurd hs (hd s)⟩
    rw [hwritable] at hw
    contradiction
  unfold TanjaOS.openRead
  dsimp only
  split
  . exact (h.withFs _).openFile (hf _ _ (by simp))
  . exact (h.withFs _).openFile (hf _ _ (by simp))
  . split
    . apply setFd
      . exact h.withFs _
      . simp
    . exact (h.withFs _).openFile (hf _ _ (by simp))

end Open

end StagingInv

theorem length_fsReadFilePrefix {s : FsState} {path : Bytes} {n : Nat} (capacity : Nat) (hn : 0 < n)
    (h : ∀ i, fileIndex s (absPath s.cwd.str path) = some i →
      permAllows s (s.fmode i) (s.fowner i) 0o400 → s.fsize i < n)
    : (fsReadFilePrefix s path capacity).buffer.length ≤ n := by
  unfold fsReadFilePrefix
  dsimp only
  split
  . simp
  . split
    . simp only [List.length_cons, List.length_nil]
      omega
    . next i hidx =>
      split
      . next hperm =>
        have hsize := h i hidx hperm
        have hload : ({ s with fsErrno := 0 }.loadFile i 0 (min (s.fsize i) (capacity - 1))).length
            ≤ s.fsize i := by
          unfold FsState.loadFile
          split
          . simp
          . rw [Mem.length_readBytes]
            exact Nat.min_le_left _ _
        simp only [List.length_append, List.length_cons, List.length_nil]
        omega
      . simp only [List.length_cons, List.length_nil]
        omega

/--
The file that `sys_open` is about to stage fits into a slot, with the NUL that `fs_read_file` puts
behind it.
-/
def StagedFits (st : LxState) (path : Bytes) : Prop :=
  fsDirectoryExists st.fs path = false → ∀ i, fileIndex st.fs (absPath st.fs.cwd.str path) = some i →
    permAllows st.fs (st.fs.fmode i) (st.fs.fowner i) 0o400 → st.fs.fsize i < lxWriteSlotBytes

/--
The call does not make a descriptor longer than its slot.
-/
def LxCall.StaysInSlots (st : LxState) : LxCall → Prop
  | .open path flags =>
    flags &&& (oWronly ||| oRdwr) ≠ 0 → (fdFree st).isSome → (slotClaim st).1.isSome →
      StagedFits st (lxnorm st.fs path)
  | .ftruncate fd len =>
    ∀ i, fdGet st fd = some i → (st.lfd i).writable → (st.lfd i).isDir = false →
      len.toNat ≤ maxFileSize → len.toNat ≤ lxWriteSlotBytes
  | _ => True

namespace StagingInv

variable {st st' : LxState} {i : Fin linuxMaxFd}

theorem openWrite {path : Bytes} {flags : UInt32} (h : StagingInv st) (hi : (st.lfd i).InSlot)
    (hdir : fsDirectoryExists st.fs path = false) (hfits : StagedFits st path)
    (hcap : (st.lfd i).cap = lxWriteSlotBytes)
    : StagingInv (openWrite st i path flags).2 := by
  have hlen := length_fsReadFilePrefix (maxFileSize + 1) (by decide) (hfits hdir)
  have hput : StagingInv (LxState.putData
      { st with fs := (fsReadFilePrefix st.fs path (maxFileSize + 1)).state } (st.lfd i).data 0
      (fsReadFilePrefix st.fs path (maxFileSize + 1)).buffer) := by
    apply (h.withFs _).putData
    intro s _
    omega
  unfold TanjaOS.openWrite
  dsimp only
  split
  . exact hput.openFailed
  . split
    . exact hput.openFailed
    . next hsize =>
      apply hput.openFile
      simp only [LxState.lfd_putData] at hsize ⊢
      apply hi.resize { st.lfd i with len := _ }
      . exact ⟨rfl, rfl, rfl, rfl, rfl, rfl, fun _ => rfl, rfl, rfl, rfl⟩
      . intro _ _
        dsimp only
        omega
      . intro hcopy s hs
        obtain ⟨hwritable, hnodir⟩ := hi.unstaged s hs
        have := (hi.staged hwritable hnodir).1
        rw [this] at hcopy
        contradiction

theorem openPath {path : Bytes} {flags : UInt32} (h : StagingInv st) (hi : (st.lfd i).InSlot)
    (hfits : (st.lfd i).writable → StagedFits st path)
    (hcap : (st.lfd i).writable → (st.lfd i).cap = lxWriteSlotBytes)
    : StagingInv (openPath st i path flags).2 := by
  unfold TanjaOS.openPath
  split
  . exact h.openDir
  . next hdir =>
    split
    . exact h.openNew hi
    . split
      . next hwritable => exact h.openWrite hi (by simpa using hdir) (hfits hwritable) (hcap hwritable)
      . next hwritable => exact h.openRead (by simpa using hwritable)

theorem sysOpen {path : Bytes} {flags : UInt32} (h : StagingInv st)
    (hfits : flags &&& (oWronly ||| oRdwr) ≠ 0 → (fdFree st).isSome → (slotClaim st).1.isSome →
      StagedFits st (lxnorm st.fs path))
    : StagingInv (sysOpen st path flags).2 := by
  unfold TanjaOS.sysOpen
  split
  . exact h
  . dsimp only
    split
    . exact h
    . next i hfree =>
      have hst : StagingInv { st with opens := st.opens + 1 } := h.of_eq rfl rfl
      split
      . next hwrite =>
        split
        . next st' hclaim =>
          rw [slotClaim_none hclaim]
          apply hst.setFd
          simp
        . next s st' hclaim =>
          obtain ⟨hfreeSlot, rfl⟩ := slotClaim_some hclaim
          have hf : ∀ n, ({ LinuxFd.zero with
                used := true, opened := n, writable := true, slot := some s, data := .slot s
                cap := lxWriteSlotBytes } : LinuxFd).InSlot := by
            intro n
            exact ⟨fun _ _ => ⟨rfl, rfl, Nat.zero_le _, s, rfl, rfl⟩, fun _ _ => ⟨rfl, rfl⟩⟩
          apply openPath
          . apply setFd
            . exact hst.of_eq rfl rfl
            . exact fun _ => hf _
          . simpa using hf _
          . intro _
            exact hfits hwrite (by rw [hfree]; rfl) (slotClaim_isSome.mpr ⟨s, hfreeSlot⟩)
          . simp
      . have hf : ∀ n, ({ LinuxFd.zero with used := true, opened := n } : LinuxFd).InSlot := by
          intro n
          refine ⟨fun hwritable => ?_, fun s hs => ?_⟩
          . contradiction
          . contradiction
        apply openPath (hst.setFd (fun _ => hf _))
        . simpa using hf _
        . intro hwritable
          simp [LinuxFd.zero] at hwritable
        . intro hwritable
          simp [LinuxFd.zero] at hwritable

theorem sysClose (h : StagingInv st) (fd : Nat) : StagingInv (sysClose st fd).2 := by
  unfold TanjaOS.sysClose
  split
  . exact h
  . next i hget =>
    obtain ⟨_, _, hused⟩ := fdGet_some hget
    have hst := h.fdFlush hused
    dsimp only
    apply setFd
    . split
      . exact hst
      . exact hst.slotRelease
    . simp

theorem sysDup (h : StagingInv st) (fd : Nat) : StagingInv (sysDup st fd).2 := by
  unfold TanjaOS.sysDup
  split
  . exact h
  . next i hget =>
    obtain ⟨_, _, hused⟩ := fdGet_some hget
    split
    . exact h
    . exact h.setFd (fun _ => h.inSlot i hused)

theorem sysDup2 (h : StagingInv st) (oldfd newfd : Nat) : StagingInv (sysDup2 st oldfd newfd).2 := by
  unfold TanjaOS.sysDup2
  split
  . exact h
  . next i hget =>
    obtain ⟨_, _, hused⟩ := fdGet_some hget
    split
    . next hn =>
      split
      . exact h
      . dsimp only
        have hst : StagingInv
            (if (st.lfd ⟨newfd, hn⟩).used then TanjaOS.fdFlush st ⟨newfd, hn⟩ else st) := by
          split
          . next hnew => exact h.fdFlush hnew
          . exact h
        have hi : ((if (st.lfd ⟨newfd, hn⟩).used then TanjaOS.fdFlush st ⟨newfd, hn⟩
            else st).lfd i).used := by
          split
          . rw [((SameTables.fdFlush _).entry i).used]
            exact hused
          . exact hused
        apply hst.setFd
        intro _
        exact (hst.inSlot i hi).congr rfl rfl rfl rfl rfl rfl (Nat.le_refl _)
    . exact h

theorem seek (h : StagingInv st) (pos : Nat) (hused : (st.lfd i).used)
    : StagingInv (st.setFd i { st.lfd i with pos := pos }) := by
  apply h.setFd
  intro _
  exact (h.inSlot i hused).congr rfl rfl rfl rfl rfl rfl (Nat.le_refl _)

theorem readData (h : StagingInv st) (hused : (st.lfd i).used) (count : Nat)
    : StagingInv (sysRead.readData st i count).2 := by
  unfold sysRead.readData
  dsimp only
  split
  . exact h
  . have hin := h.touch (h.inLength (st.lfd i).pos
      (min count ((st.lfd i).len - (st.lfd i).pos)) hused (by omega))
    have := hin.seek (i := i)
      ((st.lfd i).pos + min count ((st.lfd i).len - (st.lfd i).pos)) (by simpa using hused)
    simpa using this

theorem sysRead (h : StagingInv st) (fd count : Nat) (line : Bytes)
    : StagingInv (sysRead st fd count line).2 := by
  unfold TanjaOS.sysRead
  dsimp only
  split
  . exact h
  . split
    . exact h
    . next i hget =>
      obtain ⟨_, _, hused⟩ := fdGet_some hget
      split
      . exact h
      . split
        . next hcopy =>
          have hi := h.inSlot i hused
          have hnew : ∀ d len, (∀ s, d ≠ LxData.slot s) →
              ({ st.lfd i with data := d, len := len } : LinuxFd).InSlot := by
            intro d len hd
            refine ⟨fun hwritable hdir => ?_, fun s hs => absurd hs (hd s)⟩
            have := (hi.staged hwritable hdir).1
            rw [this] at hcopy
            contradiction
          have hdata : ∀ s, (st.lfd i).data ≠ .slot s := by
            intro s hs
            obtain ⟨hwritable, hdir⟩ := hi.unstaged s hs
            have := (hi.staged hwritable hdir).1
            rw [this] at hcopy
            contradiction
          split
          . apply readData
            . exact (h.withFs _).setFd (fun _ => hnew _ _ (by simp))
            . simpa using hused
          . split
            . exact h.withFs _
            . exact (h.withFs _).setFd (fun _ => hnew _ _ hdata)
        . exact h.readData hused count

theorem sysLseek (h : StagingInv st) (fd : Nat) (off : Int32) (whence : Nat)
    : StagingInv (sysLseek st fd off whence).2 := by
  unfold TanjaOS.sysLseek
  split
  . exact h
  . next i hget =>
    split
    . exact h
    . exact h.seek _ (fdGet_some hget).2.2

theorem sysPread (h : StagingInv st) (fd count off : Nat) : StagingInv (sysPread st fd count off).2 := by
  unfold TanjaOS.sysPread
  split
  . exact h
  . next i hget =>
    dsimp only
    split
    . exact h
    . apply h.touch
      apply h.inLength _ _ (fdGet_some hget).2.2
      omega

theorem mmapPlace {fixed : Bool} {addr len a : Nat} (h : StagingInv st)
    (hplace : TanjaOS.mmapPlace st fixed addr len = .ok (a, st'))
    : StagingInv st' := by
  unfold TanjaOS.mmapPlace at hplace
  split at hplace
  . split at hplace
    . contradiction
    . cases hplace
      exact h
  . split at hplace
    . contradiction
    . split at hplace
      . contradiction
      . cases hplace
        exact h.of_eq rfl rfl

theorem sysMmap (h : StagingInv st) (fixed : Bool) (addr len : Nat) (file : Option Nat) (off : Nat)
    : StagingInv (sysMmap st fixed addr len file off).2 := by
  unfold TanjaOS.sysMmap
  split
  . exact h
  . dsimp only
    split
    . exact h
    . next a st' hplace =>
      have hst : StagingInv (st'.fillAbs a ((len + 4095) % 2 ^ 32 / 4096 * 4096) (fun _ => 0)) :=
        (h.mmapPlace hplace).of_eq rfl rfl
      split
      . exact hst
      . split
        . exact hst
        . next i hget =>
          split
          . exact hst
          . have hin := hst.touch (hst.inLength (i := i) off
              (min (((st'.fillAbs a ((len + 4095) % 2 ^ 32 / 4096 * 4096)
                (fun _ => 0)).lfd i).len - off) ((len + 4095) % 2 ^ 32 / 4096 * 4096))
              (fdGet_some hget).2.2 (by omega))
            exact hin.of_eq rfl rfl

theorem sysFtruncate {fd len : Nat} (h : StagingInv st)
    (hlen : ∀ i, fdGet st fd = some i → (st.lfd i).writable → (st.lfd i).isDir = false →
      len ≤ maxFileSize → len ≤ lxWriteSlotBytes)
    : StagingInv (sysFtruncate st fd len).2 := by
  unfold TanjaOS.sysFtruncate
  split
  . exact h
  . next i hget =>
    obtain ⟨_, _, hused⟩ := fdGet_some hget
    have hi := h.inSlot i hused
    dsimp only
    split
    . exact h
    . split
      . exact h
      . next hmax =>
        apply setFd
        . split
          . apply h.putData
            rw [List.length_replicate]
            apply h.inLength _ _ hused
            omega
          . exact h
        . intro _
          refine ⟨fun hwritable hdir => ?_, hi.unstaged⟩
          obtain ⟨hcopy, hcap, _, hs⟩ := hi.staged hwritable hdir
          have := hlen i hget hwritable hdir (by omega)
          exact ⟨hcopy, hcap, by dsimp only; omega, hs⟩

theorem seekAppend (h : StagingInv st) (hused : (st.lfd i).used)
    : StagingInv (seekAppend st i) := by
  unfold TanjaOS.seekAppend
  split
  . exact h.seek _ hused
  . exact h

theorem fillGap (h : StagingInv st) (hused : (st.lfd i).used) (hwritable : (st.lfd i).writable)
    (hdir : (st.lfd i).isDir = false) (hgap : TanjaOS.fillGap st i = some st')
    : StagingInv st' ∧ (st'.lfd i).pos ≤ (st'.lfd i).len := by
  obtain ⟨hcopy, hcap, hlen, hs⟩ := (h.inSlot i hused).staged hwritable hdir
  unfold TanjaOS.fillGap at hgap
  dsimp only at hgap
  split at hgap
  . next hle =>
    cases hgap
    exact ⟨h, hle⟩
  . split at hgap
    . contradiction
    . next hroom =>
      cases hgap
      refine ⟨setFd (h.putData ?_) ?_, ?_⟩
      . intro s _
        rw [List.length_replicate]
        omega
      . intro _
        refine ⟨fun _ _ => ?_, (h.inSlot i hused).unstaged⟩
        exact ⟨hcopy, hcap, by dsimp only; omega, hs⟩
      . simp

theorem writeData (h : StagingInv st) (hused : (st.lfd i).used) (hwritable : (st.lfd i).writable)
    (hdir : (st.lfd i).isDir = false) (hpos : (st.lfd i).pos ≤ (st.lfd i).len) (buf : Bytes)
    : StagingInv (writeData st i buf).2 := by
  obtain ⟨hcopy, hcap, hlen, hs⟩ := (h.inSlot i hused).staged hwritable hdir
  have hroom : ((st.lfd i).cap + (2 ^ 32 - (st.lfd i).pos)) % 2 ^ 32
      = (st.lfd i).cap - (st.lfd i).pos := by
    rw [hcap]
    rw [hcap] at hlen
    unfold lxWriteSlotBytes at *
    omega
  have hin : (st.putData (st.lfd i).data (st.lfd i).pos
      (buf.take (min buf.length ((st.lfd i).cap - (st.lfd i).pos)))).spilled = st.spilled := by
    apply spilled_putData
    intro s _
    rw [List.length_take]
    omega
  unfold TanjaOS.writeData
  dsimp only
  rw [hroom]
  apply setFd
  . apply h.of_eq
    . simp
    . have : ¬(st.lfd i).cap < (st.lfd i).pos := by omega
      dsimp only
      rw [hin]
      simp [this]
  . intro _
    refine ⟨fun _ _ => ?_, (h.inSlot i hused).unstaged⟩
    exact ⟨hcopy, hcap, by dsimp only; omega, hs⟩

theorem sysWrite (h : StagingInv st) (fd : Nat) (buf : Bytes)
    : StagingInv (sysWrite st fd buf).2 := by
  unfold TanjaOS.sysWrite
  split
  . exact h
  . split
    . exact h
    . next i hget =>
      obtain ⟨_, _, hused⟩ := fdGet_some hget
      split
      . exact h
      . next hwritable =>
        split
        . exact h
        . next hdir =>
          dsimp only
          have happend := (show SameTables st (TanjaOS.seekAppend st i) from .seekAppend i).entry i
          have hst := h.seekAppend hused
          split
          . exact hst
          . next st' hgap =>
            have hw : ((TanjaOS.seekAppend st i).lfd i).writable := by
              rw [happend.writable]
              simpa using hwritable
            have hd : ((TanjaOS.seekAppend st i).lfd i).isDir = false := by
              rw [happend.isDir]
              simpa using hdir
            have hu : ((TanjaOS.seekAppend st i).lfd i).used := by
              rw [happend.used]
              exact hused
            obtain ⟨hst', hpos⟩ := hst.fillGap hu hw hd hgap
            have hsame := (SameTables.fillGap hgap).entry i
            apply hst'.writeData
            . exact hsame.used.trans hu
            . exact hsame.writable.trans hw
            . exact hsame.isDir.trans hd
            . exact hpos

theorem sysWritev (h : StagingInv st) (fd : Nat) (bufs : List Bytes) (total : Nat)
    : StagingInv (sysWritev st fd bufs total).2 := by
  induction bufs generalizing st total with
  | nil => exact h
  | cons buf bufs ih =>
    unfold TanjaOS.sysWritev
    dsimp only
    split
    . exact h.sysWrite fd buf
    . split
      . exact h.sysWrite fd buf
      . exact ih (h.sysWrite fd buf) _

theorem lxStep {c : LxCall} (h : StagingInv st) (hok : c.StaysInSlots st)
    : StagingInv (lxStep st c).2 := by
  cases c with
  | «open» path flags => exact h.sysOpen hok
  | close fd => exact h.sysClose fd
  | read fd count line => exact h.sysRead fd count line
  | write fd buf => exact h.sysWrite fd buf
  | writev fd bufs => exact h.sysWritev fd _ 0
  | lseek fd off whence => exact h.sysLseek fd off whence
  | ftruncate fd len => exact h.sysFtruncate hok
  | dup fd => exact h.sysDup fd
  | dup2 oldfd newfd => exact h.sysDup2 oldfd newfd
  | pread fd count off => exact h.sysPread fd count off
  | mmap fixed addr len file off => exact h.sysMmap fixed _ _ file off
  | chdir path => exact h.withFs _
  | fs op fuel =>
    unfold TanjaOS.lxStep
    dsimp only
    split
    . exact h
    . exact h.withFs _

theorem boot (st : LxState) : StagingInv st.boot where
  spilled := rfl
  inSlot i _ := by
    refine ⟨fun hwritable => ?_, fun s hs => ?_⟩
    . contradiction
    . contradiction

end StagingInv

theorem staging_bounds (st₀ st : LxState) (hrun : LxRun (fun st c => c.StaysInSlots st) st₀.boot st)
    : st.spilled = false
        ∧ ∀ i, (st.lfd i).used → (st.lfd i).writable → (st.lfd i).isDir = false →
            (st.lfd i).len ≤ (st.lfd i).cap
              ∧ ∃ s, (st.lfd i).slot = some s ∧ (st.lfd i).data = .slot s := by
  have h : StagingInv st := by
    refine Run.keeps (I := StagingInv) ?_ (StagingInv.boot st₀) hrun
    rintro st c _ hok h rfl
    exact h.lxStep hok
  refine ⟨h.spilled, ?_⟩
  intro i hused hwritable hdir
  obtain ⟨_, _, hlen, hs⟩ := (h.inSlot i hused).staged hwritable hdir
  exact ⟨hlen, hs⟩

theorem noteOpen_fits : LxRun (fun st c => c.StaysInSlots st) linuxStart noteOpen := by
  refine Run.call .refl (c := openNote) rfl ?_
  intro _ _ _ _ i hi
  have hnone : fileIndex linuxStart.fs (absPath linuxStart.fs.cwd.str (lxnorm linuxStart.fs notePath))
      = none := by decide +kernel
  have := hnone.symm.trans hi
  contradiction

theorem staging_bounds_note
    : noteOpen.spilled = false
        ∧ (noteOpen.lfd ⟨3, by decide⟩).len ≤ (noteOpen.lfd ⟨3, by decide⟩).cap := by
  obtain ⟨hspilled, hfd⟩ := staging_bounds _ noteOpen noteOpen_fits
  exact ⟨hspilled, (hfd ⟨3, by decide⟩ (by decide +kernel) (by decide +kernel) (by decide +kernel)).1⟩

def LxCall.OnFile : LxCall → Prop
  | .open _ _ | .read _ _ _ | .write _ _ | .lseek _ _ _ | .ftruncate _ _ | .pread _ _ _
  | .mmap _ _ _ _ _ | .close _ => True
  | _ => False

/--
`/a` is made 3 MiB long, and its last byte read.
-/
def noteSpilled : LxState :=
  [.ftruncate 3 3145728, .pread 3 1 3145727].foldl (fun st c => (lxStep st c).2) noteOpen

theorem staging_bounds_spilled
    : ¬∀ st₀ st : LxState, LxRun (fun _ c => c.OnFile) st₀.boot st → st.spilled = false := by
  intro h
  have hopen : LxRun (fun _ c => c.OnFile) linuxStart noteOpen :=
    Run.call .refl (c := openNote) rfl trivial
  have htruncate := hopen.call (c := .ftruncate 3 3145728) rfl trivial
  have hrun : LxRun (fun _ c => c.OnFile) linuxStart noteSpilled :=
    htruncate.call (c := .pread 3 1 3145727) rfl trivial
  have hspilled := h _ noteSpilled hrun
  revert hspilled
  decide +kernel

end TanjaOS
