import TanjaOS.Linux.Bounds

/-!
Which call of `sys_open` a descriptor comes from.
-/

open Lib

namespace TanjaOS

/--
Which calls of `sys_open` the descriptors come from.
-/
def Stamped (st : LxState) : Prop :=
  ∀ i, (st.lfd i).opened ≤ st.opens

namespace Stamped

variable {st st' : LxState} {i : Fin linuxMaxFd}

theorem same (h : Stamped st) (hst : SameTables st st') : Stamped st' := by
  intro i
  rw [(hst.entry i).opened, hst.opens]
  exact h i

theorem setFd {f : LinuxFd} (h : Stamped st) (hf : f.opened ≤ st.opens)
    : Stamped (st.setFd i f) := by
  intro j
  rw [LxState.lfd_setFd]
  dsimp only
  split
  . exact hf
  . exact h j

theorem slotRelease {s : Option (Fin lxWriteSlots)} (h : Stamped st)
    : Stamped (slotRelease st s) := by
  cases s <;> exact h

end Stamped

/--
Of the table only entry `i` differs, and it comes from the same call of `sys_open`.
-/
structure OnlyEntry (i : Fin linuxMaxFd) (st st' : LxState) : Prop where
  opens : st'.opens = st.opens
  other : ∀ j, j ≠ i → st'.lfd j = st.lfd j
  opened : (st'.lfd i).opened = (st.lfd i).opened
  writable : (st'.lfd i).writable = (st.lfd i).writable
  staged : (st'.lfd i).writable → (st'.lfd i).zeroCopy = (st.lfd i).zeroCopy

namespace OnlyEntry

variable {st st' : LxState} {i : Fin linuxMaxFd}

theorem of_eq (hfd : st'.lfd = st.lfd) (hopens : st'.opens = st.opens) : OnlyEntry i st st' where
  opens := hopens
  other j _ := by rw [hfd]
  opened := by rw [hfd]
  writable := by rw [hfd]
  staged _ := by rw [hfd]

theorem setFd {f : LinuxFd} (h : OnlyEntry i st st') (hopened : f.opened = (st'.lfd i).opened)
    (hwritable : f.writable = (st'.lfd i).writable)
    (hstaged : f.writable → f.zeroCopy = (st'.lfd i).zeroCopy)
    : OnlyEntry i st (st'.setFd i f) where
  opens := h.opens
  other j hj := by
    simp only [LxState.lfd_setFd, hj, ↓reduceIte]
    exact h.other j hj
  opened := by
    simp only [LxState.lfd_setFd, ↓reduceIte]
    exact hopened.trans h.opened
  writable := by
    simp only [LxState.lfd_setFd, ↓reduceIte]
    exact hwritable.trans h.writable
  staged := by
    simp only [LxState.lfd_setFd, ↓reduceIte]
    intro hw
    rw [hstaged hw]
    rw [hwritable] at hw
    exact h.staged hw

theorem openFailed (h : OnlyEntry i st st') : OnlyEntry i st (openFailed st' i) := by
  unfold TanjaOS.openFailed
  have hgone := h.setFd (f := { st'.lfd i with used := false }) rfl rfl (fun _ => rfl)
  cases (st'.lfd i).slot <;> exact ⟨hgone.opens, hgone.other, hgone.opened, hgone.writable, hgone.staged⟩

theorem openFile {path : Bytes} {flags : UInt32} {f : LinuxFd} (h : OnlyEntry i st st')
    (hopened : f.opened = (st'.lfd i).opened) (hwritable : f.writable = (st'.lfd i).writable)
    (hstaged : f.writable → f.zeroCopy = (st'.lfd i).zeroCopy)
    : OnlyEntry i st (openFile (st'.setFd i f) i path flags) := by
  unfold TanjaOS.openFile
  dsimp only
  apply setFd (h.setFd hopened hwritable hstaged)
  . split <;> split <;> rfl
  . split <;> split <;> rfl
  . intro _
    split <;> split <;> rfl

theorem openPath (st : LxState) (i : Fin linuxMaxFd) (path : Bytes) (flags : UInt32)
    : OnlyEntry i st (openPath st i path flags).2 := by
  have hfs : ∀ s, OnlyEntry i st { st with fs := s } := fun s => of_eq rfl rfl
  unfold TanjaOS.openPath
  split
  . unfold openDir
    dsimp only
    split
    . apply setFd
      . exact of_eq rfl rfl
      . rfl
      . rfl
      . exact fun _ => rfl
    . apply setFd
      . exact of_eq rfl rfl
      . rfl
      . rfl
      . exact fun _ => rfl
  . split
    . unfold openNew
      split
      . exact (of_eq rfl rfl).openFailed
      . split
        . exact (of_eq rfl rfl).openFailed
        . dsimp only
          split
          . exact (hfs _).openFailed
          . exact (hfs _).setFd rfl rfl (fun _ => rfl)
    . split
      . unfold openWrite
        dsimp only
        have hput : ∀ d off bs s, OnlyEntry i st (LxState.putData { st with fs := s } d off bs) := by
          intro d off bs s
          exact of_eq (by simp) (by simp)
        split
        . exact (hput _ _ _ _).openFailed
        . split
          . exact (hput _ _ _ _).openFailed
          . exact (hput _ _ _ _).openFile rfl rfl (fun _ => rfl)
      . next hro =>
        unfold openRead
        dsimp only
        split
        . exact (hfs _).openFile rfl rfl (fun hw => absurd hw hro)
        . exact (hfs _).openFile rfl rfl (fun hw => absurd hw hro)
        . split
          . exact (hfs _).setFd rfl rfl (fun _ => rfl)
          . exact (hfs _).openFile rfl rfl (fun hw => absurd hw hro)

end OnlyEntry

theorem sysOpen_entries (st : LxState) (path : Bytes) (flags : UInt32)
    : (sysOpen st path flags).2 = st
        ∨ (sysOpen st path flags).2.opens = st.opens + 1
          ∧ ∃ i, fdFree st = some i
            ∧ (∀ j, j ≠ i → (sysOpen st path flags).2.lfd j = st.lfd j)
            ∧ ((sysOpen st path flags).2.lfd i).opened = st.opens + 1
            ∧ ((sysOpen st path flags).2.lfd i).writable
                = decide (flags &&& (oWronly ||| oRdwr) ≠ 0) := by
  unfold sysOpen
  split
  . exact .inl rfl
  . dsimp only
    split
    . exact .inl rfl
    . next i hfree =>
      right
      split
      . next hwrite =>
        split
        . next st' hclaim =>
          rw [slotClaim_none hclaim]
          refine ⟨rfl, i, hfree, fun j hj => by simp [hj], ?_, ?_⟩
          . simp
          . simpa using hwrite
        . next s st' hclaim =>
          obtain ⟨_, rfl⟩ := slotClaim_some hclaim
          have honly := OnlyEntry.openPath (LxState.setFd
            { st with opens := st.opens + 1, slotUsed := fun t => if t = s then true else st.slotUsed t }
            i { LinuxFd.zero with
              used := true, opened := st.opens + 1, writable := true, slot := some s,
              data := .slot s, cap := lxWriteSlotBytes }) i (lxnorm st.fs path) flags
          refine ⟨honly.opens, i, hfree, fun j hj => ?_, honly.opened.trans ?_, honly.writable.trans ?_⟩
          . rw [honly.other j hj]
            simp [hj]
          . simp
          . simpa using hwrite
      . next hread =>
        have honly := OnlyEntry.openPath (LxState.setFd { st with opens := st.opens + 1 }
            i { LinuxFd.zero with used := true, opened := st.opens + 1 }) i (lxnorm st.fs path) flags
        refine ⟨honly.opens, i, hfree, fun j hj => ?_, honly.opened.trans ?_, honly.writable.trans ?_⟩
        . rw [honly.other j hj]
          simp [hj]
        . simp
        . have hzero : LinuxFd.zero.writable = false := rfl
          simpa [hzero] using hread

theorem sysOpen_staged {st : LxState} {path : Bytes} {flags : UInt32} {i : Fin linuxMaxFd}
    (hfree : fdFree st = some i)
    : (sysOpen st path flags).2 = st ∨ (((sysOpen st path flags).2.lfd i).writable →
        ((sysOpen st path flags).2.lfd i).zeroCopy = false) := by
  unfold sysOpen
  split
  . exact .inl rfl
  . right
    dsimp only
    rw [hfree]
    dsimp only
    split
    . split
      . intro _
        simp [LinuxFd.zero]
      . next s st' hclaim =>
        intro hw
        rw [(OnlyEntry.openPath _ _ _ _).staged hw]
        simp [LinuxFd.zero]
    . intro hw
      rw [(OnlyEntry.openPath _ _ _ _).staged hw]
      simp [LinuxFd.zero]

namespace Stamped

variable {st : LxState}

theorem sysOpen (h : Stamped st) (path : Bytes) (flags : UInt32)
    : Stamped (sysOpen st path flags).2 := by
  obtain heq | ⟨hopens, i, _, hother, hopened, _⟩ := sysOpen_entries st path flags
  . rw [heq]
    exact h
  . intro j
    rw [hopens]
    by_cases hj : j = i
    . rw [hj, hopened]
    . rw [hother j hj]
      exact (h j).trans (Nat.le_succ _)

theorem sysClose (h : Stamped st) (fd : Nat) : Stamped (sysClose st fd).2 := by
  unfold TanjaOS.sysClose
  split
  . exact h
  . next i _ =>
    have hst := h.same (.fdFlush i)
    dsimp only
    split
    . exact hst.setFd (hst i)
    . exact (hst.slotRelease).setFd ((hst.slotRelease) i)

theorem sysDup (h : Stamped st) (fd : Nat) : Stamped (sysDup st fd).2 := by
  unfold TanjaOS.sysDup
  split
  . exact h
  . split
    . exact h
    . exact h.setFd (h _)

theorem sysDup2 (h : Stamped st) (oldfd newfd : Nat) : Stamped (sysDup2 st oldfd newfd).2 := by
  unfold TanjaOS.sysDup2
  split
  . exact h
  . split
    . next hn =>
      split
      . exact h
      . have hst : Stamped (if (st.lfd ⟨newfd, hn⟩).used then fdFlush st ⟨newfd, hn⟩ else st) := by
          split
          . exact h.same (.fdFlush _)
          . exact h
        exact hst.setFd (hst _)
    . exact h

theorem lxStep (h : Stamped st) (c : LxCall) : Stamped (lxStep st c).2 := by
  cases c with
  | «open» path flags => exact h.sysOpen path flags
  | close fd => exact h.sysClose fd
  | dup fd => exact h.sysDup fd
  | dup2 oldfd newfd => exact h.sysDup2 oldfd newfd
  | _ => exact h.same (SameTables.lxStep (by simp) (by simp) (by simp) (by simp))

theorem run {st₀ : LxState} {ok : LxState → LxCall → Prop} (hrun : LxRun ok st₀.boot st)
    : Stamped st := by
  refine Run.keeps (I := Stamped) ?_ ?_ hrun
  . rintro st c _ _ h rfl
    exact h.lxStep c
  . intro i
    exact Nat.zero_le _

end Stamped

end TanjaOS
