import TanjaOS.Linux.Denotes

/-!
Duplicated descriptors against a single one: the calls through any of the duplicates, and the same
calls all made through the descriptor that has been opened.
-/

open Lib

namespace TanjaOS

/--
`fd_flush` has something to write.
-/
def LinuxFd.Unsaved (f : LinuxFd) : Prop :=
  f.dirty ∧ f.writable ∧ ¬f.zeroCopy

instance (f : LinuxFd) : Decidable f.Unsaved :=
  inferInstanceAs (Decidable (_ ∧ _))

def writeBack (st : LxState) (i : Fin linuxMaxFd) : LxState :=
  fdFlush (st.setFd i { st.lfd i with dirty := true }) i

section Runs

variable (n : Nat)

/--
What one call does when there is a single descriptor `i₀` instead of the duplicates in `st`. A close
that writes back in `st` does so here, as does `dup2` onto one of the duplicates.
-/
def oneStep (i₀ : Fin linuxMaxFd) (st one : LxState) : LxCall → LxResult × LxState
  | .read _ count line => sysRead one i₀.val count line
  | .write _ buf => lxStep.plain (sysWrite one i₀.val buf)
  | .lseek _ off whence => lxStep.plain (sysLseek one i₀.val off whence)
  | .close fd =>
    (⟨0, []⟩, match fdGet st fd with
      | some i => if (st.lfd i).Unsaved then writeBack one i₀ else one
      | none => one)
  | .dup fd => (⟨(sysDup st fd).1, []⟩, one)
  | .dup2 oldfd newfd =>
    (⟨newfd, []⟩,
      if ∃ k : Fin linuxMaxFd, k.val = newfd ∧ newfd ≠ oldfd ∧ (st.lfd k).used
          ∧ (st.lfd k).Unsaved then
        writeBack one i₀
      else
        one)
  | _ => (⟨0, []⟩, one)

/--
The results of the calls `cs` and the state after them, through the duplicates.
-/
def runAll (st : LxState) : List LxCall → List LxResult × LxState
  | [] => ([], st)
  | c :: cs =>
    let (rs, st') := runAll (lxStep st c).2 cs
    ((lxStep st c).1 :: rs, st')

/--
The results of the calls `cs` and the state after them, through the single descriptor.
-/
def runOne (i₀ : Fin linuxMaxFd) (st one : LxState) : List LxCall → List LxResult × LxState
  | [] => ([], one)
  | c :: cs =>
    let (rs, one') := runOne i₀ (lxStep st c).2 (oneStep i₀ st one c).2 cs
    ((oneStep i₀ st one c).1 :: rs, one')

/--
The descriptor stems from call `n` of `sys_open`.
-/
def Stems (st : LxState) (i : Fin linuxMaxFd) : Prop :=
  (st.lfd i).used ∧ (st.lfd i).opened = n

/--
The call is through one of the duplicates, whose own record agrees with `last`, the one that the
previous call has left: in position and length for reads, writes and seeks, in length when it is
written back. The last of the duplicates to be closed is written back if `unsaved` says that it has
to.
-/
def CallAgrees (st : LxState) (last : LinuxFd) (unsaved : Bool) : LxCall → Prop
  | .read fd _ _ | .write fd _ | .lseek fd _ _ =>
    ∃ i, fdGet st fd = some i ∧ Stems n st i
      ∧ (st.lfd i).pos = last.pos ∧ (st.lfd i).len = last.len
  | .close fd =>
    ∃ i, fdGet st fd = some i ∧ Stems n st i
      ∧ ((st.lfd i).Unsaved → (st.lfd i).len = last.len)
      ∧ (unsaved → ¬(st.lfd i).Unsaved → ∃ j, 3 ≤ j.val ∧ j ≠ i ∧ Stems n st j)
  | .dup fd => ∃ i, fdGet st fd = some i ∧ Stems n st i
  | .dup2 oldfd newfd =>
    (∃ i, fdGet st oldfd = some i ∧ Stems n st i) ∧ newfd < linuxMaxFd
      ∧ ∀ k : Fin linuxMaxFd, k.val = newfd → newfd ≠ oldfd → (st.lfd k).used →
          (st.lfd k).Unsaved → (st.lfd k).opened = n ∧ (st.lfd k).len = last.len
  | _ => False

def nextLast (st : LxState) (last : LinuxFd) (c : LxCall) : LinuxFd :=
  match c with
  | .read fd _ _ | .write fd _ | .lseek fd _ _ =>
    match fdGet st fd with
    | some i => (lxStep st c).2.lfd i
    | none => last
  | _ => last

def nextUnsaved (st : LxState) (unsaved : Bool) (c : LxCall) : Bool :=
  match c with
  | .write fd _ =>
    match fdGet st fd with
    | some i => unsaved || decide ((lxStep st c).2.lfd i).Unsaved
    | none => unsaved
  | .close fd =>
    match fdGet st fd with
    | some i => unsaved && !decide (st.lfd i).Unsaved
    | none => unsaved
  | .dup2 oldfd newfd =>
    unsaved && !decide (∃ k : Fin linuxMaxFd, k.val = newfd ∧ newfd ≠ oldfd ∧ (st.lfd k).used
      ∧ (st.lfd k).Unsaved)
  | _ => unsaved

def AllAgree (st : LxState) (last : LinuxFd) (unsaved : Bool) : List LxCall → Prop
  | [] => True
  | c :: cs =>
    CallAgrees n st last unsaved c
      ∧ AllAgree (lxStep st c).2 (nextLast st last c) (nextUnsaved st unsaved c) cs

end Runs

/--
Entry `i` of `st` and entry `i₀` of `one` are at the same place of the same file.
-/
structure SamePlace (st one : LxState) (i i₀ : Fin linuxMaxFd) : Prop where
  fs : one.fs = st.fs
  scratch : one.scratch = st.scratch
  dirList : one.dirList = st.dirList
  low : one.low = st.low
  poolBase : one.poolBase = st.poolBase
  same : (one.lfd i₀).Same (st.lfd i)
  pos : (one.lfd i₀).pos = (st.lfd i).pos
  len : (one.lfd i₀).len = (st.lfd i).len

namespace SamePlace

variable {st one : LxState} {i i₀ : Fin linuxMaxFd}

theorem getData (h : SamePlace st one i i₀) (d : LxData) (off n : Nat)
    : one.getData d off n = st.getData d off n := by
  unfold LxState.getData LxState.dataMem
  rw [h.fs, h.scratch, h.dirList, h.low, h.poolBase]

theorem setFd {f f₀ : LinuxFd} (h : SamePlace st one i i₀) (hsame : f₀.Same f) (hpos : f₀.pos = f.pos)
    (hlen : f₀.len = f.len)
    : SamePlace (st.setFd i f) (one.setFd i₀ f₀) i i₀ where
  fs := h.fs
  scratch := h.scratch
  dirList := h.dirList
  low := h.low
  poolBase := h.poolBase
  same := by simpa using hsame
  pos := by simpa using hpos
  len := by simpa using hlen

theorem touch {d d₀ : LxData} {off n off₀ n₀ : Nat} (h : SamePlace st one i i₀)
    : SamePlace (st.touch d off n) (one.touch d₀ off₀ n₀) i i₀ := by
  cases d <;> cases d₀ <;> exact ⟨h.fs, h.scratch, h.dirList, h.low, h.poolBase, h.same, h.pos, h.len⟩

theorem putData (h : SamePlace st one i i₀) (d : LxData) (off : Nat) (bs : Bytes)
    : SamePlace (st.putData d off bs) (one.putData d off bs) i i₀ := by
  have hfill : (one.fillAbs off bs.length (fun j => bs.getD j 0)).fs
      = (st.fillAbs off bs.length (fun j => bs.getD j 0)).fs := by
    unfold LxState.fillAbs
    rw [h.fs, h.poolBase]
  have hsame : ((one.putData d off bs).lfd i₀).Same ((st.putData d off bs).lfd i) := by
    simpa using h.same
  have hpos : ((one.putData d off bs).lfd i₀).pos = ((st.putData d off bs).lfd i).pos := by
    simpa using h.pos
  have hlen : ((one.putData d off bs).lfd i₀).len = ((st.putData d off bs).lfd i).len := by
    simpa using h.len
  cases d with
  | null =>
    refine ⟨hfill, h.scratch, h.dirList, ?_, h.poolBase, hsame, hpos, hlen⟩
    show one.low.writeBytes off bs = st.low.writeBytes off bs
    rw [h.low]
  | pool p =>
    refine ⟨?_, h.scratch, h.dirList, h.low, h.poolBase, hsame, hpos, hlen⟩
    show { one.fs with fpool := one.fs.fpool.writeBytes (p + off) bs }
      = { st.fs with fpool := st.fs.fpool.writeBytes (p + off) bs }
    rw [h.fs]
  | slot s =>
    refine ⟨h.fs, ?_, h.dirList, h.low, h.poolBase, hsame, hpos, hlen⟩
    show (fun t => if t = s then (one.scratch s).writeBytes off bs else one.scratch t)
      = fun t => if t = s then (st.scratch s).writeBytes off bs else st.scratch t
    rw [h.scratch]
  | dirList =>
    refine ⟨h.fs, h.scratch, ?_, h.low, h.poolBase, hsame, hpos, hlen⟩
    show one.dirList.writeBytes off bs = st.dirList.writeBytes off bs
    rw [h.dirList]

theorem record (h : SamePlace st one i i₀)
    : ∃ d e, one.lfd i₀ = { st.lfd i with data := d, dirty := e }
        ∧ ((st.lfd i).zeroCopy = false → d = (st.lfd i).data) := by
  refine ⟨(one.lfd i₀).data, (one.lfd i₀).dirty, ?_, ?_⟩
  . have hsame := h.same
    rw [LinuxFd.mk.injEq]
    exact ⟨hsame.used.symm, hsame.isDir.symm, hsame.writable.symm, rfl, hsame.append.symm,
      hsame.zeroCopy.symm, hsame.path.symm, h.pos, h.len, rfl, hsame.cap.symm, hsame.slot.symm,
      hsame.opened.symm⟩
  . intro hcopy
    exact h.same.symm.data hcopy

theorem readData (h : SamePlace st one i i₀) (hdata : (one.lfd i₀).data = (st.lfd i).data) (count : Nat)
    : (sysRead.readData one i₀ count).1 = (sysRead.readData st i count).1
        ∧ SamePlace (sysRead.readData st i count).2 (sysRead.readData one i₀ count).2 i i₀ := by
  unfold sysRead.readData
  dsimp only
  rw [h.pos, h.len, hdata]
  split
  . exact ⟨rfl, h⟩
  . refine ⟨by rw [h.getData], ?_⟩
    apply (h.touch).setFd
    . exact ⟨h.same.used, h.same.isDir, h.same.writable, h.same.append, h.same.zeroCopy, h.same.path,
        fun _ => rfl, h.same.cap, h.same.slot, h.same.opened⟩
    . rfl
    . rfl

theorem sysRead {fd : Nat} (h : SamePlace st one i i₀) (hget : fdGet st fd = some i) (hle : 3 ≤ i₀.val)
    (count : Nat) (line : Bytes)
    : (sysRead one i₀.val count line).1 = (sysRead st fd count line).1
        ∧ SamePlace (sysRead st fd count line).2 (sysRead one i₀.val count line).2 i i₀ := by
  obtain ⟨hi, hfd, hused⟩ := fdGet_some hget
  have hused₀ : (one.lfd i₀).used := h.same.used.symm.trans hused
  unfold TanjaOS.sysRead
  dsimp only
  rw [if_neg (by omega), if_neg (by omega), hget, fdGet_val hle hused₀]
  dsimp only
  obtain ⟨d, e, hone, hdata⟩ := h.record
  have hdir : (one.lfd i₀).isDir = (st.lfd i).isDir := by rw [hone]
  have hcopy : (one.lfd i₀).zeroCopy = (st.lfd i).zeroCopy := by rw [hone]
  have hpath : (one.lfd i₀).path = (st.lfd i).path := by rw [hone]
  have hfs : ∀ s, SamePlace { st with fs := s } { one with fs := s } i i₀ := by
    intro s
    exact ⟨rfl, h.scratch, h.dirList, h.low, h.poolBase, h.same, h.pos, h.len⟩
  have hset : ∀ s d' len, SamePlace (LxState.setFd { st with fs := s } i
      { st.lfd i with data := d', len := len })
      (LxState.setFd { one with fs := s } i₀ { one.lfd i₀ with data := d', len := len }) i i₀ := by
    intro s d' len
    apply (hfs s).setFd
    . rw [hone]
      exact ⟨rfl, rfl, rfl, rfl, rfl, rfl, fun _ => rfl, rfl, rfl, rfl⟩
    . exact h.pos
    . rfl
  simp only [hdir, hcopy, hpath, h.fs]
  split
  . exact ⟨rfl, h⟩
  . split
    . split
      . apply readData
        . have := hset
          simp only [hdir, hcopy, hpath] at this
          exact this _ _ _
        . simp
      . split
        . exact ⟨rfl, hfs _⟩
        . refine ⟨rfl, ?_⟩
          apply (hfs _).setFd
          . rw [hone]
            exact ⟨rfl, rfl, rfl, rfl, rfl, rfl, fun hnot => (hdata hnot).symm, rfl, rfl, rfl⟩
          . exact h.pos
          . rfl
    . next hnot =>
      apply h.readData
      rw [hone]
      exact hdata (by simpa using hnot)

theorem sysLseek {fd : Nat} (h : SamePlace st one i i₀) (hget : fdGet st fd = some i)
    (hle : 3 ≤ i₀.val) (off : Int32) (whence : Nat)
    : (sysLseek one i₀.val off whence).1 = (sysLseek st fd off whence).1
        ∧ SamePlace (sysLseek st fd off whence).2 (sysLseek one i₀.val off whence).2 i i₀ := by
  obtain ⟨_, _, hused⟩ := fdGet_some hget
  have hseek : seekNewPos (one.lfd i₀) off whence = seekNewPos (st.lfd i) off whence := by
    unfold seekNewPos
    rw [h.pos, h.len]
  unfold TanjaOS.sysLseek
  rw [hget, fdGet_val hle (h.same.used.symm.trans hused)]
  dsimp only
  rw [hseek]
  split
  . exact ⟨rfl, h⟩
  . refine ⟨rfl, ?_⟩
    apply h.setFd
    . exact ⟨h.same.used, h.same.isDir, h.same.writable, h.same.append, h.same.zeroCopy, h.same.path,
        h.same.data, h.same.cap, h.same.slot, h.same.opened⟩
    . rfl
    . exact h.len

theorem seekAppend (h : SamePlace st one i i₀) : SamePlace (seekAppend st i) (seekAppend one i₀) i i₀ := by
  unfold TanjaOS.seekAppend
  rw [← h.same.append]
  split
  . apply h.setFd
    . exact ⟨h.same.used, h.same.isDir, h.same.writable, h.same.append, h.same.zeroCopy, h.same.path,
        h.same.data, h.same.cap, h.same.slot, h.same.opened⟩
    . exact h.len
    . exact h.len
  . exact h

theorem seekAppend_data : ((TanjaOS.seekAppend st i).lfd i).data = (st.lfd i).data := by
  unfold TanjaOS.seekAppend
  split
  . simp
  . rfl

theorem seekAppend_dirty : ((TanjaOS.seekAppend st i).lfd i).dirty = (st.lfd i).dirty := by
  unfold TanjaOS.seekAppend
  split
  . simp
  . rfl

theorem fillGap (h : SamePlace st one i i₀) (hdata : (one.lfd i₀).data = (st.lfd i).data)
    : (TanjaOS.fillGap one i₀ = none ∧ TanjaOS.fillGap st i = none)
        ∨ ∃ one' st', TanjaOS.fillGap one i₀ = some one' ∧ TanjaOS.fillGap st i = some st'
          ∧ SamePlace st' one' i i₀ := by
  unfold TanjaOS.fillGap
  dsimp only
  rw [h.pos, h.len, ← h.same.cap, hdata]
  split
  . exact .inr ⟨one, st, rfl, rfl, h⟩
  . split
    . exact .inl ⟨rfl, rfl⟩
    . refine .inr ⟨_, _, rfl, rfl, ?_⟩
      apply (h.putData _ _ _).setFd
      . exact ⟨h.same.used, h.same.isDir, h.same.writable, h.same.append, h.same.zeroCopy,
          h.same.path, fun _ => rfl, rfl, h.same.slot, h.same.opened⟩
      . rfl
      . rfl

theorem writeData (h : SamePlace st one i i₀) (hdata : (one.lfd i₀).data = (st.lfd i).data) (buf : Bytes)
    : (writeData one i₀ buf).1 = (writeData st i buf).1
        ∧ SamePlace (writeData st i buf).2 (writeData one i₀ buf).2 i i₀
        ∧ ((TanjaOS.writeData st i buf).2.lfd i).dirty = true := by
  unfold TanjaOS.writeData
  dsimp only
  rw [h.pos, h.len, ← h.same.cap, hdata]
  refine ⟨rfl, ?_, by simp⟩
  have hput := h.putData (st.lfd i).data (st.lfd i).pos
    (buf.take (min buf.length (((st.lfd i).cap + (2 ^ 32 - (st.lfd i).pos)) % 2 ^ 32)))
  apply setFd
  . exact ⟨hput.fs, hput.scratch, hput.dirList, hput.low, hput.poolBase, hput.same, hput.pos,
      hput.len⟩
  . exact ⟨h.same.used, h.same.isDir, h.same.writable, h.same.append, h.same.zeroCopy, h.same.path,
      fun _ => rfl, rfl, h.same.slot, h.same.opened⟩
  . rfl
  . rfl

theorem toConsole_eq_false (st : LxState) {fd : Nat} (hfd : 3 ≤ fd) : toConsole st fd = false := by
  unfold toConsole
  have : ¬(fd = 1 ∨ fd = 2) := by omega
  simp [this]

theorem sysWrite {fd : Nat} (h : SamePlace st one i i₀) (hget : fdGet st fd = some i)
    (hle : 3 ≤ i₀.val) (hstaged : (one.lfd i₀).writable → (one.lfd i₀).zeroCopy = false) (buf : Bytes)
    : (sysWrite one i₀.val buf).1 = (sysWrite st fd buf).1
        ∧ SamePlace (sysWrite st fd buf).2 (sysWrite one i₀.val buf).2 i i₀
        ∧ (((TanjaOS.sysWrite one i₀.val buf).2.lfd i₀).dirty →
            (one.lfd i₀).dirty ∨ ((TanjaOS.sysWrite st fd buf).2.lfd i).dirty) := by
  obtain ⟨hi, hfd, hused⟩ := fdGet_some hget
  have hdata : (one.lfd i₀).writable → (one.lfd i₀).data = (st.lfd i).data := by
    intro hw
    exact (h.same.data (hstaged hw)).symm
  unfold TanjaOS.sysWrite
  rw [toConsole_eq_false st (by omega), toConsole_eq_false one hle, if_neg (by decide),
    if_neg (by decide), hget, fdGet_val hle (h.same.used.symm.trans hused)]
  dsimp only
  rw [← h.same.writable, ← h.same.isDir] at *
  split
  . exact ⟨rfl, h, .inl⟩
  . next hw =>
    split
    . exact ⟨rfl, h, .inl⟩
    . have hseek := h.seekAppend
      have hwrite : ((TanjaOS.seekAppend one i₀).lfd i₀).data = ((TanjaOS.seekAppend st i).lfd i).data := by
        rw [seekAppend_data, seekAppend_data]
        exact hdata (by simpa using hw)
      obtain ⟨hone, hst⟩ | ⟨one', st', hone, hst, hgap⟩ := hseek.fillGap hwrite
      . rw [hone, hst]
        refine ⟨rfl, hseek, fun hd => .inl ?_⟩
        rw [← hd]
        exact seekAppend_dirty.symm
      . rw [hone, hst]
        have hcopy : ((TanjaOS.seekAppend one i₀).lfd i₀).zeroCopy = false := by
          rw [((show SameTables one (TanjaOS.seekAppend one i₀) from .seekAppend i₀).entry i₀).zeroCopy]
          exact hstaged (by simpa using hw)
        have hcopy' : ((TanjaOS.seekAppend st i).lfd i).zeroCopy = false := by
          rw [hseek.same.zeroCopy]
          exact hcopy
        have hput : (one'.lfd i₀).data = (st'.lfd i).data := by
          rw [((SameTables.fillGap hone).entry i₀).data hcopy,
            ((SameTables.fillGap hst).entry i).data hcopy']
          exact hwrite
        obtain ⟨hret, halike, hdirty⟩ := hgap.writeData hput buf
        exact ⟨hret, halike, fun _ => .inr hdirty⟩

theorem readData_dirty (st : LxState) (i : Fin linuxMaxFd) (count : Nat)
    : ((sysRead.readData st i count).2.lfd i).dirty = (st.lfd i).dirty := by
  unfold sysRead.readData
  dsimp only
  split
  . rfl
  . simp

theorem sysRead_dirty {fd : Nat} (hget : fdGet st fd = some i) (count : Nat) (line : Bytes)
    : ((TanjaOS.sysRead st fd count line).2.lfd i).dirty = (st.lfd i).dirty := by
  unfold TanjaOS.sysRead
  dsimp only
  split
  . rfl
  . rw [hget]
    dsimp only
    split
    . rfl
    . split
      . split
        . rw [readData_dirty]
          simp
        . split
          . rfl
          . simp
      . exact readData_dirty st i count

theorem sysLseek_dirty {fd : Nat} (hget : fdGet st fd = some i) (off : Int32) (whence : Nat)
    : ((TanjaOS.sysLseek st fd off whence).2.lfd i).dirty = (st.lfd i).dirty := by
  unfold TanjaOS.sysLseek
  rw [hget]
  dsimp only
  split
  . rfl
  . simp

end SamePlace

/--
Where `one` stands, whose entry `i₀` is to do the work of all descriptors in `st` that stem from
call `n`.
-/
structure Tracks (n : Nat) (i₀ : Fin linuxMaxFd) (last : LinuxFd) (unsaved : Bool)
    (st one : LxState) : Prop where
  fs : one.fs = st.fs
  scratch : one.scratch = st.scratch
  dirList : one.dirList = st.dirList
  low : one.low = st.low
  poolBase : one.poolBase = st.poolBase
  staged : (one.lfd i₀).writable → (one.lfd i₀).zeroCopy = false
  kin : ∀ j, Stems n st j → (one.lfd i₀).Same (st.lfd j)
  pos : (one.lfd i₀).pos = last.pos
  len : (one.lfd i₀).len = last.len
  saved : (one.lfd i₀).Unsaved → unsaved
  held : unsaved → ∃ j, 3 ≤ j.val ∧ Stems n st j

theorem LinuxFd.Same.unsaved {f f' : LinuxFd} (h : f.Same f') (hd : f.dirty = true → f'.dirty = true)
    (hu : f.Unsaved)
    : f'.Unsaved := by
  obtain ⟨hdirty, hw, hcopy⟩ := hu
  refine ⟨hd hdirty, ?_, ?_⟩
  . rw [h.writable]
    exact hw
  . rw [h.zeroCopy]
    exact hcopy

theorem SameTables.stems {n : Nat} {st st' : LxState} (h : SameTables st st') (j : Fin linuxMaxFd)
    : Stems n st' j ↔ Stems n st j := by
  unfold Stems
  rw [(h.entry j).used, (h.entry j).opened]

namespace Tracks

variable {n : Nat} {i₀ i : Fin linuxMaxFd} {last : LinuxFd} {unsaved : Bool} {st one : LxState}

theorem alike (h : Tracks n i₀ last unsaved st one) (hi : Stems n st i)
    (hpos : (st.lfd i).pos = last.pos) (hlen : (st.lfd i).len = last.len)
    : SamePlace st one i i₀ where
  fs := h.fs
  scratch := h.scratch
  dirList := h.dirList
  low := h.low
  poolBase := h.poolBase
  same := h.kin i hi
  pos := h.pos.trans hpos.symm
  len := h.len.trans hlen.symm

theorem moved {st' one' : LxState} (h : Tracks n i₀ last unsaved st one) (unsaved' : Bool)
    (hi : 3 ≤ i.val) (hstems : Stems n st i) (hst : SameTables st st') (hone : SameTables one one')
    (halike : SamePlace st' one' i i₀) (hsaved : (one'.lfd i₀).Unsaved → unsaved')
    : Tracks n i₀ (st'.lfd i) unsaved' st' one' where
  fs := halike.fs
  scratch := halike.scratch
  dirList := halike.dirList
  low := halike.low
  poolBase := halike.poolBase
  staged := by
    rw [(hone.entry i₀).writable, (hone.entry i₀).zeroCopy]
    exact h.staged
  kin j hj := by
    have hkin := h.kin j ((hst.stems j).mp hj)
    exact (hone.entry i₀).symm.trans (hkin.trans (hst.entry j))
  pos := halike.pos
  len := halike.len
  saved := hsaved
  held _ := ⟨i, hi, (hst.stems i).mpr hstems⟩

/--
What `fd_flush` leaves of everything but the table.
-/
structure Flushed (st st' : LxState) (s : FsState) : Prop where
  fs : st'.fs = s
  scratch : st'.scratch = st.scratch
  dirList : st'.dirList = st.dirList
  low : st'.low = st.low
  poolBase : st'.poolBase = st.poolBase

theorem flushed_touch (st : LxState) (d : LxData) (off k : Nat) : Flushed st (st.touch d off k) st.fs := by
  cases d <;> exact ⟨rfl, rfl, rfl, rfl, rfl⟩

theorem flushed (st : LxState) (i : Fin linuxMaxFd)
    : Flushed st (fdFlush st i)
        (if (st.lfd i).Unsaved then
          (fsWriteFile st.fs (st.lfd i).path (st.getData (st.lfd i).data 0 (st.lfd i).len)).2
        else
          st.fs) := by
  have htouch := flushed_touch st (st.lfd i).data 0 (st.lfd i).len
  unfold fdFlush
  dsimp only
  split
  . next hunsaved =>
    rw [if_pos (show (st.lfd i).Unsaved from hunsaved)]
    refine ⟨?_, htouch.scratch, htouch.dirList, htouch.low, htouch.poolBase⟩
    show (fsWriteFile (st.touch _ _ _).fs _ _).2 = _
    rw [htouch.fs]
  . next hsaved =>
    rw [if_neg (show ¬(st.lfd i).Unsaved from hsaved)]
    exact ⟨rfl, rfl, rfl, rfl, rfl⟩

theorem writeBack (h : Tracks n i₀ last unsaved st one) (hstems : Stems n st i)
    (hunsaved : (st.lfd i).Unsaved) (hlen : (st.lfd i).len = last.len)
    : Flushed one (writeBack one i₀) (fdFlush st i).fs := by
  have hkin := h.kin i hstems
  have hw : (one.lfd i₀).writable = true := hkin.writable.symm.trans hunsaved.2.1
  have hdata : (st.lfd i).data = (one.lfd i₀).data := hkin.data (h.staged hw)
  have hone := flushed (one.setFd i₀ { one.lfd i₀ with dirty := true }) i₀
  rw [if_pos] at hone
  . refine ⟨?_, hone.scratch, hone.dirList, hone.low, hone.poolBase⟩
    show (fdFlush (one.setFd i₀ { one.lfd i₀ with dirty := true }) i₀).fs = _
    rw [hone.fs, (flushed st i).fs, if_pos hunsaved]
    simp only [LxState.lfd_setFd, ↓reduceIte]
    have hget : (one.setFd i₀ { one.lfd i₀ with dirty := true }).getData (one.lfd i₀).data 0
          (one.lfd i₀).len
        = st.getData (st.lfd i).data 0 (st.lfd i).len := by
      rw [h.len, ← hlen, ← hdata]
      show LxState.getData { one with lfd := _ } _ _ _ = _
      unfold LxState.getData LxState.dataMem
      dsimp only
      rw [h.fs, h.scratch, h.dirList, h.low, h.poolBase]
    rw [hget, ← hkin.path]
    show (fsWriteFile one.fs _ _).2 = _
    rw [h.fs]
  . simp only [LxState.lfd_setFd, ↓reduceIte]
    refine ⟨rfl, hw, ?_⟩
    rw [h.staged hw]
    decide

theorem lfd_writeBack (one : LxState) (i₀ : Fin linuxMaxFd)
    : (TanjaOS.writeBack one i₀).lfd i₀ = { one.lfd i₀ with dirty := false } := by
  unfold TanjaOS.writeBack
  rw [lfd_fdFlush]
  simp

theorem given {k : Fin linuxMaxFd} {st' one' : LxState} {f : LinuxFd} {unsaved' : Bool}
    (h : Tracks n i₀ last unsaved st one)
    (hfs : one'.fs = st'.fs) (hst : Flushed st st' st'.fs) (hone : Flushed one one' one'.fs)
    (hlfd : one'.lfd i₀ = { one.lfd i₀ with dirty := (one'.lfd i₀).dirty })
    (hk : st'.lfd = fun j => if j = k then f else st.lfd j)
    (hf : f.used = true → (one.lfd i₀).Same f)
    (hsaved : (one'.lfd i₀).Unsaved → unsaved')
    (hheld : unsaved' → ∃ j, 3 ≤ j.val ∧ Stems n st' j)
    : Tracks n i₀ last unsaved' st' one' where
  fs := hfs
  scratch := by rw [hone.scratch, hst.scratch, h.scratch]
  dirList := by rw [hone.dirList, hst.dirList, h.dirList]
  low := by rw [hone.low, hst.low, h.low]
  poolBase := by rw [hone.poolBase, hst.poolBase, h.poolBase]
  staged := by
    rw [hlfd]
    exact h.staged
  kin j hj := by
    have hsame : (one.lfd i₀).Same (st'.lfd j) := by
      unfold Stems at hj
      rw [hk] at hj ⊢
      dsimp only at hj ⊢
      split
      . next hjk =>
        rw [if_pos hjk] at hj
        exact hf hj.1
      . next hjk =>
        rw [if_neg hjk] at hj
        exact h.kin j hj
    rw [hlfd]
    exact ⟨hsame.used, hsame.isDir, hsame.writable, hsame.append, hsame.zeroCopy, hsame.path,
      hsame.data, hsame.cap, hsame.slot, hsame.opened⟩
  pos := by
    rw [hlfd]
    exact h.pos
  len := by
    rw [hlfd]
    exact h.len
  saved := hsaved
  held := hheld

theorem Flushed.release (st : LxState) (s : Option (Fin lxWriteSlots))
    : Flushed st (slotRelease st s) st.fs := by
  cases s <;> exact ⟨rfl, rfl, rfl, rfl, rfl⟩

theorem Flushed.refl (st : LxState) : Flushed st st st.fs :=
  ⟨rfl, rfl, rfl, rfl, rfl⟩

theorem sysClose_flushed {fd : Nat} (hget : fdGet st fd = some i)
    : (sysClose st fd).1 = 0
        ∧ Flushed st (sysClose st fd).2 (fdFlush st i).fs
        ∧ (sysClose st fd).2.lfd = fun j =>
            if j = i then { st.lfd i with dirty := false, slot := none, used := false }
            else st.lfd j := by
  have hflush := flushed st i
  unfold sysClose
  rw [hget]
  dsimp only
  refine ⟨rfl, ?_, ?_⟩
  . split
    . exact ⟨rfl, hflush.scratch, hflush.dirList, hflush.low, hflush.poolBase⟩
    . have hrelease := Flushed.release (fdFlush st i) ((fdFlush st i).lfd i).slot
      exact ⟨hrelease.fs, hrelease.scratch.trans hflush.scratch, hrelease.dirList.trans hflush.dirList,
        hrelease.low.trans hflush.low, hrelease.poolBase.trans hflush.poolBase⟩
  . funext j
    have hlfd : ∀ s, (slotRelease (fdFlush st i) s).lfd = (fdFlush st i).lfd := by simp
    split
    . rw [LxState.lfd_setFd, lfd_fdFlush]
      dsimp only
      split <;> simp
    . rw [LxState.lfd_setFd, hlfd, lfd_fdFlush]
      dsimp only
      split <;> simp

theorem close (fd : Nat) (h : Tracks n i₀ last unsaved st one)
    (hagree : CallAgrees n st last unsaved (.close fd))
    : (oneStep i₀ st one (.close fd)).1 = (lxStep st (.close fd)).1
        ∧ Tracks n i₀ last (nextUnsaved st unsaved (.close fd)) (lxStep st (.close fd)).2
            (oneStep i₀ st one (.close fd)).2 := by
  obtain ⟨i, hget, hstems, hlen, hlast⟩ := hagree
  obtain ⟨hret, hclosed, hlfd⟩ := sysClose_flushed hget
  have hclosed' : Flushed st (sysClose st fd).2 (sysClose st fd).2.fs :=
    ⟨rfl, hclosed.scratch, hclosed.dirList, hclosed.low, hclosed.poolBase⟩
  have hgone : ({ st.lfd i with dirty := false, slot := none, used := false } : LinuxFd).used = true →
      (one.lfd i₀).Same { st.lfd i with dirty := false, slot := none, used := false } := by
    intro hused
    contradiction
  refine ⟨?_, ?_⟩
  . show LxResult.mk 0 [] = ⟨(sysClose st fd).1, []⟩
    rw [hret]
  . unfold oneStep nextUnsaved lxStep lxStep.plain
    dsimp only
    rw [hget]
    dsimp only
    by_cases hunsaved : (st.lfd i).Unsaved
    . have hback := h.writeBack hstems hunsaved (hlen hunsaved)
      rw [if_pos hunsaved]
      refine h.given (hback.fs.trans hclosed.fs.symm) hclosed' ⟨rfl, hback.scratch, hback.dirList,
        hback.low, hback.poolBase⟩ ?_ hlfd hgone ?_ ?_
      . rw [lfd_writeBack]
      . intro hu
        rw [lfd_writeBack] at hu
        exact absurd hu.1 Bool.false_ne_true
      . simp [hunsaved]
    . rw [if_neg hunsaved]
      have hfs : one.fs = (sysClose st fd).2.fs := by
        rw [hclosed.fs, (flushed st i).fs, if_neg hunsaved]
        exact h.fs
      refine h.given hfs hclosed' (.refl one) rfl hlfd hgone ?_ ?_
      . intro hu
        simpa [hunsaved] using h.saved hu
      . intro hu
        obtain ⟨j, hj, hji, hkin⟩ := hlast (by simpa [hunsaved] using hu) hunsaved
        refine ⟨j, hj, ?_⟩
        unfold Stems at hkin ⊢
        rw [hlfd]
        simpa [hji] using hkin

theorem dup (fd : Nat) (h : Tracks n i₀ last unsaved st one)
    (hagree : CallAgrees n st last unsaved (.dup fd))
    : (oneStep i₀ st one (.dup fd)).1 = (lxStep st (.dup fd)).1
        ∧ Tracks n i₀ last (nextUnsaved st unsaved (.dup fd)) (lxStep st (.dup fd)).2
            (oneStep i₀ st one (.dup fd)).2 := by
  obtain ⟨i, hget, hstems⟩ := hagree
  refine ⟨rfl, ?_⟩
  show Tracks n i₀ last unsaved (sysDup st fd).2 one
  unfold sysDup
  rw [hget]
  dsimp only
  split
  . exact h
  . next k hfree =>
    obtain ⟨hk, hunused⟩ := fdFree_some hfree
    refine h.given h.fs ⟨rfl, rfl, rfl, rfl, rfl⟩ (.refl one) rfl rfl (fun _ => h.kin i hstems) h.saved ?_
    intro _
    refine ⟨k, hk, ?_⟩
    unfold Stems at hstems ⊢
    simpa using hstems

theorem dup2 (oldfd newfd : Nat) (h : Tracks n i₀ last unsaved st one)
    (hagree : CallAgrees n st last unsaved (.dup2 oldfd newfd))
    : (oneStep i₀ st one (.dup2 oldfd newfd)).1 = (lxStep st (.dup2 oldfd newfd)).1
        ∧ Tracks n i₀ last (nextUnsaved st unsaved (.dup2 oldfd newfd))
            (lxStep st (.dup2 oldfd newfd)).2 (oneStep i₀ st one (.dup2 oldfd newfd)).2 := by
  obtain ⟨⟨i, hget, hstems⟩, hnew, hflush⟩ := hagree
  obtain ⟨hi, hfd, hused⟩ := fdGet_some hget
  let Flushes : Prop := ∃ k : Fin linuxMaxFd, k.val = newfd ∧ newfd ≠ oldfd ∧ (st.lfd k).used
    ∧ (st.lfd k).Unsaved
  show LxResult.mk newfd [] = ⟨(sysDup2 st oldfd newfd).1, []⟩
    ∧ Tracks n i₀ last (unsaved && !decide Flushes) (sysDup2 st oldfd newfd).2
      (if Flushes then TanjaOS.writeBack one i₀ else one)
  unfold sysDup2
  rw [hget]
  dsimp only
  rw [dif_pos hnew]
  by_cases heq : newfd = oldfd
  . rw [if_pos heq]
    have hnot : ¬Flushes := by
      rintro ⟨_, _, hne, _⟩
      exact hne heq
    refine ⟨rfl, ?_⟩
    simpa [hnot] using h
  . rw [if_neg heq]
    refine ⟨rfl, ?_⟩
    dsimp only
    generalize hk : (⟨newfd, hnew⟩ : Fin linuxMaxFd) = k
    have hval : k.val = newfd := by rw [← hk]
    have hik : i ≠ k := by
      rintro rfl
      exact heq (hval.symm.trans hfd)
    have hother : ∀ j, j ≠ k → (if (st.lfd k).used then fdFlush st k else st).lfd j = st.lfd j := by
      intro j hj
      split
      . rw [lfd_fdFlush]
        simp [hj]
      . rfl
    have hkin := h.kin i hstems
    have hsame : (one.lfd i₀).Same
        { (if (st.lfd k).used then fdFlush st k else st).lfd i with used := true } := by
      rw [hother i hik]
      exact ⟨hused.symm.trans hkin.used, hkin.isDir, hkin.writable, hkin.append, hkin.zeroCopy,
        hkin.path, hkin.data, hkin.cap, hkin.slot, hkin.opened⟩
    have hheld : ∃ j, 3 ≤ j.val ∧ Stems n ((if (st.lfd k).used then fdFlush st k else st).setFd k
        { (if (st.lfd k).used then fdFlush st k else st).lfd i with used := true }) j := by
      refine ⟨i, hi, ?_⟩
      unfold Stems at hstems ⊢
      simp only [LxState.lfd_setFd, hik, ↓reduceIte]
      rw [hother i hik]
      exact hstems
    have hfl := flushed st k
    by_cases hflushes : (st.lfd k).used ∧ (st.lfd k).Unsaved
    . have hex : Flushes := ⟨k, hval, heq, hflushes⟩
      obtain ⟨hopened, hlen⟩ := hflush k hval heq hflushes.1 hflushes.2
      have hback := h.writeBack ⟨hflushes.1, hopened⟩ hflushes.2 hlen
      rw [if_pos hex]
      rw [if_pos hflushes.1] at hsame hheld hother ⊢
      refine h.given (k := k) hback.fs ⟨rfl, hfl.scratch, hfl.dirList, hfl.low, hfl.poolBase⟩ ⟨rfl, hback.scratch,
        hback.dirList, hback.low, hback.poolBase⟩ ?_ ?_ (fun _ => hsame) ?_ (fun _ => hheld)
      . rw [lfd_writeBack]
      . funext j
        rw [LxState.lfd_setFd]
        dsimp only
        split
        . rfl
        . next hj => exact hother j hj
      . intro hu
        rw [lfd_writeBack] at hu
        exact absurd hu.1 Bool.false_ne_true
    . have hex : ¬Flushes := by
        rintro ⟨k', hval', _, hused'⟩
        rw [Fin.ext (hval'.trans hval.symm)] at hused'
        exact hflushes hused'
      have hquiet : Flushed st (if (st.lfd k).used then fdFlush st k else st) st.fs := by
        split
        . next hkused =>
          rw [if_neg (fun hu => hflushes ⟨hkused, hu⟩)] at hfl
          exact hfl
        . exact .refl st
      rw [if_neg hex]
      refine h.given (k := k) (h.fs.trans hquiet.fs.symm) ⟨rfl, hquiet.scratch, hquiet.dirList, hquiet.low,
        hquiet.poolBase⟩ (.refl one) rfl ?_ (fun _ => hsame) ?_ (fun _ => hheld)
      . funext j
        rw [LxState.lfd_setFd]
        dsimp only
        split
        . rfl
        . next hj => exact hother j hj
      . intro hu
        simpa [hex] using h.saved hu

theorem step {c : LxCall} (h : Tracks n i₀ last unsaved st one) (hle : 3 ≤ i₀.val)
    (hagree : CallAgrees n st last unsaved c)
    : (oneStep i₀ st one c).1 = (lxStep st c).1
        ∧ Tracks n i₀ (nextLast st last c) (nextUnsaved st unsaved c) (lxStep st c).2
            (oneStep i₀ st one c).2 := by
  cases c with
  | read fd count line =>
    obtain ⟨i, hget, hstems, hpos, hlen⟩ := hagree
    obtain ⟨hres, halike⟩ := (h.alike hstems hpos hlen).sysRead hget hle count line
    have hused : fdGet one i₀.val = some i₀ :=
      fdGet_val hle ((h.kin i hstems).used.symm.trans hstems.1)
    have hone : SameTables one (sysRead one i₀.val count line).2 := .sysRead _ _ _
    refine ⟨hres, ?_⟩
    have := h.moved _ (fdGet_some hget).1 hstems (.sysRead fd count line) hone halike (fun hu =>
      h.saved ((hone.entry i₀).symm.unsaved (by rw [SamePlace.sysRead_dirty hused]; exact id) hu))
    unfold nextLast
    dsimp only
    rw [hget]
    exact this
  | lseek fd off whence =>
    obtain ⟨i, hget, hstems, hpos, hlen⟩ := hagree
    obtain ⟨hres, halike⟩ := (h.alike hstems hpos hlen).sysLseek hget hle off whence
    have hused : fdGet one i₀.val = some i₀ :=
      fdGet_val hle ((h.kin i hstems).used.symm.trans hstems.1)
    have hone : SameTables one (sysLseek one i₀.val off whence).2 := .sysLseek _ _ _
    refine ⟨congrArg (fun r => LxResult.mk r []) hres, ?_⟩
    have := h.moved _ (fdGet_some hget).1 hstems (.sysLseek fd off whence) hone halike (fun hu =>
      h.saved ((hone.entry i₀).symm.unsaved (by rw [SamePlace.sysLseek_dirty hused]; exact id) hu))
    unfold nextLast
    dsimp only
    rw [hget]
    exact this
  | write fd buf =>
    obtain ⟨i, hget, hstems, hpos, hlen⟩ := hagree
    obtain ⟨hres, halike, hdirty⟩ :=
      (h.alike hstems hpos hlen).sysWrite hget hle h.staged buf
    have hone : SameTables one (sysWrite one i₀.val buf).2 := .sysWrite _ _
    refine ⟨congrArg (fun r => LxResult.mk r []) hres, ?_⟩
    have := h.moved (unsaved || decide ((sysWrite st fd buf).2.lfd i).Unsaved)
      (fdGet_some hget).1 hstems (.sysWrite fd buf) hone halike (by
        intro hu
        rw [Bool.or_eq_true, decide_eq_true_eq]
        obtain hbefore | hafter := hdirty hu.1
        . exact .inl (h.saved ((hone.entry i₀).symm.unsaved (fun _ => hbefore) hu))
        . exact .inr (halike.same.unsaved (fun _ => hafter) hu))
    unfold nextLast nextUnsaved
    dsimp only
    rw [hget]
    exact this
  | close fd => exact h.close fd hagree
  | dup fd => exact h.dup fd hagree
  | dup2 oldfd newfd => exact h.dup2 oldfd newfd hagree
  | _ => exact hagree.elim

theorem run {cs : List LxCall} (h : Tracks n i₀ last unsaved st one) (hle : 3 ≤ i₀.val)
    (hagree : AllAgree n st last unsaved cs)
    : (runOne i₀ st one cs).1 = (runAll st cs).1
        ∧ ∃ last unsaved, Tracks n i₀ last unsaved (runAll st cs).2 (runOne i₀ st one cs).2 := by
  induction cs generalizing st one last unsaved with
  | nil => exact ⟨rfl, last, unsaved, h⟩
  | cons c cs ih =>
    obtain ⟨hres, hnext⟩ := h.step hle hagree.1
    obtain ⟨hrest, last', unsaved', hend⟩ := ih hnext hagree.2
    refine ⟨?_, last', unsaved', hend⟩
    show (oneStep i₀ st one c).1 :: _ = (lxStep st c).1 :: _
    rw [hres]
    exact congrArg _ hrest

end Tracks

theorem tracks_sysOpen {st : LxState} {path : CStr} {flags : UInt32} {i₀ : Fin linuxMaxFd}
    (h : Stamped st) (hopen : (sysOpen st path flags).1 = i₀.val)
    : Tracks (st.opens + 1) i₀ ((sysOpen st path flags).2.lfd i₀)
        (decide ((sysOpen st path flags).2.lfd i₀).Unsaved) (sysOpen st path flags).2
        (sysOpen st path flags).2 := by
  obtain ⟨hfree, _, hused, _⟩ := sysOpen_handed hopen
  obtain ⟨hle, hunused⟩ := fdFree_some hfree
  have hnot : (sysOpen st path flags).2 ≠ st := by
    intro heq
    rw [heq, hunused] at hused
    contradiction
  obtain heq | ⟨_, i, hfree', hother, hopened, _⟩ := sysOpen_entries st path flags
  . exact absurd heq hnot
  . cases hfree.symm.trans hfree'
    refine ⟨rfl, rfl, rfl, rfl, rfl, (sysOpen_staged hfree).resolve_left hnot, ?_, rfl, rfl, by simp,
      fun _ => ⟨i₀, hle, hused, hopened⟩⟩
    intro j hj
    by_cases hji : j = i₀
    . rw [hji]
      exact .refl _
    . obtain ⟨_, hstamp⟩ := hj
      rw [hother j hji] at hstamp
      have := h j
      omega

/--
The call is through a descriptor that stems from call `n`.
-/
def Through (n : Nat) (st : LxState) : LxCall → Prop
  | .read fd _ _ | .write fd _ | .lseek fd _ _ | .close fd | .dup fd | .dup2 fd _ =>
    ∃ i, fdGet st fd = some i ∧ Stems n st i
  | _ => False

def AllThrough (n : Nat) (st : LxState) : List LxCall → Prop
  | [] => True
  | c :: cs => Through n st c ∧ AllThrough n (lxStep st c).2 cs

theorem duplicates_share (st₀ st : LxState) (path : CStr) (flags : UInt32) (i₀ : Fin linuxMaxFd)
    (cs : List LxCall) (hreach : LxRun (fun _ _ => True) st₀.boot st)
    (hopen : (sysOpen st path flags).1 = i₀.val)
    (hagree : AllAgree (st.opens + 1) (sysOpen st path flags).2 ((sysOpen st path flags).2.lfd i₀)
      (decide ((sysOpen st path flags).2.lfd i₀).Unsaved) cs)
    : (runOne i₀ (sysOpen st path flags).2 (sysOpen st path flags).2 cs).1
          = (runAll (sysOpen st path flags).2 cs).1
        ∧ (runOne i₀ (sysOpen st path flags).2 (sysOpen st path flags).2 cs).2.fs
          = (runAll (sysOpen st path flags).2 cs).2.fs
        ∧ ((∀ j, 3 ≤ j.val → ¬Stems (st.opens + 1) (runAll (sysOpen st path flags).2 cs).2 j) →
          (sysClose (runOne i₀ (sysOpen st path flags).2 (sysOpen st path flags).2 cs).2 i₀.val).2.fs
            = (runAll (sysOpen st path flags).2 cs).2.fs) := by
  have hle : 3 ≤ i₀.val := (fdFree_some (sysOpen_handed hopen).1).1
  obtain ⟨hres, last, unsaved, hend⟩ := (tracks_sysOpen (.run hreach) hopen).run hle hagree
  refine ⟨hres, hend.fs, fun hnone => ?_⟩
  have hsaved : ¬((runOne i₀ (sysOpen st path flags).2 (sysOpen st path flags).2 cs).2.lfd i₀).Unsaved := by
    intro hu
    obtain ⟨j, hj, hstems⟩ := hend.held (hend.saved hu)
    exact hnone j hj hstems
  cases hget : fdGet (runOne i₀ (sysOpen st path flags).2 (sysOpen st path flags).2 cs).2 i₀.val with
  | none =>
    unfold sysClose
    rw [hget]
    exact hend.fs
  | some i =>
    have hi : i = i₀ := Fin.ext (fdGet_some hget).2.1
    obtain ⟨_, hclosed, _⟩ := Tracks.sysClose_flushed hget
    rw [hclosed.fs, (Tracks.flushed _ i).fs, hi, if_neg hsaved]
    exact hend.fs

section Example

/-!
`/a` is opened for writing and duplicated. Either the first descriptor is closed and the second one
writes, or both write.
-/

instance (n : Nat) (st : LxState) (i : Fin linuxMaxFd) : Decidable (Stems n st i) :=
  inferInstanceAs (Decidable (_ ∧ _))

instance (n : Nat) (st : LxState) (last : LinuxFd) (unsaved : Bool) (c : LxCall)
    : Decidable (CallAgrees n st last unsaved c) := by
  cases c <;> unfold CallAgrees <;> infer_instance

instance decidableAllAgree (n : Nat) (st : LxState) (last : LinuxFd) (unsaved : Bool)
    : (cs : List LxCall) → Decidable (AllAgree n st last unsaved cs)
  | [] => isTrue trivial
  | c :: cs =>
    have := decidableAllAgree n (lxStep st c).2 (nextLast st last c) (nextUnsaved st unsaved c) cs
    inferInstanceAs (Decidable (_ ∧ _))

def handOver : List LxCall :=
  [.dup 3, .close 3, .write 4 ⟨[97], by decide⟩, .write 4 ⟨[98], by decide⟩, .close 4]

def bothWrite : List LxCall :=
  [.dup 3, .write 3 ⟨[97], by decide⟩, .write 4 ⟨[98], by decide⟩, .close 4]

end Example

theorem duplicates_share_handOver
    : (runOne ⟨3, by decide⟩ noteOpen noteOpen handOver).2.fs = (runAll noteOpen handOver).2.fs
        ∧ (runAll noteOpen handOver).2.fs.fileBytes ⟨0, by decide⟩ = [97, 98] :=
  ⟨(duplicates_share linuxStart linuxStart notePath (oWronly ||| oCreat) ⟨3, by decide⟩ handOver
    Relation.ReflTransGen.refl (by decide +kernel) (by decide +kernel)).2.1, by decide +kernel⟩

theorem duplicates_share_bothWrite
    : ¬∀ (st₀ st : LxState) (path : CStr) (flags : UInt32) (i₀ : Fin linuxMaxFd) (cs : List LxCall),
        LxRun (fun _ _ => True) st₀.boot st → (sysOpen st path flags).1 = i₀.val →
        AllThrough (st.opens + 1) (sysOpen st path flags).2 cs →
        (runOne i₀ (sysOpen st path flags).2 (sysOpen st path flags).2 cs).1
            = (runAll (sysOpen st path flags).2 cs).1
          ∧ (runOne i₀ (sysOpen st path flags).2 (sysOpen st path flags).2 cs).2.fs
            = (runAll (sysOpen st path flags).2 cs).2.fs := by
  intro h
  have hthrough : AllThrough (linuxStart.opens + 1) (sysOpen linuxStart notePath (oWronly ||| oCreat)).2
      bothWrite :=
    ⟨⟨⟨3, by decide⟩, by decide +kernel⟩, ⟨⟨3, by decide⟩, by decide +kernel⟩,
      ⟨⟨4, by decide⟩, by decide +kernel⟩, ⟨⟨4, by decide⟩, by decide +kernel⟩, trivial⟩
  have hfs := (h linuxStart linuxStart notePath (oWronly ||| oCreat) ⟨3, by decide⟩ bothWrite
    Relation.ReflTransGen.refl (by decide +kernel) hthrough).2
  have hone : (runOne ⟨3, by decide⟩ noteOpen noteOpen bothWrite).2.fs.fileBytes ⟨0, by decide⟩
      = [97, 98] := by
    decide +kernel
  have hall : (runAll noteOpen bothWrite).2.fs.fileBytes ⟨0, by decide⟩ = [98] := by decide +kernel
  have hsame : (runOne ⟨3, by decide⟩ noteOpen noteOpen bothWrite).2.fs
      = (runAll noteOpen bothWrite).2.fs := hfs
  rw [hsame, hall] at hone
  contradiction

end TanjaOS
