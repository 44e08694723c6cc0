import TanjaOS.Linux.Lemmas

/-!
Who holds the staging slots: what each call does to the descriptor table and to
`lx_write_slot_used`, and when the two stay in step.
-/

open Lib

namespace TanjaOS

/--
The descriptor stages its bytes in slot `s`.
-/
def LinuxFd.Holds (f : LinuxFd) (s : Fin lxWriteSlots) : Prop :=
  f.used ∧ f.writable ∧ f.slot = some s

instance (f : LinuxFd) (s : Fin lxWriteSlots) : Decidable (f.Holds s) :=
  inferInstanceAs (Decidable (_ ∧ _))

/--
Slots in use are those that are held, and holders of one slot go back to one call of `sys_open`.
-/
structure SlotsOwned (st : LxState) : Prop where
  used : ∀ s, st.slotUsed s = true ↔ ∃ i, (st.lfd i).Holds s
  shared : ∀ i j s, (st.lfd i).Holds s → (st.lfd j).Holds s →
    (st.lfd i).opened = (st.lfd j).opened

/--
The slots are in step with the table, and an opened entry that has a slot is one for writing.
-/
structure SlotInv (st : LxState) : Prop where
  owned : SlotsOwned st
  writable : ∀ i s, 3 ≤ i.val → (st.lfd i).used → (st.lfd i).slot = some s → (st.lfd i).writable

namespace SlotInv

variable {st st' : LxState} {i : Fin linuxMaxFd}

theorem same (h : SlotInv st) (hst : SameTables st st') : SlotInv st' := by
  have hholds : ∀ j s, (st'.lfd j).Holds s ↔ (st.lfd j).Holds s := by
    intro j s
    have hj := hst.entry j
    unfold LinuxFd.Holds
    rw [hj.used, hj.writable, hj.slot]
  refine ⟨⟨?_, ?_⟩, ?_⟩
  . intro s
    simp only [hst.slotUsed, hholds]
    exact h.owned.used s
  . intro j k s hj hk
    rw [hholds] at hj hk
    rw [(hst.entry j).opened, (hst.entry k).opened]
    exact h.owned.shared j k s hj hk
  . intro j s hle hused hslot
    rw [(hst.entry j).used] at hused
    rw [(hst.entry j).slot] at hslot
    rw [(hst.entry j).writable]
    exact h.writable j s hle hused hslot

theorem replace {f : LinuxFd} (h : SlotInv st)
    (hfd : st'.lfd = fun j => if j = i then f else st.lfd j)
    (hused : ∀ s, st'.slotUsed s = true ↔ (∃ j, j ≠ i ∧ (st.lfd j).Holds s) ∨ f.Holds s)
    (hshared : ∀ s j, j ≠ i → f.Holds s → (st.lfd j).Holds s → (st.lfd j).opened = f.opened)
    (hwritable : ∀ s, f.used → f.slot = some s → f.writable)
    : SlotInv st' := by
  have hnew : st'.lfd i = f := by simp [hfd]
  have hold : ∀ j, j ≠ i → st'.lfd j = st.lfd j := by
    intro j hj
    simp [hfd, hj]
  refine ⟨⟨?_, ?_⟩, ?_⟩
  . intro s
    rw [hused]
    constructor
    . rintro (⟨j, hj, hholds⟩ | hholds)
      . exact ⟨j, by rwa [hold j hj]⟩
      . exact ⟨i, by rwa [hnew]⟩
    . rintro ⟨j, hholds⟩
      by_cases hj : j = i
      . rw [hj, hnew] at hholds
        exact .inr hholds
      . rw [hold j hj] at hholds
        exact .inl ⟨j, hj, hholds⟩
  . intro j k s hjs hks
    by_cases hj : j = i
    . by_cases hk : k = i
      . rw [hj, hk]
      . rw [hj, hnew] at hjs ⊢
        rw [hold k hk] at hks ⊢
        exact (hshared s k hk hjs hks).symm
    . by_cases hk : k = i
      . rw [hk, hnew] at hks ⊢
        rw [hold j hj] at hjs ⊢
        exact hshared s j hj hks hjs
      . rw [hold j hj] at hjs ⊢
        rw [hold k hk] at hks ⊢
        exact h.owned.shared j k s hjs hks
  . intro j s hle hjused hslot
    by_cases hj : j = i
    . rw [hj, hnew] at hjused hslot ⊢
      exact hwritable s hjused hslot
    . rw [hold j hj] at hjused hslot ⊢
      exact h.writable j s hle hjused hslot

theorem used_iff {s : Fin lxWriteSlots} (h : SlotInv st) (hi : ¬(st.lfd i).Holds s)
    : st.slotUsed s = true ↔ ∃ j, j ≠ i ∧ (st.lfd j).Holds s := by
  rw [h.owned.used s]
  constructor
  . rintro ⟨j, hholds⟩
    refine ⟨j, ?_, hholds⟩
    rintro rfl
    exact hi hholds
  . rintro ⟨j, _, hholds⟩
    exact ⟨j, hholds⟩

theorem enter {f : LinuxFd} (h : SlotInv st) (hi : (st.lfd i).used = false)
    (hf : f.used = false ∨ f.slot = none)
    : SlotInv (st.setFd i f) := by
  have hnot : ∀ s, ¬f.Holds s := by
    rintro s ⟨hused, _, hslot⟩
    obtain hfalse | hnone := hf
    . rw [hfalse] at hused
      contradiction
    . rw [hnone] at hslot
      contradiction
  apply h.replace rfl
  . intro s
    simp only [LxState.slotUsed_setFd, hnot, or_false]
    apply h.used_iff
    rintro ⟨hused, _⟩
    rw [hi] at hused
    contradiction
  . intro s j _ hholds
    exact absurd hholds (hnot s)
  . intro s hused hslot
    obtain hfalse | hnone := hf
    . rw [hfalse] at hused
      contradiction
    . rw [hnone] at hslot
      contradiction

end SlotInv

section Steps

variable {st : LxState}

end Steps

/--
A run of calls that all meet `ok`.
-/
abbrev LxRun (ok : LxState → LxCall → Prop) : LxState → LxState → Prop :=
  Run (fun c st st' => st' = (lxStep st c).2) ok

theorem SlotInv.boot (st : LxState) : SlotInv st.boot := by
  have hnot : ∀ i s, ¬(st.boot.lfd i).Holds s := by
    rintro i s ⟨_, hwritable, _⟩
    exact absurd hwritable (by simp [LxState.boot, LinuxFd.zero])
  refine ⟨⟨?_, ?_⟩, ?_⟩
  . intro s
    constructor
    . intro hused
      exact absurd hused (by simp [LxState.boot])
    . rintro ⟨i, hi⟩
      exact absurd hi (hnot i s)
  . intro i j s hi
    exact absurd hi (hnot i s)
  . intro i s hle hused
    have : i.val < 3 := by simpa [LxState.boot] using hused
    omega

section Example

/-!
A program on a fresh filesystem opens `/a` for writing, makes it its output and closes it. Slot 0 is
then free, and `/c` is staged in it while the output still is.
-/

def LxState.fresh (s : FsState) : LxState where
  fs := s
  lfd _ := .zero
  slotUsed _ := false
  scratch _ _ := 0
  dirList _ := 0
  low _ := 0
  poolBase := 0x1000000
  mmapBase := 0x2000000
  mmapLimit := 0x3000000
  mmapNext := 0
  opens := 0
  spilled := false

def linuxStart : LxState :=
  (LxState.fresh { fsInit (.zeroed 64) with fsCurUid := 0 }).boot

def openNote : LxCall :=
  .open notePath (oWronly ||| oCreat)

def openCopy : LxCall :=
  .open copyPath (oWronly ||| oCreat)

def noteOpen : LxState :=
  (lxStep linuxStart openNote).2

end Example

end TanjaOS
