import TanjaOS.Exec.Elf.Lemmas

/-!
The loader accesses what it may exactly if the image `Loads`.
-/

open Lib

namespace TanjaOS
namespace Applet

open Checked

variable {e : Applet}

theorem headers_inside {m : Mem} {p : Nat × (Nat → Nat)} (n : Nat) {i off cur : Nat}
    {sec : Nat → Nat} (h : e.SectionsIn m n off cur) (hplace : e.place m n i off cur sec = some p)
    : ∀ j < n, e.Inside (off + 40 * j + 8) 16 := by
  induction n generalizing i off cur sec with
  | zero =>
    intro j hj
    omega
  | succ n ih =>
    unfold SectionsIn at h
    unfold place at hplace
    dsimp only at h hplace
    split at hplace
    . cases hplace
    . next hslot =>
      intro j hj
      cases j with
      | zero => exact h.1
      | succ j =>
        have := ih (h.2.2.2 hslot) hplace j (by omega)
        rwa [show off + 40 * (j + 1) = off + 40 + 40 * j by omega]

/--
When -1 is returned `program_brk` is what it was, and all that has been written is in the region.
-/
def Returns (e : Applet) (m : Mem) (r : ElfResult) : Prop :=
  (r.entry = none → r.brk = e.brk) ∧ e.Same m r.mem

theorem needs_link {m m' : Mem} {shoff nsec cur : Nat} {sec : Nat → Nat} (h : e.Same m m')
    (hin : ∀ j < nsec, e.Inside (shoff + 40 * j + 8) 16)
    : (link e.guard e shoff nsec cur sec m').Needs
        (e.SymtabIn m shoff nsec nsec 0 ∧ ∀ tab, e.symtab m shoff nsec nsec 0 = some tab →
          e.GroupsIn m nsec sec tab shoff nsec 0 ∧ e.EntryIn m nsec tab tab.count 0)
        (e.Returns m) := by
  unfold link
  apply needs_bind (needs_findSymtab nsec h hin)
  intro r hr
  rw [hr]
  cases e.symtab m shoff nsec nsec 0 with
  | none =>
    apply Needs.of_iff (c := True)
    . exact needs_pure ⟨fun _ => rfl, h⟩
    . simp
  | some tab =>
    apply Needs.of_iff
    . apply needs_bind (needs_relocateAll nsec h)
      intro p hp
      apply needs_bind (d := True) (needs_findEntry tab.count hp)
      intro _ _
      split
      . exact needs_pure ⟨by simp, hp⟩
      . exact needs_pure ⟨fun _ => rfl, hp⟩
    . simp

theorem needs_elfRun {m m' : Mem} (h : e.Same m m')
    : (elfRun e.guard e m').Needs (e.Loads m) (e.Returns m) := by
  unfold elfRun Loads
  apply needs_bind (needs_header h)
  intro r hr
  rw [hr]
  cases e.headerOf m with
  | none =>
    apply Needs.of_iff (c := True)
    . exact needs_pure ⟨fun _ => rfl, h⟩
    . simp
  | some p =>
    obtain ⟨shoff, nsec⟩ := p
    apply Needs.of_iff
    . apply needs_bind (d := ∀ cur sec,
        e.place m nsec 0 shoff e.brk (fun _ => 0) = some (cur, sec) → cur ≤ e.limit →
          e.SymtabIn m shoff nsec nsec 0 ∧ ∀ tab, e.symtab m shoff nsec nsec 0 = some tab →
            e.GroupsIn m nsec sec tab shoff nsec 0 ∧ e.EntryIn m nsec tab tab.count 0)
        (needs_placeSections nsec h e.brk_lt).and_cond
      intro r hr
      obtain ⟨hsections, hr⟩ := hr
      cases hplace : e.place m nsec 0 shoff e.brk (fun _ => 0) with
      | none =>
        rw [hplace] at hr
        cases r with
        | placed _ _ _ => exact hr.elim
        | refused m' =>
          apply Needs.of_iff (c := True)
          . exact needs_pure ⟨fun _ => rfl, hr⟩
          . simp
      | some p =>
        rw [hplace] at hr
        cases r with
        | refused _ => exact hr.elim
        | placed cur sec m' =>
          obtain ⟨rfl, hsame⟩ := hr
          apply Needs.of_iff
          . apply needs_ite
            . intro _
              exact needs_pure ⟨fun _ => rfl, hsame⟩
            . intro _
              exact needs_link hsame (headers_inside nsec hsections hplace)
          . simp
    . simp

/--
The loader accesses the image, the region and the tables only where it may, and it undoes what it
has to, exactly if the image `Loads`.
-/
theorem elfRun_safe (e : Applet) (m : Mem) : (elfRun e.guard e m).Yields (e.Returns m) ↔ e.Loads m :=
  (needs_elfRun (.refl m)).yields_iff

/--
An object file of one section, which is the file itself, with an alignment of 2 GiB.
-/
def farImage : Bytes :=
  [0x7F, 0x45, 0x4C, 0x46, 1, 1, 1, 0, 0, 0, 0, 0, 0, 0, 0, 0] ++ [1, 0, 3, 0] ++ le32 1 ++ le32 0
    ++ le32 0 ++ le32 52 ++ le32 0 ++ [52, 0, 0, 0, 0, 0, 40, 0, 1, 0, 0, 0]
    ++ le32 0 ++ le32 1 ++ le32 2 ++ le32 0 ++ le32 0 ++ le32 92 ++ le32 0 ++ le32 0
    ++ le32 0x80000000 ++ le32 0

def farApplet : Applet where
  img := 0x200000
  size := 92
  brk := 0x1000000
  limit := 0x4000000
  exports := []
  img_le := by decide
  le_brk := by decide
  brk_lt := by decide
  limit_lt := by decide
  disjoint := by decide
  size_lt := by decide
  names := by simp

/--
Its section is copied to 2 GiB, far above the region.
-/
theorem elfRun_far
    : let m : Mem := Mem.writeBytes (fun _ => 0) 0x200000 farImage
      elfRun farApplet.guard farApplet m = .error .store
        ∧ ¬(elfRun farApplet.guard farApplet m).Yields (farApplet.Returns m) := by
  have h : elfRun farApplet.guard farApplet (Mem.writeBytes (fun _ => 0) 0x200000 farImage)
      = .error .store := by
    rfl
  refine ⟨h, ?_⟩
  rw [h]
  intro ⟨_, hc, _⟩
  cases hc

end Applet
end TanjaOS
