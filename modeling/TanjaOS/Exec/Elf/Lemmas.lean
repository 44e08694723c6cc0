import TanjaOS.Exec.Elf.Loads

/-!
What each part of the loader needs. Since it stores to the region only, the image that it reads is
the one it has started with.
-/

open Lib

namespace TanjaOS
namespace Applet

open Checked

variable {e : Applet}

def Same (e : Applet) (m m' : Mem) : Prop :=
  ∀ a, ¬(e.brk ≤ a ∧ a < e.limit) → m' a = m a

theorem Same.refl (m : Mem) : e.Same m m :=
  fun _ _ => rfl

theorem Inside.sub {off n i k : Nat} (h : e.Inside off n) (hle : i + k ≤ n)
    : e.Inside (off + i) k := by
  have := e.size_lt
  unfold Inside at *
  omega

theorem Inside.take {off n k : Nat} (h : e.Inside off n) (hle : k ≤ n) : e.Inside off k := by
  unfold Inside at *
  omega

theorem alignUp_lt {p a : Nat} (h : p < 2 ^ 32) : alignUp p a < 2 ^ 32 := by
  unfold alignUp
  split
  . exact h
  . apply Nat.lt_of_le_of_lt Nat.and_le_left
    exact Nat.mod_lt _ (by decide)

theorem add32_lt (x y : Nat) : add32 x y < 2 ^ 32 :=
  Nat.mod_lt _ (by decide)

theorem word_lt (m : Mem) (off : Nat) : e.word m off < 2 ^ 32 := by
  have h0 := (m ((e.img + off) % 2 ^ 32)).toNat_lt
  have h1 := (m ((e.img + (off + 1)) % 2 ^ 32)).toNat_lt
  have h2 := (m ((e.img + (off + 2)) % 2 ^ 32)).toNat_lt
  have h3 := (m ((e.img + (off + 2 + 1)) % 2 ^ 32)).toNat_lt
  unfold word half byte
  omega

theorem slotEnd_lt {cur : Nat} (s : Shdr) (slot : Slot) (h : cur < 2 ^ 32)
    : slotEnd cur s slot < 2 ^ 32 := by
  unfold slotEnd
  split
  . apply add32_lt
  . apply add32_lt
  . exact alignUp_lt h
  . exact h

section Same

variable {m m' : Mem} (h : e.Same m m')
include h

theorem Same.put {addr : Nat} {bs : Bytes} (hin : e.InRegion addr bs.length)
    : e.Same m (m'.writeBytes addr bs) := by
  intro a ha
  rw [← h a ha]
  unfold InRegion at hin
  by_cases hlt : a < addr
  . exact Mem.writeBytes_of_lt bs hlt
  . apply Mem.writeBytes_of_ge
    omega

theorem image_eq {off : Nat} (hin : e.Inside off 1)
    : m' ((e.img + off) % 2 ^ 32) = m ((e.img + off) % 2 ^ 32) := by
  apply h
  have := e.img_le
  have := e.disjoint
  unfold Inside at hin
  omega

theorem byte_eq {off : Nat} (hin : e.Inside off 1) : e.byte m' off = e.byte m off := by
  unfold byte
  rw [image_eq h hin]

theorem half_eq {off : Nat} (hin : e.Inside off 2) : e.half m' off = e.half m off := by
  unfold half
  rw [byte_eq h (hin.take (by omega)), byte_eq h (hin.sub (i := 1) (by omega))]

theorem word_eq {off : Nat} (hin : e.Inside off 4) : e.word m' off = e.word m off := by
  unfold word
  rw [half_eq h (hin.take (by omega)), half_eq h (hin.sub (i := 2) (by omega))]

theorem shdr_eq {off : Nat} (hin : e.Inside (off + 4) 32) : e.shdr m' off = e.shdr m off := by
  unfold shdr
  congr 1
  . exact word_eq h (hin.sub (i := 0) (by omega))
  . exact word_eq h (hin.sub (i := 4) (by omega))
  . exact word_eq h (hin.sub (i := 12) (by omega))
  . exact word_eq h (hin.sub (i := 16) (by omega))
  . exact word_eq h (hin.sub (i := 20) (by omega))
  . exact word_eq h (hin.sub (i := 24) (by omega))
  . exact word_eq h (hin.sub (i := 28) (by omega))

theorem rel_eq {off : Nat} (hin : e.Inside off 8) : e.rel m' off = e.rel m off := by
  unfold rel
  rw [word_eq h (hin.take (by omega)), word_eq h (hin.sub (i := 4) (by omega))]

theorem isAlloc_eq {off : Nat} (hin : e.Inside (off + 8) 16)
    : isAlloc (e.shdr m' off) = isAlloc (e.shdr m off) := by
  have heq := word_eq h (hin.take (k := 4) (by omega))
  unfold isAlloc shdr
  dsimp only
  rw [heq]

end Same

/-
The accesses
-/

theorem needs_look {off n : Nat}
    : (look e.guard off n).Needs (e.Inside off n) (fun _ => e.Inside off n) := by
  apply Needs.of_iff (c := e.guard.look (off % 2 ^ 32) n = true)
  . apply needs_check.mono
    intro _ h
    simpa [guard, Inside] using h
  . simp [guard, Inside]

theorem needs_index {i size : Nat}
    : (check (e.guard.index i size) .index).Needs (i < size) (fun _ => i < size) := by
  apply Needs.of_iff (c := e.guard.index i size = true)
  . apply needs_check.mono
    intro _ h
    simpa [guard] using h
  . simp [guard]

theorem needs_put {m m' : Mem} {addr : Nat} {bs : Bytes} (h : e.Same m m')
    : (put e.guard m' addr bs).Needs (e.InRegion addr bs.length)
        (fun r => e.InRegion addr bs.length ∧ e.Same m r ∧ r = m'.writeBytes addr bs) := by
  apply Needs.of_iff (c := e.guard.store addr bs.length = true ∧ True)
  . apply needs_bind needs_check
    intro _ hc
    have hin : e.InRegion addr bs.length := by simpa [guard, InRegion] using hc
    exact needs_pure ⟨hin, h.put hin, rfl⟩
  . simp [guard, InRegion]

/-
The header
-/

theorem needs_test {α : Type} {off n : Nat} {c c' d : Prop} [Decidable c] {x : Checked (Option α)}
    {P : Option α → Prop} (hc : e.Inside off n → (c ↔ c')) (hnone : c' → P none)
    (hx : ¬c' → x.Needs d P)
    : (do
        look e.guard off n
        if c then return none else x).Needs (e.Inside off n ∧ (¬c' → d)) P := by
  apply needs_bind needs_look
  intro _ hin
  apply Needs.of_iff
  . exact needs_ite (fun h => needs_pure (hnone ((hc hin).mp h))) (fun h => hx (by rwa [← hc hin]))
  . simp [hc hin]

theorem needs_header {m m' : Mem} (h : e.Same m m')
    : (header e.guard e m').Needs (e.HeaderIn m) (fun r => r = e.headerOf m) := by
  have hmagic : (5 ≤ e.size ∧ e.word m' 0 = 0x464C457F)
      ↔ (5 ≤ e.size ∧ e.word m 0 = 0x464C457F) := by
    apply and_congr_right
    intro hsize
    rw [word_eq h (by unfold Inside; omega)]
  unfold header
  simp only [hmagic]
  apply Needs.of_iff
  . apply needs_ite
    . intro hc
      apply needs_pure
      unfold headerOf
      rw [if_neg (fun hh => hc ⟨hh.1, hh.2.1⟩)]
    . intro h0
      apply needs_test (fun hin => by rw [byte_eq h hin])
      . intro hc
        simp [headerOf, hc]
      . intro h1
        apply needs_test (fun hin => by rw [byte_eq h hin])
        . intro hc
          simp [headerOf, hc]
        . intro h2
          apply needs_test (fun hin => by rw [half_eq h hin])
          . intro hc
            simp [headerOf, hc]
          . intro h3
            apply needs_test (fun hin => by rw [half_eq h hin])
            . intro hc
              simp [headerOf, hc]
            . intro h4
              apply needs_test (fun hin => by rw [half_eq h hin])
              . intro hc
                simp [headerOf, hc]
              . intro h5
                apply needs_bind needs_look
                intro _ hin
                rw [word_eq h hin]
                apply needs_ite
                . intro hc
                  apply needs_pure
                  simp [headerOf, hc]
                . intro h6
                  apply needs_bind needs_look
                  intro _ hin
                  rw [half_eq h hin]
                  apply needs_ite
                  . intro hc
                    apply needs_pure
                    unfold headerOf
                    rw [if_neg (by omega)]
                  . intro hc
                    apply needs_pure
                    unfold headerOf
                    rw [if_pos (by grind)]
  . unfold HeaderIn Inside
    simp only [ne_eq, not_not, implies_true, and_true, true_and, Nat.reducePow, Nat.reduceMod,
      Nat.reduceAdd]
    grind

/-
Pass 1
-/

theorem needs_zeroFill {m : Mem} {addr n : Nat} (fuel : Nat) {k : Nat} {m' : Mem}
    (h : e.Same m m') (hk : k % 4 = 0)
    (hbrk : 0 < k → e.brk ≤ addr)
    (haddr : k < n → addr + k < 2 ^ 32) (hn : n < 2 ^ 32)
    (hlt : k < n + 4) (hfuel : n + 4 ≤ k + 4 * fuel)
    : (zeroFill e.guard addr n fuel k m').Needs
        (k < n → e.brk ≤ addr + k ∧ addr + zeroExtent n ≤ e.limit) (fun r => e.Same m r) := by
  have := e.limit_lt
  have := e.le_brk
  induction fuel generalizing k m' with
  | zero => omega
  | succ fuel ih =>
    unfold zeroFill
    apply Needs.of_iff
    . apply needs_ite
      . intro hkn
        apply needs_bind (needs_put h)
        intro m'' hput
        have hin := hput.1
        apply ih hput.2.1
        all_goals
          unfold InRegion add32 at *
          split at hin <;> simp at hin <;> omega
      . intro _
        exact needs_pure h
    . unfold InRegion zeroExtent add32
      split <;> split <;> simp <;> omega

/--
What `place` says about the sections is what pass 1 returns.
-/
def PlacedAs (e : Applet) (m : Mem) (p : Option (Nat × (Nat → Nat))) (r : Placed) : Prop :=
  match p, r with
  | none, .refused m' => e.Same m m'
  | some p, .placed cur sec m' => (cur, sec) = p ∧ e.Same m m'
  | _, _ => False

theorem slot_skip {cur : Nat} {s : Shdr} (h : ¬isAlloc s) : e.slot cur s = .skip := by
  unfold slot
  rw [if_neg h]

theorem slot_zero {cur : Nat} {s : Shdr} {addr n : Nat} (hslot : e.slot cur s = .zero addr n)
    (hcur : cur < 2 ^ 32)
    : isAlloc s ∧ s.type = 8 ∧ addr < 2 ^ 32 ∧ n = s.size := by
  unfold slot at hslot
  split at hslot
  . next halloc =>
    dsimp only at hslot
    split at hslot
    . next h8 =>
      cases hslot
      exact ⟨halloc, h8, alignUp_lt hcur, rfl⟩
    . split at hslot
      . cases hslot
      . split at hslot <;> cases hslot
  . cases hslot

theorem slot_congr {s s' : Shdr} (h : isAlloc s' = isAlloc s) (heq : isAlloc s → s' = s) (cur : Nat)
    : e.slot cur s' = e.slot cur s
        ∧ slotEnd cur s' (e.slot cur s) = slotEnd cur s (e.slot cur s) := by
  by_cases halloc : isAlloc s
  . rw [heq halloc]
    exact ⟨rfl, rfl⟩
  . rw [slot_skip halloc, slot_skip (by rwa [h])]
    exact ⟨rfl, rfl⟩

theorem needs_lookHeader {m m' : Mem} {off : Nat} (h : e.Same m m')
    : (lookHeader e.guard e m' off).Needs
        (e.Inside (off + 8) 16 ∧ (isAlloc (e.shdr m off) → e.Inside (off + 4) 32))
        (fun _ => ∀ cur, e.slot cur (e.shdr m' off) = e.slot cur (e.shdr m off)
          ∧ slotEnd cur (e.shdr m' off) (e.slot cur (e.shdr m off))
              = slotEnd cur (e.shdr m off) (e.slot cur (e.shdr m off))) := by
  unfold lookHeader
  apply needs_bind needs_look
  intro _ hin
  have halloc := isAlloc_eq h hin
  apply Needs.of_iff
  . apply needs_ite
    . intro hc
      apply needs_look.mono
      intro _ hin
      exact slot_congr halloc (fun _ => shdr_eq h hin)
    . intro hc
      exact needs_pure (slot_congr halloc (fun h => absurd (halloc.trans h) hc))
  . simp [halloc]

theorem needs_fillSlot {m m' : Mem} {cur : Nat} {s : Shdr} (h : e.Same m m') (hcur : cur < 2 ^ 32)
    (hsize : s.size < 2 ^ 32)
    : (fillSlot e.guard e m' (e.slot cur s)).Needs (e.SlotIn (e.slot cur s))
        (fun r => e.Same m r) := by
  generalize hslot : e.slot cur s = slot
  cases slot with
  | zero addr n =>
    have haddr := slot_zero hslot hcur
    apply Needs.of_iff
    . apply needs_zeroFill _ h <;> omega
    . simp [SlotIn, InRegion]
  | copy addr off n =>
    unfold fillSlot SlotIn
    apply Needs.of_iff
    . apply needs_ite
      . intro _
        exact needs_pure h
      . intro _
        apply needs_bind needs_look
        intro _ _
        apply (needs_put h).mono
        intro _ hput
        exact hput.2.1
    . simp [Nat.pos_iff_ne_zero]
  | _ => exact needs_pure h

theorem needs_placeSections {m : Mem} (n : Nat) {i off cur : Nat} {sec : Nat → Nat} {m' : Mem}
    (h : e.Same m m') (hcur : cur < 2 ^ 32)
    : (placeSections e.guard e n i off cur sec m').Needs (e.SectionsIn m n off cur)
        (e.PlacedAs m (e.place m n i off cur sec)) := by
  induction n generalizing i off cur sec m' with
  | zero =>
    unfold placeSections SectionsIn place
    exact needs_pure ⟨rfl, h⟩
  | succ n ih =>
    unfold placeSections SectionsIn place
    apply Needs.of_iff
    . apply needs_bind (needs_lookHeader h)
      intro _ hs
      dsimp only
      rw [(hs cur).1, (hs cur).2]
      apply needs_ite
      . intro hbad
        rw [if_pos hbad]
        exact needs_pure h
      . intro hbad
        rw [if_neg hbad]
        apply needs_bind (needs_fillSlot h hcur (word_lt m _))
        intro m'' h''
        exact ih h'' (slotEnd_lt _ _ hcur)
    . dsimp only
      have hsome : e.slot cur (e.shdr m off) = .bad → e.SlotIn (e.slot cur (e.shdr m off)) := by
        intro hbad
        rw [hbad]
        trivial
      grind

/-
The symbol table
-/

theorem needs_withStrings {m m' : Mem} {s s' : Shdr} {off : Nat} (h : e.Same m m')
    (hin : e.Inside (off + 8) 16) (hoff : s'.offset = s.offset) (hsize : s'.size = s.size)
    : (withStrings e.guard e m' s' off).Needs
        (e.Inside (off + 4) 4 ∧ ((e.shdr m off).type = 3 → e.Inside (off + 16) 4))
        (fun r => r = if (e.shdr m off).type = 3 then e.symtabOf s (e.shdr m off) else none) := by
  unfold withStrings symtabOf
  dsimp only
  apply Needs.of_iff
  . apply needs_bind needs_look
    intro _ htype
    have htype : (e.shdr m' off).type = (e.shdr m off).type := word_eq h htype
    rw [htype]
    apply needs_ite
    . intro h3
      rw [if_pos h3]
      apply needs_bind needs_look
      intro _ _
      have hstr : (e.shdr m' off).offset = (e.shdr m off).offset :=
        word_eq h (hin.sub (i := 8) (by omega))
      have hstrSize : (e.shdr m' off).size = (e.shdr m off).size :=
        word_eq h (hin.sub (i := 12) (by omega))
      rw [hstr, hstrSize, hoff, hsize]
      exact needs_pure rfl
    . intro h3
      rw [if_neg h3]
      exact needs_pure rfl
  . simp

theorem needs_findSymtab {m m' : Mem} {shoff nsec : Nat} (n : Nat) {i : Nat} (h : e.Same m m')
    (hin : ∀ j < nsec, e.Inside (shoff + 40 * j + 8) 16)
    : (findSymtab e.guard e m' shoff nsec n i).Needs (e.SymtabIn m shoff nsec n i)
        (fun r => r = e.symtab m shoff nsec n i) := by
  induction n generalizing i with
  | zero => exact needs_pure rfl
  | succ n ih =>
    unfold findSymtab SymtabIn symtab
    dsimp only
    apply Needs.of_iff
    . apply needs_bind needs_look
      intro _ htype
      have htype : (e.shdr m' (shoff + 40 * i)).type = (e.shdr m (shoff + 40 * i)).type :=
        word_eq h htype
      rw [htype]
      apply needs_ite
      . intro h2
        rw [if_pos h2]
        apply needs_bind needs_look
        intro _ hs
        have hlink : (e.shdr m' (shoff + 40 * i)).link = (e.shdr m (shoff + 40 * i)).link :=
          word_eq h (hs.sub (i := 8) (by omega))
        rw [hlink]
        apply needs_ite
        . intro hlt
          have hoff : (e.shdr m' (shoff + 40 * i)).offset = (e.shdr m (shoff + 40 * i)).offset :=
            word_eq h (hs.take (by omega))
          have hsize : (e.shdr m' (shoff + 40 * i)).size = (e.shdr m (shoff + 40 * i)).size :=
            word_eq h (hs.sub (i := 4) (by omega))
          apply (needs_withStrings h (hin _ hlt) hoff hsize).mono
          intro r hr
          simp only [hr, hlt, true_and]
        . intro hlt
          rw [if_neg (fun hc => hlt hc.1)]
          exact needs_pure rfl
      . intro h2
        rw [if_neg h2]
        exact ih
    . simp

/-
Names
-/

theorem needs_nameIs {m m' : Mem} (name : Bytes) {off : Nat} (h : e.Same m m')
    : (nameIs e.guard e m' name off).Needs (e.NameIn m name off)
        (fun r => r = e.hasName m name off) := by
  induction name generalizing off with
  | nil =>
    unfold nameIs NameIn hasName
    apply Needs.of_iff
    . apply needs_bind needs_look
      intro _ hin
      rw [byte_eq h hin]
      exact needs_pure rfl
    . simp
  | cons c name ih =>
    unfold nameIs NameIn hasName
    apply Needs.of_iff
    . apply needs_bind needs_look
      intro _ hin
      rw [byte_eq h hin]
      apply needs_ite
      . intro hc
        apply ih.mono
        intro r hr
        simp [hr, hc]
      . intro hc
        apply needs_pure
        simp [hc]
    . simp

theorem needs_exportLookup {m m' : Mem} {off : Nat} (table : List (Bytes × Nat)) (h : e.Same m m')
    : (exportLookup e.guard e m' off table).Needs (e.ExportIn m off table)
        (fun r => r = e.exportOf m off table) := by
  induction table with
  | nil => exact needs_pure rfl
  | cons x rest ih =>
    unfold exportLookup ExportIn exportOf
    apply Needs.of_iff
    . apply needs_bind (needs_nameIs x.1 h)
      intro r hr
      rw [hr]
      apply needs_ite
      . intro hc
        rw [if_pos hc]
        exact needs_pure rfl
      . intro hc
        rw [if_neg hc]
        exact ih
    . simp

theorem lt_of_inside {off k : Nat} (hin : ∀ j ≤ k, e.Inside (off + j) 1) : k < 2 ^ 32 := by
  have := e.size_lt
  by_contra hge
  have := hin (2 ^ 32 - 1 - off % 2 ^ 32) (by omega)
  unfold Inside at this
  omega

theorem needs_printName {m m' : Mem} (fuel : Nat) {off : Nat} (h : e.Same m m')
    : (printName e.guard e m' fuel off).Needs
        (∃ k < fuel, e.byte m (off + k) = 0 ∧ ∀ j ≤ k, e.Inside (off + j) 1) (fun _ => True) := by
  induction fuel generalizing off with
  | zero => exact needs_throw.of_iff (by simp)
  | succ fuel ih =>
    unfold printName
    apply Needs.of_iff
    . apply needs_bind needs_look
      intro _ hin
      rw [byte_eq h hin]
      apply needs_ite
      . intro _
        exact needs_pure trivial
      . intro _
        exact ih
    . constructor
      . intro ⟨k, hlt, hnul, hin⟩
        refine ⟨hin 0 (by omega), fun _ => trivial, fun hne => ?_⟩
        cases k with
        | zero => exact absurd hnul hne
        | succ k =>
          refine ⟨k, by omega, by rwa [Nat.add_assoc, Nat.add_comm 1], ?_⟩
          intro j hj
          have := hin (j + 1) (by omega)
          rwa [Nat.add_assoc, Nat.add_comm 1]
      . intro ⟨hin, _, hrest⟩
        by_cases h0 : e.byte m off = 0
        . refine ⟨0, by omega, h0, fun j hj => ?_⟩
          rwa [Nat.le_zero.mp hj]
        . obtain ⟨k, hlt, hnul, hins⟩ := hrest h0
          refine ⟨k + 1, by omega, by rwa [Nat.add_comm k, ← Nat.add_assoc], ?_⟩
          intro j hj
          cases j with
          | zero => exact hin
          | succ j =>
            have := hins j (by omega)
            rwa [Nat.add_comm j, ← Nat.add_assoc]

theorem needs_undefinedValue {m m' : Mem} {tab : Symtab} {off : Nat} (h : e.Same m m')
    : (undefinedValue e.guard e m' tab off).Needs (e.ImportIn m tab off)
        (fun r => r = e.importOf m tab off) := by
  unfold undefinedValue ImportIn importOf
  dsimp only
  apply needs_bind needs_look
  intro _ hin
  have hname : (e.sym m' off).name = (e.sym m off).name := word_eq h hin
  rw [hname]
  apply needs_bind needs_index
  intro _ _
  apply needs_bind (needs_exportLookup _ h)
  intro r hr
  rw [hr]
  cases e.exportOf m (tab.str + (e.sym m off).name) e.exports with
  | some addr =>
    apply Needs.of_iff (c := True)
    . exact needs_pure rfl
    . simp
  | none =>
    apply Needs.of_iff
    . apply needs_bind needs_look
      intro _ hin
      have hweak : (e.sym m' off).weak = (e.sym m off).weak := by
        unfold sym
        dsimp only
        rw [byte_eq h hin]
      rw [hweak]
      apply needs_ite
      . intro hw
        apply needs_pure
        simp [hw]
      . intro hw
        apply needs_bind (needs_printName _ h)
        intro _ _
        apply needs_pure
        simp [hw]
    . simp only [Terminated, implies_true, and_true, true_and, forall_const]
      constructor
      . intro ⟨hin, hterm⟩
        refine ⟨hin, fun hw => ?_⟩
        obtain ⟨k, hnul, hins⟩ := hterm hw
        exact ⟨k, lt_of_inside hins, hnul, hins⟩
      . intro ⟨hin, hterm⟩
        refine ⟨hin, fun hw => ?_⟩
        obtain ⟨k, _, hnul, hins⟩ := hterm hw
        exact ⟨k, hnul, hins⟩

theorem needs_symbolValue {m m' : Mem} {nsec : Nat} {sec : Nat → Nat} {tab : Symtab} {off : Nat}
    (h : e.Same m m')
    : (symbolValue e.guard e m' nsec sec tab off).Needs (e.SymIn m nsec sec tab off)
        (fun r => r = e.valueOf m nsec sec tab off) := by
  unfold symbolValue SymIn valueOf
  dsimp only
  apply Needs.of_iff
  . apply needs_bind needs_look
    intro _ hin
    have hshndx : (e.sym m' off).shndx = (e.sym m off).shndx := half_eq h hin
    rw [hshndx]
    apply needs_ite
    . intro h0
      rw [if_pos h0]
      exact needs_undefinedValue h
    . intro h0
      rw [if_neg h0]
      apply needs_ite
      . intro habs
        rw [if_pos habs]
        apply needs_bind needs_look
        intro _ hin
        have hvalue : (e.sym m' off).value = (e.sym m off).value := word_eq h hin
        rw [hvalue]
        exact needs_pure rfl
      . intro habs
        rw [if_neg habs]
        apply needs_ite
        . intro hcommon
          rw [if_pos (by omega)]
          exact needs_pure rfl
        . intro hcommon
          apply needs_ite
          . intro hlt
            apply needs_ite
            . intro hsec
              rw [if_pos (by omega)]
              exact needs_pure rfl
            . intro hsec
              rw [if_neg (by omega)]
              apply needs_bind needs_look
              intro _ hin
              have hvalue : (e.sym m' off).value = (e.sym m off).value := word_eq h hin
              rw [hvalue]
              exact needs_pure rfl
          . intro hlt
            rw [if_pos (by omega)]
            exact needs_pure rfl
  . simp only [implies_true, and_true, true_and]
    grind

/-
Pass 2
-/

section Relocate

variable {m m' : Mem} {nsec : Nat} {sec : Nat → Nat} {tab : Symtab} {base size : Nat}

theorem needs_relocate {r : Rel} (h : e.Same m m')
    : (relocate e.guard e m' nsec sec tab base size r).Needs (e.RelIn m nsec sec tab base size r)
        (fun p => (p.1 = true ↔ e.Applies m nsec sec tab size r) ∧ e.Same m p.2) := by
  unfold relocate RelIn Applies
  dsimp only
  apply Needs.of_iff
  . apply needs_ite
    . intro hoff
      apply needs_pure
      exact ⟨by simp; omega, h⟩
    . intro hoff
      apply needs_ite
      . intro hsym
        apply needs_pure
        exact ⟨by simp; omega, h⟩
      . intro hsym
        apply needs_bind (d := e.Applies m nsec sec tab size r → e.InRegion (add32 base r.offset) 4)
          (needs_symbolValue h)
        intro v hv
        unfold Applies
        rw [← hv]
        cases v with
        | none =>
          apply Needs.of_iff (c := True)
          . exact needs_pure ⟨by simp, h⟩
          . simp
        | some s =>
          apply Needs.of_iff
          . apply needs_ite
            . intro h1
              apply needs_bind (needs_put h)
              intro _ hput
              exact needs_pure ⟨by simp; omega, hput.2.1⟩
            . intro h1
              apply needs_ite
              . intro h2
                apply needs_bind (needs_put h)
                intro _ hput
                exact needs_pure ⟨by simp; omega, hput.2.1⟩
              . intro h2
                exact needs_pure ⟨by simp; omega, h⟩
          . simp only [length_le32, implies_true, and_true]
            grind
  . unfold Applies
    grind

theorem needs_relocateGroup (n : Nat) {off : Nat} (h : e.Same m m')
    : (relocateGroup e.guard e nsec sec tab base size n off m').Needs
        (e.RelsIn m nsec sec tab base size n off)
        (fun p => (p.1 = true ↔ e.AllApply m nsec sec tab size n off) ∧ e.Same m p.2) := by
  induction n generalizing off m' with
  | zero =>
    apply needs_pure
    simp [AllApply, h]
  | succ n ih =>
    unfold relocateGroup RelsIn AllApply
    apply Needs.of_iff
    . apply needs_bind needs_look
      intro _ hin
      rw [rel_eq h hin]
      apply needs_bind (d := e.Applies m nsec sec tab size (e.rel m off) →
        e.RelsIn m nsec sec tab base size n (off + 8)) (needs_relocate h)
      intro p hp
      apply Needs.of_iff
      . apply needs_ite
        . intro hok
          apply (ih hp.2).mono
          intro q hq
          simp [hq, hp.1.mp hok]
        . intro hok
          apply needs_pure
          simp [← hp.1, hok, hp.2]
      . simp [hp.1]
    . rfl

theorem needs_relocateAll {shoff : Nat} (n : Nat) {i : Nat} (h : e.Same m m')
    : (relocateAll e.guard e shoff nsec sec tab n i m').Needs (e.GroupsIn m nsec sec tab shoff n i)
        (fun p => e.Same m p.2) := by
  induction n generalizing i m' with
  | zero => exact needs_pure h
  | succ n ih =>
    unfold relocateAll GroupsIn
    dsimp only
    generalize shoff + 40 * i = off
    apply Needs.of_iff
    . apply needs_bind needs_look
      intro _ hin
      have htype : (e.shdr m' off).type = (e.shdr m off).type := word_eq h hin
      rw [htype]
      apply needs_ite
      . intro h9
        apply needs_bind needs_look
        intro _ hin
        have hinfo : (e.shdr m' off).info = (e.shdr m off).info := word_eq h hin
        rw [hinfo]
        apply needs_ite
        . intro _
          exact ih h
        . intro ht
          apply needs_bind needs_look
          intro _ hin
          have hoffset : (e.shdr m' off).offset = (e.shdr m off).offset :=
            word_eq h (hin.take (by omega))
          have hsize : (e.shdr m' off).size = (e.shdr m off).size :=
            word_eq h (hin.sub (i := 4) (by omega))
          rw [hoffset, hsize]
          apply needs_bind needs_look
          intro _ hin
          have htarget : (e.shdr m' (shoff + 40 * (e.shdr m off).info)).size
              = (e.shdr m (shoff + 40 * (e.shdr m off).info)).size := word_eq h hin
          rw [htarget]
          apply needs_bind (d := e.AllApply m nsec sec tab
            (e.shdr m (shoff + 40 * (e.shdr m off).info)).size ((e.shdr m off).size / 8)
            (e.shdr m off).offset → e.GroupsIn m nsec sec tab shoff n (i + 1))
            (needs_relocateGroup _ h)
          intro p hp
          apply Needs.of_iff
          . apply needs_ite
            . intro _
              exact ih hp.2
            . intro _
              exact needs_pure hp.2
          . simp [hp.1]
      . intro h9
        exact ih h
    . grind

theorem needs_findEntry (n : Nat) {i : Nat} (h : e.Same m m')
    : (findEntry e.guard e m' nsec sec tab n i).Needs (e.EntryIn m nsec tab n i)
        (fun r => r = e.entryOf m sec tab n i) := by
  induction n generalizing i with
  | zero => exact needs_pure rfl
  | succ n ih =>
    unfold findEntry EntryIn entryOf
    dsimp only
    generalize tab.off + 16 * i = off
    apply Needs.of_iff
    . apply needs_bind needs_look
      intro _ hin
      have hname : (e.sym m' off).name = (e.sym m off).name := word_eq h hin
      rw [hname]
      apply needs_bind needs_index
      intro _ _
      apply needs_bind (needs_nameIs _ h)
      intro r hr
      rw [hr]
      apply needs_ite
      . intro hmain
        apply needs_bind needs_look
        intro _ hin
        have hshndx : (e.sym m' off).shndx = (e.sym m off).shndx := half_eq h hin
        rw [hshndx]
        apply needs_ite
        . intro h0
          apply ih.mono
          intro r hr
          rw [hr, if_neg (fun hc => hc.2 h0)]
        . intro h0
          apply needs_bind needs_look
          intro _ hin
          have hvalue : (e.sym m' off).value = (e.sym m off).value := word_eq h hin
          rw [hvalue]
          apply needs_ite
          . intro habs
            apply needs_pure
            rw [if_pos ⟨hmain, h0⟩, if_pos habs]
          . intro habs
            apply needs_ite
            . intro _
              apply needs_pure
              rw [if_pos ⟨hmain, h0⟩, if_neg habs]
            . intro _
              exact needs_throw
      . intro hmain
        apply ih.mono
        intro r hr
        rw [hr, if_neg (fun hc => hmain hc.1)]
    . grind

end Relocate

end Applet
end TanjaOS
