import TanjaOS.Exec.Elf.Relocs
import TanjaOS.Exec.Elf.Safe

/-!
A relocatable object behind both passes of the loader.
-/

open Lib

namespace TanjaOS
namespace Applet

section Bytes

theorem ofLe32_inj {f g : Nat → Byte} (h : ofLe32 ((List.range 4).map f) = ofLe32 ((List.range 4).map g))
    : ∀ k < 4, f k = g k := by
  have hf : ∀ f : Nat → Byte, ofLe32 ((List.range 4).map f)
      = (f 0).toNat + 256 * (f 1).toNat + 65536 * (f 2).toNat + 16777216 * (f 3).toNat := by
    intro f
    show ofLe32 [f 0, f 1, f 2, f 3] = _
    unfold ofLe32
    simp only [List.getD_cons_zero, List.getD_cons_succ]
  rw [hf, hf] at h
  have hlt := fun k => (f k).toNat_lt
  have hlt' := fun k => (g k).toNat_lt
  have := hlt 0
  have := hlt 1
  have := hlt 2
  have := hlt 3
  have := hlt' 0
  have := hlt' 1
  have := hlt' 2
  have := hlt' 3
  intro k hk
  rw [← UInt8.toNat_inj]
  obtain rfl | rfl | rfl | rfl : k = 0 ∨ k = 1 ∨ k = 2 ∨ k = 3 := by omega
  all_goals omega

variable {e : Applet} {m : Mem} {nsec : Nat} {sec : Nat → Nat} {tab : Symtab}

theorem relocated_lt (x : Place) (a : Nat) : e.relocated m nsec sec tab x a < 2 ^ 32 := by
  unfold relocated
  dsimp only
  split
  . exact add32_lt _ _
  . exact Nat.mod_lt _ (by decide)

theorem relocated_inj {x : Place} {a b : Nat} (ha : a < 2 ^ 32) (hb : b < 2 ^ 32)
    (h : e.relocated m nsec sec tab x a = e.relocated m nsec sec tab x b)
    : a = b := by
  unfold relocated at h
  dsimp only at h
  generalize (e.valueOf m nsec sec tab (tab.off + 16 * x.2.sym)).getD 0 = s at h
  generalize x.addr sec = p at h
  unfold sub32 add32 at h
  split at h <;> omega

end Bytes

section Main

variable {e : Applet} {m m' : Mem} {shoff nsec cur : Nat} {sec : Nat → Nat} {tab : Symtab}

structure Loaded (e : Applet) (m : Mem) (shoff nsec : Nat) (sec : Nat → Nat) (m' : Mem) : Prop where
  same : e.Same m m'
  sections : ∀ j < nsec, e.SectionAt m (e.shdr m (shoff + 40 * j)) (sec j) e.brk e.limit m'
  apart : ∀ j k, j < k → k < nsec → Copied (e.shdr m (shoff + 40 * j)) → Copied (e.shdr m (shoff + 40 * k)) →
    sec j + (e.shdr m (shoff + 40 * j)).size ≤ sec k

theorem PlacedFrom.loaded (h : e.PlacedFrom m nsec 0 shoff e.brk cur (fun _ => 0) sec m m')
    : e.Loaded m shoff nsec sec m' where
  same a ha := h.others a (by have := h.limit; omega)
  sections j hj := by
    have hat := h.sections j hj
    rw [Nat.zero_add] at hat
    exact hat.mono (Nat.le_refl _) h.limit (fun _ _ => rfl)
  apart j k hjk hk hj hk' := by
    have hle := h.apart j k hjk hk hj hk'
    rwa [Nat.zero_add, Nat.zero_add] at hle

theorem not_copied_iff {s : Shdr} (halloc : isAlloc s) : ¬Copied s ↔ InPlace s := by
  unfold Copied
  simp [halloc]

theorem Loaded.sectionsAt (h : e.Loaded m shoff nsec sec m') (hwf : e.WellFormed m shoff nsec sec tab)
    : e.SectionsAt m shoff nsec sec := by
  have himg := hwf.img
  have hbrk := e.le_brk
  have hend := e.img_le
  have hlimit := e.limit_lt
  constructor
  . intro j hj
    have hat := h.sections j hj
    by_cases halloc : isAlloc (e.shdr m (shoff + 40 * j)) = true
    . refine iff_of_true ?_ halloc
      by_cases hcopied : Copied (e.shdr m (shoff + 40 * j))
      . obtain ⟨hlo, _⟩ := hat.inside hcopied
        omega
      . rw [hat.inPlace ((not_copied_iff halloc).mp hcopied)]
        omega
    . exact iff_of_false (not_not_intro (hat.skipped halloc)) halloc
  . intro j hj halloc
    have hat := h.sections j hj
    by_cases hcopied : Copied (e.shdr m (shoff + 40 * j))
    . obtain ⟨_, hhi⟩ := hat.inside hcopied
      omega
    . have hplace := (not_copied_iff halloc).mp hcopied
      have hcontents := (hwf.sections j hj).contents halloc hplace.2.1 (by have := hplace.2.2; omega)
      rw [hat.inPlace hplace]
      omega

theorem Loaded.keeps (h : e.Loaded m shoff nsec sec m') (hwf : e.WellFormed m shoff nsec sec tab)
    : e.Keeps m shoff nsec tab m' := by
  intro off hin
  have hlt := hwf.lt_size hin
  have hsize := e.size_lt
  apply byte_eq h.same
  unfold Inside
  omega

theorem Loaded.stored (h : e.Loaded m shoff nsec sec m') (hwf : e.WellFormed m shoff nsec sec tab) {j k : Nat}
    (hj : j < nsec) (halloc : isAlloc (e.shdr m (shoff + 40 * j))) (hk : k < (e.shdr m (shoff + 40 * j)).size)
    : m' (sec j + k) = if (e.shdr m (shoff + 40 * j)).type = 8 ∧ zeroExtent (e.shdr m (shoff + 40 * j)).size ≤ k then
        m (sec j + k) else e.content m (e.shdr m (shoff + 40 * j)) k := by
  have hat := h.sections j hj
  unfold content
  by_cases hcopied : Copied (e.shdr m (shoff + 40 * j))
  . by_cases h8 : (e.shdr m (shoff + 40 * j)).type = 8
    . rw [hat.zero hcopied h8 k hk, if_pos h8]
      by_cases hlt : k < zeroExtent (e.shdr m (shoff + 40 * j)).size
      . rw [if_pos hlt, if_neg (fun hboth => absurd hlt (by omega))]
      . rw [if_neg hlt, if_pos ⟨h8, by omega⟩]
    . rw [hat.copied hcopied h8 k hk, if_neg (fun hboth => h8 hboth.1), if_neg h8]
  . have hplace := (not_copied_iff halloc).mp hcopied
    have hcontents := (hwf.sections j hj).contents halloc hplace.2.1 (by omega)
    have hend := e.img_le
    have hdisjoint := e.disjoint
    rw [hat.inPlace hplace, if_neg (fun hboth => hplace.2.1 hboth.1), if_neg hplace.2.1]
    apply h.same
    omega

theorem Loaded.same_section (h : e.Loaded m shoff nsec sec m') (hwf : e.WellFormed m shoff nsec sec tab)
    {j t k l : Nat} (hj : j < nsec) (ht : t < nsec) (hcopied : Copied (e.shdr m (shoff + 40 * j)))
    (halloc : isAlloc (e.shdr m (shoff + 40 * t))) (hk : k < (e.shdr m (shoff + 40 * j)).size)
    (hl : l < (e.shdr m (shoff + 40 * t)).size) (heq : sec j + k = sec t + l)
    : j = t := by
  obtain ⟨hlo, hhi⟩ := (h.sections j hj).inside hcopied
  by_cases htcopied : Copied (e.shdr m (shoff + 40 * t))
  . obtain hlt | hsame | hgt := Nat.lt_trichotomy j t
    . have hle := h.apart j t hlt ht hcopied htcopied
      omega
    . exact hsame
    . have hle := h.apart t j hgt hj htcopied hcopied
      omega
  . -- a section of the region and one of the image
    have hplace := (not_copied_iff halloc).mp htcopied
    have hcontents := (hwf.sections t ht).contents halloc hplace.2.1 (by omega)
    have hdisjoint := e.disjoint
    rw [(h.sections t ht).inPlace hplace] at heq
    omega

theorem relocs_alloc {n i : Nat} {x : Place} (hx : x ∈ e.relocs m shoff nsec n i)
    : x.1 < nsec ∧ isAlloc (e.shdr m (shoff + 40 * x.1)) := by
  induction n generalizing i with
  | zero => contradiction
  | succ n ih =>
    unfold relocs at hx
    dsimp only at hx
    rw [List.mem_append] at hx
    cases hx with
    | inl hhead =>
      split at hhead
      . next hgroup =>
        obtain ⟨r, _, rfl⟩ := List.mem_map.mp hhead
        exact ⟨hgroup.2.1, hgroup.2.2⟩
      . contradiction
    | inr htail => exact ih htail

theorem linked_iff (hwf : e.WellFormed m shoff nsec sec tab) (h : e.Loaded m shoff nsec sec m')
    : e.Linked m shoff nsec sec tab (m'.patch ((e.relocs m shoff nsec nsec 0).map (e.patchOf m nsec sec tab)))
      ↔ e.TailsZero m shoff nsec sec := by
  have hvalue : ∀ x ∈ e.relocs m shoff nsec nsec 0,
      (m'.patch ((e.relocs m shoff nsec nsec 0).map (e.patchOf m nsec sec tab))).read32 (x.addr sec)
        = e.relocated m nsec sec tab x (m'.read32 (x.addr sec)) := by
    intro x hx
    exact @Mem.read32_patch m' (e.patchOf m nsec sec tab x) _ hwf.apart (List.mem_map_of_mem hx) (relocated_lt x _)
  have hother : ∀ a, (∀ x ∈ e.relocs m shoff nsec nsec 0, (e.patchOf m nsec sec tab x).Misses a) →
      m'.patch ((e.relocs m shoff nsec nsec 0).map (e.patchOf m nsec sec tab)) a = m' a := by
    intro a hmiss
    apply Mem.patch_other
    intro p hp
    obtain ⟨x, hx, rfl⟩ := List.mem_map.mp hp
    exact hmiss x hx
  have hword : ∀ x : Place, m'.read32 (x.addr sec) = ofLe32 ((List.range 4).map (fun k => m' (x.addr sec + k))) :=
    fun _ => rfl
  constructor
  . intro hlinked j hj halloc h8 k hge hk
    have hstored := h.stored hwf hj halloc hk
    rw [if_pos ⟨h8, hge⟩] at hstored
    have hcopied : Copied (e.shdr m (shoff + 40 * j)) := ⟨halloc, fun hplace => hplace.2.1 h8⟩
    have hzero : e.content m (e.shdr m (shoff + 40 * j)) k = 0 := if_pos h8
    rw [← hstored, ← hzero]
    by_cases hmiss : ∀ x ∈ e.relocs m shoff nsec nsec 0, (e.patchOf m nsec sec tab x).Misses (sec j + k)
    . rw [← hother _ hmiss]
      exact hlinked.bytes j hj halloc k hk hmiss
    . -- the byte belongs to a place, whose word must have been that of the section
      push Not at hmiss
      obtain ⟨x, hx, hhit⟩ := hmiss
      obtain ⟨ht, htalloc⟩ := relocs_alloc hx
      obtain ⟨hend, _⟩ := hwf.relocs x hx
      have hplace : x.addr sec = sec x.1 + x.2.offset := rfl
      have hpatch : (e.patchOf m nsec sec tab x).addr = x.addr sec := rfl
      unfold Patch.Misses at hhit
      rw [hpatch, not_or] at hhit
      obtain ⟨d, hd⟩ : ∃ d, sec j + k = x.addr sec + d := ⟨sec j + k - x.addr sec, by omega⟩
      have hsame : j = x.1 := h.same_section hwf hj ht hcopied htalloc hk
        (show x.2.offset + d < _ by omega) (by omega)
      have hwords := hlinked.places x hx
      rw [hvalue x hx] at hwords
      have hinj := relocated_inj (Mem.read32_lt _) (ofLe32_lt _) hwords
      have hbytes : m' (x.addr sec + d) = e.content m (e.shdr m (shoff + 40 * x.1)) (x.2.offset + d) :=
        ofLe32_inj hinj d (by omega)
      rw [hd, hbytes, ← hsame]
      congr 1
      rw [← hsame] at hplace
      omega
  . intro htails
    have hstored : ∀ j < nsec, isAlloc (e.shdr m (shoff + 40 * j)) → ∀ k < (e.shdr m (shoff + 40 * j)).size,
        m' (sec j + k) = e.content m (e.shdr m (shoff + 40 * j)) k := by
      intro j hj halloc k hk
      rw [h.stored hwf hj halloc hk]
      split
      . next htail =>
        rw [htails j hj halloc htail.1 k htail.2 hk]
        exact (if_pos htail.1).symm
      . rfl
    refine ⟨fun j hj hcopied => (h.sections j hj).inside hcopied, fun j hj hcopied => (h.sections j hj).aligned hcopied,
      fun j k hjk hk hj hk' => .inl (h.apart j k hjk hk hj hk'), ?_, ?_⟩
    . intro x hx
      obtain ⟨ht, htalloc⟩ := relocs_alloc hx
      obtain ⟨hend, _⟩ := hwf.relocs x hx
      rw [hvalue x hx, hword x]
      unfold contentWord
      congr 2
      apply List.map_congr_left
      intro k hk
      rw [List.mem_range] at hk
      show m' (sec x.1 + x.2.offset + k) = _
      rw [Nat.add_assoc]
      exact hstored x.1 ht htalloc (x.2.offset + k) (by omega)
    . intro j hj halloc k hk hmiss
      rw [hother _ hmiss]
      exact hstored j hj halloc k hk

theorem both_passes (hplace : e.place m nsec 0 shoff e.brk (fun _ => 0) = some (cur, sec))
    (hwf : e.WellFormed m shoff nsec sec tab) (hkept : e.TablesKept m shoff nsec sec tab)
    : ∃ m₁, placeSections .open e nsec 0 shoff e.brk (fun _ => 0) m = .ok (.placed cur sec m₁)
      ∧ cur ≤ e.limit ∧ e.Loaded m shoff nsec sec m₁
      ∧ findSymtab .open e m₁ shoff nsec nsec 0 = .ok (e.symtab m shoff nsec nsec 0)
      ∧ relocateAll .open e shoff nsec sec tab nsec 0 m₁
        = .ok (true, m₁.patch ((e.relocs m shoff nsec nsec 0).map (e.patchOf m nsec sec tab))) := by
  obtain ⟨cur', sec', m₁, hpass, hplace', hfrom⟩ := @placeSections_fits e m e.brk nsec 0 shoff (fun _ => 0) m
    hwf.table hwf.sections (Nat.le_refl _) hwf.fits (fun _ _ => rfl)
  rw [hplace, Option.some.injEq, Prod.mk.injEq] at hplace'
  obtain ⟨rfl, rfl⟩ := hplace'
  have hloaded := hfrom.loaded
  exact ⟨m₁, hpass, hfrom.limit, hloaded, findSymtab_open hwf.table hloaded.same nsec (by omega),
    relocateAll_linked hwf (hloaded.sectionsAt hwf) hkept nsec (by omega) (hloaded.keeps hwf) (fun _ hx => hx)⟩

def entered (e : Applet) (nsec cur : Nat) (sec : Nat → Nat) (tab : Symtab) (m : Mem) : Checked ElfResult := do
  let entry ← findEntry .open e m nsec sec tab tab.count 0
  if entry ≠ 0 then
    return { entry := some entry, brk := cur, mem := m }
  else
    return refused e m

/--
For any object whose tables are not relocated themselves.
-/
theorem passes_link_iff (e : Applet) (m : Mem) (shoff nsec cur : Nat) (sec : Nat → Nat) (tab : Symtab)
    (hheader : header .open e m = .ok (some (shoff, nsec)))
    (hplace : e.place m nsec 0 shoff e.brk (fun _ => 0) = some (cur, sec))
    (htab : e.symtab m shoff nsec nsec 0 = some tab) (hwf : e.WellFormed m shoff nsec sec tab)
    (hkept : e.TablesKept m shoff nsec sec tab)
    : ∃ m', elfRun .open e m = e.entered nsec cur sec tab m'
      ∧ (e.Linked m shoff nsec sec tab m' ↔ e.TailsZero m shoff nsec sec) := by
  obtain ⟨m₁, hpass, hlimit, hloaded, hfind, hreloc⟩ := both_passes hplace hwf hkept
  refine ⟨_, ?_, linked_iff hwf hloaded⟩
  unfold elfRun
  rw [hheader]
  show (placeSections .open e nsec 0 shoff e.brk (fun _ => 0) m >>= _) = _
  rw [hpass]
  show (if e.limit < cur then _ else link .open e shoff nsec cur sec m₁) = _
  rw [if_neg (by omega)]
  unfold link
  rw [hfind, htab]
  show (relocateAll .open e shoff nsec sec tab nsec 0 m₁ >>= _) = _
  rw [hreloc]
  unfold entered
  show (findEntry .open e _ nsec sec tab tab.count 0 >>= _) = (findEntry .open e _ nsec sec tab tab.count 0 >>= _)
  congr 1
  funext entry
  simp

section Example

def headerBytes (type flags offset size link info addralign : Nat) : Bytes :=
  le32 0 ++ le32 type ++ le32 flags ++ le32 0 ++ le32 offset ++ le32 size ++ le32 link ++ le32 info
    ++ le32 addralign ++ le32 0

/--
An object file with six bytes of zeros, whose first word gets the value of an absolute symbol.
-/
def bssImage : Bytes :=
  [0x7F, 0x45, 0x4C, 0x46, 1, 1, 1, 0, 0, 0, 0, 0, 0, 0, 0, 0] ++ [1, 0, 3, 0] ++ le32 1 ++ le32 0
    ++ le32 0 ++ le32 52 ++ le32 0 ++ [52, 0, 0, 0, 0, 0, 40, 0, 5, 0, 0, 0]
    ++ headerBytes 0 0 0 0 0 0 0 ++ headerBytes 8 3 0 6 0 0 4 ++ headerBytes 2 0 252 32 3 0 4
    ++ headerBytes 3 0 284 1 0 0 1 ++ headerBytes 9 0 288 8 2 1 4
    ++ (le32 0 ++ le32 0 ++ le32 0 ++ le32 0) ++ (le32 0 ++ le32 5 ++ le32 0 ++ [0x10, 0, 0xF1, 0xFF])
    ++ le32 0 ++ (le32 0 ++ [1, 1, 0, 0])

def bssApplet : Applet where
  img := 0x200000
  size := 296
  brk := 0x1000000
  limit := 0x4000000
  exports := []
  img_le := by decide
  le_brk := farApplet.le_brk
  brk_lt := farApplet.brk_lt
  limit_lt := farApplet.limit_lt
  disjoint := by decide
  size_lt := by decide
  names := farApplet.names

def bssMem (dirty : Bool) : Mem :=
  Mem.writeBytes (fun _ => if dirty then 0xFF else 0) 0x200000 bssImage

def bssPlaced (dirty : Bool) : Nat × (Nat → Nat) :=
  (bssApplet.place (bssMem dirty) 5 0 52 bssApplet.brk (fun _ => 0)).getD (0, fun _ => 0)

def bssTab (dirty : Bool) : Symtab :=
  (bssApplet.symtab (bssMem dirty) 52 5 5 0).getD ⟨0, 0, 0, 0⟩

theorem bss_header (dirty : Bool) : header .open bssApplet (bssMem dirty) = .ok (some (52, 5)) := by
  cases dirty <;> rfl

theorem bss_computed (dirty : Bool)
    : ((bssApplet.place (bssMem dirty) 5 0 52 bssApplet.brk (fun _ => 0)).isSome
        ∧ (bssApplet.symtab (bssMem dirty) 52 5 5 0).isSome)
      ∧ (∀ j < 5, isAlloc (bssApplet.shdr (bssMem dirty) (52 + 40 * j)) →
          (bssApplet.shdr (bssMem dirty) (52 + 40 * j)).addralign = 2 ^ 2
          ∧ ((bssApplet.shdr (bssMem dirty) (52 + 40 * j)).type ≠ 8 →
            (bssApplet.shdr (bssMem dirty) (52 + 40 * j)).size ≠ 0 →
            (bssApplet.shdr (bssMem dirty) (52 + 40 * j)).offset + (bssApplet.shdr (bssMem dirty) (52 + 40 * j)).size
              ≤ bssApplet.size))
      ∧ bssApplet.Fits (bssMem dirty) 5 52 bssApplet.brk
      ∧ ((bssTab dirty).off + 16 * (bssTab dirty).count ≤ bssApplet.size
        ∧ (bssTab dirty).str + (bssTab dirty).strSize ≤ bssApplet.size)
      ∧ (∀ i < (bssTab dirty).count,
        (bssApplet.sym (bssMem dirty) ((bssTab dirty).off + 16 * i)).name + 0 < (bssTab dirty).strSize
          ∧ bssApplet.byte (bssMem dirty)
            ((bssTab dirty).str + (bssApplet.sym (bssMem dirty) ((bssTab dirty).off + 16 * i)).name + 0) = 0)
      ∧ (∀ j < 5, bssApplet.IsGroup (bssMem dirty) 52 5 j →
        (bssApplet.shdr (bssMem dirty) (52 + 40 * j)).offset
            + (bssApplet.shdr (bssMem dirty) (52 + 40 * j)).size / 8 * 8
          ≤ bssApplet.size)
      ∧ (∀ x ∈ bssApplet.relocs (bssMem dirty) 52 5 5 0,
        (x.2.offset + 4 ≤ (bssApplet.shdr (bssMem dirty) (52 + 40 * x.1)).size
          ∧ bssApplet.Applies (bssMem dirty) 5 (bssPlaced dirty).2 (bssTab dirty)
            (bssApplet.shdr (bssMem dirty) (52 + 40 * x.1)).size x.2)
        ∧ bssApplet.img + bssApplet.size ≤ x.addr (bssPlaced dirty).2)
      ∧ ((bssApplet.relocs (bssMem dirty) 52 5 5 0).map
        (bssApplet.patchOf (bssMem dirty) 5 (bssPlaced dirty).2 (bssTab dirty))).Pairwise Patch.Apart := by
  revert dirty
  decide +kernel

theorem bss_placed (dirty : Bool)
    : bssApplet.place (bssMem dirty) 5 0 52 bssApplet.brk (fun _ => 0)
      = some ((bssPlaced dirty).1, (bssPlaced dirty).2) := by
  obtain ⟨p, hp⟩ := Option.isSome_iff_exists.mp (bss_computed dirty).1.1
  unfold bssPlaced
  rw [hp]
  rfl

theorem bss_tab (dirty : Bool) : bssApplet.symtab (bssMem dirty) 52 5 5 0 = some (bssTab dirty) := by
  obtain ⟨tab, htab⟩ := Option.isSome_iff_exists.mp (bss_computed dirty).1.2
  unfold bssTab
  rw [htab]
  rfl

theorem bss_wellFormed (dirty : Bool)
    : bssApplet.WellFormed (bssMem dirty) 52 5 (bssPlaced dirty).2 (bssTab dirty) := by
  obtain ⟨-, hsections, hfits, ⟨hsymbols, hstrings⟩, hnames, hgroups, hrelocs, hapart⟩ := bss_computed dirty
  exact {
    img := by decide
    table := by decide
    sections := fun j hj =>
      ⟨fun halloc => .inr ⟨2, (hsections j hj halloc).1⟩, fun halloc => (hsections j hj halloc).2⟩
    fits := hfits
    symbols := hsymbols
    strings := hstrings
    names := fun i hi _ => ⟨0, hnames i hi⟩
    groups := hgroups
    relocs := fun x hx => (hrelocs x hx).1
    apart := hapart
  }

theorem bss_tablesKept (dirty : Bool)
    : bssApplet.TablesKept (bssMem dirty) 52 5 (bssPlaced dirty).2 (bssTab dirty) := by
  intro x hx off hin
  have hlt := (bss_wellFormed dirty).lt_size hin
  have hle := ((bss_computed dirty).2.2.2.2.2.2.1 x hx).2
  exact .inl (show bssApplet.img + off < x.addr (bssPlaced dirty).2 by omega)

end Example

theorem passes_link_iff_bss
    : ∃ m', elfRun .open bssApplet (bssMem false)
        = bssApplet.entered 5 (bssPlaced false).1 (bssPlaced false).2 (bssTab false) m'
      ∧ bssApplet.Linked (bssMem false) 52 5 (bssPlaced false).2 (bssTab false) m' := by
  obtain ⟨m', hrun, hlinked⟩ := passes_link_iff bssApplet (bssMem false) 52 5 _ _ _ (bss_header false)
    (bss_placed false) (bss_tab false) (bss_wellFormed false) (bss_tablesKept false)
  refine ⟨m', hrun, hlinked.mpr ?_⟩
  intro j hj halloc h8 k hge hk
  have hzero : ∀ j < 5, isAlloc (bssApplet.shdr (bssMem false) (52 + 40 * j)) →
      (bssApplet.shdr (bssMem false) (52 + 40 * j)).type = 8 →
      ∀ k < (bssApplet.shdr (bssMem false) (52 + 40 * j)).size, bssMem false ((bssPlaced false).2 j + k) = 0 := by
    decide +kernel
  exact hzero j hj halloc h8 k hk

/--
The last of six bytes of zeros keeps what it was.
-/
theorem passes_unlinked
    : bssApplet.WellFormed (bssMem true) 52 5 (bssPlaced true).2 (bssTab true)
      ∧ ∃ m₁ m₂, placeSections .open bssApplet 5 0 52 bssApplet.brk (fun _ => 0) (bssMem true)
          = .ok (.placed (bssPlaced true).1 (bssPlaced true).2 m₁)
        ∧ relocateAll .open bssApplet 52 5 (bssPlaced true).2 (bssTab true) 5 0 m₁ = .ok (true, m₂)
        ∧ ¬bssApplet.Linked (bssMem true) 52 5 (bssPlaced true).2 (bssTab true) m₂ := by
  have hwf := bss_wellFormed true
  obtain ⟨m₁, hpass, _, hloaded, _, hreloc⟩ := both_passes (bss_placed true) hwf (bss_tablesKept true)
  refine ⟨hwf, m₁, _, hpass, hreloc, ?_⟩
  rw [linked_iff hwf hloaded]
  intro htails
  have hzero := htails 1 (by decide) (by decide +kernel) (by decide +kernel) 5 (by decide +kernel) (by decide +kernel)
  have hdirty : bssMem true ((bssPlaced true).2 1 + 5) = 0xFF := by decide +kernel
  rw [hdirty] at hzero
  contradiction

end Main

end Applet
end TanjaOS
