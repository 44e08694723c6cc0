import TanjaOS.Exec.Elf.Fits

/-!
Pass 2 for an object whose tables are in bounds: the relocations are applied one after the other.
-/

open Lib

namespace TanjaOS
namespace Applet

open Checked

section Spec

abbrev Place := Nat × Rel

def Place.addr (sec : Nat → Nat) (x : Place) : Nat :=
  sec x.1 + x.2.offset

variable (e : Applet) (m : Mem) (shoff nsec : Nat)

/--
Section `j` has relocations for a section that is allocated.
-/
def IsGroup (j : Nat) : Prop :=
  (e.shdr m (shoff + 40 * j)).type = 9 ∧ (e.shdr m (shoff + 40 * j)).info < nsec
    ∧ isAlloc (e.shdr m (shoff + 40 * (e.shdr m (shoff + 40 * j)).info))

instance (j : Nat) : Decidable (e.IsGroup m shoff nsec j) :=
  inferInstanceAs (Decidable (_ ∧ _ ∧ _))

def rels : (n off : Nat) → List Rel
  | 0, _ => []
  | n + 1, off => e.rel m off :: rels n (off + 8)

/--
The relocations of `n` sections from the `i`th on.
-/
def relocs : (n i : Nat) → List Place
  | 0, _ => []
  | n + 1, i =>
    let s := e.shdr m (shoff + 40 * i)
    (if e.IsGroup m shoff nsec i then (e.rels m (s.size / 8) s.offset).map (fun r => (s.info, r)) else [])
      ++ relocs n (i + 1)

/--
Byte `k` of a section before it is relocated.
-/
def content (s : Shdr) (k : Nat) : Byte :=
  if s.type = 8 then 0 else m (e.img + s.offset + k)

def contentWord (s : Shdr) (off : Nat) : Nat :=
  ofLe32 ((List.range 4).map (fun k => e.content m s (off + k)))

variable (sec : Nat → Nat) (tab : Symtab)

/--
What becomes of the word `a` at a place.
-/
def relocated (x : Place) (a : Nat) : Nat :=
  let s := (e.valueOf m nsec sec tab (tab.off + 16 * x.2.sym)).getD 0
  if x.2.type = 1 then add32 s a else sub32 (add32 s a) (x.addr sec)

def patchOf (x : Place) : Patch where
  addr := x.addr sec
  value := e.relocated m nsec sec tab x

/--
An object whose tables and sections are in bounds and that fits in the region. Its relocations can be
applied, at places of four bytes that do not overlap.
-/
structure WellFormed : Prop where
  img : 0 < e.img
  table : shoff + 40 * nsec ≤ e.size
  sections : ∀ j < nsec, e.SectionOk (e.shdr m (shoff + 40 * j))
  fits : e.Fits m nsec shoff e.brk
  symbols : tab.off + 16 * tab.count ≤ e.size
  strings : tab.str + tab.strSize ≤ e.size
  names : ∀ i < tab.count, (e.sym m (tab.off + 16 * i)).shndx = 0 →
    ∃ k, (e.sym m (tab.off + 16 * i)).name + k < tab.strSize
      ∧ e.byte m (tab.str + (e.sym m (tab.off + 16 * i)).name + k) = 0
  groups : ∀ j < nsec, e.IsGroup m shoff nsec j →
    (e.shdr m (shoff + 40 * j)).offset + (e.shdr m (shoff + 40 * j)).size / 8 * 8 ≤ e.size
  relocs : ∀ x ∈ e.relocs m shoff nsec nsec 0, x.2.offset + 4 ≤ (e.shdr m (shoff + 40 * x.1)).size
    ∧ e.Applies m nsec sec tab (e.shdr m (shoff + 40 * x.1)).size x.2
  apart : ((e.relocs m shoff nsec nsec 0).map (e.patchOf m nsec sec tab)).Pairwise Patch.Apart

/--
Offset `off` of the image belongs to the section table, the symbols, their names or the relocations.
-/
def InTable (off : Nat) : Prop :=
  (shoff ≤ off ∧ off < shoff + 40 * nsec)
    ∨ (tab.off ≤ off ∧ off < tab.off + 16 * tab.count)
    ∨ (tab.str ≤ off ∧ off < tab.str + tab.strSize)
    ∨ ∃ j < nsec, e.IsGroup m shoff nsec j ∧ (e.shdr m (shoff + 40 * j)).offset ≤ off
      ∧ off < (e.shdr m (shoff + 40 * j)).offset + (e.shdr m (shoff + 40 * j)).size / 8 * 8

/--
No section that is used in place has a relocation in a table.
-/
def TablesKept : Prop :=
  ∀ x ∈ e.relocs m shoff nsec nsec 0, ∀ off, e.InTable m shoff nsec tab off →
    (e.patchOf m nsec sec tab x).Misses (e.img + off)

/--
The bytes of zero sections that are not zeroed are zero.
-/
def TailsZero : Prop :=
  ∀ j < nsec, isAlloc (e.shdr m (shoff + 40 * j)) → (e.shdr m (shoff + 40 * j)).type = 8 →
    ∀ k, zeroExtent (e.shdr m (shoff + 40 * j)).size ≤ k → k < (e.shdr m (shoff + 40 * j)).size →
      m (sec j + k) = 0

/--
The sections lie in the region one beside the other, aligned, with their relocations applied.
-/
structure Linked (m' : Mem) : Prop where
  inRegion : ∀ j < nsec, Copied (e.shdr m (shoff + 40 * j)) →
    e.InRegion (sec j) (e.shdr m (shoff + 40 * j)).size
  aligned : ∀ j < nsec, Copied (e.shdr m (shoff + 40 * j)) → alignOf (e.shdr m (shoff + 40 * j)) ∣ sec j
  apart : ∀ j k, j < k → k < nsec → Copied (e.shdr m (shoff + 40 * j)) → Copied (e.shdr m (shoff + 40 * k)) →
    sec j + (e.shdr m (shoff + 40 * j)).size ≤ sec k ∨ sec k + (e.shdr m (shoff + 40 * k)).size ≤ sec j
  places : ∀ x ∈ e.relocs m shoff nsec nsec 0, m'.read32 (x.addr sec)
    = e.relocated m nsec sec tab x (e.contentWord m (e.shdr m (shoff + 40 * x.1)) x.2.offset)
  bytes : ∀ j < nsec, isAlloc (e.shdr m (shoff + 40 * j)) → ∀ k < (e.shdr m (shoff + 40 * j)).size,
    (∀ x ∈ e.relocs m shoff nsec nsec 0, (e.patchOf m nsec sec tab x).Misses (sec j + k)) →
      m' (sec j + k) = e.content m (e.shdr m (shoff + 40 * j)) k

end Spec

instance (e : Applet) (m : Mem) (nsec : Nat) (sec : Nat → Nat) (tab : Symtab) (size : Nat) (r : Rel)
    : Decidable (e.Applies m nsec sec tab size r) :=
  inferInstanceAs (Decidable (_ ∧ _ ∧ _ ∧ _))

section Read

variable {e : Applet} {m m' : Mem} {off : Nat}

theorem half_congr (h : ∀ k < 2, e.byte m' (off + k) = e.byte m (off + k)) : e.half m' off = e.half m off := by
  unfold half
  rw [h 1 (by decide), show e.byte m' off = e.byte m off from h 0 (by decide)]

theorem word_congr (h : ∀ k < 4, e.byte m' (off + k) = e.byte m (off + k)) : e.word m' off = e.word m off := by
  unfold word
  rw [half_congr (fun k hk => h k (by omega)),
    @half_congr e m m' (off + 2) (fun k hk => by rw [Nat.add_assoc]; exact h (2 + k) (by omega))]

theorem word_part {n : Nat} (h : ∀ k < n, e.byte m' (off + k) = e.byte m (off + k)) (i : Nat) (hi : i + 4 ≤ n)
    : e.word m' (off + i) = e.word m (off + i) := by
  apply word_congr
  intro k hk
  rw [Nat.add_assoc]
  exact h (i + k) (by omega)

theorem shdr_congr (h : ∀ k < 40, e.byte m' (off + k) = e.byte m (off + k)) : e.shdr m' off = e.shdr m off := by
  unfold shdr
  congr 1
  . exact word_part h 4 (by omega)
  . exact word_part h 8 (by omega)
  . exact word_part h 16 (by omega)
  . exact word_part h 20 (by omega)
  . exact word_part h 24 (by omega)
  . exact word_part h 28 (by omega)
  . exact word_part h 32 (by omega)

theorem rel_congr (h : ∀ k < 8, e.byte m' (off + k) = e.byte m (off + k)) : e.rel m' off = e.rel m off := by
  unfold rel
  rw [word_congr (fun k hk => h k (by omega)), word_part h 4 (by omega)]

theorem sym_congr (h : ∀ k < 16, e.byte m' (off + k) = e.byte m (off + k)) : e.sym m' off = e.sym m off := by
  unfold sym
  rw [word_congr (fun k hk => h k (by omega)), word_part h 4 (by omega), h 12 (by omega),
    @half_congr e m m' (off + 14) (fun k hk => by rw [Nat.add_assoc]; exact h (14 + k) (by omega))]

theorem hasName_congr (name : Bytes) (hname : 0 ∉ name) {k : Nat} (hend : e.byte m (off + k) = 0)
    (h : ∀ j ≤ k, e.byte m' (off + j) = e.byte m (off + j))
    : e.hasName m' name off = e.hasName m name off := by
  induction name generalizing off k with
  | nil =>
    unfold hasName
    rw [show e.byte m' off = e.byte m off from h 0 (by omega)]
  | cons c name ih =>
    have hhead : e.byte m' off = e.byte m off := h 0 (by omega)
    unfold hasName
    rw [hhead]
    by_cases hc : e.byte m off = c.toNat
    . -- `name` has no NUL, so the string goes on
      have hne : c ≠ 0 := fun hzero => hname (by rw [hzero]; exact List.mem_cons_self)
      cases k with
      | zero =>
        rw [Nat.add_zero, hc] at hend
        exact absurd (UInt8.toNat_inj.mp hend) hne
      | succ k =>
        rw [@ih (off + 1) (fun hmem => hname (List.mem_cons_of_mem _ hmem)) k
          (by rw [Nat.add_right_comm, Nat.add_assoc]; exact hend)
          (fun j hj => by rw [Nat.add_right_comm, Nat.add_assoc]; exact h (j + 1) (by omega))]
    . simp [hc]

theorem exportOf_congr (table : List (Bytes × Nat)) (hnames : ∀ x ∈ table, 0 ∉ x.1) {k : Nat}
    (hend : e.byte m (off + k) = 0) (h : ∀ j ≤ k, e.byte m' (off + j) = e.byte m (off + j))
    : e.exportOf m' off table = e.exportOf m off table := by
  induction table with
  | nil => rfl
  | cons x table ih =>
    unfold exportOf
    rw [hasName_congr x.1 (hnames x List.mem_cons_self) hend h,
      ih (fun y hy => hnames y (List.mem_cons_of_mem _ hy))]

theorem nameIs_open (e : Applet) (m : Mem) (name : Bytes) (off : Nat)
    : nameIs .open e m name off = .ok (e.hasName m name off) := by
  induction name generalizing off with
  | nil => rfl
  | cons c name ih =>
    unfold nameIs hasName
    rw [look_open]
    show (if e.byte m off = c.toNat then nameIs .open e m name (off + 1) else .ok false) = _
    by_cases hc : e.byte m off = c.toNat
    . rw [if_pos hc, ih]
      simp [hc]
    . rw [if_neg hc]
      simp [hc]

theorem exportLookup_open (e : Applet) (m : Mem) (off : Nat) (table : List (Bytes × Nat))
    : exportLookup .open e m off table = .ok (e.exportOf m off table) := by
  induction table with
  | nil => rfl
  | cons x table ih =>
    unfold exportLookup exportOf
    rw [nameIs_open]
    show (if e.hasName m x.1 off = true then .ok (some x.2) else exportLookup .open e m off table) = _
    rw [ih]
    split <;> rfl

end Read

section Symbols

variable {e : Applet} {m m' : Mem} {nsec shoff off : Nat} {sec : Nat → Nat} {tab : Symtab}

theorem undefinedValue_open (h : e.importOf m tab off ≠ none)
    : undefinedValue .open e m tab off = .ok (e.importOf m tab off) := by
  unfold importOf at h ⊢
  unfold undefinedValue
  rw [look_open]
  show (exportLookup .open e m _ _ >>= _) = _
  rw [exportLookup_open]
  cases hexport : e.exportOf m (tab.str + (e.sym m off).name) e.exports with
  | some addr => rfl
  | none =>
    rw [hexport] at h
    dsimp only at h ⊢
    split at h
    . next hweak =>
      rw [if_pos hweak, if_pos hweak]
      rfl
    . contradiction

theorem symbolValue_open (h : e.valueOf m nsec sec tab off ≠ none)
    : symbolValue .open e m nsec sec tab off = .ok (e.valueOf m nsec sec tab off) := by
  unfold valueOf at h ⊢
  unfold symbolValue
  rw [look_open]
  dsimp only at h ⊢
  show (if (e.sym m off).shndx = 0 then _ else _) = _
  split at h
  . next hundef =>
    rw [if_pos hundef, if_pos hundef]
    exact undefinedValue_open h
  . next hundef =>
    rw [if_neg hundef, if_neg hundef]
    split at h
    . next habs =>
      rw [if_pos habs, if_pos habs]
      rfl
    . next habs =>
      rw [if_neg habs, if_neg habs]
      split at h
      . contradiction
      . next hsec =>
        rw [not_or, not_or] at hsec
        obtain ⟨hcommon, hlt, hne⟩ := hsec
        rw [if_neg hcommon, if_pos (by omega), if_neg hne, if_neg (by omega)]
        rfl

theorem relocate_open {x : Place} {size : Nat} (h : e.Applies m nsec sec tab size x.2)
    (hplace : sec x.1 + x.2.offset < 2 ^ 32)
    : relocate .open e m nsec sec tab (sec x.1) size x.2
      = .ok (true, m.write32 (x.addr sec) (e.relocated m nsec sec tab x (m.read32 (x.addr sec)))) := by
  obtain ⟨hoff, hsym, htype, hvalue⟩ := h
  have haddr : add32 (sec x.1) x.2.offset = x.addr sec := Nat.mod_eq_of_lt hplace
  obtain ⟨v, hv⟩ := Option.ne_none_iff_exists'.mp hvalue
  unfold relocate relocated
  dsimp only
  rw [if_neg (by omega), if_neg (by omega), symbolValue_open hvalue, hv, haddr]
  show (if x.2.type = 1 then _ else _) = _
  by_cases hone : x.2.type = 1
  . rw [if_pos hone, if_pos hone]
    rfl
  . rw [if_neg hone, if_neg hone, if_pos (htype.resolve_left hone)]
    rfl

end Symbols

section Tables

variable {e : Applet} {m m' : Mem} {shoff nsec : Nat} {sec : Nat → Nat} {tab : Symtab}

def Keeps (e : Applet) (m : Mem) (shoff nsec : Nat) (tab : Symtab) (m' : Mem) : Prop :=
  ∀ off, e.InTable m shoff nsec tab off → e.byte m' off = e.byte m off

theorem WellFormed.lt_size (h : e.WellFormed m shoff nsec sec tab) {off : Nat} (hin : e.InTable m shoff nsec tab off)
    : off < e.size := by
  have := h.table
  have := h.symbols
  have := h.strings
  obtain hsh | hsym | hstr | ⟨j, hj, hgroup, hrel⟩ := hin
  . omega
  . omega
  . omega
  . have := h.groups j hj hgroup
    omega

theorem Keeps.write (h : e.Keeps m shoff nsec tab m') (hwf : e.WellFormed m shoff nsec sec tab) {p : Patch} (v : Nat)
    (hp : ∀ off, e.InTable m shoff nsec tab off → p.Misses (e.img + off))
    : e.Keeps m shoff nsec tab (m'.write32 p.addr v) := by
  intro off hin
  have hlt := hwf.lt_size hin
  have := e.img_le
  rw [← h off hin]
  unfold byte
  rw [Nat.mod_eq_of_lt (by omega)]
  cases hp off hin with
  | inl hbefore => rw [Mem.write32_of_lt hbefore]
  | inr hbehind => rw [Mem.write32_of_ge hbehind]

theorem Keeps.shdr_eq (h : e.Keeps m shoff nsec tab m') {j : Nat} (hj : j < nsec)
    : e.shdr m' (shoff + 40 * j) = e.shdr m (shoff + 40 * j) :=
  shdr_congr (fun k hk => h _ (.inl (by omega)))

theorem Keeps.sym_eq (h : e.Keeps m shoff nsec tab m') {i : Nat} (hi : i < tab.count)
    : e.sym m' (tab.off + 16 * i) = e.sym m (tab.off + 16 * i) :=
  sym_congr (fun k hk => h _ (.inr (.inl (by omega))))

theorem Keeps.valueOf_eq (h : e.Keeps m shoff nsec tab m') (hwf : e.WellFormed m shoff nsec sec tab) {i : Nat}
    (hi : i < tab.count)
    : e.valueOf m' nsec sec tab (tab.off + 16 * i) = e.valueOf m nsec sec tab (tab.off + 16 * i) := by
  unfold valueOf
  rw [h.sym_eq hi]
  dsimp only
  split
  . next hundef =>
    obtain ⟨k, hk, hend⟩ := hwf.names i hi hundef
    have hexport := exportOf_congr e.exports e.names hend
      (fun j hj => h (tab.str + (e.sym m (tab.off + 16 * i)).name + j) (.inr (.inr (.inl (by omega)))))
    unfold importOf
    rw [h.sym_eq hi, hexport]
  . rfl

theorem Keeps.applies (h : e.Keeps m shoff nsec tab m') (hwf : e.WellFormed m shoff nsec sec tab) {size : Nat}
    {r : Rel} (happlies : e.Applies m nsec sec tab size r)
    : e.Applies m' nsec sec tab size r := by
  obtain ⟨hoff, hsym, htype, hvalue⟩ := happlies
  exact ⟨hoff, hsym, htype, by rw [h.valueOf_eq hwf hsym]; exact hvalue⟩

theorem Keeps.relocated_eq (h : e.Keeps m shoff nsec tab m') (hwf : e.WellFormed m shoff nsec sec tab) {x : Place}
    (hsym : x.2.sym < tab.count)
    : e.relocated m' nsec sec tab x = e.relocated m nsec sec tab x := by
  funext a
  unfold relocated
  rw [h.valueOf_eq hwf hsym]

end Tables

section Pass

variable {e : Applet} {m : Mem} {shoff nsec : Nat} {sec : Nat → Nat} {tab : Symtab}

theorem relocateGroup_linked (hwf : e.WellFormed m shoff nsec sec tab) {t size : Nat} (n : Nat) {off : Nat} {m' : Mem}
    (hkeeps : e.Keeps m shoff nsec tab m')
    (hin : ∀ k, off ≤ k → k < off + 8 * n → e.InTable m shoff nsec tab k)
    (hall : ∀ r ∈ e.rels m n off, e.Applies m nsec sec tab size r ∧ sec t + r.offset < 2 ^ 32
      ∧ ∀ k, e.InTable m shoff nsec tab k → (e.patchOf m nsec sec tab (t, r)).Misses (e.img + k))
    : relocateGroup .open e nsec sec tab (sec t) size n off m'
        = .ok (true, m'.patch ((e.rels m n off).map (fun r => e.patchOf m nsec sec tab (t, r))))
      ∧ e.Keeps m shoff nsec tab (m'.patch ((e.rels m n off).map (fun r => e.patchOf m nsec sec tab (t, r)))) := by
  induction n generalizing off m' with
  | zero => exact ⟨rfl, hkeeps⟩
  | succ n ih =>
    obtain ⟨happlies, hplace, hmiss⟩ := hall _ List.mem_cons_self
    have hrel : e.rel m' off = e.rel m off := rel_congr (fun k hk => hkeeps _ (hin _ (by omega) (by omega)))
    have hone := @relocate_open e m' nsec sec tab (t, e.rel m off) size (hkeeps.applies hwf happlies) hplace
    rw [hkeeps.relocated_eq hwf happlies.2.1] at hone
    have hnext := hkeeps.write hwf (e.relocated m nsec sec tab (t, e.rel m off)
      (m'.read32 (Place.addr sec (t, e.rel m off)))) hmiss
    obtain ⟨hrest, hkept⟩ := @ih (off + 8) _ hnext (fun k hle hlt => hin k (by omega) (by omega))
      (fun r hr => hall r (List.mem_cons_of_mem _ hr))
    refine ⟨?_, hkept⟩
    unfold relocateGroup
    rw [look_open, hrel]
    show (relocate .open e m' nsec sec tab (sec t) size (e.rel m off) >>= _) = _
    rw [hone]
    exact hrest

structure SectionsAt (e : Applet) (m : Mem) (shoff nsec : Nat) (sec : Nat → Nat) : Prop where
  alloc : ∀ j < nsec, sec j ≠ 0 ↔ isAlloc (e.shdr m (shoff + 40 * j))
  inside : ∀ j < nsec, isAlloc (e.shdr m (shoff + 40 * j)) →
    sec j + (e.shdr m (shoff + 40 * j)).size ≤ 2 ^ 32

theorem relocateAll_linked (hwf : e.WellFormed m shoff nsec sec tab) (hat : e.SectionsAt m shoff nsec sec)
    (hkept : e.TablesKept m shoff nsec sec tab) (n : Nat) {i : Nat} {m' : Mem} (hi : i + n = nsec)
    (hkeeps : e.Keeps m shoff nsec tab m')
    (hsub : ∀ x ∈ e.relocs m shoff nsec n i, x ∈ e.relocs m shoff nsec nsec 0)
    : relocateAll .open e shoff nsec sec tab n i m'
        = .ok (true, m'.patch ((e.relocs m shoff nsec n i).map (e.patchOf m nsec sec tab))) := by
  induction n generalizing i m' with
  | zero => rfl
  | succ n ih =>
    have hshdr := hkeeps.shdr_eq (show i < nsec by omega)
    have hrest : ∀ x ∈ e.relocs m shoff nsec n (i + 1), x ∈ e.relocs m shoff nsec nsec 0 :=
      fun x hx => hsub x (List.mem_append_right _ hx)
    unfold relocateAll
    dsimp only
    rw [look_open, hshdr]
    show (if (e.shdr m (shoff + 40 * i)).type = 9 then _ else _) = _
    -- a group is skipped when its section is not allocated, which is when it has no address
    by_cases hgroup : e.IsGroup m shoff nsec i
    . have hparts := hgroup
      obtain ⟨htype, hinfo, halloc⟩ := hparts
      have hrelocs : e.relocs m shoff nsec (n + 1) i
          = (e.rels m ((e.shdr m (shoff + 40 * i)).size / 8) (e.shdr m (shoff + 40 * i)).offset).map
              (fun r => ((e.shdr m (shoff + 40 * i)).info, r)) ++ e.relocs m shoff nsec n (i + 1) := by
        conv => lhs; unfold relocs
        dsimp only
        rw [if_pos hgroup]
      have hsec := (hat.alloc _ hinfo).mpr halloc
      have hall : ∀ r ∈ e.rels m ((e.shdr m (shoff + 40 * i)).size / 8) (e.shdr m (shoff + 40 * i)).offset,
          e.Applies m nsec sec tab (e.shdr m (shoff + 40 * (e.shdr m (shoff + 40 * i)).info)).size r
            ∧ sec (e.shdr m (shoff + 40 * i)).info + r.offset < 2 ^ 32
            ∧ ∀ k, e.InTable m shoff nsec tab k →
              (e.patchOf m nsec sec tab ((e.shdr m (shoff + 40 * i)).info, r)).Misses (e.img + k) := by
        intro r hr
        have hmem := hsub ((e.shdr m (shoff + 40 * i)).info, r) (by
          rw [hrelocs]
          exact List.mem_append_left _ (List.mem_map_of_mem hr))
        obtain ⟨hend, happlies⟩ := hwf.relocs _ hmem
        dsimp only at hend
        have hinside := hat.inside _ hinfo halloc
        exact ⟨happlies, by omega, hkept _ hmem⟩
      obtain ⟨hdone, hnext⟩ := relocateGroup_linked hwf _ hkeeps
        (fun k hle hlt => .inr (.inr (.inr ⟨i, by omega, hgroup, hle, by omega⟩))) hall
      rw [if_pos htype, if_neg (by omega), hkeeps.shdr_eq hinfo, hrelocs, List.map_append, Mem.patch_append,
        List.map_map]
      show (relocateGroup .open e nsec sec tab _ _ _ _ m' >>= _) = _
      rw [hdone]
      exact ih (by omega) hnext hrest
    . have hrelocs : e.relocs m shoff nsec (n + 1) i = e.relocs m shoff nsec n (i + 1) := by
        conv => lhs; unfold relocs
        dsimp only
        rw [if_neg hgroup, List.nil_append]
      rw [hrelocs]
      by_cases htype : (e.shdr m (shoff + 40 * i)).type = 9
      . have hno : nsec ≤ (e.shdr m (shoff + 40 * i)).info ∨ sec (e.shdr m (shoff + 40 * i)).info = 0 := by
          by_contra hboth
          rw [not_or] at hboth
          exact hgroup ⟨htype, by omega, (hat.alloc _ (by omega)).mp hboth.2⟩
        rw [if_pos htype, if_pos hno]
        exact ih (by omega) hkeeps hrest
      . rw [if_neg htype]
        exact ih (by omega) hkeeps hrest

theorem findSymtab_open (hin : shoff + 40 * nsec ≤ e.size) {m' : Mem} (hsame : e.Same m m') (n : Nat) {i : Nat}
    (hi : i + n ≤ nsec)
    : findSymtab .open e m' shoff nsec n i = .ok (e.symtab m shoff nsec n i) := by
  have hsize := e.size_lt
  have hshdr : ∀ j < nsec, e.shdr m' (shoff + 40 * j) = e.shdr m (shoff + 40 * j) := by
    intro j hj
    apply shdr_eq hsame
    unfold Inside
    omega
  induction n generalizing i with
  | zero => rfl
  | succ n ih =>
    unfold findSymtab symtab
    dsimp only
    rw [look_open, hshdr i (by omega)]
    show (if (e.shdr m (shoff + 40 * i)).type = 2 then _ else _) = _
    by_cases htype : (e.shdr m (shoff + 40 * i)).type = 2
    . rw [if_pos htype, if_pos htype]
      show (if (e.shdr m (shoff + 40 * i)).link < nsec then _ else _) = _
      by_cases hlink : (e.shdr m (shoff + 40 * i)).link < nsec
      . rw [if_pos hlink]
        unfold withStrings
        rw [hshdr _ hlink]
        show (if (e.shdr m (shoff + 40 * (e.shdr m (shoff + 40 * i)).link)).type = 3 then _ else _) = _
        split
        . next hstr =>
          rw [if_pos ⟨hlink, hstr⟩]
          rfl
        . next hstr =>
          rw [if_neg (fun hboth => hstr hboth.2)]
          rfl
      . rw [if_neg hlink, if_neg (fun hboth => hlink hboth.1)]
        rfl
    . rw [if_neg htype, if_neg htype]
      exact ih (by omega)

end Pass

end Applet
end TanjaOS
