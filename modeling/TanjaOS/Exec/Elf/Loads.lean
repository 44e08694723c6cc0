import TanjaOS.Exec.Elf.Impl

/-!
What an image has to be like in order to be loaded with every access in its place. All of it is said
about the image as it is before, where the sections go follows from their headers alone.
-/

open Lib

namespace TanjaOS
namespace Applet

variable (e : Applet)

/--
The `n` bytes from offset `off` on are bytes of the image.
-/
def Inside (off n : Nat) : Prop :=
  off % 2 ^ 32 + n ≤ e.size

/--
The `n` bytes from `addr` on belong to the region.
-/
def InRegion (addr n : Nat) : Prop :=
  e.brk ≤ addr ∧ addr + n ≤ e.limit

def guard : ElfGuard where
  look off n := off + n ≤ e.size
  store addr n := e.brk ≤ addr ∧ addr + n ≤ e.limit
  index i size := i < size

variable (m : Mem)

def headerOf : Option (Nat × Nat) :=
  if 5 ≤ e.size ∧ e.word m 0 = 0x464C457F ∧ e.byte m 4 = 1 ∧ e.byte m 5 = 1 ∧ e.half m 16 = 1
      ∧ e.half m 18 = 3 ∧ e.half m 46 = 40 ∧ e.word m 32 ≠ 0 ∧ e.half m 48 ≠ 0 ∧ e.half m 48 ≤ 96
      ∧ add32 (e.word m 32) (e.half m 48 * 40) ≤ e.size then
    some (e.word m 32, e.half m 48)
  else
    none

/--
An image that is too short for a header fails a test before the header's end is looked at.
-/
def HeaderIn : Prop :=
  5 ≤ e.size ∧ e.word m 0 = 0x464C457F → e.byte m 4 = 1 → 6 ≤ e.size ∧
    (e.byte m 5 = 1 → 18 ≤ e.size ∧
      (e.half m 16 = 1 → 20 ≤ e.size ∧
        (e.half m 18 = 3 → 48 ≤ e.size ∧
          (e.half m 46 = 40 → e.word m 32 ≠ 0 → 50 ≤ e.size))))

/--
How many bytes are zeroed for a section of size `n`.
-/
def zeroExtent (n : Nat) : Nat :=
  if n % 4 = 0 then n else n / 4 * 4 + 1

def SlotIn : Slot → Prop
  | .zero addr n => 0 < n → e.InRegion addr (zeroExtent n)
  | .copy addr off n => 0 < n → e.Inside off n ∧ e.InRegion addr n
  | _ => True

/--
The headers of `n` sections from offset `off` on and the sections, up to one that is refused.
-/
def SectionsIn : (n off cur : Nat) → Prop
  | 0, _, _ => True
  | n + 1, off, cur =>
    let slot := e.slot cur (e.shdr m off)
    e.Inside (off + 8) 16
      ∧ (isAlloc (e.shdr m off) → e.Inside (off + 4) 32)
      ∧ e.SlotIn slot
      ∧ (slot ≠ .bad → SectionsIn n (off + 40) (slotEnd cur (e.shdr m off) slot))

/--
The end of the sections and their addresses, `none` if one of them is refused.
-/
def place : (n i off cur : Nat) → (sec : Nat → Nat) → Option (Nat × (Nat → Nat))
  | 0, _, _, cur, sec => some (cur, sec)
  | n + 1, i, off, cur, sec =>
    let slot := e.slot cur (e.shdr m off)
    if slot = .bad then
      none
    else
      place n (i + 1) (off + 40) (slotEnd cur (e.shdr m off) slot)
        (fun j => if j = i then slotAddr slot else sec j)

/--
The first symbol table of `n` sections from the `i`th on, with strings that it is linked to.
-/
def symtab (shoff nsec : Nat) : (n i : Nat) → Option Symtab
  | 0, _ => none
  | n + 1, i =>
    let s := e.shdr m (shoff + 40 * i)
    let str := e.shdr m (shoff + 40 * s.link)
    if s.type = 2 then
      if s.link < nsec ∧ str.type = 3 then
        e.symtabOf s str
      else
        none
    else
      symtab shoff nsec n (i + 1)

def SymtabIn (shoff nsec : Nat) : (n i : Nat) → Prop
  | 0, _ => True
  | n + 1, i =>
    let off := shoff + 40 * i
    let s := e.shdr m off
    let str := shoff + 40 * s.link
    e.Inside (off + 4) 4
      ∧ (s.type = 2 → e.Inside (off + 16) 12
        ∧ (s.link < nsec → e.Inside (str + 4) 4
          ∧ ((e.shdr m str).type = 3 → e.Inside (str + 16) 4)))
      ∧ (s.type ≠ 2 → SymtabIn shoff nsec n (i + 1))

/--
The string at offset `off` is `name`.
-/
def hasName : (name : Bytes) → (off : Nat) → Bool
  | [], off => e.byte m off = 0
  | c :: name, off => e.byte m off = c.toNat ∧ hasName name (off + 1)

/--
The string up to the first byte that differs from `name`.
-/
def NameIn : (name : Bytes) → (off : Nat) → Prop
  | [], off => e.Inside off 1
  | c :: name, off => e.Inside off 1 ∧ (e.byte m off = c.toNat → NameIn name (off + 1))

/--
What is exported under the name at offset `off`.
-/
def exportOf (off : Nat) : List (Bytes × Nat) → Option Nat
  | [] => none
  | x :: rest => if e.hasName m x.1 off then some x.2 else exportOf off rest

def ExportIn (off : Nat) : List (Bytes × Nat) → Prop
  | [] => True
  | x :: rest => e.NameIn m x.1 off ∧ (¬e.hasName m x.1 off → ExportIn off rest)

/--
The string at offset `off` ends.
-/
def Terminated (off : Nat) : Prop :=
  ∃ k, e.byte m (off + k) = 0 ∧ ∀ j ≤ k, e.Inside (off + j) 1

section Symbol

variable (nsec : Nat) (sec : Nat → Nat) (tab : Symtab)

/--
The value of the undefined symbol at offset `off`.
-/
def importOf (off : Nat) : Option Nat :=
  match e.exportOf m (tab.str + (e.sym m off).name) e.exports with
  | some addr => some addr
  | none => if (e.sym m off).weak then some 0 else none

/--
An undefined symbol has a name in the string table, which ends when it has to be printed.
-/
def ImportIn (off : Nat) : Prop :=
  let s := e.sym m off
  e.Inside off 4 ∧ s.name < tab.strSize ∧ e.ExportIn m (tab.str + s.name) e.exports
    ∧ (e.exportOf m (tab.str + s.name) e.exports = none →
        e.Inside (off + 12) 1 ∧ (¬s.weak → e.Terminated m (tab.str + s.name)))

/--
The value of the symbol at offset `off`.
-/
def valueOf (off : Nat) : Option Nat :=
  let s := e.sym m off
  if s.shndx = 0 then
    e.importOf m tab off
  else if s.shndx = 0xFFF1 then
    some s.value
  else if s.shndx = 0xFFF2 ∨ nsec ≤ s.shndx ∨ sec s.shndx = 0 then
    none
  else
    some (add32 (sec s.shndx) s.value)

/--
The symbol at offset `off`, as far as its value is needed.
-/
def SymIn (off : Nat) : Prop :=
  let s := e.sym m off
  e.Inside (off + 14) 2
    ∧ (s.shndx = 0 → e.ImportIn m tab off)
    ∧ (s.shndx = 0xFFF1 → e.Inside (off + 4) 4)
    ∧ (s.shndx ≠ 0 → s.shndx ≠ 0xFFF2 → s.shndx < nsec → sec s.shndx ≠ 0 → e.Inside (off + 4) 4)

variable (base size : Nat)

def Applies (r : Rel) : Prop :=
  r.offset < size ∧ r.sym < tab.count ∧ (r.type = 1 ∨ r.type = 2 ∨ r.type = 4)
    ∧ e.valueOf m nsec sec tab (tab.off + 16 * r.sym) ≠ none

def RelIn (r : Rel) : Prop :=
  (r.offset < size → r.sym < tab.count → e.SymIn m nsec sec tab (tab.off + 16 * r.sym))
    ∧ (e.Applies m nsec sec tab size r → e.InRegion (add32 base r.offset) 4)

/--
`n` relocations from offset `off` on, up to one that fails.
-/
def RelsIn : (n off : Nat) → Prop
  | 0, _ => True
  | n + 1, off =>
    e.Inside off 8 ∧ e.RelIn m nsec sec tab base size (e.rel m off)
      ∧ (e.Applies m nsec sec tab size (e.rel m off) → RelsIn n (off + 8))

def AllApply : (n off : Nat) → Prop
  | 0, _ => True
  | n + 1, off => e.Applies m nsec sec tab size (e.rel m off) ∧ AllApply n (off + 8)

/--
The groups of relocations among `n` sections from the `i`th on.
-/
def GroupsIn (shoff : Nat) : (n i : Nat) → Prop
  | 0, _ => True
  | n + 1, i =>
    let off := shoff + 40 * i
    let s := e.shdr m off
    let size := (e.shdr m (shoff + 40 * s.info)).size
    e.Inside (off + 4) 4
      ∧ (s.type = 9 → e.Inside (off + 28) 4)
      ∧ (s.type = 9 → s.info < nsec → sec s.info ≠ 0 →
          e.Inside (off + 16) 8 ∧ e.Inside (shoff + 40 * s.info + 20) 4
            ∧ e.RelsIn m nsec sec tab (sec s.info) size (s.size / 8) s.offset)
      ∧ ((s.type = 9 → s.info < nsec → sec s.info ≠ 0 →
          e.AllApply m nsec sec tab size (s.size / 8) s.offset) →
        GroupsIn shoff n (i + 1))

/--
The address of `main`, 0 without one among `n` symbols from the `i`th on.
-/
def entryOf : (n i : Nat) → Nat
  | 0, _ => 0
  | n + 1, i =>
    let s := e.sym m (tab.off + 16 * i)
    if e.hasName m [109, 97, 105, 110] (tab.str + s.name) ∧ s.shndx ≠ 0 then
      if s.shndx = 0xFFF1 then s.value else add32 (sec s.shndx) s.value
    else
      entryOf n (i + 1)

/--
The symbols up to `main`, which is absolute or in a section of the table, among `n` from the `i`th
on.
-/
def EntryIn : (n i : Nat) → Prop
  | 0, _ => True
  | n + 1, i =>
    let off := tab.off + 16 * i
    let s := e.sym m off
    let isMain := e.hasName m [109, 97, 105, 110] (tab.str + s.name)
    e.Inside off 4 ∧ s.name < tab.strSize
      ∧ e.NameIn m [109, 97, 105, 110] (tab.str + s.name)
      ∧ (isMain → e.Inside (off + 14) 2)
      ∧ (isMain → s.shndx ≠ 0 → e.Inside (off + 4) 4 ∧ (s.shndx = 0xFFF1 ∨ s.shndx < nsec))
      ∧ ((isMain → s.shndx = 0) → EntryIn n (i + 1))

end Symbol

/--
The image loads with every access in its place.
-/
def Loads : Prop :=
  e.HeaderIn m ∧
    ∀ shoff nsec, e.headerOf m = some (shoff, nsec) →
      e.SectionsIn m nsec shoff e.brk ∧
        ∀ cur sec, e.place m nsec 0 shoff e.brk (fun _ => 0) = some (cur, sec) → cur ≤ e.limit →
          e.SymtabIn m shoff nsec nsec 0 ∧
            ∀ tab, e.symtab m shoff nsec nsec 0 = some tab →
              e.GroupsIn m nsec sec tab shoff nsec 0 ∧ e.EntryIn m nsec tab tab.count 0

end Applet

end TanjaOS
