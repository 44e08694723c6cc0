import TanjaOS.Lib.Checked

/-!
`elf_run` up to the jump to the entry point: it places the sections of a relocatable object in the
applet region and applies the relocations. Every access is subject to a `ElfGuard`, with `ElfGuard.open`
the loader does what the machine does.
-/

open Lib

namespace TanjaOS

/--
Sums and differences of `uint32_t`.
-/
def add32 (x y : Nat) : Nat :=
  (x + y) % 2 ^ 32

def sub32 (x y : Nat) : Nat :=
  (x + (2 ^ 32 - y)) % 2 ^ 32

/--
`align_up`
-/
def alignUp (p a : Nat) : Nat :=
  if a ≤ 1 then p else add32 p (a - 1) &&& (2 ^ 32 - a)

/--
The accesses that are allowed: to `n` bytes from an offset in the image on, to `n` bytes from an
address on, to an entry of a table.
-/
structure ElfGuard where
  look : (off n : Nat) → Bool
  store : (addr n : Nat) → Bool
  index : (i size : Nat) → Bool

def ElfGuard.open : ElfGuard where
  look _ _ := true
  store _ _ := true
  index _ _ := true

/--
What a call of `elf_run` meets: the image, the region from `program_brk` to its limit, and the names
and addresses that the kernel exports. The image is somewhere outside of the region.
-/
structure Applet where
  img : Nat
  size : Nat
  brk : Nat
  limit : Nat
  exports : List (Bytes × Nat)
  img_le : img + size ≤ 2 ^ 32
  le_brk : 65536 ≤ brk
  brk_lt : brk < 2 ^ 32
  limit_lt : limit < 2 ^ 32
  disjoint : img + size ≤ brk ∨ limit ≤ img
  size_lt : size < 2 ^ 32
  names : ∀ x ∈ exports, 0 ∉ x.1

/--
The fields of a section header that are used.
-/
structure Shdr where
  type : Nat
  flags : Nat
  offset : Nat
  size : Nat
  link : Nat
  info : Nat
  addralign : Nat

/--
`symtab`, `nsyms` and `symstr`, as offsets in the image, and how long the string table is.
-/
structure Symtab where
  off : Nat
  count : Nat
  str : Nat
  strSize : Nat

structure Rel where
  offset : Nat
  sym : Nat
  type : Nat

structure Sym where
  name : Nat
  value : Nat
  weak : Bool
  shndx : Nat

/--
Where a section goes: nowhere, into the region from `addr` on as zeros, where it is in the image, or
into the region as a copy.
-/
inductive Slot where
  | skip
  | zero (addr n : Nat)
  | inPlace (addr : Nat)
  | copy (addr off n : Nat)
  | bad
  deriving DecidableEq

/--
The memory of a call that has returned -1, or what has been placed where.
-/
inductive Placed where
  | refused (mem : Mem)
  | placed (cur : Nat) (sec : Nat → Nat) (mem : Mem)

/--
`entry` is `none` when -1 is returned, otherwise the program is entered there.
-/
structure ElfResult where
  entry : Option Nat
  brk : Nat
  mem : Mem

namespace Applet

section Read

variable (e : Applet) (m : Mem)

def byte (off : Nat) : Nat :=
  (m ((e.img + off) % 2 ^ 32)).toNat

def half (off : Nat) : Nat :=
  e.byte m off + 256 * e.byte m (off + 1)

def word (off : Nat) : Nat :=
  e.half m off + 65536 * e.half m (off + 2)

/--
The section header at offset `off`.
-/
def shdr (off : Nat) : Shdr where
  type := e.word m (off + 4)
  flags := e.word m (off + 8)
  offset := e.word m (off + 16)
  size := e.word m (off + 20)
  link := e.word m (off + 24)
  info := e.word m (off + 28)
  addralign := e.word m (off + 32)

def rel (off : Nat) : Rel where
  offset := e.word m off
  sym := e.word m (off + 4) / 256
  type := e.word m (off + 4) % 256

def sym (off : Nat) : Sym where
  name := e.word m off
  value := e.word m (off + 4)
  weak := e.byte m (off + 12) / 16 = 2
  shndx := e.half m (off + 14)

end Read

def isAlloc (s : Shdr) : Bool :=
  s.flags / 2 % 2 = 1

/--
What pass 1 does with a section when `cur` is the end of the sections before.
-/
def slot (e : Applet) (cur : Nat) (s : Shdr) : Slot :=
  if isAlloc s then
    let cur := alignUp cur (if s.addralign ≠ 0 then s.addralign else 1)
    if s.type = 8 then
      .zero cur s.size
    else if 256 * 1024 ≤ s.size ∧ add32 s.offset s.size ≤ e.size then
      .inPlace (add32 e.img s.offset)
    else if 0 < s.size ∧ e.size < add32 s.offset s.size then
      .bad
    else
      .copy cur s.offset s.size
  else
    .skip

/--
`cur` after a section.
-/
def slotEnd (cur : Nat) (s : Shdr) : Slot → Nat
  | .zero addr n => add32 addr n
  | .copy addr _ n => add32 addr n
  | .inPlace _ => alignUp cur (if s.addralign ≠ 0 then s.addralign else 1)
  | _ => cur

def slotAddr : Slot → Nat
  | .zero addr _ => addr
  | .copy addr _ _ => addr
  | .inPlace addr => addr
  | _ => 0

variable (g : ElfGuard) (e : Applet)

/--
Looks at `n` bytes of the image.
-/
def look (off n : Nat) : Checked Unit :=
  check (g.look (off % 2 ^ 32) n) .load

def put (m : Mem) (addr : Nat) (bs : Bytes) : Checked Mem := do
  check (g.store addr bs.length) .store
  return m.writeBytes addr bs

/--
The tests of the ELF header. Returns the offset of the section table and its number of entries.
-/
def header (m : Mem) : Checked (Option (Nat × Nat)) := do
  if ¬(5 ≤ e.size ∧ e.word m 0 = 0x464C457F) then
    return none
  else
    look g 4 1
    if e.byte m 4 ≠ 1 then
      return none
    else
      look g 5 1
      if e.byte m 5 ≠ 1 then
        return none
      else
        look g 16 2
        if e.half m 16 ≠ 1 then
          return none
        else
          look g 18 2
          if e.half m 18 ≠ 3 then
            return none
          else
            look g 46 2
            if e.half m 46 ≠ 40 then
              return none
            else
              look g 32 4
              if e.word m 32 = 0 then
                return none
              else
                look g 48 2
                let nsec := e.half m 48
                if nsec = 0 ∨ 96 < nsec ∨ e.size < add32 (e.word m 32) (nsec * 40) then
                  return none
                else
                  return some (e.word m 32, nsec)

/--
The loop that zeroes `n` bytes at `addr`, from the `k`th on. Of an odd end only one byte is zeroed.
-/
def zeroFill (addr n : Nat) : (fuel k : Nat) → Mem → Checked Mem
  | 0, _, _ => .error .loop
  | fuel + 1, k, m => do
    if k < n then
      let m ← put g m (add32 addr k) (if add32 k 4 ≤ n then [0, 0, 0, 0] else [0])
      zeroFill addr n fuel (add32 k 4) m
    else
      return m

/--
Looks at the header of a section, at more of it if the section is allocated.
-/
def lookHeader (m : Mem) (off : Nat) : Checked Unit := do
  look g (off + 8) 16
  if isAlloc (e.shdr m off) then
    look g (off + 4) 32
  else
    return ()

def fillSlot (m : Mem) : Slot → Checked Mem
  | .zero addr n => zeroFill g addr n (2 ^ 30 + 1) 0 m
  | .copy addr off n =>
    if n = 0 then
      return m
    else do
      look g off n
      put g m addr ((List.range n).map (fun j => m ((e.img + (off + j)) % 2 ^ 32)))
  | _ => return m

/--
Pass 1, for `n` sections whose headers start at `off`. The addresses of the sections before the `i`th
are in `sec`.
-/
def placeSections : (n i off cur : Nat) → (sec : Nat → Nat) → Mem → Checked Placed
  | 0, _, _, cur, sec, m => return .placed cur sec m
  | n + 1, i, off, cur, sec, m => do
    lookHeader g e m off
    let s := e.shdr m off
    let slot := e.slot cur s
    if slot = .bad then
      return .refused m
    else
      let m ← fillSlot g e m slot
      placeSections n (i + 1) (off + 40) (slotEnd cur s slot)
        (fun j => if j = i then slotAddr slot else sec j) m

/--
The symbol table in section `s` with the strings in `str`. A pointer that comes out as 0 counts as no
table.
-/
def symtabOf (s str : Shdr) : Option Symtab :=
  if add32 e.img s.offset = 0 ∨ add32 e.img str.offset = 0 then
    none
  else
    some { off := s.offset, count := s.size / 16, str := str.offset, strSize := str.size }

/--
The symbol table of section `s`, its strings are those of the section whose header is at `off`.
-/
def withStrings (m : Mem) (s : Shdr) (off : Nat) : Checked (Option Symtab) := do
  look g (off + 4) 4
  let str := e.shdr m off
  if str.type = 3 then
    look g (off + 16) 4
    return e.symtabOf s str
  else
    return none

/--
The loop that looks for the symbol table among `n` sections from the `i`th on. The strings are
those of the section that it is linked to.
-/
def findSymtab (m : Mem) (shoff nsec : Nat) : (n i : Nat) → Checked (Option Symtab)
  | 0, _ => return none
  | n + 1, i => do
    let off := shoff + 40 * i
    look g (off + 4) 4
    let s := e.shdr m off
    if s.type = 2 then
      look g (off + 16) 12
      if s.link < nsec then
        withStrings g e m s (shoff + 40 * s.link)
      else
        return none
    else
      findSymtab m shoff nsec n (i + 1)

/--
Whether the string at offset `off` is `name`, as `strcmp` finds out.
-/
def nameIs (m : Mem) : (name : Bytes) → (off : Nat) → Checked Bool
  | [], off => do
    look g off 1
    return e.byte m off = 0
  | c :: name, off => do
    look g off 1
    if e.byte m off = c.toNat then
      nameIs m name (off + 1)
    else
      return false

/--
`tanja_export_lookup`
-/
def exportLookup (m : Mem) (off : Nat) : List (Bytes × Nat) → Checked (Option Nat)
  | [] => return none
  | x :: rest => do
    if ← nameIs g e m x.1 off then
      return some x.2
    else
      exportLookup m off rest

/--
Prints the string at offset `off`.
-/
def printName (m : Mem) : (fuel off : Nat) → Checked Unit
  | 0, _ => .error .loop
  | fuel + 1, off => do
    look g off 1
    if e.byte m off = 0 then
      return ()
    else
      printName m fuel (off + 1)

/--
The value of the undefined symbol at offset `off`, which the kernel has to export unless it is weak.
-/
def undefinedValue (m : Mem) (tab : Symtab) (off : Nat) : Checked (Option Nat) := do
  look g off 4
  let s := e.sym m off
  check (g.index s.name tab.strSize) .index
  match ← exportLookup g e m (tab.str + s.name) e.exports with
  | some addr => return some addr
  | none =>
    look g (off + 12) 1
    if s.weak then
      return some 0
    else
      printName g e m (2 ^ 32) (tab.str + s.name)
      return none

/--
The value of the symbol at offset `off`, `none` if it has none and the relocation fails.
-/
def symbolValue (m : Mem) (nsec : Nat) (sec : Nat → Nat) (tab : Symtab) (off : Nat)
    : Checked (Option Nat) := do
  look g (off + 14) 2
  let s := e.sym m off
  if s.shndx = 0 then
    undefinedValue g e m tab off
  else if s.shndx = 0xFFF1 then
    look g (off + 4) 4
    return some s.value
  else if s.shndx = 0xFFF2 then
    return none
  else if s.shndx < nsec then
    if sec s.shndx = 0 then
      return none
    else
      look g (off + 4) 4
      return some (add32 (sec s.shndx) s.value)
  else
    return none

/--
The relocation `r` of a section of `size` bytes at `base`. Returns whether it succeeds.
-/
def relocate (m : Mem) (nsec : Nat) (sec : Nat → Nat) (tab : Symtab) (base size : Nat) (r : Rel)
    : Checked (Bool × Mem) := do
  let place := add32 base r.offset
  if size ≤ r.offset then
    return (false, m)
  else if tab.count ≤ r.sym then
    return (false, m)
  else
    match ← symbolValue g e m nsec sec tab (tab.off + 16 * r.sym) with
    | none => return (false, m)
    | some s =>
      let a := m.read32 place
      if r.type = 1 then
        return (true, ← put g m place (le32 (add32 s a)))
      else if r.type = 2 ∨ r.type = 4 then
        return (true, ← put g m place (le32 (sub32 (add32 s a) place)))
      else
        return (false, m)

/--
`n` relocations from offset `off` on.
-/
def relocateGroup (nsec : Nat) (sec : Nat → Nat) (tab : Symtab) (base size : Nat)
    : (n off : Nat) → Mem → Checked (Bool × Mem)
  | 0, _, m => return (true, m)
  | n + 1, off, m => do
    look g off 8
    let (ok, m) ← relocate g e m nsec sec tab base size (e.rel m off)
    if ok then
      relocateGroup nsec sec tab base size n (off + 8) m
    else
      return (false, m)

/--
Pass 2, for `n` sections from the `i`th on.
-/
def relocateAll (shoff nsec : Nat) (sec : Nat → Nat) (tab : Symtab)
    : (n i : Nat) → Mem → Checked (Bool × Mem)
  | 0, _, m => return (true, m)
  | n + 1, i, m => do
    let off := shoff + 40 * i
    look g (off + 4) 4
    let s := e.shdr m off
    if s.type = 9 then
      look g (off + 28) 4
      if nsec ≤ s.info ∨ sec s.info = 0 then
        relocateAll shoff nsec sec tab n (i + 1) m
      else
        look g (off + 16) 8
        look g (shoff + 40 * s.info + 20) 4
        let size := (e.shdr m (shoff + 40 * s.info)).size
        let (ok, m) ← relocateGroup g e nsec sec tab (sec s.info) size (s.size / 8) s.offset m
        if ok then
          relocateAll shoff nsec sec tab n (i + 1) m
        else
          return (false, m)
    else
      relocateAll shoff nsec sec tab n (i + 1) m

/--
The loop that looks for `main` among `n` symbols from the `i`th on. Without one the entry is 0.
-/
def findEntry (m : Mem) (nsec : Nat) (sec : Nat → Nat) (tab : Symtab) : (n i : Nat) → Checked Nat
  | 0, _ => return 0
  | n + 1, i => do
    let off := tab.off + 16 * i
    look g off 4
    let s := e.sym m off
    check (g.index s.name tab.strSize) .index
    if ← nameIs g e m [109, 97, 105, 110] (tab.str + s.name) then
      look g (off + 14) 2
      if s.shndx = 0 then
        findEntry m nsec sec tab n (i + 1)
      else
        look g (off + 4) 4
        if s.shndx = 0xFFF1 then
          return s.value
        else if s.shndx < nsec then
          return add32 (sec s.shndx) s.value
        else
          throw .index
    else
      findEntry m nsec sec tab n (i + 1)

/--
When -1 is returned `program_brk` has been restored.
-/
def refused (m : Mem) : ElfResult where
  entry := none
  brk := e.brk
  mem := m

/--
What follows on pass 1, with the sections at `sec` and `cur` behind the last of them.
-/
def link (shoff nsec cur : Nat) (sec : Nat → Nat) (m : Mem) : Checked ElfResult := do
  match ← findSymtab g e m shoff nsec nsec 0 with
  | none => return refused e m
  | some tab =>
    let (ok, m) ← relocateAll g e shoff nsec sec tab nsec 0 m
    let entry ← findEntry g e m nsec sec tab tab.count 0
    if ok ∧ entry ≠ 0 then
      return { entry := some entry, brk := cur, mem := m }
    else
      return refused e m

/--
`elf_run` up to the jump.
-/
def elfRun (m : Mem) : Checked ElfResult := do
  match ← header g e m with
  | none => return refused e m
  | some (shoff, nsec) =>
    match ← placeSections g e nsec 0 shoff e.brk (fun _ => 0) m with
    | .refused m => return refused e m
    | .placed cur sec m =>
      if e.limit < cur then
        return refused e m
      else
        link g e shoff nsec cur sec m

end Applet

end TanjaOS
