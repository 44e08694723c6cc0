import TanjaOS.Lib.Mem

/-!
`malloc` and its relatives. The blocks are linked in the arena itself: each starts with a header of
five words. An address is a number, 0 is the null pointer.
-/

open Lib

namespace TanjaOS

def mallocAlign : Nat := 16

def mallocMagic : Nat := 0xB10CA0F

/--
`sizeof(mblock_t)`
-/
def mblockBytes : Nat := 20

/--
`mblock_t`
-/
structure MBlock where
  magic : Nat
  /-- The header included. -/
  size : Nat
  next : Nat
  prev : Nat
  free : Nat
  deriving DecidableEq

section Fields

variable (m : Mem) (b : Nat)

/--
The header at `b`.
-/
def mblock : MBlock where
  magic := m.read32 b
  size := m.read32 (b + 4)
  next := m.read32 (b + 8)
  prev := m.read32 (b + 12)
  free := m.read32 (b + 16)

def setMagic (v : Nat) : Mem := m.write32 b v
def setSize (v : Nat) : Mem := m.write32 (b + 4) v
def setNext (v : Nat) : Mem := m.write32 (b + 8) v
def setPrev (v : Nat) : Mem := m.write32 (b + 12) v
def setFree (v : Nat) : Mem := m.write32 (b + 16) v

end Fields

structure MallocState where
  mem : Mem
  mallocArena : Nat
  mallocArenaBytes : Nat
  mallocReady : Int
  mallocHead : Nat

def mallocSetArena (mem : Mem) (base bytes : Nat) : MallocState where
  mem := mem
  mallocArena := base
  mallocArenaBytes := bytes / mallocAlign * mallocAlign
  mallocReady := 0
  mallocHead := 0

def mallocInit (st : MallocState) : MallocState :=
  if st.mallocArena = 0 ∨ st.mallocArenaBytes < 4096 then
    { st with mallocReady := -1 }
  else
    let b := st.mallocArena
    let m := setMagic st.mem b mallocMagic
    let m := setSize m b st.mallocArenaBytes
    let m := setNext m b 0
    let m := setPrev m b 0
    let m := setFree m b 1
    { st with mem := m, mallocHead := b, mallocReady := 1 }

/--
Sums of `uint32_t`.
-/
def mallocRound (n : Nat) : Nat :=
  let n := (n + mblockBytes) % 2 ^ 32
  let n := (n + mallocAlign - 1) % 2 ^ 32 / mallocAlign * mallocAlign
  if n < mblockBytes + mallocAlign then mblockBytes + mallocAlign else n

/--
The loop of `malloc`: the first block from `b` on that is free and large enough. `none` when it has
not ended after `fuel` blocks.
-/
def firstFree (m : Mem) (need : Nat) : Nat → Nat → Option (Option Nat)
  | 0, _ => none
  | fuel + 1, b =>
    if b = 0 then
      some none
    else if (mblock m b).free = 0 ∨ (mblock m b).size < need then
      firstFree m need fuel (mblock m b).next
    else
      some (some b)

/--
Cut what is left over from `need` bytes off block `b`.
-/
def splitBlock (m : Mem) (b need : Nat) : Mem :=
  let h := mblock m b
  let nb := b + need
  let m := setMagic m nb mallocMagic
  let m := setSize m nb (h.size - need)
  let m := setNext m nb h.next
  let m := setPrev m nb b
  let m := setFree m nb 1
  let m := if h.next ≠ 0 then setPrev m h.next nb else m
  let m := setNext m b nb
  setSize m b need

def takeBlock (m : Mem) (b need : Nat) : Mem :=
  let m :=
    if need + mblockBytes + mallocAlign ≤ (mblock m b).size then splitBlock m b need else m
  setFree m b 0

def malloc (st : MallocState) (n : Nat) : Option (Nat × MallocState) :=
  let st := if st.mallocReady = 0 then mallocInit st else st
  match firstFree st.mem (mallocRound n) (st.mallocArenaBytes + 1) st.mallocHead with
  | none => none
  | some none => some (0, st)
  | some (some b) =>
    some (b + mblockBytes, { st with mem := takeBlock st.mem b (mallocRound n) })

/--
Append the block `nb`, which comes after `b`, to `b`.
-/
def absorb (m : Mem) (b nb : Nat) : Mem :=
  let h := mblock m nb
  let m := setSize m b ((mblock m b).size + h.size)
  let m := setNext m b h.next
  if h.next ≠ 0 then setPrev m h.next b else m

def absorbNext (m : Mem) (b : Nat) : Mem :=
  let next := (mblock m b).next
  if next ≠ 0 ∧ (mblock m next).free ≠ 0 then absorb m b next else m

def absorbIntoPrev (m : Mem) (b : Nat) : Mem :=
  let prev := (mblock m b).prev
  if prev ≠ 0 ∧ (mblock m prev).free ≠ 0 then absorb m prev b else m

def free (st : MallocState) (p : Nat) : MallocState :=
  if p = 0 then
    st
  else
    let b := p - mblockBytes
    if (mblock st.mem b).magic ≠ mallocMagic then
      st
    else if (mblock st.mem b).free ≠ 0 then
      st
    else
      { st with mem := absorbIntoPrev (absorbNext (setFree st.mem b 1) b) b }

def calloc (st : MallocState) (nmemb size : Nat) : Option (Nat × MallocState) :=
  if nmemb ≠ 0 ∧ 0xFFFFFFFF / nmemb < size then
    some (0, st)
  else
    match malloc st (nmemb * size) with
    | none => none
    | some (p, st) =>
      if p ≠ 0 then
        some (p, { st with mem := st.mem.writeBytes p (List.replicate (nmemb * size) 0) })
      else
        some (p, st)

def realloc (st : MallocState) (p n : Nat) : Option (Nat × MallocState) :=
  if p = 0 then
    malloc st n
  else if n = 0 then
    some (0, free st p)
  else
    let b := p - mblockBytes
    let h := mblock st.mem b
    if h.magic ≠ mallocMagic then
      some (0, st)
    else
      let have_ := h.size - mblockBytes
      if n ≤ have_ then
        some (p, st)
      else if h.next ≠ 0 ∧ (mblock st.mem h.next).free ≠ 0
          ∧ mallocRound n ≤ h.size + (mblock st.mem h.next).size then
        some (p, { st with mem := absorb st.mem b h.next })
      else
        match malloc st n with
        | none => none
        | some (np, st) =>
          if np = 0 then
            some (0, st)
          else
            let st := { st with mem := st.mem.writeBytes np (st.mem.readBytes p have_) }
            some (np, free st p)

end TanjaOS
