import TanjaOS.Lib.Splice
import TanjaOS.Lib.Trace
import TanjaOS.Linux.Rename

/-!
The descriptors and streams of the programs that use the library of the kernel. A file is loaded when it is
opened and written back when it is flushed, what lies between happens in a buffer of its own.

What a program has in its own memory is not part of the state: the bytes it writes come with the call, the bytes
it reads come with the result. `m` is what a call gets from `malloc` or `realloc`, memory with anything in it.
-/

open Lib

namespace TanjaOS

section Impl

abbrev tanjaMaxFds : Nat := 16

instance : NeZero tanjaMaxFds := ⟨by decide⟩

/--
`is_console`
-/
inductive FdConsole where
  | none
  | input
  | output
  deriving DecidableEq

/--
`struct tanja_fd`, where `buf` is null as long as `cap` is 0.
-/
structure TanjaFd where
  used : Bool
  isConsole : FdConsole
  path : Option CStr
  buf : Mem
  size : Nat
  cap : Nat
  pos : Nat
  readable : Bool
  writable : Bool
  append : Bool
  eof : Bool
  error : Bool
  dirty : Bool
  unget : Int
  haveUnget : Bool

/--
The record after `memset`.
-/
def TanjaFd.zero : TanjaFd where
  used := false
  isConsole := .none
  path := none
  buf := fun _ => 0
  size := 0
  cap := 0
  pos := 0
  readable := false
  writable := false
  append := false
  eof := false
  error := false
  dirty := false
  unget := 0
  haveUnget := false

structure FdState where
  fs : FsState
  fdt : Fin tanjaMaxFds → TanjaFd
  errno : Nat
  /-- What `get_key` is going to give. -/
  keys : Nat → Int
  printed : Bytes
  /-- A call has come to a loop that does not end, and what is here means nothing any more. -/
  stuck : Bool

/--
The table when the kernel starts. It is the same for all programs that run.
-/
def FdState.start (fs : FsState) (keys : Nat → Int) : FdState where
  fs := fs
  fdt := fun _ => .zero
  errno := 0
  keys := keys
  printed := []
  stuck := false

/--
The value that a call returns and the bytes that it has stored for the program.
-/
structure FdResult where
  ret : Int
  bytes : Bytes
  deriving DecidableEq

def oWrOnly : UInt32 := 0o0001
def oReadWrite : UInt32 := 0o0002
def oCreate : UInt32 := 0o0100
def oTruncate : UInt32 := 0o1000
def oAppending : UInt32 := 0o2000

/--
An `int` from the 32 bits of an unsigned value.
-/
def asInt (n : Nat) : Int :=
  (n : Int).bmod (2 ^ 32)

/--
The unsigned value that has the 32 bits of an `int`.
-/
def asUnsigned (x : Int) : Nat :=
  (x % 2 ^ 32).toNat

/--
The byte that an `int` is stored as.
-/
def asByte (x : Int) : Byte :=
  .ofNat (x % 256).toNat

/--
A loop over `getc` for `count` bytes at most. On a console it ends behind a newline.
-/
def getLoop {σ : Type} (getc : σ → Int × σ) (line : Bool) (count : Nat) (s : σ) : Bytes × σ :=
  match count with
  | 0 => ([], s)
  | count + 1 =>
    let r := getc s
    if r.1 < 0 then
      ([], r.2)
    else if line ∧ r.1 = 10 then
      ([asByte r.1], r.2)
    else
      let rest := getLoop getc line count r.2
      (asByte r.1 :: rest.1, rest.2)

def fdEntry (fd : Int) : Option (Fin tanjaMaxFds) :=
  if h : 0 ≤ fd ∧ fd < tanjaMaxFds then some ⟨fd.toNat, by omega⟩ else none

namespace FdState

variable (st : FdState)

def setFd (i : Fin tanjaMaxFds) (f : TanjaFd) : FdState :=
  { st with fdt := Function.update st.fdt i f }

def fail (errno : Nat) : FdResult × FdState :=
  (⟨-1, []⟩, { st with errno := errno })

def fdConsoleInit : FdState :=
  let input := { st.fdt 0 with used := true, isConsole := .input, readable := true }
  let st := st.setFd 0 input
  let st := st.setFd 1 { st.fdt 1 with used := true, isConsole := .output, writable := true }
  st.setFd 2 { st.fdt 2 with used := true, isConsole := .output, writable := true }

def fdAlloc : Option (Fin tanjaMaxFds) × FdState :=
  let st := if (st.fdt 0).used then st else st.fdConsoleInit
  match (List.finRange tanjaMaxFds).find? (fun i => decide (3 ≤ i.val) && !(st.fdt i).used) with
  | none => (none, st)
  | some i => (some i, st.setFd i { TanjaFd.zero with used := true })

def fdFlush (i : Fin tanjaMaxFds) : FdState :=
  let f := st.fdt i
  match f.path with
  | none => st
  | some path =>
    if f.used ∧ f.isConsole = .none ∧ f.dirty ∧ f.writable then
      { st with fs := (fsWriteFile st.fs path (f.buf.readBytes 0 f.size)).2 }.setFd i { f with dirty := false }
    else
      st

/--
`fd_load`, and whether it has worked.
-/
def fdLoad (i : Fin tanjaMaxFds) (path : CStr) (m : Option Mem) : Bool × FdState :=
  let f := st.fdt i
  let (sz, fs) := fsGetFileSize st.fs path
  let st := { st with fs := fs }
  match m with
  | none => (false, st)
  | some buf =>
    if fsFileExists fs path then
      let r := fsReadFile fs path (.ofNat (sz + 1))
      let st := { st with fs := r.state }
      if r.rc ≠ 0 then
        (false, st)
      else
        (true, st.setFd i { f with
          buf := buf.writeBytes 0 r.buffer
          size := r.size.getD (sz + 1)
          cap := sz + 1 })
    else
      (true, st.setFd i { f with buf := buf, size := 0, cap := 64 })

end FdState

/--
The loop that doubles a capacity until there is room. A capacity that has been doubled 32 times is 0 and
stays so: with 33 steps `none` stands for a loop that does not end.
-/
def growCap (steps nc need : Nat) : Option Nat :=
  match steps with
  | 0 => none
  | steps + 1 => if nc < need then growCap steps (nc * 2 % 2 ^ 32) need else some nc

/--
`some none` stands for no memory, `none` for no end.
-/
def fdEnsure (f : TanjaFd) (need : Nat) (m : Option Mem) : Option (Option TanjaFd) :=
  if need ≤ f.cap then
    some (some f)
  else
    match growCap 33 (if f.cap ≠ 0 then f.cap else 64) need with
    | none => none
    | some nc => some (m.map (fun fresh => { f with
        buf := fun a => if a < f.cap then f.buf a else fresh a
        cap := nc }))

namespace FdState

variable (st : FdState)

/--
`open`. `named` says whether `malloc` has room for the path.
-/
def openFd (path : CStr) (flags : UInt32) (m : Option Mem) (named : Bool) : FdResult × FdState :=
  if path.val = [] then
    st.fail 2
  else
    match st.fdAlloc with
    | (none, st) => st.fail 4
    | (some i, st) =>
      let st := st.setFd i { st.fdt i with
        readable := flags &&& oWrOnly = 0
        writable := flags &&& (oWrOnly ||| oReadWrite) ≠ 0
        append := flags &&& oAppending ≠ 0 }
      if flags &&& oCreate = 0 ∧ ¬fsFileExists st.fs path then
        (st.setFd i { st.fdt i with used := false }).fail 2
      else
        match st.fdLoad i path m with
        | (true, st) =>
          let f := st.fdt i
          let f := if flags &&& oTruncate ≠ 0 then { f with size := 0, dirty := true } else f
          ready (st.setFd i f) i
        | (false, st) =>
          if flags &&& oCreate = 0 then
            (st.setFd i { st.fdt i with used := false }).fail 2
          else
            let (rc, fs) := fsCreateFile st.fs path
            let st := { st with fs := fs }
            if rc ≠ 0 then
              (st.setFd i { st.fdt i with used := false }).fail 13
            else
              ready st i
where
  ready (st : FdState) (i : Fin tanjaMaxFds) : FdResult × FdState :=
    let f := st.fdt i
    let f := if f.append then { f with pos := f.size } else f
    (⟨i.val, []⟩, st.setFd i { f with path := if named then some path else none })

def close (fd : Int) : FdResult × FdState :=
  match fdEntry fd with
  | none => st.fail 9
  | some i =>
    if ¬(st.fdt i).used ∨ (st.fdt i).isConsole ≠ .none then
      st.fail 9
    else
      let st := st.fdFlush i
      (⟨0, []⟩, st.setFd i { st.fdt i with used := false })

/--
`tanja_fd_getc` of a descriptor that is there.
-/
def tanjaFdGetc (i : Fin tanjaMaxFds) : Int × FdState :=
  let f := st.fdt i
  if ¬f.used then
    (-1, st)
  else if f.haveUnget then
    (f.unget, st.setFd i { f with haveUnget := false })
  else if f.isConsole = .input then
    (st.keys 0, { st with keys := fun n => st.keys (n + 1) })
  else if f.size ≤ f.pos then
    (-1, st.setFd i { f with eof := true })
  else
    ((f.buf f.pos).toNat, st.setFd i { f with pos := f.pos + 1 })

/--
`tanja_fd_write` of a descriptor that is there.
-/
def tanjaFdWrite (i : Fin tanjaMaxFds) (data : Bytes) (m : Option Mem) : Int × FdState :=
  let f := st.fdt i
  if ¬f.used ∨ ¬f.writable then
    (-1, st)
  else if f.isConsole = .output then
    (asInt data.length, { st with printed := st.printed ++ data })
  else
    let f := if f.append then { f with pos := f.size } else f
    match fdEnsure f ((f.pos + data.length + 1) % 2 ^ 32) m with
    | none => (-1, { st with stuck := true })
    | some none => (-1, st.setFd i { f with error := true })
    | some (some f) =>
      let pos := (f.pos + data.length) % 2 ^ 32
      (asInt data.length, st.setFd i { f with
        buf := f.buf.writeBytes f.pos data
        pos := pos
        size := if f.size < pos then pos else f.size
        dirty := true })

def read (fd : Int) (count : Nat) : FdResult × FdState :=
  match fdEntry fd with
  | none => st.fail 9
  | some i =>
    if ¬(st.fdt i).used ∨ ¬(st.fdt i).readable then
      st.fail 9
    else
      let (dst, st) := getLoop (fun st => st.tanjaFdGetc i) ((st.fdt i).isConsole ≠ .none) count st
      (⟨if dst ≠ [] then asInt dst.length else if count ≠ 0 then -1 else 0, dst⟩, st)

def write (fd : Int) (data : Bytes) (m : Option Mem) : FdResult × FdState :=
  match fdEntry fd with
  | none => st.fail 9
  | some i =>
    if ¬(st.fdt i).used then
      st.fail 9
    else
      let (r, st) := st.tanjaFdWrite i data m
      if r < 0 then st.fail 9 else (⟨r, []⟩, st)

def lseek (fd offset whence : Int) : FdResult × FdState :=
  match fdEntry fd with
  | none => st.fail 29
  | some i =>
    let f := st.fdt i
    if ¬f.used ∨ f.isConsole ≠ .none then
      st.fail 29
    else if whence = 0 then
      moved i f 0 offset
    else if whence = 1 then
      moved i f f.pos offset
    else if whence = 2 then
      moved i f f.size offset
    else
      st.fail 22
where
  moved (i : Fin tanjaMaxFds) (f : TanjaFd) (base : Nat) (offset : Int) : FdResult × FdState :=
    let pos := asUnsigned (base + offset)
    let pos := if f.size < pos then f.size else pos
    (⟨asInt pos, []⟩, st.setFd i { f with pos := pos, eof := false })

/--
The flags that a mode of `fopen` stands for.
-/
def fopenFlags (mode : Bytes) : UInt32 :=
  let w := mode.head? = some 119
  let a := mode.head? = some 97
  let flags :=
    if w then oWrOnly ||| oCreate ||| oTruncate
    else if a then oWrOnly ||| oCreate ||| oAppending
    else 1
  if 43 ∈ mode then flags ||| oReadWrite ||| (if w ∨ a then oCreate else 0) else flags

/--
`fopen`, which gives the stream by its number and null as -1.
-/
def fopen (path : CStr) (mode : Bytes) (m : Option Mem) (named : Bool) : FdResult × FdState :=
  if mode = [] then st.fail 22 else st.openFd path (fopenFlags mode) m named

def fclose (f : Option (Fin tanjaMaxFds)) : FdResult × FdState :=
  match f with
  | none => (⟨-1, []⟩, st)
  | some i =>
    if ¬(st.fdt i).used then
      (⟨-1, []⟩, st)
    else if (st.fdt i).isConsole ≠ .none then
      (⟨0, []⟩, st)
    else
      st.close i.val

/--
`want` is `size * nmemb`.
-/
def fread (size nmemb : Nat) (f : Option (Fin tanjaMaxFds)) : FdResult × FdState :=
  match f with
  | none => (⟨0, []⟩, st)
  | some i =>
    if ¬(st.fdt i).used ∨ ¬(st.fdt i).readable then
      (⟨0, []⟩, st)
    else
      let (dst, st) := getLoop (fun st => st.tanjaFdGetc i) false (size * nmemb % 2 ^ 32) st
      (⟨if size ≠ 0 then dst.length / size else 0, dst⟩, st)

/--
`data` has `size * nmemb` bytes.
-/
def fwrite (data : Bytes) (size : Nat) (m : Option Mem) (f : Option (Fin tanjaMaxFds)) : FdResult × FdState :=
  match f with
  | none => (⟨0, []⟩, st)
  | some i =>
    if ¬(st.fdt i).used ∨ ¬(st.fdt i).writable then
      (⟨0, []⟩, st)
    else
      let (w, st) := st.tanjaFdWrite i data m
      if w < 0 then (⟨0, []⟩, st) else (⟨if size ≠ 0 then w / size else 0, []⟩, st)

/--
`fgetc` and `getc`
-/
def fgetc (f : Option (Fin tanjaMaxFds)) : FdResult × FdState :=
  match f with
  | none => (⟨-1, []⟩, st)
  | some i =>
    let (c, st) := st.tanjaFdGetc i
    (⟨c, []⟩, st)

/--
`fputc` and `putc`
-/
def fputc (c : Int) (m : Option Mem) (f : Option (Fin tanjaMaxFds)) : FdResult × FdState :=
  match f with
  | none => (⟨-1, []⟩, st)
  | some i =>
    let (w, st) := st.tanjaFdWrite i [asByte c] m
    (⟨if w = 1 then (asByte c).toNat else -1, []⟩, st)

def fputs (s : Bytes) (m : Option Mem) (f : Option (Fin tanjaMaxFds)) : FdResult × FdState :=
  match f with
  | none => (⟨-1, []⟩, st)
  | some i =>
    let (w, st) := st.tanjaFdWrite i s m
    (⟨if w = asInt s.length then 0 else -1, []⟩, st)

def ungetc (c : Int) (f : Option (Fin tanjaMaxFds)) : FdResult × FdState :=
  match f with
  | none => (⟨-1, []⟩, st)
  | some i =>
    if ¬(st.fdt i).used then
      (⟨-1, []⟩, st)
    else
      (⟨c, []⟩, st.setFd i { st.fdt i with unget := c, haveUnget := true, eof := false })

def fflush (f : Option (Fin tanjaMaxFds)) : FdResult × FdState :=
  match f with
  | none => (⟨0, []⟩, (List.finRange tanjaMaxFds).foldl fdFlush st)
  | some i => (⟨0, []⟩, st.fdFlush i)

end FdState

/--
The calls of a program, and what it may do to the files by other calls.
-/
inductive FdCall where
  | openFd (path : CStr) (flags : UInt32) (m : Option Mem) (named : Bool)
  | close (fd : Int)
  | read (fd : Int) (count : Nat)
  | write (fd : Int) (data : Bytes) (m : Option Mem)
  | lseek (fd offset whence : Int)
  | fopen (path : CStr) (mode : Bytes) (m : Option Mem) (named : Bool)
  | fclose (f : Option (Fin tanjaMaxFds))
  | fread (size nmemb : Nat) (f : Option (Fin tanjaMaxFds))
  | fwrite (data : Bytes) (size : Nat) (m : Option Mem) (f : Option (Fin tanjaMaxFds))
  | fgetc (f : Option (Fin tanjaMaxFds))
  | fputc (c : Int) (m : Option Mem) (f : Option (Fin tanjaMaxFds))
  | fputs (s : Bytes) (m : Option Mem) (f : Option (Fin tanjaMaxFds))
  | ungetc (c : Int) (f : Option (Fin tanjaMaxFds))
  | fflush (f : Option (Fin tanjaMaxFds))
  | other (change : FsState → FsState)

def FdCall.exec (c : FdCall) (st : FdState) : FdResult × FdState :=
  match c with
  | .openFd path flags m named => st.openFd path flags m named
  | .close fd => st.close fd
  | .read fd count => st.read fd count
  | .write fd data m => st.write fd data m
  | .lseek fd offset whence => st.lseek fd offset whence
  | .fopen path mode m named => st.fopen path mode m named
  | .fclose f => st.fclose f
  | .fread size nmemb f => st.fread size nmemb f
  | .fwrite data size m f => st.fwrite data size m f
  | .fgetc f => st.fgetc f
  | .fputc c m f => st.fputc c m f
  | .fputs s m f => st.fputs s m f
  | .ungetc c f => st.ungetc c f
  | .fflush f => st.fflush f
  | .other change => (⟨0, []⟩, { st with fs := change st.fs })

end Impl

end TanjaOS
