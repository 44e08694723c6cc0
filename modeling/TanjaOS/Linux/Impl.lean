import TanjaOS.Fs.Home
import TanjaOS.Fs.Content

/-!
The file syscalls of the Linux layer. What a program has in its own memory is not part of the state:
the bytes it writes come with the call, the bytes it reads come with the result.
-/

open Lib

namespace TanjaOS

def linuxMaxFd : Nat := 6

def lxWriteSlots : Nat := 2

def lxWriteSlotBytes : Nat := 2 * 1024 * 1024

def maxFileSize : Nat := 32 * 1048576

/--
A negative error number as it stands in `eax`.
-/
def lxErr (n : Nat) : Nat :=
  2 ^ 32 - n

def ENOENT_L : Nat := 2
def EBADF_L : Nat := 9
def ENOMEM_L : Nat := 12
def EACCES_L : Nat := 13
def EEXIST_L : Nat := 17
def ENODEV_L : Nat := 19
def EISDIR_L : Nat := 21
def EINVAL_L : Nat := 22
def EMFILE_L : Nat := 24
def ENOSPC_L : Nat := 28

def oWronly : UInt32 := 0x0001
def oRdwr : UInt32 := 0x0002
def oCreat : UInt32 := 0x0040
def oExcl : UInt32 := 0x0080
def oTrunc : UInt32 := 0x0200
def oAppend : UInt32 := 0x0400

/--
Where the `data` of a descriptor points to.
-/
inductive LxData where
  | null
  | pool (off : Nat)
  | slot (s : Fin lxWriteSlots)
  | dirList
  deriving DecidableEq

/--
`linux_fd_t`, and for the record which call of `sys_open` it comes from.
-/
structure LinuxFd where
  used : Bool
  isDir : Bool
  writable : Bool
  dirty : Bool
  append : Bool
  zeroCopy : Bool
  path : Bytes
  pos : Nat
  len : Nat
  data : LxData
  cap : Nat
  slot : Option (Fin lxWriteSlots)
  opened : Nat
  deriving DecidableEq

/--
The record after `memset`.
-/
def LinuxFd.zero : LinuxFd where
  used := false
  isDir := false
  writable := false
  dirty := false
  append := false
  zeroCopy := false
  path := []
  pos := 0
  len := 0
  data := .null
  cap := 0
  slot := none
  opened := 0

structure LxState where
  fs : FsState
  lfd : Fin linuxMaxFd → LinuxFd
  slotUsed : Fin lxWriteSlots → Bool
  scratch : Fin lxWriteSlots → Mem
  dirList : Mem
  /-- The memory from address 0 on, up to the pool. -/
  low : Mem
  poolBase : Nat
  mmapBase : Nat
  mmapLimit : Nat
  mmapNext : Nat
  /-- For the record: how often `sys_open` has made a descriptor. -/
  opens : Nat
  /-- For the record: a byte of a staging buffer outside of its slot has been accessed, or
  `cap - pos` has wrapped around. -/
  spilled : Bool

/--
The value in `eax` and the bytes that have been stored for the program.
-/
structure LxResult where
  ret : Nat
  bytes : Bytes
  deriving DecidableEq

namespace LxState

variable (st : LxState)

def setFd (i : Fin linuxMaxFd) (f : LinuxFd) : LxState :=
  { st with lfd := fun j => if j = i then f else st.lfd j }

/--
The memory from `data` on.
-/
def dataMem : LxData → Mem
  | .null => fun a => if st.poolBase ≤ a then st.fs.fpool (a - st.poolBase) else st.low a
  | .pool off => fun a => st.fs.fpool (off + a)
  | .slot s => st.scratch s
  | .dirList => st.dirList

/--
Notes an access to `n` bytes from `off` on.
-/
def touch (d : LxData) (off n : Nat) : LxState :=
  match d with
  | .slot _ => { st with spilled := st.spilled || decide (0 < n ∧ lxWriteSlotBytes < off + n) }
  | _ => st

/--
Stores `v 0`, `v 1`, … at `n` addresses from `a` on, as far as this is in the pool.
-/
def fillAbs (a n : Nat) (v : Nat → Byte) : LxState :=
  let at' (i : Nat) : Nat := (st.poolBase + i + (2 ^ 32 - a)) % 2 ^ 32
  { st with fs := { st.fs with
      fpool := fun i => if at' i < n then v (at' i) else st.fs.fpool i } }

/--
Stores `bs` from `off` on.
-/
def putData (d : LxData) (off : Nat) (bs : Bytes) : LxState :=
  let st := st.touch d off bs.length
  match d with
  | .null =>
    { st.fillAbs off bs.length (fun j => bs.getD j 0) with low := st.low.writeBytes off bs }
  | .pool p => { st with fs := { st.fs with fpool := st.fs.fpool.writeBytes (p + off) bs } }
  | .slot s =>
    { st with scratch := fun t => if t = s then (st.scratch s).writeBytes off bs else st.scratch t }
  | .dirList => { st with dirList := st.dirList.writeBytes off bs }

def getData (d : LxData) (off n : Nat) : Bytes :=
  (st.dataMem d).readBytes off n

end LxState

section Slot

variable (st : LxState)

def slotClaim : Option (Fin lxWriteSlots) × LxState :=
  match (List.finRange lxWriteSlots).find? (fun s => st.slotUsed s = false) with
  | none => (none, st)
  | some s => (some s, { st with slotUsed := fun t => if t = s then true else st.slotUsed t })

def slotRelease : Option (Fin lxWriteSlots) → LxState
  | none => st
  | some s => { st with slotUsed := fun t => if t = s then false else st.slotUsed t }

end Slot

/--
`lxnorm`
-/
def lxnorm (s : FsState) (path : Bytes) : Bytes :=
  if path = [dot] ∨ path = [dot, slash] then
    s.cwd.str
  else
    match path with
    | 46 :: 47 :: rest => rest.take 255
    | _ => path.take 255

/--
`fd_get`
-/
def fdGet (st : LxState) (fd : Nat) : Option (Fin linuxMaxFd) :=
  if h : 3 ≤ fd ∧ fd < linuxMaxFd then
    if (st.lfd ⟨fd, h.2⟩).used then some ⟨fd, h.2⟩ else none
  else
    none

/--
The first unused entry from 3 on.
-/
def fdFree (st : LxState) : Option (Fin linuxMaxFd) :=
  (List.finRange linuxMaxFd).find? (fun i => 3 ≤ i.val ∧ (st.lfd i).used = false)

/--
Writes the staged bytes back, what `fs_write_file` returns is not looked at.
-/
def fdFlush (st : LxState) (i : Fin linuxMaxFd) : LxState :=
  let f := st.lfd i
  let st :=
    if f.dirty ∧ f.writable ∧ ¬f.zeroCopy then
      let bs := st.getData f.data 0 f.len
      let st := st.touch f.data 0 f.len
      { st with fs := (fsWriteFile st.fs f.path bs).2 }
    else
      st
  st.setFd i { f with dirty := false }

/--
`fs_file_data_ptr`
-/
def fsFileDataPtr (s : FsState) (path : Bytes) : Option (Option Nat × Nat) × FsState :=
  let s := { s with fsErrno := 0 }
  if path = [] then
    (none, s)
  else
    match fileIndex s (absPath s.cwd.str path) with
    | none => (none, s)
    | some i =>
      if permAllows s (s.fmode i) (s.fowner i) 0o400 then
        (some (s.fdata i, s.fsize i), s)
      else
        (none, fsDeny s)

section Open

/--
The end of `sys_open` for an existing file, with its contents as `data` and `len`.
-/
def openFile (st : LxState) (i : Fin linuxMaxFd) (path : Bytes) (flags : UInt32) : LxState :=
  let f := { st.lfd i with path := path.take 255 }
  let f := if flags &&& oTrunc ≠ 0 ∧ f.writable then { f with len := 0, dirty := true } else f
  let f := if flags &&& oAppend ≠ 0 then { f with append := true, pos := f.len } else f
  st.setFd i f

/--
Gives the descriptor back, together with its slot.
-/
def openFailed (st : LxState) (i : Fin linuxMaxFd) : LxState :=
  slotRelease (st.setFd i { st.lfd i with used := false }) (st.lfd i).slot

def openDir (st : LxState) (i : Fin linuxMaxFd) (path : Bytes) : Nat × LxState :=
  let f := { st.lfd i with isDir := true }
  let (rc, list, s) := fsListDirectory st.fs path
  -- a listing that fails is an empty one
  let st := { st with fs := s, dirList := st.dirList.writeBytes 0 (list ++ [0]) }
  if rc ≠ 0 then
    -- the slot is not released
    (lxErr EACCES_L, st.setFd i { f with used := false })
  else
    (i.val, st.setFd i { f with len := list.length, data := .dirList, path := path.take 255 })

def openNew (st : LxState) (i : Fin linuxMaxFd) (path : Bytes) (flags : UInt32) : Nat × LxState :=
  if flags &&& oCreat = 0 then
    (lxErr ENOENT_L, openFailed st i)
  else if flags &&& oExcl ≠ 0 then
    (lxErr EEXIST_L, openFailed st i)
  else
    let (rc, s) := fsCreateFile st.fs path
    let st := { st with fs := s }
    if rc ≠ 0 then
      (lxErr (if rc = -2 then EACCES_L else ENOENT_L), openFailed st i)
    else
      (i.val, st.setFd i { st.lfd i with path := path.take 255, len := 0, dirty := true })

def openRead (st : LxState) (i : Fin linuxMaxFd) (path : Bytes) (flags : UInt32) : Nat × LxState :=
  let (d, s) := fsFileDataPtr st.fs path
  let st := { st with fs := s }
  let f := st.lfd i
  let opened (data : LxData) (len : Nat) : Nat × LxState :=
    (i.val, openFile (st.setFd i { f with data := data, len := len, zeroCopy := true }) i path flags)
  match d with
  | some (some p, size) => opened (.pool p) size
  | some (none, size) => opened .null size
  | none =>
    if s.fsErrno = 13 then
      (lxErr EACCES_L, st.setFd i { f with used := false })
    else
      -- not reached, the file exists
      opened .null maxFileSize

def openWrite (st : LxState) (i : Fin linuxMaxFd) (path : Bytes) (flags : UInt32) : Nat × LxState :=
  let r := fsReadFilePrefix st.fs path (maxFileSize + 1)
  let st := { st with fs := r.state }
  let st := st.putData (st.lfd i).data 0 r.buffer
  let size := r.size.getD maxFileSize
  if r.rc ≠ 0 then
    (lxErr EACCES_L, openFailed st i)
  else if (st.lfd i).cap < size then
    (lxErr ENOSPC_L, openFailed st i)
  else
    (i.val, openFile (st.setFd i { st.lfd i with len := size }) i path flags)

/--
`sys_open` once an entry and, for writing, a slot have been found.
-/
def openPath (st : LxState) (i : Fin linuxMaxFd) (path : Bytes) (flags : UInt32) : Nat × LxState :=
  if fsDirectoryExists st.fs path then
    openDir st i path
  else if ¬fsFileExists st.fs path then
    openNew st i path flags
  else if (st.lfd i).writable then
    openWrite st i path flags
  else
    openRead st i path flags

def sysOpen (st : LxState) (path : Bytes) (flags : UInt32) : Nat × LxState :=
  if path = [] ∨ lxnorm st.fs path = [] then
    (lxErr ENOENT_L, st)
  else
    let path := lxnorm st.fs path
    match fdFree st with
    | none => (lxErr ENOMEM_L, st)
    | some i =>
      let st := { st with opens := st.opens + 1 }
      let f := { LinuxFd.zero with used := true, opened := st.opens }
      if flags &&& (oWronly ||| oRdwr) ≠ 0 then
        match slotClaim st with
        | (none, st) => (lxErr ENOMEM_L, st.setFd i { f with writable := true, used := false })
        | (some s, st) =>
          let f := { f with writable := true, slot := some s, data := .slot s,
                            cap := lxWriteSlotBytes }
          openPath (st.setFd i f) i path flags
      else
        openPath (st.setFd i f) i path flags

end Open

def sysClose (st : LxState) (fd : Nat) : Nat × LxState :=
  match fdGet st fd with
  | none => (lxErr EBADF_L, st)
  | some i =>
    let st := fdFlush st i
    let slot := (st.lfd i).slot
    let shared := ∃ j : Fin linuxMaxFd, 3 ≤ j.val ∧ (st.lfd j).used ∧ j ≠ i ∧ (st.lfd j).slot = slot
    let st := if shared then st else slotRelease st slot
    (0, st.setFd i { st.lfd i with slot := none, used := false })

/--
`line` is what the keyboard has for a program that reads from the console.
-/
def sysRead (st : LxState) (fd count : Nat) (line : Bytes) : LxResult × LxState :=
  let f0 := st.lfd ⟨0, by decide⟩
  if fd = 0 ∧ ¬(f0.used ∧ f0.path ≠ [] ∧ ¬f0.isDir) then
    (⟨(line.take count).length, line.take count⟩, st)
  else
    match fdGet st fd with
    | none => (⟨lxErr EBADF_L, []⟩, st)
    | some i =>
      if (st.lfd i).isDir then
        (⟨lxErr EISDIR_L, []⟩, st)
      else if (st.lfd i).zeroCopy then
        let (d, s) := fsFileDataPtr st.fs (st.lfd i).path
        let st := { st with fs := s }
        match d with
        | some (some p, size) =>
          readData (st.setFd i { st.lfd i with data := .pool p, len := size }) i count
        | _ =>
          if s.fsErrno = 13 then
            (⟨lxErr EACCES_L, []⟩, st)
          else
            (⟨0, []⟩, st.setFd i { st.lfd i with len := 0 })
      else
        readData st i count
where
  readData (st : LxState) (i : Fin linuxMaxFd) (count : Nat) : LxResult × LxState :=
    let f := st.lfd i
    if f.len ≤ f.pos then
      (⟨0, []⟩, st)
    else
      let n := min count (f.len - f.pos)
      let bs := st.getData f.data f.pos n
      (⟨n, bs⟩, (st.touch f.data f.pos n).setFd i { f with pos := f.pos + n })

section Write

/--
The zero bytes between the end of the file and the position.
-/
def fillGap (st : LxState) (i : Fin linuxMaxFd) : Option LxState :=
  let f := st.lfd i
  if f.pos ≤ f.len then
    some st
  else if f.cap < f.pos then
    none
  else
    let st := st.putData f.data f.len (List.replicate (f.pos - f.len) 0)
    some (st.setFd i { f with len := f.pos })

/--
`room` is a difference of `uint32_t`.
-/
def writeData (st : LxState) (i : Fin linuxMaxFd) (buf : Bytes) : Nat × LxState :=
  let f := st.lfd i
  let room := (f.cap + (2 ^ 32 - f.pos)) % 2 ^ 32
  let n := min buf.length room
  let st := { st.putData f.data f.pos (buf.take n) with
    spilled := (st.putData f.data f.pos (buf.take n)).spilled || decide (f.cap < f.pos) }
  (n, st.setFd i { f with pos := f.pos + n, len := max f.len (f.pos + n), dirty := true })

/--
The descriptor is the console, and `dup2` has not redirected it onto a file.
-/
def toConsole (st : LxState) (fd : Nat) : Bool :=
  (fd = 1 ∨ fd = 2)
    ∧ ¬∃ i : Fin linuxMaxFd, i.val = fd ∧ (st.lfd i).used ∧ (st.lfd i).writable
      ∧ (st.lfd i).path ≠ []

/--
With `O_APPEND` all bytes go to the end of the file.
-/
def seekAppend (st : LxState) (i : Fin linuxMaxFd) : LxState :=
  if (st.lfd i).append then st.setFd i { st.lfd i with pos := (st.lfd i).len } else st

def sysWrite (st : LxState) (fd : Nat) (buf : Bytes) : Nat × LxState :=
  if toConsole st fd then
    (buf.length, st)
  else
    match fdGet st fd with
    | none => (lxErr EBADF_L, st)
    | some i =>
      if ¬(st.lfd i).writable then
        (lxErr EBADF_L, st)
      else if (st.lfd i).isDir then
        (lxErr EISDIR_L, st)
      else
        let st := seekAppend st i
        match fillGap st i with
        | none => (lxErr ENOSPC_L, st)
        | some st => writeData st i buf

/--
`total` is a `uint32_t`.
-/
def sysWritev (st : LxState) (fd : Nat) (bufs : List Bytes) (total : Nat) : Nat × LxState :=
  match bufs with
  | [] => (total, st)
  | buf :: bufs =>
    let (w, st) := sysWrite st fd buf
    if w = lxErr EBADF_L then
      (w, st)
    else if w < buf.length then
      ((total + w) % 2 ^ 32, st)
    else
      sysWritev st fd bufs ((total + w) % 2 ^ 32)

end Write

/--
`seek_new_pos` with `int32_t` sums, `none` for `-EINVAL_L`.
-/
def seekNewPos (f : LinuxFd) (off : Int32) (whence : Nat) : Option Nat :=
  let base := match whence with
    | 0 => some 0
    | 1 => some (Int.bmod f.pos (2 ^ 32))
    | 2 => some (Int.bmod f.len (2 ^ 32))
    | _ => none
  match base with
  | none => none
  | some base =>
    let np := Int.bmod (base + off.toInt) (2 ^ 32)
    if np < 0 then none else some np.toNat

def sysLseek (st : LxState) (fd : Nat) (off : Int32) (whence : Nat) : Nat × LxState :=
  match fdGet st fd with
  | none => (lxErr EBADF_L, st)
  | some i =>
    match seekNewPos (st.lfd i) off whence with
    | none => (lxErr EINVAL_L, st)
    | some np => (np, st.setFd i { st.lfd i with pos := np })

def sysFtruncate (st : LxState) (fd len : Nat) : Nat × LxState :=
  match fdGet st fd with
  | none => (lxErr EBADF_L, st)
  | some i =>
    let f := st.lfd i
    if f.isDir then
      (lxErr EISDIR_L, st)
    else if maxFileSize < len then
      (lxErr EINVAL_L, st)
    else
      let st := if len < f.len then st.putData f.data len (List.replicate (f.len - len) 0) else st
      (0, st.setFd i { f with len := len, pos := min f.pos len, dirty := true })

def sysDup (st : LxState) (oldfd : Nat) : Nat × LxState :=
  match fdGet st oldfd with
  | none => (lxErr EBADF_L, st)
  | some i =>
    match fdFree st with
    | none => (lxErr EMFILE_L, st)
    | some n => (n.val, st.setFd n (st.lfd i))

def sysDup2 (st : LxState) (oldfd newfd : Nat) : Nat × LxState :=
  match fdGet st oldfd with
  | none => (lxErr EBADF_L, st)
  | some i =>
    if h : newfd < linuxMaxFd then
      if newfd = oldfd then
        (newfd, st)
      else
        let n : Fin linuxMaxFd := ⟨newfd, h⟩
        let st := if (st.lfd n).used then fdFlush st n else st
        (newfd, st.setFd n { st.lfd i with used := true })
    else
      (lxErr EBADF_L, st)

/--
`pread64`, the offset has 64 bits.
-/
def sysPread (st : LxState) (fd count off : Nat) : LxResult × LxState :=
  match fdGet st fd with
  | none => (⟨lxErr EBADF_L, []⟩, st)
  | some i =>
    let f := st.lfd i
    if f.isDir then
      (⟨lxErr EBADF_L, []⟩, st)
    else
      let n := min (f.len - off) count
      (⟨n, st.getData f.data off n⟩, st.touch f.data off n)

/--
Where `len` bytes are mapped, or an error number. `fixed` is `MAP_FIXED`.
-/
def mmapPlace (st : LxState) (fixed : Bool) (addr len : Nat) : Except Nat (Nat × LxState) :=
  if fixed then
    if addr < st.mmapBase ∨ st.mmapLimit < (addr + len) % 2 ^ 32 then
      .error ENOMEM_L
    else
      .ok (addr, st)
  else if addr ≠ 0 then
    .error ENODEV_L
  else if st.mmapLimit < (st.mmapNext + len) % 2 ^ 32 then
    .error ENOMEM_L
  else
    .ok (st.mmapNext, { st with mmapNext := (st.mmapNext + len) % 2 ^ 32 })

/--
The bytes are those that the mapped area starts with.
-/
def sysMmap (st : LxState) (fixed : Bool) (addr len : Nat) (file : Option Nat) (off : Nat)
    : LxResult × LxState :=
  if len = 0 then
    (⟨lxErr EINVAL_L, []⟩, st)
  else
    let len := (len + 4095) % 2 ^ 32 / 4096 * 4096
    match mmapPlace st fixed addr len with
    | .error e => (⟨lxErr e, []⟩, st)
    | .ok (a, st) =>
      let st := st.fillAbs a len (fun _ => 0)
      match file with
      | none => (⟨a, []⟩, st)
      | some fd =>
        match fdGet st fd with
        | none => (⟨lxErr EBADF_L, []⟩, st)
        | some i =>
          let f := st.lfd i
          if f.isDir then
            (⟨lxErr EISDIR_L, []⟩, st)
          else
            let got := min (f.len - off) len
            let bs := st.getData f.data off got
            (⟨a, bs⟩, (st.touch f.data off got).fillAbs a got (fun j => bs.getD j 0))

def sysChdir (st : LxState) (path : Bytes) : Nat × LxState :=
  let (rc, s) := fsChangeDirectory st.fs (lxnorm st.fs path)
  (if rc = 0 then 0 else lxErr ENOENT_L, { st with fs := s })

/--
A syscall, or whatever else changes the filesystem in between.
-/
inductive LxCall where
  | open (path : CStr) (flags : UInt32)
  | close (fd : Nat)
  | read (fd count : Nat) (line : Bytes)
  | write (fd : Nat) (buf : Data)
  | writev (fd : Nat) (bufs : List Data)
  | lseek (fd : Nat) (off : Int32) (whence : Nat)
  | ftruncate (fd : Nat) (len : UInt32)
  | dup (fd : Nat)
  | dup2 (oldfd newfd : Nat)
  | pread (fd count off : Nat)
  | mmap (fixed : Bool) (addr len : UInt32) (file : Option Nat) (off : Nat)
  | chdir (path : CStr)
  | fs (op : FsOp) (fuel : Nat)

/--
One call.
-/
def lxStep (st : LxState) : LxCall → LxResult × LxState
  | .open path flags => plain (sysOpen st path flags)
  | .close fd => plain (sysClose st fd)
  | .read fd count line => sysRead st fd count line
  | .write fd buf => plain (sysWrite st fd buf)
  | .writev fd bufs => plain (sysWritev st fd (bufs.map Subtype.val) 0)
  | .lseek fd off whence => plain (sysLseek st fd off whence)
  | .ftruncate fd len => plain (sysFtruncate st fd len.toNat)
  | .dup fd => plain (sysDup st fd)
  | .dup2 oldfd newfd => plain (sysDup2 st oldfd newfd)
  | .pread fd count off => sysPread st fd count off
  | .mmap fixed addr len file off => sysMmap st fixed addr.toNat len.toNat file off
  | .chdir path => plain (sysChdir st path)
  | .fs op fuel =>
    match op.exec fuel st.fs with
    | none => (⟨0, []⟩, st)
    | some (_, s) => (⟨0, []⟩, { st with fs := s })
where
  plain (r : Nat × LxState) : LxResult × LxState :=
    (⟨r.1, []⟩, r.2)

/--
The tables when `linux_run` starts a program. The console has entries whose `slot` is 0.
-/
def LxState.boot (st : LxState) : LxState :=
  { st with
    lfd := fun i => { LinuxFd.zero with
      used := i.val < 3
      slot := if i.val < 3 then some ⟨0, by decide⟩ else none }
    slotUsed := fun _ => false
    mmapNext := st.mmapBase
    opens := 0
    spilled := false
  }

end TanjaOS
