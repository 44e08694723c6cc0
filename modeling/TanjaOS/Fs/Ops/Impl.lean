import TanjaOS.Fs.Path.Impl

/-!
The operations that change the filesystem. Each returns its result code and the state it leaves.
`fs_commit_change` is not part of them: writing the image to disk reads the tables but does not
change them (see `TanjaOS.Store`).
-/

open Lib

namespace TanjaOS

/--
Store `data` at pool address `addr`. Addresses are `uint32_t`, so that they wrap around, and what
does not lie in the pool is not part of the model.
-/
def storeAt (fpoolBytes : UInt32) (pool : Mem) (addr : Nat) (data : Bytes) : Mem :=
  fun i =>
    if i < fpoolBytes.toNat then
      (data[(i + 2 ^ 32 - addr % 2 ^ 32) % 2 ^ 32]?).getD (pool i)
    else
      pool i

namespace FsState

/--
Store `data` at `fdata[idx] + offset`.
-/
def storeFile (s : FsState) (idx : Fin maxF) (offset : Nat) (data : Bytes) : FsState :=
  match s.fdata idx with
  | none => s
  | some p => { s with fpool := storeAt s.fpoolBytes s.fpool (p + offset) data }

/--
Take slot `i` of the directory table for `full`.
-/
def addDir (s : FsState) (i : Fin maxD) (full : Bytes) : FsState :=
  { s with
    dname := Function.update s.dname i (strcpySafe (s.dname i) full)
    dused := Function.update s.dused i 1
    downer := Function.update s.downer i s.fsCurUid
    dmode := Function.update s.dmode i 0o755 }

/--
Take slot `i` of the file table for `full`, a file without data.
-/
def addFile (s : FsState) (i : Fin maxF) (full : Bytes) : FsState :=
  { s with
    fname := Function.update s.fname i (strcpySafe (s.fname i) full)
    fsize := Function.update s.fsize i 0
    fdata := Function.update s.fdata i none
    fused := Function.update s.fused i 1
    fowner := Function.update s.fowner i s.fsCurUid
    fmode := Function.update s.fmode i 0o644 }

/--
Give up slot `i` of the directory table.
-/
def dropDir (s : FsState) (i : Fin maxD) : FsState :=
  { s with
    dused := Function.update s.dused i 0
    dname := Function.update s.dname i (strcpySafe (s.dname i) []) }

/--
Give up slot `i` of the file table, without its data.
-/
def dropFile (s : FsState) (i : Fin maxF) : FsState :=
  { s with
    fused := Function.update s.fused i 0
    fname := Function.update s.fname i (strcpySafe (s.fname i) [])
    fsize := Function.update s.fsize i 0 }

/--
Free the data of slot `i`.
-/
def freeData (s : FsState) (i : Fin maxF) : FsState :=
  { s with
    fpool := fpoolFree s.fpoolBytes s.fpool (s.fdata i)
    fdata := Function.update s.fdata i none
    fsize := Function.update s.fsize i 0 }

/--
Copy what file `idx` holds to `p`, but no more than `size` bytes.
-/
def copyData (s : FsState) (idx : Fin maxF) (size p : Nat) (pool : Mem) : Mem :=
  match s.fdata idx with
  | none => pool
  | some old => storeAt s.fpoolBytes pool p (pool.readBytes old (min (s.fsize idx) size))

end FsState

def fdataResize (s : FsState) (idx : Fin maxF) (size : Nat) : Int × FsState :=
  if maxFileData - 1 < size then
    (-2, s)
  else if size = 0 then
    (0, s.freeData idx)
  else
    match fpoolAlloc s.fpoolBytes s.fpool (size + 1) with
    | (none, pool) => (-3, { s with fpool := pool })
    | (some p, pool) =>
      let pool := storeAt s.fpoolBytes (s.copyData idx size p pool) (p + size) [0]
      let s := { s with fpool := pool }.freeData idx
      (0, { s with
        fdata := Function.update s.fdata idx (some p)
        fsize := Function.update s.fsize idx size })

def fsCreateDirectory (s : FsState) (path : Bytes) : Int × FsState :=
  let s := { s with fsErrno := 0 }
  let full := absPath s.cwd.str path
  if path = [] then
    (-1, s)
  else if ¬parentExists s path then
    (-1, s)
  else if full = [slash] then
    (-1, s)
  else if (dirIndex s full).isSome then
    (-1, s)
  else if (fileIndex s full).isSome then
    (-1, s)
  else
    match mayModifyParent s full with
    | (false, s) => (-2, s)
    | (true, s) =>
      match (List.finRange maxD).find? (fun i => 1 ≤ i.val ∧ s.dused i = 0) with
      | none => (-1, s)
      | some i => (0, s.addDir i full)

/--
The test both scans of `fs_delete_directory` apply to a name: it goes on behind `full` with a slash
and then has no other one.
-/
def isDirectChild (full name : Bytes) : Bool :=
  strlenSafe full < strlenSafe name
    ∧ name.take (strlenSafe full) = full.take (strlenSafe full)
    ∧ name[strlenSafe full]? = some slash
    ∧ slash ∉ name.drop (strlenSafe full + 1)

def fsDeleteDirectory (s : FsState) (path : Bytes) : Int × FsState :=
  let s := { s with fsErrno := 0 }
  let full := absPath s.cwd.str path
  match (if path = [] then (true, s) else mayModifyParent s full) with
  | (false, s) => (-2, s)
  | (true, s) =>
    if path = [] then
      (-1, s)
    -- the argument is compared as it was given
    else if path = [slash] then
      (-1, s)
    else if ∃ i, s.fused i ≠ 0 ∧ isDirectChild full (s.fname i).str then
      (-2, s)
    else if ∃ i, s.dused i ≠ 0 ∧ (s.dname i).str ≠ full ∧ isDirectChild full (s.dname i).str then
      (-2, s)
    else
      match dirIndex s full with
      | none => (-1, s)
      | some i => (0, s.dropDir i)

def fsCreateFile (s : FsState) (path : Bytes) : Int × FsState :=
  let s := { s with fsErrno := 0 }
  let full := absPath s.cwd.str path
  if path = [] then
    (-1, s)
  else if ¬parentExists s path then
    (-1, s)
  else if (fileIndex s full).isSome then
    (0, s)
  else if (dirIndex s full).isSome then
    (-1, s)
  else
    match mayModifyParent s full with
    | (false, s) => (-2, s)
    | (true, s) =>
      match (List.finRange maxF).find? (fun i => s.fused i = 0) with
      | none => (-1, s)
      | some i => (0, s.addFile i full)

def fsDeleteFile (s : FsState) (path : Bytes) : Int × FsState :=
  let s := { s with fsErrno := 0 }
  let full := absPath s.cwd.str path
  if path = [] then
    (-1, s)
  else
    match mayModifyParent s full with
    | (false, s) => (-2, s)
    | (true, s) =>
      match fileIndex s full with
      | none => (-1, s)
      | some i => (0, (s.dropFile i).freeData i)

/--
Undo the creation of an empty file whose first write failed.
-/
def rollBack (s : FsState) (idx : Fin maxF) : FsState :=
  if s.fsize idx = 0 ∧ s.fdata idx = none then s.dropFile idx else s

def fsWriteFile (s : FsState) (path data : Bytes) : Int × FsState :=
  let s := { s with fsErrno := 0 }
  let full := absPath s.cwd.str path
  match fileIndex s full with
  | some idx =>
    if permAllows s (s.fmode idx) (s.fowner idx) 0o200 then
      write s idx
    else
      (-2, fsDeny s)
  | none =>
    let (rc, s) := fsCreateFile s path
    if rc ≠ 0 then
      (-1, s)
    else
      match fileIndex s full with
      | none => (-1, s)
      | some idx => write s idx
where
  write (s : FsState) (idx : Fin maxF) : Int × FsState :=
    if maxFileData - 1 < data.length then
      (-2, rollBack s idx)
    else
      let (rc, s) := fdataResize s idx data.length
      if rc ≠ 0 then
        (-3, rollBack s idx)
      else
        (0, (s.storeFile idx 0 data).storeFile idx data.length [0])

def fsPreallocFile (s : FsState) (path : Bytes) (size : Nat) : Int × FsState :=
  let full := absPath s.cwd.str path
  if path = [] ∨ size = 0 ∨ maxFileData - 1 < size then
    (-1, s)
  else
    match fileIndex s full with
    | some idx => resize s idx
    | none =>
      let (rc, s) := fsCreateFile s path
      if rc ≠ 0 then
        (-1, s)
      else
        match fileIndex s full with
        | none => (-1, s)
        | some idx => resize s idx
where
  resize (s : FsState) (idx : Fin maxF) : Int × FsState :=
    let s := { s with fpool := fpoolCoalesce s.fpoolBytes s.fpool }
    let (rc, s) := fdataResize s idx size
    if rc ≠ 0 then (-3, s) else (0, s)

def fsWriteAt (s : FsState) (path : Bytes) (offset : Nat) (data : Bytes) : Int × FsState :=
  let full := absPath s.cwd.str path
  if data.length = 0 then
    (-1, s)
  else
    match fileIndex s full with
    | none => (-1, s)
    | some idx =>
      if s.fdata idx = none then
        (-1, s)
      -- the sum is a `uint32_t`
      else if s.fsize idx < (offset + data.length) % 2 ^ 32 then
        (-3, s)
      else
        (0, s.storeFile idx offset data)

def fsAppendFile (s : FsState) (path data : Bytes) : Int × FsState :=
  let s := { s with fsErrno := 0 }
  let full := absPath s.cwd.str path
  if path = [] ∨ data.length = 0 then
    (-1, s)
  else
    match fileIndex s full with
    | some idx =>
      if permAllows s (s.fmode idx) (s.fowner idx) 0o200 then
        append s idx (s.fsize idx)
      else
        (-2, fsDeny s)
    | none =>
      let (rc, s) := fsCreateFile s path
      if rc ≠ 0 then
        (rc, s)
      else
        match fileIndex s full with
        | none => (-1, s)
        | some idx => append s idx 0
where
  append (s : FsState) (idx : Fin maxF) (oldsz : Nat) : Int × FsState :=
    let newsz := (oldsz + data.length) % 2 ^ 32
    if maxFileData - 1 < newsz then
      (-3, s)
    else
      let (rc, s) := fdataResize s idx newsz
      if rc ≠ 0 then
        (-4, s)
      else
        (0, (s.storeFile idx oldsz data).storeFile idx newsz [0])

def fsChangeDirectory (s : FsState) (path : Bytes) : Int × FsState :=
  let s := { s with fsErrno := 0 }
  let full := absPath s.cwd.str path
  if path = [] then
    (0, { s with cwd := strcpySafe s.cwd [slash] })
  else
    match dirIndex s full with
    | none => (-1, s)
    | some i =>
      if permAllows s (s.dmode i) (s.downer i) 0o100 then
        (0, { s with cwd := strcpySafe s.cwd full })
      else
        (-2, fsDeny s)

/--
Owner or root, the rule for changing modes.
-/
def mayChmod (s : FsState) (owner : Int32) : Bool :=
  s.fsCurUid = 0 ∨ s.fsCurUid = owner

def fsChmod (s : FsState) (path : Bytes) (mode : UInt32) : Int × FsState :=
  let mode := (mode &&& 0o777).toUInt16
  let full := absPath s.cwd.str path
  if path = [] then
    (-1, s)
  else
    match fileIndex s full with
    | some f =>
      if mayChmod s (s.fowner f) then
        (0, { s with fmode := Function.update s.fmode f mode })
      else
        (-1, s)
    | none =>
      match dirIndex s full with
      | some d =>
        if mayChmod s (s.downer d) then
          (0, { s with dmode := Function.update s.dmode d mode })
        else
          (-1, s)
      | none => (-1, s)

def fsChown (s : FsState) (path : Bytes) (uid : Int32) : Int × FsState :=
  let full := absPath s.cwd.str path
  if path = [] then
    (-1, s)
  else if s.fsCurUid ≠ 0 then
    (-1, s)
  else
    match fileIndex s full with
    | some f => (0, { s with fowner := Function.update s.fowner f uid })
    | none =>
      match dirIndex s full with
      | some d => (0, { s with downer := Function.update s.downer d uid })
      | none => (-1, s)

/--
`child` is `dir` or lies somewhere below it.
-/
def pathUnder (child dir : Bytes) : Bool :=
  let dl := strlenSafe dir
  let dl := if dl ≠ 0 ∧ dir[dl - 1]? = some slash then dl - 1 else dl
  if child.take dl ≠ dir.take dl then
    false
  else
    child.length = dl ∨ (1 < dl ∧ child[dl]? = some slash)
      ∨ (dl = 1 ∧ dir[0]? = some slash ∧ child[0]? = some slash)

def fsChmodRecursive (s : FsState) (path : Bytes) (mode : UInt32) : Int × FsState :=
  if path = [] then
    (-1, s)
  else
    let full := absPath s.cwd.str path
    let (rc, s) := fsChmod s full mode
    if rc ≠ 0 then
      (-1, s)
    else
      let file (i : Fin maxF) : Bool :=
        s.fused i ≠ 0 ∧ pathUnder (s.fname i).str full ∧ mayChmod s (s.fowner i)
      let dir (i : Fin maxD) : Bool :=
        s.dused i ≠ 0 ∧ pathUnder (s.dname i).str full ∧ mayChmod s (s.downer i)
      let mode := (mode &&& 0o777).toUInt16
      (1 + (List.finRange maxF).countP file + (List.finRange maxD).countP dir,
        { s with
          fmode := fun i => if file i then mode else s.fmode i
          dmode := fun i => if dir i then mode else s.dmode i })

def fsChownRecursive (s : FsState) (path : Bytes) (uid : Int32) : Int × FsState :=
  if path = [] then
    (-1, s)
  else if s.fsCurUid ≠ 0 then
    (-1, s)
  else
    let full := absPath s.cwd.str path
    let (rc, s) := fsChown s full uid
    if rc ≠ 0 then
      (-1, s)
    else
      let file (i : Fin maxF) : Bool := s.fused i ≠ 0 ∧ pathUnder (s.fname i).str full
      let dir (i : Fin maxD) : Bool := s.dused i ≠ 0 ∧ pathUnder (s.dname i).str full
      (1 + (List.finRange maxF).countP file + (List.finRange maxD).countP dir,
        { s with
          fowner := fun i => if file i then uid else s.fowner i
          downer := fun i => if dir i then uid else s.downer i })

def fsReassignUid (s : FsState) (oldUid newUid : Int32) : Int × FsState :=
  let file (i : Fin maxF) : Bool := s.fused i ≠ 0 ∧ s.fowner i = oldUid
  let dir (i : Fin maxD) : Bool := s.dused i ≠ 0 ∧ s.downer i = oldUid
  ((List.finRange maxF).countP file + (List.finRange maxD).countP dir,
    { s with
      fowner := fun i => if file i then newUid else s.fowner i
      downer := fun i => if dir i then newUid else s.downer i })

end TanjaOS
