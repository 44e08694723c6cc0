import TanjaOS.Fs.Ops.Impl

/-!
`fs_delete_directory_recursive`. It lists the directory into a text buffer, one entry a line with a
slash behind directories, and takes this text apart again.
-/

open Lib

namespace TanjaOS

/--
What a listing of `lp` shows of the entry `name`, if anything.
-/
def listChild (lp name : Bytes) : Option Bytes :=
  let llen := strlenSafe lp
  if strlenSafe name ≤ llen then
    none
  else if name.take llen ≠ lp.take llen then
    none
  else if llen = 1 ∧ lp[0]? = some slash then
    visible (name.drop 1)
  else if name[llen]? ≠ some slash then
    none
  else
    visible (name.drop (llen + 1))
where
  visible (child : Bytes) : Option Bytes :=
    if child = [] ∨ slash ∈ child then none else some child

/--
Append the lines for `names`, each followed by `suffix`, to a buffer of 16384 bytes.
-/
def listLines (lp suffix : Bytes) : List Bytes → Bytes → Bytes
  | [], buf => buf
  | name :: names, buf =>
    if buf.length < 16380 then
      match listChild lp name with
      | none => listLines lp suffix names buf
      | some child =>
        if 16384 ≤ buf.length + strlenSafe child + (suffix.length + 1) then
          listLines lp suffix names buf
        else
          listLines lp suffix names (buf ++ child.take (strlenSafe child) ++ suffix)
    else
      buf

/--
The names in use, in slot order. A listing does not look at directory slot 0.
-/
def dirNames (s : FsState) : List Bytes :=
  ((List.finRange maxD).filter (fun i => 1 ≤ i.val ∧ s.dused i ≠ 0)).map (fun i => (s.dname i).str)

def fileNames (s : FsState) : List Bytes :=
  ((List.finRange maxF).filter (fun i => s.fused i ≠ 0)).map (fun i => (s.fname i).str)

def fsListDirectory (s : FsState) (path : Bytes) : Int × Bytes × FsState :=
  let s := { s with fsErrno := 0 }
  let lp := if path = [] then s.cwd.str else absPath s.cwd.str path
  if ¬fsDirectoryExists s lp then
    (-1, [], s)
  else
    match dirIndex s lp with
    | some d =>
      if permAllows s (s.dmode d) (s.downer d) 0o400 then
        (0, lines s lp, s)
      else
        (-2, [], fsDeny s)
    | none => (0, lines s lp, s)
where
  lines (s : FsState) (lp : Bytes) : Bytes :=
    listLines lp [newline] (fileNames s) (listLines lp [slash, newline] (dirNames s) [])

/--
Take a listing apart into its entries, each read into a buffer of 256 bytes.
-/
def splitEntries (buf : Bytes) : List Bytes :=
  match buf with
  | [] => []
  | c :: cs =>
    let line := (c :: cs).takeWhile (· ≠ newline)
    let entry := line.take 255
    let rest := (c :: cs).drop entry.length
    entry :: splitEntries (if rest.head? = some newline then rest.tail else rest)
termination_by buf.length
decreasing_by
  by_cases hc : c = newline
  . subst hc
    simp
  . simp only [ne_eq, decide_not, List.takeWhile_cons, hc, decide_false, Bool.not_false,
      ↓reduceIte, List.take_succ_cons, List.length_cons, List.drop_succ_cons]
    split
    . simp
    . simp

/--
The path under which an entry of `path` is deleted.
-/
def childPath (path entry : Bytes) : Bytes :=
  let plen := strlenSafe path
  let child := if path = [slash] then [slash] else path.take (min plen 255)
  let child :=
    if 1 < child.length ∧ child.getLast? ≠ some slash ∧ child.length < 255 then child ++ [slash]
    else if child.length = 0 then child ++ [slash]
    else child
  child ++ entry.take (255 - child.length)

/--
Delete the entries of a listing one after the other until one of them fails.
-/
def deleteEntries (delete : FsState → Bytes → Option (Int × FsState)) (path : Bytes)
    : List Bytes → FsState → Option (Int × FsState)
  | [], s => some (0, s)
  | entry :: entries, s =>
    if entry = [] then
      deleteEntries delete path entries s
    else
      let res :=
        if entry.getLast? = some slash then
          delete s (childPath path entry.dropLast)
        else
          some (fsDeleteFile s (childPath path entry))
      match res with
      | none => none
      | some (rc, s) =>
        if rc ≠ 0 then
          some (-1, s)
        else
          deleteEntries delete path entries s

/--
The recursion of the source is not bounded, `none` stands for more than `fuel` nested calls.
-/
def fsDeleteDirectoryRecursive (fuel : Nat) (s : FsState) (path : Bytes) : Option (Int × FsState) :=
  match fuel with
  | 0 => none
  | fuel + 1 =>
    let s := { s with fsErrno := 0 }
    match (if path = [] then (true, s) else mayModifyParent s (absPath s.cwd.str path)) with
    | (false, s) => some (-2, s)
    | (true, s) =>
      if path = [] then
        some (-1, s)
      else if ¬fsDirectoryExists s path then
        some (-1, s)
      else
        match fsListDirectory s path with
        | (rc, buf, s) =>
          if rc ≠ 0 then
            some (-1, s)
          else
            match deleteEntries (fsDeleteDirectoryRecursive fuel) path (splitEntries buf) s with
            | none => none
            | some (rc, s) =>
              if rc ≠ 0 then
                some (rc, s)
              else
                let (rc, s) := fsDeleteDirectory s path
                some (if rc ≠ 0 then -1 else 0, s)

end TanjaOS
