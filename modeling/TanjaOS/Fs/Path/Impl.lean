import TanjaOS.Fs.Basic

/-!
Canonical paths. `absPath` joins the current directory and its argument, cuts the result at slashes
and pushes or pops one component at a time on an output of at most 255 bytes.
-/

open Lib

namespace TanjaOS

namespace absPath

/--
The 512 byte buffer in which the current directory and the argument are put together.
-/
def combined (cwd name : Bytes) : Bytes :=
  if name.head? = some slash then
    name.take 511
  else
    let pre := cwd.take 511
    let pre := if pre = [] then [slash] else pre
    let pre := if 1 < pre.length ∧ pre.getLast? ≠ some slash then pre ++ [slash] else pre
    pre ++ name.take (511 - pre.length)

/--
The output so far and, deepest component first, the offsets at which its components start.
-/
structure State where
  out : Bytes
  starts : List Nat
  deriving DecidableEq

def step (st : State) (comp : Bytes) : State :=
  if comp = [dot] then
    st
  else if comp = [dot, dot] then
    match st.starts with
    | [] => st
    | start :: starts => ⟨st.out.take (if 1 < start then start - 1 else start), starts⟩
  else if 64 ≤ st.starts.length then
    st
  else
    -- a full output gets no separator, but the component is pushed all the same
    let out :=
      if 1 < strlenSafe st.out ∧ strlenSafe st.out < 255 then st.out ++ [slash] else st.out
    ⟨out ++ comp.take (255 - out.length), out.length :: st.starts⟩

end absPath

/--
The non empty pieces between slashes.
-/
def components (path : Bytes) : List Bytes :=
  (path.splitOn slash).filter (· ≠ [])

def absPath (cwd name : Bytes) : Bytes :=
  ((components (absPath.combined cwd name)).foldl absPath.step ⟨[slash], []⟩).out

/--
The number of bytes of `s` up to and including its last slash.
-/
def lastCut (s : Bytes) : Nat :=
  s.length - (s.reverse.takeWhile (· ≠ slash)).length

def splitParent (abs : Bytes) : Bytes :=
  let stripped := abs.rdropWhile (· = slash)
  let stripped := if stripped = [] then abs.take 1 else stripped
  let cut := lastCut stripped
  if cut = 0 then
    [slash]
  else
    let pl := if cut - 1 < 1 then 1 else cut - 1
    let pl := if fsPathCap ≤ pl then fsPathCap - 1 else pl
    abs.take pl

def fsDirectoryExists (s : FsState) (path : Bytes) : Bool :=
  if path = [] then
    false
  else if path = [slash] then
    true
  else
    (dirIndex s (absPath s.cwd.str path)).isSome

def parentExists (s : FsState) (path : Bytes) : Bool :=
  let full := absPath s.cwd.str path
  if strlenSafe full ≤ 1 then
    true
  else if lastCut full ≤ 1 then
    true
  else
    fsDirectoryExists s (full.take (lastCut full - 1))

/--
Write access to the parent directory of `abs`, for creating and deleting.
-/
def mayModifyParent (s : FsState) (abs : Bytes) : Bool × FsState :=
  match dirIndex s (splitParent abs) with
  | none => (true, s)
  | some d =>
    if permAllows s (s.dmode d) (s.downer d) 0o200 then
      (true, s)
    else
      (false, fsDeny s)

end TanjaOS
