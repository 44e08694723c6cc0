import TanjaOS.Account.Run
import TanjaOS.Shell.Expand

/-!
The shell: who is logged in, the commands that are built in, and how a command line is run. What a
command prints is not modelled.
-/

open Lib

namespace TanjaOS

structure Kernel where
  acc : Accounts
  fs : FsState
  curUsername : Bytes
  curUid : Int32
  curHome : Bytes
  env : Env
  shellExitFlag : Bool
  /-- The name under which `login` or `su` has last let someone in. It is not in the source. -/
  lastAuth : Bytes

/--
The commands that `kernel_main` registers.
-/
inductive Builtin where
  | exit
  | hostname
  | sudo
  | useradd
  | userdel
  | usermod
  | groupadd
  | groupdel
  | groups
  | su
  | passwd
  | chmod
  | chown
  deriving DecidableEq

namespace Builtin

def name : Builtin → Bytes
  | .exit => [101, 120, 105, 116]
  | .hostname => [104, 111, 115, 116, 110, 97, 109, 101]
  | .sudo => [115, 117, 100, 111]
  | .useradd => [117, 115, 101, 114, 97, 100, 100]
  | .userdel => [117, 115, 101, 114, 100, 101, 108]
  | .usermod => [117, 115, 101, 114, 109, 111, 100]
  | .groupadd => [103, 114, 111, 117, 112, 97, 100, 100]
  | .groupdel => [103, 114, 111, 117, 112, 100, 101, 108]
  | .groups => [103, 114, 111, 117, 112, 115]
  | .su => [115, 117]
  | .passwd => [112, 97, 115, 115, 119, 100]
  | .chmod => [99, 104, 109, 111, 100]
  | .chown => [99, 104, 111, 119, 110]

def all : List Builtin :=
  [.exit, .hostname, .sudo, .useradd, .userdel, .usermod, .groupadd, .groupdel, .groups, .su, .passwd,
    .chmod, .chown]

def named (name : Bytes) : Option Builtin :=
  all.find? (·.name = name)

/--
The commands that work on the account table.
-/
def accountCmd (input : CmdInput) : Builtin → Option AccountCmd
  | .hostname => some (.hostname input)
  | .useradd => some (.useradd input)
  | .userdel => some (.userdel input)
  | .usermod => some (.usermod input)
  | .groupadd => some (.groupadd input)
  | .groupdel => some (.groupdel input)
  | .passwd => some (.passwd input)
  | _ => none

end Builtin

section Modes

def parseOctal (p : Bytes) : Option UInt32 :=
  match (p.takeWhile (fun b => 48 ≤ b ∧ b ≤ 55)).take 4 with
  | [] => none
  | ds => some (ds.foldl (fun v b => (v <<< 3) + (b.toUInt32 - 48)) 0)

/--
The users that a clause is for: 1, 2 and 4 stand for `u`, `g` and `o`.
-/
def clauseWho (spec : Bytes) : UInt32 :=
  (spec.takeWhile (fun b => b = 117 ∨ b = 103 ∨ b = 111 ∨ b = 97)).foldl (fun who b =>
    who ||| (if b = 117 then 1 else if b = 103 then 2 else if b = 111 then 4 else 7)) 0

def clausePerm (spec : Bytes) : UInt32 :=
  (spec.takeWhile (fun b => b = 114 ∨ b = 119 ∨ b = 120)).foldl (fun perm b =>
    perm ||| (if b = 114 then 4 else if b = 119 then 2 else 1)) 0

/--
The bits of `perm` for everyone in `who`.
-/
def clauseMask (who perm : UInt32) : UInt32 :=
  (if who &&& 1 ≠ 0 then perm <<< 6 else 0) ||| (if who &&& 2 ≠ 0 then perm <<< 3 else 0)
    ||| (if who &&& 4 ≠ 0 then perm else 0)

/--
Every turn takes the operator of a clause, `fuel` is the length of `spec`.
-/
def chmodClauses : Nat → Bytes → UInt32 → Option UInt32
  | 0, _, mode => some (mode &&& 0o777)
  | _ + 1, [], mode => some (mode &&& 0o777)
  | fuel + 1, spec, mode =>
    let who := clauseWho spec
    let who := if who = 0 then 7 else who
    match spec.dropWhile (fun b => b = 117 ∨ b = 103 ∨ b = 111 ∨ b = 97) with
    | [] => none
    | op :: spec =>
      if op ≠ 43 ∧ op ≠ 45 ∧ op ≠ 61 then
        none
      else
        let mask := clauseMask who (clausePerm spec)
        let mode :=
          if op = 43 then mode ||| mask
          else if op = 45 then mode &&& ~~~mask
          else (mode &&& ~~~(clauseMask who 7)) ||| mask
        match spec.dropWhile (fun b => b = 114 ∨ b = 119 ∨ b = 120) with
        | [] => chmodClauses fuel [] mode
        | 44 :: spec => chmodClauses fuel spec mode
        | _ => none

def chmodSymbolic (spec : Bytes) (mode : UInt32) : Option UInt32 :=
  if spec = [] then none else chmodClauses spec.length spec mode

/--
`-R`
-/
def flagRecursive : Bytes := [45, 82]

/--
The arguments behind the `-R` flags. When there is nothing else, the flags are taken for arguments.
-/
def behindFlags (toks : List Bytes) : List Bytes :=
  let rest := toks.dropWhile (· = flagRecursive)
  if rest = [] then toks else rest

/--
The mode that `chmod` gives to `path`. The error says whether it goes on with the next one.
-/
def chmodMode (s : FsState) (mode path : Bytes) : Except Bool UInt32 :=
  if mode.head?.any (fun b => 48 ≤ b ∧ b ≤ 55) then
    match parseOctal mode with
    | some m => .ok m
    | none => .error false
  else
    match fsGetMode s path with
    | none => .error true
    | some cur =>
      match chmodSymbolic mode cur.toUInt32 with
      | some m => .ok m
      | none => .error false

def chmodPaths (recursive : Bool) (mode : Bytes) : List Bytes → FsState → FsState
  | [], s => s
  | path :: paths, s =>
    match chmodMode s mode path with
    | .error true => chmodPaths recursive mode paths s
    | .error false => s
    | .ok m =>
      chmodPaths recursive mode paths
        (if recursive then (fsChmodRecursive s path m).2 else (fsChmod s path m).2)

def cmdChmod (s : FsState) (input : CmdInput) : FsState :=
  let toks := splitArgs (strncpyText 512 input.args input.behind) 24
  match behindFlags toks with
  | mode :: path :: paths => chmodPaths (toks.head? = some flagRecursive) mode (path :: paths) s
  | _ => s

def chownPaths (recursive : Bool) (uid : Int32) (paths : List Bytes) (s : FsState) : FsState :=
  paths.foldl (fun s path =>
    if recursive then (fsChownRecursive s path uid).2 else (fsChown s path uid).2) s

def cmdChown (acc : Accounts) (s : FsState) (input : CmdInput) : FsState :=
  let toks := splitArgs (strncpyText 512 input.args input.behind) 24
  match behindFlags toks with
  | name :: path :: paths =>
    match acc.userFind name with
    | none => s
    | some idx => chownPaths (toks.head? = some flagRecursive) (acc.user idx).uid (path :: paths) s
  | _ => s

end Modes

/--
`/root`
-/
def rootHome : Bytes :=
  [47, 114, 111, 111, 116]

/--
`wheel`
-/
def wheelName : Bytes :=
  [119, 104, 101, 101, 108]

/--
`read`
-/
def readName : Bytes :=
  [114, 101, 97, 100]

/--
The text of a buffer.
-/
def cstr (text : Bytes) : CStr :=
  ⟨text.takeWhile (· ≠ 0), fun h => by simpa using List.mem_takeWhile_imp h⟩

/--
The name of a command, of at most 31 bytes, and what comes after it.
-/
def splitCommand (line : Bytes) : Option (Bytes × Bytes) :=
  let line := line.dropWhile (· = 32)
  if line = [] then
    none
  else
    let name := (line.takeWhile (· ≠ 32)).take 31
    some (name, (line.drop name.length).dropWhile (· = 32))

namespace Kernel

def session (k : Kernel) : Session :=
  ⟨k.curUsername, k.curUid⟩

def withUid (k : Kernel) (uid : Int32) : Kernel :=
  { k with fs := { k.fs with fsCurUid := uid } }

def setSessionUser (k : Kernel) (idx : Nat) : Kernel :=
  let u := k.acc.user idx
  { k.withUid u.uid with
    curUsername := u.username
    curUid := u.uid
    curHome := if u.uid = 0 then rootHome else homePrefix ++ u.username.take 84 }

/--
Go to the home directory, or else to the root, and then be the session's user again.
-/
def enterHome (k : Kernel) : Kernel :=
  let (rc, fs) := fsChangeDirectory { k.fs with fsCurUid := 0 } k.curHome
  let fs := if rc ≠ 0 then (fsChangeDirectory fs [slash]).2 else fs
  { k with fs := { fs with fsCurUid := k.curUid } }

/--
Let in user `idx`, who has been found under `name`.
-/
def letIn (k : Kernel) (name : Bytes) (idx : Nat) : Kernel :=
  ({ k with lastAuth := name }.setSessionUser idx).enterHome

def loginPrompt (k : Kernel) : List CStr → Option Kernel
  | [] => none
  | line :: typed =>
    let u := readLine maxUsername line
    match k.acc.userFind u with
    | none =>
      match typed with
      | [] => none
      | _ :: typed => loginPrompt k typed
    | some idx =>
      if (k.acc.user idx).password = [] then
        some (k.letIn u idx)
      else
        match typed with
        | [] => none
        | line :: typed =>
          if readLine maxPassword line = (k.acc.user idx).password then
            some (k.letIn u idx)
          else
            loginPrompt k typed

/--
The user that `su` is for, `none` is the usage message.
-/
def suName (name : Option Bytes) : List Bytes → Option Bytes
  | [] => some (name.getD rootName)
  | tok :: toks =>
    if tok = [45] ∨ tok = [45, 108] ∨ tok = [45, 108, 111, 103, 105, 110] then
      suName name toks
    else if name = none then
      suName (some tok) toks
    else
      none

/--
Whom `su` lets in. The outer `none` stands for a `su` that still waits for a password.
-/
def suTarget (k : Kernel) (input : CmdInput) : Option (Option (Bytes × Nat)) :=
  match suName none (splitArgs (strncpyText 128 input.args input.behind) 8) with
  | none => some none
  | some name =>
    match k.acc.userFind name with
    | none => some none
    | some idx =>
      if k.fs.fsCurUid ≠ 0 ∧ (k.acc.user idx).password ≠ [] then
        match input.typed with
        | [] => none
        | line :: _ =>
          if readLine maxPassword line ≠ (k.acc.user idx).password then
            some none
          else
            some (some (name, idx))
      else
        some (some (name, idx))

def cmdSu (k : Kernel) (input : CmdInput) : Option Kernel :=
  (k.suTarget input).map (fun target => target.elim k (fun t => k.letIn t.1 t.2))

/--
While there is a group `wheel` with members, only these may `sudo`.
-/
def wheelAllows (k : Kernel) : Bool :=
  match k.acc.groupFind wheelName with
  | none => true
  | some w =>
    match k.acc.groups[w]? with
    | none => true
    | some g => g.members = [] ∨ groupHasMember g k.curUsername

/--
Ask for the password, `tries` times. The lines that are left are for the command.
-/
def sudoTries (password : Bytes) : Nat → List CStr → Option (Bool × List CStr)
  | 0, typed => some (false, typed)
  | _ + 1, [] => none
  | tries + 1, line :: typed =>
    let pw := readLine maxPassword line
    if pw = [] then
      some (false, typed)
    else if password ≠ [] ∧ pw = password then
      some (true, typed)
    else
      sudoTries password tries typed

/--
Whether the user of a session that is not root's may run a command with `sudo`.
-/
def sudoAllowed (k : Kernel) (typed : List CStr) : Option (Bool × List CStr) :=
  if ¬k.wheelAllows then
    some (false, typed)
  else
    match k.acc.userFind k.curUsername with
    | none => some (false, typed)
    | some self => sudoTries (k.acc.user self).password 3 typed

/--
The arguments that a command called `name` gets. `read` alone sees them as they are.
-/
def finalArgs (k : Kernel) (name args : Bytes) : Bytes :=
  if name = readName then args else expandGlobs k.fs (expandVars k.env args)

/--
A command line that runs a built in command: the command and its arguments.
-/
def resolve (k : Kernel) (line : Bytes) : Option (Builtin × Bytes) := do
  let (name, args) ← splitCommand line
  let b ← Builtin.named name
  return (b, k.finalArgs name args)

/--
Every built in command but `sudo`, which runs another command line. `none` stands for a command that
waits for a line.
-/
def runBuiltin (k : Kernel) (fuel : Nat) (b : Builtin) (input : CmdInput) : Option Kernel :=
  match b.accountCmd input with
  | some cmd => do
    let (acc, ops) ← AccountCall.result ⟨k.session, cmd⟩ k.acc
    let fs ← runHomeOps fuel k.fs ops
    return { k with acc := acc, fs := fs }
  | none =>
    match b with
    | .exit => some { k with shellExitFlag := true }
    | .su => k.cmdSu input
    | .chmod => some { k with fs := cmdChmod k.fs input }
    | .chown => some { k with fs := cmdChown k.acc k.fs input }
    | _ => some k

/--
The x bit that the user needs for running `path`.
-/
def execPermOk (k : Kernel) (path : Bytes) : Bool :=
  match fsGetMode k.fs path with
  | none => true
  | some mode =>
    if mode &&& 0o111 = 0 then false
    else if k.fs.fsCurUid = 0 then true
    else if some k.fs.fsCurUid = fsGetOwner k.fs path then mode &&& 0o100 ≠ 0
    else mode &&& 0o001 ≠ 0

/--
`/bin/`, `/usr/bin/` and `/Programs/`
-/
def programDirs : List Bytes :=
  [[47, 98, 105, 110, 47], [47, 117, 115, 114, 47, 98, 105, 110, 47],
    [47, 80, 114, 111, 103, 114, 97, 109, 115, 47]]

/--
The name without the `./` in front of it.
-/
def stripDotSlash : Bytes → Bytes
  | 46 :: 47 :: name => stripDotSlash name
  | name => name

/--
The file that a command line runs when no built in command has its name.
-/
def programFile (k : Kernel) (name : Bytes) : Option Bytes :=
  let paths := programDirs.flatMap (fun d => [d ++ name, d ++ name ++ [46, 111]])
  (paths ++ [stripDotSlash name]).find? (fsFileExists k.fs)

end Kernel

end TanjaOS
