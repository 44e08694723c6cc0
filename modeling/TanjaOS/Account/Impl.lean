import TanjaOS.Fs.Basic

/-!
The account table: users, groups and the host name, and the commands that change them. The `char`
arrays of the table hold NUL terminated texts, only these are modelled: no text is ever read beyond
its NUL. What an array holds behind the NUL, such as the end of a longer host name from before, does
get into the image and is left out there too. The first `users_count` and `groups_count` entries of
the arrays are lists.
-/

open Lib

namespace TanjaOS

def maxUsername : Nat := 32

def maxPassword : Nat := 32

def maxHostname : Nat := 64

def maxUsers : Nat := 8

def maxGroups : Nat := 8

def maxGmem : Nat := 16

structure User where
  username : Bytes
  password : Bytes
  uid : Int32
  deriving DecidableEq

structure Group where
  name : Bytes
  members : List Bytes
  deriving DecidableEq

structure Accounts where
  hostname : Bytes
  isSetup : Bool
  users : List User
  groups : List Group
  nextUid : Int32
  deriving DecidableEq

/--
`root`
-/
def rootName : Bytes :=
  [114, 111, 111, 116]

/--
Blank the table, root first. The configuration is left alone.
-/
def usersResetTable (acc : Accounts) : Accounts :=
  { acc with
    users := [⟨rootName, [], 0⟩]
    groups := []
    nextUid := 1000 }

/--
Static storage, as the system boots with it.
-/
def bootAccounts : Accounts where
  hostname := []
  isSetup := false
  users := [⟨rootName, [], 0⟩]
  groups := []
  nextUid := 1000

def configReset (acc : Accounts) : Accounts :=
  { usersResetTable acc with
    hostname := []
    isSetup := false }

namespace Accounts

def userFind (acc : Accounts) (name : Bytes) : Option Nat :=
  acc.users.findIdx? (fun u => u.username ≠ [] ∧ u.username = name)

def groupFind (acc : Accounts) (name : Bytes) : Option Nat :=
  acc.groups.findIdx? (fun g => g.name ≠ [] ∧ g.name = name)

/--
The user in slot `idx`, which is in use.
-/
def user (acc : Accounts) (idx : Nat) : User :=
  acc.users.getD idx ⟨[], [], 0⟩

def modifyUser (acc : Accounts) (idx : Nat) (f : User → User) : Accounts :=
  { acc with users := acc.users.modify idx f }

end Accounts

def groupHasMember (g : Group) (name : Bytes) : Bool :=
  name ∈ g.members

/--
A full group silently takes no more members.
-/
def groupMemberAdd (g : Group) (name : Bytes) : Group :=
  if groupHasMember g name then
    g
  else if maxGmem ≤ g.members.length then
    g
  else
    { g with members := g.members ++ [name.take (maxUsername - 1)] }

def groupMemberRemove (g : Group) (name : Bytes) : Group :=
  { g with members := g.members.erase name }

/--
What an account command asks the filesystem for.
-/
inductive HomeOp where
  | createHomeTree (base : Bytes) (uid : Int32)
  | deleteTree (path : Bytes)
  | reassignUid (oldUid newUid : Int32)
  deriving DecidableEq

/--
`/home/`
-/
def homePrefix : Bytes :=
  [47, 104, 111, 109, 101, 47]

/--
The home directory of `name` as `user_add_full` and `userdel -r` build it, in 80 bytes.
-/
def homePath80 (name : Bytes) : Bytes :=
  homePrefix ++ name.take 72

/--
The result code of `user_add_full`, the table and what it asks for.
-/
def userAddFull (acc : Accounts) (name password : Bytes) (uid : Int32) : Int × Accounts × List HomeOp :=
  if name = [] then
    (-1, acc, [])
  else if (acc.userFind name).isSome then
    (-1, acc, [])
  else if maxUsers ≤ acc.users.length then
    (-2, acc, [])
  else
    let newUid := if 0 < uid then uid else acc.nextUid
    let nextUid := if 0 < uid then acc.nextUid else acc.nextUid + 1
    let nextUid := if nextUid ≤ newUid then newUid + 1 else nextUid
    (0,
      { acc with
        users := acc.users ++ [⟨name.take (maxUsername - 1), password.take (maxPassword - 1), newUid⟩]
        nextUid := nextUid },
      [.createHomeTree (homePath80 name) newUid])

def userAdd (acc : Accounts) (name password : Bytes) : Int × Accounts × List HomeOp :=
  userAddFull acc name password 0

def userDel (acc : Accounts) (name : Bytes) : Int × Accounts :=
  match acc.userFind name with
  | none => (-1, acc)
  | some 0 => (-1, acc)
  | some (idx + 1) =>
    (0, { acc with
      users := acc.users.eraseIdx (idx + 1)
      groups := acc.groups.map (groupMemberRemove · name) })

/--
Spaces and tabs.
-/
def isBlank (b : Byte) : Bool :=
  b = 32 ∨ b = 9

/--
The first `max` words of `s`.
-/
def splitArgs (s : Bytes) (max : Nat) : List Bytes :=
  ((s.splitOnP isBlank).filter (· ≠ [])).take max

/--
The text in a buffer of `cap` bytes that `strncpy` has copied `args` to. It is not terminated when
`args` is too long: the text goes on with `behind`, what happens to be there on the stack.
-/
def strncpyText (cap : Nat) (args behind : Bytes) : Bytes :=
  if args.length < cap then args else args.take cap ++ behind

/--
`int` arithmetic, it wraps around.
-/
def atoiSafe (p : Bytes) : Int32 :=
  match p with
  | 45 :: p => -digits p
  | p => digits p
where
  digits (p : Bytes) : Int32 :=
    (p.takeWhile (fun b => 48 ≤ b ∧ b ≤ 57)).foldl (fun v b => v * 10 + (b.toUInt32 - 48).toInt32) 0

/--
A line that has been typed, as far as it fits into a buffer of `max` bytes.
-/
def readLine (max : Nat) (line : Bytes) : Bytes :=
  line.take (max - 1)

/--
The user at the keyboard.
-/
structure Session where
  curUsername : Bytes
  curUid : Int32
  deriving DecidableEq

/--
A command: its arguments, what is on the stack behind them, and the lines that are typed while it
runs.
-/
structure CmdInput where
  args : CStr
  behind : CStr
  typed : List CStr

/--
What a command leaves: the table and what it has asked the filesystem for. `none` stands for a
command that still waits for a line.
-/
abbrev CmdResult := Option (Accounts × List HomeOp)

/--
`-p`, `-u`, `-r`
-/
def flagP : Bytes := [45, 112]

def flagU : Bytes := [45, 117]

def flagR : Bytes := [45, 114]

structure UseraddArgs where
  pass : Option Bytes := none
  uid : Int32 := 0
  name : Option Bytes := none
  deriving DecidableEq

/--
`none` is the usage message. A flag that nothing comes after is taken for the name.
-/
def useraddArgs (o : UseraddArgs) : List Bytes → Option UseraddArgs
  | [] => some o
  | [tok] => if o.name = none then some { o with name := some tok } else none
  | tok :: val :: rest =>
    if tok = flagP then
      useraddArgs { o with pass := some val } rest
    else if tok = flagU then
      useraddArgs { o with uid := atoiSafe val } rest
    else if o.name = none then
      useraddArgs { o with name := some tok } (val :: rest)
    else
      none

/--
The name and the options of an account that there is nothing against.
-/
def useraddRequest (cur : Session) (acc : Accounts) (input : CmdInput) : Option (Bytes × UseraddArgs) := do
  guard (cur.curUid = 0)
  let o ← useraddArgs {} (splitArgs (strncpyText 256 input.args input.behind) 16)
  let name ← o.name
  guard (name ≠ rootName)
  guard (acc.userFind name = none)
  return (name, o)

def cmdUseradd (cur : Session) (acc : Accounts) (input : CmdInput) : CmdResult :=
  match useraddRequest cur acc input with
  | none => some (acc, [])
  | some (name, o) =>
    match o.pass, input.typed with
    | some pass, _ => some (userAddFull acc name pass o.uid).2
    | none, [] => none
    | none, line :: _ =>
      let pw := readLine maxPassword line
      if pw = [] then some (acc, []) else some (userAddFull acc name pw o.uid).2

structure UserdelArgs where
  rmhome : Bool := false
  name : Option Bytes := none
  deriving DecidableEq

def userdelArgs (o : UserdelArgs) : List Bytes → Option UserdelArgs
  | [] => some o
  | tok :: rest =>
    if tok = flagR then
      userdelArgs { o with rmhome := true } rest
    else if tok.head? = some 45 ∧ tok.length ≠ 1 then
      none
    else if o.name = none then
      userdelArgs { o with name := some tok } rest
    else
      none

def cmdUserdel (cur : Session) (acc : Accounts) (input : CmdInput) : CmdResult :=
  if cur.curUid ≠ 0 then
    some (acc, [])
  else
    match userdelArgs {} (splitArgs (strncpyText 256 input.args input.behind) 16) with
    | none => some (acc, [])
    | some o =>
      match o.name with
      | none => some (acc, [])
      | some name =>
        if name = rootName then
          some (acc, [])
        else
          let (rc, acc) := userDel acc name
          if rc ≠ 0 then
            some (acc, [])
          else
            some (acc, if o.rmhome then [.deleteTree (homePath80 name)] else [])

structure UsermodArgs where
  pass : Option Bytes := none
  newname : Option Bytes := none
  glist : Option Bytes := none
  uid : Int32 := 0
  lock : Bool := false
  unlock : Bool := false
  appendGroups : Bool := false
  name : Option Bytes := none
  deriving DecidableEq

/--
The value `val` for flag `fl`, one of `p`, `l`, `u` and `G`.
-/
def usermodValue (o : UsermodArgs) (fl : Byte) (val : Bytes) : UsermodArgs :=
  if fl = 112 then
    { o with pass := some val }
  else if fl = 108 then
    { o with newname := some val }
  else if fl = 117 then
    { o with uid := atoiSafe val }
  else
    { o with glist := some val }

/--
The flags of one word. The result says whether the word after it, `next`, has been used as a value.
-/
def usermodFlags (o : UsermodArgs) (next : Option Bytes) : Bytes → Option (UsermodArgs × Bool)
  | [] => some (o, false)
  | fl :: rest =>
    if fl = 97 then
      usermodFlags { o with appendGroups := true } next rest
    else if fl = 76 then
      usermodFlags { o with lock := true } next rest
    else if fl = 85 then
      usermodFlags { o with unlock := true } next rest
    else if fl = 112 ∨ fl = 108 ∨ fl = 117 ∨ fl = 71 then
      if rest ≠ [] then
        some (usermodValue o fl rest, false)
      else
        match next with
        | some val => some (usermodValue o fl val, true)
        | none => none
    else
      none

def usermodWord (o : UsermodArgs) (tok : Bytes) (next : Option Bytes) : Option (UsermodArgs × Bool) :=
  match tok with
  | 45 :: fl :: rest => usermodFlags o next (fl :: rest)
  | _ => if o.name = none then some ({ o with name := some tok }, false) else none

def usermodArgs (o : UsermodArgs) : List Bytes → Option UsermodArgs
  | [] => some o
  | [tok] =>
    match usermodWord o tok none with
    | none => none
    | some (o, _) => some o
  | tok :: val :: rest =>
    match usermodWord o tok (some val) with
    | none => none
    | some (o, true) => usermodArgs o rest
    | some (o, false) => usermodArgs o (val :: rest)

/--
The groups that `-G` names, separated by commas.
-/
def glistNames (glist behind : Bytes) : List Bytes :=
  splitArgs ((strncpyText 256 glist behind).map (fun b => if b = 44 then 32 else b)) 16

/--
Rename user `idx`, called `name`, and carry over the group memberships.
-/
def renameUser (acc : Accounts) (idx : Nat) (name newname : Bytes) : Accounts :=
  { acc.modifyUser idx (fun u => { u with username := newname.take (maxUsername - 1) }) with
    groups := acc.groups.map (fun g =>
      if groupHasMember g name then groupMemberAdd (groupMemberRemove g name) newname else g) }

def setPassword (acc : Accounts) (idx : Nat) (pass : Bytes) : Accounts :=
  acc.modifyUser idx (fun u => { u with password := pass.take (maxPassword - 1) })

def setUid (acc : Accounts) (idx : Nat) (uid : Int32) : Accounts × List HomeOp :=
  let old := (acc.user idx).uid
  ({ acc.modifyUser idx (fun u => { u with uid := uid }) with
      nextUid := if acc.nextUid ≤ uid then uid + 1 else acc.nextUid },
    if 0 < old then [.reassignUid old uid] else [])

/--
`!`
-/
def bang : Byte := 33

/--
Put a `!` before the password, for which the last of 31 characters makes room.
-/
def lockUser (acc : Accounts) (idx : Nat) : Accounts :=
  if (acc.user idx).password.head? = some bang then
    acc
  else
    acc.modifyUser idx (fun u => { u with password := bang :: u.password.take (maxPassword - 2) })

def unlockUser (acc : Accounts) (idx : Nat) : Accounts :=
  if (acc.user idx).password.head? = some bang then
    acc.modifyUser idx (fun u => { u with password := u.password.tail })
  else
    acc

def addToGroup (name : Bytes) (acc : Accounts) (gname : Bytes) : Accounts :=
  match acc.groupFind gname with
  | none => acc
  | some gi => { acc with groups := acc.groups.modify gi (groupMemberAdd · name) }

/--
`-a` appends, plain `-G` replaces.
-/
def setGroups (acc : Accounts) (idx : Nat) (appendGroups : Bool) (names : List Bytes) : Accounts :=
  let name := (acc.user idx).username
  let acc :=
    if appendGroups then
      acc
    else
      { acc with groups := acc.groups.map (groupMemberRemove · name) }
  names.foldl (addToGroup name) acc

/--
The changes to user `idx`, found under `name`. `-L` gives up on root, with the changes before it
made.
-/
def usermodApply (acc : Accounts) (idx : Nat) (name : Bytes) (o : UsermodArgs) (gnames : List Bytes)
    : Accounts × List HomeOp :=
  let acc := o.newname.elim acc (renameUser acc idx name)
  let acc := o.pass.elim acc (setPassword acc idx)
  let (acc, ops) := if 0 < o.uid then setUid acc idx o.uid else (acc, [])
  if o.lock ∧ (acc.user idx).uid = 0 then
    (acc, ops)
  else
    let acc := if o.lock then lockUser acc idx else acc
    let acc := if o.unlock then unlockUser acc idx else acc
    let acc := if o.glist.isSome then setGroups acc idx o.appendGroups gnames else acc
    (acc, ops)

/--
What `usermod` has found before it changes anything: the account and what to do with it.
-/
structure UsermodRequest where
  idx : Nat
  name : Bytes
  args : UsermodArgs
  gnames : List Bytes

def usermodRequest (cur : Session) (acc : Accounts) (input : CmdInput) : Option UsermodRequest := do
  guard (cur.curUid = 0)
  let o ← usermodArgs {} (splitArgs (strncpyText 512 input.args input.behind) 24)
  let name ← o.name
  guard (¬(o.appendGroups ∧ o.glist = none))
  let gnames := o.glist.elim [] (glistNames · input.behind)
  guard (∀ gname ∈ gnames, acc.groupFind gname ≠ none)
  let idx ← acc.userFind name
  guard (∀ newname ∈ o.newname, newname ≠ rootName ∧ acc.userFind newname = none)
  return ⟨idx, name, o, gnames⟩

def cmdUsermod (cur : Session) (acc : Accounts) (input : CmdInput) : CmdResult :=
  match usermodRequest cur acc input with
  | none => some (acc, [])
  | some r => some (usermodApply acc r.idx r.name r.args r.gnames)

/--
The first word of the arguments.
-/
def firstArg (input : CmdInput) : Option Bytes :=
  (splitArgs (strncpyText 128 input.args input.behind) 4).head?

def cmdGroupadd (cur : Session) (acc : Accounts) (input : CmdInput) : CmdResult :=
  if cur.curUid ≠ 0 then
    some (acc, [])
  else
    match firstArg input with
    | none => some (acc, [])
    | some name =>
      if (acc.groupFind name).isSome then
        some (acc, [])
      else if maxGroups ≤ acc.groups.length then
        some (acc, [])
      else
        some ({ acc with groups := acc.groups ++ [⟨name.take (maxUsername - 1), []⟩] }, [])

def cmdGroupdel (cur : Session) (acc : Accounts) (input : CmdInput) : CmdResult :=
  if cur.curUid ≠ 0 then
    some (acc, [])
  else
    match firstArg input with
    | none => some (acc, [])
    | some name =>
      match acc.groupFind name with
      | none => some (acc, [])
      | some gi => some ({ acc with groups := acc.groups.eraseIdx gi }, [])

/--
Ask for a new password, `tries` times. It is erased before it is known whether the two lines match.
-/
def newPassword (acc : Accounts) (idx : Nat) : Nat → List CStr → Option Accounts
  | 0, _ => some acc
  | tries + 1, typed =>
    match typed with
    | [] => none
    | line :: typed =>
      let pw1 := readLine maxPassword line
      let acc := setPassword acc idx []
      if pw1 = [] then
        some acc
      else
        match typed with
        | [] => none
        | line :: typed =>
          if pw1 = readLine maxPassword line then
            some (setPassword acc idx pw1)
          else
            newPassword acc idx tries typed

def cmdPasswd (cur : Session) (acc : Accounts) (input : CmdInput) : CmdResult :=
  let name := (firstArg input).getD cur.curUsername
  match acc.userFind name with
  | none => some (acc, [])
  | some idx =>
    if name ≠ cur.curUsername ∧ cur.curUid ≠ 0 then
      some (acc, [])
    else if cur.curUid ≠ 0 ∧ (acc.user idx).password ≠ [] then
      match input.typed with
      | [] => none
      | line :: typed =>
        if readLine maxPassword line ≠ (acc.user idx).password then
          some (acc, [])
        else
          (newPassword acc idx 2 typed).map (·, [])
    else
      (newPassword acc idx 2 input.typed).map (·, [])

/--
Only the first word counts, and no more than 63 characters of it.
-/
def cmdHostname (acc : Accounts) (input : CmdInput) : CmdResult :=
  if input.args.val = [] then
    some (acc, [])
  else
    some ({ acc with hostname := (input.args.val.takeWhile (· ≠ 32)).take (maxHostname - 1) }, [])

section Wizard

/-!
`setup_wizard` asks its questions until it likes the answers, each function here is one of its
loops. They return the lines that are left.
-/

def askRootPassword (acc : Accounts) : List CStr → Option (Accounts × List CStr)
  | [] => none
  | line :: typed =>
    let pw1 := readLine maxPassword line
    if pw1 = [] then
      askRootPassword acc typed
    else
      match typed with
      | [] => none
      | line :: typed =>
        if pw1 = readLine maxPassword line then
          some (setPassword acc 0 pw1, typed)
        else
          askRootPassword acc typed

def askLogin (acc : Accounts) : List CStr → Option (Bytes × List CStr)
  | [] => none
  | line :: typed =>
    let name := readLine maxUsername line
    if name = [] ∨ name = rootName ∨ (acc.userFind name).isSome then
      askLogin acc typed
    else
      some (name, typed)

def askPassword : List CStr → Option (Bytes × List CStr)
  | [] => none
  | line :: typed =>
    let pass := readLine maxPassword line
    if pass = [] then
      askPassword typed
    else
      match typed with
      | [] => none
      | line :: typed =>
        if pass = readLine maxPassword line then some (pass, typed) else askPassword typed

/--
The loop that creates accounts. Every turn of it reads a line, `fuel` is the number of lines.
-/
def askUsers (acc : Accounts) (ops : List HomeOp) : Nat → List CStr → Option (Accounts × List HomeOp × List CStr)
  | 0, _ => none
  | _ + 1, [] => none
  | fuel + 1, line :: typed =>
    let ans := readLine 8 line
    if ans.head? = some 110 ∨ ans.head? = some 78 ∨ ans = [] then
      some (acc, ops, typed)
    else if ans.head? ≠ some 121 ∧ ans.head? ≠ some 89 then
      askUsers acc ops fuel typed
    else
      match askLogin acc typed with
      | none => none
      | some (name, typed) =>
        match askPassword typed with
        | none => none
        | some (pass, typed) =>
          let (_, acc, home) := userAdd acc name pass
          askUsers acc (ops ++ home) fuel typed

def setupWizard (acc : Accounts) (typed : List CStr) : CmdResult :=
  match askRootPassword acc typed with
  | none => none
  | some (acc, typed) =>
    match askUsers acc [] typed.length typed with
    | none => none
    | some (_, _, []) => none
    | some (acc, ops, line :: _) =>
      some ({ acc with hostname := readLine maxHostname line, isSetup := true }, ops)

/--
What a boot asks for when the table has no password for root.
-/
def promptRootPassword (acc : Accounts) (typed : List CStr) : CmdResult :=
  if (acc.user 0).password ≠ [] then
    some (acc, [])
  else
    (askRootPassword acc typed).map (fun r => (r.1, []))

end Wizard

end TanjaOS
