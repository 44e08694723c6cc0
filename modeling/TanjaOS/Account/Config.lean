import TanjaOS.Account.Impl

/-!
The account table as it is saved next to the filesystem, and how it is loaded.
-/

open Lib

namespace TanjaOS

def cfgVersion : Byte := 2

def configStoreSize : Nat :=
  99 + maxUsers * (maxUsername + maxPassword + 4)
    + 1 + maxGroups * (maxUsername + 1 + maxGmem * maxUsername)

/--
A `char` array of `n` bytes with a text in it.
-/
def textField (n : Nat) (text : Bytes) : Bytes :=
  (text ++ List.replicate n 0).take n

/--
The text in a `char` array.
-/
def fieldText (field : Bytes) : Bytes :=
  field.takeWhile (· ≠ 0)

def userRecord (u : User) : Bytes :=
  textField maxUsername u.username ++ textField maxPassword u.password ++ le32 u.uid.toUInt32.toNat

def groupRecord (g : Group) : Bytes :=
  textField maxUsername g.name ++ [UInt8.ofNat g.members.length]
    ++ (g.members.take maxGmem).flatMap (textField maxUsername)

/--
The bytes that `config_serialize` writes, with zeros behind the NUL of each text. The code copies the
array as it is, with the end of a longer text that stood there before.
-/
def configImage (acc : Accounts) : Bytes :=
  [cfgVersion] ++ textField maxHostname acc.hostname ++ [if acc.isSetup then 1 else 0]
    ++ textField maxPassword (acc.user 0).password
    ++ [UInt8.ofNat acc.users.length] ++ (acc.users.take maxUsers).flatMap userRecord
    ++ [UInt8.ofNat acc.groups.length] ++ (acc.groups.take maxGroups).flatMap groupRecord

/--
The bytes of `buf` behind the image stay.
-/
def configSerialize (acc : Accounts) (buf : Bytes) : Int × Bytes :=
  if buf.length < configStoreSize then
    (-1, buf)
  else
    (0, configImage acc ++ buf.drop (configImage acc).length)

/--
`n` user records, the first of them is number `i`.
-/
def loadUsers (i : Nat) : Nat → Bytes → List User × Int32 → (List User × Int32) × Bytes
  | 0, buf, loaded => (loaded, buf)
  | n + 1, buf, (users, nextUid) =>
    let username := fieldText (buf.take maxUsername)
    let password := fieldText ((buf.drop maxUsername).take maxPassword)
    let uid := (UInt32.ofNat (ofLe32 (buf.drop (maxUsername + maxPassword)))).toInt32
    let uid := if uid ≤ 0 then 1000 + Int32.ofNat i else uid
    let nextUid := if nextUid ≤ uid then uid + 1 else nextUid
    let users :=
      if username ≠ [] ∧ username ≠ rootName then users ++ [⟨username, password, uid⟩] else users
    loadUsers (i + 1) n (buf.drop (maxUsername + maxPassword + 4)) (users, nextUid)

/--
`n` members. Those that are no users are dropped.
-/
def loadMembers (acc : Accounts) : Nat → Bytes → Group → Group
  | 0, _, g => g
  | n + 1, buf, g =>
    let mname := fieldText (buf.take maxUsername)
    loadMembers acc n (buf.drop maxUsername)
      (if (acc.userFind mname).isSome then groupMemberAdd g mname else g)

/--
`n` groups. Those without a name and those whose name is taken are skipped.
-/
def loadGroups (acc : Accounts) : Nat → Bytes → Accounts
  | 0, _ => acc
  | n + 1, buf =>
    let gname := fieldText (buf.take maxUsername)
    let mc := (buf.getD maxUsername 0).toNat
    let mc := if maxGmem < mc then 0 else mc
    let buf := buf.drop (maxUsername + 1)
    if gname ≠ [] ∧ acc.groups.length < maxGroups ∧ acc.groupFind gname = none then
      loadGroups { acc with groups := acc.groups ++ [loadMembers acc mc buf ⟨gname, []⟩] } n
        (buf.drop (mc * maxUsername))
    else
      loadGroups acc n (buf.drop (mc * maxUsername))

def loadV2 (acc : Accounts) (buf : Bytes) : Accounts :=
  let buf := buf.drop 1
  let hostname := fieldText (buf.take maxHostname)
  let buf := buf.drop maxHostname
  let isSetup := buf.getD 0 0 ≠ 0
  let buf := buf.drop 1
  let password := fieldText (buf.take maxPassword)
  let buf := buf.drop maxPassword
  let cnt := (buf.getD 0 0).toNat
  let cnt := if cnt < 1 ∨ maxUsers < cnt then 1 else cnt
  -- record 0 is root, whose password has just been read
  let buf := buf.drop (1 + (maxUsername + maxPassword + 4))
  let root := { acc.user 0 with password := password }
  let ((users, nextUid), buf) := loadUsers 1 (cnt - 1) buf ([root], acc.nextUid)
  let acc := { acc with hostname := hostname, isSetup := isSetup, users := users, nextUid := nextUid }
  let gc := (buf.getD 0 0).toNat
  let gc := if maxGroups < gc then 0 else gc
  loadGroups acc gc (buf.drop 1)

/--
A blob from before there were several users: its user becomes uid 1000.
-/
def loadV1 (acc : Accounts) (buf : Bytes) : Accounts :=
  let name := fieldText (buf.take maxUsername)
  let buf := buf.drop maxUsername
  let pass := fieldText (buf.take maxPassword)
  let buf := buf.drop maxPassword
  let acc :=
    { acc with
      hostname := fieldText (buf.take maxHostname)
      isSetup := buf.getD maxHostname 0 ≠ 0 }
  if name ≠ [] ∧ name ≠ rootName then
    { acc with users := acc.users ++ [⟨name, pass, 1000⟩], nextUid := 1001 }
  else
    acc

def configDeserialize (acc : Accounts) (buf : Bytes) : Int × Accounts :=
  if buf.length < 2 then
    (-1, acc)
  else
    let acc := usersResetTable acc
    if buf.getD 0 0 = cfgVersion then
      if buf.length < configStoreSize then (-1, acc) else (0, loadV2 acc buf)
    else if buf.length < maxUsername + maxPassword + maxHostname + 1 then
      (-1, acc)
    else
      (0, loadV1 acc buf)

end TanjaOS
