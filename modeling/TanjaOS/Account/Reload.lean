import TanjaOS.Account.Run

/-!
What a boot makes of the table that has been saved: root is written anew, the other users get a uid
if they have none, and the groups are checked against the users.
-/

open Lib

namespace TanjaOS

/--
What holds of every table, whatever the commands are given.
-/
structure Accounts.Wf (acc : Accounts) : Prop where
  hostname : TextOk maxHostname acc.hostname
  users_pos : 0 < acc.users.length
  users_le : acc.users.length ≤ maxUsers
  username : ∀ u ∈ acc.users, TextOk maxUsername u.username ∧ u.username ≠ []
  password : ∀ u ∈ acc.users, TextOk maxPassword u.password
  root_first : ∀ u ∈ acc.users.tail, u.username ≠ rootName
  groups_le : acc.groups.length ≤ maxGroups
  group : ∀ g ∈ acc.groups, TextOk maxUsername g.name ∧ g.name ≠ []
  members_le : ∀ g ∈ acc.groups, g.members.length ≤ maxGmem
  member : ∀ g ∈ acc.groups, ∀ m ∈ g.members, TextOk maxUsername m

section Fields

variable {n : Nat} {text : Bytes}

theorem length_textField : (textField n text).length = n := by
  simp [textField]

theorem take_textField (rest : Bytes) : (textField n text ++ rest).take n = textField n text :=
  List.take_left' length_textField

theorem drop_textField (rest : Bytes) : (textField n text ++ rest).drop n = rest :=
  List.drop_left' length_textField

theorem fieldText_textField (h : TextOk n text) : fieldText (textField n text) = text := by
  have hlen := h.length_lt
  have hfield : textField n text = text ++ 0 :: List.replicate (n - text.length - 1) 0 := by
    unfold textField
    rw [List.take_append, List.take_of_length_le (by omega), List.take_replicate, ← List.replicate_succ]
    congr 2
    omega
  unfold fieldText
  rw [hfield, List.takeWhile_append_of_pos]
  . simp
  . intro b hb
    have : b ≠ 0 := fun heq => h.no_nul (heq ▸ hb)
    simpa using this

theorem toNat_count {n : Nat} (h : n ≤ maxGmem) : (UInt8.ofNat n).toNat = n := by
  unfold maxGmem at h
  apply UInt8.toNat_ofNat_of_lt'
  unfold UInt8.size
  omega

end Fields

section Users

/--
The users from record `i` on, with uids for those that have none.
-/
def repairUids (i : Nat) : List User → List User
  | [] => []
  | u :: us => { u with uid := if u.uid ≤ 0 then 1000 + Int32.ofNat i else u.uid } :: repairUids (i + 1) us

/--
The next uid after those of `us` have been seen.
-/
def nextUidAfter (nextUid : Int32) (us : List User) : Int32 :=
  us.foldl (fun n u => if n ≤ u.uid then u.uid + 1 else n) nextUid

theorem length_userRecord (u : User) : (userRecord u).length = maxUsername + maxPassword + 4 := by
  simp [userRecord, length_textField, length_le32, Nat.add_assoc]

theorem loadUsers_records {us : List User} (hname : ∀ u ∈ us, TextOk maxUsername u.username ∧ u.username ≠ [])
    (hroot : ∀ u ∈ us, u.username ≠ rootName) (hpass : ∀ u ∈ us, TextOk maxPassword u.password)
    (i : Nat) (rest : Bytes) (users : List User) (nextUid : Int32)
    : loadUsers i us.length (us.flatMap userRecord ++ rest) (users, nextUid)
        = ((users ++ repairUids i us, nextUidAfter nextUid (repairUids i us)), rest) := by
  induction us generalizing i users nextUid with
  | nil => simp [loadUsers, repairUids, nextUidAfter]
  | cons u us ih =>
    have hu := hname u (by simp)
    have hp := hpass u (by simp)
    have hr := hroot u (by simp)
    have hbuf : (u :: us).flatMap userRecord ++ rest
        = textField maxUsername u.username ++ (textField maxPassword u.password
          ++ (le32 u.uid.toUInt32.toNat ++ (us.flatMap userRecord ++ rest))) := by
      simp [userRecord]
    have huid : (UInt32.ofNat (ofLe32 (le32 u.uid.toUInt32.toNat
        ++ (us.flatMap userRecord ++ rest)))).toInt32 = u.uid := by
      rw [ofLe32_le32 _ _ u.uid.toUInt32.toNat_lt]
      simp
    have hdrop : ∀ xs : Bytes, (textField maxUsername u.username
        ++ (textField maxPassword u.password ++ xs)).drop (maxUsername + maxPassword) = xs := by
      intro xs
      rw [← List.drop_drop, drop_textField, drop_textField]
    rw [hbuf, List.length_cons, loadUsers]
    rw [take_textField, fieldText_textField hu.1, drop_textField, take_textField, fieldText_textField hp,
      hdrop, huid, if_pos ⟨hu.2, hr⟩, ← List.drop_drop, hdrop, List.drop_left' (length_le32 _)]
    rw [ih (fun u h => hname u (by simp [h])) (fun u h => hroot u (by simp [h]))
      (fun u h => hpass u (by simp [h]))]
    simp [repairUids, nextUidAfter]

end Users

section Groups

def loadMember (acc : Accounts) (g : Group) (m : Bytes) : Group :=
  if (acc.userFind m).isSome then groupMemberAdd g m else g

def loadGroup (acc : Accounts) (g : Group) : Accounts :=
  if acc.groups.length < maxGroups ∧ acc.groupFind g.name = none then
    { acc with groups := acc.groups ++ [g.members.foldl (loadMember acc) ⟨g.name, []⟩] }
  else
    acc

theorem loadMembers_records {acc : Accounts} {ms : List Bytes} (hms : ∀ m ∈ ms, TextOk maxUsername m)
    (rest : Bytes) (g : Group)
    : loadMembers acc ms.length (ms.flatMap (textField maxUsername) ++ rest) g
        = ms.foldl (loadMember acc) g := by
  induction ms generalizing g with
  | nil => rfl
  | cons m ms ih =>
    rw [List.flatMap_cons, List.append_assoc, List.length_cons, loadMembers, take_textField,
      fieldText_textField (hms m (by simp)), drop_textField, ih (fun m h => hms m (by simp [h]))]
    rfl

theorem loadGroups_records {acc : Accounts} {gs : List Group}
    (hname : ∀ g ∈ gs, TextOk maxUsername g.name ∧ g.name ≠ [])
    (hle : ∀ g ∈ gs, g.members.length ≤ maxGmem)
    (hmember : ∀ g ∈ gs, ∀ m ∈ g.members, TextOk maxUsername m) (rest : Bytes)
    : loadGroups acc gs.length (gs.flatMap groupRecord ++ rest) = gs.foldl loadGroup acc := by
  induction gs generalizing acc with
  | nil => rfl
  | cons g gs ih =>
    have hn := hname g (by simp)
    have hl := hle g (by simp)
    have hm := hmember g (by simp)
    have ih := fun acc => @ih acc (fun g h => hname g (by simp [h]))
      (fun g h => hle g (by simp [h])) (fun g h => hmember g (by simp [h]))
    have hbuf : (g :: gs).flatMap groupRecord ++ rest
        = textField maxUsername g.name ++ (UInt8.ofNat g.members.length ::
          (g.members.flatMap (textField maxUsername) ++ (gs.flatMap groupRecord ++ rest))) := by
      simp [groupRecord, List.take_of_length_le hl]
    have hcount := toNat_count hl
    have hlen : (g.members.flatMap (textField maxUsername)).length = g.members.length * maxUsername := by
      simp [List.length_flatMap, length_textField]
    rw [hbuf, List.length_cons, loadGroups]
    rw [take_textField, fieldText_textField hn.1, ← List.drop_drop, drop_textField, List.drop_one,
      List.tail_cons, List.getD_append_right _ _ _ _ (by rw [length_textField]), length_textField,
      Nat.sub_self, List.getD_cons_zero, hcount, if_neg (Nat.not_lt.mpr hl), loadMembers_records hm,
      List.drop_left' hlen, List.foldl_cons]
    rw [ih, ih]
    split
    . next h => rw [loadGroup, if_pos ⟨h.2.1, h.2.2⟩]
    . next h => rw [loadGroup, if_neg (fun h' => h ⟨hn.2, h'.1, h'.2⟩)]

end Groups

def usersLoaded (acc : Accounts) : Accounts where
  hostname := acc.hostname
  isSetup := acc.isSetup
  users := ⟨rootName, (acc.user 0).password, 0⟩ :: repairUids 1 acc.users.tail
  groups := []
  nextUid := nextUidAfter 1000 (repairUids 1 acc.users.tail)

theorem loadV2_image {acc : Accounts} (h : acc.Wf) (before : Accounts) (rest : Bytes)
    : loadV2 (usersResetTable before) (configImage acc ++ rest)
        = acc.groups.foldl loadGroup (usersLoaded acc) := by
  obtain ⟨root, tail, husers⟩ := List.exists_cons_of_length_pos h.users_pos
  have hle := h.users_le
  have hcount := toNat_count (n := acc.users.length) (by unfold maxGmem maxUsers at *; omega)
  have hgcount := toNat_count (n := acc.groups.length) (by
    have := h.groups_le
    unfold maxGmem maxGroups at *
    omega)
  have hbuf : configImage acc ++ rest = cfgVersion :: (textField maxHostname acc.hostname
      ++ ((if acc.isSetup then 1 else 0) :: (textField maxPassword (acc.user 0).password
      ++ (UInt8.ofNat acc.users.length :: (userRecord root ++ (tail.flatMap userRecord
      ++ (UInt8.ofNat acc.groups.length :: (acc.groups.flatMap groupRecord ++ rest)))))))) := by
    unfold configImage
    rw [List.take_of_length_le hle, List.take_of_length_le h.groups_le]
    simp [husers]
  have hroot : acc.user 0 = root := by
    simp [Accounts.user, husers]
  have hmem : ∀ u ∈ tail, u ∈ acc.users := by
    intro u hu
    simp [husers, hu]
  have htail : acc.users.tail = tail := by
    simp [husers]
  have hlen : acc.users.length = tail.length + 1 := by
    simp [husers]
  have hcnt : (if acc.users.length < 1 ∨ maxUsers < acc.users.length then 1 else acc.users.length)
      = tail.length + 1 := by
    rw [if_neg (by omega), hlen]
  unfold loadV2
  rw [hbuf]
  simp only [List.drop_one, List.tail_cons, take_textField, drop_textField,
    fieldText_textField h.hostname, List.getD_cons_zero, hcount, hcnt,
    fieldText_textField (h.password _ (Accounts.user_mem h.users_pos)), Nat.add_sub_cancel]
  rw [← List.drop_drop, List.drop_one, List.tail_cons, List.drop_left' (length_userRecord root),
    loadUsers_records (fun u hu => h.username u (hmem u hu)) (fun u hu => h.root_first u (htail ▸ hu))
      (fun u hu => h.password u (hmem u hu))]
  simp only [List.tail_cons, List.getD_cons_zero, hgcount]
  rw [if_neg (Nat.not_lt.mpr h.groups_le), loadGroups_records h.group h.members_le h.member]
  congr 1
  unfold usersLoaded
  rw [htail]
  cases acc.isSetup with
  | true => rfl
  | false => rfl

theorem length_flatMap_le {α : Type} {f : α → Bytes} {k : Nat} (xs : List α)
    (h : ∀ x ∈ xs, (f x).length ≤ k)
    : (xs.flatMap f).length ≤ xs.length * k := by
  induction xs with
  | nil => simp
  | cons x xs ih =>
    have hx := h x (by simp)
    have ih := ih (fun x hx => h x (by simp [hx]))
    rw [List.flatMap_cons, List.length_append, List.length_cons, Nat.add_mul]
    omega

theorem length_configImage_le (acc : Accounts) : (configImage acc).length ≤ configStoreSize := by
  have husers := length_flatMap_le (acc.users.take maxUsers) (fun u _ => (length_userRecord u).le)
  have hgroup : ∀ g, (groupRecord g).length ≤ maxUsername + 1 + maxGmem * maxUsername := by
    intro g
    have hmembers := length_flatMap_le (g.members.take maxGmem)
      (fun m _ => (@length_textField maxUsername m).le)
    have hcount := Nat.mul_le_mul_right maxUsername (List.length_take_le maxGmem g.members)
    rw [groupRecord, List.length_append, List.length_append, length_textField, List.length_singleton]
    omega
  have hgroups := length_flatMap_le (acc.groups.take maxGroups) (fun g _ => hgroup g)
  have hcount := Nat.mul_le_mul_right (maxUsername + maxPassword + 4) (List.length_take_le maxUsers acc.users)
  have hgcount := Nat.mul_le_mul_right (maxUsername + 1 + maxGmem * maxUsername)
    (List.length_take_le maxGroups acc.groups)
  simp only [configImage, List.length_append, length_textField, List.length_singleton]
  unfold configStoreSize maxHostname maxPassword at *
  omega

theorem configDeserialize_saved {acc : Accounts} (h : acc.Wf) (before : Accounts) {buf : Bytes}
    (hbuf : configStoreSize ≤ buf.length)
    : configDeserialize before (configSerialize acc buf).2
        = (0, acc.groups.foldl loadGroup (usersLoaded acc)) := by
  have hle := length_configImage_le acc
  have hlen : (configImage acc ++ buf.drop (configImage acc).length).length = buf.length := by
    rw [List.length_append, List.length_drop]
    omega
  have hpos : 2 ≤ configStoreSize := by
    decide
  have hversion : (configImage acc ++ buf.drop (configImage acc).length).getD 0 0 = cfgVersion := by
    rfl
  unfold configSerialize
  rw [if_neg (by omega), configDeserialize, if_neg (by dsimp only; omega)]
  dsimp only
  rw [if_pos hversion, if_neg (by omega), loadV2_image h]

theorem reloadAccounts_eq {acc : Accounts} (h : acc.Wf) {buf : Bytes}
    (hbuf : buf.length = configStoreSize)
    : reloadAccounts acc buf = acc.groups.foldl loadGroup (usersLoaded acc) := by
  rw [reloadAccounts, configDeserialize_saved h _ hbuf.ge]

end TanjaOS
