import TanjaOS.Account.Identity

/-!
Groups hold names, so each change to a name has to be made in the groups too. With that, and with
root where it belongs, a table comes back from the disk as it was.
-/

open Lib

namespace TanjaOS

variable {g : Guard} {acc acc' : Accounts}

section Consistency

structure GroupsOk (acc : Accounts) : Prop where
  count_le : acc.groups.length ≤ maxGroups
  named : ∀ gr ∈ acc.groups, gr.name ≠ []
  names : (acc.groups.map Group.name).Nodup
  members_le : ∀ gr ∈ acc.groups, gr.members.length ≤ maxGmem
  members : ∀ gr ∈ acc.groups, gr.members.Nodup
  accounts : ∀ gr ∈ acc.groups, ∀ m ∈ gr.members, m ∈ acc.usernames

structure MembersOk (usernames : List Bytes) (gr : Group) : Prop where
  nodup : gr.members.Nodup
  accounts : ∀ m ∈ gr.members, m ∈ usernames

/--
What `GroupsOk` adds to the shape of the table.
-/
structure GroupInv (acc : Accounts) : Prop where
  names : (acc.groups.map Group.name).Nodup
  members : ∀ gr ∈ acc.groups, MembersOk acc.usernames gr

theorem GroupInv.groupsOk (hwf : acc.Wf) (h : GroupInv acc) : GroupsOk acc where
  count_le := hwf.groups_le
  named := fun gr hgr => (hwf.group gr hgr).2
  names := h.names
  members_le := hwf.members_le
  members := fun gr hgr => (h.members gr hgr).nodup
  accounts := fun gr hgr => (h.members gr hgr).accounts

/--
The first 31 bytes of a new group's name are not the name of another group. The first 31 bytes of an
account's new name are not the name of another member of a group that it is in.
-/
structure Guard.GroupsOk (g : Guard) : Prop where
  rename : ∀ acc idx newname, g.rename acc idx newname → ∀ gr ∈ acc.groups,
    (acc.user idx).username ∈ gr.members →
      newname.take (maxUsername - 1) ∉ gr.members.erase (acc.user idx).username
  addGroup : ∀ acc name, g.addGroup acc name →
    name.take (maxUsername - 1) ∉ acc.groups.map Group.name

def groupsGuard : Guard where
  addUser := fun _ _ => True
  rename := fun acc idx newname => ∀ gr ∈ acc.groups, (acc.user idx).username ∈ gr.members →
    newname.take (maxUsername - 1) ∉ gr.members.erase (acc.user idx).username
  giveUid := fun _ _ => True
  takeUid := fun _ => True
  addGroup := fun acc name => name.take (maxUsername - 1) ∉ acc.groups.map Group.name
  modifyRoot := True
  short := fun _ _ _ _ => trivial

namespace MembersOk

variable {usernames usernames' : List Bytes} {gr : Group} {name : Bytes}

theorem mono (h : MembersOk usernames gr) (hsub : ∀ m ∈ gr.members, m ∈ usernames → m ∈ usernames')
    : MembersOk usernames' gr :=
  ⟨h.nodup, fun m hm => hsub m hm (h.accounts m hm)⟩

theorem remove (h : MembersOk usernames gr) (name : Bytes)
    : MembersOk usernames (groupMemberRemove gr name) :=
  ⟨h.nodup.erase name, fun m hm => h.accounts m (List.mem_of_mem_erase hm)⟩

theorem not_mem_remove (h : MembersOk usernames gr) : name ∉ (groupMemberRemove gr name).members :=
  h.nodup.not_mem_erase

theorem add (h : MembersOk usernames gr) (hname : name.take (maxUsername - 1) ∈ usernames)
    (hfree : name.take (maxUsername - 1) ∉ gr.members ∨ name.take (maxUsername - 1) = name)
    : MembersOk usernames (groupMemberAdd gr name) := by
  unfold groupMemberAdd
  split
  . exact h
  . next hmem =>
    unfold groupHasMember at hmem
    rw [decide_eq_true_eq] at hmem
    split
    . exact h
    . refine ⟨?_, ?_⟩
      . apply nodup_concat h.nodup
        cases hfree with
        | inl hfree => exact hfree
        | inr hcut =>
          rw [hcut]
          exact hmem
      . intro m hm
        rw [List.mem_append, List.mem_singleton] at hm
        cases hm with
        | inl hm => exact h.accounts m hm
        | inr hm => exact hm ▸ hname

end MembersOk

theorem groupMemberAdd_name (gr : Group) (name : Bytes) : (groupMemberAdd gr name).name = gr.name := by
  unfold groupMemberAdd
  split
  . rfl
  . split
    . rfl
    . rfl

theorem GroupInv.map (h : GroupInv acc) (usernames : List Bytes) (f : Group → Group)
    (hname : ∀ gr, (f gr).name = gr.name)
    (hf : ∀ gr ∈ acc.groups, MembersOk acc.usernames gr → MembersOk usernames (f gr))
    : ((acc.groups.map f).map Group.name).Nodup ∧ ∀ gr ∈ acc.groups.map f, MembersOk usernames gr := by
  refine ⟨?_, ?_⟩
  . rw [List.map_map]
    simpa only [Function.comp_def, hname] using h.names
  . intro gr hgr
    rw [List.mem_map] at hgr
    obtain ⟨gr', hgr', rfl⟩ := hgr
    exact hf gr' hgr' (h.members gr' hgr')

theorem GroupInv.same_groups (h : GroupInv acc) (hgroups : acc'.groups = acc.groups)
    (hnames : ∀ m ∈ acc.usernames, m ∈ acc'.usernames)
    : GroupInv acc' := by
  refine ⟨hgroups ▸ h.names, ?_⟩
  intro gr hgr
  rw [hgroups] at hgr
  exact (h.members gr hgr).mono (fun m _ hm => hnames m hm)

theorem renamed_members {idx : Nat} {name newname : Bytes} (hfind : acc.userFind name = some idx)
    {gr : Group}
    (hguard : name ∈ gr.members → newname.take (maxUsername - 1) ∉ gr.members.erase name)
    (h : MembersOk acc.usernames gr)
    : MembersOk (acc.usernames.set idx (newname.take (maxUsername - 1)))
        (if groupHasMember gr name then groupMemberAdd (groupMemberRemove gr name) newname else gr) := by
  obtain ⟨hidx, husername, _⟩ := Accounts.userFind_eq_some hfind
  have hlen : idx < acc.usernames.length := by
    simpa [Accounts.usernames] using hidx
  have hset : ∀ m ∈ acc.usernames, m ≠ name → m ∈ acc.usernames.set idx (newname.take (maxUsername - 1)) := by
    intro m hm hne
    apply mem_set_of_ne hm
    intro _ heq
    rw [← heq] at hne
    simp [Accounts.usernames, husername] at hne
  split
  . next hmem =>
    unfold groupHasMember at hmem
    rw [decide_eq_true_eq] at hmem
    have hremoved : MembersOk (acc.usernames.set idx (newname.take (maxUsername - 1)))
        (groupMemberRemove gr name) := by
      apply (h.remove name).mono
      intro m hm hacc
      apply hset m hacc
      intro heq
      exact h.not_mem_remove (heq ▸ hm)
    exact hremoved.add (List.mem_set hlen _) (Or.inl (hguard hmem))
  . next hmem =>
    unfold groupHasMember at hmem
    rw [decide_eq_true_eq] at hmem
    apply h.mono
    intro m hm hacc
    exact hset m hacc (fun heq => hmem (heq ▸ hm))

theorem GroupInv.change (hg : g.GroupsOk) (hwf : acc.Wf) (h : Change g acc acc') (hinv : GroupInv acc)
    : GroupInv acc' := by
  cases h with
  | addUser name password uid hname hroot hpassword hfind hroom =>
    rw [userAddFull_eq hname.ne_nil hfind hroom]
    apply hinv.same_groups
    . rfl
    . intro m hm
      unfold Accounts.usernames
      rw [List.map_append, List.mem_append]
      exact Or.inl hm
  | delUser name idx hfind =>
    obtain ⟨hidx, husername, _⟩ := Accounts.userFind_eq_some hfind
    have hmap := hinv.map (acc.usernames.eraseIdx (idx + 1)) (groupMemberRemove · name)
      (fun _ => rfl) (by
        intro gr _ hgr
        apply (hgr.remove name).mono
        intro m hm hacc
        apply mem_eraseIdx_of_ne hacc
        intro _ heq
        apply hgr.not_mem_remove
        rw [← heq] at hm
        simpa [Accounts.usernames, husername] using hm)
    refine ⟨hmap.1, ?_⟩
    unfold Accounts.usernames at hmap ⊢
    rw [List.eraseIdx_map] at hmap
    exact hmap.2
  | rename idx name newname hfind hname hroot hfree hrename hmodify =>
    obtain ⟨hidx, husername, _⟩ := Accounts.userFind_eq_some hfind
    have huser : (acc.user idx).username = name := by
      rw [Accounts.user_eq hidx, husername]
    have hmap := hinv.map (acc.usernames.set idx (newname.take (maxUsername - 1)))
      (fun gr =>
        if groupHasMember gr name then groupMemberAdd (groupMemberRemove gr name) newname else gr)
      (by
        intro gr
        split
        . exact groupMemberAdd_name _ _
        . rfl)
      (fun gr hgr => renamed_members hfind
        (huser ▸ hg.rename acc idx newname hrename gr hgr))
    refine ⟨hmap.1, ?_⟩
    have hnames : (renameUser acc idx name newname).usernames
        = acc.usernames.set idx (newname.take (maxUsername - 1)) := map_modify_const (fun _ => rfl)
    rw [hnames]
    exact hmap.2
  | password idx f hf =>
    have hnames : (acc.modifyUser idx (fun u => { u with password := f u.password })).usernames
        = acc.usernames := map_modify_same (fun _ => rfl)
    apply hinv.same_groups
    . rfl
    . intro m hm
      rwa [hnames]
  | uid idx uid =>
    have hnames : (setUid acc idx uid).1.usernames = acc.usernames := map_modify_same (fun _ => rfl)
    apply hinv.same_groups
    . rfl
    . intro m hm
      rwa [hnames]
  | leave name =>
    have hmap := hinv.map _ (groupMemberRemove · name) (fun _ => rfl) (fun _ _ hgr => hgr.remove name)
    exact ⟨hmap.1, hmap.2⟩
  | join gi name hname =>
    obtain ⟨u, hu, rfl⟩ := List.mem_map.mp hname
    have hcut := (hwf.username u hu).1.take_eq
    refine ⟨?_, ?_⟩
    . have hnames : (acc.groups.modify gi (groupMemberAdd · u.username)).map Group.name
          = acc.groups.map Group.name := map_modify_same (fun gr => groupMemberAdd_name gr u.username)
      rw [hnames]
      exact hinv.names
    . intro gr hgr
      cases mem_modify hgr with
      | inl hgr => exact hinv.members gr hgr
      | inr hgr =>
        obtain ⟨gr', hgr', rfl⟩ := hgr
        exact (hinv.members gr' hgr').add (hcut.symm ▸ hname) (Or.inr hcut)
  | addGroup name hname hfree hroom hadd =>
    refine ⟨?_, ?_⟩
    . rw [List.map_append]
      exact nodup_concat hinv.names (hg.addGroup acc name hadd)
    . intro gr hgr
      rw [List.mem_append, List.mem_singleton] at hgr
      cases hgr with
      | inl hgr => exact hinv.members gr hgr
      | inr hgr =>
        rw [hgr]
        exact ⟨by simp, by simp⟩
  | delGroup gi =>
    refine ⟨?_, ?_⟩
    . rw [← List.eraseIdx_map]
      exact hinv.names.sublist (List.eraseIdx_sublist _ _)
    . exact fun gr hgr => hinv.members gr (List.mem_of_mem_eraseIdx hgr)
  | config hostname isSetup hhost => exact ⟨hinv.names, hinv.members⟩

theorem GroupInv.loadGroup {gr : Group} (hgr : gr.Wf) (hinv : GroupInv acc)
    : GroupInv (loadGroup acc gr) := by
  unfold TanjaOS.loadGroup
  split
  . next hroom =>
    have hname : (gr.members.foldl (loadMember acc) ⟨gr.name, []⟩).name = gr.name := by
      apply loadMember_keeps (I := fun gr' => gr'.name = gr.name)
      . intro gr' m _ heq
        unfold loadMember
        split
        . rw [groupMemberAdd_name, heq]
        . exact heq
      . rfl
    refine ⟨?_, ?_⟩
    . rw [List.map_append, List.map_singleton, hname]
      exact nodup_concat hinv.names ((Accounts.groupFind_eq_none hgr.name.2).mp hroom.2)
    . intro gr' hgr'
      rw [List.mem_append, List.mem_singleton] at hgr'
      cases hgr' with
      | inl hgr' => exact hinv.members gr' hgr'
      | inr hgr' =>
        rw [hgr']
        apply loadMember_keeps (I := MembersOk acc.usernames)
        . intro gr₁ m hm hgr₁
          unfold loadMember
          split
          . next hfind =>
            have hne : m ≠ [] := by
              obtain ⟨idx, hidx⟩ := Option.isSome_iff_exists.mp hfind
              obtain ⟨_, _, hne⟩ := Accounts.userFind_eq_some hidx
              exact hne
            have hcut := (hgr.member m hm).take_eq
            rw [Accounts.userFind_isSome hne] at hfind
            exact hgr₁.add (hcut.symm ▸ hfind) (Or.inr hcut)
          . exact hgr₁
        . exact ⟨by simp, by simp⟩
  . exact hinv

theorem GroupInv.reload (hwf : acc.Wf) {buf : Bytes} (hbuf : buf.length = configStoreSize)
    : GroupInv (reloadAccounts acc buf) := by
  have hload : (acc.groups.foldl TanjaOS.loadGroup (usersLoaded acc)).Wf
      ∧ GroupInv (acc.groups.foldl TanjaOS.loadGroup (usersLoaded acc)) := by
    apply loadGroup_keeps (I := fun acc => acc.Wf ∧ GroupInv acc)
    . intro acc' gr hgr hinv
      have hgr := hwf.group_wf gr hgr
      exact ⟨loadGroup_wf hinv.1 hgr, hinv.2.loadGroup hgr⟩
    . exact ⟨usersLoaded_wf hwf, by simp [usersLoaded], by simp [usersLoaded]⟩
  rw [reloadAccounts_eq hwf hbuf]
  exact hload.2

theorem groupsGuard_ok : groupsGuard.GroupsOk :=
  ⟨fun _ _ _ h => h, fun _ _ h => h⟩

theorem groups_consistent (h : AccountRun (AccountCall.Meets groupsGuard) bootAccounts acc)
    : GroupsOk acc := by
  have hinv : acc.Wf ∧ GroupInv acc := by
    apply h.keeps (I := fun acc => acc.Wf ∧ GroupInv acc)
    . intro acc acc' hchange hinv
      exact ⟨hchange.wf hinv.1, hinv.2.change groupsGuard_ok hinv.1 hchange⟩
    . intro acc buf hbuf hinv
      exact ⟨reloadAccounts_wf hinv.1 hbuf, GroupInv.reload hinv.1 hbuf⟩
    . exact ⟨bootAccounts_wf, by simp [bootAccounts], by simp [bootAccounts]⟩
  exact hinv.2.groupsOk hinv.1

/--
`groupadd` with a name of 32 letters, the last of which is cut off.
-/
def groupaddLong (last : Byte) (h : last ≠ 0) : AccountCall :=
  ⟨rootSession, .groupadd (typed (List.replicate 31 97 ++ [last]) (by simpa using h.symm))⟩

def groupLong : Accounts :=
  { bootAccounts with groups := [⟨List.replicate 31 97, []⟩] }

theorem groupaddLong_step : (groupaddLong 97 (by decide)).Step bootAccounts groupLong := by
  decide +kernel

theorem groups_consistent_groupadd : GroupsOk groupLong := by
  apply groups_consistent
  refine .single ⟨groupaddLong 97 (by decide), ?_, groupaddLong_step⟩
  intro _ name _ _ _
  show name.take (maxUsername - 1) ∉ []
  simp

/--
The second name differs from the first one only in the byte that is cut off.
-/
theorem group_added_twice
    : ¬∀ acc, AccountRun (fun _ _ => True) bootAccounts acc → GroupsOk acc := by
  intro h
  have hstep : (groupaddLong 98 (by decide)).Step groupLong
      { bootAccounts with groups := [⟨List.replicate 31 97, []⟩, ⟨List.replicate 31 97, []⟩] } := by
    decide +kernel
  have hrun : AccountRun (fun _ _ => True) bootAccounts groupLong :=
    .single ⟨_, trivial, groupaddLong_step⟩
  have hnames := (h _ (hrun.call hstep trivial)).names
  exact absurd hnames (by decide)

end Consistency

section RoundTrip

structure RoundTrip (acc : Accounts) : Prop where
  saved : ∀ buf : Bytes, configStoreSize ≤ buf.length → (configSerialize acc buf).1 = 0
  loaded : ∀ before : Accounts, ∀ buf : Bytes, configStoreSize ≤ buf.length →
    (configDeserialize before (configSerialize acc buf).2).1 = 0
  hostname : ∀ before : Accounts, ∀ buf : Bytes, configStoreSize ≤ buf.length →
    (configDeserialize before (configSerialize acc buf).2).2.hostname = acc.hostname
  isSetup : ∀ before : Accounts, ∀ buf : Bytes, configStoreSize ≤ buf.length →
    (configDeserialize before (configSerialize acc buf).2).2.isSetup = acc.isSetup
  users : ∀ before : Accounts, ∀ buf : Bytes, configStoreSize ≤ buf.length →
    (configDeserialize before (configSerialize acc buf).2).2.users = acc.users
  groups : ∀ before : Accounts, ∀ buf : Bytes, configStoreSize ≤ buf.length →
    (configDeserialize before (configSerialize acc buf).2).2.groups = acc.groups

/--
`usermod` does not give root a name or a uid, no uid is handed out while `next_uid` is not positive,
and cutting off a name does not make it the one of another group or another member.
-/
def roundTripGuard : Guard where
  addUser := fun _ _ => True
  rename := groupsGuard.rename
  giveUid := fun _ _ => True
  takeUid := fun uid => 0 < uid
  addGroup := groupsGuard.addGroup
  modifyRoot := False
  short := fun _ _ _ _ => trivial

theorem loadMembers_same {ms : List Bytes} {gr : Group} (hnodup : (gr.members ++ ms).Nodup)
    (hle : gr.members.length + ms.length ≤ maxGmem) (htext : ∀ m ∈ ms, TextOk maxUsername m ∧ m ≠ [])
    (hfind : ∀ m ∈ ms, m ∈ acc.usernames)
    : ms.foldl (loadMember acc) gr = { gr with members := gr.members ++ ms } := by
  induction ms generalizing gr with
  | nil => simp
  | cons m ms ih =>
    obtain ⟨hm, hne⟩ := htext m List.mem_cons_self
    have hmem := hfind m List.mem_cons_self
    have hnew : ¬groupHasMember gr m := by
      rw [List.nodup_append] at hnodup
      unfold groupHasMember
      rw [decide_eq_true_eq]
      exact fun hmem => hnodup.2.2 m hmem m List.mem_cons_self rfl
    rw [List.length_cons] at hle
    have hstep : loadMember acc gr m = { gr with members := gr.members ++ [m] } := by
      unfold loadMember groupMemberAdd
      rw [if_pos ((Accounts.userFind_isSome hne).mpr hmem), if_neg hnew, if_neg (by omega), hm.take_eq]
    rw [List.foldl_cons, hstep, ih]
    . simp
    . simpa using hnodup
    . rw [List.length_append, List.length_singleton]
      omega
    . exact fun m' hm' => htext m' (List.mem_cons_of_mem m hm')
    . exact fun m' hm' => hfind m' (List.mem_cons_of_mem m hm')

theorem loadGroups_same {gs : List Group} (hnodup : ((acc.groups ++ gs).map Group.name).Nodup)
    (hle : acc.groups.length + gs.length ≤ maxGroups) (hwf : ∀ gr ∈ gs, gr.Wf)
    (hmembers : ∀ gr ∈ gs, MembersOk acc.usernames gr) (hnames : ∀ name ∈ acc.usernames, name ≠ [])
    : gs.foldl loadGroup acc = { acc with groups := acc.groups ++ gs } := by
  induction gs generalizing acc with
  | nil => simp
  | cons gr gs ih =>
    have hgr := hwf gr List.mem_cons_self
    have hm := hmembers gr List.mem_cons_self
    rw [List.length_cons] at hle
    have hfree : acc.groupFind gr.name = none := by
      rw [Accounts.groupFind_eq_none hgr.name.2]
      rw [List.map_append, List.nodup_append] at hnodup
      exact fun hmem => hnodup.2.2 _ hmem gr.name (by simp) rfl
    have hstep : loadGroup acc gr = { acc with groups := acc.groups ++ [gr] } := by
      unfold loadGroup
      rw [if_pos ⟨by omega, hfree⟩, loadMembers_same]
      . rfl
      . simpa using hm.nodup
      . simpa using hgr.members_le
      . exact fun m hmem => ⟨hgr.member m hmem, hnames m (hm.accounts m hmem)⟩
      . exact hm.accounts
    rw [List.foldl_cons, hstep, ih]
    . simp
    . simpa using hnodup
    . rw [List.length_append, List.length_singleton]
      omega
    . exact fun gr' hgr' => hwf gr' (List.mem_cons_of_mem gr hgr')
    . exact fun gr' hgr' => hmembers gr' (List.mem_cons_of_mem gr hgr')
    . exact hnames

theorem usersLoaded_same (hids : RootIds (0 < ·) acc) : (usersLoaded acc).users = acc.users := by
  obtain ⟨root, tail, husers, hname, huid, htail⟩ := hids.first
  unfold usersLoaded Accounts.user
  rw [husers, List.tail_cons, repairUids_eq_self htail]
  simp [← hname, ← huid]

theorem saved_same (hwf : acc.Wf) (hids : RootIds (0 < ·) acc) (hgroups : GroupInv acc)
    : acc.groups.foldl loadGroup (usersLoaded acc)
        = { acc with nextUid := (usersLoaded acc).nextUid } := by
  have husers := usersLoaded_same hids
  have hnames : (usersLoaded acc).usernames = acc.usernames := by
    rw [Accounts.usernames, husers]
    rfl
  rw [loadGroups_same]
  . rw [husers]
    rfl
  . exact hgroups.names
  . simpa [usersLoaded] using hwf.groups_le
  . exact hwf.group_wf
  . rw [hnames]
    exact hgroups.members
  . rw [hnames]
    intro name hname
    obtain ⟨u, hu, rfl⟩ := List.mem_map.mp hname
    exact (hwf.username u hu).2

theorem accounts_round_trip (h : AccountRun (AccountCall.Meets roundTripGuard) bootAccounts acc)
    : RoundTrip acc := by
  have hinv : acc.Wf ∧ RootIds (0 < ·) acc ∧ GroupInv acc := by
    apply h.keeps (I := fun acc => acc.Wf ∧ RootIds (0 < ·) acc ∧ GroupInv acc)
    . intro acc acc' hchange ⟨hwf, hids, hgroups⟩
      exact ⟨hchange.wf hwf, hids.change (fun _ h => h) (fun _ h => h) id hchange.ids,
        hgroups.change ⟨fun _ _ _ h => h, fun _ _ h => h⟩ hwf hchange⟩
    . intro acc buf hbuf ⟨hwf, _, _⟩
      exact ⟨reloadAccounts_wf hwf hbuf, .reload (fun _ h => h) hwf hbuf, GroupInv.reload hwf hbuf⟩
    . exact ⟨bootAccounts_wf, .boot, by simp [bootAccounts], by simp [bootAccounts]⟩
  obtain ⟨hwf, hids, hgroups⟩ := hinv
  have hsame : ∀ before : Accounts, ∀ buf : Bytes, configStoreSize ≤ buf.length →
      configDeserialize before (configSerialize acc buf).2
        = (0, { acc with nextUid := (usersLoaded acc).nextUid }) := by
    intro before buf hbuf
    rw [configDeserialize_saved hwf before hbuf, saved_same hwf hids hgroups]
  refine ⟨?_, ?_, ?_, ?_, ?_, ?_⟩
  . intro buf hbuf
    rw [configSerialize, if_neg (by omega)]
  . intro before buf hbuf
    rw [hsame before buf hbuf]
  . intro before buf hbuf
    rw [hsame before buf hbuf]
  . intro before buf hbuf
    rw [hsame before buf hbuf]
  . intro before buf hbuf
    rw [hsame before buf hbuf]
  . intro before buf hbuf
    rw [hsame before buf hbuf]

theorem accounts_round_trip_useradd : RoundTrip accountA := by
  apply accounts_round_trip
  refine .single ⟨useraddA, ?_, useraddA_step⟩
  intro name o _ _ _
  have hnext : 0 < bootAccounts.nextUid := by
    decide
  exact ⟨trivial, fun _ => trivial, fun _ => hnext⟩

theorem root_lost_on_reload
    : ¬∀ acc, AccountRun (fun _ _ => True) bootAccounts acc → RoundTrip acc := by
  intro h
  have hstep : usermodRoot.Step bootAccounts { bootAccounts with users := [⟨rootName, [], 5⟩] } := by
    decide +kernel
  have hrun : AccountRun (fun _ _ => True) bootAccounts
      { bootAccounts with users := [⟨rootName, [], 5⟩] } := .single ⟨usermodRoot, trivial, hstep⟩
  have hwf : Accounts.Wf { bootAccounts with users := [⟨rootName, [], 5⟩] } := by
    apply bootAccounts_wf.users
    . decide
    . decide
    . simpa using rootName_ok
    . simpa using TextOk.nil (by decide)
    . simp
  have husers := (h _ hrun).users bootAccounts (List.replicate configStoreSize 0) (by simp)
  rw [configDeserialize_saved hwf bootAccounts (by simp)] at husers
  exact absurd husers (by decide)

end RoundTrip

end TanjaOS
