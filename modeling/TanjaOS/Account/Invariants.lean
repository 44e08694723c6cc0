import TanjaOS.Account.Reload

/-!
What the changes to the table keep: the shape of the table, who has which name and uid, and who is
in which group.
-/

open Lib

namespace TanjaOS

variable {g : Guard} {acc acc' : Accounts}

section Lists

variable {α : Type} {xs : List α}

theorem mem_modify {i : Nat} {f : α → α} {x : α} (h : x ∈ xs.modify i f) : x ∈ xs ∨ ∃ y ∈ xs, x = f y := by
  rw [List.mem_iff_getElem?] at h
  obtain ⟨j, hj⟩ := h
  rw [List.getElem?_modify, Option.map_eq_map, Option.map_eq_some_iff] at hj
  obtain ⟨y, hy, heq⟩ := hj
  have hmem := List.mem_of_getElem? hy
  split at heq
  . exact Or.inr ⟨y, hmem, heq.symm⟩
  . exact Or.inl (heq ▸ hmem)

theorem mem_tail_modify {i : Nat} {f : α → α} {x : α} (h : x ∈ (xs.modify i f).tail)
    : x ∈ xs.tail ∨ ∃ y ∈ xs.tail, x = f y := by
  cases xs with
  | nil => simp at h
  | cons y ys =>
    cases i with
    | zero =>
      rw [List.modify_zero_cons, List.tail_cons] at h
      exact Or.inl h
    | succ i =>
      rw [List.modify_succ_cons, List.tail_cons] at h
      exact mem_modify h

theorem mem_tail_append {x y : α} (h : x ∈ (xs ++ [y]).tail) : x ∈ xs.tail ∨ x = y := by
  cases xs with
  | nil => simp at h
  | cons z zs => simpa using h

theorem mem_tail_eraseIdx {i : Nat} {x : α} (h : x ∈ (xs.eraseIdx (i + 1)).tail) : x ∈ xs.tail := by
  cases xs with
  | nil => simp at h
  | cons z zs =>
    rw [List.eraseIdx_cons_succ, List.tail_cons] at h
    exact List.mem_of_mem_eraseIdx h

theorem set_perm {i : Nat} {x : α} (h : i < xs.length) : (xs.set i x).Perm (x :: xs.eraseIdx i) := by
  have hperm := List.getElem_cons_eraseIdx_perm (l := xs.set i x) (n := i) (by simpa using h)
  rw [List.getElem_set_self, List.eraseIdx_set_eq] at hperm
  exact hperm.symm

theorem mem_set_of_ne {i : Nat} {x y : α} (h : y ∈ xs) (hne : ∀ hi : i < xs.length, xs[i] ≠ y)
    : y ∈ xs.set i x := by
  rw [List.mem_iff_getElem?] at h ⊢
  obtain ⟨j, hj⟩ := h
  refine ⟨j, ?_⟩
  rw [List.getElem?_set_ne, hj]
  intro heq
  subst heq
  obtain ⟨hi, hy⟩ := List.getElem?_eq_some_iff.mp hj
  exact hne hi hy

theorem mem_eraseIdx_of_ne {i : Nat} {y : α} (h : y ∈ xs) (hne : ∀ hi : i < xs.length, xs[i] ≠ y)
    : y ∈ xs.eraseIdx i := by
  rw [List.mem_eraseIdx_iff_getElem?]
  rw [List.mem_iff_getElem?] at h
  obtain ⟨j, hj⟩ := h
  refine ⟨j, ?_, hj⟩
  intro heq
  subst heq
  obtain ⟨hi, hy⟩ := List.getElem?_eq_some_iff.mp hj
  exact hne hi hy

end Lists

section Shape

theorem cut_ne_nil {name : Bytes} (h : name ≠ []) : name.take (maxUsername - 1) ≠ [] := by
  intro heq
  rw [List.take_eq_nil_iff] at heq
  cases heq with
  | inl heq => contradiction
  | inr heq => exact h heq

theorem cut_ne_root {name : Bytes} (h : name ≠ rootName) : name.take (maxUsername - 1) ≠ rootName := by
  intro heq
  have hlen : min (maxUsername - 1) name.length = 4 := by
    rw [← List.length_take, heq]
    rfl
  rw [List.take_of_length_le (by unfold maxUsername at *; omega)] at heq
  exact h heq

/--
What `Wf` says about a group.
-/
structure Group.Wf (gr : Group) : Prop where
  name : TextOk maxUsername gr.name ∧ gr.name ≠ []
  members_le : gr.members.length ≤ maxGmem
  member : ∀ m ∈ gr.members, TextOk maxUsername m

theorem Accounts.Wf.group_wf (h : acc.Wf) : ∀ gr ∈ acc.groups, gr.Wf :=
  fun gr hgr => ⟨h.group gr hgr, h.members_le gr hgr, h.member gr hgr⟩

theorem Group.Wf.remove {gr : Group} (h : gr.Wf) (name : Bytes) : (groupMemberRemove gr name).Wf := by
  refine ⟨h.name, ?_, ?_⟩
  . exact List.length_erase_le.trans h.members_le
  . intro m hm
    exact h.member m (List.mem_of_mem_erase hm)

theorem Group.Wf.add {gr : Group} (h : gr.Wf) {name : Bytes} (hname : 0 ∉ name)
    : (groupMemberAdd gr name).Wf := by
  unfold groupMemberAdd
  split
  . exact h
  . split
    . exact h
    . refine ⟨h.name, ?_, ?_⟩
      . rw [List.length_append, List.length_singleton]
        omega
      . intro m hm
        rw [List.mem_append, List.mem_singleton] at hm
        cases hm with
        | inl hm => exact h.member m hm
        | inr hm =>
          rw [hm]
          exact .take (by decide) hname

theorem Accounts.Wf.groups (h : acc.Wf) {groups : List Group} (hle : groups.length ≤ maxGroups)
    (hgroups : ∀ gr ∈ groups, gr.Wf)
    : Accounts.Wf { acc with groups := groups } where
  hostname := h.hostname
  users_pos := h.users_pos
  users_le := h.users_le
  username := h.username
  password := h.password
  root_first := h.root_first
  groups_le := hle
  group := fun gr hgr => (hgroups gr hgr).name
  members_le := fun gr hgr => (hgroups gr hgr).members_le
  member := fun gr hgr => (hgroups gr hgr).member

theorem Accounts.Wf.map_groups (h : acc.Wf) {f : Group → Group} (hf : ∀ gr, gr.Wf → (f gr).Wf)
    : Accounts.Wf { acc with groups := acc.groups.map f } := by
  apply h.groups
  . rw [List.length_map]
    exact h.groups_le
  . intro gr hgr
    rw [List.mem_map] at hgr
    obtain ⟨gr', hgr', rfl⟩ := hgr
    exact hf gr' (h.group_wf gr' hgr')

theorem Accounts.Wf.modifyUser (h : acc.Wf) {idx : Nat} {f : User → User}
    (hname : ∀ u ∈ acc.users, TextOk maxUsername (f u).username ∧ (f u).username ≠ [])
    (hpass : ∀ u ∈ acc.users, TextOk maxPassword (f u).password)
    (hroot : ∀ u ∈ acc.users.tail, (f u).username ≠ rootName)
    : (acc.modifyUser idx f).Wf where
  hostname := h.hostname
  users_pos := by simpa [Accounts.modifyUser] using h.users_pos
  users_le := by simpa [Accounts.modifyUser] using h.users_le
  username := by
    intro u hu
    cases mem_modify hu with
    | inl hu => exact h.username u hu
    | inr hu =>
      obtain ⟨v, hv, rfl⟩ := hu
      exact hname v hv
  password := by
    intro u hu
    cases mem_modify hu with
    | inl hu => exact h.password u hu
    | inr hu =>
      obtain ⟨v, hv, rfl⟩ := hu
      exact hpass v hv
  root_first := by
    intro u hu
    cases mem_tail_modify hu with
    | inl hu => exact h.root_first u hu
    | inr hu =>
      obtain ⟨v, hv, rfl⟩ := hu
      exact hroot v hv
  groups_le := h.groups_le
  group := h.group
  members_le := h.members_le
  member := h.member

theorem Accounts.Wf.users (h : acc.Wf) {users : List User} {nextUid : Int32} (hpos : 0 < users.length)
    (hle : users.length ≤ maxUsers)
    (hname : ∀ u ∈ users, TextOk maxUsername u.username ∧ u.username ≠ [])
    (hpass : ∀ u ∈ users, TextOk maxPassword u.password)
    (hroot : ∀ u ∈ users.tail, u.username ≠ rootName)
    : Accounts.Wf { acc with users := users, nextUid := nextUid } :=
  ⟨h.hostname, hpos, hle, hname, hpass, hroot, h.groups_le, h.group, h.members_le, h.member⟩

theorem userAddFull_eq {name password : Bytes} {uid : Int32} (hname : name ≠ [])
    (hfind : name ∉ acc.usernames) (hroom : acc.users.length < maxUsers)
    : (userAddFull acc name password uid).2.1 = { acc with
        users := acc.users ++ [⟨name.take (maxUsername - 1), password.take (maxPassword - 1),
          if 0 < uid then uid else acc.nextUid⟩]
        nextUid :=
          if 0 < uid then if acc.nextUid ≤ uid then uid + 1 else acc.nextUid else acc.nextUid + 1 } := by
  rw [← Accounts.userFind_eq_none hname] at hfind
  unfold userAddFull
  rw [if_neg hname, hfind, if_neg (by simp), if_neg (by omega)]
  split
  . rfl
  . simp

theorem Change.wf (h : Change g acc acc') (hwf : acc.Wf) : acc'.Wf := by
  cases h with
  | addUser name password uid hname hroot hpassword hfind hroom =>
    rw [userAddFull_eq hname.ne_nil hfind hroom]
    apply hwf.users
    . simp
    . simpa using hroom
    . intro u hu
      rw [List.mem_append, List.mem_singleton] at hu
      cases hu with
      | inl hu => exact hwf.username u hu
      | inr hu =>
        rw [hu]
        exact ⟨.take (by decide) hname.no_nul, cut_ne_nil hname.ne_nil⟩
    . intro u hu
      rw [List.mem_append, List.mem_singleton] at hu
      cases hu with
      | inl hu => exact hwf.password u hu
      | inr hu =>
        rw [hu]
        exact .take (by decide) hpassword
    . intro u hu
      cases mem_tail_append hu with
      | inl hu => exact hwf.root_first u hu
      | inr hu =>
        rw [hu]
        exact cut_ne_root hroot
  | delUser name idx hfind =>
    obtain ⟨hidx, _, _⟩ := Accounts.userFind_eq_some hfind
    have hlen := List.length_eraseIdx_of_lt hidx
    have hle := hwf.users_le
    have husers : Accounts.Wf { acc with users := acc.users.eraseIdx (idx + 1) } := by
      apply hwf.users
      . omega
      . omega
      . exact fun u hu => hwf.username u (List.mem_of_mem_eraseIdx hu)
      . exact fun u hu => hwf.password u (List.mem_of_mem_eraseIdx hu)
      . exact fun u hu => hwf.root_first u (mem_tail_eraseIdx hu)
    exact husers.map_groups (fun gr hgr => hgr.remove name)
  | rename idx name newname hfind hname hroot =>
    have husers : (acc.modifyUser idx
        (fun u => { u with username := newname.take (maxUsername - 1) })).Wf := by
      apply hwf.modifyUser
      . exact fun _ _ => ⟨.take (by decide) hname.no_nul, cut_ne_nil hname.ne_nil⟩
      . exact hwf.password
      . exact fun _ _ => cut_ne_root hroot
    apply husers.map_groups
    intro gr hgr
    split
    . exact (hgr.remove name).add hname.no_nul
    . exact hgr
  | password idx f hf =>
    apply hwf.modifyUser
    . exact hwf.username
    . exact fun u hu => hf _ (hwf.password u hu)
    . exact hwf.root_first
  | uid idx uid =>
    have husers := @Accounts.Wf.modifyUser _ hwf idx (fun u => { u with uid := uid }) hwf.username
      hwf.password hwf.root_first
    exact husers.users husers.users_pos husers.users_le husers.username husers.password husers.root_first
  | leave name => exact hwf.map_groups (fun gr hgr => hgr.remove name)
  | join gi name hname =>
    obtain ⟨u, hu, rfl⟩ := List.mem_map.mp hname
    apply hwf.groups
    . rw [List.length_modify]
      exact hwf.groups_le
    . intro gr hgr
      cases mem_modify hgr with
      | inl hgr => exact hwf.group_wf gr hgr
      | inr hgr =>
        obtain ⟨gr', hgr', rfl⟩ := hgr
        exact (hwf.group_wf gr' hgr').add (hwf.username u hu).1.no_nul
  | addGroup name hname hfree hroom =>
    apply hwf.groups
    . simpa using hroom
    . intro gr hgr
      rw [List.mem_append, List.mem_singleton] at hgr
      cases hgr with
      | inl hgr => exact hwf.group_wf gr hgr
      | inr hgr =>
        rw [hgr]
        exact ⟨⟨.take (by decide) hname.no_nul, cut_ne_nil hname.ne_nil⟩, by simp, by simp⟩
  | delGroup gi =>
    apply hwf.groups
    . exact (List.length_eraseIdx_le _ _).trans hwf.groups_le
    . exact fun gr hgr => hwf.group_wf gr (List.mem_of_mem_eraseIdx hgr)
  | config hostname isSetup hhost =>
    exact ⟨hhost, hwf.users_pos, hwf.users_le, hwf.username, hwf.password, hwf.root_first,
      hwf.groups_le, hwf.group, hwf.members_le, hwf.member⟩

end Shape

section Boot

theorem rootName_ok : TextOk maxUsername rootName ∧ rootName ≠ [] :=
  ⟨⟨by decide, by decide⟩, by decide⟩

theorem length_repairUids (i : Nat) (us : List User) : (repairUids i us).length = us.length := by
  induction us generalizing i with
  | nil => rfl
  | cons u us ih => simp [repairUids, ih]

theorem mem_repairUids {i : Nat} {us : List User} (hi : i + us.length ≤ maxUsers) {u : User}
    (hu : u ∈ repairUids i us)
    : 0 < u.uid ∧ ∃ v ∈ us, u.username = v.username ∧ u.password = v.password := by
  induction us generalizing i with
  | nil => simp [repairUids] at hu
  | cons v us ih =>
    rw [List.length_cons] at hi
    rw [repairUids, List.mem_cons] at hu
    cases hu with
    | inl hu =>
      rw [hu]
      refine ⟨?_, v, List.mem_cons_self, rfl, rfl⟩
      dsimp only
      split
      . have hpos : ∀ i < maxUsers, 0 < 1000 + Int32.ofNat i := by decide
        exact hpos i (by omega)
      . next huid => exact Int32.not_le.mp huid
    | inr hu =>
      obtain ⟨hpos, w, hw, hsame⟩ := ih (by omega) hu
      exact ⟨hpos, w, List.mem_cons_of_mem v hw, hsame⟩

theorem repairUids_eq_self {i : Nat} {us : List User} (h : ∀ u ∈ us, 0 < u.uid) : repairUids i us = us := by
  induction us generalizing i with
  | nil => rfl
  | cons u us ih =>
    have hu := h u List.mem_cons_self
    rw [repairUids, ih (fun v hv => h v (List.mem_cons_of_mem u hv)), if_neg (Int32.not_le.mpr hu)]

theorem Accounts.Wf.mem_usersLoaded (h : acc.Wf) {u : User} (hu : u ∈ (usersLoaded acc).users.tail)
    : 0 < u.uid ∧ ∃ v ∈ acc.users.tail, u.username = v.username ∧ u.password = v.password := by
  have hle := h.users_le
  have hpos := h.users_pos
  apply mem_repairUids _ hu
  rw [List.length_tail]
  omega

theorem usersLoaded_wf (h : acc.Wf) : (usersLoaded acc).Wf := by
  have hle := h.users_le
  have hpos := h.users_pos
  have hlen : (usersLoaded acc).users.length = acc.users.length := by
    simp only [usersLoaded, List.length_cons, length_repairUids, List.length_tail]
    omega
  refine ⟨h.hostname, by omega, by omega, ?_, ?_, ?_, by simp [usersLoaded], by simp [usersLoaded],
    by simp [usersLoaded], by simp [usersLoaded]⟩
  . intro u hu
    cases hu with
    | head => exact rootName_ok
    | tail _ hu =>
      obtain ⟨_, v, hv, hname, _⟩ := h.mem_usersLoaded hu
      rw [hname]
      exact h.username v (List.mem_of_mem_tail hv)
  . intro u hu
    cases hu with
    | head => exact h.password (acc.user 0) (Accounts.user_mem hpos)
    | tail _ hu =>
      obtain ⟨_, v, hv, _, hpass⟩ := h.mem_usersLoaded hu
      rw [hpass]
      exact h.password v (List.mem_of_mem_tail hv)
  . intro u hu
    obtain ⟨_, v, hv, hname, _⟩ := h.mem_usersLoaded hu
    rw [hname]
    exact h.root_first v hv

theorem loadGroup_keeps {I : Accounts → Prop} {gs : List Group}
    (hstep : ∀ acc, ∀ gr ∈ gs, I acc → I (loadGroup acc gr)) (hinit : I acc)
    : I (gs.foldl loadGroup acc) := by
  induction gs generalizing acc with
  | nil => exact hinit
  | cons gr gs ih =>
    apply ih
    . exact fun acc gr' hgr' => hstep acc gr' (List.mem_cons_of_mem gr hgr')
    . exact hstep acc gr List.mem_cons_self hinit

theorem loadMember_keeps {I : Group → Prop} {ms : List Bytes} {gr : Group}
    (hstep : ∀ gr, ∀ m ∈ ms, I gr → I (loadMember acc gr m)) (hinit : I gr)
    : I (ms.foldl (loadMember acc) gr) := by
  induction ms generalizing gr with
  | nil => exact hinit
  | cons m ms ih =>
    apply ih
    . exact fun gr m' hm' => hstep gr m' (List.mem_cons_of_mem m hm')
    . exact hstep gr m List.mem_cons_self hinit

theorem loadGroups_users (acc : Accounts) (gs : List Group)
    : (gs.foldl loadGroup acc).users = acc.users ∧ (gs.foldl loadGroup acc).nextUid = acc.nextUid
      ∧ (gs.foldl loadGroup acc).hostname = acc.hostname
      ∧ (gs.foldl loadGroup acc).isSetup = acc.isSetup := by
  apply loadGroup_keeps (I := fun acc' => acc'.users = acc.users ∧ acc'.nextUid = acc.nextUid
    ∧ acc'.hostname = acc.hostname ∧ acc'.isSetup = acc.isSetup)
  . intro acc' gr _ h
    unfold loadGroup
    split
    . exact h
    . exact h
  . exact ⟨rfl, rfl, rfl, rfl⟩

theorem loadGroup_wf {gr : Group} (hwf : acc.Wf) (hgr : gr.Wf) : (loadGroup acc gr).Wf := by
  unfold loadGroup
  split
  . next h =>
    apply hwf.groups
    . simpa using h.1
    . intro gr' hgr'
      rw [List.mem_append, List.mem_singleton] at hgr'
      cases hgr' with
      | inl hgr' => exact hwf.group_wf gr' hgr'
      | inr hgr' =>
        rw [hgr']
        apply loadMember_keeps
        . intro gr' m hm hgr'
          unfold loadMember
          split
          . exact hgr'.add (hgr.member m hm).no_nul
          . exact hgr'
        . exact ⟨hgr.name, by simp, by simp⟩
  . exact hwf

theorem reloadAccounts_wf (h : acc.Wf) {buf : Bytes} (hbuf : buf.length = configStoreSize)
    : (reloadAccounts acc buf).Wf := by
  rw [reloadAccounts_eq h hbuf]
  exact loadGroup_keeps (fun acc' gr hgr hwf => loadGroup_wf hwf (h.group_wf gr hgr)) (usersLoaded_wf h)

end Boot

theorem bootAccounts_wf : bootAccounts.Wf where
  hostname := .nil (by decide)
  users_pos := by decide
  users_le := by decide
  username := by simpa [bootAccounts] using rootName_ok
  password := by simpa [bootAccounts] using TextOk.nil (by decide)
  root_first := by simp [bootAccounts]
  groups_le := by decide
  group := by simp [bootAccounts]
  members_le := by simp [bootAccounts]
  member := by simp [bootAccounts]

theorem AccountRun.wf (h : AccountRun (AccountCall.Meets g) bootAccounts acc) : acc.Wf :=
  h.keeps (fun _ _ hchange => hchange.wf) (fun _ _ hbuf hwf => reloadAccounts_wf hwf hbuf) bootAccounts_wf

section Ids

inductive IdChange (g : Guard) (acc acc' : Accounts) : Prop where
  | same (hnames : acc'.usernames = acc.usernames) (huids : acc'.uids = acc.uids)
    (hnext : acc'.nextUid = acc.nextUid)
  | give (name : Bytes) (uid : Int32) (hpos : 0 < uid) (hadd : g.addUser acc name)
    (hgive : g.giveUid acc.uids uid)
    (hnames : acc'.usernames = acc.usernames ++ [name.take (maxUsername - 1)])
    (huids : acc'.uids = acc.uids ++ [uid])
    (hnext : acc'.nextUid = if acc.nextUid ≤ uid then uid + 1 else acc.nextUid)
  | take (name : Bytes) (hadd : g.addUser acc name) (htake : g.takeUid acc.nextUid)
    (hnames : acc'.usernames = acc.usernames ++ [name.take (maxUsername - 1)])
    (huids : acc'.uids = acc.uids ++ [acc.nextUid]) (hnext : acc'.nextUid = acc.nextUid + 1)
  | delete (idx : Nat) (hnames : acc'.usernames = acc.usernames.eraseIdx (idx + 1))
    (huids : acc'.uids = acc.uids.eraseIdx (idx + 1)) (hnext : acc'.nextUid = acc.nextUid)
  | rename (idx : Nat) (newname : Bytes) (hidx : idx < acc.users.length)
    (hrename : g.rename acc idx newname) (hmodify : idx = 0 → g.modifyRoot)
    (hnames : acc'.usernames = acc.usernames.set idx (newname.take (maxUsername - 1)))
    (huids : acc'.uids = acc.uids) (hnext : acc'.nextUid = acc.nextUid)
  | renumber (idx : Nat) (uid : Int32) (hidx : idx < acc.users.length) (hpos : 0 < uid)
    (hgive : g.giveUid (acc.uids.eraseIdx idx) uid) (hmodify : idx = 0 → g.modifyRoot)
    (hnames : acc'.usernames = acc.usernames) (huids : acc'.uids = acc.uids.set idx uid)
    (hnext : acc'.nextUid = if acc.nextUid ≤ uid then uid + 1 else acc.nextUid)

theorem map_modify_same {α β : Type} {us : List α} {idx : Nat} {f : α → α} {p : α → β}
    (hf : ∀ u, p (f u) = p u)
    : (us.modify idx f).map p = us.map p := by
  apply List.ext_getElem?
  intro i
  rw [List.getElem?_map, List.getElem?_map, List.getElem?_modify]
  cases us[i]? with
  | none => rfl
  | some u =>
    by_cases hi : idx = i
    . simp [hi, hf]
    . simp [hi]

theorem map_modify_const {β : Type} {us : List User} {idx : Nat} {f : User → User} {p : User → β} {b : β}
    (hf : ∀ u, p (f u) = b)
    : (us.modify idx f).map p = (us.map p).set idx b := by
  apply List.ext_getElem?
  intro i
  rw [List.getElem?_map, List.getElem?_set, List.getElem?_map, List.getElem?_modify, List.length_map]
  by_cases hi : idx = i
  . subst hi
    by_cases hlt : idx < us.length
    . simp [hlt, hf]
    . simp [hlt]
  . simp [hi]

theorem Change.ids (h : Change g acc acc') : IdChange g acc acc' := by
  cases h with
  | addUser name password uid hname hroot hpassword hfind hroom hadd hgive htake =>
    rw [userAddFull_eq hname.ne_nil hfind hroom]
    by_cases hpos : 0 < uid
    . apply IdChange.give name uid hpos hadd (hgive hpos)
      . simp [Accounts.usernames]
      . simp [Accounts.uids, hpos]
      . simp [hpos]
    . apply IdChange.take name hadd (htake hpos)
      . simp [Accounts.usernames]
      . simp [Accounts.uids, hpos]
      . simp [hpos]
  | delUser name idx hfind =>
    apply IdChange.delete idx
    . exact (List.eraseIdx_map ..).symm
    . exact (List.eraseIdx_map ..).symm
    . rfl
  | rename idx name newname hfind hname hroot hfree hrename hmodify =>
    obtain ⟨hidx, _, _⟩ := Accounts.userFind_eq_some hfind
    apply IdChange.rename idx newname hidx hrename hmodify
    . exact map_modify_const (fun _ => rfl)
    . exact map_modify_same (fun _ => rfl)
    . rfl
  | password idx f hf =>
    apply IdChange.same
    . exact map_modify_same (fun _ => rfl)
    . exact map_modify_same (fun _ => rfl)
    . rfl
  | uid idx uid hidx hpos hgive hmodify =>
    apply IdChange.renumber idx uid hidx hpos hgive hmodify
    . exact map_modify_same (fun _ => rfl)
    . exact map_modify_const (fun _ => rfl)
    . rfl
  | leave => exact .same rfl rfl rfl
  | join => exact .same rfl rfl rfl
  | addGroup => exact .same rfl rfl rfl
  | delGroup => exact .same rfl rfl rfl
  | config => exact .same rfl rfl rfl

end Ids

end TanjaOS
