import TanjaOS.Account.Invariants

/-!
Who an account is: root stays root, names and uids belong to one account, and a uid that has been
used is not handed out again.
-/

open Lib

namespace TanjaOS

variable {g : Guard} {acc acc' : Accounts}

section Root

/--
The first account is root, and no other has its uid.
-/
structure RootStays (acc : Accounts) : Prop where
  username : (acc.user 0).username = rootName
  uid : (acc.user 0).uid = 0
  others : ∀ i, 0 < i → i < acc.users.length → (acc.user i).uid ≠ 0

/--
`usermod` does not give root a name or a uid, and 0 is not handed out when `next_uid` has come round
to it.
-/
def rootGuard : Guard where
  addUser := fun _ _ => True
  rename := fun _ _ _ => True
  giveUid := fun _ _ => True
  takeUid := fun uid => uid ≠ 0
  addGroup := fun _ _ => True
  modifyRoot := False
  short := fun _ _ _ _ => trivial

/--
The names and uids of a table that root comes first in. The other uids meet `P`.
-/
def RootIds (P : Int32 → Prop) (acc : Accounts) : Prop :=
  ∃ names uids, acc.usernames = rootName :: names ∧ acc.uids = 0 :: uids ∧ ∀ uid ∈ uids, P uid

namespace RootIds

variable {P : Int32 → Prop}

theorem first (h : RootIds P acc)
    : ∃ root tail, acc.users = root :: tail ∧ root.username = rootName ∧ root.uid = 0
      ∧ ∀ u ∈ tail, P u.uid := by
  obtain ⟨names, uids, hnames, huids, hp⟩ := h
  unfold Accounts.usernames at hnames
  unfold Accounts.uids at huids
  cases husers : acc.users with
  | nil => simp [husers] at hnames
  | cons root tail =>
    rw [husers, List.map_cons, List.cons.injEq] at hnames huids
    refine ⟨root, tail, rfl, hnames.1, huids.1, ?_⟩
    intro u hu
    apply hp
    rw [← huids.2]
    exact List.mem_map_of_mem hu

theorem change (hpos : ∀ uid, 0 < uid → P uid) (htaken : ∀ uid, g.takeUid uid → P uid)
    (hroot : ¬g.modifyRoot) (h : IdChange g acc acc') (hinv : RootIds P acc)
    : RootIds P acc' := by
  obtain ⟨names, uids, hnames, huids, hp⟩ := hinv
  have hconcat : ∀ uid, P uid → ∀ uid' ∈ uids ++ [uid], P uid' := by
    intro uid huid uid' huid'
    rw [List.mem_append, List.mem_singleton] at huid'
    cases huid' with
    | inl huid' => exact hp uid' huid'
    | inr heq => exact heq ▸ huid
  unfold RootIds
  cases h with
  | same hnames' huids' =>
    rw [hnames', huids', hnames, huids]
    exact ⟨names, uids, rfl, rfl, hp⟩
  | give name uid hlt hadd hgive hnames' huids' =>
    rw [hnames', huids', hnames, huids]
    exact ⟨_, uids ++ [uid], rfl, rfl, hconcat uid (hpos uid hlt)⟩
  | take name hadd htake hnames' huids' =>
    rw [hnames', huids', hnames, huids]
    exact ⟨_, uids ++ [acc.nextUid], rfl, rfl, hconcat acc.nextUid (htaken acc.nextUid htake)⟩
  | delete idx hnames' huids' =>
    rw [hnames', huids', hnames, huids]
    exact ⟨_, _, rfl, rfl, fun uid huid => hp uid (List.mem_of_mem_eraseIdx huid)⟩
  | rename idx newname hidx hrename hmodify hnames' huids' =>
    rw [hnames', huids', hnames, huids]
    cases idx with
    | zero => exact (hroot (hmodify rfl)).elim
    | succ idx => exact ⟨_, _, rfl, rfl, hp⟩
  | renumber idx uid hidx hlt hgive hmodify hnames' huids' =>
    rw [hnames', huids', hnames, huids]
    cases idx with
    | zero => exact (hroot (hmodify rfl)).elim
    | succ idx =>
      refine ⟨_, _, rfl, rfl, ?_⟩
      intro uid' huid'
      cases List.mem_or_eq_of_mem_set huid' with
      | inl huid' => exact hp uid' huid'
      | inr heq => exact heq ▸ hpos uid hlt

theorem reload (hpos : ∀ uid, 0 < uid → P uid) (h : acc.Wf) {buf : Bytes}
    (hbuf : buf.length = configStoreSize)
    : RootIds P (reloadAccounts acc buf) := by
  have husers := (loadGroups_users (usersLoaded acc) acc.groups).1
  unfold RootIds Accounts.usernames Accounts.uids
  rw [reloadAccounts_eq h hbuf, husers]
  refine ⟨_, _, rfl, rfl, ?_⟩
  intro uid huid
  rw [List.mem_map] at huid
  obtain ⟨u, hu, rfl⟩ := huid
  exact hpos u.uid (h.mem_usersLoaded hu).1

theorem boot : RootIds P bootAccounts :=
  ⟨[], [], rfl, rfl, by simp⟩

end RootIds

theorem RootIds.rootStays (h : RootIds (· ≠ 0) acc) : RootStays acc := by
  obtain ⟨root, tail, husers, hname, huid, htail⟩ := h.first
  have hroot : acc.user 0 = root := by
    simp [Accounts.user, husers]
  refine ⟨?_, ?_, ?_⟩
  . rw [hroot]
    exact hname
  . rw [hroot]
    exact huid
  . intro i hpos hi
    cases i with
    | zero => contradiction
    | succ i =>
      apply htail
      rw [Accounts.user_eq hi]
      simp [husers]

theorem root_ids (h : AccountRun (AccountCall.Meets rootGuard) bootAccounts acc)
    : acc.Wf ∧ RootIds (· ≠ 0) acc := by
  have hpos : ∀ uid : Int32, 0 < uid → uid ≠ 0 := fun _ hlt heq => Int32.lt_irrefl (heq ▸ hlt)
  apply h.keeps (I := fun acc => acc.Wf ∧ RootIds (· ≠ 0) acc)
  . intro acc acc' hchange hinv
    exact ⟨hchange.wf hinv.1, hinv.2.change hpos (fun _ h => h) id hchange.ids⟩
  . intro acc buf hbuf hinv
    exact ⟨reloadAccounts_wf hinv.1 hbuf, .reload hpos hinv.1 hbuf⟩
  . exact ⟨bootAccounts_wf, .boot⟩

theorem root_stays_root (h : AccountRun (AccountCall.Meets rootGuard) bootAccounts acc)
    : RootStays acc :=
  (root_ids h).2.rootStays

def typed (args : Bytes) (h : 0 ∉ args) : CmdInput :=
  ⟨⟨args, h⟩, ⟨[], by simp⟩, []⟩

def rootSession : Session :=
  ⟨rootName, 0⟩

/--
`useradd -p x a`
-/
def useraddA : AccountCall :=
  ⟨rootSession, .useradd (typed [45, 112, 32, 120, 32, 97] (by decide))⟩

def accountA : Accounts :=
  { bootAccounts with
    users := [⟨rootName, [], 0⟩, ⟨[97], [120], 1000⟩]
    nextUid := 1001 }

theorem useraddA_request {name : Bytes} {o : UseraddArgs}
    (h : useraddRequest rootSession bootAccounts (typed [45, 112, 32, 120, 32, 97] (by decide))
      = some (name, o))
    : name = [97] ∧ o = { pass := some [120], name := some [97] } := by
  have hsame : useraddRequest rootSession bootAccounts (typed [45, 112, 32, 120, 32, 97] (by decide))
      = some ([97], { pass := some [120], name := some [97] }) := by
    decide +kernel
  have heq := h.symm.trans hsame
  simp only [Option.some.injEq, Prod.mk.injEq] at heq
  exact heq

theorem useraddA_step : useraddA.Step bootAccounts accountA := by
  decide +kernel

theorem accountA_run : AccountRun (AccountCall.Meets rootGuard) bootAccounts accountA := by
  refine .single ⟨useraddA, ?_, useraddA_step⟩
  intro name o _ _ _
  have hnext : bootAccounts.nextUid ≠ 0 := by
    decide
  exact ⟨trivial, fun _ => trivial, fun _ => hnext⟩

theorem root_stays_root_useradd : RootStays accountA := by
  apply root_stays_root
  apply accountA_run

/--
`usermod -u 5 root`
-/
def usermodRoot : AccountCall :=
  ⟨rootSession, .usermod (typed [45, 117, 32, 53, 32, 114, 111, 111, 116] (by decide))⟩

theorem root_renumbered
    : ¬∀ acc, AccountRun (fun _ _ => True) bootAccounts acc → RootStays acc := by
  intro h
  have hstep : usermodRoot.Step bootAccounts { bootAccounts with users := [⟨rootName, [], 5⟩] } := by
    decide +kernel
  have huid := (h _ (.single ⟨usermodRoot, trivial, hstep⟩)).uid
  exact absurd huid (by decide)

end Root

section Uids

/--
The last uid, after which `next_uid` wraps around.
-/
def maxUid : Int32 := 2147483647

theorem lt_add_one {uid : Int32} (h : uid ≠ maxUid) : uid < uid + 1 := by
  have hne : uid.toInt ≠ 2147483647 := by
    intro heq
    apply h
    rw [← Int32.toInt_inj, heq]
    rfl
  have hlt := uid.toInt_lt
  have hle := uid.le_toInt
  rw [Int32.lt_iff_toInt_lt, Int32.toInt_add, show (1 : Int32).toInt = 1 from rfl,
    Int.bmod_eq_of_le (by omega) (by omega)]
  omega

theorem ne_maxUid_of_lt {uid nextUid : Int32} (h : uid < nextUid) : uid ≠ maxUid := by
  intro heq
  have hlt := nextUid.toInt_lt
  rw [heq, Int32.lt_iff_toInt_lt, show maxUid.toInt = 2147483647 from rfl] at h
  omega

/--
`next_uid` is behind all uids.
-/
structure UidsBelow (acc : Accounts) : Prop where
  next_pos : 0 < acc.nextUid
  below : ∀ uid ∈ acc.uids, uid < acc.nextUid
  positive : ∀ uid ∈ acc.uids.tail, 0 < uid

/--
No uid that is handed out is the last one.
-/
structure Guard.NoWrap (g : Guard) : Prop where
  give : ∀ others uid, g.giveUid others uid → uid ≠ maxUid
  take : ∀ uid, g.takeUid uid → uid ≠ maxUid

theorem bump_spec (nextUid : Int32) {uid : Int32} (h : uid ≠ maxUid)
    : nextUid ≤ (if nextUid ≤ uid then uid + 1 else nextUid)
      ∧ uid < (if nextUid ≤ uid then uid + 1 else nextUid) := by
  split
  . next hle => exact ⟨Int32.le_of_lt (Int32.lt_of_le_of_lt hle (lt_add_one h)), lt_add_one h⟩
  . next hle => exact ⟨Int32.le_refl nextUid, Int32.not_le.mp hle⟩

theorem UidsBelow.change (hg : g.NoWrap) (h : IdChange g acc acc') (hinv : UidsBelow acc)
    : UidsBelow acc' ∧ acc.nextUid ≤ acc'.nextUid := by
  have hnew : ∀ uid, 0 < uid → acc.nextUid ≤ acc'.nextUid → uid < acc'.nextUid →
      (∀ u ∈ acc'.uids, u ∈ acc.uids ∨ u = uid) →
      (∀ u ∈ acc'.uids.tail, u ∈ acc.uids.tail ∨ u = uid) →
      UidsBelow acc' ∧ acc.nextUid ≤ acc'.nextUid := by
    intro uid hpos hle hlt hmem htail
    refine ⟨⟨Int32.lt_of_lt_of_le hinv.next_pos hle, ?_, ?_⟩, hle⟩
    . intro u hu
      cases hmem u hu with
      | inl hu => exact Int32.lt_of_lt_of_le (hinv.below u hu) hle
      | inr heq => exact heq ▸ hlt
    . intro u hu
      cases htail u hu with
      | inl hu => exact hinv.positive u hu
      | inr heq => exact heq ▸ hpos
  cases h with
  | same hnames huids hnext =>
    refine ⟨⟨?_, ?_, ?_⟩, ?_⟩
    . rw [hnext]
      exact hinv.next_pos
    . rw [hnext, huids]
      exact hinv.below
    . rw [huids]
      exact hinv.positive
    . rw [hnext]
      exact Int32.le_refl acc.nextUid
  | give name uid hpos hadd hgive hnames huids hnext =>
    have hbump := bump_spec acc.nextUid (hg.give _ uid hgive)
    rw [← hnext] at hbump
    apply hnew uid hpos hbump.1 hbump.2
    . rw [huids]
      simp
    . rw [huids]
      exact fun u hu => mem_tail_append hu
  | take name hadd htake hnames huids hnext =>
    have hlt := lt_add_one (hg.take _ htake)
    rw [← hnext] at hlt
    apply hnew acc.nextUid hinv.next_pos (Int32.le_of_lt hlt) hlt
    . rw [huids]
      simp
    . rw [huids]
      exact fun u hu => mem_tail_append hu
  | delete idx hnames huids hnext =>
    refine ⟨⟨?_, ?_, ?_⟩, ?_⟩
    . rw [hnext]
      exact hinv.next_pos
    . rw [hnext, huids]
      exact fun u hu => hinv.below u (List.mem_of_mem_eraseIdx hu)
    . rw [huids]
      exact fun u hu => hinv.positive u (mem_tail_eraseIdx hu)
    . rw [hnext]
      exact Int32.le_refl acc.nextUid
  | rename idx newname hidx hrename hmodify hnames huids hnext =>
    refine ⟨⟨?_, ?_, ?_⟩, ?_⟩
    . rw [hnext]
      exact hinv.next_pos
    . rw [hnext, huids]
      exact hinv.below
    . rw [huids]
      exact hinv.positive
    . rw [hnext]
      exact Int32.le_refl acc.nextUid
  | renumber idx uid hidx hpos hgive hmodify hnames huids hnext =>
    have hbump := bump_spec acc.nextUid (hg.give _ uid hgive)
    rw [← hnext] at hbump
    apply hnew uid hpos hbump.1 hbump.2
    . rw [huids]
      exact fun u hu => List.mem_or_eq_of_mem_set hu
    . rw [huids]
      intro u hu
      cases huid : acc.uids with
      | nil => simp [huid] at hu
      | cons r us =>
        rw [huid] at hu
        cases idx with
        | zero => exact Or.inl hu
        | succ idx => exact List.mem_or_eq_of_mem_set hu

theorem nextUidAfter_spec (nextUid : Int32) (us : List User) (hus : ∀ u ∈ us, u.uid ≠ maxUid)
    : nextUid ≤ nextUidAfter nextUid us ∧ ∀ u ∈ us, u.uid < nextUidAfter nextUid us := by
  induction us generalizing nextUid with
  | nil => exact ⟨Int32.le_refl nextUid, by simp⟩
  | cons u us ih =>
    have hbump := bump_spec nextUid (hus u List.mem_cons_self)
    have ih := ih (if nextUid ≤ u.uid then u.uid + 1 else nextUid)
      (fun v hv => hus v (List.mem_cons_of_mem u hv))
    unfold nextUidAfter at ih ⊢
    rw [List.foldl_cons]
    refine ⟨Int32.le_trans hbump.1 ih.1, ?_⟩
    intro v hv
    cases hv with
    | head => exact Int32.lt_of_lt_of_le hbump.2 ih.1
    | tail _ hv => exact ih.2 v hv

theorem reload_users (hwf : acc.Wf) {buf : Bytes} (hbuf : buf.length = configStoreSize)
    (hpos : ∀ uid ∈ acc.uids.tail, 0 < uid)
    : (reloadAccounts acc buf).users = ⟨rootName, (acc.user 0).password, 0⟩ :: acc.users.tail
      ∧ (reloadAccounts acc buf).nextUid = nextUidAfter 1000 acc.users.tail := by
  have hsame : repairUids 1 acc.users.tail = acc.users.tail := by
    apply repairUids_eq_self
    intro u hu
    apply hpos
    unfold Accounts.uids
    rw [← List.map_tail]
    exact List.mem_map_of_mem hu
  obtain ⟨husers, hnext, _, _⟩ := loadGroups_users (usersLoaded acc) acc.groups
  rw [reloadAccounts_eq hwf hbuf, husers, hnext]
  unfold usersLoaded
  rw [hsame]
  exact ⟨rfl, rfl⟩

theorem UidsBelow.reload (hwf : acc.Wf) {buf : Bytes} (hbuf : buf.length = configStoreSize)
    (hinv : UidsBelow acc)
    : UidsBelow (reloadAccounts acc buf) := by
  obtain ⟨husers, hnext⟩ := reload_users hwf hbuf hinv.positive
  have hmem : ∀ u ∈ acc.users.tail, u.uid ∈ acc.uids :=
    fun u hu => List.mem_map_of_mem (List.mem_of_mem_tail hu)
  have hspec := nextUidAfter_spec 1000 acc.users.tail
    (fun u hu => ne_maxUid_of_lt (hinv.below u.uid (hmem u hu)))
  have hnpos : 0 < nextUidAfter 1000 acc.users.tail := Int32.lt_of_lt_of_le (by decide) hspec.1
  refine ⟨?_, ?_, ?_⟩
  . rw [hnext]
    exact hnpos
  . rw [hnext, Accounts.uids, husers, List.map_cons]
    intro uid huid
    cases huid with
    | head => exact hnpos
    | tail _ huid =>
      obtain ⟨u, hu, rfl⟩ := List.mem_map.mp huid
      exact hspec.2 u hu
  . rw [Accounts.uids, husers, List.map_cons, List.tail_cons, List.map_tail]
    exact hinv.positive

theorem UidsBelow.boot : UidsBelow bootAccounts where
  next_pos := by decide
  below := by
    intro uid huid
    rw [show bootAccounts.uids = [0] from rfl, List.mem_singleton] at huid
    rw [huid]
    decide
  positive := by simp [bootAccounts, Accounts.uids]

end Uids

section Unique

/--
A name and a uid denote one account.
-/
structure Unique (acc : Accounts) : Prop where
  named : ∀ u ∈ acc.users, u.username ≠ []
  usernames : acc.usernames.Nodup
  uids : acc.uids.Nodup

/--
The first 31 bytes of a new name are not the name of another account, a uid that is given is not the
one of another account, and `next_uid` does not wrap around.
-/
def uniqueGuard : Guard where
  addUser := fun acc name => name.take (maxUsername - 1) ∉ acc.usernames
  rename := fun acc idx newname => newname.take (maxUsername - 1) ∉ acc.usernames.eraseIdx idx
  giveUid := fun others uid => uid ∉ others ∧ uid ≠ maxUid
  takeUid := fun uid => uid ≠ maxUid
  addGroup := fun _ _ => True
  modifyRoot := True
  short := by
    intro acc name hlen hfree
    rwa [List.take_of_length_le (by omega)]

theorem uniqueGuard_noWrap : uniqueGuard.NoWrap :=
  ⟨fun _ _ h => h.2, fun _ h => h⟩

theorem nodup_concat {α : Type} {xs : List α} {x : α} (h : xs.Nodup) (hx : x ∉ xs) : (xs ++ [x]).Nodup := by
  rw [List.nodup_append]
  refine ⟨h, by simp, ?_⟩
  rintro a ha b hb rfl
  rw [List.mem_singleton] at hb
  exact hx (hb ▸ ha)

theorem nodup_set {α : Type} {xs : List α} {x : α} {i : Nat} (h : xs.Nodup) (hi : i < xs.length)
    (hx : x ∉ xs.eraseIdx i)
    : (xs.set i x).Nodup := by
  rw [(set_perm hi).nodup_iff, List.nodup_cons]
  exact ⟨hx, h.sublist (List.eraseIdx_sublist xs i)⟩

/--
The part of `Unique` that is about the lists of names and uids.
-/
structure UniqueIds (acc : Accounts) : Prop where
  below : UidsBelow acc
  usernames : acc.usernames.Nodup
  uids : acc.uids.Nodup

theorem UniqueIds.change (h : IdChange uniqueGuard acc acc') (hinv : UniqueIds acc) : UniqueIds acc' := by
  refine ⟨(hinv.below.change uniqueGuard_noWrap h).1, ?_, ?_⟩
  . cases h with
    | same hnames => exact hnames ▸ hinv.usernames
    | give name uid hpos hadd hgive hnames => exact hnames ▸ nodup_concat hinv.usernames hadd
    | take name hadd htake hnames => exact hnames ▸ nodup_concat hinv.usernames hadd
    | delete idx hnames => exact hnames ▸ hinv.usernames.sublist (List.eraseIdx_sublist _ _)
    | rename idx newname hidx hrename hmodify hnames =>
      exact hnames ▸ nodup_set hinv.usernames (by simpa [Accounts.usernames] using hidx) hrename
    | renumber idx uid hidx hpos hgive hmodify hnames => exact hnames ▸ hinv.usernames
  . cases h with
    | same hnames huids => exact huids ▸ hinv.uids
    | give name uid hpos hadd hgive hnames huids => exact huids ▸ nodup_concat hinv.uids hgive.1
    | take name hadd htake hnames huids =>
      rw [huids]
      apply nodup_concat hinv.uids
      exact fun hmem => Int32.lt_irrefl (hinv.below.below _ hmem)
    | delete idx hnames huids => exact huids ▸ hinv.uids.sublist (List.eraseIdx_sublist _ _)
    | rename idx newname hidx hrename hmodify hnames huids => exact huids ▸ hinv.uids
    | renumber idx uid hidx hpos hgive hmodify hnames huids =>
      exact huids ▸ nodup_set hinv.uids (by simpa [Accounts.uids] using hidx) hgive.1

theorem UniqueIds.reload (hwf : acc.Wf) {buf : Bytes} (hbuf : buf.length = configStoreSize)
    (hinv : UniqueIds acc)
    : UniqueIds (reloadAccounts acc buf) := by
  obtain ⟨husers, _⟩ := reload_users hwf hbuf hinv.below.positive
  refine ⟨hinv.below.reload hwf hbuf, ?_, ?_⟩
  . rw [Accounts.usernames, husers, List.map_cons, List.nodup_cons]
    refine ⟨?_, ?_⟩
    . rw [List.mem_map]
      rintro ⟨u, hu, heq⟩
      exact hwf.root_first u hu heq
    . rw [List.map_tail]
      exact hinv.usernames.tail
  . rw [Accounts.uids, husers, List.map_cons, List.nodup_cons, List.map_tail]
    refine ⟨?_, hinv.uids.tail⟩
    exact fun hmem => Int32.lt_irrefl (hinv.below.positive 0 hmem)

theorem accounts_unique (h : AccountRun (AccountCall.Meets uniqueGuard) bootAccounts acc)
    : Unique acc := by
  have hinv : acc.Wf ∧ UniqueIds acc := by
    apply h.keeps (I := fun acc => acc.Wf ∧ UniqueIds acc)
    . intro acc acc' hchange hinv
      exact ⟨hchange.wf hinv.1, hinv.2.change hchange.ids⟩
    . intro acc buf hbuf hinv
      exact ⟨reloadAccounts_wf hinv.1 hbuf, hinv.2.reload hinv.1 hbuf⟩
    . exact ⟨bootAccounts_wf, .boot, by decide, by decide⟩
  exact ⟨fun u hu => (hinv.1.username u hu).2, hinv.2.usernames, hinv.2.uids⟩

theorem accounts_unique_useradd : Unique accountA := by
  apply accounts_unique
  refine .single ⟨useraddA, ?_, useraddA_step⟩
  intro name o hrequest _ _
  obtain ⟨rfl, rfl⟩ := useraddA_request hrequest
  refine ⟨?_, fun hpos => absurd hpos (by decide), fun _ => ?_⟩
  . show [97].take (maxUsername - 1) ∉ bootAccounts.usernames
    decide
  . show bootAccounts.nextUid ≠ maxUid
    decide

/--
`useradd -u 1000 -p x b`
-/
def useraddB : AccountCall :=
  ⟨rootSession, .useradd (typed [45, 117, 32, 49, 48, 48, 48, 32, 45, 112, 32, 120, 32, 98] (by decide))⟩

theorem uid_given_twice
    : ¬∀ acc, AccountRun (fun _ _ => True) bootAccounts acc → Unique acc := by
  intro h
  have hstep : useraddB.Step accountA { accountA with
      users := [⟨rootName, [], 0⟩, ⟨[97], [120], 1000⟩, ⟨[98], [120], 1000⟩] } := by
    decide +kernel
  have hrun : AccountRun (fun _ _ => True) bootAccounts accountA :=
    .single ⟨useraddA, trivial, useraddA_step⟩
  have huids := (h _ (hrun.call hstep trivial)).uids
  exact absurd huids (by decide)

end Unique

section History

structure HeldState where
  acc : Accounts
  held : List Int32

def HeldStep (c : AccountCall) (s s' : HeldState) : Prop :=
  c.Step s.acc s'.acc ∧ s'.held = s.held ++ s'.acc.uids

def heldBoot : HeldState :=
  ⟨bootAccounts, bootAccounts.uids⟩

/--
The uids of the accounts that `c` creates and that are not given with `-u`.
-/
def AccountCall.taken (c : AccountCall) (acc acc' : Accounts) : List Int32 :=
  match c.cmd with
  | .setupWizard _ => acc'.uids.drop acc.users.length
  | .useradd input =>
    match useraddRequest c.cur acc input with
    | some (_, o) => if 0 < o.uid then [] else acc'.uids.drop acc.users.length
    | none => []
  | _ => []

/--
No account that is created without `-u` gets a uid that has been used.
-/
def Fresh (c : AccountCall) (s s' : HeldState) : Prop :=
  (c.taken s.acc s'.acc).Nodup ∧ ∀ uid ∈ c.taken s.acc s'.acc, uid ∉ s.held

def wrapGuard : Guard where
  addUser := fun _ _ => True
  rename := fun _ _ _ => True
  giveUid := fun _ uid => uid ≠ maxUid
  takeUid := fun uid => uid ≠ maxUid
  addGroup := fun _ _ => True
  modifyRoot := True
  short := fun _ _ _ _ => trivial

/--
`next_uid` does not wrap around, and when the table is saved for a boot, no uid from 1000 on has been
higher than those of the users that are left.
-/
def HeldOk (s : HeldState) (c : AccountCall) : Prop :=
  c.Meets wrapGuard s.acc
    ∧ ∀ buf, c.cmd = .reload buf → ∀ uid ∈ s.held, uid < 1000 ∨ ∃ u ∈ s.acc.users.tail, uid ≤ u.uid

structure HeldBelow (s : HeldState) : Prop where
  wf : s.acc.Wf
  below : UidsBelow s.acc
  held : ∀ uid ∈ s.held, uid < s.acc.nextUid

theorem HeldBelow.step {c : AccountCall} {s s' : HeldState} (hok : HeldOk s c) (hinv : HeldBelow s)
    (h : HeldStep c s s')
    : HeldBelow s' := by
  obtain ⟨hstep, hheld⟩ := h
  have hadd : UidsBelow s'.acc → (∀ uid ∈ s.held, uid < s'.acc.nextUid) →
      ∀ uid ∈ s'.held, uid < s'.acc.nextUid := by
    intro hbelow hold uid huid
    rw [hheld, List.mem_append] at huid
    cases huid with
    | inl huid => exact hold uid huid
    | inr huid => exact hbelow.below uid huid
  cases AccountCall.exec_changes hok.1 hstep with
  | inl hchanges =>
    have hkeeps : (s'.acc.Wf ∧ UidsBelow s'.acc) ∧ s.acc.nextUid ≤ s'.acc.nextUid := by
      apply hchanges.keeps (I := fun acc => (acc.Wf ∧ UidsBelow acc) ∧ s.acc.nextUid ≤ acc.nextUid)
      . intro acc acc' hchange hinv
        obtain ⟨hbelow, hle⟩ := hinv.1.2.change ⟨fun _ _ h => h, fun _ h => h⟩ hchange.ids
        exact ⟨⟨hchange.wf hinv.1.1, hbelow⟩, Int32.le_trans hinv.2 hle⟩
      . exact ⟨⟨hinv.wf, hinv.below⟩, Int32.le_refl _⟩
    obtain ⟨⟨hwf, hbelow⟩, hle⟩ := hkeeps
    exact ⟨hwf, hbelow, hadd hbelow (fun uid huid => Int32.lt_of_lt_of_le (hinv.held uid huid) hle)⟩
  | inr hboot =>
    obtain ⟨buf, hcmd, hacc⟩ := hboot
    have hbelow := hinv.below.reload hinv.wf buf.property
    obtain ⟨_, hnext⟩ := reload_users hinv.wf buf.property hinv.below.positive
    have hspec := nextUidAfter_spec 1000 s.acc.users.tail (fun u hu => ne_maxUid_of_lt
      (hinv.below.below u.uid (List.mem_map_of_mem (List.mem_of_mem_tail hu))))
    rw [← hacc] at hbelow hnext
    refine ⟨hacc ▸ reloadAccounts_wf hinv.wf buf.property, hbelow, hadd hbelow ?_⟩
    intro uid huid
    rw [hnext]
    cases hok.2 buf hcmd uid huid with
    | inl hlow => exact Int32.lt_of_lt_of_le hlow hspec.1
    | inr hhigh =>
      obtain ⟨u, hu, hle⟩ := hhigh
      exact Int32.lt_of_le_of_lt hle (hspec.2 u hu)

theorem add_ofNat_succ (nextUid : Int32) (k : Nat)
    : nextUid + Int32.ofNat (k + 1) = nextUid + Int32.ofNat k + 1 := by
  rw [Int32.ofNat_add, Int32.add_assoc]
  rfl

theorem add_ofNat_lt {nextUid : Int32} {k n : Nat} (hwrap : ∀ j < n, nextUid + Int32.ofNat j ≠ maxUid)
    (hk : k < n)
    : nextUid + Int32.ofNat k < nextUid + Int32.ofNat n := by
  induction n with
  | zero => contradiction
  | succ n ih =>
    rw [add_ofNat_succ]
    have hlt := lt_add_one (hwrap n (by omega))
    by_cases heq : k = n
    . rw [heq]
      exact hlt
    . exact Int32.lt_trans (ih (fun j hj => hwrap j (by omega)) (by omega)) hlt

theorem userAddFull_uids (acc : Accounts) (name password : Bytes) (uid : Int32) (huid : ¬0 < uid)
    : (userAddFull acc name password uid).2.1 = acc
      ∨ acc.users.length < maxUsers
        ∧ (userAddFull acc name password uid).2.1.uids = acc.uids ++ [acc.nextUid]
        ∧ (userAddFull acc name password uid).2.1.users.length = acc.users.length + 1
        ∧ (userAddFull acc name password uid).2.1.nextUid = acc.nextUid + 1 := by
  by_cases hname : name = []
  . simp [userAddFull, hname]
  . by_cases hfind : name ∈ acc.usernames
    . rw [← Accounts.userFind_isSome hname] at hfind
      simp [userAddFull, hname, hfind]
    . by_cases hroom : acc.users.length < maxUsers
      . right
        rw [userAddFull_eq hname hfind hroom]
        simp [Accounts.uids, huid, hroom]
      . left
        rw [← Accounts.userFind_isSome hname] at hfind
        unfold userAddFull
        rw [if_neg hname, if_neg hfind, if_pos (by omega)]

theorem askUsers_uids {fuel : Nat} {typed rest : List CStr} {ops ops' : List HomeOp}
    (h : askUsers acc ops fuel typed = some (acc', ops', rest))
    : ∃ n, n ≤ maxUsers - acc.users.length
      ∧ acc'.uids = acc.uids ++ (List.range n).map (fun k => acc.nextUid + Int32.ofNat k) := by
  fun_induction askUsers acc ops fuel typed with
  | case1 => contradiction
  | case2 => contradiction
  | case3 acc =>
    simp only [Option.some.injEq, Prod.mk.injEq] at h
    exact ⟨0, by omega, by simp [h.1]⟩
  | case4 _ _ _ _ _ _ _ _ ih => exact ih h
  | case5 => contradiction
  | case6 => contradiction
  | case7 acc ops fuel line typed ans _ _ name typed₁ hlogin pass typed₂ hpass _ acc₁ home hadd ih =>
    obtain ⟨n, hn, huids⟩ := ih h
    have hacc : acc₁ = (userAddFull acc name pass 0).2.1 := by
      rw [← userAdd, hadd]
    cases userAddFull_uids acc name pass 0 (by decide) with
    | inl hsame =>
      rw [hsame] at hacc
      rw [hacc] at hn huids
      exact ⟨n, hn, huids⟩
    | inr hnew =>
      rw [← hacc] at hnew
      obtain ⟨hroom, hnuids, hlen, hnext⟩ := hnew
      refine ⟨n + 1, by omega, ?_⟩
      rw [huids, hnuids, hnext, List.range_succ_eq_map, List.map_cons, List.map_map, List.append_assoc]
      congr 1
      simp only [List.singleton_append, Function.comp_def, Nat.succ_eq_add_one]
      congr 1
      . simp
      . apply List.map_congr_left
        intro k _
        rw [add_ofNat_succ, Int32.add_assoc, Int32.add_comm 1, ← Int32.add_assoc]

theorem setupWizard_uids {typed : List CStr} {ops : List HomeOp}
    (h : setupWizard acc typed = some (acc', ops))
    : ∃ n, n ≤ maxUsers - acc.users.length
      ∧ acc'.uids = acc.uids ++ (List.range n).map (fun k => acc.nextUid + Int32.ofNat k) := by
  unfold setupWizard at h
  split at h
  . contradiction
  . next acc₁ typed₁ hask =>
    obtain ⟨pw, hpw, hset⟩ := askRootPassword_eq hask
    split at h
    . contradiction
    . contradiction
    . next acc₂ ops₂ line typed₂ husers =>
      simp only [Option.some.injEq, Prod.mk.injEq] at h
      obtain ⟨n, hn, huids⟩ := askUsers_uids husers
      have hroot : acc₁.uids = acc.uids := by
        rw [hset]
        exact uids_modifyUser 0 (fun _ => rfl)
      have hlen : acc₁.users.length = acc.users.length := by
        simpa [Accounts.uids] using congrArg List.length hroot
      rw [hroot, hset] at huids
      rw [← h.1]
      exact ⟨n, by omega, huids⟩

theorem cmdUseradd_uids {cur : Session} {input : CmdInput} {ops : List HomeOp} {name : Bytes}
    {o : UseraddArgs} (h : cmdUseradd cur acc input = some (acc', ops))
    (hrequest : useraddRequest cur acc input = some (name, o)) (huid : ¬0 < o.uid)
    : acc' = acc ∨ acc'.uids = acc.uids ++ [acc.nextUid] := by
  have hadd : ∀ pass, some (userAddFull acc name pass o.uid).2 = some (acc', ops) →
      acc' = acc ∨ acc'.uids = acc.uids ++ [acc.nextUid] := by
    intro pass heq
    have hacc := congrArg Prod.fst (Option.some.inj heq)
    dsimp only at hacc
    rw [← hacc]
    cases userAddFull_uids acc name pass o.uid huid with
    | inl hsame => exact Or.inl hsame
    | inr hnew => exact Or.inr hnew.2.1
  unfold cmdUseradd at h
  rw [hrequest] at h
  dsimp only at h
  split at h
  . exact hadd _ h
  . contradiction
  . split at h
    . simp only [Option.some.injEq, Prod.mk.injEq] at h
      exact Or.inl h.1.symm
    . exact hadd _ h

theorem HeldBelow.fresh {c : AccountCall} {s s' : HeldState} (hok : HeldOk s c) (hinv : HeldBelow s)
    (h : HeldStep c s s')
    : Fresh c s s' := by
  have hnew : ∀ uid, s.acc.nextUid ≤ uid → uid ∉ s.held :=
    fun uid hle hmem => Int32.lt_irrefl (Int32.lt_of_lt_of_le (hinv.held uid hmem) hle)
  have hlen : s.acc.users.length = s.acc.uids.length := by
    simp [Accounts.uids]
  obtain ⟨hstep, _⟩ := h
  obtain ⟨cur, cmd⟩ := c
  unfold Fresh AccountCall.taken
  unfold AccountCall.Step AccountCall.exec AccountCall.result at hstep
  cases cmd with
  | setupWizard typed =>
    rw [Option.map_eq_some_iff] at hstep
    obtain ⟨⟨acc', ops⟩, hwizard, hacc⟩ := hstep
    obtain ⟨n, hn, huids⟩ := setupWizard_uids hwizard
    have hwrap : ∀ j < n, s.acc.nextUid + Int32.ofNat j ≠ maxUid := by
      intro j hj
      exact hok.1 j (by omega)
    dsimp only at hacc ⊢
    rw [← hacc, huids, hlen, List.drop_left]
    refine ⟨?_, ?_⟩
    . rw [List.Nodup, List.pairwise_map]
      apply List.Pairwise.imp_of_mem _ List.pairwise_lt_range
      intro i j _ hj hij heq
      have hlt := add_ofNat_lt (n := j) (fun k hk => hwrap k (by rw [List.mem_range] at hj; omega)) hij
      rw [heq] at hlt
      exact Int32.lt_irrefl hlt
    . intro uid huid
      rw [List.mem_map] at huid
      obtain ⟨k, hk, rfl⟩ := huid
      apply hnew
      rw [List.mem_range] at hk
      cases k with
      | zero => simp
      | succ k =>
        have hlt := add_ofNat_lt (k := 0) (n := k + 1) (fun j hj => hwrap j (by omega)) (by omega)
        have hle := Int32.le_of_lt hlt
        simpa using hle
  | useradd input =>
    rw [Option.map_eq_some_iff] at hstep
    obtain ⟨⟨acc', ops⟩, huseradd, hacc⟩ := hstep
    dsimp only at hacc ⊢
    rw [← hacc]
    split
    . next name o hrequest =>
      split
      . simp
      . next huid =>
        cases cmdUseradd_uids huseradd hrequest huid with
        | inl hsame =>
          rw [hsame, hlen, List.drop_length]
          simp
        | inr huids =>
          rw [huids, hlen, List.drop_left]
          exact ⟨by simp, by simpa using hnew _ (Int32.le_refl _)⟩
    . simp
  | promptRootPassword => simp
  | userdel => simp
  | usermod => simp
  | groupadd => simp
  | groupdel => simp
  | passwd => simp
  | hostname => simp
  | reload => simp

theorem heldBoot_below : HeldBelow heldBoot :=
  ⟨bootAccounts_wf, .boot, UidsBelow.boot.below⟩

theorem uids_handed_out_once {s s' : HeldState} {c : AccountCall} (hrun : Run HeldStep HeldOk heldBoot s)
    (hok : HeldOk s c) (h : HeldStep c s s')
    : Fresh c s s' := by
  have hinv : HeldBelow s := hrun.keeps (fun _ _ _ hok hinv hstep => hinv.step hok hstep) heldBoot_below
  exact hinv.fresh hok h

theorem uids_handed_out_once_useradd : Fresh useraddA heldBoot ⟨accountA, [0, 0, 1000]⟩ := by
  apply uids_handed_out_once .refl _ ⟨useraddA_step, rfl⟩
  refine ⟨?_, fun buf hcmd => nomatch hcmd⟩
  intro name o hrequest _ _
  obtain ⟨rfl, rfl⟩ := useraddA_request hrequest
  refine ⟨trivial, fun hpos => absurd hpos (by decide), fun _ => ?_⟩
  show bootAccounts.nextUid ≠ maxUid
  decide

/--
`userdel a`
-/
def userdelA : AccountCall :=
  ⟨rootSession, .userdel (typed [97] (by decide))⟩

def reboot : AccountCall :=
  ⟨rootSession, .reload ⟨List.replicate configStoreSize 0, List.length_replicate⟩⟩

/--
`useradd -p x b`
-/
def useraddNext : AccountCall :=
  ⟨rootSession, .useradd (typed [45, 112, 32, 120, 32, 98] (by decide))⟩

/--
The uid of an account that has been deleted is handed out again after a boot.
-/
theorem uid_handed_out_again
    : ¬∀ s s' c, Run HeldStep (fun _ _ => True) heldBoot s → HeldStep c s s' → Fresh c s s' := by
  intro h
  have hdel : userdelA.Step accountA { bootAccounts with nextUid := 1001 } := by
    decide +kernel
  have hboot : reboot.Step { bootAccounts with nextUid := 1001 } bootAccounts := by
    have hwf : Accounts.Wf { bootAccounts with nextUid := 1001 } :=
      bootAccounts_wf.users bootAccounts_wf.users_pos bootAccounts_wf.users_le bootAccounts_wf.username
        bootAccounts_wf.password bootAccounts_wf.root_first
    unfold AccountCall.Step AccountCall.exec AccountCall.result reboot
    rw [Option.map_some, reloadAccounts_eq hwf List.length_replicate]
    rfl
  have hnext : useraddNext.Step bootAccounts
      { accountA with users := [⟨rootName, [], 0⟩, ⟨[98], [120], 1000⟩] } := by
    decide +kernel
  have hrun : Run HeldStep (fun _ _ => True) heldBoot ⟨bootAccounts, [0, 0, 1000, 0, 0]⟩ := by
    have hadded : Run HeldStep (fun _ _ => True) heldBoot ⟨accountA, [0, 0, 1000]⟩ :=
      .single ⟨useraddA, trivial, useraddA_step, rfl⟩
    have hdeleted : Run HeldStep (fun _ _ => True) heldBoot
        ⟨{ bootAccounts with nextUid := 1001 }, [0, 0, 1000, 0]⟩ :=
      hadded.tail ⟨userdelA, trivial, hdel, rfl⟩
    exact hdeleted.tail ⟨reboot, trivial, hboot, rfl⟩
  have hfresh := (h _ ⟨_, [0, 0, 1000, 0, 0, 0, 1000]⟩ useraddNext hrun ⟨hnext, rfl⟩).2
  have hrequest : useraddRequest rootSession bootAccounts (typed [45, 112, 32, 120, 32, 98] (by decide))
      = some ([98], { pass := some [120], name := some [98] }) := by
    decide +kernel
  have htaken : useraddNext.taken bootAccounts
      { accountA with users := [⟨rootName, [], 0⟩, ⟨[98], [120], 1000⟩] } = [1000] := by
    unfold AccountCall.taken useraddNext
    dsimp only
    rw [hrequest]
    rfl
  rw [htaken] at hfresh
  exact hfresh 1000 (by simp) (by decide)

end History

end TanjaOS
