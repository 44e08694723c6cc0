import Mathlib.Data.Option.Basic
import TanjaOS.Lib.Run
import TanjaOS.Account.Lemmas

/-!
Runs of account commands. Each command is a sequence of the same few changes, and what is to be
known about all runs is shown for these.
-/

open Lib

namespace TanjaOS

inductive AccountCmd where
  | setupWizard (typed : List CStr)
  | promptRootPassword (typed : List CStr)
  | useradd (input : CmdInput)
  | userdel (input : CmdInput)
  | usermod (input : CmdInput)
  | groupadd (input : CmdInput)
  | groupdel (input : CmdInput)
  | passwd (input : CmdInput)
  | hostname (input : CmdInput)
  /-- Save, boot and load. `buf` is the buffer that the table is saved in. -/
  | reload (buf : { b : Bytes // b.length = configStoreSize })

structure AccountCall where
  cur : Session
  cmd : AccountCmd

/--
The table after a boot that finds the one that `acc` was saved as.
-/
def reloadAccounts (acc : Accounts) (buf : Bytes) : Accounts :=
  (configDeserialize bootAccounts (configSerialize acc buf).2).2

def AccountCall.result (c : AccountCall) (acc : Accounts) : CmdResult :=
  match c.cmd with
  | .setupWizard typed => setupWizard acc typed
  | .promptRootPassword typed => promptRootPassword acc typed
  | .useradd input => cmdUseradd c.cur acc input
  | .userdel input => cmdUserdel c.cur acc input
  | .usermod input => cmdUsermod c.cur acc input
  | .groupadd input => cmdGroupadd c.cur acc input
  | .groupdel input => cmdGroupdel c.cur acc input
  | .passwd input => cmdPasswd c.cur acc input
  | .hostname input => cmdHostname acc input
  | .reload buf => some (reloadAccounts acc buf.val, [])

def AccountCall.exec (c : AccountCall) (acc : Accounts) : Option Accounts :=
  (c.result acc).map Prod.fst

def AccountCall.Step (c : AccountCall) (acc acc' : Accounts) : Prop :=
  c.exec acc = some acc'

instance (c : AccountCall) (acc acc' : Accounts) : Decidable (c.Step acc acc') :=
  inferInstanceAs (Decidable (c.exec acc = some acc'))

abbrev AccountRun (ok : Accounts → AccountCall → Prop) : Accounts → Accounts → Prop :=
  Run AccountCall.Step ok

structure Guard where
  /-- An account with this name is created. -/
  addUser : Accounts → Bytes → Prop
  /-- User `idx` gets this name. -/
  rename : Accounts → Nat → Bytes → Prop
  /-- A uid that is given with `-u`, and the uids of the other accounts. -/
  giveUid : List Int32 → Int32 → Prop
  /-- A uid that is taken from `next_uid`. -/
  takeUid : Int32 → Prop
  addGroup : Accounts → Bytes → Prop
  /-- `-l` and `-u` for the first account. -/
  modifyRoot : Prop
  /-- Names that are not cut off have been checked. -/
  short : ∀ acc name, name.length < maxUsername → name ∉ acc.usernames → addUser acc name

/--
A call that is not refused has arguments that are fine with `g`.
-/
def AccountCall.Meets (g : Guard) (acc : Accounts) (c : AccountCall) : Prop :=
  match c.cmd with
  | .setupWizard _ => ∀ k < maxUsers - acc.users.length, g.takeUid (acc.nextUid + Int32.ofNat k)
  | .useradd input =>
    ∀ name o, useraddRequest c.cur acc input = some (name, o) → acc.users.length < maxUsers →
      (o.pass = none → ∀ line ∈ input.typed.head?, readLine maxPassword line.val ≠ []) →
      g.addUser acc name ∧ (0 < o.uid → g.giveUid acc.uids o.uid)
        ∧ (¬0 < o.uid → g.takeUid acc.nextUid)
  | .usermod input =>
    ∀ r, usermodRequest c.cur acc input = some r →
      (∀ newname ∈ r.args.newname, g.rename acc r.idx newname ∧ (r.idx = 0 → g.modifyRoot))
      ∧ (0 < r.args.uid →
        g.giveUid (acc.uids.eraseIdx r.idx) r.args.uid ∧ (r.idx = 0 → g.modifyRoot))
  | .groupadd input =>
    c.cur.curUid = 0 → ∀ name ∈ firstArg input, acc.groupFind name = none →
      acc.groups.length < maxGroups → g.addGroup acc name
  | _ => True

inductive Change (g : Guard) : Accounts → Accounts → Prop where
  | addUser {acc : Accounts} (name password : Bytes) (uid : Int32) (hname : WordOk name)
    (hroot : name ≠ rootName) (hpassword : 0 ∉ password) (hfind : name ∉ acc.usernames)
    (hroom : acc.users.length < maxUsers) (hadd : g.addUser acc name)
    (hgive : 0 < uid → g.giveUid acc.uids uid) (htake : ¬0 < uid → g.takeUid acc.nextUid)
    : Change g acc (userAddFull acc name password uid).2.1
  | delUser {acc : Accounts} (name : Bytes) (idx : Nat) (hfind : acc.userFind name = some (idx + 1))
    : Change g acc { acc with
        users := acc.users.eraseIdx (idx + 1)
        groups := acc.groups.map (groupMemberRemove · name) }
  | rename {acc : Accounts} (idx : Nat) (name newname : Bytes) (hfind : acc.userFind name = some idx)
    (hname : WordOk newname) (hroot : newname ≠ rootName) (hfree : newname ∉ acc.usernames)
    (hrename : g.rename acc idx newname) (hmodify : idx = 0 → g.modifyRoot)
    : Change g acc (renameUser acc idx name newname)
  | password {acc : Accounts} (idx : Nat) (f : Bytes → Bytes)
    (hf : ∀ pw, TextOk maxPassword pw → TextOk maxPassword (f pw))
    : Change g acc (acc.modifyUser idx (fun u => { u with password := f u.password }))
  | uid {acc : Accounts} (idx : Nat) (uid : Int32) (hidx : idx < acc.users.length) (hpos : 0 < uid)
    (hgive : g.giveUid (acc.uids.eraseIdx idx) uid) (hmodify : idx = 0 → g.modifyRoot)
    : Change g acc (setUid acc idx uid).1
  | leave {acc : Accounts} (name : Bytes)
    : Change g acc { acc with groups := acc.groups.map (groupMemberRemove · name) }
  | join {acc : Accounts} (gi : Nat) (name : Bytes) (hname : name ∈ acc.usernames)
    : Change g acc { acc with groups := acc.groups.modify gi (groupMemberAdd · name) }
  | addGroup {acc : Accounts} (name : Bytes) (hname : WordOk name)
    (hfree : name ∉ acc.groups.map Group.name) (hroom : acc.groups.length < maxGroups)
    (hadd : g.addGroup acc name)
    : Change g acc { acc with groups := acc.groups ++ [⟨name.take (maxUsername - 1), []⟩] }
  | delGroup {acc : Accounts} (gi : Nat)
    : Change g acc { acc with groups := acc.groups.eraseIdx gi }
  | config {acc : Accounts} (hostname : Bytes) (isSetup : Bool) (hhost : TextOk maxHostname hostname)
    : Change g acc { acc with hostname := hostname, isSetup := isSetup }

abbrev Changes (g : Guard) : Accounts → Accounts → Prop :=
  Relation.ReflTransGen (Change g)

namespace Changes

variable {g : Guard} {acc acc' : Accounts}

theorem single (h : Change g acc acc') : Changes g acc acc' :=
  Relation.ReflTransGen.single h

theorem setPassword {pass : Bytes} (idx : Nat) (hpass : 0 ∉ pass)
    : Changes g acc (setPassword acc idx pass) :=
  single (.password idx (fun _ => pass.take (maxPassword - 1)) (fun _ _ => .take (by decide) hpass))

theorem lockUser (idx : Nat) : Changes g acc (lockUser acc idx) := by
  unfold TanjaOS.lockUser
  split
  . exact .refl
  . refine single (.password idx (fun pw => bang :: pw.take (maxPassword - 2)) ?_)
    intro pw hpw
    refine ⟨?_, ?_⟩
    . rw [List.length_cons, List.length_take]
      unfold maxPassword
      omega
    . rw [List.mem_cons]
      rintro (hnul | hnul)
      . contradiction
      . exact hpw.no_nul (List.mem_of_mem_take hnul)

theorem unlockUser (idx : Nat) : Changes g acc (unlockUser acc idx) := by
  unfold TanjaOS.unlockUser
  split
  . refine single (.password idx List.tail ?_)
    intro pw hpw
    refine ⟨?_, fun hnul => hpw.no_nul (List.mem_of_mem_tail hnul)⟩
    have := hpw.length_lt
    rw [List.length_tail]
    omega
  . exact .refl

theorem setGroups {idx : Nat} (hidx : idx < acc.users.length) (appendGroups : Bool)
    (names : List Bytes)
    : Changes g acc (setGroups acc idx appendGroups names) := by
  have hfold : ∀ (name : Bytes) (names : List Bytes) (acc : Accounts), name ∈ acc.usernames →
      Changes g acc (names.foldl (addToGroup name) acc) := by
    intro name names
    induction names with
    | nil =>
      intro acc _
      exact .refl
    | cons gname names ih =>
      intro acc hname
      rw [List.foldl_cons]
      have hjoin : Changes g acc (addToGroup name acc gname) := by
        unfold addToGroup
        split
        . exact .refl
        . next gi _ => exact single (.join gi name hname)
      refine hjoin.trans (ih _ ?_)
      unfold addToGroup
      split
      . exact hname
      . exact hname
  have hname : (acc.user idx).username ∈ acc.usernames :=
    List.mem_map_of_mem (Accounts.user_mem hidx)
  unfold TanjaOS.setGroups
  dsimp only
  cases appendGroups with
  | true => exact hfold _ names acc hname
  | false => exact (single (.leave (acc.user idx).username)).trans (hfold _ names _ hname)

end Changes

section Commands

variable {g : Guard} {acc acc' : Accounts} {cur : Session} {input : CmdInput} {ops : List HomeOp}

section Useradd

theorem userAddFull_changes {name : Bytes} (password : Bytes) {uid : Int32} (hname : WordOk name)
    (hroot : name ≠ rootName) (hpassword : 0 ∉ password)
    (hguard : acc.users.length < maxUsers → g.addUser acc name
      ∧ (0 < uid → g.giveUid acc.uids uid) ∧ (¬0 < uid → g.takeUid acc.nextUid))
    : Changes g acc (userAddFull acc name password uid).2.1 := by
  by_cases hfind : (acc.userFind name).isSome
  . unfold userAddFull
    rw [if_neg hname.ne_nil, if_pos hfind]
  . by_cases hroom : maxUsers ≤ acc.users.length
    . unfold userAddFull
      rw [if_neg hname.ne_nil, if_neg hfind, if_pos hroom]
    . rw [Accounts.userFind_isSome hname.ne_nil] at hfind
      rw [Nat.not_le] at hroom
      obtain ⟨hadd, hgive, htake⟩ := hguard hroom
      exact .single (.addUser name password uid hname hroot hpassword hfind hroom hadd hgive htake)

theorem useraddRequest_ok {name : Bytes} {o : UseraddArgs}
    (h : useraddRequest cur acc input = some (name, o))
    : WordOk name ∧ name ≠ rootName ∧ ∀ pass, o.pass = some pass → WordOk pass := by
  simp only [useraddRequest, Option.bind_eq_bind, Option.bind_eq_some_iff, Option.guard_eq_some', Option.pure_def,
    Option.some.injEq, Prod.mk.injEq] at h
  obtain ⟨_, _, o', hargs, name', hname, _, hroot, _, _, rfl, rfl⟩ := h
  have hok := useraddArgs_ok hargs ⟨by simp, by simp⟩
    (splitArgs_ok (strncpyText_no_nul input.args input.behind))
  exact ⟨hok.name name' hname, hroot, hok.pass⟩

theorem cmdUseradd_changes (hmeets : AccountCall.Meets g acc ⟨cur, .useradd input⟩)
    (h : cmdUseradd cur acc input = some (acc', ops))
    : Changes g acc acc' := by
  unfold cmdUseradd at h
  split at h
  . simp only [Option.some.injEq, Prod.mk.injEq] at h
    rw [h.1]
  . next name o hrequest =>
    obtain ⟨hname, hroot, hpass⟩ := useraddRequest_ok hrequest
    have hguard := hmeets name o hrequest
    split at h
    . next pass hsome =>
      have hadd := userAddFull_changes pass hname hroot (hpass pass hsome).no_nul
        (fun hroom => hguard hroom (by simp [hsome]))
      rwa [Option.some.inj h] at hadd
    . contradiction
    . next line typed _ htyped =>
      dsimp only at h
      split at h
      . simp only [Option.some.injEq, Prod.mk.injEq] at h
        rw [h.1]
      . next hempty =>
        have hadd := userAddFull_changes (readLine maxPassword line) hname hroot
          (fun hnul => line.property (List.mem_of_mem_take hnul))
          (fun hroom => hguard hroom (by simpa [htyped] using fun _ => hempty))
        rwa [Option.some.inj h] at hadd

end Useradd

theorem cmdUserdel_changes (h : cmdUserdel cur acc input = some (acc', ops)) : Changes g acc acc' := by
  have hsame : some (acc, ([] : List HomeOp)) = some (acc', ops) → Changes g acc acc' := by
    intro heq
    rw [(Prod.mk.inj (Option.some.inj heq)).1]
  unfold cmdUserdel at h
  split at h
  . exact hsame h
  . split at h
    . exact hsame h
    . split at h
      . exact hsame h
      . next name _ =>
        split at h
        . exact hsame h
        . unfold userDel at h
          cases hfind : acc.userFind name with
          | none =>
            rw [hfind] at h
            exact hsame h
          | some idx =>
            rw [hfind] at h
            cases idx with
            | zero => exact hsame h
            | succ idx =>
              simp only [ne_eq, not_true_eq_false, ↓reduceIte, Option.some.injEq, Prod.mk.injEq] at h
              rw [← h.1]
              exact .single (.delUser name idx hfind)

section Usermod

theorem uids_modifyUser (idx : Nat) {f : User → User} (hf : ∀ u, (f u).uid = u.uid)
    : (acc.modifyUser idx f).uids = acc.uids := by
  unfold Accounts.uids Accounts.modifyUser
  apply List.ext_getElem?
  intro i
  rw [List.getElem?_map, List.getElem?_map, List.getElem?_modify]
  cases acc.users[i]? with
  | none => rfl
  | some u =>
    by_cases hi : idx = i
    . simp [hi, hf]
    . simp [hi]

structure Edits (g : Guard) (acc acc' : Accounts) : Prop where
  changes : Changes g acc acc'
  length : acc'.users.length = acc.users.length
  uids : acc'.uids = acc.uids

namespace Edits

variable {acc'' : Accounts}

theorem refl (acc : Accounts) : Edits g acc acc :=
  ⟨.refl, rfl, rfl⟩

theorem trans (h : Edits g acc acc') (h' : Edits g acc' acc'') : Edits g acc acc'' :=
  ⟨h.changes.trans h'.changes, by rw [h'.length, h.length], by rw [h'.uids, h.uids]⟩

theorem modifyUser {idx : Nat} {f : User → User} (h : Changes g acc (acc.modifyUser idx f))
    (hf : ∀ u, (f u).uid = u.uid)
    : Edits g acc (acc.modifyUser idx f) :=
  ⟨h, by simp [Accounts.modifyUser], uids_modifyUser idx hf⟩

theorem lockUser (idx : Nat) : Edits g acc (lockUser acc idx) := by
  have hlock : Changes g acc (TanjaOS.lockUser acc idx) := .lockUser idx
  unfold TanjaOS.lockUser at *
  split
  . exact refl acc
  . next hbang =>
    rw [if_neg hbang] at hlock
    exact modifyUser hlock (fun _ => rfl)

theorem unlockUser (idx : Nat) : Edits g acc (unlockUser acc idx) := by
  have hunlock : Changes g acc (TanjaOS.unlockUser acc idx) := .unlockUser idx
  unfold TanjaOS.unlockUser at *
  split
  . next hbang =>
    rw [if_pos hbang] at hunlock
    exact modifyUser hunlock (fun _ => rfl)
  . exact refl acc

end Edits

theorem usermodApply_changes {idx : Nat} {name : Bytes} {o : UsermodArgs} (gnames : List Bytes)
    (ho : o.Ok) (hfind : acc.userFind name = some idx)
    (hfree : ∀ newname, o.newname = some newname → newname ≠ rootName ∧ newname ∉ acc.usernames)
    (hname : ∀ newname, o.newname = some newname →
      g.rename acc idx newname ∧ (idx = 0 → g.modifyRoot))
    (huid : 0 < o.uid → g.giveUid (acc.uids.eraseIdx idx) o.uid ∧ (idx = 0 → g.modifyRoot))
    : Changes g acc (usermodApply acc idx name o gnames).1 := by
  obtain ⟨hidx, _, _⟩ := Accounts.userFind_eq_some hfind
  have hlogin : Edits g acc (o.newname.elim acc (renameUser acc idx name)) := by
    cases hnew : o.newname with
    | none => exact .refl acc
    | some newname =>
      obtain ⟨hroot, hfree⟩ := hfree newname hnew
      obtain ⟨hguard, hmodify⟩ := hname newname hnew
      refine ⟨.single (.rename idx name newname hfind (ho.newname newname hnew) hroot hfree hguard
        hmodify), ?_, uids_modifyUser idx (fun _ => rfl)⟩
      simp [renameUser, Accounts.modifyUser]
  unfold usermodApply
  generalize o.newname.elim acc (renameUser acc idx name) = acc₁ at *
  have hpass : Edits g acc₁ (o.pass.elim acc₁ (setPassword acc₁ idx)) := by
    cases hpass : o.pass with
    | none => exact .refl acc₁
    | some pass => exact .modifyUser (.setPassword idx (ho.pass pass hpass).no_nul) (fun _ => rfl)
  dsimp only
  generalize o.pass.elim acc₁ (setPassword acc₁ idx) = acc₂ at *
  have hedits := hlogin.trans hpass
  have huids : Changes g acc₂ (if 0 < o.uid then setUid acc₂ idx o.uid else (acc₂, [])).1
      ∧ (if 0 < o.uid then setUid acc₂ idx o.uid else (acc₂, [])).1.users.length
          = acc.users.length := by
    split
    . next hpos =>
      obtain ⟨hguard, hmodify⟩ := huid hpos
      have hlen := hedits.length
      rw [← hedits.uids] at hguard
      refine ⟨.single (.uid idx o.uid (by omega) hpos hguard hmodify), ?_⟩
      simpa [setUid, Accounts.modifyUser] using hlen
    . exact ⟨.refl, hedits.length⟩
  generalize (if 0 < o.uid then setUid acc₂ idx o.uid else (acc₂, [])) = r at *
  obtain ⟨acc₃, ops⟩ := r
  refine hedits.changes.trans (huids.1.trans ?_)
  dsimp only at huids ⊢
  split
  . exact .refl
  . have hlock : Edits g acc₃ (if o.lock then lockUser acc₃ idx else acc₃) := by
      split
      . exact .lockUser idx
      . exact .refl acc₃
    generalize (if o.lock then lockUser acc₃ idx else acc₃) = acc₄ at *
    have hunlock : Edits g acc₄ (if o.unlock then unlockUser acc₄ idx else acc₄) := by
      split
      . exact .unlockUser idx
      . exact .refl acc₄
    generalize (if o.unlock then unlockUser acc₄ idx else acc₄) = acc₅ at *
    have hedits := hlock.trans hunlock
    refine hedits.changes.trans ?_
    have hlen := hedits.length
    split
    . exact Changes.setGroups (by omega) o.appendGroups gnames
    . exact .refl

theorem usermodRequest_ok {r : UsermodRequest} (h : usermodRequest cur acc input = some r)
    : r.args.Ok ∧ acc.userFind r.name = some r.idx
      ∧ ∀ newname, r.args.newname = some newname → newname ≠ rootName ∧ newname ∉ acc.usernames := by
  simp only [usermodRequest, Option.bind_eq_bind, Option.bind_eq_some_iff, Option.guard_eq_some', Option.pure_def,
    Option.some.injEq] at h
  obtain ⟨_, _, o, hargs, name, hname, _, _, _, _, idx, hfind, _, hnew, rfl⟩ := h
  have hok := usermodArgs_ok hargs ⟨by simp, by simp, by simp, by simp⟩
    (splitArgs_ok (strncpyText_no_nul input.args input.behind))
  refine ⟨hok, hfind, ?_⟩
  intro newname hnewname
  obtain ⟨hroot, hfree⟩ := hnew newname hnewname
  rw [Accounts.userFind_eq_none (hok.newname newname hnewname).ne_nil] at hfree
  exact ⟨hroot, hfree⟩

theorem cmdUsermod_changes (hmeets : AccountCall.Meets g acc ⟨cur, .usermod input⟩)
    (h : cmdUsermod cur acc input = some (acc', ops))
    : Changes g acc acc' := by
  unfold cmdUsermod at h
  split at h
  . simp only [Option.some.injEq, Prod.mk.injEq] at h
    rw [h.1]
  . next r hrequest =>
    obtain ⟨hok, hfind, hfree⟩ := usermodRequest_ok hrequest
    obtain ⟨hname, huid⟩ := hmeets r hrequest
    have hchanges := usermodApply_changes r.gnames hok hfind hfree hname huid
    rwa [Option.some.inj h] at hchanges

end Usermod

theorem cmdGroupadd_changes (hmeets : AccountCall.Meets g acc ⟨cur, .groupadd input⟩)
    (h : cmdGroupadd cur acc input = some (acc', ops))
    : Changes g acc acc' := by
  have hsame : some (acc, ([] : List HomeOp)) = some (acc', ops) → Changes g acc acc' := by
    intro heq
    rw [(Prod.mk.inj (Option.some.inj heq)).1]
  unfold cmdGroupadd at h
  split at h
  . exact hsame h
  . next hcur =>
    split at h
    . exact hsame h
    . next name hname =>
      split at h
      . exact hsame h
      . next hfind =>
        split at h
        . exact hsame h
        . next hroom =>
          have hword := firstArg_ok hname
          rw [Option.not_isSome_iff_eq_none] at hfind
          rw [Nat.not_le] at hroom
          have hguard := hmeets (not_not.mp hcur) name hname hfind hroom
          rw [Accounts.groupFind_eq_none hword.ne_nil] at hfind
          simp only [Option.some.injEq, Prod.mk.injEq] at h
          rw [← h.1]
          exact .single (.addGroup name hword hfind hroom hguard)

theorem cmdGroupdel_changes (h : cmdGroupdel cur acc input = some (acc', ops)) : Changes g acc acc' := by
  have hsame : some (acc, ([] : List HomeOp)) = some (acc', ops) → Changes g acc acc' := by
    intro heq
    rw [(Prod.mk.inj (Option.some.inj heq)).1]
  unfold cmdGroupdel at h
  split at h
  . exact hsame h
  . split at h
    . exact hsame h
    . split at h
      . exact hsame h
      . next gi _ =>
        simp only [Option.some.injEq, Prod.mk.injEq] at h
        rw [← h.1]
        exact .single (.delGroup gi)

section Passwords

theorem readLine_no_nul {max : Nat} (line : CStr) : 0 ∉ readLine max line.val :=
  fun hnul => line.property (List.mem_of_mem_take hnul)

theorem newPassword_changes {idx tries : Nat} {typed : List CStr}
    (h : newPassword acc idx tries typed = some acc')
    : Changes g acc acc' := by
  fun_induction newPassword acc idx tries typed with
  | case1 acc =>
    rw [Option.some.inj h]
  | case2 => contradiction
  | case3 acc _ line typed pw1 acc₁ =>
    rw [← Option.some.inj h]
    exact .setPassword idx (by simp)
  | case4 => contradiction
  | case5 acc _ line pw1 acc₁ =>
    rw [← Option.some.inj h]
    have hsecond : Changes g acc₁ (setPassword acc₁ idx pw1) := .setPassword idx (readLine_no_nul line)
    exact (Changes.setPassword idx (by simp)).trans hsecond
  | case6 _ _ _ _ _ _ _ _ _ ih =>
    exact (Changes.setPassword idx (by simp)).trans (ih h)

theorem cmdPasswd_changes (h : cmdPasswd cur acc input = some (acc', ops)) : Changes g acc acc' := by
  have hsame : some (acc, ([] : List HomeOp)) = some (acc', ops) → Changes g acc acc' := by
    intro heq
    rw [(Prod.mk.inj (Option.some.inj heq)).1]
  have hnew : ∀ idx tries typed, (newPassword acc idx tries typed).map (·, []) = some (acc', ops) →
      Changes g acc acc' := by
    intro idx tries typed heq
    rw [Option.map_eq_some_iff] at heq
    obtain ⟨acc₁, hnew, heq⟩ := heq
    rw [← (Prod.mk.inj heq).1]
    exact newPassword_changes hnew
  unfold cmdPasswd at h
  dsimp only at h
  split at h
  . exact hsame h
  . split at h
    . exact hsame h
    . split at h
      . split at h
        . contradiction
        . split at h
          . exact hsame h
          . exact hnew _ _ _ h
      . exact hnew _ _ _ h

theorem askRootPassword_eq {typed rest : List CStr} (h : askRootPassword acc typed = some (acc', rest))
    : ∃ pw, 0 ∉ pw ∧ acc' = setPassword acc 0 pw := by
  fun_induction askRootPassword acc typed with
  | case1 => contradiction
  | case2 _ _ _ _ ih => exact ih h
  | case3 => contradiction
  | case4 line pw1 =>
    simp only [Option.some.injEq, Prod.mk.injEq] at h
    exact ⟨pw1, readLine_no_nul line, h.1.symm⟩
  | case5 _ _ _ _ _ _ ih => exact ih h

theorem promptRootPassword_changes {typed : List CStr}
    (h : promptRootPassword acc typed = some (acc', ops))
    : Changes g acc acc' := by
  unfold promptRootPassword at h
  split at h
  . simp only [Option.some.injEq, Prod.mk.injEq] at h
    rw [h.1]
  . rw [Option.map_eq_some_iff] at h
    obtain ⟨⟨acc₁, rest⟩, hask, heq⟩ := h
    obtain ⟨pw, hpw, hset⟩ := askRootPassword_eq hask
    rw [← (Prod.mk.inj heq).1, hset]
    exact .setPassword 0 hpw

end Passwords

section Wizard

theorem askLogin_ok {typed rest : List CStr} {name : Bytes} (h : askLogin acc typed = some (name, rest))
    : WordOk name ∧ name ≠ rootName ∧ name ∉ acc.usernames ∧ name.length < maxUsername := by
  fun_induction askLogin acc typed with
  | case1 => contradiction
  | case2 _ _ _ _ ih => exact ih h
  | case3 line typed login hlogin =>
    simp only [Option.some.injEq, Prod.mk.injEq] at h
    rw [← h.1]
    rw [not_or, not_or] at hlogin
    obtain ⟨hne, hroot, hfind⟩ := hlogin
    rw [Accounts.userFind_isSome hne] at hfind
    refine ⟨⟨hne, readLine_no_nul line⟩, hroot, hfind, ?_⟩
    exact (TextOk.take (by decide) line.property).length_lt

theorem askPassword_no_nul {typed rest : List CStr} {pass : Bytes}
    (h : askPassword typed = some (pass, rest))
    : 0 ∉ pass := by
  fun_induction askPassword typed with
  | case1 => contradiction
  | case2 _ _ _ _ ih => exact ih h
  | case3 => contradiction
  | case4 line =>
    simp only [Option.some.injEq, Prod.mk.injEq] at h
    rw [← h.1]
    exact readLine_no_nul line
  | case5 _ _ _ _ _ _ ih => exact ih h

theorem userAdd_takeUid (name pass : Bytes)
    (htake : ∀ k < maxUsers - acc.users.length, g.takeUid (acc.nextUid + Int32.ofNat k))
    : ∀ k < maxUsers - (userAdd acc name pass).2.1.users.length,
      g.takeUid ((userAdd acc name pass).2.1.nextUid + Int32.ofNat k) := by
  unfold userAdd userAddFull
  split
  . exact htake
  . split
    . exact htake
    . split
      . exact htake
      . intro k hk
        simp only [List.length_append, List.length_cons, List.length_nil] at hk
        have hnext := htake (k + 1) (by omega)
        have hshift : acc.nextUid + 1 + Int32.ofNat k = acc.nextUid + Int32.ofNat (k + 1) := by
          rw [Int32.ofNat_add, Int32.add_assoc, Int32.add_comm 1]
          rfl
        simpa [hshift] using hnext

theorem askUsers_changes {fuel : Nat} {typed rest : List CStr} {ops ops' : List HomeOp}
    (h : askUsers acc ops fuel typed = some (acc', ops', rest))
    (htake : ∀ k < maxUsers - acc.users.length, g.takeUid (acc.nextUid + Int32.ofNat k))
    : Changes g acc acc' := by
  fun_induction askUsers acc ops fuel typed with
  | case1 => contradiction
  | case2 => contradiction
  | case3 acc =>
    simp only [Option.some.injEq, Prod.mk.injEq] at h
    rw [h.1]
  | case4 _ _ _ _ _ _ _ _ ih => exact ih h htake
  | case5 => contradiction
  | case6 => contradiction
  | case7 acc ops fuel line typed ans _ _ name typed₁ hlogin pass typed₂ hpass _ acc₁ home hadd ih =>
    obtain ⟨hname, hroot, hfind, hlen⟩ := askLogin_ok hlogin
    have hnext := userAdd_takeUid name pass htake
    have hchanges : Changes g acc (userAdd acc name pass).2.1 := by
      apply userAddFull_changes _ hname hroot (askPassword_no_nul hpass)
      intro hroom
      have htake := htake 0 (by omega)
      exact ⟨g.short acc name hlen hfind, fun hpos => absurd hpos (by decide), fun _ => by simpa using htake⟩
    rw [hadd] at hnext hchanges
    exact hchanges.trans (ih h hnext)

theorem setupWizard_changes {typed : List CStr}
    (hmeets : AccountCall.Meets g acc ⟨cur, .setupWizard typed⟩)
    (h : setupWizard acc typed = some (acc', ops))
    : Changes g acc acc' := by
  unfold setupWizard at h
  split at h
  . contradiction
  . next acc₁ typed₁ hask =>
    obtain ⟨pw, hpw, hset⟩ := askRootPassword_eq hask
    split at h
    . contradiction
    . contradiction
    . next acc₂ ops₂ line typed₂ husers =>
      have hroot : Changes g acc acc₁ := by
        rw [hset]
        exact .setPassword 0 hpw
      have hadd : Changes g acc₁ acc₂ := by
        apply askUsers_changes husers
        rw [hset]
        unfold AccountCall.Meets at hmeets
        simpa [setPassword, Accounts.modifyUser] using hmeets
      simp only [Option.some.injEq, Prod.mk.injEq] at h
      rw [← h.1]
      exact (hroot.trans hadd).tail (.config (readLine maxHostname line) true
        (.take (by decide) line.property))

end Wizard

theorem cmdHostname_changes (h : cmdHostname acc input = some (acc', ops)) : Changes g acc acc' := by
  unfold cmdHostname at h
  split at h
  . simp only [Option.some.injEq, Prod.mk.injEq] at h
    rw [h.1]
  . simp only [Option.some.injEq, Prod.mk.injEq] at h
    rw [← h.1]
    refine .single (.config _ acc.isSetup (.take (by decide) ?_))
    intro hnul
    exact input.args.property ((List.takeWhile_sublist _).subset hnul)

end Commands

theorem AccountCall.exec_changes {g : Guard} {acc acc' : Accounts} {c : AccountCall}
    (hmeets : c.Meets g acc) (h : c.Step acc acc')
    : Changes g acc acc' ∨ ∃ buf, c.cmd = .reload buf ∧ acc' = reloadAccounts acc buf.val := by
  have hresult : ∀ r : CmdResult, (∀ ops, r = some (acc', ops) → Changes g acc acc') →
      r.map Prod.fst = some acc' → Changes g acc acc' := by
    intro r hr heq
    rw [Option.map_eq_some_iff] at heq
    obtain ⟨⟨acc₁, ops⟩, hsome, rfl⟩ := heq
    exact hr ops hsome
  obtain ⟨cur, cmd⟩ := c
  unfold AccountCall.Step AccountCall.exec AccountCall.result at h
  cases cmd with
  | setupWizard typed => exact Or.inl (hresult _ (fun _ => setupWizard_changes hmeets) h)
  | promptRootPassword typed => exact Or.inl (hresult _ (fun _ => promptRootPassword_changes) h)
  | useradd input => exact Or.inl (hresult _ (fun _ => cmdUseradd_changes hmeets) h)
  | userdel input => exact Or.inl (hresult _ (fun _ => cmdUserdel_changes) h)
  | usermod input => exact Or.inl (hresult _ (fun _ => cmdUsermod_changes hmeets) h)
  | groupadd input => exact Or.inl (hresult _ (fun _ => cmdGroupadd_changes hmeets) h)
  | groupdel input => exact Or.inl (hresult _ (fun _ => cmdGroupdel_changes) h)
  | passwd input => exact Or.inl (hresult _ (fun _ => cmdPasswd_changes) h)
  | hostname input => exact Or.inl (hresult _ (fun _ => cmdHostname_changes) h)
  | reload buf => exact Or.inr ⟨buf, rfl, (Option.some.inj h).symm⟩

theorem Changes.keeps {g : Guard} {I : Accounts → Prop} {acc acc' : Accounts}
    (hchange : ∀ acc acc', Change g acc acc' → I acc → I acc') (h : Changes g acc acc') (hinv : I acc)
    : I acc' := by
  induction h with
  | refl => exact hinv
  | tail _ hlast ih => exact hchange _ _ hlast ih

theorem AccountRun.keeps {g : Guard} {I : Accounts → Prop} {acc acc' : Accounts}
    (hchange : ∀ acc acc', Change g acc acc' → I acc → I acc')
    (hreload : ∀ acc (buf : Bytes), buf.length = configStoreSize → I acc → I (reloadAccounts acc buf))
    (hinit : I acc) (h : AccountRun (AccountCall.Meets g) acc acc')
    : I acc' := by
  apply Lib.Run.keeps _ hinit h
  intro acc c acc' hmeets hinv hstep
  cases AccountCall.exec_changes hmeets hstep with
  | inl hchanges => exact hchanges.keeps hchange hinv
  | inr hboot =>
    obtain ⟨buf, _, rfl⟩ := hboot
    exact hreload acc buf.val buf.property hinv

end TanjaOS
