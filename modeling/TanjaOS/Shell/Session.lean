import TanjaOS.Fs.Run
import TanjaOS.Account.Identity
import TanjaOS.Shell.Impl

/-!
Command lines run other command lines: under `sudo`, from scripts and from programs. Whoever is at
the prompt is the same for the accounts and for the filesystem, unless `su` has been run under `sudo`.
-/

open Lib

namespace TanjaOS

inductive Job where
  | command (line : Bytes)
  | file

inductive Event where
  | builtin (b : Builtin) (input : CmdInput)
  | setupWizard (typed : List CStr)
  | configReset

/--
`Exec ok under job k k'` is a run of `job` from `k` to `k'` in which all events meet `ok`. `under`
says whether a user who is not root runs it with `sudo`. A script or a program is known by what it
asks the kernel for: command lines, filesystem calls as the current user, variables, and the two
account functions that programs are linked with. (Scripts are read while they run, so there is no
saying in advance which lines they have.)
-/
inductive Exec (ok : Bool → Kernel → Event → Prop) : Bool → Job → Kernel → Kernel → Prop where
  | blank {under : Bool} {line : Bytes} {k : Kernel} (hline : splitCommand line = none)
    : Exec ok under (.command line) k k
  | builtin {under : Bool} {line args : Bytes} {k k' : Kernel} (b : Builtin) (behind : CStr)
    (typed : List CStr) (fuel : Nat) (hline : k.resolve line = some (b, args)) (hsudo : b ≠ .sudo)
    (hok : ok under k (.builtin b ⟨cstr args, behind, typed⟩))
    (hrun : k.runBuiltin fuel b ⟨cstr args, behind, typed⟩ = some k')
    : Exec ok under (.command line) k k'
  | sudoRefused {under : Bool} {line args : Bytes} {k : Kernel} {typed rest : List CStr}
    (hline : k.resolve line = some (.sudo, args))
    (hrefused : args = [] ∨ (k.curUid ≠ 0 ∧ k.sudoAllowed typed = some (false, rest)))
    : Exec ok under (.command line) k k
  | sudoRoot {under : Bool} {line args : Bytes} {k k' : Kernel}
    (hline : k.resolve line = some (.sudo, args)) (hargs : args ≠ []) (hroot : k.curUid = 0)
    (hrun : Exec ok under (.command args) k k')
    : Exec ok under (.command line) k k'
  | sudoUser {under : Bool} {line args : Bytes} {k k' : Kernel} {typed rest : List CStr}
    (hline : k.resolve line = some (.sudo, args)) (hargs : args ≠ []) (hroot : k.curUid ≠ 0)
    (hallowed : k.sudoAllowed typed = some (true, rest))
    (hrun : Exec ok true (.command args) (k.withUid 0) k')
    : Exec ok under (.command line) k (k'.withUid k.fs.fsCurUid)
  | notRun {under : Bool} {line name args : Bytes} {k : Kernel}
    (hline : splitCommand line = some (name, args)) (hname : Builtin.named name = none)
    (hfile : ∀ path, k.programFile name = some path → ¬k.execPermOk path)
    : Exec ok under (.command line) k k
  | file {under : Bool} {line name args path : Bytes} {k k' : Kernel}
    (hline : splitCommand line = some (name, args)) (hname : Builtin.named name = none)
    (hpath : k.programFile name = some path) (hperm : k.execPermOk path)
    (hrun : Exec ok under .file k k')
    : Exec ok under (.command line) k k'
  | fileEnd {under : Bool} {k : Kernel} : Exec ok under .file k k
  | fileCommand {under : Bool} {line : Bytes} {k k' k'' : Kernel}
    (hrun : Exec ok under (.command line) k k') (hrest : Exec ok under .file k' k'')
    : Exec ok under .file k k''
  | fileCall {under : Bool} {k k'' : Kernel} {rc : Int} {fs : FsState} (op : FsOp) (fuel : Nat)
    (hcall : op.exec fuel k.fs = some (rc, fs)) (hrest : Exec ok under .file { k with fs := fs } k'')
    : Exec ok under .file k k''
  | fileEnv {under : Bool} {k k'' : Kernel} (name value : Bytes)
    (hrest : Exec ok under .file { k with env := setEnv k.env name value } k'')
    : Exec ok under .file k k''
  | fileWizard {under : Bool} {k k'' : Kernel} {acc : Accounts} {ops : List HomeOp} {fs : FsState}
    (typed : List CStr) (fuel : Nat) (hok : ok under k (.setupWizard typed))
    (hwizard : setupWizard k.acc typed = some (acc, ops)) (hops : runHomeOps fuel k.fs ops = some fs)
    (hrest : Exec ok under .file { k with acc := acc, fs := fs } k'')
    : Exec ok under .file k k''
  | fileReset {under : Bool} {k k'' : Kernel} (hok : ok under k .configReset)
    (hrest : Exec ok under .file { k with acc := configReset k.acc } k'')
    : Exec ok under .file k k''

/--
From one prompt to the next. `exit` leads to the login.
-/
inductive Prompt (ok : Bool → Kernel → Event → Prop) : Kernel → Kernel → Prop where
  | command {k k' : Kernel} (line : Bytes) (hrun : Exec ok false (.command line) k k')
    (hexit : k'.shellExitFlag = false)
    : Prompt ok k k'
  | logout {k k' k'' : Kernel} (line : Bytes) (typed : List CStr)
    (hrun : Exec ok false (.command line) k k') (hexit : k'.shellExitFlag = true)
    (hlogin : k'.loginPrompt typed = some k'')
    : Prompt ok k { k'' with shellExitFlag := false }
  | endOfInput {k k'' : Kernel} (typed : List CStr) (hlogin : k.loginPrompt typed = some k'')
    : Prompt ok k { k'' with shellExitFlag := false }

/--
`su` does not get anyone with another uid into the session while the session's user, not root, runs
it with `sudo`. Root keeps its name and uid, no uid 0 is handed out, and the account table is only
reset in a session of root.
-/
def sessionOk (under : Bool) (k : Kernel) : Event → Prop
  | .builtin .su input =>
    under → ∀ name idx, k.suTarget input = some (some (name, idx)) → (k.acc.user idx).uid = k.curUid
  | .builtin b input =>
    ∀ cmd, b.accountCmd input = some cmd → AccountCall.Meets rootGuard k.acc ⟨k.session, cmd⟩
  | .setupWizard typed => AccountCall.Meets rootGuard k.acc ⟨k.session, .setupWizard typed⟩
  | .configReset => k.curUid = 0

section Invariant

structure SessionInv (k : Kernel) : Prop where
  accounts : AccountRun (AccountCall.Meets rootGuard) bootAccounts k.acc
  account : ∃ idx, k.acc.userFind k.curUsername = some idx ∧ (k.acc.user idx).uid = k.curUid
  lastAuth : k.curUsername = k.lastAuth

theorem userFind_eq (acc : Accounts) (name : Bytes)
    : acc.userFind name = acc.usernames.findIdx? (fun n => n ≠ [] ∧ n = name) := by
  unfold Accounts.userFind Accounts.usernames
  rw [List.findIdx?_map]
  rfl

theorem user_uid (acc : Accounts) (idx : Nat) : (acc.user idx).uid = acc.uids.getD idx 0 := by
  unfold Accounts.user Accounts.uids
  rw [List.getD_eq_getElem?_getD, List.getD_eq_getElem?_getD, List.getElem?_map]
  cases acc.users[idx]? with
  | none => rfl
  | some u => rfl

theorem account_append {acc acc' : Accounts} {name : Bytes} {uid : Int32} {names : List Bytes}
    {uids : List Int32} (hnames : acc'.usernames = acc.usernames ++ names)
    (huids : acc'.uids = acc.uids ++ uids)
    (h : ∃ idx, acc.userFind name = some idx ∧ (acc.user idx).uid = uid)
    : ∃ idx, acc'.userFind name = some idx ∧ (acc'.user idx).uid = uid := by
  obtain ⟨idx, hfind, huid⟩ := h
  obtain ⟨hidx, _, _⟩ := Accounts.userFind_eq_some hfind
  refine ⟨idx, ?_, ?_⟩
  . rw [userFind_eq] at hfind
    rw [userFind_eq, hnames, List.findIdx?_append, hfind]
    rfl
  . rw [user_uid] at huid
    rw [user_uid, huids, List.getD_append _ _ _ _ (by simpa [Accounts.uids] using hidx), huid]

theorem RootIds.account {acc : Accounts} (h : RootIds (· ≠ 0) acc)
    : acc.userFind rootName = some 0 ∧ (acc.user 0).uid = 0 := by
  obtain ⟨names, uids, hnames, huids, _⟩ := h
  refine ⟨?_, ?_⟩
  . rw [userFind_eq, hnames, List.findIdx?_cons, if_pos (by decide)]
  . rw [user_uid, huids]
    rfl

theorem RootIds.name_of_uid {acc : Accounts} (h : RootIds (· ≠ 0) acc) {name : Bytes}
    (hacc : ∃ idx, acc.userFind name = some idx ∧ (acc.user idx).uid = 0)
    : name = rootName := by
  obtain ⟨idx, hfind, huid⟩ := hacc
  obtain ⟨hidx, hname, _⟩ := Accounts.userFind_eq_some hfind
  have hroot := h.rootStays
  by_cases hzero : idx = 0
  . subst hzero
    rw [← hname, ← Accounts.user_eq hidx, hroot.username]
  . exact absurd huid (hroot.others idx (by omega) hidx)

end Invariant

section Steps

variable {acc acc' : Accounts} {ops : List HomeOp}

theorem newPassword_ids {idx tries : Nat} {typed : List CStr} (h : newPassword acc idx tries typed = some acc')
    : acc'.usernames = acc.usernames ∧ acc'.uids = acc.uids := by
  have hset : ∀ (acc : Accounts) pass, (setPassword acc idx pass).usernames = acc.usernames
      ∧ (setPassword acc idx pass).uids = acc.uids :=
    fun _ _ => ⟨map_modify_same (fun _ => rfl), map_modify_same (fun _ => rfl)⟩
  fun_induction newPassword acc idx tries typed with
  | case1 acc =>
    rw [Option.some.inj h]
    exact ⟨rfl, rfl⟩
  | case2 => contradiction
  | case3 acc _ line typed pw1 acc₁ =>
    rw [← Option.some.inj h]
    exact hset acc []
  | case4 => contradiction
  | case5 acc _ line pw1 acc₁ =>
    rw [← Option.some.inj h, (hset acc₁ pw1).1, (hset acc₁ pw1).2]
    exact hset acc []
  | case6 acc _ _ _ acc₁ _ _ _ _ ih =>
    rw [(ih h).1, (ih h).2]
    exact hset acc []

theorem result_ids {cur : Session} {b : Builtin} {input : CmdInput} {cmd : AccountCmd}
    (hcmd : b.accountCmd input = some cmd) (hcur : cur.curUid ≠ 0)
    (h : AccountCall.result ⟨cur, cmd⟩ acc = some (acc', ops))
    : acc'.usernames = acc.usernames ∧ acc'.uids = acc.uids := by
  have hsame : some (acc, ([] : List HomeOp)) = some (acc', ops) →
      acc'.usernames = acc.usernames ∧ acc'.uids = acc.uids := by
    intro heq
    rw [(Prod.mk.inj (Option.some.inj heq)).1]
    exact ⟨rfl, rfl⟩
  cases b with
  | hostname =>
    cases hcmd
    unfold AccountCall.result cmdHostname at h
    dsimp only at h
    split at h
    . exact hsame h
    . simp only [Option.some.injEq, Prod.mk.injEq] at h
      rw [← h.1]
      exact ⟨rfl, rfl⟩
  | useradd =>
    cases hcmd
    have hnone : useraddRequest cur acc input = none := by
      simp [useraddRequest, hcur]
    unfold AccountCall.result cmdUseradd at h
    dsimp only at h
    rw [hnone] at h
    exact hsame h
  | userdel =>
    cases hcmd
    unfold AccountCall.result cmdUserdel at h
    dsimp only at h
    rw [if_pos hcur] at h
    exact hsame h
  | usermod =>
    cases hcmd
    have hnone : usermodRequest cur acc input = none := by
      simp [usermodRequest, hcur]
    unfold AccountCall.result cmdUsermod at h
    dsimp only at h
    rw [hnone] at h
    exact hsame h
  | groupadd =>
    cases hcmd
    unfold AccountCall.result cmdGroupadd at h
    dsimp only at h
    rw [if_pos hcur] at h
    exact hsame h
  | groupdel =>
    cases hcmd
    unfold AccountCall.result cmdGroupdel at h
    dsimp only at h
    rw [if_pos hcur] at h
    exact hsame h
  | passwd =>
    cases hcmd
    have hnew : ∀ idx tries typed, (newPassword acc idx tries typed).map (·, []) = some (acc', ops) →
        acc'.usernames = acc.usernames ∧ acc'.uids = acc.uids := by
      intro idx tries typed heq
      rw [Option.map_eq_some_iff] at heq
      obtain ⟨acc₁, hnew, heq⟩ := heq
      rw [← (Prod.mk.inj heq).1]
      exact newPassword_ids hnew
    unfold AccountCall.result cmdPasswd at h
    dsimp only at h
    split at h
    . exact hsame h
    . split at h
      . exact hsame h
      . split at h
        . split at h
          . contradiction
          . split at h
            . exact hsame h
            . exact hnew _ _ _ h
        . exact hnew _ _ _ h
  | _ => contradiction

theorem account_result {k : Kernel} {b : Builtin} {input : CmdInput} {cmd : AccountCmd}
    (hcmd : b.accountCmd input = some cmd) (hmeets : AccountCall.Meets rootGuard k.acc ⟨k.session, cmd⟩)
    (hinv : SessionInv k) (h : AccountCall.result ⟨k.session, cmd⟩ k.acc = some (acc', ops))
    : AccountRun (AccountCall.Meets rootGuard) bootAccounts acc'
      ∧ ∃ idx, acc'.userFind k.curUsername = some idx ∧ (acc'.user idx).uid = k.curUid := by
  have hstep : AccountCall.Step ⟨k.session, cmd⟩ k.acc acc' := by
    unfold AccountCall.Step AccountCall.exec
    rw [h]
    rfl
  have hrun := hinv.accounts.call hstep hmeets
  refine ⟨hrun, ?_⟩
  by_cases hcur : k.curUid = 0
  . have hname := (root_ids hinv.accounts).2.name_of_uid (hcur ▸ hinv.account)
    rw [hname, hcur]
    exact ⟨0, (root_ids hrun).2.account⟩
  . obtain ⟨hnames, huids⟩ := result_ids hcmd hcur h
    rw [← List.append_nil k.acc.usernames] at hnames
    rw [← List.append_nil k.acc.uids] at huids
    exact account_append hnames huids hinv.account

theorem askUsers_usernames {fuel : Nat} {typed rest : List CStr} {ops ops' : List HomeOp}
    (h : askUsers acc ops fuel typed = some (acc', ops', rest))
    : ∃ names, acc'.usernames = acc.usernames ++ names := by
  fun_induction askUsers acc ops fuel typed with
  | case1 => contradiction
  | case2 => contradiction
  | case3 acc =>
    simp only [Option.some.injEq, Prod.mk.injEq] at h
    exact ⟨[], by simp [h.1]⟩
  | case4 _ _ _ _ _ _ _ _ ih => exact ih h
  | case5 => contradiction
  | case6 => contradiction
  | case7 acc ops fuel line typed ans _ _ name typed₁ hlogin pass typed₂ hpass _ acc₁ home hadd ih =>
    obtain ⟨hname, _, hfind, _⟩ := askLogin_ok hlogin
    obtain ⟨names, hnames⟩ := ih h
    have hacc : acc₁ = (userAddFull acc name pass 0).2.1 := by
      rw [← userAdd, hadd]
    by_cases hroom : acc.users.length < maxUsers
    . rw [userAddFull_eq hname.ne_nil hfind hroom] at hacc
      have hnew : acc₁.usernames = acc.usernames ++ [name.take (maxUsername - 1)] := by
        rw [hacc]
        simp [Accounts.usernames]
      exact ⟨name.take (maxUsername - 1) :: names, by simp [hnames, hnew]⟩
    . rw [← Accounts.userFind_eq_none hname.ne_nil] at hfind
      have hsame : (userAddFull acc name pass 0).2.1 = acc := by
        unfold userAddFull
        rw [if_neg hname.ne_nil, hfind, if_neg (by simp), if_pos (by omega)]
      rw [hacc, hsame] at hnames
      exact ⟨names, hnames⟩

theorem setupWizard_usernames {typed : List CStr} (h : setupWizard acc typed = some (acc', ops))
    : ∃ names, acc'.usernames = acc.usernames ++ names := by
  unfold setupWizard at h
  split at h
  . contradiction
  . next acc₁ typed₁ hask =>
    obtain ⟨pw, hpw, hset⟩ := askRootPassword_eq hask
    split at h
    . contradiction
    . contradiction
    . next acc₂ ops₂ line typed₂ husers =>
      simp only [Option.some.injEq, Prod.mk.injEq] at h
      obtain ⟨names, hnames⟩ := askUsers_usernames husers
      have hroot : acc₁.usernames = acc.usernames := by
        rw [hset]
        exact map_modify_same (fun _ => rfl)
      rw [hroot] at hnames
      rw [← h.1]
      exact ⟨names, hnames⟩

end Steps

section Runs

variable {k k' : Kernel} {under : Bool}

/--
What a run keeps: under `sudo` the user of the session, otherwise that both users are the same.
-/
structure Keeps (under : Bool) (k k' : Kernel) : Prop where
  inv : SessionInv k'
  user : under = true → k'.curUid = k.curUid
  uid : under = false → k.fs.fsCurUid = k.curUid → k'.fs.fsCurUid = k'.curUid

theorem Keeps.refl (hinv : SessionInv k) : Keeps under k k :=
  ⟨hinv, fun _ => rfl, fun _ h => h⟩

theorem Keeps.trans {k'' : Kernel} (h : Keeps under k k') (h' : Keeps under k' k'') : Keeps under k k'' where
  inv := h'.inv
  user hunder := by rw [h'.user hunder, h.user hunder]
  uid hunder heq := h'.uid hunder (h.uid hunder heq)

theorem Keeps.of_same {acc : Accounts} {fs : FsState} {env : Env} {flag : Bool}
    (haccounts : AccountRun (AccountCall.Meets rootGuard) bootAccounts acc)
    (haccount : ∃ idx, acc.userFind k.curUsername = some idx ∧ (acc.user idx).uid = k.curUid)
    (hfs : fs.fsCurUid = k.fs.fsCurUid) (hinv : SessionInv k)
    : Keeps under k { k with acc := acc, fs := fs, env := env, shellExitFlag := flag } where
  inv := ⟨haccounts, haccount, hinv.lastAuth⟩
  user _ := rfl
  uid _ heq := by rw [← heq, ← hfs]

theorem chmodPaths_uid (recursive : Bool) (mode : Bytes) (paths : List Bytes) (s : FsState)
    : (chmodPaths recursive mode paths s).fsCurUid = s.fsCurUid := by
  induction paths generalizing s with
  | nil => rfl
  | cons path paths ih =>
    unfold chmodPaths
    split
    . exact ih s
    . rfl
    . rw [ih]
      split
      . exact fsChmodRecursive_uid _
      . exact fsChmod_uid _

theorem cmdChmod_uid (s : FsState) (input : CmdInput) : (cmdChmod s input).fsCurUid = s.fsCurUid := by
  unfold cmdChmod
  dsimp only
  split
  . exact chmodPaths_uid _ _ _ s
  . rfl

theorem chownPaths_uid (recursive : Bool) (uid : Int32) (paths : List Bytes) (s : FsState)
    : (chownPaths recursive uid paths s).fsCurUid = s.fsCurUid := by
  unfold chownPaths
  induction paths generalizing s with
  | nil => rfl
  | cons path paths ih =>
    rw [List.foldl_cons, ih]
    split
    . exact fsChownRecursive_uid uid
    . exact fsChown_uid uid

theorem cmdChown_uid (acc : Accounts) (s : FsState) (input : CmdInput)
    : (cmdChown acc s input).fsCurUid = s.fsCurUid := by
  unfold cmdChown
  dsimp only
  split
  . split
    . rfl
    . exact chownPaths_uid _ _ _ s
  . rfl

theorem letIn_inv {name : Bytes} {idx : Nat}
    (haccounts : AccountRun (AccountCall.Meets rootGuard) bootAccounts k.acc)
    (hfind : k.acc.userFind name = some idx)
    : SessionInv (k.letIn name idx) ∧ (k.letIn name idx).fs.fsCurUid = (k.letIn name idx).curUid
      ∧ (k.letIn name idx).curUid = (k.acc.user idx).uid := by
  obtain ⟨hidx, hname, _⟩ := Accounts.userFind_eq_some hfind
  have huser : (k.acc.user idx).username = name := by
    rw [Accounts.user_eq hidx, hname]
  refine ⟨⟨haccounts, ⟨idx, ?_, rfl⟩, huser⟩, rfl, rfl⟩
  show k.acc.userFind (k.acc.user idx).username = some idx
  rw [huser, hfind]

theorem suTarget_find {input : CmdInput} {name : Bytes} {idx : Nat}
    (h : k.suTarget input = some (some (name, idx)))
    : k.acc.userFind name = some idx := by
  unfold Kernel.suTarget at h
  split at h
  . simp at h
  . split at h
    . simp at h
    . next hfind =>
      split at h
      . split at h
        . simp at h
        . split at h
          . simp at h
          . simp only [Option.some.injEq, Prod.mk.injEq] at h
            rw [← h.1, ← h.2, hfind]
      . simp only [Option.some.injEq, Prod.mk.injEq] at h
        rw [← h.1, ← h.2, hfind]

theorem cmdSu_keeps {input : CmdInput} (hok : sessionOk under k (.builtin .su input))
    (hinv : SessionInv k) (h : k.cmdSu input = some k')
    : Keeps under k k' := by
  unfold Kernel.cmdSu at h
  rw [Option.map_eq_some_iff] at h
  obtain ⟨target, htarget, rfl⟩ := h
  cases target with
  | none => exact .refl hinv
  | some t =>
    obtain ⟨name, idx⟩ := t
    obtain ⟨hlet, hsync, huid⟩ := letIn_inv hinv.accounts (suTarget_find htarget)
    refine ⟨hlet, ?_, fun _ _ => hsync⟩
    intro hunder
    exact huid.trans (hok hunder name idx htarget)

theorem runBuiltin_keeps {fuel : Nat} {b : Builtin} {input : CmdInput}
    (hok : sessionOk under k (.builtin b input)) (hinv : SessionInv k)
    (h : k.runBuiltin fuel b input = some k')
    : Keeps under k k' := by
  unfold Kernel.runBuiltin at h
  split at h
  . next cmd hcmd =>
    simp only [Option.bind_eq_bind, Option.bind_eq_some_iff, Option.pure_def, Option.some.injEq,
      Prod.exists] at h
    obtain ⟨acc', ops, hresult, fs, hops, rfl⟩ := h
    have hmeets : AccountCall.Meets rootGuard k.acc ⟨k.session, cmd⟩ := by
      cases b with
      | su => contradiction
      | _ => exact hok cmd hcmd
    obtain ⟨haccounts, haccount⟩ := account_result hcmd hmeets hinv hresult
    exact .of_same haccounts haccount (runHomeOps_uid hops) hinv
  . split at h
    . rw [← Option.some.inj h]
      exact .of_same hinv.accounts hinv.account rfl hinv
    . exact cmdSu_keeps hok hinv h
    . rw [← Option.some.inj h]
      exact .of_same hinv.accounts hinv.account (cmdChmod_uid _ _) hinv
    . rw [← Option.some.inj h]
      exact .of_same hinv.accounts hinv.account (cmdChown_uid _ _ _) hinv
    . rw [← Option.some.inj h]
      exact .refl hinv

theorem Exec.keeps {job : Job} (h : Exec sessionOk under job k k') (hinv : SessionInv k)
    : Keeps under k k' := by
  induction h with
  | blank => exact .refl hinv
  | builtin b behind typed fuel hline hsudo hok hrun => exact runBuiltin_keeps hok hinv hrun
  | sudoRefused => exact .refl hinv
  | sudoRoot hline hargs hroot hrun ih => exact ih hinv
  | sudoUser hline hargs hroot hallowed hrun ih =>
    -- the command may do what it wants to the filesystem's user, it is set back afterwards
    have hinner := ih ⟨hinv.accounts, hinv.account, hinv.lastAuth⟩
    refine ⟨⟨hinner.inv.accounts, hinner.inv.account, hinner.inv.lastAuth⟩, ?_, ?_⟩
    . intro _
      exact hinner.user rfl
    . intro _ heq
      exact heq.trans (hinner.user rfl).symm
  | notRun => exact .refl hinv
  | file hline hname hpath hperm hrun ih => exact ih hinv
  | fileEnd => exact .refl hinv
  | fileCommand hrun hrest ih ihrest =>
    have hfirst := ih hinv
    exact hfirst.trans (ihrest hfirst.inv)
  | @fileCall under k k'' rc fs op fuel hcall hrest ih =>
    have huid : fs.fsCurUid = k.fs.fsCurUid :=
      (FsCall.prims_any (c := ⟨k.fs.fsCurUid, op⟩) ⟨fuel, rc, hcall⟩).fsCurUid_eq
    have hfirst : Keeps under k { k with fs := fs } := .of_same hinv.accounts hinv.account huid hinv
    exact hfirst.trans (ih hfirst.inv)
  | @fileEnv under k k'' name value hrest ih =>
    have hfirst : Keeps under k { k with env := setEnv k.env name value } :=
      .of_same hinv.accounts hinv.account rfl hinv
    exact hfirst.trans (ih hfirst.inv)
  | @fileWizard under k k'' acc ops fs typed fuel hok hwizard hops hrest ih =>
    have hstep : AccountCall.Step ⟨k.session, .setupWizard typed⟩ k.acc acc := by
      unfold AccountCall.Step AccountCall.exec AccountCall.result
      dsimp only
      rw [hwizard]
      rfl
    obtain ⟨names, hnames⟩ := setupWizard_usernames hwizard
    obtain ⟨n, _, huids⟩ := setupWizard_uids hwizard
    have hfirst : Keeps under k { k with acc := acc, fs := fs } :=
      .of_same (hinv.accounts.call hstep hok) (account_append hnames huids hinv.account)
        (runHomeOps_uid hops) hinv
    exact hfirst.trans (ih hfirst.inv)
  | @fileReset under k k'' hok hrest ih =>
    have hname := (root_ids hinv.accounts).2.name_of_uid (hok ▸ hinv.account)
    have hfirst : Keeps under k { k with acc := configReset k.acc } := by
      refine .of_same .refl ⟨0, ?_, ?_⟩ rfl hinv
      . rw [hname]
        rfl
      . rw [hok]
        rfl
    exact hfirst.trans (ih hfirst.inv)

theorem loginPrompt_inv {typed : List CStr}
    (haccounts : AccountRun (AccountCall.Meets rootGuard) bootAccounts k.acc)
    (h : k.loginPrompt typed = some k')
    : SessionInv k' ∧ k'.fs.fsCurUid = k'.curUid := by
  have hlet : ∀ name idx, k.acc.userFind name = some idx → some (k.letIn name idx) = some k' →
      SessionInv k' ∧ k'.fs.fsCurUid = k'.curUid := by
    intro name idx hfind heq
    obtain ⟨hinv, huid, _⟩ := letIn_inv haccounts hfind
    rw [← Option.some.inj heq]
    exact ⟨hinv, huid⟩
  fun_induction k.loginPrompt typed with
  | case1 => contradiction
  | case2 => contradiction
  | case3 _ _ _ _ _ ih => exact ih h
  | case4 _ _ _ idx hfind _ => exact hlet _ _ hfind h
  | case5 => contradiction
  | case6 _ _ idx hfind _ _ _ _ => exact hlet _ _ hfind h
  | case7 _ _ _ _ _ _ _ _ ih => exact ih h

theorem Prompt.keeps (h : Prompt sessionOk k k') (hinv : SessionInv k)
    (huid : k.fs.fsCurUid = k.curUid)
    : SessionInv k' ∧ k'.fs.fsCurUid = k'.curUid := by
  cases h with
  | command line hrun hexit =>
    have hkeeps := hrun.keeps hinv
    exact ⟨hkeeps.inv, hkeeps.uid rfl huid⟩
  | logout line typed hrun hexit hlogin =>
    obtain ⟨hinv', huid'⟩ := loginPrompt_inv (hrun.keeps hinv).inv.accounts hlogin
    exact ⟨⟨hinv'.accounts, hinv'.account, hinv'.lastAuth⟩, huid'⟩
  | endOfInput typed hlogin =>
    obtain ⟨hinv', huid'⟩ := loginPrompt_inv hinv.accounts hlogin
    exact ⟨⟨hinv'.accounts, hinv'.account, hinv'.lastAuth⟩, huid'⟩

end Runs

section Trace

/--
The system before the first login, with an account `a` whose password is `x`.
-/
def kernelA : Kernel where
  acc := accountA
  fs := fsInit (.zeroed 64)
  curUsername := rootName
  curUid := 0
  curHome := rootHome
  env := []
  shellExitFlag := false
  lastAuth := rootName

theorem lineX_noNul : (0 : Byte) ∉ ([120] : Bytes) := by decide

def lineX : CStr :=
  ⟨[120], lineX_noNul⟩

def loggedInA : Kernel :=
  kernelA.letIn [97] 1

end Trace

end TanjaOS
