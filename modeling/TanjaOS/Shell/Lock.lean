import TanjaOS.Shell.Session

/-!
Locked accounts: which lines let their users in, and what is left of a password that has been locked
and unlocked.
-/

open Lib

namespace TanjaOS

/--
`usermod -L name`
-/
def lockOnly (name : Bytes) : UsermodArgs :=
  { lock := true, name := some name }

/--
`usermod -U name`
-/
def unlockOnly (name : Bytes) : UsermodArgs :=
  { unlock := true, name := some name }

/--
The accounts once `idx`, which is called `name`, is locked, and once it is unlocked again.
-/
def locked (acc : Accounts) (name : Bytes) (idx : Nat) : Accounts :=
  (usermodApply acc idx name (lockOnly name) []).1

def unlocked (acc : Accounts) (name : Bytes) (idx : Nat) : Accounts :=
  (usermodApply acc idx name (unlockOnly name) []).1

/--
Nothing that is typed lets in the user of the locked account, and unlocking brings the password back.
-/
structure LockHolds (acc : Accounts) (name : Bytes) (idx : Nat) : Prop where
  atLogin : ∀ (k : Kernel) typed, k.acc = locked acc name idx →
    k.loginPrompt typed ≠ some (k.letIn name idx)
  atSu : ∀ (k : Kernel) input, k.acc = locked acc name idx → k.fs.fsCurUid ≠ 0 →
    k.suTarget input ≠ some (some (name, idx))
  atSudo : ∀ (k : Kernel) typed rest, k.acc = locked acc name idx → k.curUsername = name →
    k.sudoAllowed typed ≠ some (true, rest)
  restored : ((unlocked (locked acc name idx) name idx).user idx).password = (acc.user idx).password

/--
Typing the password as it is stored lets the user in, everywhere.
-/
structure LetsIn (acc : Accounts) (name : Bytes) (idx : Nat) (line : CStr) : Prop where
  atLogin : ∀ (k : Kernel) (user : CStr), k.acc = acc → readLine maxUsername user = name →
    k.loginPrompt [user, line] = some (k.letIn name idx)
  atSu : ∀ (k : Kernel) (input : CmdInput) rest, k.acc = acc → input.typed = line :: rest →
    Kernel.suName none (splitArgs (strncpyText 128 input.args input.behind) 8) = some name →
    k.suTarget input = some (some (name, idx))
  atSudo : ∀ (k : Kernel) rest, k.acc = acc → k.curUsername = name → k.wheelAllows →
    k.sudoAllowed (line :: rest) = some (true, rest)

section Lock

variable {acc : Accounts} {idx : Nat} {name : Bytes}

theorem locked_eq (huid : (acc.user idx).uid ≠ 0) : locked acc name idx = lockUser acc idx := by
  unfold locked usermodApply lockOnly
  simp [huid]

theorem unlocked_eq : unlocked acc name idx = unlockUser acc idx := by
  unfold unlocked usermodApply unlockOnly
  simp

theorem length_lockUser : (lockUser acc idx).users.length = acc.users.length := by
  unfold lockUser Accounts.modifyUser
  split
  . rfl
  . simp

theorem usernames_lockUser : (lockUser acc idx).usernames = acc.usernames := by
  unfold lockUser Accounts.modifyUser Accounts.usernames
  split
  . rfl
  . exact map_modify_same (fun u => rfl)

theorem userFind_lockUser (name : Bytes) : (lockUser acc idx).userFind name = acc.userFind name := by
  rw [userFind_eq, userFind_eq, usernames_lockUser]

theorem password_lockUser (hlt : idx < acc.users.length)
    : ((lockUser acc idx).user idx).password
      = if (acc.user idx).password.head? = some bang then (acc.user idx).password
        else bang :: (acc.user idx).password.take (maxPassword - 2) := by
  unfold lockUser
  split
  . rfl
  . unfold Accounts.modifyUser Accounts.user
    simp [hlt]

theorem password_unlockUser (hlt : idx < acc.users.length)
    : ((unlockUser acc idx).user idx).password
      = if (acc.user idx).password.head? = some bang then (acc.user idx).password.tail
        else (acc.user idx).password := by
  unfold unlockUser
  split
  . unfold Accounts.modifyUser Accounts.user
    simp [hlt]
  . rfl

theorem textOk_lockUser (hlt : idx < acc.users.length) (hok : TextOk maxPassword (acc.user idx).password)
    : TextOk maxPassword ((lockUser acc idx).user idx).password := by
  rw [password_lockUser hlt]
  split
  . exact hok
  . refine ⟨?_, ?_⟩
    . have hlen := List.length_take_le (maxPassword - 2) (acc.user idx).password
      have hmax : maxPassword - 2 + 1 < maxPassword := by decide
      rw [List.length_cons]
      omega
    . rw [List.mem_cons]
      rintro (hbang | hmem)
      . revert hbang
        decide
      . exact hok.no_nul (List.mem_of_mem_take hmem)

theorem lockUser_ne_nil (hlt : idx < acc.users.length) (hne : (acc.user idx).password ≠ [])
    : ((lockUser acc idx).user idx).password ≠ [] := by
  rw [password_lockUser hlt]
  split
  . exact hne
  . exact List.cons_ne_nil _ _

theorem unlock_lock_iff (hlt : idx < acc.users.length) (hne : (acc.user idx).password ≠ [])
    : ((unlockUser (lockUser acc idx) idx).user idx).password = (acc.user idx).password
      ↔ (acc.user idx).password.head? ≠ some bang
        ∧ (acc.user idx).password.length ≤ maxPassword - 2 := by
  rw [password_unlockUser (by rw [length_lockUser]; exact hlt), password_lockUser hlt]
  by_cases hbang : (acc.user idx).password.head? = some bang
  . have hshorter : (acc.user idx).password.tail ≠ (acc.user idx).password := by
      intro htail
      have hlen := congrArg List.length htail
      have hpos := List.length_pos_iff.mpr hne
      rw [List.length_tail] at hlen
      omega
    simp [hbang, hshorter]
  . simp [hbang, List.take_eq_self_iff]

theorem letsIn_of_line (hfind : acc.userFind name = some idx) (hne : (acc.user idx).password ≠ [])
    {line : CStr} (hline : readLine maxPassword line = (acc.user idx).password)
    : LetsIn acc name idx line where
  atLogin k user hacc huser := by
    unfold Kernel.loginPrompt
    dsimp only
    rw [huser, hacc, hfind]
    simp [hne, hline]
  atSu k input rest hacc htyped hname := by
    unfold Kernel.suTarget
    rw [hname, hacc, htyped]
    simp [hfind, hline]
  atSudo k rest hacc hname hwheel := by
    unfold Kernel.sudoAllowed
    rw [hname, hacc, hfind]
    simp [hwheel, Kernel.sudoTries, hline, hne]

theorem usermodRequest_find {cur : Session} {input : CmdInput} {o : UsermodArgs} {gnames : List Bytes}
    (h : usermodRequest cur acc input = some ⟨idx, name, o, gnames⟩) : acc.userFind name = some idx := by
  unfold usermodRequest at h
  simp only [Option.bind_eq_bind, Option.bind_eq_some_iff, Option.pure_def, Option.some.injEq] at h
  obtain ⟨_, _, _, _, name', _, _, _, _, _, idx', hfind, _, _, hr⟩ := h
  injection hr with hidx hname
  rw [← hidx, ← hname]
  exact hfind

/--
A lock holds for no account: the password as it is stored now lets its user in. It only comes back if
it has no `!` at its start and not more than 30 characters.
-/
theorem lock_never_holds {cur : Session} {input : CmdInput} (hwf : acc.Wf)
    (hlock : usermodRequest cur acc input = some ⟨idx, name, lockOnly name, []⟩)
    (huid : (acc.user idx).uid ≠ 0) (hne : (acc.user idx).password ≠ [])
    : cmdUsermod cur acc input = some (locked acc name idx, [])
      ∧ ¬LockHolds acc name idx
      ∧ (∃ line, LetsIn (locked acc name idx) name idx line)
      ∧ (((unlocked (locked acc name idx) name idx).user idx).password = (acc.user idx).password
        ↔ (acc.user idx).password.head? ≠ some bang
          ∧ (acc.user idx).password.length ≤ maxPassword - 2) := by
  have hfind := usermodRequest_find hlock
  obtain ⟨hlt, hname, _⟩ := Accounts.userFind_eq_some hfind
  have huser : acc.user idx = acc.users[idx] := by
    unfold Accounts.user
    rw [List.getD_eq_getElem _ _ hlt]
  have hmem : acc.user idx ∈ acc.users := by
    rw [huser]
    exact List.getElem_mem hlt
  have hnameOk : TextOk maxUsername name := by
    rw [← hname]
    exact (hwf.username _ (List.getElem_mem hlt)).1
  have hstored := textOk_lockUser hlt (hwf.password _ hmem)
  have hlet : LetsIn (locked acc name idx) name idx ⟨_, hstored.no_nul⟩ := by
    rw [locked_eq huid]
    apply letsIn_of_line
    . rw [userFind_lockUser]
      exact hfind
    . exact lockUser_ne_nil hlt hne
    . exact hstored.take_eq
  refine ⟨?_, ?_, ⟨_, hlet⟩, ?_⟩
  . unfold cmdUsermod
    rw [hlock]
    unfold locked usermodApply lockOnly
    simp [huid]
  . intro hholds
    exact hholds.atLogin { kernelA with acc := locked acc name idx } _ rfl
      (hlet.atLogin _ ⟨name, hnameOk.no_nul⟩ rfl hnameOk.take_eq)
  . rw [locked_eq huid, unlocked_eq]
    exact unlock_lock_iff hlt hne

end Lock

section Trace

theorem nil_noNul : (0 : Byte) ∉ ([] : Bytes) := List.not_mem_nil

def lockA : CmdInput :=
  ⟨⟨[45, 76, 32, 97], by decide⟩, ⟨[], nil_noNul⟩, []⟩

theorem accountA_wf : accountA.Wf :=
  accountA_run.wf

deriving instance DecidableEq for UsermodRequest

theorem lockA_request
    : usermodRequest rootSession accountA lockA = some ⟨1, [97], lockOnly [97], []⟩ := by
  decide +kernel

/--
The account `a` is locked. Its password `x` comes back.
-/
theorem lock_never_holds_a
    : ¬LockHolds accountA [97] 1
      ∧ ((unlocked (locked accountA [97] 1) [97] 1).user 1).password = (accountA.user 1).password := by
  obtain ⟨_, hlock, _, hback⟩ := lock_never_holds accountA_wf lockA_request (by decide) (by decide)
  exact ⟨hlock, hback.mpr (by decide)⟩

/--
Whoever types `!x` gets into the locked account.
-/
theorem lock_lets_in
    : ¬∀ acc name idx, acc.Wf → acc.userFind name = some idx → (acc.user idx).uid ≠ 0 →
      (acc.user idx).password ≠ [] → LockHolds acc name idx := by
  intro h
  have hholds := h accountA [97] 1 accountA_wf (by decide) (by decide) (by decide)
  have hsudo := hholds.atSudo { kernelA with acc := locked accountA [97] 1, curUsername := [97] }
    [⟨[33, 120], by decide⟩] [] rfl rfl
  revert hsudo
  decide

end Trace

end TanjaOS
