import TanjaOS.Account.Identity

/-!
What `passwd` says when it ends, and what it has done to the password by then.
-/

open Lib

namespace TanjaOS

/--
How far `passwd` has come: refused, waiting for a line, or at one of its three last messages.
-/
inductive PasswdEnd where
  | refused
  | waiting
  | updated
  | erased
  | unchanged
  deriving DecidableEq

/--
`newPassword` with its message, and with the table that it leaves while it waits.
-/
def newPasswordRun (acc : Accounts) (idx : Nat) : Nat → List CStr → PasswdEnd × Accounts
  | 0, _ => (.unchanged, acc)
  | tries + 1, typed =>
    match typed with
    | [] => (.waiting, acc)
    | line :: typed =>
      let pw1 := readLine maxPassword line
      let acc := setPassword acc idx []
      if pw1 = [] then
        (.erased, acc)
      else
        match typed with
        | [] => (.waiting, acc)
        | line :: typed =>
          if pw1 = readLine maxPassword line then
            (.updated, setPassword acc idx pw1)
          else
            newPasswordRun acc idx tries typed

/--
The account that gets a new password, and the lines that are typed for it.
-/
def passwdLines (cur : Session) (acc : Accounts) (input : CmdInput)
    : Except PasswdEnd (Nat × List CStr) :=
  let name := (firstArg input).getD cur.curUsername
  match acc.userFind name with
  | none => .error .refused
  | some idx =>
    if name ≠ cur.curUsername ∧ cur.curUid ≠ 0 then
      .error .refused
    else if cur.curUid ≠ 0 ∧ (acc.user idx).password ≠ [] then
      match input.typed with
      | [] => .error .waiting
      | line :: typed =>
        if readLine maxPassword line ≠ (acc.user idx).password then
          .error .unchanged
        else
          .ok (idx, typed)
    else
      .ok (idx, input.typed)

def passwdRun (cur : Session) (acc : Accounts) (input : CmdInput) : PasswdEnd × Accounts :=
  match passwdLines cur acc input with
  | .error e => (e, acc)
  | .ok (idx, lines) => newPasswordRun acc idx 2 lines

def whenDone (r : PasswdEnd × Accounts) : Option Accounts :=
  if r.1 = .waiting then none else some r.2

theorem newPassword_eq (acc : Accounts) (idx tries : Nat) (typed : List CStr)
    : newPassword acc idx tries typed = whenDone (newPasswordRun acc idx tries typed) := by
  fun_induction newPasswordRun acc idx tries typed with
  | case1 => rfl
  | case2 => rfl
  | case3 acc tries line typed pw1 acc₁ hnil =>
    unfold newPassword
    dsimp only
    rw [if_pos hnil]
    rfl
  | case4 acc tries line pw1 acc₁ hne =>
    unfold newPassword
    dsimp only
    rw [if_neg hne]
    rfl
  | case5 acc tries line pw1 acc₁ hne line₂ typed heq =>
    unfold newPassword
    dsimp only
    rw [if_neg hne, if_pos heq]
    rfl
  | case6 acc tries line pw1 acc₁ hne line₂ typed hdiff ih =>
    unfold newPassword
    dsimp only
    rw [if_neg hne, if_neg hdiff]
    exact ih

theorem cmdPasswd_eq (cur : Session) (acc : Accounts) (input : CmdInput)
    : cmdPasswd cur acc input = (whenDone (passwdRun cur acc input)).map (·, []) := by
  unfold cmdPasswd passwdRun passwdLines
  dsimp only
  cases acc.userFind ((firstArg input).getD cur.curUsername) with
  | none => rfl
  | some idx =>
    dsimp only
    by_cases hother : (firstArg input).getD cur.curUsername ≠ cur.curUsername ∧ cur.curUid ≠ 0
    . rw [if_pos hother, if_pos hother]
      rfl
    . rw [if_neg hother, if_neg hother]
      by_cases hask : cur.curUid ≠ 0 ∧ (acc.user idx).password ≠ []
      . rw [if_pos hask, if_pos hask]
        cases input.typed with
        | nil => rfl
        | cons line typed =>
          dsimp only
          by_cases hwrong : readLine maxPassword line ≠ (acc.user idx).password
          . rw [if_pos hwrong, if_pos hwrong]
            rfl
          . rw [if_neg hwrong, if_neg hwrong, newPassword_eq]
      . rw [if_neg hask, if_neg hask, newPassword_eq]

/--
The password of account `idx` has been typed twice, in `lines` one after the other.
-/
def TypedTwice (acc : Accounts) (idx : Nat) (lines : List CStr) : Prop :=
  ∃ (front : List CStr) (line₁ line₂ : CStr) (back : List CStr), lines = front ++ line₁ :: line₂ :: back
    ∧ readLine maxPassword line₁ = (acc.user idx).password
    ∧ readLine maxPassword line₂ = (acc.user idx).password

/--
The password ends as the message says, and without a message for it the table is as it was.
-/
structure AllOrNothing (acc : Accounts) (idx : Nat) (lines : List CStr) (r : PasswdEnd × Accounts) : Prop where
  updated : r.1 = .updated → (r.2.user idx).password ≠ [] ∧ TypedTwice r.2 idx lines
  erased : r.1 = .erased → (r.2.user idx).password = []
  unchanged : r.1 ≠ .updated → r.1 ≠ .erased → r.2 = acc

/--
One of the attempts comes to its end with a blank line or with two lines that match.
-/
def Settles : Nat → List CStr → Prop
  | tries + 1, line :: lines => readLine maxPassword line = []
      ∨ ∃ line₂ rest, lines = line₂ :: rest
        ∧ (readLine maxPassword line = readLine maxPassword line₂ ∨ Settles tries rest)
  | _, _ => False

section Passwd

variable {acc : Accounts} {idx : Nat} {pass : Bytes}

theorem user_setPassword (h : idx < acc.users.length)
    : ((setPassword acc idx pass).user idx).password = pass.take (maxPassword - 1) := by
  unfold setPassword Accounts.modifyUser Accounts.user
  simp [h]

theorem setPassword_length : (setPassword acc idx pass).users.length = acc.users.length := by
  simp [setPassword, Accounts.modifyUser]

theorem setPassword_self (h : (acc.user idx).password = []) : setPassword acc idx [] = acc := by
  unfold setPassword Accounts.modifyUser
  have hsame : acc.users.modify idx (fun u => { u with password := ([] : Bytes).take (maxPassword - 1) })
      = acc.users := by
    apply List.ext_getElem
    . simp
    . intro i hi hi'
      rw [List.getElem_modify]
      split
      . next heq =>
        subst heq
        unfold Accounts.user at h
        rw [List.getD_eq_getElem _ _ hi'] at h
        generalize acc.users[idx] = u at h ⊢
        cases u
        simp only at h
        simp [h]
      . rfl
  rw [hsame]

theorem setPassword_ne (h : idx < acc.users.length) (hold : (acc.user idx).password ≠ [])
    : setPassword acc idx [] ≠ acc := by
  intro heq
  have := @user_setPassword acc idx [] h
  rw [heq, List.take_nil] at this
  exact hold this

theorem readLine_take (line : CStr)
    : (readLine maxPassword line).take (maxPassword - 1) = readLine maxPassword line := by
  unfold readLine
  rw [List.take_take, Nat.min_self]

theorem setPassword_setPassword (pass pass' : Bytes)
    : setPassword (setPassword acc idx pass) idx pass' = setPassword acc idx pass' := by
  unfold setPassword Accounts.modifyUser
  simp only [List.modify_modify_eq]
  rfl

def Done (idx : Nat) (lines : List CStr) (r : PasswdEnd × Accounts) : Prop :=
  (r.1 = .erased ∧ (r.2.user idx).password = [])
    ∨ (r.1 = .updated ∧ (r.2.user idx).password ≠ [] ∧ TypedTwice r.2 idx lines)

theorem Done.allOrNothing {lines : List CStr} {r : PasswdEnd × Accounts} (h : Done idx lines r)
    : AllOrNothing acc idx lines r := by
  obtain ⟨hend, hpass⟩ | ⟨hend, hpass⟩ := h
  . exact ⟨fun hup => by simp [hup] at hend, fun _ => hpass, fun _ hno => absurd hend hno⟩
  . exact ⟨fun _ => hpass, fun her => by simp [her] at hend, fun hno => absurd hend hno⟩

theorem Done.cons {lines : List CStr} {r : PasswdEnd × Accounts} (h : Done idx lines r) (line : CStr)
    : Done idx (line :: lines) r := by
  obtain h | ⟨hend, hne, front, line₁, line₂, back, rfl, hpass⟩ := h
  . exact Or.inl h
  . exact Or.inr ⟨hend, hne, line :: front, line₁, line₂, back, rfl, hpass⟩

theorem newPasswordRun_cases (h : idx < acc.users.length) (tries : Nat) (lines : List CStr)
    : (Settles tries lines → Done idx lines (newPasswordRun acc idx tries lines))
      ∧ (¬Settles tries lines →
        ((newPasswordRun acc idx tries lines).1 = .waiting ∨ (newPasswordRun acc idx tries lines).1 = .unchanged)
          ∧ (newPasswordRun acc idx tries lines).2
            = if tries = 0 ∨ lines = [] then acc else setPassword acc idx []) := by
  fun_induction newPasswordRun acc idx tries lines with
  | case1 acc lines => simp [Settles]
  | case2 acc tries => simp [Settles]
  | case3 acc tries line typed pw1 acc₁ hnil =>
    constructor
    . intro _
      exact Or.inl ⟨rfl, user_setPassword h⟩
    . exact fun hno => absurd (Or.inl hnil) hno
  | case4 acc tries line pw1 acc₁ hne =>
    constructor
    . rintro (hnil | ⟨_, _, heq, _⟩)
      . exact absurd hnil hne
      . simp at heq
    . intro _
      simp [acc₁]
  | case5 acc tries line pw1 acc₁ hne line₂ typed heq =>
    have hpass : ((setPassword acc₁ idx pw1).user idx).password = pw1 := by
      rw [user_setPassword (by rw [setPassword_length]; exact h)]
      exact readLine_take line
    constructor
    . intro _
      refine Or.inr ⟨rfl, by rw [hpass]; exact hne, [], line, line₂, typed, rfl, hpass.symm, ?_⟩
      rw [hpass, heq]
    . intro hno
      exact absurd (Or.inr ⟨line₂, typed, rfl, Or.inl heq⟩) hno
  | case6 acc tries line pw1 acc₁ hne line₂ typed hdiff ih =>
    obtain ⟨hyes, hno⟩ := ih (by rw [setPassword_length]; exact h)
    have hsettles : Settles (tries + 1) (line :: line₂ :: typed) ↔ Settles tries typed := by
      constructor
      . rintro (hnil | ⟨line', rest, heq, hmatch | hrest⟩)
        . exact absurd hnil hne
        . obtain ⟨rfl, rfl⟩ := List.cons.inj heq
          exact absurd hmatch hdiff
        . obtain ⟨rfl, rfl⟩ := List.cons.inj heq
          exact hrest
      . exact fun hrest => Or.inr ⟨line₂, typed, rfl, Or.inr hrest⟩
    rw [hsettles]
    constructor
    . exact fun hrest => ((hyes hrest).cons line₂).cons line
    . intro hrest
      obtain ⟨hend, htable⟩ := hno hrest
      have hlast : ¬(tries + 1 = 0 ∨ line :: line₂ :: typed = []) := by simp
      refine ⟨hend, ?_⟩
      rw [if_neg hlast, htable]
      split
      . rfl
      . exact setPassword_setPassword _ _

theorem allOrNothing_iff (h : idx < acc.users.length) (lines : List CStr)
    : AllOrNothing acc idx lines (newPasswordRun acc idx 2 lines)
      ↔ (acc.user idx).password = [] ∨ lines = [] ∨ Settles 2 lines := by
  obtain ⟨hyes, hno⟩ := newPasswordRun_cases h 2 lines
  by_cases hsettles : Settles 2 lines
  . exact iff_of_true (hyes hsettles).allOrNothing (Or.inr (Or.inr hsettles))
  . obtain ⟨hend, htable⟩ := hno hsettles
    have hsame : AllOrNothing acc idx lines (newPasswordRun acc idx 2 lines)
        ↔ (newPasswordRun acc idx 2 lines).2 = acc := by
      constructor
      . intro hall
        apply hall.unchanged
        . rintro hup
          simp [hup] at hend
        . rintro her
          simp [her] at hend
      . intro heq
        refine ⟨fun hup => ?_, fun her => ?_, fun _ _ => heq⟩
        . simp [hup] at hend
        . simp [her] at hend
    rw [hsame, htable]
    by_cases hlines : lines = []
    . simp [hlines]
    . simp only [hlines, hsettles, or_false]
      constructor
      . intro heq
        by_contra hold
        exact setPassword_ne h hold heq
      . exact fun hold => setPassword_self hold

end Passwd

theorem passwdLines_ok {cur : Session} {acc : Accounts} {input : CmdInput} {idx : Nat}
    {lines : List CStr} (h : passwdLines cur acc input = .ok (idx, lines))
    : idx < acc.users.length := by
  unfold passwdLines at h
  dsimp only at h
  split at h
  . contradiction
  . next i hfind =>
    obtain ⟨hlt, _⟩ := Accounts.userFind_eq_some hfind
    have hidx : i = idx := by
      split at h
      . contradiction
      . split at h
        . split at h
          . contradiction
          . split at h
            . contradiction
            . exact congrArg Prod.fst (Except.ok.inj h)
        . exact congrArg Prod.fst (Except.ok.inj h)
    rw [← hidx]
    exact hlt

/--
What `passwd` leaves is what it says.
-/
def PasswdSafe (cur : Session) (acc : Accounts) (input : CmdInput) : Prop :=
  match passwdLines cur acc input with
  | .error _ => (passwdRun cur acc input).2 = acc
  | .ok (idx, lines) => AllOrNothing acc idx lines (passwdRun cur acc input)

/--
The account has no password, or no new one has been typed yet, or an attempt comes to its end.
-/
def PasswdSettles (cur : Session) (acc : Accounts) (input : CmdInput) : Prop :=
  match passwdLines cur acc input with
  | .error _ => True
  | .ok (idx, lines) => (acc.user idx).password = [] ∨ lines = [] ∨ Settles 2 lines

/--
`passwd` is all or nothing unless the attempts fail or stop in the middle: then the password is gone.
-/
theorem passwd_all_or_nothing (cur : Session) (acc : Accounts) (input : CmdInput)
    : cmdPasswd cur acc input = (whenDone (passwdRun cur acc input)).map (·, [])
      ∧ (PasswdSafe cur acc input ↔ PasswdSettles cur acc input) := by
  refine ⟨cmdPasswd_eq cur acc input, ?_⟩
  unfold PasswdSafe PasswdSettles passwdRun
  cases hlines : passwdLines cur acc input with
  | error e => simp
  | ok r => exact allOrNothing_iff (passwdLines_ok hlines) r.2

/--
Root has a password and mistypes a new one twice: "password unchanged", but it is gone.
-/
theorem not_passwd_all_or_nothing : ¬∀ cur acc input, PasswdSafe cur acc input := by
  intro h
  have hsafe := h rootSession (setPassword bootAccounts 0 [112])
    ⟨⟨[], by decide⟩, ⟨[], by decide⟩,
      [⟨[97], by decide⟩, ⟨[98], by decide⟩, ⟨[97], by decide⟩, ⟨[98], by decide⟩]⟩
  have hsame := AllOrNothing.unchanged hsafe (by decide) (by decide)
  have hpass := congrArg (fun acc => (Accounts.user acc 0).password) hsame
  revert hpass
  decide

end TanjaOS
