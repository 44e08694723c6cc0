import TanjaOS.Lib.Split
import TanjaOS.Account.Config

/-!
Look ups in the account table, and what the commands can get out of their arguments.
-/

open Lib

namespace TanjaOS

/--
A text that a `char` array of `n` bytes has room for.
-/
structure TextOk (n : Nat) (text : Bytes) : Prop where
  length_lt : text.length < n
  no_nul : 0 ∉ text

theorem TextOk.take {n : Nat} {text : Bytes} (hn : 0 < n) (h : 0 ∉ text)
    : TextOk n (text.take (n - 1)) := by
  refine ⟨?_, fun hmem => h (List.mem_of_mem_take hmem)⟩
  rw [List.length_take]
  omega

theorem TextOk.nil {n : Nat} (hn : 0 < n) : TextOk n [] :=
  ⟨hn, by simp⟩

theorem TextOk.take_eq {n : Nat} {text : Bytes} (h : TextOk n text) : text.take (n - 1) = text := by
  have := h.length_lt
  apply List.take_of_length_le
  omega

namespace Accounts

def usernames (acc : Accounts) : List Bytes :=
  acc.users.map User.username

def uids (acc : Accounts) : List Int32 :=
  acc.users.map User.uid

variable {acc : Accounts} {name : Bytes}

theorem userFind_eq_some {idx : Nat} (h : acc.userFind name = some idx)
    : ∃ hlt : idx < acc.users.length, acc.users[idx].username = name ∧ name ≠ [] := by
  unfold userFind at h
  rw [List.findIdx?_eq_some_iff_getElem] at h
  obtain ⟨hlt, hname, _⟩ := h
  simp only [ne_eq, decide_eq_true_eq] at hname
  refine ⟨hlt, hname.2, ?_⟩
  rw [← hname.2]
  exact hname.1

theorem userFind_eq_none (hname : name ≠ [])
    : acc.userFind name = none ↔ name ∉ acc.usernames := by
  unfold userFind usernames
  rw [List.findIdx?_eq_none_iff]
  simp only [ne_eq, decide_eq_false_iff_not, not_and, List.mem_map, not_exists]
  constructor
  . intro h u hu heq
    exact h u hu (heq ▸ hname) heq
  . intro h u hu _ heq
    exact h u hu heq

theorem userFind_isSome (hname : name ≠ [])
    : (acc.userFind name).isSome ↔ name ∈ acc.usernames := by
  rw [← Option.ne_none_iff_isSome, ne_eq, userFind_eq_none hname, Decidable.not_not]

theorem groupFind_eq_none (hname : name ≠ [])
    : acc.groupFind name = none ↔ name ∉ acc.groups.map Group.name := by
  unfold groupFind
  rw [List.findIdx?_eq_none_iff]
  simp only [ne_eq, decide_eq_false_iff_not, not_and, List.mem_map, not_exists]
  constructor
  . intro h g hg heq
    exact h g hg (heq ▸ hname) heq
  . intro h g hg _ heq
    exact h g hg heq

theorem user_eq {idx : Nat} (h : idx < acc.users.length) : acc.user idx = acc.users[idx] := by
  unfold user
  rw [List.getD_eq_getElem?_getD, List.getElem?_eq_getElem h]
  rfl

theorem user_mem {idx : Nat} (h : idx < acc.users.length) : acc.user idx ∈ acc.users := by
  rw [user_eq h]
  exact List.getElem_mem h

end Accounts

section Args

structure WordOk (tok : Bytes) : Prop where
  ne_nil : tok ≠ []
  no_nul : 0 ∉ tok

theorem splitArgs_ok {s : Bytes} {max : Nat} (hs : 0 ∉ s) : ∀ tok ∈ splitArgs s max, WordOk tok := by
  intro tok htok
  have hmem := List.mem_of_mem_take htok
  rw [List.mem_filter] at hmem
  refine ⟨by simpa using hmem.2, ?_⟩
  intro hnul
  exact hs (mem_splitOnP hmem.1 0 hnul).1

theorem strncpyText_no_nul {cap : Nat} (args behind : CStr)
    : 0 ∉ strncpyText cap args.val behind.val := by
  unfold strncpyText
  split
  . exact args.property
  . rw [List.mem_append]
    rintro (hnul | hnul)
    . exact args.property (List.mem_of_mem_take hnul)
    . exact behind.property hnul

theorem firstArg_ok {input : CmdInput} {name : Bytes} (h : firstArg input = some name)
    : WordOk name := by
  apply splitArgs_ok (strncpyText_no_nul input.args input.behind)
  exact List.mem_of_head? h

structure UseraddArgs.Ok (o : UseraddArgs) : Prop where
  pass : ∀ pass, o.pass = some pass → WordOk pass
  name : ∀ name, o.name = some name → WordOk name

theorem useraddArgs_ok {o o' : UseraddArgs} {toks : List Bytes} (h : useraddArgs o toks = some o')
    (ho : o.Ok) (htoks : ∀ tok ∈ toks, WordOk tok)
    : o'.Ok := by
  fun_induction useraddArgs o toks with
  | case1 o =>
    injection h with h
    rwa [← h]
  | case2 o tok hnone =>
    injection h with h
    subst h
    refine ⟨ho.pass, ?_⟩
    rintro _ ⟨⟩
    exact htoks tok (by simp)
  | case3 => contradiction
  | case4 o val rest ih =>
    apply ih h ⟨?_, ho.name⟩
    . intro tok htok
      exact htoks tok (by simp [htok])
    . rintro _ ⟨⟩
      exact htoks val (by simp)
  | case5 o val rest _ ih =>
    apply ih h ⟨ho.pass, ho.name⟩
    intro tok htok
    exact htoks tok (by simp [htok])
  | case6 o tok val rest _ _ hnone ih =>
    apply ih h ⟨ho.pass, ?_⟩
    . intro tok htok
      exact htoks tok (by simp only [List.mem_cons] at htok ⊢; tauto)
    . rintro _ ⟨⟩
      exact htoks tok (by simp)
  | case7 => contradiction

theorem userdelArgs_ok {o o' : UserdelArgs} {toks : List Bytes} (h : userdelArgs o toks = some o')
    (ho : ∀ name, o.name = some name → WordOk name) (htoks : ∀ tok ∈ toks, WordOk tok)
    : ∀ name, o'.name = some name → WordOk name := by
  fun_induction userdelArgs o toks with
  | case1 o =>
    injection h with h
    rwa [← h]
  | case2 o rest ih => exact ih h ho (fun tok htok => htoks tok (by simp [htok]))
  | case3 => contradiction
  | case4 o tok rest _ _ _ ih =>
    apply ih h
    . rintro _ ⟨⟩
      exact htoks tok (by simp)
    . exact fun tok htok => htoks tok (by simp [htok])
  | case5 => contradiction

structure UsermodArgs.Ok (o : UsermodArgs) : Prop where
  pass : ∀ pass, o.pass = some pass → WordOk pass
  newname : ∀ newname, o.newname = some newname → WordOk newname
  glist : ∀ glist, o.glist = some glist → WordOk glist
  name : ∀ name, o.name = some name → WordOk name

theorem usermodValue_ok {o : UsermodArgs} {fl : Byte} {val : Bytes} (ho : o.Ok) (hval : WordOk val)
    : (usermodValue o fl val).Ok := by
  unfold usermodValue
  split
  . refine ⟨?_, ho.newname, ho.glist, ho.name⟩
    rintro _ ⟨⟩
    exact hval
  . split
    . refine ⟨ho.pass, ?_, ho.glist, ho.name⟩
      rintro _ ⟨⟩
      exact hval
    . split
      . exact ⟨ho.pass, ho.newname, ho.glist, ho.name⟩
      . refine ⟨ho.pass, ho.newname, ?_, ho.name⟩
        rintro _ ⟨⟩
        exact hval

theorem usermodFlags_ok {o o' : UsermodArgs} {next : Option Bytes} {fl : Bytes} {used : Bool}
    (h : usermodFlags o next fl = some (o', used)) (ho : o.Ok)
    (hnext : ∀ val, next = some val → WordOk val) (hfl : 0 ∉ fl)
    : o'.Ok := by
  fun_induction usermodFlags o next fl with
  | case1 o =>
    injection h with h
    injection h with h _
    rwa [← h]
  | case2 o rest ih => exact ih h ⟨ho.pass, ho.newname, ho.glist, ho.name⟩ (by simp at hfl; exact hfl)
  | case3 o rest _ ih =>
    exact ih h ⟨ho.pass, ho.newname, ho.glist, ho.name⟩ (by simp at hfl; exact hfl)
  | case4 o rest _ _ ih =>
    exact ih h ⟨ho.pass, ho.newname, ho.glist, ho.name⟩ (by simp at hfl; exact hfl)
  | case5 o fl rest _ _ _ _ hne =>
    injection h with h
    injection h with h _
    rw [← h]
    exact usermodValue_ok ho ⟨hne, fun hnul => hfl (List.mem_cons_of_mem _ hnul)⟩
  | case6 o fl rest _ _ _ _ _ val hval =>
    injection h with h
    injection h with h _
    rw [← h]
    exact usermodValue_ok ho (hnext val hval)
  | case7 => contradiction
  | case8 => contradiction

theorem usermodWord_ok {o o' : UsermodArgs} {next : Option Bytes} {tok : Bytes} {used : Bool}
    (h : usermodWord o tok next = some (o', used)) (ho : o.Ok)
    (hnext : ∀ val, next = some val → WordOk val) (htok : WordOk tok)
    : o'.Ok := by
  unfold usermodWord at h
  split at h
  . next fl rest =>
    apply usermodFlags_ok h ho hnext
    intro hnul
    exact htok.no_nul (List.mem_cons_of_mem _ hnul)
  . split at h
    . injection h with h
      injection h with h _
      subst h
      refine ⟨ho.pass, ho.newname, ho.glist, ?_⟩
      rintro _ ⟨⟩
      exact htok
    . contradiction

theorem usermodArgs_ok {o o' : UsermodArgs} {toks : List Bytes} (h : usermodArgs o toks = some o')
    (ho : o.Ok) (htoks : ∀ tok ∈ toks, WordOk tok)
    : o'.Ok := by
  fun_induction usermodArgs o toks with
  | case1 o =>
    injection h with h
    rwa [← h]
  | case2 => contradiction
  | case3 o tok o₁ used hword =>
    injection h with h
    rw [← h]
    exact usermodWord_ok hword ho (by simp) (htoks tok (by simp))
  | case4 => contradiction
  | case5 o tok val rest o₁ hword ih =>
    apply ih h
    . exact usermodWord_ok hword ho (by rintro _ ⟨⟩; exact htoks val (by simp)) (htoks tok (by simp))
    . intro tok htok
      exact htoks tok (by simp [htok])
  | case6 o tok val rest o₁ hword ih =>
    apply ih h
    . exact usermodWord_ok hword ho (by rintro _ ⟨⟩; exact htoks val (by simp)) (htoks tok (by simp))
    . intro tok htok
      exact htoks tok (List.mem_cons_of_mem _ htok)

end Args

end TanjaOS
