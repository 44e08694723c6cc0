import TanjaOS.Shell.Words
import TanjaOS.Shell.Session

/-!
`sudo` sets the user of the filesystem to root for the time of a command. Commands that look at who
the session belongs to are not fooled by this, and their arguments are expanded twice.
-/

open Lib

namespace TanjaOS

section Expansion

variable {s : FsState} {env : Env}

theorem globAppend_extends (dir : Bytes) (names : List Bytes) (out : Bytes)
    : out <+: globAppend dir names out := by
  induction names generalizing out with
  | nil => exact List.prefix_rfl
  | cons name names ih =>
    unfold globAppend
    split
    . exact List.prefix_rfl
    . apply List.IsPrefix.trans _ (ih _)
      split
      . rw [List.append_assoc, List.append_assoc]
        exact List.prefix_append _ _
      . rw [List.append_assoc]
        exact List.prefix_append _ _

theorem expandGlobsLoop_extends (toks : List Bytes) (out : Bytes) (first : Bool)
    : out <+: expandGlobsLoop s toks out first := by
  induction toks generalizing out first with
  | nil => exact List.prefix_rfl
  | cons tok toks ih =>
    have hblank : out <+: if ¬first ∧ out.length < inputBufferSize - 1 then out ++ [32] else out := by
      split
      . exact List.prefix_append _ _
      . exact List.prefix_rfl
    unfold expandGlobsLoop
    dsimp only
    generalize (if ¬first ∧ out.length < inputBufferSize - 1 then out ++ [32] else out) = out' at hblank ⊢
    split
    . exact hblank.trans ((globAppend_extends _ _ _).trans (ih _ _))
    . split
      . exact hblank.trans ((List.prefix_append _ _).trans (ih _ _))
      . exact hblank

theorem expandVarsLoop_append {text rest : Bytes} {fuel room : Nat} (htext : 36 ∉ text)
    (hroom : text.length ≤ room)
    : expandVarsLoop env (text.length + fuel) (text ++ rest) room
      = text ++ expandVarsLoop env fuel rest (room - text.length) := by
  induction text generalizing room with
  | nil => simp
  | cons b text ih =>
    rw [List.length_cons] at hroom
    have hb : b ≠ 36 := by
      rintro rfl
      simp at htext
    rw [List.length_cons, Nat.add_right_comm, List.cons_append, expandVarsLoop, if_neg (by omega),
      if_neg (by simp [hb]), if_neg (by simp [hb]), ih (fun h => htext (List.mem_cons_of_mem b h)) (by omega),
      List.cons_append, Nat.sub_sub, Nat.add_comm 1]

theorem expandVars_plain {text : Bytes} (htext : 36 ∉ text) (hlen : text.length < inputBufferSize)
    : expandVars env text = text := by
  have happend := @expandVarsLoop_append env text [] 0 (inputBufferSize - 1) htext (by omega)
  rw [List.append_nil, Nat.add_zero] at happend
  unfold expandVars
  rw [happend]
  simp [expandVarsLoop]

theorem globToken_plain {tok : Bytes} (htok : star ∉ tok) : globToken s tok = none := by
  unfold globToken
  dsimp only
  rw [if_neg (fun h => htok h.1)]

theorem expandGlobsLoop_behind {toks : List Bytes} {out : Bytes} (hout : out.length < inputBufferSize - 1)
    : ∃ rest, expandGlobsLoop s toks out false = out ++ rest ∧ (rest = [] ∨ rest.head? = some 32) := by
  cases toks with
  | nil => exact ⟨[], by simp [expandGlobsLoop], Or.inl rfl⟩
  | cons tok toks =>
    have hblank : out ++ [32] <+: expandGlobsLoop s (tok :: toks) out false := by
      unfold expandGlobsLoop
      rw [if_pos ⟨by simp, hout⟩]
      dsimp only
      split
      . exact (globAppend_extends _ _ _).trans (expandGlobsLoop_extends _ _ _)
      . split
        . exact (List.prefix_append _ _).trans (expandGlobsLoop_extends _ _ _)
        . exact List.prefix_rfl
    obtain ⟨rest, hrest⟩ := hblank
    refine ⟨32 :: rest, ?_, Or.inr rfl⟩
    rw [← hrest, List.append_assoc, List.singleton_append]

theorem expand_name {name rest : Bytes} (hne : name ≠ []) (hname : ∀ x ∈ name, isBlank x = false)
    (hvar : 36 ∉ name) (hstar : star ∉ name) (hlen : name.length < inputBufferSize - 1)
    (hrest : rest = [] ∨ rest.head? = some 32)
    : ∃ rest', expandGlobs s (expandVars env (name ++ rest)) = name ++ rest'
      ∧ (rest' = [] ∨ rest'.head? = some 32) := by
  have hwords : ∃ toks, words (expandVars env (name ++ rest)) = name :: toks := by
    cases hrest with
    | inl hnil =>
      rw [hnil, List.append_nil, expandVars_plain hvar (by omega)]
      exact ⟨[], words_single hname hne⟩
    | inr hblank =>
      obtain ⟨t, rfl⟩ := List.head?_eq_some_iff.mp hblank
      unfold expandVars
      rw [List.length_append, List.length_cons, expandVarsLoop_append hvar (by omega), expandVarsLoop,
        if_neg (by omega), if_neg (by simp), if_neg (by simp), words_cons hname hne]
      exact ⟨_, rfl⟩
  obtain ⟨toks, htoks⟩ := hwords
  unfold expandGlobs
  rw [htoks, expandGlobsLoop, globToken_plain hstar, if_neg (by simp)]
  dsimp only
  rw [if_pos (by simpa using hlen), List.nil_append]
  exact expandGlobsLoop_behind hlen

theorem splitCommand_append {name rest : Bytes} (hne : name ≠ []) (hname : ∀ x ∈ name, isBlank x = false)
    (hlen : name.length ≤ 31) (hrest : rest = [] ∨ rest.head? = some 32)
    : splitCommand (name ++ rest) = some (name, rest.dropWhile (· = 32)) := by
  have h32 : ∀ x ∈ name, x ≠ 32 := by
    rintro x hx rfl
    exact absurd (hname 32 hx) (by decide)
  have hdrop : (name ++ rest).dropWhile (· = 32) = name ++ rest := by
    obtain ⟨x, t, rfl⟩ := List.exists_cons_of_ne_nil hne
    rw [List.cons_append, List.dropWhile_cons_of_neg (by simpa using h32 x (by simp))]
  have htake : (name ++ rest).takeWhile (· ≠ 32) = name := by
    rw [List.takeWhile_append_of_pos (by simpa using h32)]
    cases hrest with
    | inl hnil => simp [hnil]
    | inr hblank =>
      obtain ⟨t, rfl⟩ := List.head?_eq_some_iff.mp hblank
      simp
  unfold splitCommand
  rw [hdrop, if_neg (by simp [hne]), htake, List.take_of_length_le hlen]
  dsimp only
  rw [List.drop_left]

theorem splitCommand_eq_some {line name args : Bytes} (h : splitCommand line = some (name, args))
    (hlen : name.length < 31)
    : ∃ rest, line.dropWhile (· = 32) = name ++ rest ∧ (rest = [] ∨ rest.head? = some 32)
      ∧ args = rest.dropWhile (· = 32) := by
  unfold splitCommand at h
  dsimp only at h
  split at h
  . contradiction
  . generalize line.dropWhile (· = 32) = line' at h ⊢
    simp only [Option.some.injEq, Prod.mk.injEq] at h
    obtain ⟨hname, hargs⟩ := h
    have hall : line'.takeWhile (· ≠ 32) = name := by
      have hle : (line'.takeWhile (· ≠ 32)).length ≤ 31 := by
        rw [← hname, List.length_take] at hlen
        omega
      rw [List.take_of_length_le hle] at hname
      exact hname
    refine ⟨line'.dropWhile (· ≠ 32), ?_, ?_, ?_⟩
    . rw [← hall, List.takeWhile_append_dropWhile]
    . cases hrest : line'.dropWhile (· ≠ 32) with
      | nil => exact Or.inl rfl
      | cons x t =>
        have hx := List.head?_dropWhile_not (· ≠ 32) line'
        rw [hrest] at hx
        exact Or.inr (by simpa using hx)
    . rw [hname] at hargs
      rw [← hargs]
      congr 1
      have happend := List.takeWhile_append_dropWhile (p := (· ≠ 32)) (l := line')
      rw [hall] at happend
      rw [← happend, List.drop_left, happend]

theorem expandGlobsLoop_plain {toks : List Bytes} {out : Bytes} (htoks : ∀ tok ∈ toks, star ∉ tok)
    (hlen : out.length + (toks.map (·.length + 1)).sum < inputBufferSize - 1)
    : expandGlobsLoop s toks out false = out ++ toks.flatMap (32 :: ·) := by
  induction toks generalizing out with
  | nil => simp [expandGlobsLoop]
  | cons tok toks ih =>
    rw [List.map_cons, List.sum_cons] at hlen
    rw [expandGlobsLoop, globToken_plain (htoks tok List.mem_cons_self), if_pos ⟨by simp, by omega⟩]
    dsimp only
    rw [List.length_append, List.length_singleton, if_pos (by omega),
      ih (fun tok h => htoks tok (List.mem_cons_of_mem _ h)) _, List.flatMap_cons]
    . simp only [List.append_assoc, List.cons_append, List.nil_append]
    . rw [List.length_append, List.length_append, List.length_singleton]
      omega

theorem expandGlobs_plain {text : Bytes} (htext : star ∉ text) (hlen : text.length < inputBufferSize - 2)
    : expandGlobs s text = spaced (words text) := by
  have hwords : ∀ w ∈ words text, star ∉ w :=
    fun w hw hstar => htext ((mem_words hw).2.2 star hstar)
  have hsum := sum_length_words text
  unfold expandGlobs
  generalize words text = ws at *
  cases ws with
  | nil => rfl
  | cons w ws =>
    rw [List.map_cons, List.sum_cons] at hsum
    rw [expandGlobsLoop, globToken_plain (hwords w List.mem_cons_self), if_neg (by simp)]
    dsimp only
    rw [if_pos (by simp; omega), List.nil_append,
      expandGlobsLoop_plain (fun tok h => hwords tok (List.mem_cons_of_mem w h)) (by omega)]
    rfl

end Expansion

namespace Kernel

/--
A command line with a built in command other than `sudo`.
-/
def runLine (k : Kernel) (fuel : Nat) (line : Bytes) (behind : CStr) (typed : List CStr) : Option Kernel := do
  let (b, args) ← k.resolve line
  k.runBuiltin fuel b ⟨cstr args, behind, typed⟩

def sudoLine (c : Bytes) : Bytes :=
  Builtin.sudo.name ++ 32 :: c

/--
The command line that `sudo` is left with.
-/
def sudoArgs (k : Kernel) (c : Bytes) : Bytes :=
  k.finalArgs Builtin.sudo.name (c.dropWhile (· = 32))

/--
`sudo c` in a session that is not root's.
-/
def runSudo (k : Kernel) (fuel : Nat) (c : Bytes) (behind : CStr) (typed : List CStr) : Option Kernel := do
  let (allowed, rest) ← k.sudoAllowed typed
  if allowed then
    ((k.withUid 0).runLine fuel (k.sudoArgs c) behind rest).map (·.withUid k.fs.fsCurUid)
  else
    some k

def asRoot (k : Kernel) : Kernel :=
  { k.withUid 0 with
    curUsername := rootName
    curUid := 0 }

end Kernel

/--
`sudo c` does to accounts and files what `c` does in a session of root, and the session stays what
it was. `behind` is what the stack holds behind the arguments.
-/
structure SudoSame (k : Kernel) (c : Bytes) (behind : CStr) : Prop where
  effect : ∀ fuel typed rest kr, k.sudoAllowed typed = some (true, rest) →
    k.asRoot.runLine fuel c behind rest = some kr →
    ∃ ks, k.runSudo fuel c behind typed = some ks ∧ ks.acc = kr.acc
      ∧ ks.fs = { kr.fs with fsCurUid := k.fs.fsCurUid }
  user : ∀ fuel typed ks, k.runSudo fuel c behind typed = some ks →
    ks.curUid = k.curUid ∧ ks.curUsername = k.curUsername ∧ ks.fs.fsCurUid = k.fs.fsCurUid

def Builtin.checksSession : Builtin → Bool
  | .useradd | .userdel | .usermod | .groupadd | .groupdel | .passwd => true
  | _ => false

/--
`c` changes nothing, not even for root.
-/
def Idle (k : Kernel) (c : Bytes) (behind : CStr) : Prop :=
  ∀ fuel typed kr, k.asRoot.runLine fuel c behind typed = some kr →
    kr.acc = k.acc ∧ kr.fs = { k.fs with fsCurUid := 0 }

/--
The commands that check the session have nothing to do, and `passwd` is not about the session's own
user when it has been through `sudo`. The others do not mind that their arguments are expanded twice.
-/
def SudoFine (k : Kernel) (c : Bytes) (behind : CStr) (b : Builtin) : Prop :=
  if b.checksSession then
    Idle k c behind ∧ (b = .passwd → ∀ args, k.asRoot.resolve (k.sudoArgs c) = some (b, args) →
      ∃ name ≠ k.curUsername, firstArg ⟨cstr args, behind, []⟩ = some name)
  else
    ∀ fuel typed, k.asRoot.runLine fuel (k.sudoArgs c) behind typed = k.asRoot.runLine fuel c behind typed

section Lines

variable {k k' : Kernel} {c args : Bytes} {b : Builtin}

theorem named_eq_some {name : Bytes} (h : Builtin.named name = some b) : name = b.name := by
  have heq := List.find?_some h
  exact (of_decide_eq_true heq).symm

theorem Builtin.name_ok (b : Builtin)
    : b.name ≠ [] ∧ (∀ x ∈ b.name, isBlank x = false) ∧ 36 ∉ b.name ∧ star ∉ b.name
      ∧ b.name.length < 31 := by
  cases b <;> simp [Builtin.name, isBlank, star]

theorem Builtin.named_name (b : Builtin) : Builtin.named b.name = some b := by
  cases b <;> decide

theorem resolve_eq_some (h : k.resolve c = some (b, args))
    : ∃ rest, c.dropWhile (· = 32) = b.name ++ rest ∧ (rest = [] ∨ rest.head? = some 32)
      ∧ args = k.finalArgs b.name (rest.dropWhile (· = 32)) := by
  unfold Kernel.resolve at h
  simp only [Option.bind_eq_bind, Option.bind_eq_some_iff, Option.pure_def, Option.some.injEq,
    Prod.mk.injEq, Prod.exists] at h
  obtain ⟨name, args₀, hline, b', hnamed, rfl, rfl⟩ := h
  rw [named_eq_some hnamed] at hline ⊢
  obtain ⟨rest, hrest, hhead, rfl⟩ := splitCommand_eq_some hline b'.name_ok.2.2.2.2
  exact ⟨rest, hrest, hhead, rfl⟩

theorem resolve_append {rest : Bytes} (hrest : rest = [] ∨ rest.head? = some 32)
    : k.resolve (b.name ++ rest) = some (b, k.finalArgs b.name (rest.dropWhile (· = 32))) := by
  obtain ⟨hne, hblank, _, _, hlen⟩ := b.name_ok
  unfold Kernel.resolve
  rw [splitCommand_append hne hblank (by omega) hrest]
  simp [Builtin.named_name]

theorem resolve_sudoLine : k.resolve (Kernel.sudoLine c) = some (.sudo, k.sudoArgs c) := by
  unfold Kernel.sudoLine
  rw [resolve_append (Or.inr rfl), List.dropWhile_cons_of_pos (by simp)]
  rfl

theorem resolve_sudoArgs (h : k.asRoot.resolve c = some (b, args))
    : ∃ args₂, k.asRoot.resolve (k.sudoArgs c) = some (b, args₂) := by
  obtain ⟨rest, hline, hrest, _⟩ := resolve_eq_some h
  obtain ⟨hne, hblank, hvar, hstar, hlen⟩ := b.name_ok
  have hbuf : b.name.length < inputBufferSize - 1 := by
    unfold inputBufferSize
    omega
  obtain ⟨rest', heq, hrest'⟩ := @expand_name k.fs k.env b.name rest hne hblank hvar hstar hbuf hrest
  unfold Kernel.sudoArgs Kernel.finalArgs
  rw [if_neg (by decide), hline, heq]
  exact ⟨_, resolve_append hrest'⟩

end Lines

section Sudo

variable {k k' kr : Kernel} {c args args₂ : Bytes} {b : Builtin} {behind : CStr} {typed rest : List CStr}
  {fuel : Nat} {input : CmdInput}

theorem sudoTries_allowed {password : Bytes} {tries : Nat}
    (h : Kernel.sudoTries password tries typed = some (true, rest))
    : password ≠ [] ∧ ∃ pre, ∃ line : CStr, readLine maxPassword line = password
      ∧ ∀ rest', Kernel.sudoTries password tries (pre ++ rest') = some (true, rest') := by
  fun_induction Kernel.sudoTries password tries typed with
  | case1 => simp at h
  | case2 => contradiction
  | case3 => simp at h
  | case4 tries line typed pw hne hmatch =>
    refine ⟨hmatch.1, [line], line, hmatch.2, ?_⟩
    intro rest'
    rw [List.singleton_append, Kernel.sudoTries, if_neg hne, if_pos hmatch]
  | case5 tries line typed pw hne hmatch ih =>
    obtain ⟨hpass, pre, right, hright, hpre⟩ := ih h
    refine ⟨hpass, line :: pre, right, hright, ?_⟩
    intro rest'
    rw [List.cons_append, Kernel.sudoTries, if_neg hne, if_neg hmatch]
    exact hpre rest'

theorem sudoAllowed_rest (h : k.sudoAllowed typed = some (true, rest))
    : ∃ self pre, ∃ line : CStr, k.acc.userFind k.curUsername = some self
      ∧ (k.acc.user self).password ≠ [] ∧ readLine maxPassword line = (k.acc.user self).password
      ∧ ∀ rest', k.sudoAllowed (pre ++ rest') = some (true, rest') := by
  unfold Kernel.sudoAllowed at h
  split at h
  . simp at h
  . next hwheel =>
    split at h
    . simp at h
    . next self hself =>
      obtain ⟨hpass, pre, line, hline, hpre⟩ := sudoTries_allowed h
      refine ⟨self, pre, line, hself, hpass, hline, ?_⟩
      intro rest'
      unfold Kernel.sudoAllowed
      rw [if_neg hwheel, hself]
      exact hpre rest'

theorem runLine_eq (h : k.resolve c = some (b, args))
    : k.runLine fuel c behind typed = k.runBuiltin fuel b ⟨cstr args, behind, typed⟩ := by
  unfold Kernel.runLine
  rw [h]
  rfl

theorem runSudo_allowed (hallowed : k.sudoAllowed typed = some (true, rest))
    (hline : k.asRoot.resolve (k.sudoArgs c) = some (b, args₂))
    : k.runSudo fuel c behind typed
      = ((k.withUid 0).runBuiltin fuel b ⟨cstr args₂, behind, rest⟩).map (·.withUid k.fs.fsCurUid) := by
  have hline : (k.withUid 0).resolve (k.sudoArgs c) = some (b, args₂) := hline
  unfold Kernel.runSudo
  rw [hallowed, ← runLine_eq hline]
  rfl

theorem runBuiltin_session (hsu : b ≠ .su) (h : k.runBuiltin fuel b input = some k')
    : k'.curUid = k.curUid ∧ k'.curUsername = k.curUsername := by
  unfold Kernel.runBuiltin at h
  split at h
  . simp only [Option.bind_eq_bind, Option.bind_eq_some_iff, Option.pure_def, Option.some.injEq,
      Prod.exists] at h
    obtain ⟨acc, ops, _, fs, _, rfl⟩ := h
    exact ⟨rfl, rfl⟩
  . split at h
    . rw [← Option.some.inj h]
      exact ⟨rfl, rfl⟩
    . contradiction
    . rw [← Option.some.inj h]
      exact ⟨rfl, rfl⟩
    . rw [← Option.some.inj h]
      exact ⟨rfl, rfl⟩
    . rw [← Option.some.inj h]
      exact ⟨rfl, rfl⟩

theorem runSudo_user (hline : k.asRoot.resolve (k.sudoArgs c) = some (b, args₂)) (hsu : b ≠ .su)
    (h : k.runSudo fuel c behind typed = some k')
    : k'.curUid = k.curUid ∧ k'.curUsername = k.curUsername ∧ k'.fs.fsCurUid = k.fs.fsCurUid := by
  cases hallowed : k.sudoAllowed typed with
  | none => simp [Kernel.runSudo, hallowed] at h
  | some r =>
    obtain ⟨allowed, rest⟩ := r
    cases allowed with
    | false =>
      simp only [Kernel.runSudo, hallowed, Option.bind_eq_bind, Option.bind_some, Bool.false_eq_true,
        if_false, Option.some.injEq] at h
      rw [h]
      exact ⟨rfl, rfl, rfl⟩
    | true =>
      rw [runSudo_allowed hallowed hline, Option.map_eq_some_iff] at h
      obtain ⟨k₁, hrun, rfl⟩ := h
      obtain ⟨huid, hname⟩ := runBuiltin_session hsu hrun
      exact ⟨huid, hname, rfl⟩

theorem Builtin.eq_of_not_checksSession (h : b.checksSession = false)
    (hother : b ≠ .su ∧ b ≠ .sudo ∧ b ≠ .exit)
    : b = .hostname ∨ b = .groups ∨ b = .chmod ∨ b = .chown := by
  revert h hother
  cases b <;> decide

theorem runBuiltin_open (hb : b.checksSession = false) (hother : b ≠ .su ∧ b ≠ .sudo ∧ b ≠ .exit)
    (k : Kernel) (fuel : Nat) (input : CmdInput)
    : ∃ (acc : Accounts) (fs : FsState), fs.fsCurUid = k.fs.fsCurUid ∧ ∀ k' : Kernel, k'.acc = k.acc →
        k'.fs = k.fs → k'.runBuiltin fuel b input = some { k' with acc := acc, fs := fs } := by
  obtain rfl | rfl | rfl | rfl := Builtin.eq_of_not_checksSession hb hother
  . refine ⟨if input.args.val = [] then k.acc else
      { k.acc with hostname := (input.args.val.takeWhile (· ≠ 32)).take (maxHostname - 1) }, k.fs, rfl, ?_⟩
    intro k' hacc hfs
    rw [← hacc, ← hfs]
    unfold Kernel.runBuiltin AccountCall.result Builtin.accountCmd cmdHostname
    dsimp only
    split
    . rfl
    . rfl
  . refine ⟨k.acc, k.fs, rfl, ?_⟩
    intro k' hacc hfs
    rw [← hacc, ← hfs]
    rfl
  . refine ⟨k.acc, cmdChmod k.fs input, cmdChmod_uid _ _, ?_⟩
    intro k' hacc hfs
    rw [← hacc, ← hfs]
    rfl
  . refine ⟨k.acc, cmdChown k.acc k.fs input, cmdChown_uid _ _ _, ?_⟩
    intro k' hacc hfs
    rw [← hacc, ← hfs]
    rfl

theorem sudo_open (hb : b.checksSession = false) (hother : b ≠ .su ∧ b ≠ .sudo ∧ b ≠ .exit)
    (hline : k.asRoot.resolve c = some (b, args))
    (hline₂ : k.asRoot.resolve (k.sudoArgs c) = some (b, args₂))
    (hallowed : k.sudoAllowed typed = some (true, rest))
    : SudoSame k c behind ↔ ∀ fuel typed,
        k.asRoot.runLine fuel (k.sudoArgs c) behind typed = k.asRoot.runLine fuel c behind typed := by
  constructor
  . intro h fuel typed
    obtain ⟨_, pre, _, _, _, _, hpre⟩ := sudoAllowed_rest hallowed
    obtain ⟨acc, fs, huid, hrun⟩ := runBuiltin_open hb hother k.asRoot fuel ⟨cstr args, behind, typed⟩
    obtain ⟨acc₂, fs₂, huid₂, hrun₂⟩ := runBuiltin_open hb hother k.asRoot fuel ⟨cstr args₂, behind, typed⟩
    rw [runLine_eq hline, runLine_eq hline₂, hrun _ rfl rfl, hrun₂ _ rfl rfl]
    obtain ⟨ks, hsudo, hacc, hfs⟩ := h.effect fuel (pre ++ typed) typed _ (hpre typed)
      ((runLine_eq hline).trans (hrun _ rfl rfl))
    rw [runSudo_allowed (hpre typed) hline₂, hrun₂ (k.withUid 0) rfl rfl, Option.map_some,
      Option.some.injEq] at hsudo
    rw [← hsudo] at hacc hfs
    have hacc : acc₂ = acc := hacc
    have hfs : { fs₂ with fsCurUid := k.fs.fsCurUid } = { fs with fsCurUid := k.fs.fsCurUid } := hfs
    have hsame : fs₂ = fs := by
      have hzero := congrArg (fun s : FsState => { s with fsCurUid := k.asRoot.fs.fsCurUid }) hfs
      dsimp only at hzero
      nth_rewrite 1 [← huid₂] at hzero
      rw [← huid] at hzero
      exact hzero
    rw [hacc, hsame]
  . intro h
    refine ⟨?_, fun fuel typed ks => runSudo_user hline₂ hother.1⟩
    intro fuel typed rest kr hallowed hrunr
    obtain ⟨acc, fs, huid, hrun⟩ := runBuiltin_open hb hother k.asRoot fuel ⟨cstr args₂, behind, rest⟩
    rw [← h fuel rest, runLine_eq hline₂, hrun _ rfl rfl, Option.some.injEq] at hrunr
    rw [runSudo_allowed hallowed hline₂, hrun (k.withUid 0) rfl rfl, ← hrunr]
    exact ⟨_, rfl, rfl, rfl⟩

end Sudo

section Exec

variable {k k' : Kernel} {c args : Bytes} {b : Builtin} {under : Bool}

theorem resolve_of_splitCommand_none (h : splitCommand c = none) : k.resolve c = none := by
  simp [Kernel.resolve, h]

theorem resolve_of_named_none {name : Bytes} (hsplit : splitCommand c = some (name, args))
    (hname : Builtin.named name = none)
    : k.resolve c = none := by
  simp [Kernel.resolve, hsplit, hname]

theorem exec_builtin (hline : k.resolve c = some (b, args)) (hb : b ≠ .sudo)
    (h : Exec (fun _ _ _ => True) under (.command c) k k')
    : ∃ fuel behind typed, k.runLine fuel c behind typed = some k' := by
  cases h with
  | blank hblank =>
    rw [resolve_of_splitCommand_none hblank] at hline
    contradiction
  | builtin b' behind typed fuel hline' hsudo hok hrun =>
    refine ⟨fuel, behind, typed, ?_⟩
    unfold Kernel.runLine
    rw [hline']
    exact hrun
  | sudoRefused hline' =>
    rw [hline, Option.some.injEq, Prod.mk.injEq] at hline'
    exact absurd hline'.1 hb
  | sudoRoot hline' =>
    rw [hline, Option.some.injEq, Prod.mk.injEq] at hline'
    exact absurd hline'.1 hb
  | sudoUser hline' =>
    rw [hline, Option.some.injEq, Prod.mk.injEq] at hline'
    exact absurd hline'.1 hb
  | notRun hsplit hname =>
    rw [resolve_of_named_none hsplit hname] at hline
    contradiction
  | file hsplit hname =>
    rw [resolve_of_named_none hsplit hname] at hline
    contradiction

theorem exec_sudo_iff (hcur : k.curUid ≠ 0) (hline : k.asRoot.resolve c = some (b, args)) (hb : b ≠ .sudo)
    : Exec (fun _ _ _ => True) under (.command (Kernel.sudoLine c)) k k'
      ↔ ∃ fuel behind typed, k.runSudo fuel c behind typed = some k' := by
  have hsudo : k.resolve (Kernel.sudoLine c) = some (.sudo, k.sudoArgs c) := resolve_sudoLine
  obtain ⟨args₂, hline₂⟩ := resolve_sudoArgs hline
  have hline₂ : (k.withUid 0).resolve (k.sudoArgs c) = some (b, args₂) := hline₂
  have hargs : k.sudoArgs c ≠ [] := by
    intro hnil
    rw [hnil] at hline₂
    exact nomatch hline₂
  constructor
  . intro h
    cases h with
    | blank hblank =>
      rw [resolve_of_splitCommand_none hblank] at hsudo
      contradiction
    | builtin b' behind typed fuel hline' hne =>
      rw [hsudo, Option.some.injEq, Prod.mk.injEq] at hline'
      exact absurd hline'.1.symm hne
    | @sudoRefused _ _ args' _ typed rest hline' hrefused =>
      rw [hsudo, Option.some.injEq, Prod.mk.injEq] at hline'
      rw [← hline'.2] at hrefused
      obtain hnil | ⟨_, hfalse⟩ := hrefused
      . exact absurd hnil hargs
      . refine ⟨0, cstr [], typed, ?_⟩
        simp [Kernel.runSudo, hfalse]
    | sudoRoot _ _ hroot => exact absurd hroot hcur
    | @sudoUser _ _ args' _ k₁ typed rest hline' _ _ hallowed hrun =>
      rw [hsudo, Option.some.injEq, Prod.mk.injEq] at hline'
      rw [← hline'.2] at hrun
      obtain ⟨fuel, behind, typed', hrun⟩ := exec_builtin hline₂ hb hrun
      -- the lines for the command are typed after the password
      obtain ⟨_, pre, _, _, _, _, hpre⟩ := sudoAllowed_rest hallowed
      refine ⟨fuel, behind, pre ++ typed', ?_⟩
      unfold Kernel.runSudo
      rw [hpre typed', Option.bind_eq_bind, Option.bind_some]
      dsimp only
      rw [if_pos rfl, hrun, Option.map_some]
    | notRun hsplit hname =>
      rw [resolve_of_named_none hsplit hname] at hsudo
      contradiction
    | file hsplit hname =>
      rw [resolve_of_named_none hsplit hname] at hsudo
      contradiction
  . rintro ⟨fuel, behind, typed, h⟩
    unfold Kernel.runSudo at h
    rw [Option.bind_eq_bind, Option.bind_eq_some_iff] at h
    obtain ⟨⟨allowed, rest⟩, hallowed, h⟩ := h
    dsimp only at h
    split at h
    . next htrue =>
      rw [htrue] at hallowed
      rw [Option.map_eq_some_iff] at h
      obtain ⟨k₁, hrun, rfl⟩ := h
      rw [Kernel.runLine, hline₂] at hrun
      exact .sudoUser hsudo hargs hcur hallowed (.builtin b behind rest fuel hline₂ hb trivial hrun)
    . next hfalse =>
      rw [Bool.not_eq_true] at hfalse
      rw [hfalse] at hallowed
      rw [← Option.some.inj h]
      exact .sudoRefused hsudo (Or.inr ⟨hcur, hallowed⟩)

end Exec

section Refused

variable {k k' : Kernel} {c args args₂ : Bytes} {b : Builtin} {behind : CStr} {typed rest : List CStr}
  {fuel : Nat} {input : CmdInput}

/--
Whether a command that checks the session does nothing, whatever is typed, in a session that is not
root's.
-/
def Refused (k : Kernel) (b : Builtin) (input : CmdInput) : Prop :=
  b = .passwd → ∃ name ≠ k.curUsername, firstArg input = some name

theorem result_refused (hcur : k.curUid ≠ 0) (hb : b.checksSession) (h : Refused k b input)
    : ∃ cmd, b.accountCmd input = some cmd ∧ AccountCall.result ⟨k.session, cmd⟩ k.acc = some (k.acc, []) := by
  cases b <;> simp only [Builtin.checksSession, Bool.false_eq_true] at hb
  case useradd =>
    refine ⟨_, rfl, ?_⟩
    have hrequest : useraddRequest k.session k.acc input = none := by
      simp [useraddRequest, Kernel.session, hcur]
    unfold AccountCall.result cmdUseradd
    dsimp only
    rw [hrequest]
  case userdel =>
    exact ⟨_, rfl, if_pos hcur⟩
  case usermod =>
    refine ⟨_, rfl, ?_⟩
    have hrequest : usermodRequest k.session k.acc input = none := by
      simp [usermodRequest, Kernel.session, hcur]
    unfold AccountCall.result cmdUsermod
    dsimp only
    rw [hrequest]
  case groupadd =>
    exact ⟨_, rfl, if_pos hcur⟩
  case groupdel =>
    exact ⟨_, rfl, if_pos hcur⟩
  case passwd =>
    obtain ⟨name, hname, harg⟩ := h rfl
    refine ⟨_, rfl, ?_⟩
    unfold AccountCall.result cmdPasswd
    dsimp only
    rw [harg, Option.getD_some]
    split
    . rfl
    . exact if_pos ⟨hname, hcur⟩

theorem runBuiltin_of_result {cmd : AccountCmd} {acc : Accounts} (hcmd : b.accountCmd input = some cmd)
    (hresult : AccountCall.result ⟨k.session, cmd⟩ k.acc = some (acc, []))
    : k.runBuiltin fuel b input = some { k with acc := acc } := by
  unfold Kernel.runBuiltin
  rw [hcmd]
  dsimp only
  rw [hresult]
  rfl

theorem runBuiltin_refused (hcur : k.curUid ≠ 0) (hb : b.checksSession) (h : Refused k b input)
    : k.runBuiltin fuel b input = some k := by
  obtain ⟨cmd, hcmd, hresult⟩ := result_refused hcur hb h
  exact runBuiltin_of_result hcmd hresult

theorem Builtin.accountCmd_of_checksSession (hb : b.checksSession) (input : CmdInput)
    : ∃ cmd, b.accountCmd input = some cmd := by
  revert hb
  cases b <;> simp [Builtin.checksSession, Builtin.accountCmd]

theorem runBuiltin_account {cmd : AccountCmd} (hcmd : b.accountCmd input = some cmd)
    (h : k.runBuiltin fuel b input = some k')
    : ∃ ops, AccountCall.result ⟨k.session, cmd⟩ k.acc = some (k'.acc, ops)
      ∧ runHomeOps fuel k.fs ops = some k'.fs := by
  unfold Kernel.runBuiltin at h
  rw [hcmd] at h
  simp only [Option.bind_eq_bind, Option.bind_eq_some_iff, Option.pure_def, Option.some.injEq,
    Prod.exists] at h
  obtain ⟨acc, ops, hresult, fs, hops, rfl⟩ := h
  exact ⟨ops, hresult, hops⟩

theorem sudo_refused (hcur : k.curUid ≠ 0) (hb : b.checksSession) (hsu : b ≠ .su)
    (hline : k.asRoot.resolve c = some (b, args))
    (hline₂ : k.asRoot.resolve (k.sudoArgs c) = some (b, args₂))
    (hrefused : ∀ typed, Refused k b ⟨cstr args₂, behind, typed⟩)
    (hallowed : k.sudoAllowed typed = some (true, rest))
    : SudoSame k c behind ↔ Idle k c behind := by
  have hnothing : ∀ fuel typed rest, k.sudoAllowed typed = some (true, rest) →
      k.runSudo fuel c behind typed = some k := by
    intro fuel typed rest hallowed
    rw [runSudo_allowed hallowed hline₂, runBuiltin_refused (k := k.withUid 0) hcur hb (hrefused rest)]
    rfl
  constructor
  . intro h fuel typed kr hrun
    obtain ⟨_, pre, _, _, _, _, hpre⟩ := sudoAllowed_rest hallowed
    obtain ⟨ks, hsudo, hacc, hfs⟩ := h.effect fuel (pre ++ typed) typed kr (hpre typed) hrun
    rw [hnothing fuel _ _ (hpre typed), Option.some.injEq] at hsudo
    rw [← hsudo] at hacc hfs
    have huid : kr.fs.fsCurUid = 0 := by
      rw [runLine_eq hline] at hrun
      obtain ⟨cmd, hcmd⟩ := Builtin.accountCmd_of_checksSession hb ⟨cstr args, behind, typed⟩
      obtain ⟨ops, _, hops⟩ := runBuiltin_account hcmd hrun
      exact runHomeOps_uid hops
    refine ⟨hacc.symm, ?_⟩
    rw [hfs]
    dsimp only
    rw [← huid]
  . intro h
    refine ⟨?_, fun fuel typed ks => runSudo_user hline₂ hsu⟩
    intro fuel typed rest kr hallowed hrun
    obtain ⟨hacc, hfs⟩ := h fuel rest kr hrun
    refine ⟨k, hnothing fuel typed rest hallowed, hacc.symm, ?_⟩
    rw [hfs]

end Refused

section Passwd

variable {k k' : Kernel} {c args args₂ : Bytes} {behind : CStr} {typed rest : List CStr} {acc : Accounts}

theorem exists_password (p q : Bytes)
    : ∃ line : CStr, readLine maxPassword line ≠ [] ∧ readLine maxPassword line ≠ p
      ∧ readLine maxPassword line ≠ q := by
  have hlen : ∃ n, 0 < n ∧ n ≤ 3 ∧ n ≠ p.length ∧ n ≠ q.length := by
    by_contra hnone
    have h1 : ¬(1 ≠ p.length ∧ 1 ≠ q.length) := fun h => hnone ⟨1, by omega, by omega, h⟩
    have h2 : ¬(2 ≠ p.length ∧ 2 ≠ q.length) := fun h => hnone ⟨2, by omega, by omega, h⟩
    have h3 : ¬(3 ≠ p.length ∧ 3 ≠ q.length) := fun h => hnone ⟨3, by omega, by omega, h⟩
    omega
  obtain ⟨n, hpos, hle, hp, hq⟩ := hlen
  have hread : (readLine maxPassword (List.replicate n 120)).length = n := by
    unfold readLine maxPassword
    rw [List.length_take, List.length_replicate]
    omega
  refine ⟨⟨List.replicate n 120, by simp⟩, ?_, ?_, ?_⟩
  . intro heq
    rw [heq, List.length_nil] at hread
    omega
  . intro heq
    rw [heq] at hread
    exact hp hread.symm
  . intro heq
    rw [heq] at hread
    exact hq hread.symm

theorem newPassword_twice {idx tries : Nat} {line : CStr} (hidx : idx < acc.users.length)
    (hne : readLine maxPassword line ≠ [])
    : ∃ acc', newPassword acc idx (tries + 1) [line, line] = some acc'
      ∧ (acc'.user idx).password = readLine maxPassword line := by
  refine ⟨setPassword (setPassword acc idx []) idx (readLine maxPassword line), ?_, ?_⟩
  . unfold newPassword
    dsimp only
    rw [if_neg hne, if_pos rfl]
  . have hlen : idx < (setPassword (setPassword acc idx []) idx (readLine maxPassword line)).users.length := by
      simpa [setPassword, Accounts.modifyUser] using hidx
    rw [Accounts.user_eq hlen]
    simp [setPassword, Accounts.modifyUser, readLine]

theorem cmdPasswd_own {input : CmdInput} {self : Nat} {line : CStr} (hcur : k.curUid ≠ 0)
    (hown : (firstArg input).getD k.curUsername = k.curUsername)
    (hself : k.acc.userFind k.curUsername = some self) (hpass : (k.acc.user self).password ≠ [])
    (htyped : input.typed = line :: rest)
    : cmdPasswd k.session k.acc input
      = if readLine maxPassword line ≠ (k.acc.user self).password then some (k.acc, [])
        else (newPassword k.acc self 2 rest).map (·, []) := by
  have hown : (firstArg input).getD k.session.curUsername = k.curUsername := hown
  unfold cmdPasswd
  dsimp only
  rw [hown, hself]
  dsimp only
  rw [if_neg (fun h => h.1 rfl), if_pos ⟨hcur, hpass⟩, htyped]

theorem sudo_passwd_own (hcur : k.curUid ≠ 0) (hline : k.asRoot.resolve c = some (.passwd, args))
    (hline₂ : k.asRoot.resolve (k.sudoArgs c) = some (.passwd, args₂))
    (hname : firstArg ⟨cstr args, behind, []⟩ ≠ none)
    (hown : (firstArg ⟨cstr args₂, behind, []⟩).getD k.curUsername = k.curUsername)
    (hallowed : k.sudoAllowed typed = some (true, rest))
    : ¬SudoSame k c behind := by
  intro h
  obtain ⟨self, pre, right, hself, hpass, hright, hpre⟩ := sudoAllowed_rest hallowed
  have hidx := (Accounts.userFind_eq_some hself).1
  -- what root's `passwd` leaves is what `sudo passwd` leaves
  have hsame : ∀ line rest acc, AccountCall.result ⟨k.asRoot.session,
      .passwd ⟨cstr args, behind, line :: rest⟩⟩ k.acc = some (acc, []) →
      ∃ ops : List HomeOp, (if readLine maxPassword line ≠ (k.acc.user self).password then some (k.acc, [])
        else (newPassword k.acc self 2 rest).map (·, [])) = some (acc, ops) := by
    intro line rest acc hresult
    have hrun : k.asRoot.runBuiltin 0 .passwd ⟨cstr args, behind, line :: rest⟩
        = some { k.asRoot with acc := acc } := runBuiltin_of_result rfl hresult
    obtain ⟨ks, hsudo, hacc, _⟩ := h.effect 0 (pre ++ line :: rest) (line :: rest) _ (hpre _)
      ((runLine_eq hline).trans hrun)
    rw [runSudo_allowed (hpre _) hline₂, Option.map_eq_some_iff] at hsudo
    obtain ⟨k₁, hrun₁, rfl⟩ := hsudo
    obtain ⟨ops, hresult₁, _⟩ := runBuiltin_account rfl hrun₁
    have hacc : k₁.acc = acc := hacc
    have hown : (firstArg ⟨cstr args₂, behind, line :: rest⟩).getD k.curUsername = k.curUsername := hown
    refine ⟨ops, ?_⟩
    rw [← hacc, ← hresult₁]
    exact (cmdPasswd_own hcur hown hself hpass rfl).symm
  obtain ⟨name, hfirst⟩ := Option.ne_none_iff_exists'.mp hname
  cases hfind : k.acc.userFind name with
  | none =>
    -- root has no such user, but the session's user gets a new password
    obtain ⟨other, hne, hnew, _⟩ := exists_password (k.acc.user self).password []
    obtain ⟨acc', hset, hpassword⟩ := @newPassword_twice k.acc self 1 other hidx hne
    have hresult : AccountCall.result ⟨k.asRoot.session,
        .passwd ⟨cstr args, behind, [right, other, other]⟩⟩ k.acc = some (k.acc, []) := by
      have harg : firstArg ⟨cstr args, behind, [right, other, other]⟩ = some name := hfirst
      unfold AccountCall.result cmdPasswd
      dsimp only
      rw [harg, Option.getD_some, hfind]
    obtain ⟨ops, heq⟩ := hsame right [other, other] _ hresult
    rw [if_neg (fun hne => hne hright), hset] at heq
    simp only [Option.map_some, Option.some.injEq, Prod.mk.injEq] at heq
    rw [heq.1] at hpassword
    exact hnew hpassword.symm
  | some idx =>
    -- root sets a password, which the session's user does not without the old one
    obtain ⟨other, hne, hself', hnew⟩ :=
      exists_password (k.acc.user self).password (k.acc.user idx).password
    obtain ⟨acc', hset, hpassword⟩ := @newPassword_twice k.acc idx 1 other
      (Accounts.userFind_eq_some hfind).1 hne
    have hresult : AccountCall.result ⟨k.asRoot.session,
        .passwd ⟨cstr args, behind, [other, other]⟩⟩ k.acc = some (acc', []) := by
      have harg : firstArg ⟨cstr args, behind, [other, other]⟩ = some name := hfirst
      unfold AccountCall.result cmdPasswd
      dsimp only
      rw [harg, Option.getD_some, hfind]
      dsimp only
      rw [if_neg (fun h => h.2 rfl), if_neg (fun h => h.1 rfl), hset]
      rfl
    obtain ⟨ops, heq⟩ := hsame other [other] _ hresult
    rw [if_pos hself'] at heq
    simp only [Option.some.injEq, Prod.mk.injEq] at heq
    rw [← heq.1] at hpassword
    exact hnew hpassword.symm

end Passwd

theorem sudo_same_iff {k : Kernel} {c args : Bytes} {b : Builtin} {behind : CStr} {typed rest : List CStr}
    (hcur : k.curUid ≠ 0) (hline : k.asRoot.resolve c = some (b, args))
    (hother : b ≠ .su ∧ b ≠ .sudo ∧ b ≠ .exit)
    (hname : b = .passwd → firstArg ⟨cstr args, behind, []⟩ ≠ none)
    (hallowed : k.sudoAllowed typed = some (true, rest))
    : SudoSame k c behind ↔ SudoFine k c behind b := by
  obtain ⟨args₂, hline₂⟩ := resolve_sudoArgs hline
  unfold SudoFine
  split
  . next hb =>
    by_cases hrefused : Refused k b ⟨cstr args₂, behind, []⟩
    . rw [sudo_refused hcur hb hother.1 hline hline₂ (fun _ => hrefused) hallowed]
      refine ⟨fun h => ⟨h, ?_⟩, fun h => h.1⟩
      intro hpasswd args' hargs
      rw [hline₂, Option.some.injEq, Prod.mk.injEq] at hargs
      rw [← hargs.2]
      exact hrefused hpasswd
    . have hpasswd : b = .passwd := by
        by_contra hne
        exact hrefused (fun h => absurd h hne)
      have hown : ¬∃ name ≠ k.curUsername, firstArg ⟨cstr args₂, behind, []⟩ = some name :=
        fun h => hrefused (fun _ => h)
      rw [hpasswd] at hline hline₂
      have hfalse : ¬SudoSame k c behind := by
        apply sudo_passwd_own hcur hline hline₂ (hname hpasswd) _ hallowed
        cases hfirst : firstArg ⟨cstr args₂, behind, []⟩ with
        | none => rfl
        | some name =>
          by_contra hne
          exact hown ⟨name, hne, hfirst⟩
      refine ⟨fun h => absurd h hfalse, fun h => ?_⟩
      rw [hpasswd] at h
      exact absurd (h.2 rfl args₂ hline₂) hown
  . next hb => exact sudo_open (by simpa using hb) hother hline hline₂ hallowed

section Plain

variable {k k' : Kernel} {c args : Bytes} {b : Builtin} {behind : CStr}

theorem dropWhile_flatMap_words (text : Bytes)
    : ((words text).flatMap (32 :: ·)).dropWhile (· = 32) = spaced (words text) := by
  have hwords : ∀ w ∈ words text, w ≠ [] ∧ ∀ x ∈ w, isBlank x = false :=
    fun w hw => ⟨(mem_words hw).1, (mem_words hw).2.1⟩
  cases hw : words text with
  | nil => rfl
  | cons w ws =>
    obtain ⟨hne, hblank⟩ := hwords w (by simp [hw])
    obtain ⟨x, t, rfl⟩ := List.exists_cons_of_ne_nil hne
    have hx : x ≠ 32 := by
      rintro rfl
      exact absurd (hblank 32 List.mem_cons_self) (by decide)
    rw [List.flatMap_cons, List.cons_append, List.dropWhile_cons_of_pos (by simp), List.cons_append,
      List.dropWhile_cons_of_neg (by simpa using hx)]
    rfl

theorem finalArgs_plain {name text : Bytes} (hname : name ≠ readName) (hvar : 36 ∉ text) (hstar : star ∉ text)
    (hlen : text.length < inputBufferSize - 2)
    : k.finalArgs name text = spaced (words text) := by
  unfold Kernel.finalArgs
  rw [if_neg hname, expandVars_plain hvar (by omega), expandGlobs_plain hstar hlen]

theorem resolve_sudoArgs_plain (h : k.asRoot.resolve c = some (b, args)) (hvar : 36 ∉ c) (hstar : star ∉ c)
    (hlen : c.length < inputBufferSize - 2)
    : k.asRoot.resolve (k.sudoArgs c) = some (b, args) := by
  obtain ⟨rest, hline, hrest, rfl⟩ := resolve_eq_some h
  obtain ⟨hne, hblank, _, _, _⟩ := b.name_ok
  have hread : b.name ≠ readName := by
    cases b <;> decide
  have hsub : ∀ x ∈ b.name ++ rest, x ∈ c := by
    rw [← hline]
    exact fun x hx => (List.dropWhile_sublist _).mem hx
  have hle : (b.name ++ rest).length ≤ c.length := by
    rw [← hline]
    exact (List.dropWhile_sublist _).length_le
  have hwords : words (b.name ++ rest) = b.name :: words rest := by
    cases hrest with
    | inl hnil =>
      rw [hnil, List.append_nil]
      exact words_single hblank hne
    | inr hhead =>
      obtain ⟨t, rfl⟩ := List.head?_eq_some_iff.mp hhead
      rw [words_cons hblank hne, ← words_dropWhile (32 :: t), List.dropWhile_cons_of_pos (by simp),
        words_dropWhile]
  have hmem : ∀ x ∈ spaced (words rest), x = 32 ∨ x ∈ c := by
    intro x hx
    obtain hx | ⟨w, hw, hx⟩ := mem_spaced hx
    . exact Or.inl hx
    . exact Or.inr (hsub x (List.mem_append_right _ ((mem_words hw).2.2 x hx)))
  have hspaced := length_spaced_words rest
  rw [List.length_append] at hle
  have hargs : k.asRoot.finalArgs b.name (rest.dropWhile (· = 32)) = spaced (words rest) := by
    rw [finalArgs_plain hread, words_dropWhile]
    . exact fun hx => hvar (hsub _ (List.mem_append_right _ ((List.dropWhile_sublist _).mem hx)))
    . exact fun hx => hstar (hsub _ (List.mem_append_right _ ((List.dropWhile_sublist _).mem hx)))
    . have hdrop := (List.dropWhile_sublist (fun x : Byte => decide (x = 32)) (l := rest)).length_le
      omega
  have hagain : k.asRoot.finalArgs b.name (spaced (words rest)) = spaced (words rest) := by
    rw [finalArgs_plain hread, words_spaced]
    . exact fun w hw => ⟨(mem_words hw).1, (mem_words hw).2.1⟩
    . exact fun hx => (hmem _ hx).elim (by decide) hvar
    . exact fun hx => (hmem _ hx).elim (by decide) hstar
    . omega
  have hsudo : k.sudoArgs c = b.name ++ (words rest).flatMap (32 :: ·) := by
    unfold Kernel.sudoArgs
    rw [hline, finalArgs_plain (by decide), hwords]
    . rfl
    . exact fun hx => hvar (hsub _ hx)
    . exact fun hx => hstar (hsub _ hx)
    . rw [List.length_append]
      omega
  rw [hsudo, resolve_append, dropWhile_flatMap_words, hagain, hargs]
  cases words rest with
  | nil => exact Or.inl rfl
  | cons w ws => exact Or.inr rfl

end Plain

section Trace

/--
`hostname h`
-/
def hostnameH : Bytes :=
  [104, 111, 115, 116, 110, 97, 109, 101, 32, 104]

theorem sudo_same_iff_hostname : SudoSame loggedInA hostnameH (cstr []) := by
  have hline : loggedInA.asRoot.resolve hostnameH = some (.hostname, [104]) := by
    decide
  have hallowed : loggedInA.sudoAllowed [lineX] = some (true, []) := by
    decide
  rw [sudo_same_iff (by decide) hline (by decide) (by decide) hallowed]
  have hline₂ := resolve_sudoArgs_plain hline (by decide) (by decide) (by decide)
  unfold SudoFine
  rw [if_neg (by decide)]
  intro fuel typed
  rw [runLine_eq hline, runLine_eq hline₂]

/--
`useradd -p x b`
-/
def useraddBLine : Bytes :=
  Builtin.useradd.name ++ [32, 45, 112, 32, 120, 32, 98]

/--
With `sudo`, nobody adds a user.
-/
theorem sudo_useradd_refused
    : ¬∀ k c b args behind typed rest, k.curUid ≠ 0 → k.asRoot.resolve c = some (b, args) →
        (b ≠ .su ∧ b ≠ .sudo ∧ b ≠ .exit) →
        (b = .passwd → firstArg ⟨cstr args, behind, []⟩ ≠ none) →
        k.sudoAllowed typed = some (true, rest) → SudoSame k c behind := by
  intro h
  have hline : loggedInA.asRoot.resolve useraddBLine
      = some (.useradd, [45, 112, 32, 120, 32, 98]) := by
    decide
  have hallowed : loggedInA.sudoAllowed [lineX] = some (true, []) := by
    decide
  have hsame := h _ _ _ _ (cstr []) _ _ (by decide) hline (by decide) (by decide) hallowed
  have hroot : (loggedInA.asRoot.runLine 0 useraddBLine (cstr []) []).map (·.acc.users.length) = some 3 := by
    decide
  have hsudo : (loggedInA.runSudo 0 useraddBLine (cstr []) [lineX]).map (·.acc.users.length) = some 2 := by
    decide
  rw [Option.map_eq_some_iff] at hroot
  obtain ⟨kr, hrun, hlen⟩ := hroot
  obtain ⟨ks, hks, hacc, _⟩ := hsame.effect 0 _ _ kr hallowed hrun
  rw [hks, Option.map_some, hacc, hlen] at hsudo
  exact absurd hsudo (by decide)

end Trace

end TanjaOS
