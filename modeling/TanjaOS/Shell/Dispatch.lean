import TanjaOS.Shell.Session

/-!
How a command line finds what it runs. What it runs is what the first word of the line, as a whole,
stands for.
-/

open Lib

namespace TanjaOS

inductive Dispatched where
  | nothing
  | builtin (name args : Bytes)
  | run (path args : Bytes)
  | denied (name : Bytes)
  | notFound (name : Bytes)
  deriving DecidableEq

def cmdMatch : Bytes → Bytes → Bool
  | [], [] => true
  | a :: name, b :: typed => if a ≠ b then false else cmdMatch name typed
  | _, _ => false

/--
`.o`
-/
def dotO : Bytes :=
  [46, 111]

def progPath (dir name ext : Bytes) : Bytes :=
  let base := dir ++ name.take (316 - dir.length)
  base ++ ext.take (319 - base.length)

def progPaths (name : Bytes) : List Bytes :=
  Kernel.programDirs.flatMap (fun dir => [[], dotO].map (progPath dir name))

namespace Kernel

def runFile (k : Kernel) (path name args : Bytes) : Dispatched :=
  if k.execPermOk path then .run path args else .denied name

/--
`cmdTable` has the names of the commands that are registered.
-/
def executeCommand (k : Kernel) (cmdTable : List Bytes) (line : Bytes) : Dispatched :=
  match splitCommand line with
  | none => .nothing
  | some (name, args) =>
    let finalArgs := k.finalArgs name args
    match cmdTable.find? (cmdMatch · name) with
    | some _ => .builtin name finalArgs
    | none =>
      match (progPaths name).find? (fsFileExists k.fs) with
      | some path => k.runFile path name finalArgs
      | none =>
        let fn := stripDotSlash name
        if fn ≠ [] ∧ fsFileExists k.fs fn then
          k.runFile fn name finalArgs
        else
          .notFound name

end Kernel

section Spec

def firstToken (line : Bytes) : Bytes :=
  (line.dropWhile (· = 32)).takeWhile (· ≠ 32)

def remainder (line : Bytes) : Bytes :=
  ((line.dropWhile (· = 32)).dropWhile (· ≠ 32)).dropWhile (· = 32)

/--
Where a program called `t` is looked for, in this order.
-/
def candidates (t : Bytes) : List Bytes :=
  Kernel.programDirs.flatMap (fun dir => [dir ++ t, dir ++ t ++ dotO]) ++ [Kernel.stripDotSlash t]

/--
The word `t` stands for the registered command of this name, or else for the first file there is.
-/
def Kernel.resolved (k : Kernel) (cmdTable : List Bytes) (t args : Bytes) : Dispatched :=
  if t = [] then
    .nothing
  else if cmdTable.contains t then
    .builtin t args
  else
    match (candidates t).find? (fsFileExists k.fs) with
    | some path => k.runFile path t args
    | none => .notFound t

end Spec

section Words

variable {line : Bytes}

theorem cmdMatch_iff (name typed : Bytes) : cmdMatch name typed = true ↔ name = typed := by
  fun_induction cmdMatch name typed with
  | case1 => simp
  | case2 a name b typed hne => simp [hne]
  | case3 a name b typed heq ih => simp_all
  | case4 name typed hnil hcons =>
    cases name with
    | nil =>
      cases typed with
      | nil => exact absurd rfl (hnil rfl)
      | cons b typed => simp
    | cons a name =>
      cases typed with
      | nil => simp
      | cons b typed => exact (hcons a name b typed rfl rfl).elim

theorem find?_cmdMatch (cmdTable : List Bytes) (name : Bytes)
    : cmdTable.find? (cmdMatch · name) = if name ∈ cmdTable then some name else none := by
  split
  . next hmem =>
    cases hfind : cmdTable.find? (cmdMatch · name) with
    | none =>
      have hnone := List.find?_eq_none.mp hfind name hmem
      exact absurd ((cmdMatch_iff name name).mpr rfl) hnone
    | some c =>
      have hc := List.find?_some hfind
      rw [(cmdMatch_iff c name).mp hc]
  . next hmem =>
    apply List.find?_eq_none.mpr
    intro c hc hmatch
    rw [(cmdMatch_iff c name).mp hmatch] at hc
    exact hmem hc

theorem firstToken_eq_nil : firstToken line = [] ↔ line.dropWhile (· = 32) = [] := by
  unfold firstToken
  induction line with
  | nil => simp
  | cons c line ih =>
    by_cases hc : c = 32
    . simpa [hc] using ih
    . simp [hc]

theorem splitCommand_eq (hlen : (firstToken line).length ≤ 31)
    : splitCommand line
      = if firstToken line = [] then none else some (firstToken line, remainder line) := by
  unfold splitCommand
  dsimp only
  by_cases hnil : firstToken line = []
  . rw [if_pos (firstToken_eq_nil.mp hnil), if_pos hnil]
  . have hsplit := List.takeWhile_append_dropWhile (p := (· ≠ 32)) (l := line.dropWhile (· = 32))
    have hcut : (firstToken line).take 31 = firstToken line := List.take_of_length_le hlen
    rw [if_neg (fun h => hnil (firstToken_eq_nil.mpr h)), if_neg hnil]
    unfold firstToken at hcut
    unfold firstToken remainder
    rw [hcut]
    congr 3
    conv => lhs; arg 2; rw [← hsplit]
    exact List.drop_left

theorem progPath_eq {dir name ext : Bytes} (hdir : dir.length ≤ 10) (hlen : name.length ≤ 31)
    (hext : ext.length ≤ 2)
    : progPath dir name ext = dir ++ name ++ ext := by
  unfold progPath
  dsimp only
  rw [List.take_of_length_le (by omega), List.take_of_length_le]
  rw [List.length_append]
  omega

theorem progPaths_eq {name : Bytes} (hlen : name.length ≤ 31)
    : progPaths name = Kernel.programDirs.flatMap (fun dir => [dir ++ name, dir ++ name ++ dotO]) := by
  unfold progPaths
  apply List.flatMap_congr
  intro dir hdir
  have hshort : dir.length ≤ 10 := by
    revert dir
    decide
  simp [progPath_eq hshort hlen, dotO]

end Words

theorem executeCommand_split (k : Kernel) (cmdTable : List Bytes) {line name rest : Bytes}
    (hsplit : splitCommand line = some (name, rest)) (hne : name ≠ []) (hlen : name.length ≤ 31)
    : k.executeCommand cmdTable line
      = k.resolved cmdTable name
        (if name = readName then rest else expandGlobs k.fs (expandVars k.env rest)) := by
  unfold Kernel.executeCommand Kernel.resolved
  rw [hsplit, if_neg hne]
  dsimp only
  rw [find?_cmdMatch]
  simp only [List.contains_iff_mem]
  by_cases hmem : name ∈ cmdTable
  . rw [if_pos hmem, if_pos hmem]
    rfl
  . rw [if_neg hmem, if_neg hmem, progPaths_eq hlen]
    unfold candidates
    rw [List.find?_append]
    cases (Kernel.programDirs.flatMap (fun dir => [dir ++ name, dir ++ name ++ dotO])).find?
        (fsFileExists k.fs) with
    | some path => rfl
    | none =>
      dsimp only [Option.none_or]
      rw [List.find?_singleton]
      by_cases hfile : fsFileExists k.fs (Kernel.stripDotSlash name) = true
      . have hne : Kernel.stripDotSlash name ≠ [] := by
          intro hempty
          rw [hempty] at hfile
          simp [fsFileExists] at hfile
        rw [if_pos ⟨hne, hfile⟩, if_pos hfile]
        rfl
      . simp [hfile]

/--
A word of at most 31 bytes is resolved as a whole, in the documented order, and what runs gets the rest
of the line, with variables and wildcards expanded. Only `read` gets it as it is.
-/
theorem dispatch_resolves (k : Kernel) (cmdTable : List Bytes) (line : Bytes)
    (hlen : (firstToken line).length ≤ 31)
    : k.executeCommand cmdTable line
      = k.resolved cmdTable (firstToken line)
        (if firstToken line = readName then remainder line
          else expandGlobs k.fs (expandVars k.env (remainder line))) := by
  by_cases hnil : firstToken line = []
  . unfold Kernel.executeCommand Kernel.resolved
    rw [splitCommand_eq hlen]
    simp [hnil]
  . exact executeCommand_split k cmdTable (by rw [splitCommand_eq hlen, if_neg hnil]) hnil hlen

theorem dispatch_cut (k : Kernel) (cmdTable : List Bytes) (line : Bytes) (hlen : 31 < (firstToken line).length)
    : k.executeCommand cmdTable line
      = k.resolved cmdTable ((firstToken line).take 31)
        (expandGlobs k.fs (expandVars k.env ((line.dropWhile (· = 32)).drop 31))) := by
  have hcut : ((firstToken line).take 31).length = 31 := List.length_take_of_le (by omega)
  have hne : (firstToken line).take 31 ≠ [] := by
    intro hnil
    simp [hnil] at hcut
  have hread : (firstToken line).take 31 ≠ readName := by
    intro heq
    rw [heq] at hcut
    revert hcut
    decide
  have hfirst : firstToken line ≠ [] := by
    intro hnil
    simp [hnil] at hlen
  have hdrop : (line.dropWhile (· = 32)).drop 31
      = (firstToken line).drop 31 ++ (line.dropWhile (· = 32)).dropWhile (· ≠ 32) := by
    rw [← List.drop_append_of_le_length (Nat.le_of_lt hlen)]
    congr 1
    have hline := @List.takeWhile_append_dropWhile _ (fun c : Byte => decide (c ≠ 32)) (line.dropWhile (· = 32))
    exact hline.symm
  have hword : ((line.dropWhile (· = 32)).drop 31).dropWhile (· = 32) = (line.dropWhile (· = 32)).drop 31 := by
    rw [hdrop, List.drop_eq_getElem_cons hlen, List.cons_append, List.dropWhile_cons_of_neg]
    have hmem : (firstToken line)[31] ∈ firstToken line := List.getElem_mem hlen
    have := List.mem_takeWhile_imp hmem
    simpa using this
  have hsplit : splitCommand line = some ((firstToken line).take 31, (line.dropWhile (· = 32)).drop 31) := by
    unfold splitCommand
    dsimp only
    rw [if_neg (fun h => hfirst (firstToken_eq_nil.mpr h))]
    change some ((firstToken line).take 31, _) = _
    change some (_, ((line.dropWhile (· = 32)).drop ((firstToken line).take 31).length).dropWhile (· = 32)) = _
    rw [hcut, hword]
  have hexec := executeCommand_split k cmdTable hsplit hne (by omega)
  rwa [if_neg hread] at hexec

section Trace

/--
`/bin/read`, a program that anyone may run.
-/
def binRead : Bytes :=
  [47, 98, 105, 110] ++ slash :: readName

def kernelRead : Kernel :=
  let s := { fsInit (.zeroed 64) with fsCurUid := 0 }
  let s := (fsCreateFile (fsCreateDirectory s [47, 98, 105, 110]).2 binRead).2
  { kernelA with fs := (fsChmod s binRead 0o755).2 }

/--
`read $X`, and a word of 32 bytes.
-/
def readX : Bytes :=
  readName ++ [32, 36, 88]

def longWord : Bytes :=
  List.replicate 32 97

/--
`read x` runs `/bin/read`.
-/
theorem dispatch_resolves_read
    : kernelRead.executeCommand (Builtin.all.map Builtin.name) (readName ++ [32, 120])
      = .run binRead [120] := by
  rw [dispatch_resolves _ _ _ (by decide)]
  decide

/--
`read` gets `$X` as it is, and a word of 32 bytes is cut.
-/
theorem dispatch_exceptions
    : kernelRead.executeCommand [] readX
        ≠ kernelRead.resolved [] (firstToken readX)
          (expandGlobs kernelRead.fs (expandVars kernelRead.env (remainder readX)))
      ∧ kernelRead.executeCommand [] longWord
        ≠ kernelRead.resolved [] (firstToken longWord)
          (expandGlobs kernelRead.fs (expandVars kernelRead.env (remainder longWord))) := by
  constructor
  . decide
  . decide

end Trace

end TanjaOS
