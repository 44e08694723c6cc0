import Mathlib.Data.List.Sort
import TanjaOS.Fs.Home

/-!
Variables and wildcards in the arguments of a command.
-/

open Lib

namespace TanjaOS

def inputBufferSize : Nat := 65536

def maxEnvVars : Nat := 32

def envNameLen : Nat := 32

def envValueLen : Nat := 4096

structure EnvVar where
  name : Bytes
  value : Bytes
  deriving DecidableEq

abbrev Env := List EnvVar

def setEnv (env : Env) (name value : Bytes) : Env :=
  if name = [] then
    env
  else
    match env.findIdx? (·.name = name) with
    | some i => env.modify i ({ · with value := value.take (envValueLen - 1) })
    | none =>
      if env.length < maxEnvVars then
        env ++ [⟨name.take (envNameLen - 1), value.take (envValueLen - 1)⟩]
      else
        env

def getEnv (env : Env) (name : Bytes) : Bytes :=
  if name = [] then [] else ((env.find? (·.name = name)).map EnvVar.value).getD []

def isAlpha (b : Byte) : Bool :=
  (65 ≤ b ∧ b ≤ 90) ∨ (97 ≤ b ∧ b ≤ 122)

def isAlnum (b : Byte) : Bool :=
  isAlpha b ∨ (48 ≤ b ∧ b ≤ 57)

/--
`room` bytes are left in the buffer. Every turn takes a byte of `text`, which `fuel` is the length
of.
-/
def expandVarsLoop (env : Env) : Nat → Bytes → Nat → Bytes
  | 0, _, _ => []
  | _ + 1, [], _ => []
  | fuel + 1, b :: text, room =>
    if room = 0 then
      []
    else if b = 36 ∧ text.head?.any (fun c => isAlpha c ∨ c = 95) then
      let name := (text.takeWhile (fun c => isAlnum c ∨ c = 95)).take (envNameLen - 1)
      let val := (getEnv env name).take room
      val ++ expandVarsLoop env fuel (text.drop name.length) (room - val.length)
    else if b = 36 ∧ text.head? = some 123 then
      let name := (text.tail.takeWhile (· ≠ 125)).take (envNameLen - 1)
      let rest := text.tail.drop name.length
      let rest := if rest.head? = some 125 then rest.tail else rest
      let val := (getEnv env name).take room
      val ++ expandVarsLoop env fuel rest (room - val.length)
    else
      b :: expandVarsLoop env fuel text (room - 1)

def expandVars (env : Env) (text : Bytes) : Bytes :=
  expandVarsLoop env text.length text (inputBufferSize - 1)

/--
`*`
-/
def star : Byte := 42

/--
`last` is the pattern behind the last star and the name from where that star stood for nothing.
-/
def globMatchLoop (p n : Bytes) (last : Option (Bytes × Bytes)) (h : ∀ l ∈ last, n.length ≤ l.2.length)
    : Bool :=
  match n with
  | [] => p.dropWhile (· = star) = []
  | c :: n =>
    if p.head? = some star then
      globMatchLoop p.tail (c :: n) (some (p.tail, c :: n)) (by simp)
    else if p.head? = some c then
      globMatchLoop p.tail n last (by
        intro l hl
        have := h l hl
        rw [List.length_cons] at this
        omega)
    else
      match last with
      | none => false
      | some (q, resume) =>
        globMatchLoop q resume.tail (some (q, resume.tail)) (by
          rintro l ⟨⟩
          exact Nat.le_refl _)
termination_by ((match last with | none => n.length + 1 | some l => l.2.length), p.length)
decreasing_by
  . next hstar =>
    have hp : p ≠ [] := by
      rintro rfl
      contradiction
    have htail := List.length_pos_iff.mpr hp
    rw [Prod.lex_def, List.length_tail]
    cases last with
    | none => simp
    | some l =>
      have hle := h l rfl
      dsimp only at hle ⊢
      omega
  . next hp =>
    have hp : p ≠ [] := by
      rintro rfl
      contradiction
    have htail := List.length_pos_iff.mpr hp
    rw [Prod.lex_def, List.length_tail]
    cases last with
    | none => simp
    | some l =>
      dsimp only
      omega
  . have hle := h (q, resume) rfl
    dsimp only [List.length_cons] at hle
    rw [Prod.lex_def, List.length_tail]
    dsimp only
    omega

def globMatch (pat name : Bytes) : Bool :=
  globMatchLoop pat name none (by simp)

/--
Names in the order of `glob_name_cmp`, whose characters are signed.
-/
def globNameLe : Bytes → Bytes → Bool
  | [], _ => true
  | _ :: _, [] => false
  | a :: as, b :: bs => if a = b then globNameLe as bs else a.toInt8 < b.toInt8

def globMaxMatches : Nat := 128

def globNameLen : Nat := 256

def globSplit (tok : Bytes) : Bytes × Bytes :=
  (tok.take (lastCut tok), tok.drop (lastCut tok))

def globNames (pat listing : Bytes) : List Bytes :=
  let names := (listing.splitOn newline).map (·.rdropWhile (· = slash))
  (names.filter (fun name =>
    name ≠ [] ∧ name.length < globNameLen ∧ ¬(name.head? = some dot ∧ pat.head? ≠ some dot)
      ∧ globMatch pat name)).take globMaxMatches

/--
The directory of a word with a wildcard and the names that it stands for. `none` leaves the word as
it is. `fs_errno`, which the listing sets, is not kept track of here.
-/
def globToken (s : FsState) (tok : Bytes) : Option (Bytes × List Bytes) :=
  let (dir, pat) := globSplit tok
  if star ∈ tok ∧ 39 ∉ tok ∧ 34 ∉ tok ∧ 92 ∉ tok ∧ dir.length < 256 ∧ pat.length < 256 ∧ pat ≠ [] then
    let (rc, listing, _) := fsListDirectory s dir
    if rc ≠ 0 then
      none
    else
      let names := globNames pat listing
      if names = [] then none else some (dir, names.insertionSort (globNameLe · ·))
  else
    none

def globAppend (dir : Bytes) : List Bytes → Bytes → Bytes
  | [], out => out
  | name :: names, out =>
    if inputBufferSize - 1 ≤ out.length + dir.length + name.length then
      out
    else
      let out := out ++ dir ++ name
      globAppend dir names
        (if names ≠ [] ∧ out.length < inputBufferSize - 1 then out ++ [32] else out)

def expandGlobsLoop (s : FsState) : List Bytes → Bytes → Bool → Bytes
  | [], out, _ => out
  | tok :: toks, out, first =>
    let out := if ¬first ∧ out.length < inputBufferSize - 1 then out ++ [32] else out
    match globToken s tok with
    | some (dir, names) => expandGlobsLoop s toks (globAppend dir names out) false
    | none =>
      if out.length + tok.length < inputBufferSize - 1 then
        expandGlobsLoop s toks (out ++ tok) false
      else
        out

def words (text : Bytes) : List Bytes :=
  (text.splitOnP isBlank).filter (· ≠ [])

def expandGlobs (s : FsState) (text : Bytes) : Bytes :=
  expandGlobsLoop s (words text) [] true

end TanjaOS
