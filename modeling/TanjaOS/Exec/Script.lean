import TanjaOS.Linux.Lemmas
import TanjaOS.Fs.Content

/-!
Shell scripts: the loop of `exec_file_at` that cuts a text file into lines while the commands on
these lines may change the memory it is read from.
-/

open Lib

namespace TanjaOS

def execBufferTop : Nat := 4 * 1024 * 1024 + 1

/--
The room in `line`, without the NUL.
-/
def scriptLineMax : Nat := 255

def skipsLine (line : Bytes) : Bool :=
  match line.dropWhile (fun b => b = 32 ∨ b = 9) with
  | [] => true
  | b :: _ => b = 35

/--
A line that has been passed to `execute_command`, with the place of the byte that ended it.
-/
structure ScriptStep where
  line : Bytes
  pos : Nat
  before : FsState
  after : FsState

section Loop

variable (cmd : Bytes → FsState → FsState) (image : FsState → Nat → Byte)

def endLine (line : Bytes) (i : Nat) (s : FsState) : List ScriptStep × FsState :=
  if skipsLine line then
    ([], s)
  else
    ([⟨line, i, s, cmd line s⟩], cmd line s)

def pushByte (line : Bytes) (b : Byte) : Bytes :=
  if line.length < scriptLineMax then line ++ [b] else line

/--
The loop from byte `i` on, with `n` bytes to go.
-/
def scriptLoop (n i : Nat) (line : Bytes) (s : FsState) : List ScriptStep × FsState :=
  match n with
  | 0 => endLine cmd line i s
  | n + 1 =>
    if image s i = newline ∨ image s i = 0 then
      let (steps, s) := endLine cmd line i s
      -- the byte is read again after the command
      if image s i = 0 then
        (steps, s)
      else
        let (rest, s) := scriptLoop n (i + 1) [] s
        (steps ++ rest, s)
    else
      scriptLoop n (i + 1) (pushByte line (image s i)) s

end Loop

def elfIsElf32 (image : Bytes) : Bool :=
  5 ≤ image.length ∧ image.take 4 = [0x7F, 69, 76, 70]

/--
`exec_file_at`, as far as it runs scripts: `none` when the file cannot be read or is a program.
`cmd` is `execute_command`.
-/
def execFileAt (cmd : Bytes → FsState → FsState) (s : FsState) (path : Bytes)
    : Option (List ScriptStep × FsState) :=
  if path = [] then
    none
  else
    match fsFileDataPtr s path with
    | (some (some p, size + 1), s) =>
      if elfIsElf32 (s.fpool.readBytes p (size + 1)) then
        none
      else
        some (scriptLoop cmd (fun s i => s.fpool (p + i)) (size + 1) 0 [] s)
    | (_, s) =>
      let r := fsReadFilePrefix s path (execBufferTop + 1)
      if r.rc ≠ 0 then
        none
      else if elfIsElf32 (r.buffer.take (r.size.getD 0)) then
        none
      else
        some (scriptLoop cmd (fun _ i => r.buffer.getD i 0) (r.size.getD 0) 0 [] r.state)

def scriptLines (text : Bytes) : List Bytes :=
  (text.splitOnP (fun b => b = newline)).filter (fun line => ¬skipsLine line)

/--
The command has not changed what is still to be read, from the byte on that ended its line.
-/
def ScriptStep.KeepsRest (e : ScriptStep) (image : FsState → Nat → Byte) (size : Nat) : Prop :=
  ∀ k, e.pos ≤ k → k < size → image e.after k = image e.before k

section Lines

variable {cmd : Bytes → FsState → FsState} {image : FsState → Nat → Byte}

theorem pushByte_take (line : Bytes) (b : Byte)
    : pushByte (line.take scriptLineMax) b = (line ++ [b]).take scriptLineMax := by
  unfold pushByte
  rw [List.length_take, List.take_append]
  split
  . next hlt =>
    have htake : ([b] : Bytes).take (scriptLineMax - line.length) = [b] := by
      apply List.take_of_length_le
      simp only [List.length_singleton]
      omega
    rw [htake]
  . next hge =>
    have hzero : scriptLineMax - line.length = 0 := by omega
    rw [hzero, List.take_zero, List.append_nil]

theorem endLine_line (line : Bytes) (i : Nat) (s : FsState)
    : (endLine cmd line i s).1.map ScriptStep.line = [line].filter (fun line => ¬skipsLine line) := by
  unfold endLine
  split
  . next h => simp [h]
  . next h => simp [h]

theorem endLine_image {line : Bytes} {i size : Nat} {s : FsState}
    (h : ∀ e ∈ (endLine cmd line i s).1, e.KeepsRest image size)
    : ∀ k, i ≤ k → k < size → image (endLine cmd line i s).2 k = image s k := by
  unfold endLine at h ⊢
  split
  . intro k _ _
    rfl
  . next hskip =>
    rw [if_neg hskip] at h
    exact h _ List.mem_cons_self

theorem scriptLoop_lines (bs line : Bytes) (i : Nat) (s : FsState) (htext : 0 ∉ bs)
    (himage : ∀ k (hk : k < bs.length), image s (i + k) = bs[k])
    (hkeep : ∀ e ∈ (scriptLoop cmd image bs.length i (line.take scriptLineMax) s).1,
      e.KeepsRest image (i + bs.length))
    : (scriptLoop cmd image bs.length i (line.take scriptLineMax) s).1.map ScriptStep.line
        = (((bs.splitOnP (fun b => b = newline)).modifyHead (line ++ ·)).map
            (·.take scriptLineMax)).filter (fun line => ¬skipsLine line) := by
  induction bs generalizing line i s with
  | nil =>
    rw [List.splitOnP_nil]
    simp only [List.modifyHead_cons, List.append_nil, List.map_cons, List.map_nil]
    exact endLine_line _ _ _
  | cons b bs ih =>
    have hb : image s i = b := himage 0 (by simp)
    have hb0 : b ≠ 0 := by
      rintro rfl
      exact htext List.mem_cons_self
    have htext' : 0 ∉ bs := fun h => htext (List.mem_cons_of_mem _ h)
    have hnext : ∀ k (hk : k < bs.length), image s (i + 1 + k) = bs[k] := by
      intro k hk
      have := himage (k + 1) (by simpa using hk)
      rw [List.getElem_cons_succ] at this
      rw [← this]
      congr 1
      omega
    have hlen : i + (b :: bs).length = i + 1 + bs.length := by
      simp only [List.length_cons]
      omega
    rw [hlen] at hkeep
    simp only [List.length_cons, scriptLoop] at hkeep ⊢
    rw [hb] at hkeep ⊢
    rw [List.splitOnP_cons_eq_if_modifyHead]
    by_cases hnl : b = newline
    . simp only [hnl, true_or, ↓reduceIte, decide_true, List.modifyHead_cons, List.append_nil,
        List.map_cons] at hkeep ⊢
      -- the byte that ended the line is still there
      have himg : ∀ k, i ≤ k → k < i + 1 + bs.length →
          image (endLine cmd (line.take scriptLineMax) i s).2 k = image s k := by
        apply endLine_image
        intro e he
        apply hkeep
        split
        . exact he
        . exact List.mem_append_left _ he
      have hend : image (endLine cmd (line.take scriptLineMax) i s).2 i ≠ 0 := by
        rw [himg i (Nat.le_refl _) (by omega), hb]
        exact hb0
      rw [if_neg hend] at hkeep ⊢
      have hrest := ih [] (i + 1) (endLine cmd (line.take scriptLineMax) i s).2 htext'
        (fun k hk => (himg _ (by omega) (by omega)).trans (hnext k hk))
        (fun e he => hkeep e (List.mem_append_right _ he))
      have hhead : (bs.splitOnP (fun b => b = newline)).modifyHead (([] : Bytes) ++ ·)
          = bs.splitOnP (fun b => b = newline) := by
        cases bs.splitOnP (fun b => b = newline) <;> rfl
      rw [hhead] at hrest
      rw [List.map_append, endLine_line, List.filter_cons]
      simp only [List.take_nil] at hrest
      rw [hrest]
      simp only [List.filter_cons, List.filter_nil]
      split <;> rfl
    . have hnot : ¬(b = newline ∨ b = 0) := by
        rintro (h | h)
        . exact hnl h
        . exact hb0 h
      rw [if_neg hnot] at hkeep ⊢
      rw [if_neg (by simpa using hnl)]
      rw [pushByte_take] at hkeep ⊢
      rw [ih (line ++ [b]) (i + 1) s htext' hnext hkeep]
      congr 2
      cases bs.splitOnP (fun b => b = newline) with
      | nil => rfl
      | cons d ds => simp

theorem skipsLine_cons (b : Byte) (line : Bytes)
    : skipsLine (b :: line) = if b = 32 ∨ b = 9 then skipsLine line else decide (b = 35) := by
  unfold skipsLine
  rw [List.dropWhile_cons]
  by_cases h : b = 32 ∨ b = 9
  . simp [h]
  . simp [h]

theorem skipsLine_take {line : Bytes} (n : Nat) (h : skipsLine line) : skipsLine (line.take n) := by
  induction line generalizing n with
  | nil => simpa using h
  | cons b line ih =>
    cases n with
    | zero => rfl
    | succ n =>
      rw [List.take_succ_cons]
      rw [skipsLine_cons] at h ⊢
      split
      . next hblank =>
        rw [if_pos hblank] at h
        exact ih n h
      . next hblank =>
        rw [if_neg hblank] at h
        exact h

theorem lines_cut (lines : List Bytes)
    : (lines.map (·.take scriptLineMax)).filter (fun line => ¬skipsLine line)
          = lines.filter (fun line => ¬skipsLine line)
        ↔ ∀ l ∈ lines.filter (fun line => ¬skipsLine line), l.length ≤ scriptLineMax := by
  constructor
  . intro h l hl
    rw [← h, List.mem_filter, List.mem_map] at hl
    obtain ⟨⟨k, _, rfl⟩, _⟩ := hl
    rw [List.length_take]
    exact Nat.min_le_left _ _
  . intro h
    induction lines with
    | nil => rfl
    | cons l lines ih =>
      rw [List.map_cons]
      by_cases hskip : skipsLine l
      . have hcut := skipsLine_take scriptLineMax hskip
        rw [List.filter_cons_of_neg (by simp [hcut]), List.filter_cons_of_neg (by simp [hskip])]
        apply ih
        intro k hk
        apply h
        rwa [List.filter_cons_of_neg (by simp [hskip])]
      . have hkeep : (l :: lines).filter (fun line => ¬skipsLine line)
            = l :: lines.filter (fun line => ¬skipsLine line) :=
          List.filter_cons_of_pos (by simp [hskip])
        rw [hkeep] at h ⊢
        have hwhole : l.take scriptLineMax = l :=
          List.take_of_length_le (h l List.mem_cons_self)
        rw [hwhole, List.filter_cons_of_pos (by simp [hskip])]
        rw [ih (fun k hk => h k (List.mem_cons_of_mem _ hk))]

end Lines

theorem fsReadFilePrefix_empty {s : FsState} {path : Bytes} {j : Fin maxF}
    (capacity : Nat) (hidx : fileIndex s (absPath s.cwd.str path) = some j)
    (hread : permAllows s (s.fmode j) (s.fowner j) 0o400) (hnil : s.fileBytes j = [])
    : ∃ n, fsReadFilePrefix { s with fsErrno := 0 } path (capacity + 1)
        = ⟨0, [0], some n, { s with fsErrno := 0 }⟩ := by
  have hidx' : fileIndex { s with fsErrno := 0 } (absPath s.cwd.str path) = some j := hidx
  have hread' : permAllows { s with fsErrno := 0 } (s.fmode j) (s.fowner j) 0o400 := hread
  unfold fsReadFilePrefix
  dsimp only
  rw [if_neg (by omega), hidx']
  dsimp only
  rw [if_pos hread']
  refine ⟨min (s.fsize j) capacity, ?_⟩
  have hload : FsState.loadFile { s with fsErrno := 0 } j 0 (min (s.fsize j) capacity) = [] := by
    unfold FsState.fileBytes at hnil
    unfold FsState.loadFile
    dsimp only
    split
    . rfl
    . next p hp =>
      rw [hp] at hnil
      have hzero := congrArg List.length hnil
      rw [Mem.length_readBytes, List.length_nil] at hzero
      rw [hzero, Nat.zero_min, Mem.readBytes_zero]
  rw [Nat.add_sub_cancel, hload]
  rfl

/--
The commands of a script leave alone what is still to be read of file `j`.
-/
def KeepsScript (s : FsState) (j : Fin maxF) (steps : List ScriptStep) : Prop :=
  ∀ p, s.fdata j = some p → ∀ e ∈ steps, e.KeepsRest (fun s i => s.fpool (p + i)) (s.fsize j)

theorem script_runs_lines (cmd : Bytes → FsState → FsState) (s : FsState) (path : Bytes)
    (j : Fin maxF) (hpath : path ≠ []) (hidx : fileIndex s (absPath s.cwd.str path) = some j)
    (hread : permAllows s (s.fmode j) (s.fowner j) 0o400) (htext : 0 ∉ s.fileBytes j)
    (hscript : ¬elfIsElf32 (s.fileBytes j))
    : ∃ steps s', execFileAt cmd s path = some (steps, s')
        ∧ (KeepsScript s j steps →
            (steps.map ScriptStep.line = scriptLines (s.fileBytes j)
              ↔ ∀ l ∈ scriptLines (s.fileBytes j), l.length ≤ scriptLineMax)) := by
  have hptr := fsFileDataPtr_eq hpath hidx hread
  have hempty : s.fileBytes j = [] → (∀ n p, s.fdata j = some p → s.fsize j ≠ n + 1) →
      ∃ s', execFileAt cmd s path = some ([], s') := by
    intro hnil hsize
    obtain ⟨n, hbuffer⟩ := fsReadFilePrefix_empty execBufferTop hidx hread hnil
    refine ⟨{ s with fsErrno := 0 }, ?_⟩
    unfold execFileAt
    rw [if_neg hpath, hptr]
    split
    . next p k _ heq =>
      simp only [Prod.mk.injEq, Option.some.injEq] at heq
      exact absurd heq.1.2 (hsize k p heq.1.1)
    . next heq =>
      cases heq
      dsimp only
      rw [hbuffer]
      simp only [ne_eq, not_true_eq_false, ↓reduceIte, Option.getD_some]
      have helf : elfIsElf32 (([0] : Bytes).take n) = false := by
        unfold elfIsElf32
        simp
      rw [helf]
      cases n <;> rfl
  have hnone : scriptLines [] = [] := rfl
  cases hp : s.fdata j with
  | none =>
    have hnil : s.fileBytes j = [] := by
      unfold FsState.fileBytes
      rw [hp]
    obtain ⟨s', hrun⟩ := hempty hnil (by simp [hp])
    refine ⟨[], s', hrun, fun _ => ?_⟩
    rw [hnil, hnone]
    simp
  | some p =>
    cases hsize : s.fsize j with
    | zero =>
      have hnil : s.fileBytes j = [] := by
        unfold FsState.fileBytes
        rw [hp, hsize]
        rfl
      obtain ⟨s', hrun⟩ := hempty hnil (by simp [hsize])
      refine ⟨[], s', hrun, fun _ => ?_⟩
      rw [hnil, hnone]
      simp
    | succ n =>
      have hbytes : s.fileBytes j = s.fpool.readBytes p (n + 1) := by
        unfold FsState.fileBytes
        rw [hp, hsize]
      have hlen : (s.fileBytes j).length = n + 1 := by
        rw [hbytes, Mem.length_readBytes]
      have hrun : execFileAt cmd s path = some (scriptLoop cmd (fun s i => s.fpool (p + i)) (n + 1) 0 []
          { s with fsErrno := 0 }) := by
        unfold execFileAt
        rw [if_neg hpath, hptr, hp, hsize]
        dsimp only
        rw [← hbytes, if_neg hscript]
      have himage : ∀ k (hk : k < (s.fileBytes j).length),
          s.fpool (p + (0 + k)) = (s.fileBytes j)[k] := by
        intro k hk
        simp only [hbytes, Mem.readBytes, List.getElem_map, List.getElem_range, Nat.zero_add]
      have hlines := @scriptLoop_lines cmd (fun s i => s.fpool (p + i))
        (s.fileBytes j) [] 0 { s with fsErrno := 0 } htext himage
      rw [hlen, List.take_nil] at hlines
      refine ⟨(scriptLoop cmd (fun s i => s.fpool (p + i)) (n + 1) 0 [] { s with fsErrno := 0 }).1,
        _, hrun, fun hkeep => ?_⟩
      have hkept := hkeep p hp
      rw [hsize] at hkept
      rw [hlines (by rwa [Nat.zero_add])]
      have hhead : ((s.fileBytes j).splitOnP (fun b => b = newline)).modifyHead (([] : Bytes) ++ ·)
          = (s.fileBytes j).splitOnP (fun b => b = newline) := by
        cases (s.fileBytes j).splitOnP (fun b => b = newline) <;> rfl
      rw [hhead]
      exact lines_cut _

section Example

/-!
A script with two short lines, and one with a single line of 256 bytes.
-/

def scriptFile : FsState :=
  (fsWriteFile { fsInit (.zeroed 64) with fsCurUid := 0 } notePath [120, 10, 121, 10]).2

def longScript : FsState :=
  (fsWriteFile { fsInit (.zeroed 512) with fsCurUid := 0 } notePath (List.replicate 256 120)).2

def idleCmd (_ : Bytes) (s : FsState) : FsState :=
  s

end Example

theorem script_runs_lines_idle
    : ∃ steps s', execFileAt idleCmd scriptFile notePath = some (steps, s')
        ∧ steps.map ScriptStep.line = [[120], [121]] := by
  obtain ⟨steps, s', hrun, hlines⟩ := script_runs_lines idleCmd scriptFile notePath ⟨0, by decide⟩
    (by decide) (by decide +kernel) (by decide +kernel) (by decide +kernel) (by decide +kernel)
  refine ⟨steps, s', hrun, ?_⟩
  have htext : scriptLines (scriptFile.fileBytes ⟨0, by decide⟩) = [[120], [121]] := by
    decide +kernel
  rw [htext] at hlines
  refine (hlines ?_).mpr (by decide)
  intro p hp e he k _ hk
  have hkeep : ∀ e ∈ ((execFileAt idleCmd scriptFile notePath).map Prod.fst).getD [],
      ∀ k, k < 4 → e.after.fpool (8 + k) = e.before.fpool (8 + k) := by decide +kernel
  rw [hrun] at hkeep
  have hdata : scriptFile.fdata ⟨0, by decide⟩ = some 8 := by decide +kernel
  have hsize : scriptFile.fsize ⟨0, by decide⟩ = 4 := by decide +kernel
  rw [hdata, Option.some.injEq] at hp
  rw [hsize] at hk
  rw [← hp]
  exact hkeep e he k hk

theorem script_runs_lines_long
    : ¬∀ (cmd : Bytes → FsState → FsState) (s : FsState) (path : Bytes) (j : Fin maxF),
        path ≠ [] → fileIndex s (absPath s.cwd.str path) = some j →
        permAllows s (s.fmode j) (s.fowner j) 0o400 → 0 ∉ s.fileBytes j →
        ¬elfIsElf32 (s.fileBytes j) →
        ∃ steps s', execFileAt cmd s path = some (steps, s')
          ∧ steps.map ScriptStep.line = scriptLines (s.fileBytes j) := by
  intro h
  have hbytes : longScript.fileBytes ⟨0, by decide⟩ = List.replicate 256 120 := by decide +kernel
  have hnul : 0 ∉ longScript.fileBytes ⟨0, by decide⟩ := by
    rw [hbytes, List.mem_replicate]
    decide
  have helf : ¬elfIsElf32 (longScript.fileBytes ⟨0, by decide⟩) := by
    rw [hbytes]
    decide +kernel
  obtain ⟨steps, s', hrun, hlines⟩ := h idleCmd longScript notePath ⟨0, by decide⟩ (by decide)
    (by decide +kernel) (by decide +kernel) hnul helf
  have hcut : ((execFileAt idleCmd longScript notePath).map (fun r => r.1.map ScriptStep.line)).getD []
      = [List.replicate 255 120] := by decide +kernel
  rw [hrun, Option.map_some, Option.getD_some, hlines, hbytes] at hcut
  revert hcut
  decide +kernel

end TanjaOS
