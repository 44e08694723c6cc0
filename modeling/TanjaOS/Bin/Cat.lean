import TanjaOS.Bin.Args
import TanjaOS.Fs.ReadFile
import TanjaOS.Fs.Home
import TanjaOS.Linux.Rename

/-!
`cat`: files are streamed in pieces of 4 KiB.
-/

open Lib

namespace TanjaOS

def message (s : String) : Bytes :=
  s.toList.map (fun c => .ofNat c.toNat)

/--
What the loop puts out from `offset` on, where a round that does not end it takes a byte at least.
-/
def catLoop (path : Bytes) (total : Nat) (fuel offset : Nat) (s : FsState) : Bytes × FsState :=
  match fuel with
  | 0 => ([], s)
  | fuel + 1 =>
    if offset < total then
      let r := fsReadFileRange s path offset (min (total - offset) 4096)
      let got := r.size.getD 0
      if r.rc ≠ 0 then
        ([], r.state)
      else if got = 0 then
        ([], r.state)
      else
        let (out, s) := catLoop path total fuel (offset + got) r.state
        (r.buffer.take got ++ out, s)
    else
      ([], s)

def catLast (path : Bytes) (total : Nat) (s : FsState) : Bytes × FsState :=
  if 0 < total then
    let r := fsReadFileRange s path (total - 1) 1
    (if r.rc = 0 ∧ r.size = some 1 ∧ r.buffer.head? ≠ some 10 then [10] else [], r.state)
  else
    ([], s)

def catOne (path : Bytes) (s : FsState) : Int × Bytes × FsState :=
  if ¬fsFileExists s path then
    if fsGetMode s path = none then
      (-1, message "cat: " ++ path ++ message ": No such file or directory\n", s)
    else
      (-1, message "cat: " ++ path ++ message ": Permission denied\n", s)
  else
    let (total, s) := fsGetFileSize s path
    let (out, s) := catLoop path total total 0 s
    let (last, s) := catLast path total s
    (0, out ++ last, s)

def catAll (files : List Bytes) (s : FsState) : Bytes × FsState :=
  match files with
  | [] => ([], s)
  | fn :: files =>
    let (_, out, s) := catOne fn s
    let (more, s) := catAll files s
    (out ++ more, s)

def catMain (args : Bytes) (s : FsState) : Bytes × FsState :=
  let files := nextArgs 256 args
  if files = [] then
    (message "Usage: cat <file>...\n", s)
  else
    catAll files s

def withNewline (text : Bytes) : Bytes :=
  if text = [] ∨ text.getLast? = some 10 then text else text ++ [10]

/--
What `cat` is for: the text of a file. It says nothing of a file that may not be read, that message comes
for directories.
-/
def catText (s : FsState) (path : Bytes) : Bytes :=
  match fileIndex s (absPath s.cwd.str path) with
  | some i => if permAllows s (s.fmode i) (s.fowner i) 0o400 then withNewline (s.fileBytes i) else []
  | none =>
    if (dirIndex s (absPath s.cwd.str path)).isSome then
      message "cat: " ++ path ++ message ": Permission denied\n"
    else
      message "cat: " ++ path ++ message ": No such file or directory\n"

section Cat

variable {s : FsState} {path : Bytes} {i : Fin maxF}

theorem readRange_readable (hidx : fileIndex s (absPath s.cwd.str path) = some i)
    (hperm : permAllows s (s.fmode i) (s.fowner i) 0o400) {offset cap : Nat} (hcap : cap ≠ 0)
    (hlt : offset < s.fsize i)
    : fsReadFileRange s path offset cap
      = ⟨0, ((s.fileBytes i).drop offset).take (min (s.fsize i - offset) cap),
          some (min (s.fsize i - offset) cap), { s with fsErrno := 0 }⟩ := by
  have hidx' : fileIndex { s with fsErrno := 0 } (absPath s.cwd.str path) = some i := hidx
  have hperm' : permAllows { s with fsErrno := 0 } (s.fmode i) (s.fowner i) 0o400 := hperm
  have hload : { s with fsErrno := 0 }.loadFile i offset (min (s.fsize i - offset) cap)
      = ((s.fileBytes i).drop offset).take (min (s.fsize i - offset) cap) :=
    @loadFile_eq { s with fsErrno := 0 } i offset _ (by change _ ≤ s.fsize i; omega)
  unfold fsReadFileRange
  dsimp only
  rw [if_neg hcap, hidx']
  dsimp only
  rw [if_pos hperm', if_neg (by omega), hload]

theorem readRange_denied (hidx : fileIndex s (absPath s.cwd.str path) = some i)
    (hperm : ¬permAllows s (s.fmode i) (s.fowner i) 0o400) {offset cap : Nat} (hcap : cap ≠ 0)
    : fsReadFileRange s path offset cap = ⟨-2, [], some 0, fsDeny { s with fsErrno := 0 }⟩ := by
  have hidx' : fileIndex { s with fsErrno := 0 } (absPath s.cwd.str path) = some i := hidx
  have hperm' : ¬permAllows { s with fsErrno := 0 } (s.fmode i) (s.fowner i) 0o400 := hperm
  unfold fsReadFileRange
  dsimp only
  rw [if_neg hcap, hidx']
  dsimp only
  rw [if_neg hperm']

theorem cat_denied (hidx : fileIndex s (absPath s.cwd.str path) = some i)
    (hperm : ¬permAllows s (s.fmode i) (s.fowner i) 0o400) {total : Nat} (htotal : 0 < total)
    : catLoop path total total 0 s = ([], fsDeny { s with fsErrno := 0 })
      ∧ catLast path total s = ([], fsDeny { s with fsErrno := 0 }) := by
  constructor
  . obtain ⟨fuel, rfl⟩ : ∃ fuel, total = fuel + 1 := ⟨total - 1, by omega⟩
    rw [catLoop, if_pos htotal, readRange_denied hidx hperm (by omega)]
    rfl
  . unfold catLast
    rw [if_pos htotal, readRange_denied hidx hperm (by decide)]
    rfl

theorem catLoop_readable (hidx : fileIndex s (absPath s.cwd.str path) = some i)
    (hperm : permAllows s (s.fmode i) (s.fowner i) 0o400) (herrno : s.fsErrno = 0)
    (hlen : (s.fileBytes i).length = s.fsize i) {fuel offset : Nat} (hfuel : s.fsize i ≤ offset + fuel)
    : catLoop path (s.fsize i) fuel offset s = ((s.fileBytes i).drop offset, s) := by
  have hsame : { s with fsErrno := 0 } = s := by rw [← herrno]
  induction fuel generalizing offset with
  | zero => rw [catLoop, List.drop_eq_nil_of_le (by omega)]
  | succ fuel ih =>
    rw [catLoop]
    split
    . next hlt =>
      have hgot : min (s.fsize i - offset) (min (s.fsize i - offset) 4096) = min (s.fsize i - offset) 4096 := by
        omega
      rw [readRange_readable hidx hperm (by omega) hlt, hgot]
      dsimp only [Option.getD_some]
      rw [if_neg (by simp), if_neg (by omega), hsame, ih (by omega), List.take_take, min_self]
      dsimp only
      rw [← List.drop_drop, List.take_append_drop]
    . next hend => rw [List.drop_eq_nil_of_le (by omega)]

theorem catLast_readable (hidx : fileIndex s (absPath s.cwd.str path) = some i)
    (hperm : permAllows s (s.fmode i) (s.fowner i) 0o400) (herrno : s.fsErrno = 0)
    (hlen : (s.fileBytes i).length = s.fsize i)
    : s.fileBytes i ++ (catLast path (s.fsize i) s).1 = withNewline (s.fileBytes i)
      ∧ (catLast path (s.fsize i) s).2 = s := by
  have hsame : { s with fsErrno := 0 } = s := by rw [← herrno]
  unfold catLast withNewline
  by_cases hempty : s.fsize i = 0
  . have hnil : s.fileBytes i = [] := List.length_eq_zero_iff.mp (by omega)
    rw [if_neg (by omega), if_pos (.inl hnil), List.append_nil]
    exact ⟨rfl, rfl⟩
  . have hlast : ((s.fileBytes i).drop (s.fsize i - 1)).take (min (s.fsize i - (s.fsize i - 1)) 1)
        = (s.fileBytes i).drop (s.fsize i - 1) := by
      apply List.take_of_length_le
      rw [List.length_drop]
      omega
    have hone : min (s.fsize i - (s.fsize i - 1)) 1 = 1 := by omega
    have hne : s.fileBytes i ≠ [] := by
      intro hnil
      rw [hnil] at hlen
      exact hempty hlen.symm
    have hhead : ((s.fileBytes i).drop (s.fsize i - 1)).head? = (s.fileBytes i).getLast? := by
      rw [List.head?_drop, List.getLast?_eq_getElem?, hlen]
    rw [if_pos (by omega), readRange_readable hidx hperm (by decide) (by omega), hlast, hone]
    dsimp only
    rw [hhead, hsame]
    refine ⟨?_, rfl⟩
    by_cases hnl : (s.fileBytes i).getLast? = some 10
    . rw [if_neg (by simp [hnl]), if_pos (.inr hnl), List.append_nil]
    . rw [if_pos ⟨rfl, rfl, hnl⟩, if_neg (by simp [hne, hnl])]

theorem catOne_eq (hsize : SizeOk s) (hpath : path ≠ [])
    : (catOne path s).2.1 = catText s path ∧ ∃ e, (catOne path s).2.2 = { s with fsErrno := e } := by
  unfold catOne catText fsFileExists fsGetMode
  cases hidx : fileIndex s (absPath s.cwd.str path) with
  | none =>
    rw [if_pos (by simp), if_neg hpath]
    dsimp only
    cases hdir : dirIndex s (absPath s.cwd.str path) with
    | none => exact ⟨rfl, s.fsErrno, rfl⟩
    | some d => exact ⟨rfl, s.fsErrno, rfl⟩
  | some i =>
    have hidx' : fileIndex { s with fsErrno := 0 } (absPath s.cwd.str path) = some i := hidx
    rw [if_neg (by simp [hpath])]
    unfold fsGetFileSize
    dsimp only
    rw [if_neg hpath, hidx']
    dsimp only
    by_cases hperm : permAllows s (s.fmode i) (s.fowner i) 0o400
    . have hperm' : permAllows { s with fsErrno := 0 } (s.fmode i) (s.fowner i) 0o400 := hperm
      have hlen : (s.fileBytes i).length = s.fsize i := DataInv.length_fileBytes (hsize i).2
      have hloop := @catLoop_readable { s with fsErrno := 0 } path i hidx' hperm' rfl hlen (s.fsize i) 0
        (by change s.fsize i ≤ _; omega)
      obtain ⟨hlast, hstate⟩ := @catLast_readable { s with fsErrno := 0 } path i hidx' hperm' rfl hlen
      rw [if_pos hperm', if_pos hperm]
      dsimp only at hloop hlast hstate ⊢
      rw [hloop]
      dsimp only
      exact ⟨hlast, 0, hstate⟩
    . have hperm' : ¬permAllows { s with fsErrno := 0 } (s.fmode i) (s.fowner i) 0o400 := hperm
      have hdenied := @cat_denied (fsDeny { s with fsErrno := 0 }) path i hidx hperm (2 ^ 32 - 2) (by decide)
      rw [if_neg hperm', if_neg hperm]
      dsimp only
      rw [hdenied.1]
      dsimp only
      rw [(@cat_denied (fsDeny { fsDeny { s with fsErrno := 0 } with fsErrno := 0 }) path i hidx hperm
        (2 ^ 32 - 2) (by decide)).2]
      exact ⟨rfl, _, rfl⟩

theorem catText_readable (hidx : fileIndex s (absPath s.cwd.str path) = some i)
    (hperm : permAllows s (s.fmode i) (s.fowner i) 0o400)
    : catText s path = withNewline (s.fileBytes i) := by
  unfold catText
  rw [hidx]
  exact if_pos hperm

theorem catAll_eq {files : List Bytes} (hsize : SizeOk s) (hfiles : [] ∉ files)
    : (catAll files s).1 = files.flatMap (catText s) ∧ ∃ e, (catAll files s).2 = { s with fsErrno := e } := by
  induction files generalizing s with
  | nil => exact ⟨rfl, s.fsErrno, rfl⟩
  | cons fn files ih =>
    rw [List.mem_cons, not_or] at hfiles
    obtain ⟨hfn, hrest⟩ := hfiles
    obtain ⟨hout, e, hstate⟩ := catOne_eq hsize (Ne.symm hfn)
    obtain ⟨hmore, e', hend⟩ := @ih { s with fsErrno := e } hsize hrest
    rw [catAll, List.flatMap_cons]
    dsimp only
    rw [hstate, hout, hmore, hend]
    exact ⟨rfl, e', rfl⟩

end Cat

def ArgLine.files (l : ArgLine) : List Bytes :=
  (l.args.map (fun a => a.value.take 255)).takeWhile (fun v => decide (v ≠ []))

theorem ArgLine.nil_not_mem_files (l : ArgLine) : [] ∉ l.files := by
  intro hmem
  have hne := List.mem_takeWhile_imp hmem
  simp at hne

theorem catMain_eq {s : FsState} (hsize : SizeOk s) {l : ArgLine} (hl : l.Ok)
    : (catMain l.text s).1
        = (if l.files = [] then message "Usage: cat <file>...\n" else l.files.flatMap (catText s))
      ∧ ∃ e, (catMain l.text s).2 = { s with fsErrno := e } := by
  have hfiles : nextArgs 256 l.text = l.files := nextArgs_go hl.args hl.apart hl.rest (le_refl _)
  unfold catMain
  rw [hfiles]
  dsimp only
  split
  . exact ⟨rfl, s.fsErrno, rfl⟩
  . exact catAll_eq hsize l.nil_not_mem_files

/--
`cat` puts out the texts of the files that its arguments spell out, in their order, each with a newline
behind its last line.
-/
theorem cat_prints {s₀ s : FsState} (hrun : AnyRun (fsInit s₀) s) (uid : Int32) {l : ArgLine} (hl : l.Ok)
    : (catMain l.text { s with fsCurUid := uid }).1
        = (if l.files = [] then
            message "Usage: cat <file>...\n"
          else
            l.files.flatMap (catText { s with fsCurUid := uid }))
      ∧ ∃ e, (catMain l.text { s with fsCurUid := uid }).2 = { s with fsCurUid := uid, fsErrno := e } := by
  have hsize : SizeOk s := SizeOk.run hrun
  exact @catMain_eq { s with fsCurUid := uid } hsize l hl

section Example

def noteLine : ArgLine where
  args := [⟨[], [.quoted 34 (notePath.val.map .raw)]⟩]
  rest := []

theorem noteLine_ok : noteLine.Ok where
  args := by
    intro a ha
    obtain rfl := List.mem_singleton.mp ha
    exact ⟨by simp, by simp, by simp [ArgPiece.Ok, ArgChar.Ok, notePath, slash]⟩
  apart := by simp [noteLine]
  rest := by simp [noteLine]

end Example

theorem cat_prints_note : (catMain noteLine.text { noted with fsCurUid := 0 }).1 = [1, 10] := by
  rw [(cat_prints (noted_run (fun _ _ _ => trivial)) 0 noteLine_ok).1]
  decide +kernel

end TanjaOS
