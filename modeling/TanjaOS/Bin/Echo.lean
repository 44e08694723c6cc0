import TanjaOS.Bin.Cat
import TanjaOS.Fs.Seed

/-!
`echo`: a text on the console or in a file.

In ASCII the newline is 10, carriage return is 13, `"` is 34, `'` is 39, `-` is 45, `>` is 62, the backslash
is 92, and `E`, `e` and `n` are 69, 101 and 110.
-/

open Lib

namespace TanjaOS

/--
The letters of an option, up to a blank: whether there are no others, and `no_newline` behind them.
-/
def echoFlags (noNewline : Bool) (p : Bytes) : Bool × Bool :=
  match p with
  | [] => (true, noNewline)
  | c :: p =>
    if c = 32 then
      (true, noNewline)
    else if c = 110 then
      echoFlags true p
    else if c = 101 ∨ c = 69 then
      echoFlags noNewline p
    else
      (false, noNewline)

/--
What `no_newline` is behind the options, and the line without them.
-/
def echoOptions (fuel : Nat) (noNewline : Bool) (args : Bytes) : Bool × Bytes :=
  match fuel with
  | 0 => (noNewline, args)
  | fuel + 1 =>
    match args with
    | 45 :: c :: rest =>
      let (consumed, noNewline) := echoFlags noNewline (c :: rest)
      if consumed then
        echoOptions fuel noNewline ((args.dropWhile (· ≠ 32)).dropWhile (· = 32))
      else
        (noNewline, args)
    | _ => (noNewline, args)

/--
The line up to the first `>` outside of quotes, and what comes behind it.
-/
def echoSplit (before : Option Byte) (quote : Option Byte) (p : Bytes) : Bytes × Option Bytes :=
  match p with
  | [] => ([], none)
  | c :: p =>
    if (c = 34 ∨ c = 39) ∧ before ≠ some 92 then
      let quote := match quote with
        | none => some c
        | some q => if c = q then none else some q
      let (text, redirect) := echoSplit (some c) quote p
      (c :: text, redirect)
    else if c = 62 ∧ quote = none then
      ([], some p)
    else
      let (text, redirect) := echoSplit (some c) quote p
      (c :: text, redirect)

def echoSpace (c : Byte) : Bool :=
  c = 32 ∨ c = 9 ∨ c = 10 ∨ c = 13

def echoTrim (s : Bytes) : Bytes :=
  (s.reverse.dropWhile echoSpace).reverse

def echoUnquote (s : Bytes) : Bytes :=
  if 2 ≤ s.length ∧ (s.head? = some 34 ∧ s.getLast? = some 34 ∨ s.head? = some 39 ∧ s.getLast? = some 39) then
    s.tail.dropLast
  else
    s

inductive EchoJob where
  | show (text : Bytes)
  | noFile
  | write (append : Bool) (filename text : Bytes)

def echoJob (args : Bytes) : EchoJob :=
  let (noNewline, args) := echoOptions args.length false (args.dropWhile argBlank)
  let (text, redirect) := echoSplit none none args
  let text := echoUnquote (echoTrim text)
  match redirect with
  | none => .show (if noNewline then text else text ++ [10])
  | some rest =>
    let (append, rest) := match rest with
      | 62 :: rest => (true, rest)
      | _ => (false, rest)
    let filename := echoTrim (rest.dropWhile argBlank)
    if filename = [] then .noFile else .write append filename text

/--
`sizeof(old)`
-/
def echoOldSize : Nat := 512 * 1024 + 1

def echoWrite (filename text : Bytes) (s : FsState) : Bytes × FsState :=
  let (rc, s) := fsWriteFile s filename text
  if rc ≠ 0 then
    if s.fsErrno = 13 then
      (message "echo: cannot write '" ++ filename ++ message "': Permission denied\n", s)
    else
      (message "echo: cannot write '" ++ filename
        ++ message "': file is too large, filesystem is full, or directory does not exist\n", s)
  else
    ([], s)

/--
`old` and `old_size` are as the file leaves them, or as they are when the program starts.
-/
def echoAppend.store (filename text old : Bytes) (oldSize : Nat) (s : FsState) : Bytes × FsState :=
  if 512 * 1024 - 1 < oldSize + text.length then
    (message "echo: append would make the file too large\n", s)
  else
    let (rc, s) := fsWriteFile s filename (old.take oldSize ++ text)
    if rc ≠ 0 then
      (message "echo: cannot write '" ++ filename
        ++ (if s.fsErrno = 13 then message "': Permission denied\n" else message "'\n"), s)
    else
      ([], s)

def echoAppend (filename text : Bytes) (s : FsState) : Bytes × FsState :=
  if fsFileExists s filename then
    let r := fsReadFile s filename (.ofNat echoOldSize)
    if r.rc ≠ 0 then
      (message "echo: cannot read '" ++ filename ++ message "'\n", r.state)
    else
      echoAppend.store filename text r.buffer (r.size.getD echoOldSize) r.state
  else
    echoAppend.store filename text [] echoOldSize s

/--
What is put out, and the state. No line is so long that the sizes wrap around.
-/
def echoMain (args : Bytes) (s : FsState) : Bytes × FsState :=
  if args = [] then
    ([10], s)
  else
    match echoJob args with
    | .show text => (text, s)
    | .noFile => (message "echo: missing file after '>'\n", s)
    | .write false filename text => echoWrite filename text s
    | .write true filename text => echoAppend filename text s

/--
`"m" > f` or `"m" >> f`
-/
def echoLine (append : Bool) (m f : Bytes) : Bytes :=
  34 :: (m ++ 34 :: 32 :: 62 :: ((if append then [62, 32] else [32]) ++ f))

/--
The text can stand between quotes, and the name of the file needs none.
-/
structure EchoWords (m f : Bytes) : Prop where
  quotes : 34 ∉ m
  back : m.getLast? ≠ some 92
  name : f ≠ []
  front : ∀ c ∈ f.head?, argBlank c = false
  stop : ∀ c ∈ f.getLast?, echoSpace c = false

section Parse

variable {m f : Bytes}

theorem dropWhile_eq_self {p : Byte → Bool} {l : Bytes} (h : ∀ c ∈ l.head?, p c = false) : l.dropWhile p = l := by
  cases l with
  | nil => rfl
  | cons c l => exact List.dropWhile_cons_of_neg (by rw [h c rfl]; decide)

theorem echoTrim_eq_self {l : Bytes} (h : ∀ c ∈ l.getLast?, echoSpace c = false) : echoTrim l = l := by
  unfold echoTrim
  rw [dropWhile_eq_self, List.reverse_reverse]
  intro c hc
  rw [List.head?_reverse] at hc
  exact h c hc

theorem echoSplit_quoted {b : Byte} (hm : 34 ∉ m) (hback : (b :: m).getLast? ≠ some 92) (tail : Bytes)
    : echoSplit (some b) (some 34) (m ++ 34 :: tail)
      = (m ++ 34 :: (echoSplit (some 34) none tail).1, (echoSplit (some 34) none tail).2) := by
  induction m generalizing b with
  | nil =>
    have hb : some b ≠ some 92 := hback
    rw [List.nil_append, echoSplit, if_pos ⟨.inl rfl, hb⟩]
    rfl
  | cons c m ih =>
    rw [List.mem_cons, not_or] at hm
    have hc : c ≠ 34 := fun h => hm.1 h.symm
    have hrest := @ih c hm.2 hback
    rw [List.cons_append, echoSplit]
    by_cases hquote : (c = 34 ∨ c = 39) ∧ some b ≠ some 92
    . rw [if_pos hquote]
      dsimp only
      rw [if_neg hc, hrest]
      rfl
    . rw [if_neg hquote, if_neg (by simp), hrest]
      rfl

theorem echoUnquote_quoted : echoUnquote (34 :: (m ++ [34])) = m := by
  unfold echoUnquote
  rw [if_pos]
  . rw [List.tail_cons, List.dropLast_concat]
  . refine ⟨?_, .inl ⟨rfl, ?_⟩⟩
    . rw [List.length_cons, List.length_append, List.length_singleton]
      omega
    . rw [← List.cons_append, List.getLast?_concat]

theorem echoJob_quoted (append : Bool) (h : EchoWords m f) : echoJob (echoLine append m f) = .write append f m := by
  have hopts : echoOptions (echoLine append m f).length false ((echoLine append m f).dropWhile argBlank)
      = (false, echoLine append m f) := by
    rw [dropWhile_eq_self]
    . rfl
    . rintro c ⟨⟩
      rfl
  have hlast : ((34 : Byte) :: m).getLast? ≠ some 92 := by
    cases hm : m with
    | nil => decide
    | cons c m =>
      have hback := h.back
      rw [hm] at hback
      exact hback
  have hsplit : echoSplit none none (echoLine append m f)
      = (34 :: (m ++ [34, 32]), some ((if append then [62, 32] else [32]) ++ f)) := by
    unfold echoLine
    rw [echoSplit, if_pos ⟨.inl rfl, by decide⟩]
    dsimp only
    rw [echoSplit_quoted h.quotes hlast]
    rfl
  have htext : echoUnquote (echoTrim (34 :: (m ++ [34, 32]))) = m := by
    have htrim : echoTrim (34 :: (m ++ [34, 32])) = 34 :: (m ++ [34]) := by
      have hsplice : (34 : Byte) :: (m ++ [34, 32]) = (34 :: (m ++ [34])) ++ [32] := by simp
      unfold echoTrim
      rw [hsplice, List.reverse_append, List.reverse_singleton, List.singleton_append,
        List.dropWhile_cons_of_pos (by decide), dropWhile_eq_self, List.reverse_reverse]
      intro c hc
      rw [List.head?_reverse, ← List.cons_append, List.getLast?_concat] at hc
      cases hc
      rfl
    rw [htrim, echoUnquote_quoted]
  have hname : echoTrim ((32 :: f).dropWhile argBlank) = f := by
    rw [List.dropWhile_cons_of_pos (by decide), dropWhile_eq_self h.front, echoTrim_eq_self h.stop]
  unfold echoJob
  rw [hopts]
  dsimp only
  rw [hsplit]
  dsimp only
  rw [htext]
  cases append with
  | false =>
    change (if echoTrim ((32 :: f).dropWhile argBlank) = [] then EchoJob.noFile
      else EchoJob.write false (echoTrim ((32 :: f).dropWhile argBlank)) m) = _
    rw [hname, if_neg h.name]
  | true =>
    change (if echoTrim ((32 :: f).dropWhile argBlank) = [] then EchoJob.noFile
      else EchoJob.write true (echoTrim ((32 :: f).dropWhile argBlank)) m) = _
    rw [hname, if_neg h.name]

end Parse

/--
The bytes of a file before `echo` goes on with it.
-/
def echoOld (append : Bool) (s : FsState) (x : Bytes) : Bytes :=
  if append then (s.files x).elim [] FileView.bytes else []

section Redirect

variable {s : FsState} {m : Bytes} {f : CStr}

theorem message_ne (t : String) (h : t.toList ≠ []) : message t ≠ [] := by
  unfold message
  intro hnil
  exact h (List.map_eq_nil_iff.mp hnil)

theorem message_append_ne (t : String) (l : Bytes) (h : t.toList ≠ []) : message t ++ l ≠ [] :=
  List.append_ne_nil_of_left_ne_nil (message_ne t h) l

theorem echoAppend_missing (hnone : fileIndex s (absPath s.cwd.str f) = none)
    : echoAppend f m s = (message "echo: append would make the file too large\n", s) := by
  have hexists : fsFileExists s f = false := by
    unfold fsFileExists
    rw [hnone]
    simp
  unfold echoAppend echoAppend.store
  rw [if_neg (by rw [hexists]; decide), if_pos (by unfold echoOldSize; omega)]

theorem echoWrite_replaced (h : ContentInv s) (hquiet : (echoWrite f m s).1 = [])
    : (fsWriteFile s f m).1 = 0 ∧ (echoWrite f m s).2 = (fsWriteFile s f m).2
      ∧ Replaced s (echoWrite f m s).2 (absPath s.cwd.str f) m := by
  unfold echoWrite at hquiet ⊢
  dsimp only at hquiet ⊢
  by_cases hrc : (fsWriteFile s f m).1 = 0
  . rw [if_neg (not_not_intro hrc)]
    exact ⟨hrc, rfl, fsWriteFile_replaced h hrc⟩
  . exfalso
    rw [if_pos hrc] at hquiet
    revert hquiet
    split
    . rw [List.append_assoc]
      exact message_append_ne _ _ (by decide)
    . rw [List.append_assoc]
      exact message_append_ne _ _ (by decide)

theorem echoStore_quiet {name text old : Bytes} {oldSize : Nat}
    (hquiet : (echoAppend.store name text old oldSize s).1 = [])
    : oldSize + text.length ≤ 512 * 1024 - 1
      ∧ (fsWriteFile s name (old.take oldSize ++ text)).1 = 0
      ∧ (echoAppend.store name text old oldSize s).2 = (fsWriteFile s name (old.take oldSize ++ text)).2 := by
  unfold echoAppend.store at hquiet ⊢
  by_cases hlarge : 512 * 1024 - 1 < oldSize + text.length
  . rw [if_pos hlarge] at hquiet
    exact absurd hquiet (message_ne _ (by decide))
  . rw [if_neg hlarge] at hquiet ⊢
    dsimp only at hquiet ⊢
    by_cases hrc : (fsWriteFile s name (old.take oldSize ++ text)).1 = 0
    . rw [if_neg (not_not_intro hrc)]
      exact ⟨by omega, hrc, rfl⟩
    . rw [if_pos hrc, List.append_assoc] at hquiet
      exact absurd hquiet (message_append_ne _ _ (by decide))

theorem echoAppend_replaced (h : ContentInv s) (hne : f.val ≠ []) (hquiet : (echoAppend f m s).1 = [])
    : ∃ i, fileIndex s (absPath s.cwd.str f) = some i ∧ (s.fileBytes i ++ m).length < 2 ^ 32
      ∧ (echoAppend f m s).2 = (fsWriteFile s f (s.fileBytes i ++ m)).2
      ∧ Replaced s (echoAppend f m s).2 (absPath s.cwd.str f) (s.fileBytes i ++ m) := by
  cases hidx : fileIndex s (absPath s.cwd.str f) with
  | none =>
    rw [echoAppend_missing hidx] at hquiet
    exact absurd hquiet (message_ne _ (by decide))
  | some i =>
    refine ⟨i, rfl, ?_⟩
    have hexists : fsFileExists s f = true := by
      unfold fsFileExists
      rw [hidx]
      simp [hne]
    by_cases hperm : permAllows s (s.fmode i) (s.fowner i) 0o400
    . have hread : fsReadFile s f (.ofNat echoOldSize)
          = ⟨0, (s.fileBytes i).take echoOldSize ++ [0], some (min (s.fsize i) echoOldSize),
              { s with fsErrno := 0 }⟩ :=
        @fsReadFilePrefix_readable { s with fsErrno := 0 } f i (echoOldSize + 1) hidx (h.sizes i).2 (by decide) hperm
      have hlen : (s.fileBytes i).length = s.fsize i := DataInv.length_fileBytes (h.sizes i).2
      have hstore : echoAppend f m s = echoAppend.store f m ((s.fileBytes i).take echoOldSize ++ [0])
          (min (s.fsize i) echoOldSize) { s with fsErrno := 0 } := by
        unfold echoAppend
        rw [if_pos hexists, hread]
        rfl
      rw [hstore] at hquiet ⊢
      obtain ⟨hfits, hrc, hstate⟩ := echoStore_quiet hquiet
      have hold : ((s.fileBytes i).take echoOldSize ++ [0]).take (min (s.fsize i) echoOldSize) = s.fileBytes i := by
        have hsize : s.fsize i < echoOldSize := by
          unfold echoOldSize at hfits ⊢
          omega
        rw [List.take_of_length_le (show (s.fileBytes i).length ≤ echoOldSize by omega),
          Nat.min_eq_left (by omega), List.take_append_of_le_length (by omega), List.take_of_length_le (by omega)]
      rw [hold] at hrc hstate
      rw [hstate]
      refine ⟨?_, rfl, fsWriteFile_replaced h hrc⟩
      rw [List.length_append]
      unfold echoOldSize at hfits
      omega
    . have hread : (fsReadFile s f (.ofNat echoOldSize)).rc ≠ 0 :=
        @fsReadFilePrefix_denied { s with fsErrno := 0 } f i (echoOldSize + 1) hidx (by decide) hperm
      unfold echoAppend at hquiet
      dsimp only at hquiet
      rw [if_pos hexists, if_pos hread, List.append_assoc] at hquiet
      exact absurd hquiet (message_append_ne _ _ (by decide))

end Redirect

theorem cat_written {s₀ s t : FsState} {bytes : UInt32} (hpool : s₀.fpoolBytes = fsSetPool bytes)
    (hrun : FsRun (fun s c => c.NoWrap s) (fsInit s₀) s) (uid reader : Int32) {f : CStr} {data : Bytes}
    (hlen : data.length < 2 ^ 32) (ht : t = (fsWriteFile { s with fsCurUid := uid } f data).2)
    (hnew : (t.files (absPath s.cwd.str f)).map FileView.bytes = some data) {l : ArgLine} (hl : l.Ok)
    (hfile : l.files = [f.val])
    (hperm : ∀ i, fileIndex t (absPath s.cwd.str f) = some i →
      permAllows { t with fsCurUid := reader } (t.fmode i) (t.fowner i) 0o400)
    : (catMain l.text { t with fsCurUid := reader }).1 = withNewline data := by
  have hcall : FsCall.Step ⟨uid, .writeFile f ⟨data, hlen⟩⟩ s t := by
    rw [ht]
    exact FsCall.step 0 rfl
  have hsizes := (ContentInv.run hpool (hrun.call hcall trivial) reader).sizes
  have hcwd : t.cwd = s.cwd := by
    rw [ht]
    exact cwd_fsWriteFile f data
  obtain ⟨v, hv, hbytes⟩ := Option.map_eq_some_iff.mp hnew
  obtain ⟨i, hidx, rfl⟩ := Option.map_eq_some_iff.mp hv
  have hmode := hperm i hidx
  rw [← hcwd] at hidx
  rw [(catMain_eq hsizes hl).1, hfile, if_neg (List.cons_ne_nil _ _), List.flatMap_singleton,
    @catText_readable { t with fsCurUid := reader } f i hidx hmode]
  exact congrArg withNewline hbytes

/--
What `echo` has written is what `cat` puts out. `>>` writes behind what is there, without a newline in
between, and it never makes a file.
-/
theorem echo_then_cat {s₀ s : FsState} {bytes : UInt32} (hpool : s₀.fpoolBytes = fsSetPool bytes)
    (hrun : FsRun (fun s c => c.NoWrap s) (fsInit s₀) s) (uid reader : Int32) (append : Bool) {m : Bytes}
    {f : CStr} (hwords : EchoWords m f) (hlen : m.length < 2 ^ 32) {l : ArgLine} (hl : l.Ok)
    (hfile : l.files = [f.val])
    : (append = true → (s.files (absPath s.cwd.str f)) = none →
        echoMain (echoLine append m f) { s with fsCurUid := uid }
          = (message "echo: append would make the file too large\n", { s with fsCurUid := uid }))
      ∧ ((echoMain (echoLine append m f) { s with fsCurUid := uid }).1 = [] →
          Replaced { s with fsCurUid := uid } (echoMain (echoLine append m f) { s with fsCurUid := uid }).2
              (absPath s.cwd.str f) (echoOld append s (absPath s.cwd.str f) ++ m)
            ∧ ∀ t, t = (echoMain (echoLine append m f) { s with fsCurUid := uid }).2 →
              (∀ i, fileIndex t (absPath s.cwd.str f) = some i →
                permAllows { t with fsCurUid := reader } (t.fmode i) (t.fowner i) 0o400) →
              (catMain l.text { t with fsCurUid := reader }).1
                = withNewline (echoOld append s (absPath s.cwd.str f) ++ m)) := by
  have hinv := ContentInv.run hpool hrun uid
  have hmain : echoMain (echoLine append m f) { s with fsCurUid := uid }
      = if append then echoAppend f m { s with fsCurUid := uid } else echoWrite f m { s with fsCurUid := uid } := by
    have hne : echoLine append m f ≠ [] := List.cons_ne_nil _ _
    unfold echoMain
    rw [if_neg hne, echoJob_quoted append hwords]
    cases append <;> rfl
  rw [hmain]
  cases append with
  | false =>
    refine ⟨fun h => absurd h (by decide), ?_⟩
    rw [if_neg (by decide)]
    intro hquiet
    obtain ⟨_, hstate, hrep⟩ := echoWrite_replaced hinv hquiet
    refine ⟨hrep, ?_⟩
    rintro t rfl hperm
    exact cat_written hpool hrun uid reader hlen hstate hrep.content hl hfile hperm
  | true =>
    rw [if_pos rfl]
    constructor
    . intro _ hnone
      exact echoAppend_missing (Option.map_eq_none_iff.mp hnone)
    . intro hquiet
      obtain ⟨i, hidx, hsize, hstate, hrep⟩ := echoAppend_replaced hinv hwords.name hquiet
      have hold : echoOld true s (absPath s.cwd.str f) = s.fileBytes i := by
        have hfound : fileIndex s (absPath s.cwd.str f) = some i := hidx
        unfold echoOld FsState.files
        rw [if_pos rfl, hfound]
        rfl
      rw [hold]
      refine ⟨hrep, ?_⟩
      rintro t rfl hperm
      exact cat_written hpool hrun uid reader hsize hstate hrep.content hl hfile hperm

theorem echo_then_cat_note
    : (catMain noteLine.text
        { (echoMain (echoLine true [7] notePath) { noted with fsCurUid := 0 }).2 with fsCurUid := 0 }).1
      = [1, 7, 10] := by
  have hwords : EchoWords [7] notePath := by
    refine ⟨by decide, by decide, by decide, ?_, ?_⟩
    . rintro c ⟨⟩
      rfl
    . rintro c ⟨⟩
      rfl
  have hquiet : (echoMain (echoLine true [7] notePath) { noted with fsCurUid := 0 }).1 = [] := by
    decide +kernel
  have hcat := ((echo_then_cat (show (FsState.zeroed 64).fpoolBytes = fsSetPool 64 by decide)
    (noted_run (fun _ _ hwrap => hwrap)) 0 0 true hwords (by decide) noteLine_ok (by decide)).2 hquiet).2 _ rfl
    (fun _ _ => rfl)
  rw [hcat]
  decide +kernel

end TanjaOS
