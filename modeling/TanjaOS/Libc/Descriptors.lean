import TanjaOS.Libc.Stream
import TanjaOS.Lib.Trace

/-!
What the descriptors of a program stand for: an open file is a text of its own with a position in it, and
nothing that is done with another descriptor changes it.
-/

open Lib

namespace TanjaOS

section Spec

structure OpenStream where
  console : FdConsole
  path : Option CStr
  content : Bytes
  pos : Nat
  readable : Bool
  writable : Bool
  append : Bool
  eof : Bool
  error : Bool
  dirty : Bool
  pushed : Option Int

namespace OpenStream

def empty (console : FdConsole) : OpenStream where
  console := console
  path := none
  content := []
  pos := 0
  readable := console = .input
  writable := console = .output
  append := false
  eof := false
  error := false
  dirty := false
  pushed := none

variable (s : OpenStream)

def next (count : Nat) : Bytes × OpenStream :=
  ((s.content.drop s.pos).take count, { s with
    pos := min (s.pos + count) s.content.length
    eof := s.eof || decide (s.content.length < s.pos + count) })

/--
The next `count` bytes of a file, the character that has been put back before all others.
-/
def take (count : Nat) : Bytes × OpenStream :=
  match count, s.pushed with
  | 0, _ => ([], s)
  | count + 1, none => s.next (count + 1)
  | count + 1, some c =>
    let s := { s with pushed := none }
    if c < 0 then
      ([], s)
    else
      let r := s.next count
      (asByte c :: r.1, r.2)

def put (data : Bytes) : OpenStream :=
  { s with content := splice s.content s.pos data, pos := s.pos + data.length, dirty := true }

def atEnd : OpenStream :=
  if s.append then { s with pos := s.content.length } else s

def seek (base : Nat) (offset : Int) : OpenStream :=
  { s with pos := min (asUnsigned (base + offset)) s.content.length, eof := false }

end OpenStream

structure Streams where
  fs : FsState
  table : Fin tanjaMaxFds → Option OpenStream
  errno : Nat
  keys : Nat → Int
  printed : Bytes

/--
The bytes that `open` finds in a file, if it may read them and has memory for them.
-/
def loadedText (fs : FsState) (path : CStr) (m : Option Mem) : Option Bytes × FsState :=
  let (sz, fs) := fsGetFileSize fs path
  if m.isNone then
    (none, fs)
  else if fsFileExists fs path then
    let r := fsReadFile fs path (.ofNat (sz + 1))
    (if r.rc = 0 then (fs.files (absPath fs.cwd.str path)).map FileView.bytes else none, r.state)
  else
    (some [], fs)

namespace Streams

variable (a : Streams)

def set (i : Fin tanjaMaxFds) (s : Option OpenStream) : Streams :=
  { a with table := Function.update a.table i s }

def fail (errno : Nat) : FdResult × Streams :=
  (⟨-1, []⟩, { a with errno := errno })

def withConsole : Streams :=
  if (a.table 0).isSome then
    a
  else
    ((a.set 0 (some (.empty .input))).set 1 (some (.empty .output))).set 2 (some (.empty .output))

def free : Option (Fin tanjaMaxFds) :=
  (List.finRange tanjaMaxFds).find? (fun i => decide (3 ≤ i.val) && (a.table i).isNone)

def openFd (path : CStr) (flags : UInt32) (m : Option Mem) (named : Bool) : FdResult × Streams :=
  if path.val = [] then
    a.fail 2
  else
    let a := a.withConsole
    match a.free with
    | none => a.fail 4
    | some i =>
      if flags &&& oCreate = 0 ∧ ¬fsFileExists a.fs path then
        a.fail 2
      else
        let (text, fs) := loadedText a.fs path m
        let a := { a with fs := fs }
        match text with
        | some text =>
          ready a i (if flags &&& oTruncate ≠ 0 then [] else text) (flags &&& oTruncate ≠ 0)
        | none =>
          if flags &&& oCreate = 0 then
            a.fail 2
          else
            let (rc, fs) := fsCreateFile a.fs path
            let a := { a with fs := fs }
            if rc ≠ 0 then a.fail 13 else ready a i [] false
where
  ready (a : Streams) (i : Fin tanjaMaxFds) (text : Bytes) (dirty : Bool) : FdResult × Streams :=
    (⟨i.val, []⟩, a.set i (some { OpenStream.empty .none with
      path := if named then some path else none
      content := text
      pos := if flags &&& oAppending ≠ 0 then text.length else 0
      readable := flags &&& oWrOnly = 0
      writable := flags &&& (oWrOnly ||| oReadWrite) ≠ 0
      append := flags &&& oAppending ≠ 0
      dirty := dirty }))

def flush (i : Fin tanjaMaxFds) : Streams :=
  match a.table i with
  | none => a
  | some s =>
    match s.path with
    | none => a
    | some path =>
      if s.console = .none ∧ s.dirty ∧ s.writable then
        { a with fs := (fsWriteFile a.fs path s.content).2 }.set i (some { s with dirty := false })
      else
        a

def close (fd : Int) : FdResult × Streams :=
  match fdEntry fd with
  | none => a.fail 9
  | some i =>
    match a.table i with
    | none => a.fail 9
    | some s => if s.console ≠ .none then a.fail 9 else (⟨0, []⟩, (a.flush i).set i none)

def getc (i : Fin tanjaMaxFds) : Int × Streams :=
  match a.table i with
  | none => (-1, a)
  | some s =>
    match s.pushed with
    | some c => (c, a.set i (some { s with pushed := none }))
    | none =>
      if s.console = .input then
        (a.keys 0, { a with keys := fun n => a.keys (n + 1) })
      else
        match s.content[s.pos]? with
        | none => (-1, a.set i (some { s with eof := true }))
        | some b => (b.toNat, a.set i (some { s with pos := s.pos + 1 }))

def take (i : Fin tanjaMaxFds) (s : OpenStream) (line : Bool) (count : Nat) : Bytes × Streams :=
  if s.console ≠ .none then
    getLoop (fun a => a.getc i) line count a
  else
    ((s.take count).1, a.set i (some (s.take count).2))

/--
`full` says that there is no memory for the buffer to grow.
-/
def put (full : Bool) (i : Fin tanjaMaxFds) (data : Bytes) : Int × Streams :=
  match a.table i with
  | none => (-1, a)
  | some s =>
    if ¬s.writable then
      (-1, a)
    else if s.console = .output then
      (asInt data.length, { a with printed := a.printed ++ data })
    else if full then
      (-1, a.set i (some { s.atEnd with error := true }))
    else
      (asInt data.length, a.set i (some (s.atEnd.put data)))

def read (fd : Int) (count : Nat) : FdResult × Streams :=
  match fdEntry fd with
  | none => a.fail 9
  | some i =>
    match a.table i with
    | none => a.fail 9
    | some s =>
      if ¬s.readable then
        a.fail 9
      else
        let r := a.take i s (s.console ≠ .none) count
        (⟨if r.1 ≠ [] then asInt r.1.length else if count ≠ 0 then -1 else 0, r.1⟩, r.2)

def write (full : Bool) (fd : Int) (data : Bytes) : FdResult × Streams :=
  match fdEntry fd with
  | none => a.fail 9
  | some i =>
    if (a.table i).isNone then
      a.fail 9
    else
      let r := a.put full i data
      if r.1 < 0 then r.2.fail 9 else (⟨r.1, []⟩, r.2)

def lseek (fd offset whence : Int) : FdResult × Streams :=
  match fdEntry fd with
  | none => a.fail 29
  | some i =>
    match a.table i with
    | none => a.fail 29
    | some s =>
      if s.console ≠ .none then
        a.fail 29
      else if whence = 0 then
        moved i (s.seek 0 offset)
      else if whence = 1 then
        moved i (s.seek s.pos offset)
      else if whence = 2 then
        moved i (s.seek s.content.length offset)
      else
        a.fail 22
where
  moved (i : Fin tanjaMaxFds) (s : OpenStream) : FdResult × Streams :=
    (⟨asInt s.pos, []⟩, a.set i (some s))

def fclose (i : Fin tanjaMaxFds) : FdResult × Streams :=
  match a.table i with
  | none => (⟨-1, []⟩, a)
  | some s => if s.console ≠ .none then (⟨0, []⟩, a) else (⟨0, []⟩, (a.flush i).set i none)

def fread (size nmemb : Nat) (i : Fin tanjaMaxFds) : FdResult × Streams :=
  match a.table i with
  | none => (⟨0, []⟩, a)
  | some s =>
    if ¬s.readable then
      (⟨0, []⟩, a)
    else
      let r := a.take i s false (size * nmemb % 2 ^ 32)
      (⟨if size ≠ 0 then r.1.length / size else 0, r.1⟩, r.2)

def fwrite (full : Bool) (data : Bytes) (size : Nat) (i : Fin tanjaMaxFds) : FdResult × Streams :=
  let r := a.put full i data
  if r.1 < 0 then (⟨0, []⟩, r.2) else (⟨if size ≠ 0 then r.1 / size else 0, []⟩, r.2)

def ungetc (c : Int) (i : Fin tanjaMaxFds) : FdResult × Streams :=
  match a.table i with
  | none => (⟨-1, []⟩, a)
  | some s => (⟨c, []⟩, a.set i (some { s with pushed := some c, eof := false }))

end Streams

/--
What a call gives and does, where `full` says that the buffer of a file cannot grow.
-/
def FdCall.outcome (full : Bool) (c : FdCall) (a : Streams) : FdResult × Streams :=
  match c with
  | .openFd path flags m named => a.openFd path flags m named
  | .close fd => a.close fd
  | .read fd count => a.read fd count
  | .write fd data _ => a.write full fd data
  | .lseek fd offset whence => a.lseek fd offset whence
  | .fopen path mode m named => if mode = [] then a.fail 22 else a.openFd path (FdState.fopenFlags mode) m named
  | .fclose none => (⟨-1, []⟩, a)
  | .fclose (some i) => a.fclose i
  | .fread _ _ none => (⟨0, []⟩, a)
  | .fread size nmemb (some i) => a.fread size nmemb i
  | .fwrite _ _ _ none => (⟨0, []⟩, a)
  | .fwrite data size _ (some i) => a.fwrite full data size i
  | .fgetc none => (⟨-1, []⟩, a)
  | .fgetc (some i) => (⟨(a.getc i).1, []⟩, (a.getc i).2)
  | .fputc _ _ none => (⟨-1, []⟩, a)
  | .fputc c _ (some i) =>
    let r := a.put full i [asByte c]
    (⟨if r.1 = 1 then (asByte c).toNat else -1, []⟩, r.2)
  | .fputs _ _ none => (⟨-1, []⟩, a)
  | .fputs s _ (some i) =>
    let r := a.put full i s
    (⟨if r.1 = asInt s.length then 0 else -1, []⟩, r.2)
  | .ungetc _ none => (⟨-1, []⟩, a)
  | .ungetc c (some i) => a.ungetc c i
  | .fflush none => (⟨0, []⟩, (List.finRange tanjaMaxFds).foldl Streams.flush a)
  | .fflush (some i) => (⟨0, []⟩, a.flush i)
  | .other change => (⟨0, []⟩, { a with fs := change a.fs })

def FdCall.written : FdCall → Option (Option (Fin tanjaMaxFds) × Bytes × Option Mem)
  | .write fd data m => some (fdEntry fd, data, m)
  | .fwrite data _ m f => some (f, data, m)
  | .fputc c m f => some (f, [asByte c], m)
  | .fputs s m f => some (f, s, m)
  | _ => none

def FdCall.Allowed (c : FdCall) (a : Streams) (r : FdResult) (a' : Streams) : Prop :=
  ∃ full, (full = true → ∃ w ∈ c.written, w.2.2 = none) ∧ c.outcome full a = (r, a')

/--
The record of a descriptor as the stream that it stands for while it is in use.
-/
def TanjaFd.text (f : TanjaFd) : OpenStream where
  console := f.isConsole
  path := f.path
  content := f.buf.readBytes 0 f.size
  pos := f.pos
  readable := f.readable
  writable := f.writable
  append := f.append
  eof := f.eof
  error := f.error
  dirty := f.dirty
  pushed := if f.haveUnget then some f.unget else none

def TanjaFd.stream (f : TanjaFd) : Option OpenStream :=
  if f.used then some f.text else none

def FdState.streams (st : FdState) : Streams where
  fs := st.fs
  table i := (st.fdt i).stream
  errno := st.errno
  keys := st.keys
  printed := st.printed

/--
What is read and written lies within the buffer, the console is as it was before it is opened, and every
loop has ended.
-/
structure FdState.Ok (st : FdState) : Prop where
  fs : ContentInv st.fs
  ended : st.stuck = false
  bounds : ∀ i, (st.fdt i).pos ≤ (st.fdt i).size ∧ (st.fdt i).size ≤ (st.fdt i).cap
  console : (∀ i, i.val < 3 → (st.fdt i).used = true ∧ (st.fdt i).isConsole ≠ .none)
    ∨ ∀ i, i.val < 3 → st.fdt i = .zero

/--
No text grows to 2 GiB, and the other calls leave the files in order.
-/
def FdCall.Fits (c : FdCall) (st : FdState) : Prop :=
  (∀ w ∈ c.written, ∀ i ∈ w.1, (st.fdt i).size + w.2.1.length < 2 ^ 31)
    ∧ ∀ change, c = .other change → ContentInv (change st.fs)

end Spec

section Step

variable {st : FdState} {f : TanjaFd} {i : Fin tanjaMaxFds}

theorem TanjaFd.stream_used (h : f.used = true) : f.stream = some f.text := if_pos h

theorem TanjaFd.stream_unused (h : ¬f.used = true) : f.stream = none := if_neg h

theorem setFd_same : (st.setFd i f).fdt i = f := by
  unfold FdState.setFd
  exact Function.update_self _ _ _

theorem setFd_other {j : Fin tanjaMaxFds} (h : j ≠ i) : (st.setFd i f).fdt j = st.fdt j := by
  unfold FdState.setFd
  exact Function.update_of_ne h _ _

theorem setFd_all {P : Fin tanjaMaxFds → TanjaFd → Prop} (hf : P i f) (h : ∀ j, j ≠ i → P j (st.fdt j))
    (j : Fin tanjaMaxFds) : P j ((st.setFd i f).fdt j) := by
  by_cases hj : j = i
  . subst hj
    rw [setFd_same]
    exact hf
  . rw [setFd_other hj]
    exact h j hj

theorem streams_setFd : (st.setFd i f).streams = st.streams.set i f.stream := by
  have htable : (fun j => ((st.setFd i f).fdt j).stream) = Function.update st.streams.table i f.stream := by
    funext j
    by_cases h : j = i
    . subst h
      rw [setFd_same, Function.update_self]
    . rw [setFd_other h, Function.update_of_ne h]
      rfl
  exact congrArg (fun table => { st.streams with table := table }) htable

theorem streams_used {s : OpenStream} (h : f.used = true) (htext : f.text = s)
    : st.streams.set i (some s) = (st.setFd i f).streams := by
  rw [streams_setFd, TanjaFd.stream_used h, htext]

theorem table_used (h : (st.fdt i).used = true) : st.streams.table i = some (st.fdt i).text :=
  TanjaFd.stream_used h

theorem table_unused (h : ¬(st.fdt i).used = true) : st.streams.table i = none :=
  TanjaFd.stream_unused h

theorem text_length : (st.fdt i).text.content.length = (st.fdt i).size := Mem.length_readBytes 0 _

theorem fdEntry_val (i : Fin tanjaMaxFds) : fdEntry i.val = some i := by
  unfold fdEntry
  rw [dif_pos ⟨by omega, by omega⟩]
  rfl

theorem FdState.Ok.used (h : st.Ok) (hused : (st.fdt i).used = true) (hlt : i.val < 3)
    : (st.fdt i).isConsole ≠ .none := by
  obtain hcon | hzero := h.console
  . exact (hcon i hlt).2
  . rw [hzero i hlt] at hused
    contradiction

theorem FdState.Ok.setFd (h : st.Ok) (hpos : f.pos ≤ f.size) (hsize : f.size ≤ f.cap)
    (hconsole : i.val < 3 → (st.fdt i).used = true ∧ f.used = true ∧ f.isConsole ≠ .none)
    : (st.setFd i f).Ok := by
  refine ⟨h.fs, h.ended, ?_, ?_⟩
  . exact setFd_all (P := fun _ f => f.pos ≤ f.size ∧ f.size ≤ f.cap) ⟨hpos, hsize⟩ (fun j _ => h.bounds j)
  . obtain hcon | hzero := h.console
    . exact .inl (setFd_all (P := fun j f => j.val < 3 → f.used = true ∧ f.isConsole ≠ .none)
        (fun hlt => (hconsole hlt).2) (fun j _ => hcon j))
    . refine .inr (setFd_all (P := fun j f => j.val < 3 → f = .zero) (fun hlt => ?_) (fun j _ => hzero j))
      have hused := (hconsole hlt).1
      rw [hzero i hlt] at hused
      contradiction

theorem FdState.Ok.changed (h : st.Ok) (hused : (st.fdt i).used = true) (hpos : f.pos ≤ f.size)
    (hsize : f.size ≤ f.cap) (hsame : f.used = true ∧ f.isConsole = (st.fdt i).isConsole)
    : (st.setFd i f).Ok := by
  apply h.setFd hpos hsize
  intro hlt
  rw [hsame.2]
  exact ⟨hused, hsame.1, h.used hused hlt⟩

theorem FdState.Ok.of_fdt {st' : FdState} (h : st.Ok) (hfs : ContentInv st'.fs) (hended : st'.stuck = st.stuck)
    (hfdt : st'.fdt = st.fdt) : st'.Ok := by
  refine ⟨hfs, hended.trans h.ended, ?_, ?_⟩
  . rw [hfdt]
    exact h.bounds
  . rw [hfdt]
    exact h.console

theorem getc_view (h : st.Ok)
    : st.streams.getc i = ((st.tanjaFdGetc i).1, (st.tanjaFdGetc i).2.streams) ∧ (st.tanjaFdGetc i).2.Ok := by
  have hb := h.bounds i
  unfold Streams.getc FdState.tanjaFdGetc
  dsimp only
  by_cases hused : (st.fdt i).used = true
  . rw [table_used hused, if_neg (not_not_intro hused)]
    by_cases hunget : (st.fdt i).haveUnget = true
    . have hpushed : (st.fdt i).text.pushed = some (st.fdt i).unget := if_pos hunget
      rw [if_pos hunget]
      dsimp only
      rw [hpushed]
      exact ⟨congrArg (Prod.mk _) (streams_used (by exact hused) rfl), h.changed hused hb.1 hb.2 ⟨hused, rfl⟩⟩
    . have hpushed : (st.fdt i).text.pushed = none := if_neg hunget
      rw [if_neg hunget]
      dsimp only
      rw [hpushed]
      dsimp only
      by_cases hinput : (st.fdt i).isConsole = .input
      . rw [if_pos hinput]
        have hinput' : (st.fdt i).text.console = .input := hinput
        rw [if_pos hinput']
        exact ⟨rfl, h.of_fdt h.fs rfl rfl⟩
      . have hinput' : ¬(st.fdt i).text.console = .input := hinput
        have hnext : (st.fdt i).text.content[(st.fdt i).text.pos]?
            = if (st.fdt i).pos < (st.fdt i).size then some ((st.fdt i).buf (0 + (st.fdt i).pos)) else none :=
          Mem.getElem?_readBytes 0 _ _
        rw [if_neg hinput, if_neg hinput', hnext]
        by_cases hend : (st.fdt i).size ≤ (st.fdt i).pos
        . rw [if_pos hend, if_neg (by omega)]
          exact ⟨congrArg (Prod.mk _) (streams_used (by exact hused) (by unfold TanjaFd.text; rw [if_neg hunget])),
            h.changed hused hb.1 hb.2 ⟨hused, rfl⟩⟩
        . rw [if_neg hend, if_pos (by omega)]
          rw [Nat.zero_add]
          exact ⟨congrArg (Prod.mk _) (streams_used (by exact hused) (by unfold TanjaFd.text; rw [if_neg hunget])),
            h.changed hused (by dsimp only; omega) hb.2 ⟨hused, rfl⟩⟩
  . rw [table_unused hused, if_pos hused]
    exact ⟨rfl, h⟩

theorem getLoop_view {line : Bool} {count : Nat} (h : st.Ok)
    : getLoop (fun a => a.getc i) line count st.streams
        = ((getLoop (fun st => st.tanjaFdGetc i) line count st).1,
          (getLoop (fun st => st.tanjaFdGetc i) line count st).2.streams)
      ∧ (getLoop (fun st => st.tanjaFdGetc i) line count st).2.Ok := by
  induction count generalizing st with
  | zero => exact ⟨rfl, h⟩
  | succ count ih =>
    obtain ⟨hview, hok⟩ := @getc_view st i h
    obtain ⟨hrest, hrestok⟩ := ih hok
    unfold getLoop
    dsimp only
    rw [hview]
    dsimp only
    split
    . exact ⟨rfl, hok⟩
    . split
      . exact ⟨rfl, hok⟩
      . rw [hrest]
        exact ⟨rfl, hrestok⟩

end Step

section Take

variable {a : Streams} {i : Fin tanjaMaxFds} {s : OpenStream} {count : Nat}

theorem asByte_toNat (b : Byte) : asByte b.toNat = b := by
  have hlt := b.toNat_lt
  unfold asByte
  rw [show ((b.toNat : Int) % 256).toNat = b.toNat by omega, UInt8.ofNat_toNat]

theorem table_set : (a.set i (some s)).table i = some s := by
  unfold Streams.set
  exact Function.update_self _ _ _

theorem set_set {s' : Option OpenStream} : (a.set i (some s)).set i s' = a.set i s' := by
  unfold Streams.set
  dsimp only
  rw [Function.update_idem]

theorem set_table (h : a.table i = some s) : a.set i (some s) = a := by
  unfold Streams.set
  rw [← h, Function.update_eq_self]

theorem next_zero (h : s.pos ≤ s.content.length) : s.next 0 = ([], s) := by
  unfold OpenStream.next
  rw [List.take_zero, Nat.add_zero, Nat.min_eq_left h, decide_eq_false (by omega), Bool.or_false]

theorem getc_byte (htable : a.table i = some s) (hinput : s.console ≠ .input) (hpushed : s.pushed = none)
    (h : s.pos < s.content.length)
    : a.getc i = ((s.content[s.pos].toNat : Int), a.set i (some { s with pos := s.pos + 1 })) := by
  unfold Streams.getc
  rw [htable]
  dsimp only
  split
  . next c hc => rw [hpushed] at hc; contradiction
  . rw [if_neg hinput, List.getElem?_eq_getElem h]

theorem getc_end (htable : a.table i = some s) (hinput : s.console ≠ .input) (hpushed : s.pushed = none)
    (h : s.content.length ≤ s.pos) : a.getc i = (-1, a.set i (some { s with eof := true })) := by
  unfold Streams.getc
  rw [htable]
  dsimp only
  split
  . next c hc => rw [hpushed] at hc; contradiction
  . rw [if_neg hinput, List.getElem?_eq_none h]

theorem getc_pushed {c : Int} (htable : a.table i = some s) (hpushed : s.pushed = some c)
    : a.getc i = (c, a.set i (some { s with pushed := none })) := by
  unfold Streams.getc
  rw [htable]
  dsimp only
  rw [hpushed]

theorem getLoop_next (htable : a.table i = some s) (hcon : s.console = .none) (hpos : s.pos ≤ s.content.length)
    (hpushed : s.pushed = none)
    : getLoop (fun a => a.getc i) false count a = ((s.next count).1, a.set i (some (s.next count).2)) := by
  have hinput : s.console ≠ .input := by rw [hcon]; decide
  induction count generalizing a s with
  | zero =>
    rw [next_zero hpos, set_table htable]
    rfl
  | succ count ih =>
    unfold getLoop
    by_cases hend : s.pos < s.content.length
    . have hrest := @ih (a.set i (some { s with pos := s.pos + 1 })) { s with pos := s.pos + 1 } table_set hcon hend
        hpushed hinput
      have hsum : s.pos + 1 + count = s.pos + (count + 1) := by omega
      rw [getc_byte htable hinput hpushed hend]
      dsimp only
      rw [if_neg (by omega), if_neg (by simp), hrest, set_set, asByte_toNat]
      unfold OpenStream.next
      dsimp only
      rw [List.drop_eq_getElem_cons hend, List.take_succ_cons, hsum]
    . rw [getc_end htable hinput hpushed (by omega)]
      dsimp only
      rw [if_pos (by decide)]
      unfold OpenStream.next
      rw [List.drop_of_length_le (by omega), List.take_nil, Nat.min_eq_right (by omega), decide_eq_true (by omega),
        Bool.or_true, ← show s.pos = s.content.length by omega]

theorem getLoop_take (htable : a.table i = some s) (hcon : s.console = .none) (hpos : s.pos ≤ s.content.length)
    : getLoop (fun a => a.getc i) false count a = ((s.take count).1, a.set i (some (s.take count).2)) := by
  unfold OpenStream.take
  cases count with
  | zero =>
    dsimp only
    rw [set_table htable]
    rfl
  | succ count =>
    cases hpushed : s.pushed with
    | none => exact getLoop_next htable hcon hpos hpushed
    | some c =>
      have hrest := @getLoop_next (a.set i (some { s with pushed := none })) i { s with pushed := none } count
        table_set hcon hpos rfl
      unfold getLoop
      rw [getc_pushed htable hpushed]
      dsimp only
      split
      . rfl
      . rw [if_neg (by simp), hrest, set_set]

end Take

section Put

variable {st : FdState} {f f' : TanjaFd} {i : Fin tanjaMaxFds} {data : Bytes} {m : Option Mem} {need : Nat}

theorem growCap_some {steps nc : Nat} (h : need ≤ nc * 2 ^ steps) (hneed : need ≤ 2 ^ 31)
    : ∃ cap, growCap (steps + 1) nc need = some cap ∧ need ≤ cap := by
  induction steps generalizing nc with
  | zero =>
    rw [Nat.pow_zero, Nat.mul_one] at h
    exact ⟨nc, if_neg (by omega), h⟩
  | succ steps ih =>
    rw [growCap]
    split
    . apply ih
      rw [Nat.mod_eq_of_lt (by omega), Nat.mul_assoc, Nat.mul_comm 2, ← Nat.pow_succ]
      exact h
    . exact ⟨nc, rfl, by omega⟩

structure Ensured (f : TanjaFd) (need : Nat) (f' : TanjaFd) : Prop where
  same : f' = { f with buf := f'.buf, cap := f'.cap }
  room : need ≤ f'.cap
  grown : f.cap ≤ f'.cap
  text : f'.buf.readBytes 0 f.size = f.buf.readBytes 0 f.size

theorem fdEnsure_spec (m : Option Mem) (hneed : need ≤ 2 ^ 31) (hsize : f.size ≤ f.cap)
    : fdEnsure f need m = some none ∧ m = none
      ∨ ∃ f', fdEnsure f need m = some (some f') ∧ Ensured f need f' := by
  unfold fdEnsure
  split
  . next hroom => exact .inr ⟨f, rfl, rfl, hroom, Nat.le_refl _, rfl⟩
  . next hroom =>
    have hpos : 0 < (if f.cap ≠ 0 then f.cap else 64) := by split <;> omega
    obtain ⟨cap, hcap, hgrow⟩ := @growCap_some need 32 (if f.cap ≠ 0 then f.cap else 64) (by
      calc need ≤ 1 * 2 ^ 32 := by omega
        _ ≤ (if f.cap ≠ 0 then f.cap else 64) * 2 ^ 32 := Nat.mul_le_mul_right _ hpos) hneed
    rw [hcap]
    cases m with
    | none => exact .inl ⟨rfl, rfl⟩
    | some fresh =>
      refine .inr ⟨_, rfl, rfl, hgrow, by dsimp only; omega, ?_⟩
      apply Mem.readBytes_congr
      intro a _ ha
      exact if_pos (by omega)

theorem text_atEnd : (if f.append then { f with pos := f.size } else f).text = f.text.atEnd := by
  have happend : f.text.append = f.append := rfl
  unfold OpenStream.atEnd
  rw [happend]
  split
  . have hlen : f.text.content.length = f.size := Mem.length_readBytes 0 _
    rw [hlen]
    rfl
  . rfl

theorem text_put (h : Ensured f (f.pos + data.length + 1) f') (hpos : f.pos ≤ f.size)
    : TanjaFd.text { f' with
        buf := f'.buf.writeBytes f'.pos data
        pos := f.pos + data.length
        size := if f'.size < f.pos + data.length then f.pos + data.length else f'.size
        dirty := true } = f.text.put data := by
  have hsize : f'.size = f.size := by rw [h.same]
  have hat : f'.pos = f.pos := by rw [h.same]
  have hmax : (if f'.size < f.pos + data.length then f.pos + data.length else f'.size)
      = max f'.size (f.pos + data.length) := by
    split <;> omega
  have hcontent : (f'.buf.writeBytes f'.pos data).readBytes 0 (max f'.size (f.pos + data.length))
      = splice (f.buf.readBytes 0 f.size) f.pos data := by
    rw [hat, hsize, Mem.readBytes_splice hpos, h.text]
  rw [hmax]
  unfold TanjaFd.text OpenStream.put
  dsimp only
  rw [hcontent, h.same]

theorem put_file {a : Streams} {s : OpenStream} (htable : a.table i = some s) (hwritable : s.writable = true)
    (houtput : s.console ≠ .output) (full : Bool)
    : a.put full i data = if full then (-1, a.set i (some { s.atEnd with error := true }))
        else (asInt data.length, a.set i (some (s.atEnd.put data))) := by
  unfold Streams.put
  rw [htable]
  dsimp only
  rw [if_neg (not_not_intro hwritable), if_neg houtput]

theorem put_view (h : st.Ok) (hfits : (st.fdt i).size + data.length < 2 ^ 31)
    : ∃ full, (full = true → m = none)
      ∧ st.streams.put full i data = ((st.tanjaFdWrite i data m).1, (st.tanjaFdWrite i data m).2.streams)
      ∧ (st.tanjaFdWrite i data m).2.Ok := by
  have hb := h.bounds i
  unfold FdState.tanjaFdWrite
  dsimp only
  by_cases hused : (st.fdt i).used = true
  . by_cases hwritable : (st.fdt i).writable = true
    . rw [if_neg (by rw [hused, hwritable]; decide)]
      by_cases houtput : (st.fdt i).isConsole = .output
      . rw [if_pos houtput]
        refine ⟨false, nofun, ?_, h.of_fdt h.fs rfl rfl⟩
        unfold Streams.put
        rw [table_used hused]
        dsimp only
        rw [if_neg (not_not_intro (by exact hwritable)), if_pos (by exact houtput)]
        rfl
      . rw [if_neg houtput]
        have hput := @put_file i data _ _ (table_used hused) hwritable houtput
        generalize hf : (if (st.fdt i).append then { st.fdt i with pos := (st.fdt i).size } else st.fdt i) = f
        have htext : f.text = (st.fdt i).text.atEnd := by rw [← hf, text_atEnd]
        have hsame : f.used = true ∧ f.isConsole = (st.fdt i).isConsole ∧ f.pos ≤ f.size
            ∧ f.size = (st.fdt i).size ∧ f.cap = (st.fdt i).cap := by
          subst hf
          split
          . exact ⟨hused, rfl, Nat.le_refl _, rfl, rfl⟩
          . exact ⟨hused, rfl, hb.1, rfl, rfl⟩
        obtain ⟨hfused, hfconsole, hfpos, hfsize, hfcap⟩ := hsame
        have hneed : (f.pos + data.length + 1) % 2 ^ 32 = f.pos + data.length + 1 := Nat.mod_eq_of_lt (by omega)
        have hend : (f.pos + data.length) % 2 ^ 32 = f.pos + data.length := Nat.mod_eq_of_lt (by omega)
        rw [hneed]
        obtain ⟨hens, hm⟩ | ⟨f', hens, hensured⟩ := @fdEnsure_spec f (f.pos + data.length + 1) m (by omega) (by omega)
        . rw [hens]
          refine ⟨true, fun _ => hm, ?_, ?_⟩
          . rw [hput, if_pos rfl]
            exact congrArg (Prod.mk _) (streams_used (by exact hfused) (by rw [← htext]; rfl))
          . exact h.changed hused hfpos (by dsimp only; omega) ⟨hfused, hfconsole⟩
        . rw [hens]
          have hf'pos : f'.pos = f.pos := by rw [hensured.same]
          have hf'size : f'.size = f.size := by rw [hensured.same]
          have hroom := hensured.room
          have hgrown := hensured.grown
          dsimp only
          rw [hf'pos, hend]
          refine ⟨false, nofun, ?_, ?_⟩
          . rw [hput, if_neg (by decide), ← htext, ← text_put hensured hfpos, hf'pos]
            exact congrArg (Prod.mk _) (streams_used (by rw [hensured.same]; exact hfused) rfl)
          . apply h.changed hused
            . dsimp only
              split <;> omega
            . dsimp only
              split <;> omega
            . rw [hensured.same]
              exact ⟨hfused, hfconsole⟩
    . rw [if_pos (.inr hwritable)]
      refine ⟨false, nofun, ?_, h⟩
      unfold Streams.put
      rw [table_used hused]
      dsimp only
      rw [if_pos (by exact hwritable)]
  . rw [if_pos (.inl hused)]
    refine ⟨false, nofun, ?_, h⟩
    unfold Streams.put
    rw [table_unused hused]

end Put

section Calls

variable {st : FdState} {i : Fin tanjaMaxFds}

def Matches (spec : FdResult × Streams) (impl : FdResult × FdState) : Prop :=
  spec = (impl.1, impl.2.streams) ∧ impl.2.Ok

theorem fail_matches (h : st.Ok) (e : Nat) : Matches (st.streams.fail e) (st.fail e) :=
  ⟨rfl, h.of_fdt h.fs rfl rfl⟩

theorem flush_stored {a : Streams} {s : OpenStream} {path : CStr} (htable : a.table i = some s)
    (hpath : s.path = some path) (h : s.console = .none ∧ s.dirty ∧ s.writable)
    : a.flush i = { a with fs := (fsWriteFile a.fs path s.content).2 }.set i (some { s with dirty := false }) := by
  unfold Streams.flush
  rw [htable]
  dsimp only
  split
  . next hnone =>
    rw [hnone] at hpath
    contradiction
  . next path' hpath' =>
    obtain rfl : path' = path := Option.some.inj (hpath'.symm.trans hpath)
    exact if_pos h

theorem flush_view (h : st.Ok) : st.streams.flush i = (st.fdFlush i).streams ∧ (st.fdFlush i).Ok := by
  have hb := h.bounds i
  unfold Streams.flush FdState.fdFlush
  dsimp only
  by_cases hused : (st.fdt i).used = true
  . have htextpath : (st.fdt i).text.path = (st.fdt i).path := rfl
    rw [table_used hused]
    dsimp only
    rw [htextpath]
    cases (st.fdt i).path with
    | none => exact ⟨rfl, h⟩
    | some path =>
      dsimp only
      by_cases hflush : (st.fdt i).isConsole = .none ∧ (st.fdt i).dirty ∧ (st.fdt i).writable
      . have hok : FdState.Ok { st with
            fs := (fsWriteFile st.fs path ((st.fdt i).buf.readBytes 0 (st.fdt i).size)).2 } :=
          h.of_fdt (h.fs.writeFile _ _) rfl rfl
        rw [if_pos (by exact hflush), if_pos ⟨hused, hflush⟩]
        exact ⟨@streams_used { st with fs := _ } _ i _ hused rfl, hok.changed hused hb.1 hb.2 ⟨hused, rfl⟩⟩
      . rw [if_neg (by exact hflush), if_neg (fun hall => hflush hall.2)]
        exact ⟨rfl, h⟩
  . rw [table_unused hused]
    dsimp only
    split
    . exact ⟨rfl, h⟩
    . rw [if_neg (fun hall => hused hall.1)]
      exact ⟨rfl, h⟩

theorem flush_all_view (h : st.Ok) (l : List (Fin tanjaMaxFds))
    : l.foldl Streams.flush st.streams = (l.foldl FdState.fdFlush st).streams ∧ (l.foldl FdState.fdFlush st).Ok := by
  induction l generalizing st with
  | nil => exact ⟨rfl, h⟩
  | cons i l ih =>
    obtain ⟨hview, hok⟩ := @flush_view st i h
    rw [List.foldl_cons, List.foldl_cons, hview]
    exact ih hok

theorem fdFlush_kind : ((st.fdFlush i).fdt i).used = (st.fdt i).used
    ∧ ((st.fdFlush i).fdt i).isConsole = (st.fdt i).isConsole := by
  unfold FdState.fdFlush
  dsimp only
  split
  . exact ⟨rfl, rfl⟩
  . split
    . rw [setFd_same]
      exact ⟨rfl, rfl⟩
    . exact ⟨rfl, rfl⟩

theorem released_view (h : st.Ok) (hused : (st.fdt i).used = true) (hcon : (st.fdt i).isConsole = .none)
    : (st.streams.flush i).set i none = ((st.fdFlush i).setFd i { (st.fdFlush i).fdt i with used := false }).streams
      ∧ ((st.fdFlush i).setFd i { (st.fdFlush i).fdt i with used := false }).Ok := by
  obtain ⟨hview, hok⟩ := @flush_view st i h
  obtain ⟨hkind, _⟩ := @fdFlush_kind st i
  constructor
  . rw [hview, streams_setFd]
    rfl
  . exact hok.setFd (hok.bounds i).1 (hok.bounds i).2 (fun hlt => absurd hcon (h.used hused hlt))

theorem close_matches (h : st.Ok) (fd : Int) : Matches (st.streams.close fd) (st.close fd) := by
  unfold Streams.close FdState.close
  cases fdEntry fd with
  | none => exact fail_matches h 9
  | some i =>
    dsimp only
    by_cases hused : (st.fdt i).used = true
    . rw [table_used hused]
      dsimp only
      by_cases hcon : (st.fdt i).isConsole = .none
      . obtain ⟨hview, hok⟩ := released_view h hused hcon
        rw [if_neg (not_not_intro (by exact hcon)),
          if_neg (not_or.mpr ⟨not_not_intro hused, not_not_intro hcon⟩), hview]
        exact ⟨rfl, hok⟩
      . rw [if_pos (by exact hcon), if_pos (.inr hcon)]
        exact fail_matches h 9
    . rw [table_unused hused, if_pos (.inl hused)]
      exact fail_matches h 9

theorem fclose_matches (h : st.Ok) : Matches (st.streams.fclose i) (st.fclose (some i)) := by
  unfold Streams.fclose FdState.fclose
  dsimp only
  by_cases hused : (st.fdt i).used = true
  . rw [table_used hused, if_neg (not_not_intro hused)]
    dsimp only
    by_cases hcon : (st.fdt i).isConsole = .none
    . obtain ⟨hview, hok⟩ := released_view h hused hcon
      rw [if_neg (not_not_intro hcon), if_neg (not_not_intro (by exact hcon))]
      unfold FdState.close
      rw [fdEntry_val]
      dsimp only
      rw [if_neg (not_or.mpr ⟨not_not_intro hused, not_not_intro hcon⟩), hview]
      exact ⟨rfl, hok⟩
    . rw [if_pos hcon, if_pos (by exact hcon)]
      exact ⟨rfl, h⟩
  . rw [table_unused hused, if_pos hused]
    exact ⟨rfl, h⟩

theorem moved_matches (h : st.Ok) (hused : (st.fdt i).used = true) (base : Nat) (offset : Int)
    : Matches (Streams.lseek.moved st.streams i ((st.fdt i).text.seek base offset))
        (FdState.lseek.moved st i (st.fdt i) base offset) := by
  have hb := h.bounds i
  have hpos : (if (st.fdt i).size < asUnsigned (base + offset) then (st.fdt i).size else asUnsigned (base + offset))
      = min (asUnsigned (base + offset)) (st.fdt i).size := by
    split <;> omega
  unfold Streams.lseek.moved FdState.lseek.moved OpenStream.seek
  dsimp only
  rw [hpos, text_length]
  exact ⟨congrArg (Prod.mk _) (streams_used (by exact hused) rfl),
    h.changed hused (Nat.min_le_right _ _) hb.2 ⟨hused, rfl⟩⟩

theorem lseek_matches (h : st.Ok) (fd offset whence : Int)
    : Matches (st.streams.lseek fd offset whence) (st.lseek fd offset whence) := by
  unfold Streams.lseek FdState.lseek
  cases fdEntry fd with
  | none => exact fail_matches h 29
  | some i =>
    dsimp only
    by_cases hused : (st.fdt i).used = true
    . rw [table_used hused]
      dsimp only
      by_cases hcon : (st.fdt i).isConsole = .none
      . rw [if_neg (not_not_intro (by exact hcon)), if_neg (not_or.mpr ⟨not_not_intro hused, not_not_intro hcon⟩)]
        split
        . exact moved_matches h hused 0 offset
        . split
          . exact moved_matches h hused _ offset
          . split
            . rw [text_length]
              exact moved_matches h hused _ offset
            . exact fail_matches h 22
      . rw [if_pos (by exact hcon), if_pos (.inr hcon)]
        exact fail_matches h 29
    . rw [table_unused hused, if_pos (.inl hused)]
      exact fail_matches h 29

theorem ungetc_matches (h : st.Ok) (c : Int) : Matches (st.streams.ungetc c i) (st.ungetc c (some i)) := by
  have hb := h.bounds i
  unfold Streams.ungetc FdState.ungetc
  dsimp only
  by_cases hused : (st.fdt i).used = true
  . rw [table_used hused, if_neg (not_not_intro hused)]
    exact ⟨congrArg (Prod.mk _) (streams_used (by exact hused) rfl), h.changed hused hb.1 hb.2 ⟨hused, rfl⟩⟩
  . rw [table_unused hused, if_pos hused]
    exact ⟨rfl, h⟩

theorem take_view (h : st.Ok) (hused : (st.fdt i).used = true) {line : Bool} (count : Nat)
    (hline : (st.fdt i).isConsole = .none → line = false)
    : st.streams.take i (st.fdt i).text line count
        = ((getLoop (fun st => st.tanjaFdGetc i) line count st).1,
          (getLoop (fun st => st.tanjaFdGetc i) line count st).2.streams)
      ∧ (getLoop (fun st => st.tanjaFdGetc i) line count st).2.Ok := by
  obtain ⟨hview, hok⟩ := @getLoop_view st i line count h
  refine ⟨?_, hok⟩
  unfold Streams.take
  by_cases hcon : (st.fdt i).isConsole = .none
  . have hpos : (st.fdt i).text.pos ≤ (st.fdt i).text.content.length := by
      rw [text_length]
      exact (h.bounds i).1
    rw [if_neg (not_not_intro (by exact hcon)), ← hview, hline hcon, getLoop_take (table_used hused) hcon hpos]
  . rw [if_pos (by exact hcon), hview]

theorem read_matches (h : st.Ok) (fd : Int) (count : Nat) : Matches (st.streams.read fd count) (st.read fd count) := by
  unfold Streams.read FdState.read
  cases fdEntry fd with
  | none => exact fail_matches h 9
  | some i =>
    dsimp only
    by_cases hused : (st.fdt i).used = true
    . rw [table_used hused]
      dsimp only
      by_cases hread : (st.fdt i).readable = true
      . have hline : (st.fdt i).isConsole = .none → decide ((st.fdt i).text.console ≠ .none) = false :=
          fun hcon => decide_eq_false (not_not_intro hcon)
        obtain ⟨hview, hok⟩ := take_view h hused count hline
        rw [if_neg (not_not_intro (by exact hread)),
          if_neg (not_or.mpr ⟨not_not_intro hused, not_not_intro hread⟩), hview]
        exact ⟨rfl, hok⟩
      . rw [if_pos (by exact hread), if_pos (.inr hread)]
        exact fail_matches h 9
    . rw [table_unused hused]
      dsimp only
      rw [if_pos (.inl hused)]
      exact fail_matches h 9

theorem fread_matches (h : st.Ok) (size nmemb : Nat)
    : Matches (st.streams.fread size nmemb i) (st.fread size nmemb (some i)) := by
  unfold Streams.fread FdState.fread
  dsimp only
  by_cases hused : (st.fdt i).used = true
  . rw [table_used hused]
    dsimp only
    by_cases hread : (st.fdt i).readable = true
    . obtain ⟨hview, hok⟩ := take_view h hused (size * nmemb % 2 ^ 32) (fun _ => rfl)
      rw [if_neg (not_not_intro (by exact hread)),
          if_neg (not_or.mpr ⟨not_not_intro hused, not_not_intro hread⟩), hview]
      exact ⟨rfl, hok⟩
    . rw [if_pos (by exact hread), if_pos (.inr hread)]
      exact ⟨rfl, h⟩
  . rw [table_unused hused, if_pos (.inl hused)]
    exact ⟨rfl, h⟩

theorem console_view (h : st.Ok)
    : st.streams.withConsole = (if (st.fdt 0).used then st else st.fdConsoleInit).streams
      ∧ (if (st.fdt 0).used then st else st.fdConsoleInit).Ok := by
  unfold Streams.withConsole
  by_cases hused : (st.fdt 0).used = true
  . rw [if_pos hused, table_used hused, if_pos Option.isSome_some]
    exact ⟨rfl, h⟩
  . rw [if_neg hused, table_unused hused, if_neg (by decide)]
    obtain hcon | hzero := h.console
    . exact absurd (hcon 0 (by decide)).1 hused
    . have h0 := hzero 0 (by decide)
      have h1 := hzero 1 (by decide)
      have h2 := hzero 2 (by decide)
      unfold FdState.fdConsoleInit
      dsimp only
      rw [setFd_other (by decide), h1, setFd_other (by decide), setFd_other (by decide), h2, h0]
      constructor
      . rw [streams_setFd, streams_setFd, streams_setFd]
        rfl
      . refine ⟨h.fs, h.ended, ?_, .inl ?_⟩
        . apply setFd_all (P := fun _ f => f.pos ≤ f.size ∧ f.size ≤ f.cap) ⟨Nat.le_refl _, Nat.le_refl _⟩
          intro j _
          apply setFd_all (P := fun _ f => f.pos ≤ f.size ∧ f.size ≤ f.cap) ⟨Nat.le_refl _, Nat.le_refl _⟩
          intro j _
          apply setFd_all (P := fun _ f => f.pos ≤ f.size ∧ f.size ≤ f.cap) ⟨Nat.le_refl _, Nat.le_refl _⟩
          exact fun j _ => h.bounds j
        . apply setFd_all (P := fun j f => j.val < 3 → f.used = true ∧ f.isConsole ≠ .none) (fun _ => ⟨rfl, by decide⟩)
          intro j hj2
          apply setFd_all (P := fun j f => j ≠ 2 → j.val < 3 → f.used = true ∧ f.isConsole ≠ .none)
            (fun _ _ => ⟨rfl, by decide⟩) _ j hj2
          intro j hj1
          apply setFd_all (P := fun j f => j ≠ 1 → j ≠ 2 → j.val < 3 → f.used = true ∧ f.isConsole ≠ .none)
            (fun _ _ _ => ⟨rfl, by decide⟩) _ j hj1
          intro j hj0 hj1 hj2 hlt
          have hne : j.val ≠ 0 ∧ j.val ≠ 1 ∧ j.val ≠ 2 :=
            ⟨Fin.val_ne_of_ne hj0, Fin.val_ne_of_ne hj1, Fin.val_ne_of_ne hj2⟩
          omega

end Calls

section Open

variable {st : FdState} {f : TanjaFd} {i : Fin tanjaMaxFds} {path : CStr} {m : Option Mem}

theorem ContentInv.withErrno {s : FsState} (h : ContentInv s) (e : Nat) : ContentInv { s with fsErrno := e } :=
  h.prims (Prims.single (.errno e))

theorem fsGetFileSize_state (s : FsState) (path : Bytes)
    : ∃ e, (fsGetFileSize s path).2 = { s with fsErrno := e } := by
  unfold fsGetFileSize
  dsimp only
  split
  . exact ⟨0, rfl⟩
  . split
    . exact ⟨0, rfl⟩
    . split
      . exact ⟨0, rfl⟩
      . exact ⟨13, rfl⟩

theorem fsReadFile_state (s : FsState) (path : Bytes) (c : UInt32)
    : ∃ e, (fsReadFile s path c).state = { s with fsErrno := e } := by
  unfold fsReadFile fsReadFilePrefix
  dsimp only
  split
  . exact ⟨0, rfl⟩
  . split
    . exact ⟨0, rfl⟩
    . split
      . exact ⟨0, rfl⟩
      . exact ⟨13, rfl⟩

theorem setFd_setFd {f' : TanjaFd} : (st.setFd i f).setFd i f' = st.setFd i f' := by
  unfold FdState.setFd
  dsimp only
  rw [Function.update_idem]

theorem setFd_fs (fs : FsState) : { st.setFd i f with fs := fs } = { st with fs := fs }.setFd i f := rfl

theorem fdLoad_cases (h : ContentInv st.fs)
    : ∃ fs, ContentInv fs
      ∧ ((∃ buf size cap, size ≤ cap ∧ loadedText st.fs path m = (some (buf.readBytes 0 size), fs)
          ∧ (st.setFd i f).fdLoad i path m
            = (true, { st with fs := fs }.setFd i { f with buf := buf, size := size, cap := cap }))
        ∨ loadedText st.fs path m = (none, fs)
          ∧ (st.setFd i f).fdLoad i path m = (false, { st with fs := fs }.setFd i f)) := by
  obtain ⟨e, he⟩ := fsGetFileSize_state st.fs path
  have hsized : ContentInv (fsGetFileSize st.fs path).2 := by
    rw [he]
    exact h.withErrno e
  have hfs : (st.setFd i f).fs = st.fs := rfl
  unfold loadedText FdState.fdLoad
  dsimp only
  rw [setFd_same, hfs]
  cases m with
  | none => exact ⟨_, hsized, .inr ⟨rfl, rfl⟩⟩
  | some fresh =>
    rw [if_neg (by simp)]
    dsimp only
    by_cases hexists : fsFileExists (fsGetFileSize st.fs path).2 path = true
    . obtain ⟨hne, k, hidx⟩ := fsFileExists_iff.mp hexists
      have hidx' : fileIndex st.fs (absPath st.fs.cwd.str path) = some k := by
        rw [he] at hidx
        exact hidx
      rw [if_pos hexists, if_pos hexists]
      by_cases hread : FileReadable st.fs k
      . have hinv := h.withErrno 0
        have hwhole := @fsReadFile_whole { st.fs with fsErrno := 0 } k path hinv hidx' hread
        have hlen : (st.fs.fileBytes k).length = st.fs.fsize k := DataInv.length_fileBytes (h.sizes k).2
        have hbytes : { st.fs with fsErrno := 0 }.fileBytes k = st.fs.fileBytes k := rfl
        have hfiles := @files_found { st.fs with fsErrno := 0 } _ k hidx'
        rw [fsGetFileSize_readable hne hidx' hread]
        dsimp only at hwhole ⊢
        rw [hwhole]
        dsimp only
        rw [if_pos rfl, if_neg (by decide), setFd_fs, setFd_setFd]
        refine ⟨_, h.withErrno 0, .inl ⟨fresh.writeBytes 0 (st.fs.fileBytes k ++ [0]), st.fs.fsize k, _, ?_, ?_, rfl⟩⟩
        . exact Nat.le_succ _
        . have hbuf := @Mem.readBytes_writeBytes_sub fresh 0 0 (st.fs.fsize k) (st.fs.fileBytes k ++ [0])
            (by simp [hlen])
          rw [hbuf, List.drop_zero, List.take_left' hlen, hfiles]
          rfl
      . have hidx'' : fileIndex { st.fs with fsErrno := 13 } (absPath st.fs.cwd.str path) = some k := hidx'
        have hread' : ¬FileReadable { st.fs with fsErrno := 13 } k := hread
        obtain ⟨e', he'⟩ := fsReadFile_state { st.fs with fsErrno := 13 } path (.ofNat (2 ^ 32 - 2 + 1))
        rw [fsGetFileSize_denied hne hidx' hread]
        dsimp only
        rw [if_neg (fsReadFile_denied _ hidx'' hread'), if_pos (fsReadFile_denied _ hidx'' hread')]
        refine ⟨_, ?_, .inr ⟨rfl, rfl⟩⟩
        rw [he']
        exact h.withErrno e'
    . rw [if_neg hexists, if_neg hexists, setFd_fs, setFd_setFd]
      exact ⟨_, hsized, .inl ⟨fresh, 0, 64, by omega, rfl, rfl⟩⟩

theorem fdAlloc_eq (st : FdState)
    : st.fdAlloc = match (if (st.fdt 0).used then st else st.fdConsoleInit).streams.free with
      | none => (none, if (st.fdt 0).used then st else st.fdConsoleInit)
      | some i =>
        (some i, (if (st.fdt 0).used then st else st.fdConsoleInit).setFd i { TanjaFd.zero with used := true })
    := by
  unfold FdState.fdAlloc Streams.free
  dsimp only
  generalize (if (st.fdt 0).used then st else st.fdConsoleInit) = st'
  have hfree : (fun i => decide (3 ≤ i.val) && !(st'.fdt i).used)
      = fun i => decide (3 ≤ i.val) && (st'.streams.table i).isNone := by
    funext i
    by_cases hused : (st'.fdt i).used = true
    . rw [table_used hused, hused]
      rfl
    . rw [table_unused hused, show (st'.fdt i).used = false by simpa using hused]
      rfl
  rewrite [hfree]
  generalize List.find? _ (List.finRange tanjaMaxFds) = found
  cases found <;> rfl

theorem free_entry {a : Streams} (h : a.free = some i) : 3 ≤ i.val ∧ a.table i = none := by
  have hi := List.find?_some h
  rw [Bool.and_eq_true, decide_eq_true_iff, Option.isNone_iff_eq_none] at hi
  exact hi

theorem set_free {a : Streams} (h : a.table i = none) : a.set i none = a := by
  unfold Streams.set
  rw [← h, Function.update_eq_self]

theorem dropped_matches (h : st.Ok) (hfree : 3 ≤ i.val ∧ st.streams.table i = none) (hpos : f.pos ≤ f.size)
    (hsize : f.size ≤ f.cap) (e : Nat)
    : Matches (st.streams.fail e) ((st.setFd i { f with used := false }).fail e) := by
  have hview : (st.setFd i { f with used := false }).streams = st.streams := by
    rw [streams_setFd, TanjaFd.stream_unused Bool.false_ne_true, set_free hfree.2]
  have hok : (st.setFd i { f with used := false }).Ok := h.setFd hpos hsize (fun hlt => by omega)
  rw [← hview]
  exact fail_matches hok e

theorem ready_matches {flags : UInt32} {named : Bool} {text : Bytes} {dirty : Bool} (h : st.Ok) (hi : 3 ≤ i.val)
    (hused : f.used = true) (hpos : f.pos = 0) (hsize : f.size ≤ f.cap)
    (htext : f.text = { OpenStream.empty .none with
      content := text
      readable := flags &&& oWrOnly = 0
      writable := flags &&& (oWrOnly ||| oReadWrite) ≠ 0
      append := flags &&& oAppending ≠ 0
      dirty := dirty })
    : Matches (Streams.openFd.ready path flags named st.streams i text dirty)
        (FdState.openFd.ready path named (st.setFd i f) i) := by
  have happend : f.append = decide (flags &&& oAppending ≠ 0) := congrArg OpenStream.append htext
  have hcontent : f.buf.readBytes 0 f.size = text := congrArg OpenStream.content htext
  have hlen : text.length = f.size := by rw [← hcontent, Mem.length_readBytes]
  unfold FdState.openFd.ready Streams.openFd.ready
  dsimp only
  rw [setFd_same, setFd_setFd]
  by_cases happ : f.append = true
  . have hflag : flags &&& oAppending ≠ 0 := of_decide_eq_true (happend.symm.trans happ)
    rw [if_pos happ, if_pos hflag, hlen]
    refine ⟨congrArg (Prod.mk _) (streams_used (by exact hused) ?_),
      h.setFd (Nat.le_refl _) hsize (fun hlt => by omega)⟩
    exact congrArg (fun s : OpenStream => { s with path := if named then some path else none, pos := f.size }) htext
  . have hflag : ¬flags &&& oAppending ≠ 0 := fun hflag => happ (happend.trans (decide_eq_true hflag))
    rw [if_neg happ, if_neg hflag]
    refine ⟨congrArg (Prod.mk _) (streams_used (by exact hused) ?_),
      h.setFd (by dsimp only; omega) hsize (fun hlt => by omega)⟩
    exact congrArg (fun s : OpenStream => { s with path := if named then some path else none }) htext

theorem openFd_matches (h : st.Ok) (flags : UInt32) (named : Bool)
    : Matches (st.streams.openFd path flags m named) (st.openFd path flags m named) := by
  unfold Streams.openFd FdState.openFd
  by_cases hpath : path.val = []
  . rw [if_pos hpath, if_pos hpath]
    exact fail_matches h 2
  . rw [if_neg hpath, if_neg hpath, fdAlloc_eq]
    obtain ⟨hview, hok⟩ := console_view h
    dsimp only
    rw [hview]
    generalize (if (st.fdt 0).used then st else st.fdConsoleInit) = st at hok
    cases hfree : st.streams.free with
    | none => exact fail_matches hok 4
    | some i =>
      have hi := free_entry hfree
      dsimp only
      rw [setFd_same, setFd_setFd]
      generalize hf : TanjaFd.mk true _ _ _ _ _ _ _ _ _ _ _ _ _ _ = f
      have hzero : f.pos = 0 ∧ f.size = 0 ∧ f.cap = 0 ∧ f.used = true := by
        rw [← hf]
        exact ⟨rfl, rfl, rfl, rfl⟩
      have hexists : fsFileExists (st.setFd i f).fs path = fsFileExists st.streams.fs path := rfl
      rw [hexists]
      by_cases hmissing : flags &&& oCreate = 0 ∧ ¬fsFileExists st.streams.fs path = true
      . rw [if_pos hmissing, if_pos hmissing, setFd_same, setFd_setFd]
        exact dropped_matches hok hi (by omega) (by omega) 2
      . rw [if_neg hmissing, if_neg hmissing]
        obtain ⟨fs, hfs, hload⟩ := @fdLoad_cases st f i path m hok.fs
        have hok' : FdState.Ok { st with fs := fs } := hok.of_fdt hfs rfl rfl
        have hstreams : st.streams.fs = st.fs := rfl
        rw [hstreams]
        obtain ⟨buf, size, cap, hsize, htext, hloaded⟩ | ⟨htext, hloaded⟩ := hload
        . rw [htext, hloaded]
          dsimp only
          rw [setFd_same, setFd_setFd]
          by_cases htrunc : flags &&& oTruncate ≠ 0
          . rw [if_pos htrunc, if_pos htrunc, decide_eq_true htrunc]
            subst hf
            exact ready_matches hok' hi.1 rfl rfl (Nat.zero_le _) rfl
          . rw [if_neg htrunc, if_neg htrunc, decide_eq_false htrunc]
            subst hf
            exact ready_matches hok' hi.1 rfl rfl hsize rfl
        . rw [htext, hloaded]
          dsimp only
          by_cases hcreate : flags &&& oCreate = 0
          . rw [if_pos hcreate, if_pos hcreate, setFd_same, setFd_setFd]
            exact dropped_matches hok' hi (by omega) (by omega) 2
          . have hmade : FdState.Ok { st with fs := (fsCreateFile fs path).2 } :=
              hok.of_fdt (hfs.createFile path) rfl rfl
            have hsame : ({ st with fs := fs }.setFd i f).fs = fs := rfl
            rw [if_neg hcreate, if_neg hcreate, hsame, setFd_fs]
            dsimp only
            by_cases hrc : (fsCreateFile fs path).1 ≠ 0
            . rw [if_pos hrc, if_pos hrc, setFd_same, setFd_setFd]
              exact dropped_matches hmade hi (by omega) (by omega) 13
            . rw [if_neg hrc, if_neg hrc]
              subst hf
              exact ready_matches hmade hi.1 rfl rfl (Nat.le_refl _) rfl

end Open

section Run

variable {st : FdState} {i : Fin tanjaMaxFds} {data : Bytes} {m : Option Mem}

theorem write_matches (h : st.Ok) (fd : Int) (hfits : ∀ i ∈ fdEntry fd, (st.fdt i).size + data.length < 2 ^ 31)
    : ∃ full, (full = true → m = none) ∧ Matches (st.streams.write full fd data) (st.write fd data m) := by
  unfold Streams.write FdState.write
  cases hentry : fdEntry fd with
  | none => exact ⟨false, nofun, fail_matches h 9⟩
  | some i =>
    obtain ⟨full, hfull, hview, hok⟩ := @put_view st i data m h (hfits i hentry)
    refine ⟨full, hfull, ?_⟩
    dsimp only
    by_cases hused : (st.fdt i).used = true
    . rw [table_used hused, if_neg (by simp), if_neg (not_not_intro hused), hview]
      dsimp only
      split
      . exact fail_matches hok 9
      . exact ⟨rfl, hok⟩
    . rw [table_unused hused, if_pos Option.isNone_none, if_pos hused]
      exact fail_matches h 9

theorem fwrite_matches (h : st.Ok) (size : Nat) (hfits : (st.fdt i).size + data.length < 2 ^ 31)
    : ∃ full, (full = true → m = none)
      ∧ Matches (st.streams.fwrite full data size i) (st.fwrite data size m (some i)) := by
  obtain ⟨full, hfull, hview, hok⟩ := @put_view st i data m h hfits
  refine ⟨full, hfull, ?_⟩
  unfold Streams.fwrite FdState.fwrite
  dsimp only
  rw [hview]
  by_cases hclosed : ¬(st.fdt i).used = true ∨ ¬(st.fdt i).writable = true
  . have hput : st.tanjaFdWrite i data m = (-1, st) := by
      unfold FdState.tanjaFdWrite
      exact if_pos hclosed
    rw [if_pos hclosed, hput]
    exact ⟨rfl, h⟩
  . rw [if_neg hclosed]
    dsimp only
    split
    . exact ⟨rfl, hok⟩
    . exact ⟨rfl, hok⟩

theorem call_matches (c : FdCall) (h : st.Ok) (hfits : c.Fits st)
    : ∃ full, (full = true → ∃ w ∈ c.written, w.2.2 = none)
      ∧ Matches (c.outcome full st.streams) (c.exec st) := by
  cases c with
  | openFd path flags m named => exact ⟨false, nofun, openFd_matches h flags named⟩
  | close fd => exact ⟨false, nofun, close_matches h fd⟩
  | read fd count => exact ⟨false, nofun, read_matches h fd count⟩
  | write fd data m =>
    obtain ⟨full, hfull, hmatches⟩ := @write_matches st data m h fd (hfits.1 _ rfl)
    exact ⟨full, fun hf => ⟨_, rfl, hfull hf⟩, hmatches⟩
  | lseek fd offset whence => exact ⟨false, nofun, lseek_matches h fd offset whence⟩
  | fopen path mode m named =>
    refine ⟨false, nofun, ?_⟩
    unfold FdCall.outcome FdCall.exec FdState.fopen
    dsimp only
    split
    . exact fail_matches h 22
    . exact openFd_matches h _ named
  | fclose f =>
    cases f with
    | none => exact ⟨false, nofun, rfl, h⟩
    | some i => exact ⟨false, nofun, fclose_matches h⟩
  | fread size nmemb f =>
    cases f with
    | none => exact ⟨false, nofun, rfl, h⟩
    | some i => exact ⟨false, nofun, fread_matches h size nmemb⟩
  | fwrite data size m f =>
    cases f with
    | none => exact ⟨false, nofun, rfl, h⟩
    | some i =>
      obtain ⟨full, hfull, hmatches⟩ := @fwrite_matches st i data m h size (hfits.1 _ rfl i rfl)
      exact ⟨full, fun hf => ⟨_, rfl, hfull hf⟩, hmatches⟩
  | fgetc f =>
    cases f with
    | none => exact ⟨false, nofun, rfl, h⟩
    | some i =>
      obtain ⟨hview, hok⟩ := @getc_view st i h
      refine ⟨false, nofun, ?_, hok⟩
      unfold FdCall.outcome FdCall.exec FdState.fgetc
      dsimp only
      rw [hview]
  | fputc c m f =>
    cases f with
    | none => exact ⟨false, nofun, rfl, h⟩
    | some i =>
      obtain ⟨full, hfull, hview, hok⟩ := @put_view st i [asByte c] m h (hfits.1 _ rfl i rfl)
      refine ⟨full, fun hf => ⟨_, rfl, hfull hf⟩, ?_, hok⟩
      unfold FdCall.outcome FdCall.exec FdState.fputc
      dsimp only
      rw [hview]
  | fputs s m f =>
    cases f with
    | none => exact ⟨false, nofun, rfl, h⟩
    | some i =>
      obtain ⟨full, hfull, hview, hok⟩ := @put_view st i s m h (hfits.1 _ rfl i rfl)
      refine ⟨full, fun hf => ⟨_, rfl, hfull hf⟩, ?_, hok⟩
      unfold FdCall.outcome FdCall.exec FdState.fputs
      dsimp only
      rw [hview]
  | ungetc c f =>
    cases f with
    | none => exact ⟨false, nofun, rfl, h⟩
    | some i => exact ⟨false, nofun, ungetc_matches h c⟩
  | fflush f =>
    cases f with
    | none =>
      obtain ⟨hview, hok⟩ := flush_all_view h (List.finRange tanjaMaxFds)
      exact ⟨false, nofun, congrArg (Prod.mk _) hview, hok⟩
    | some i =>
      obtain ⟨hview, hok⟩ := @flush_view st i h
      exact ⟨false, nofun, congrArg (Prod.mk _) hview, hok⟩
  | other change => exact ⟨false, nofun, rfl, h.of_fdt (hfits.2 change rfl) rfl rfl⟩

theorem fd_simulates : Simulates FdCall.exec FdCall.Allowed FdCall.Fits FdState.Ok FdState.streams where
  keeps := by
    intro c st h hfits
    obtain ⟨full, _, _, hok⟩ := call_matches c h hfits
    exact hok
  allows := by
    intro c st h hfits
    obtain ⟨full, hfull, hview, _⟩ := call_matches c h hfits
    exact ⟨full, hfull, hview⟩

theorem start_ok {fs : FsState} (keys : Nat → Int) (hfs : ContentInv fs) : (FdState.start fs keys).Ok :=
  ⟨hfs, rfl, fun _ => ⟨Nat.le_refl _, Nat.le_refl _⟩, .inr fun _ _ => rfl⟩

/--
From boot on, every call on the descriptors and streams gives and does what it would on streams that hold their
texts, and nothing outside of the buffers is accessed.
-/
theorem descriptors_behave (fs : FsState) (keys : Nat → Int) (calls : List FdCall) (hfs : ContentInv fs)
    (hfits : AllFine FdCall.exec FdCall.Fits calls (FdState.start fs keys))
    : (trace FdCall.exec calls (FdState.start fs keys)).2.Ok
      ∧ Behaves FdCall.Allowed calls (FdState.start fs keys).streams
        (trace FdCall.exec calls (FdState.start fs keys)).1
        (trace FdCall.exec calls (FdState.start fs keys)).2.streams :=
  fd_simulates.run (start_ok keys hfs) hfits

theorem FdCall.fits_unwritten {c : FdCall} (h : c.written = none) (hother : ∀ change, c ≠ .other change)
    : c.Fits st := by
  refine ⟨?_, fun change hc => absurd hc (hother change)⟩
  rw [h]
  exact nofun

def noteStart : FdState := .start { noted with fsCurUid := 0 } (fun _ => 0)

def noteDraft : List FdCall :=
  [.fputs [7, 8] (some fun _ => 0) (some 3), .lseek 3 0 0, .fputc 9 (some fun _ => 0) (some 3)]

def draftOpen : FdCall := .fopen copyPath [119] (some fun _ => 0) true

theorem noteDraft_fine : AllFine FdCall.exec FdCall.Fits noteDraft (draftOpen.exec noteStart).2 := by
  have hsizes : (((draftOpen.exec noteStart).2).fdt 3).size = 0
      ∧ ((trace FdCall.exec (noteDraft.take 2) (draftOpen.exec noteStart).2).2.fdt 3).size = 2 := by
    decide +kernel
  refine ⟨⟨?_, nofun⟩, FdCall.fits_unwritten rfl nofun, ⟨?_, nofun⟩, trivial⟩
  . rintro w ⟨⟩ i ⟨⟩
    rw [hsizes.1]
    decide
  . rintro w ⟨⟩ i ⟨⟩
    change ((trace FdCall.exec (noteDraft.take 2) (draftOpen.exec noteStart).2).2.fdt 3).size + 1 < 2 ^ 31
    rw [hsizes.2]
    decide

theorem descriptors_behave_note
    : Behaves FdCall.Allowed (draftOpen :: noteDraft) noteStart.streams [⟨3, []⟩, ⟨0, []⟩, ⟨0, []⟩, ⟨9, []⟩]
        (trace FdCall.exec (draftOpen :: noteDraft) noteStart).2.streams := by
  have hfs : ContentInv { noted with fsCurUid := 0 } :=
    ContentInv.run (show (FsState.zeroed 64).fpoolBytes = fsSetPool 64 by decide) (noted_run (fun _ _ h => h)) 0
  have hresults : (trace FdCall.exec (draftOpen :: noteDraft) noteStart).1
      = [⟨3, []⟩, ⟨0, []⟩, ⟨0, []⟩, ⟨9, []⟩] := by
    decide +kernel
  rw [← hresults]
  exact (descriptors_behave _ _ (draftOpen :: noteDraft) hfs
    ⟨FdCall.fits_unwritten rfl nofun, noteDraft_fine⟩).2

end Run

end TanjaOS
