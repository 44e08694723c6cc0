import TanjaOS.Fs.Listing
import TanjaOS.Linux.Opened

/-!
The iteration over a directory. The listing of a directory is a text that all descriptors share, a descriptor has
a position in it.
-/

open Lib

namespace TanjaOS

section Impl

def ENOTDIR_L : Nat := 20

def maxFilename : Nat := 256

def dtDir : UInt8 := 4

def dtReg : UInt8 := 8

/--
The state and the `dir_pos` of each descriptor.
-/
structure LxDirs where
  lx : LxState
  dirPos : Fin linuxMaxFd → Nat

/--
`linux_dirent64`
-/
structure Dirent where
  ino : Nat
  off : Nat
  reclen : Nat
  type : UInt8
  name : Bytes
  deriving DecidableEq

def Dirent.bytes (e : Dirent) : Bytes :=
  let text := le32 e.ino ++ le32 0 ++ le32 e.off ++ le32 0 ++ (le32 e.reclen).take 2 ++ [e.type] ++ e.name
  text ++ List.replicate (e.reclen - text.length) 0

/--
The length of the record for a name of `n` bytes.
-/
def direntLen (n : Nat) : Nat :=
  (19 + n + 1 + 7) / 8 * 8

/--
The name at `pos` and the position behind it. A name has at most `n` bytes.
-/
def dirName (data : Mem) (len : Nat) (n pos : Nat) : Bytes × Nat :=
  match n with
  | 0 => ([], pos)
  | n + 1 =>
    if pos < len ∧ data pos ≠ newline then
      let (name, next) := dirName data len n (pos + 1)
      (data pos :: name, next)
    else
      ([], pos)

/--
The records that are stored and the new position, `steps` is as many lines as there can be. A listing has at most
16 KiB, so `need` does not wrap around.
-/
def dirents (data : Mem) (len : Nat) (bufsize : UInt32) (steps pos filled : Nat) : List Dirent × Nat :=
  match steps with
  | 0 => ([], pos)
  | steps + 1 =>
    if pos < len then
      let (name, pos) := dirName data len maxFilename pos
      let pos := if pos < len then pos + 1 else pos
      if name = [] then
        dirents data len bufsize steps pos filled
      else
        let isDir := name.getLast? = some slash
        let name := if isDir then name.dropLast else name
        let need := filled + direntLen name.length
        -- the comparison is one of `int`, and the position is already behind the name
        if Int.bmod bufsize.toNat (2 ^ 32) < need then
          ([], pos)
        else
          let (ds, pos) := dirents data len bufsize steps pos need
          ({ ino := need, off := need, reclen := direntLen name.length, type := if isDir then dtDir else dtReg,
             name := name.takeWhile (· ≠ 0) } :: ds, pos)
    else
      ([], pos)

namespace LxDirs

/--
`buf` is only compared with 0, the records come with the result.
-/
def sysGetdents64 (p : LxDirs) (fd : Nat) (buf bufsize : UInt32) : (Nat × List Dirent) × LxDirs :=
  match fdGet p.lx fd with
  | none => ((lxErr EBADF_L, []), p)
  | some i =>
    let f := p.lx.lfd i
    if ¬f.isDir then
      ((lxErr ENOTDIR_L, []), p)
    else if buf = 0 ∨ bufsize < 32 then
      ((lxErr EINVAL_L, []), p)
    else
      let (ds, pos) := dirents (p.lx.dataMem f.data) f.len bufsize (f.len - p.dirPos i) (p.dirPos i) 0
      (((ds.map Dirent.reclen).sum, ds), { p with dirPos := Function.update p.dirPos i pos })

/--
`sys_open`, which clears the entry that it takes.
-/
def sysOpen (p : LxDirs) (path : Bytes) (flags : UInt32) : Nat × LxDirs :=
  let r := TanjaOS.sysOpen p.lx path flags
  let taken := if path = [] ∨ lxnorm p.lx.fs path = [] then none else fdFree p.lx
  (r.1, { lx := r.2, dirPos := fun i => if taken = some i then 0 else p.dirPos i })

def sysClose (p : LxDirs) (fd : Nat) : Nat × LxDirs :=
  let r := TanjaOS.sysClose p.lx fd
  (r.1, { p with lx := r.2 })

end LxDirs

inductive DirCall where
  | getdents (fd : Nat) (buf bufsize : UInt32)
  | open (path : CStr) (flags : UInt32)
  | close (fd : Nat)

end Impl

section Spec

/--
A program that reads a directory, with the records that it has been given up to the first 0.
-/
structure DirRead where
  dirs : LxDirs
  got : List Dirent
  done : Bool

namespace DirRead

variable (i : Fin linuxMaxFd)

def step (r : DirRead) : DirCall → DirRead
  | .getdents fd buf bufsize =>
    let ((ret, ds), p) := r.dirs.sysGetdents64 fd buf bufsize
    if fd = i.val ∧ ¬r.done then
      { dirs := p, got := r.got ++ ds, done := ret = 0 }
    else
      { r with dirs := p }
  | .open path flags => { r with dirs := (r.dirs.sysOpen path flags).2 }
  | .close fd => { r with dirs := (r.dirs.sysClose fd).2 }

def start (p : LxDirs) : DirRead where
  dirs := p
  got := []
  done := false

end DirRead

/--
What `d` has in it, as names with their types.
-/
def IsDirent (s : FsState) (d name : Bytes) (type : UInt8) : Prop :=
  (type = dtDir ∧ ∃ x, s.UsedDir x ∧ ChildOf d x name) ∨ (type = dtReg ∧ ∃ x, s.UsedFile x ∧ ChildOf d x name)

/--
The records show what `d` has in it, each entry once.
-/
structure ListsAll (s : FsState) (d : Bytes) (ds : List Dirent) : Prop where
  once : (ds.map (fun e => (e.name, e.type))).Nodup
  all : ∀ name type, (name, type) ∈ ds.map (fun e => (e.name, e.type)) ↔ IsDirent s d name type

/--
The iteration has not missed anything, and the records of a next call fit into its buffer.
-/
structure DirRead.Exhaustive (s : FsState) (d : Bytes) (r : DirRead) : Prop where
  all : r.done → ListsAll s d r.got
  bounded : ∀ fd buf bufsize, ((r.dirs.sysGetdents64 fd buf bufsize).1.2.flatMap Dirent.bytes).length ≤ bufsize.toNat

/--
The records for all entries of `d`.
-/
def direntsSize (s : FsState) (d : Bytes) : Nat :=
  ((childDirs s d ++ childFiles s d).map (fun c => direntLen c.length)).sum

namespace DirRead

variable (s : FsState) (d : Bytes) (i : Fin linuxMaxFd)

def unread (r : DirRead) : Nat :=
  if r.got = [] then direntsSize s d else 0

structure Lists (st : LxState) (path : Bytes) (flags : UInt32) : Prop where
  text : path ≠ [] ∧ lxnorm st.fs path ≠ []
  entry : (fdFree st).isSome
  slot : flags &&& (oWronly ||| oRdwr) ≠ 0 → ∃ t, st.slotUsed t = false
  dir : fsDirectoryExists st.fs (lxnorm st.fs path)

/--
A buffer takes all that is still to be read or is refused, and the listing that is still to be read is not written
over with another one.
-/
def Careful (r : DirRead) : DirCall → Prop
  | .getdents fd buf bufsize =>
    fd = i.val → buf = 0 ∨ bufsize < 32 ∨ r.unread s d = 0 ∨ r.unread s d ≤ bufsize.toNat ∧ bufsize.toNat < 2 ^ 31
  | .open path flags =>
    r.unread s d = 0 ∨ ¬Lists r.dirs.lx path flags
      ∨ fsListDirectory.lines s d <+: (fsListDirectory r.dirs.lx.fs (lxnorm r.dirs.lx.fs path)).2.1
  | .close fd => fd ≠ i.val

def Asked (r : DirRead) : DirCall → Prop
  | .getdents fd buf bufsize =>
    fd = i.val → buf ≠ 0 ∧ 32 ≤ bufsize ∧ ∀ c ∈ childDirs s d ++ childFiles s d, direntLen c.length ≤ bufsize.toNat
  | .open path _ => fsDirectoryExists r.dirs.lx.fs (lxnorm r.dirs.lx.fs path)
  | .close fd => fd ≠ i.val

abbrev Reads (ok : DirRead → DirCall → Prop) : DirRead → DirRead → Prop :=
  Run (fun c r r' => r.step i c = r') ok

end DirRead

end Spec

section Records

variable {data : Mem} {len pos filled : Nat} {bufsize : UInt32}

theorem bmod_le (n : Nat) : Int.bmod n (2 ^ 32) ≤ n := by
  unfold Int.bmod
  dsimp only
  split <;> omega

theorem direntLen_le {n : Nat} : 20 + n ≤ direntLen n := by
  unfold direntLen
  omega

theorem Dirent.length_bytes {e : Dirent} (h : 19 + e.name.length ≤ e.reclen) : e.bytes.length = e.reclen := by
  unfold Dirent.bytes
  simp only [List.length_append, List.length_take, length_le32, List.length_singleton, List.length_replicate]
  omega

theorem dirents_fit {steps : Nat} (hfilled : filled ≤ bufsize.toNat)
    : (∀ e ∈ (dirents data len bufsize steps pos filled).1, 19 + e.name.length ≤ e.reclen)
        ∧ filled + ((dirents data len bufsize steps pos filled).1.map Dirent.reclen).sum ≤ bufsize.toNat := by
  have hsize := bufsize.toNat_lt
  induction steps generalizing pos filled with
  | zero => exact ⟨fun e he => absurd he List.not_mem_nil, hfilled⟩
  | succ steps ih =>
    unfold dirents
    split
    . dsimp only
      split
      . exact ih hfilled
      . generalize (if (dirName data len maxFilename pos).1.getLast? = some slash then
          (dirName data len maxFilename pos).1.dropLast else (dirName data len maxFilename pos).1) = name
        split
        . exact ⟨fun e he => absurd he List.not_mem_nil, hfilled⟩
        . next hroom =>
          have hle : filled + direntLen name.length ≤ bufsize.toNat := by
            have hbmod := bmod_le bufsize.toNat
            omega
          obtain ⟨hnames, hsum⟩ := @ih (if (dirName data len maxFilename pos).2 < len then
            (dirName data len maxFilename pos).2 + 1 else (dirName data len maxFilename pos).2) _ hle
          constructor
          . intro e he
            rw [List.mem_cons] at he
            obtain rfl | he := he
            . have htake := (List.takeWhile_sublist (fun b => decide (b ≠ 0)) (l := name)).length_le
              have hrec := direntLen_le (n := name.length)
              dsimp only
              omega
            . exact hnames e he
          . rw [List.map_cons, List.sum_cons]
            dsimp only
            omega
    . exact ⟨fun e he => absurd he List.not_mem_nil, hfilled⟩

theorem getdents_bounded (p : LxDirs) (fd : Nat) (buf : UInt32)
    : ((p.sysGetdents64 fd buf bufsize).1.2.flatMap Dirent.bytes).length ≤ bufsize.toNat := by
  unfold LxDirs.sysGetdents64
  split
  . exact Nat.zero_le _
  . dsimp only
    split
    . exact Nat.zero_le _
    . split
      . exact Nat.zero_le _
      . dsimp only
        next i _ _ _ =>
        obtain ⟨hnames, hsum⟩ := @dirents_fit (p.lx.dataMem (p.lx.lfd i).data) (p.lx.lfd i).len (p.dirPos i) 0 bufsize
          ((p.lx.lfd i).len - p.dirPos i) (Nat.zero_le _)
        rw [List.length_flatMap, List.map_congr_left (fun e he => Dirent.length_bytes (hnames e he))]
        rwa [Nat.zero_add] at hsum

end Records

section Text

variable {data : Mem} {len pos filled : Nat} {bufsize : UInt32}

def lineEntry (e : Bytes) : Bytes × UInt8 :=
  if e.getLast? = some slash then (e.dropLast, dtDir) else (e, dtReg)

structure Line (e : Bytes) : Prop where
  ne_nil : e ≠ []
  short : e.length ≤ maxFilename
  newline : newline ∉ e
  nul : 0 ∉ e

theorem readBytes_cons {n : Nat} (hn : 0 < n)
    : data.readBytes pos n = data pos :: data.readBytes (pos + 1) (n - 1) := by
  obtain ⟨k, rfl⟩ := Nat.exists_eq_add_of_le' hn
  rw [Nat.add_comm k 1, Mem.readBytes_add, Nat.add_sub_cancel_left]
  rfl

theorem dirName_line {e rest : Bytes} {n : Nat} (hpos : pos ≤ len)
    (htext : data.readBytes pos (len - pos) = e ++ newline :: rest) (hnl : newline ∉ e) (hn : e.length ≤ n)
    : dirName data len n pos = (e, pos + e.length) := by
  induction e generalizing pos n with
  | nil =>
    have hlt : pos < len := by
      have hlen := congrArg List.length htext
      simp only [Mem.length_readBytes, List.nil_append, List.length_cons] at hlen
      omega
    rw [readBytes_cons (by omega), List.nil_append, List.cons.injEq] at htext
    cases n with
    | zero => rfl
    | succ n =>
      unfold dirName
      rw [if_neg (fun h => h.2 htext.1)]
      rfl
  | cons b e ih =>
    have hlt : pos < len := by
      have hlen := congrArg List.length htext
      simp only [Mem.length_readBytes, List.cons_append, List.length_cons] at hlen
      omega
    rw [readBytes_cons (by omega), List.cons_append, List.cons.injEq] at htext
    rw [List.mem_cons, not_or] at hnl
    rw [List.length_cons] at hn
    cases n with
    | zero => omega
    | succ n =>
      unfold dirName
      rw [if_pos ⟨hlt, by rw [htext.1]; exact Ne.symm hnl.1⟩]
      rw [ih (by omega) (by rw [Nat.sub_add_eq]; exact htext.2) hnl.2 (by omega)]
      dsimp only
      rw [htext.1, List.length_cons]
      congr 1
      omega

theorem dirents_text {es : List Bytes} {steps : Nat} (hpos : pos ≤ len) (hsteps : len - pos ≤ steps)
    (htext : data.readBytes pos (len - pos) = es.flatMap (· ++ [newline])) (hlines : ∀ e ∈ es, Line e)
    (hroom : ((filled + (es.map (fun e => direntLen (lineEntry e).1.length)).sum : Nat) : Int)
      ≤ Int.bmod bufsize.toNat (2 ^ 32) ∨ es = [])
    : (dirents data len bufsize steps pos filled).1.map (fun e => (e.name, e.type)) = es.map lineEntry
        ∧ (dirents data len bufsize steps pos filled).2 = len := by
  induction es generalizing pos filled steps with
  | nil =>
    have hlen := congrArg List.length htext
    simp only [Mem.length_readBytes, List.flatMap_nil, List.length_nil] at hlen
    have heq : pos = len := by omega
    subst heq
    cases steps with
    | zero => exact ⟨rfl, rfl⟩
    | succ steps =>
      unfold dirents
      rw [if_neg (Nat.lt_irrefl _)]
      exact ⟨rfl, rfl⟩
  | cons e es ih =>
    have hline := hlines e List.mem_cons_self
    rw [List.flatMap_cons, List.append_assoc, List.singleton_append] at htext
    have hlen := congrArg List.length htext
    simp only [Mem.length_readBytes, List.length_append, List.length_cons] at hlen
    have hroom := hroom.resolve_right (List.cons_ne_nil _ _)
    rw [List.map_cons, List.sum_cons] at hroom
    have hrest : data.readBytes (pos + e.length + 1) (len - (pos + e.length + 1)) = es.flatMap (· ++ [newline]) := by
      have hdrop := congrArg (List.drop (e.length + 1)) htext
      rw [Mem.drop_readBytes (by omega)] at hdrop
      rw [show pos + e.length + 1 = pos + (e.length + 1) by omega, Nat.sub_add_eq, hdrop,
        ← List.drop_drop, List.drop_left, List.drop_one, List.tail_cons]
    cases steps with
    | zero => omega
    | succ steps =>
      unfold dirents
      rw [if_pos (by omega), dirName_line hpos htext hline.newline hline.short]
      dsimp only
      rw [if_pos (show pos + e.length < len by omega), if_neg hline.ne_nil]
      have hentry : lineEntry e = (if e.getLast? = some slash then e.dropLast else e,
          if e.getLast? = some slash then dtDir else dtReg) := by
        unfold lineEntry
        split <;> rfl
      have hname : (if e.getLast? = some slash then e.dropLast else e) = (lineEntry e).1 := by rw [hentry]
      have hnul : 0 ∉ (lineEntry e).1 := by
        unfold lineEntry
        split
        . exact fun h => hline.nul (List.dropLast_subset _ h)
        . exact hline.nul
      rw [hname, if_neg (by omega)]
      obtain ⟨hnames, hend⟩ := @ih (pos + e.length + 1) (filled + direntLen (lineEntry e).1.length) steps
        (by omega) (by omega) hrest (fun e he => hlines e (List.mem_cons_of_mem _ he)) (.inl (by omega))
      refine ⟨?_, hend⟩
      rw [List.map_cons, List.map_cons, hnames]
      congr 1
      dsimp only
      rw [List.takeWhile_eq_self_iff.mpr, hentry]
      intro b hb
      rw [decide_eq_true_eq]
      rintro rfl
      exact hnul hb

end Text

section Open

variable {st : LxState} {path : Bytes} {flags : UInt32} {i : Fin linuxMaxFd}

theorem dirList_openFailed : (openFailed st i).dirList = st.dirList := by
  unfold openFailed
  cases (st.lfd i).slot <;> rfl

theorem dirList_putData {d : LxData} (off : Nat) (bs : Bytes) (hd : d ≠ .dirList)
    : (st.putData d off bs).dirList = st.dirList := by
  cases d with
  | null => rfl
  | pool p => rfl
  | slot s => rfl
  | dirList => contradiction

theorem dirList_openPath (hdata : (st.lfd i).data ≠ .dirList)
    : (openPath st i path flags).2.dirList = if fsDirectoryExists st.fs path then
        st.dirList.writeBytes 0 ((fsListDirectory st.fs path).2.1 ++ [0]) else st.dirList := by
  unfold openPath
  split
  . unfold openDir
    dsimp only
    split <;> rfl
  . split
    . unfold openNew
      split
      . exact dirList_openFailed
      . split
        . exact dirList_openFailed
        . dsimp only
          split
          . exact dirList_openFailed
          . rfl
    . split
      . unfold openWrite
        have hput := fun s bs => @dirList_putData { st with fs := s } (st.lfd i).data 0 bs hdata
        dsimp only
        split
        . exact dirList_openFailed.trans (hput _ _)
        . split
          . exact dirList_openFailed.trans (hput _ _)
          . exact hput _ _
      . unfold openRead
        dsimp only
        split
        . rfl
        . rfl
        . split <;> rfl

/--
`st'` is `st` with entry `i` taken for a new descriptor.
-/
structure Taken (st st' : LxState) (i : Fin linuxMaxFd) : Prop where
  fs : st'.fs = st.fs
  dirList : st'.dirList = st.dirList
  data : (st'.lfd i).data ≠ .dirList
  used : (st'.lfd i).used

theorem sysOpen_cases (st : LxState) (path : Bytes) (flags : UInt32)
    : (¬DirRead.Lists st path flags ∧ (∃ e, 0 < e ∧ e < 4096 ∧ (sysOpen st path flags).1 = lxErr e)
        ∧ (sysOpen st path flags).2.dirList = st.dirList)
      ∨ ∃ i st', fdFree st = some i ∧ Taken st st' i ∧ (path ≠ [] ∧ lxnorm st.fs path ≠ [])
        ∧ (flags &&& (oWronly ||| oRdwr) ≠ 0 → ∃ t, st.slotUsed t = false)
        ∧ sysOpen st path flags = openPath st' i (lxnorm st.fs path) flags := by
  unfold sysOpen
  split
  . next hempty =>
    refine .inl ⟨fun hlists => ?_, ⟨ENOENT_L, by decide, by decide, rfl⟩, rfl⟩
    exact hempty.elim hlists.text.1 hlists.text.2
  . next hpath =>
    rw [not_or] at hpath
    dsimp only
    split
    . next hnone =>
      refine .inl ⟨fun hlists => ?_, ⟨ENOMEM_L, by decide, by decide, rfl⟩, rfl⟩
      have hentry := hlists.entry
      rw [hnone] at hentry
      contradiction
    . next i hfree =>
      split
      . next hwrite =>
        split
        . next st' hclaim =>
          have hst := slotClaim_none hclaim
          subst hst
          refine .inl ⟨fun hlists => ?_, ⟨ENOMEM_L, by decide, by decide, rfl⟩, rfl⟩
          have hsome := (@slotClaim_isSome { st with opens := st.opens + 1 }).mpr (hlists.slot hwrite)
          rw [hclaim] at hsome
          contradiction
        . next s st' hclaim =>
          obtain ⟨hslot, rfl⟩ := slotClaim_some hclaim
          refine .inr ⟨i, _, hfree, ?_, hpath, fun _ => ⟨s, hslot⟩, rfl⟩
          exact ⟨rfl, rfl, by simp, by simp⟩
      . next hread =>
        refine .inr ⟨i, _, hfree, ?_, hpath, fun hwrite => absurd hwrite hread, rfl⟩
        exact ⟨rfl, rfl, by simp [LinuxFd.zero], by simp⟩

theorem dirList_sysOpen (st : LxState) (path : Bytes) (flags : UInt32)
    : (¬DirRead.Lists st path flags ∧ (sysOpen st path flags).2.dirList = st.dirList)
      ∨ DirRead.Lists st path flags ∧ (sysOpen st path flags).2.dirList
          = st.dirList.writeBytes 0 ((fsListDirectory st.fs (lxnorm st.fs path)).2.1 ++ [0]) := by
  obtain ⟨hno, _, hsame⟩ | ⟨i, st', hfree, htaken, hpath, hslot, heq⟩ := sysOpen_cases st path flags
  . exact .inl ⟨hno, hsame⟩
  . rw [heq, dirList_openPath htaken.data, htaken.fs, htaken.dirList]
    split
    . next hdir => exact .inr ⟨⟨hpath, by rw [hfree]; rfl, hslot, hdir⟩, rfl⟩
    . next hdir => exact .inl ⟨fun hlists => hdir hlists.dir, rfl⟩

/--
A descriptor of a directory whose listing has `len` bytes.
-/
structure DirFd (st : LxState) (i : Fin linuxMaxFd) (len : Nat) : Prop where
  low : 3 ≤ i.val
  used : (st.lfd i).used
  isDir : (st.lfd i).isDir
  data : (st.lfd i).data = .dirList
  length : (st.lfd i).len = len

theorem DirFd.get {len : Nat} (h : DirFd st i len) : fdGet st i.val = some i := by
  unfold fdGet
  rw [dif_pos ⟨h.low, i.isLt⟩, if_pos h.used]

theorem DirFd.congr {st' : LxState} {len : Nat} (h : DirFd st i len) (hi : st'.lfd i = st.lfd i) : DirFd st' i len where
  low := h.low
  used := by rw [hi]; exact h.used
  isDir := by rw [hi]; exact h.isDir
  data := by rw [hi]; exact h.data
  length := by rw [hi]; exact h.length

theorem sysOpen_directory (hdir : fsDirectoryExists st.fs (lxnorm st.fs path))
    (hret : (sysOpen st path flags).1 = i.val)
    : fdFree st = some i ∧ (path ≠ [] ∧ lxnorm st.fs path ≠ []) ∧ (fsListDirectory st.fs (lxnorm st.fs path)).1 = 0
        ∧ DirFd (sysOpen st path flags).2 i (fsListDirectory st.fs (lxnorm st.fs path)).2.1.length
        ∧ (sysOpen st path flags).2.dirList
          = st.dirList.writeBytes 0 ((fsListDirectory st.fs (lxnorm st.fs path)).2.1 ++ [0]) := by
  have hi : i.val < 6 := i.isLt
  obtain ⟨_, ⟨e, hpos, he, herr⟩, _⟩ | ⟨j, st', hfree, htaken, hpath, _, heq⟩ := sysOpen_cases st path flags
  . rw [herr] at hret
    unfold lxErr at hret
    omega
  . have hlist := @dirList_openPath st' (lxnorm st.fs path) flags j htaken.data
    rw [← heq, htaken.fs, htaken.dirList, if_pos hdir] at hlist
    rw [heq] at hret
    unfold openPath at hret heq
    rw [htaken.fs, if_pos hdir] at hret heq
    unfold openDir at hret heq
    dsimp only at hret heq
    rw [htaken.fs] at hret heq
    split at hret
    . unfold lxErr EACCES_L at hret
      omega
    . next hrc =>
      obtain rfl := Fin.ext hret
      rw [if_neg hrc] at heq
      refine ⟨hfree, hpath, Decidable.not_not.mp hrc, ⟨(fdFree_some hfree).1, ?_, ?_, ?_, ?_⟩, hlist⟩
      . rw [heq]
        simpa using htaken.used
      . rw [heq]
        simp
      . rw [heq]
        simp
      . rw [heq]
        simp

theorem sysClose_other {fd : Nat} (hfd : fd ≠ i.val)
    : (sysClose st fd).2.lfd i = st.lfd i ∧ (sysClose st fd).2.dirList = st.dirList := by
  unfold sysClose
  split
  . exact ⟨rfl, rfl⟩
  . next j hget =>
    have hij : i ≠ j := by
      rintro rfl
      exact hfd (fdGet_some hget).2.1.symm
    have hflush : (fdFlush st j).dirList = st.dirList := by
      unfold fdFlush
      dsimp only
      split
      . cases (st.lfd j).data <;> rfl
      . rfl
    have hrelease : ∀ s, (slotRelease (fdFlush st j) s).dirList = st.dirList := by
      intro s
      cases s <;> exact hflush
    dsimp only
    constructor
    . split <;> simp [hij, lfd_fdFlush]
    . split
      . exact hflush
      . exact hrelease _

end Open

section Entries

variable {s : FsState} {d : Bytes}

theorem usedFile_no_nul {x : Bytes} (h : s.UsedFile x) : 0 ∉ x := by
  obtain ⟨i, _, rfl⟩ := h
  exact Buf.zero_not_mem_str _

theorem usedDir_no_nul {x : Bytes} (h : s.UsedDir x) : 0 ∉ x := by
  obtain ⟨i, _, rfl⟩ := h
  exact Buf.zero_not_mem_str _

theorem ChildOf.no_nul {x c : Bytes} (h : ChildOf d x c) (hx : 0 ∉ x) : 0 ∉ c := by
  rw [h.name, List.mem_append, not_or] at hx
  exact hx.2

theorem usedFile_pathText {x : Bytes} (h : NsInv s) (hx : s.UsedFile x) : PathText x := by
  obtain ⟨i, hi⟩ := hx
  exact h.files i x hi

theorem usedDir_pathText {x : Bytes} (h : NsInv s) (hx : s.UsedDir x) : PathText x := by
  obtain ⟨i, hi⟩ := hx
  exact h.dirs i x hi

theorem isEntry_line {e : Bytes} (h : NsInv s) (he : IsEntry s d e) (hnl : newline ∉ e) : Line e := by
  obtain ⟨x, c, hx, hc, rfl⟩ | ⟨x, hx, hc⟩ := he
  . have hlen := hc.length_le (usedDir_pathText h hx)
    refine ⟨by simp, ?_, hnl, ?_⟩
    . rw [List.length_append, List.length_singleton]
      unfold maxFilename
      omega
    . rw [List.mem_append, not_or]
      exact ⟨hc.no_nul (usedDir_no_nul hx), by decide⟩
  . have hlen := hc.length_le (usedFile_pathText h hx)
    refine ⟨hc.ne_nil, ?_, hnl, hc.no_nul (usedFile_no_nul hx)⟩
    unfold maxFilename
    omega

theorem map_lineEntry
    : (entries s d).map lineEntry = (childDirs s d).map (·, dtDir) ++ (childFiles s d).map (·, dtReg) := by
  unfold entries
  rw [List.map_append, List.map_map]
  congr 1
  . apply List.map_congr_left
    intro c _
    unfold lineEntry
    simp
  . apply List.map_congr_left
    intro c hc
    obtain ⟨x, _, hchild⟩ := mem_childFiles.mp hc
    unfold lineEntry
    rw [if_neg]
    intro hlast
    exact hchild.component (List.mem_of_getLast? hlast)

theorem listsAll_of_entries {ds : List Dirent} (h : NsInv s)
    (hds : ds.map (fun e => (e.name, e.type)) = (entries s d).map lineEntry)
    : ListsAll s d ds := by
  rw [map_lineEntry] at hds
  constructor
  . rw [hds]
    apply List.Nodup.append
    . exact (nodup_childDirs h).map (fun c c' heq => (Prod.mk.inj heq).1)
    . exact (nodup_childFiles h).map (fun c c' heq => (Prod.mk.inj heq).1)
    . intro e hdir hfile
      rw [List.mem_map] at hdir hfile
      obtain ⟨_, _, rfl⟩ := hdir
      obtain ⟨_, _, heq⟩ := hfile
      exact absurd (Prod.mk.inj heq).2 (by decide)
  . intro name type
    unfold IsDirent
    rw [hds, List.mem_append, List.mem_map, List.mem_map, ← mem_childDirs h, ← mem_childFiles]
    constructor
    . rintro (⟨c, hc, heq⟩ | ⟨c, hc, heq⟩)
      . cases heq
        exact .inl ⟨rfl, hc⟩
      . cases heq
        exact .inr ⟨rfl, hc⟩
    . rintro (⟨rfl, hc⟩ | ⟨rfl, hc⟩)
      . exact .inl ⟨name, hc, rfl⟩
      . exact .inr ⟨name, hc, rfl⟩

theorem direntsSize_eq
    : ((entries s d).map (fun e => direntLen (lineEntry e).1.length)).sum = direntsSize s d := by
  have hcomp : (fun e => direntLen (lineEntry e).1.length)
      = (fun q : Bytes × UInt8 => direntLen q.1.length) ∘ lineEntry := rfl
  unfold direntsSize
  rw [hcomp, ← List.map_map, map_lineEntry, List.map_append, List.map_append, List.map_map, List.map_map]
  rfl

theorem entries_of_direntsSize (h : direntsSize s d = 0) : entries s d = [] := by
  rw [← direntsSize_eq] at h
  cases hes : entries s d with
  | nil => rfl
  | cons e es =>
    rw [hes, List.map_cons, List.sum_cons] at h
    have := direntLen_le (n := (lineEntry e).1.length)
    omega

end Entries

section Run

variable {s : FsState} {d : Bytes} {i : Fin linuxMaxFd} {r : DirRead}

/--
Nothing has been read and the listing is complete, or all has been read.
-/
inductive ListProgress (s : FsState) (d : Bytes) (i : Fin linuxMaxFd) (r : DirRead) : Prop where
  | unread (got : r.got = []) (done : r.done = false) (pos : r.dirs.dirPos i = 0)
      (text : r.dirs.lx.dirList.readBytes 0 (fsListDirectory.lines s d).length = fsListDirectory.lines s d)
  | read (pos : (fsListDirectory.lines s d).length ≤ r.dirs.dirPos i)
      (got : r.got.map (fun e => (e.name, e.type)) = (entries s d).map lineEntry)

structure DirReading (s : FsState) (d : Bytes) (i : Fin linuxMaxFd) (r : DirRead) : Prop where
  fd : DirFd r.dirs.lx i (fsListDirectory.lines s d).length
  progress : ListProgress s d i r

structure ListedText (s : FsState) (d : Bytes) : Prop where
  text : fsListDirectory.lines s d = (entries s d).flatMap (· ++ [newline])
  lines : ∀ e ∈ entries s d, Line e

theorem listedText (h : NsInv s) (hd : PathText d) (hfits : ListingFits s d) (hnl : ∀ e, IsEntry s d e → newline ∉ e)
    : ListedText s d where
  text := lines_of_fits h hd hfits
  lines e he := by
    have hentry := (mem_entries h).mp he
    exact isEntry_line h hentry (hnl e hentry)

theorem dirents_end {data : Mem} {len pos : Nat} (bufsize : UInt32) (h : len ≤ pos)
    : dirents data len bufsize (len - pos) pos 0 = ([], pos) := by
  rw [Nat.sub_eq_zero_of_le h]
  rfl

theorem getdents_other {p : LxDirs} {fd : Nat} (buf bufsize : UInt32) (hfd : fd ≠ i.val)
    : (p.sysGetdents64 fd buf bufsize).2.lx = p.lx ∧ (p.sysGetdents64 fd buf bufsize).2.dirPos i = p.dirPos i := by
  unfold LxDirs.sysGetdents64
  split
  . exact ⟨rfl, rfl⟩
  . next j hget =>
    have hij : i ≠ j := by
      rintro rfl
      exact hfd (fdGet_some hget).2.1.symm
    dsimp only
    split
    . exact ⟨rfl, rfl⟩
    . split
      . exact ⟨rfl, rfl⟩
      . exact ⟨rfl, Function.update_of_ne hij _ _⟩

theorem getdents_refused {p : LxDirs} {len : Nat} {buf bufsize : UInt32} (h : DirFd p.lx i len)
    (hbuf : buf = 0 ∨ bufsize < 32)
    : p.sysGetdents64 i.val buf bufsize = ((lxErr EINVAL_L, []), p) := by
  unfold LxDirs.sysGetdents64
  rw [h.get]
  dsimp only
  rw [if_neg (not_not_intro h.isDir), if_pos hbuf]

theorem getdents_taken {p : LxDirs} {len : Nat} {buf bufsize : UInt32} (h : DirFd p.lx i len)
    (hbuf : ¬(buf = 0 ∨ bufsize < 32))
    : p.sysGetdents64 i.val buf bufsize =
        let r := dirents p.lx.dirList len bufsize (len - p.dirPos i) (p.dirPos i) 0
        (((r.1.map Dirent.reclen).sum, r.1), { p with dirPos := Function.update p.dirPos i r.2 }) := by
  unfold LxDirs.sysGetdents64
  rw [h.get]
  dsimp only
  rw [if_neg (not_not_intro h.isDir), if_neg hbuf, h.data, h.length]
  rfl

theorem bmod_small {n : Nat} (h : n < 2 ^ 31) : Int.bmod n (2 ^ 32) = n := by
  unfold Int.bmod
  dsimp only
  split <;> omega

theorem reading_getdents {fd : Nat} {buf bufsize : UInt32} (hs : ListedText s d) (h : DirReading s d i r)
    (hok : r.Careful s d i (.getdents fd buf bufsize))
    : DirReading s d i (r.step i (.getdents fd buf bufsize)) := by
  unfold DirRead.step
  dsimp only
  by_cases hfd : fd = i.val
  . subst hfd
    by_cases hbuf : buf = 0 ∨ bufsize < 32
    . -- nothing is stored, and the error is not 0
      rw [getdents_refused h.fd hbuf]
      dsimp only
      split
      . next hdone =>
        refine ⟨h.fd, ?_⟩
        cases h.progress with
        | unread hgot hno hpos htext => exact .unread (by rw [hgot]; rfl) rfl hpos htext
        | read hpos hgot => exact .read hpos (by rw [List.append_nil]; exact hgot)
      . exact h
    . have hroom := ((hok rfl).resolve_left (fun hnull => hbuf (.inl hnull))).resolve_left
        (fun hlow => hbuf (.inr hlow))
      rw [getdents_taken h.fd hbuf]
      dsimp only
      cases h.progress with
      | unread hgot hno hpos htext =>
        rw [if_pos ⟨rfl, by rw [hno]; decide⟩]
        have hall := @dirents_text r.dirs.lx.dirList (fsListDirectory.lines s d).length 0 0 bufsize (entries s d)
          (fsListDirectory.lines s d).length (Nat.zero_le _) (Nat.sub_le _ _)
          (by rw [Nat.sub_zero, htext]; exact hs.text) hs.lines ?_
        . rw [hpos, Nat.sub_zero]
          refine ⟨h.fd, .read ?_ ?_⟩
          . dsimp only
            rw [Function.update_self, hall.2]
          . dsimp only
            rw [hgot, List.nil_append]
            exact hall.1
        . unfold DirRead.unread at hroom
          rw [if_pos hgot] at hroom
          obtain hzero | ⟨hle, hlt⟩ := hroom
          . exact .inr (entries_of_direntsSize hzero)
          . refine .inl ?_
            rw [direntsSize_eq, bmod_small hlt]
            omega
      | read hpos hgot =>
        rw [dirents_end bufsize hpos]
        have hread : ∀ ds done, ds = r.got →
            DirReading s d i
              ⟨{ r.dirs with dirPos := Function.update r.dirs.dirPos i (r.dirs.dirPos i) }, ds, done⟩ := by
          rintro ds done rfl
          refine ⟨h.fd, .read ?_ hgot⟩
          dsimp only
          rw [Function.update_self]
          exact hpos
        dsimp only
        split
        . exact hread _ _ (List.append_nil _)
        . exact hread _ _ rfl
  . obtain ⟨hlx, hother⟩ := getdents_other (p := r.dirs) buf bufsize hfd
    rw [if_neg (fun hboth => hfd hboth.1)]
    refine ⟨?_, ?_⟩
    . dsimp only
      rw [hlx]
      exact h.fd
    . cases h.progress with
      | unread hgot hno hpos htext =>
        refine .unread hgot hno (hother.trans hpos) ?_
        dsimp only
        rw [hlx]
        exact htext
      | read hpos hgot =>
        refine .read ?_ hgot
        dsimp only
        rw [hother]
        exact hpos

theorem readBytes_listed {m : Mem} {text list : Bytes} (h : text <+: list)
    : (m.writeBytes 0 (list ++ [0])).readBytes 0 text.length = text := by
  obtain ⟨rest, rfl⟩ := h
  have hread := @Mem.readBytes_writeBytes_sub m 0 0 text.length (text ++ rest ++ [0])
    (by simp only [List.length_append]; omega)
  rw [Nat.add_zero, List.drop_zero, List.append_assoc, List.take_left] at hread
  rw [List.append_assoc]
  exact hread

theorem reading_open {path : CStr} {flags : UInt32} (h : DirReading s d i r) (hs : ListedText s d)
    (hok : r.Careful s d i (.open path flags))
    : DirReading s d i (r.step i (.open path flags)) := by
  have hfree : fdFree r.dirs.lx ≠ some i := by
    intro hi
    have hused := h.fd.used
    rw [(fdFree_some hi).2] at hused
    contradiction
  have hentry : (sysOpen r.dirs.lx path flags).2.lfd i = r.dirs.lx.lfd i := by
    obtain heq | ⟨_, j, hj, hother, _⟩ := sysOpen_entries r.dirs.lx path flags
    . rw [heq]
    . apply hother
      rintro rfl
      exact hfree hj
  have hpos : (r.dirs.sysOpen path flags).2.dirPos i = r.dirs.dirPos i := by
    unfold LxDirs.sysOpen
    dsimp only
    split
    . rw [if_neg (by simp)]
    . rfl
  refine ⟨h.fd.congr hentry, ?_⟩
  cases h.progress with
  | unread hgot hno hzero htext =>
    refine .unread hgot hno (hpos.trans hzero) ?_
    unfold DirRead.Careful DirRead.unread at hok
    rw [if_pos hgot] at hok
    obtain hempty | hkeep := hok
    . rw [hs.text, entries_of_direntsSize hempty]
      rfl
    . show (sysOpen r.dirs.lx path flags).2.dirList.readBytes 0 _ = _
      obtain ⟨_, hsame⟩ | ⟨hlists, hwritten⟩ := dirList_sysOpen r.dirs.lx path flags
      . rw [hsame]
        exact htext
      . rw [hwritten]
        exact readBytes_listed (hkeep.resolve_left (not_not_intro hlists))
  | read hend hgot =>
    refine .read ?_ hgot
    show _ ≤ (r.dirs.sysOpen path flags).2.dirPos i
    rw [hpos]
    exact hend

theorem reading_step {c : DirCall} (hs : ListedText s d) (h : DirReading s d i r) (hok : r.Careful s d i c)
    : DirReading s d i (r.step i c) := by
  cases c with
  | getdents fd buf bufsize => exact reading_getdents hs h hok
  | «open» path flags => exact reading_open h hs hok
  | close fd =>
    obtain ⟨hentry, hlist⟩ := @sysClose_other r.dirs.lx i fd hok
    refine ⟨h.fd.congr hentry, ?_⟩
    cases h.progress with
    | unread hgot hno hpos htext =>
      refine .unread hgot hno hpos ?_
      show (sysClose r.dirs.lx fd).2.dirList.readBytes 0 _ = _
      rw [hlist]
      exact htext
    | read hpos hgot => exact .read hpos hgot

theorem DirReading.exhaustive (hns : NsInv s) (h : DirReading s d i r) : r.Exhaustive s d where
  all hdone := by
    cases h.progress with
    | unread _ hno => exact absurd hdone (by rw [hno]; decide)
    | read _ hgot => exact listsAll_of_entries hns hgot
  bounded fd buf _ := getdents_bounded r.dirs fd buf

theorem reading_start {p : LxDirs} {path : CStr} {flags : UInt32}
    (hdir : fsDirectoryExists p.lx.fs (lxnorm p.lx.fs path)) (hret : (p.sysOpen path flags).1 = i.val)
    : DirReading p.lx.fs (absPath p.lx.fs.cwd.str (lxnorm p.lx.fs path)) i (.start (p.sysOpen path flags).2) := by
  obtain ⟨hfree, hpath, hrc, hfd, hlist⟩ := sysOpen_directory hdir hret
  obtain ⟨hlines, _⟩ := fsListDirectory_done hpath.2 hrc
  rw [hlines] at hfd hlist
  refine ⟨hfd, .unread rfl rfl ?_ ?_⟩
  . show (p.sysOpen path flags).2.dirPos i = 0
    unfold LxDirs.sysOpen
    dsimp only
    rw [if_neg (not_or.mpr hpath), if_pos hfree]
  . show (sysOpen p.lx path flags).2.dirList.readBytes 0 _ = _
    rw [hlist]
    exact readBytes_listed (List.prefix_refl _)

/--
In a careful run nothing is missed.
-/
theorem getdents_exhaustive (s₀ s : FsState) (uid : Int32) (p : LxDirs) (path : CStr) (flags : UInt32)
    (i : Fin linuxMaxFd) (d : Bytes) (r : DirRead) (hfs : AnyRun (fsInit s₀) s)
    (hp : p.lx.fs = { s with fsCurUid := uid }) (hdir : fsDirectoryExists p.lx.fs (lxnorm p.lx.fs path))
    (hd : d = absPath p.lx.fs.cwd.str (lxnorm p.lx.fs path)) (hret : (p.sysOpen path flags).1 = i.val)
    (hfits : ListingFits p.lx.fs d) (hnl : ∀ e, IsEntry p.lx.fs d e → newline ∉ e)
    (hrun : DirRead.Reads i (fun r c => r.Careful p.lx.fs d i c) (.start (p.sysOpen path flags).2) r)
    : r.Exhaustive p.lx.fs d := by
  have hns : NsInv p.lx.fs := by
    rw [hp]
    exact (Run.keeps (I := NsInv) (fun _ _ _ _ h => h.call) (NsInv.init s₀) hfs).setUid uid
  have hs : ListedText p.lx.fs d := by
    refine listedText hns ?_ hfits hnl
    rw [hd]
    exact absPath_text _ _
  have hstart := reading_start hdir hret
  rw [← hd] at hstart
  have hreading : DirReading p.lx.fs d i r := by
    refine Run.keeps (I := DirReading p.lx.fs d i) ?_ hstart hrun
    rintro r c _ hok h rfl
    exact reading_step hs h hok
  exact hreading.exhaustive hns

section Example

/-!
Root reads `/` with one file in it, and with two.
-/

def dirsOf (s : FsState) : LxDirs where
  lx := (LxState.fresh { s with fsCurUid := 0 }).boot
  dirPos _ := 0

def dirsRead (s : FsState) (bufsize : UInt32) : DirRead :=
  [.getdents 3 4096 bufsize, .getdents 3 4096 bufsize].foldl (DirRead.step ⟨3, by decide⟩)
    (.start ((dirsOf s).sysOpen rootPath 0).2)

theorem dirsOf_root (s : FsState) : fsDirectoryExists (dirsOf s).lx.fs (lxnorm (dirsOf s).lx.fs rootPath) := rfl

theorem absPath_slash (cwd : Bytes) : absPath cwd [slash] = [slash] :=
  absPath_render Canon.nil

def noteCopied : FsState :=
  (fsWriteFile { noted with fsCurUid := 0 } copyPath copyByte).2

theorem noteCopied_run : AnyRun (fsInit (.zeroed 64)) noteCopied := by
  have hwrite : FsCall.Step ⟨0, .writeFile copyPath copyByte⟩ noted noteCopied := FsCall.step 0 rfl
  exact Run.call (noted_run (fun _ _ _ => trivial)) hwrite trivial

theorem childFiles_noted : childFiles (dirsOf noted).lx.fs [slash] = [[97]] := by decide +kernel

theorem childDirs_noted : childDirs (dirsOf noted).lx.fs [slash] = [] := by decide +kernel

theorem noted_careful (r : DirRead)
    : r.Careful (dirsOf noted).lx.fs [slash] ⟨3, by decide⟩ (.getdents 3 4096 1024) := by
  intro _
  refine .inr (.inr (.inr ⟨?_, by decide⟩))
  unfold DirRead.unread direntsSize
  rw [childFiles_noted, childDirs_noted]
  split <;> decide

end Example

theorem getdents_exhaustive_noted
    : (dirsRead noted 1024).done ∧ (dirsRead noted 1024).Exhaustive (dirsOf noted).lx.fs [slash] := by
  refine ⟨by decide +kernel, ?_⟩
  have hns : NsInv (dirsOf noted).lx.fs :=
    (Run.keeps (I := NsInv) (fun _ _ _ _ h => h.call) (NsInv.init _) (noted_run (fun _ _ _ => trivial))).setUid 0
  have hentries : ∀ e, IsEntry (dirsOf noted).lx.fs [slash] e ↔ e = [97] := by
    intro e
    rw [← mem_entries hns]
    unfold entries
    rw [childFiles_noted, childDirs_noted]
    simp
  apply getdents_exhaustive (.zeroed 64) noted 0 (dirsOf noted) rootPath 0 ⟨3, by decide⟩ [slash]
    (dirsRead noted 1024) (noted_run (fun _ _ _ => trivial)) rfl (dirsOf_root noted)
    (absPath_slash _).symm (by decide +kernel)
  . unfold ListingFits listingSize
    rw [childFiles_noted, childDirs_noted]
    decide
  . intro e he
    rw [(hentries e).mp he]
    decide
  . exact (Run.call .refl (c := .getdents 3 4096 1024) rfl (noted_careful _)).call
      (c := .getdents 3 4096 1024) rfl (noted_careful _)

/--
With two files and a buffer for one record, the second file is never shown.
-/
theorem getdents_loses
    : ¬∀ (s₀ s : FsState) (uid : Int32) (p : LxDirs) (path : CStr) (flags : UInt32) (i : Fin linuxMaxFd) (d : Bytes)
        (r : DirRead), AnyRun (fsInit s₀) s → p.lx.fs = { s with fsCurUid := uid } →
        fsDirectoryExists p.lx.fs (lxnorm p.lx.fs path) → d = absPath p.lx.fs.cwd.str (lxnorm p.lx.fs path) →
        (p.sysOpen path flags).1 = i.val →
        DirRead.Reads i (fun r c => r.Asked p.lx.fs d i c) (.start (p.sysOpen path flags).2) r →
        r.Exhaustive p.lx.fs d := by
  intro h
  have hfiles : childFiles (dirsOf noteCopied).lx.fs [slash] = [[97], [99]] := by decide +kernel
  have hdirs : childDirs (dirsOf noteCopied).lx.fs [slash] = [] := by decide +kernel
  have hasked : ∀ r : DirRead,
      r.Asked (dirsOf noteCopied).lx.fs [slash] ⟨3, by decide⟩ (.getdents 3 4096 32) := by
    intro r _
    rw [hfiles, hdirs]
    decide
  have hall := (h (.zeroed 64) noteCopied 0 (dirsOf noteCopied) rootPath 0 ⟨3, by decide⟩ [slash]
    (dirsRead noteCopied 32) noteCopied_run rfl (dirsOf_root _) (absPath_slash _).symm (by decide +kernel)
    ((Run.call .refl (c := .getdents 3 4096 32) rfl (hasked _)).call
      (c := .getdents 3 4096 32) rfl (hasked _))).all (by decide +kernel)
  have hmem : [99] ∈ childFiles (dirsOf noteCopied).lx.fs [slash] := by
    rw [hfiles]
    decide
  have hshown := (hall.all [99] dtReg).mpr (.inr ⟨rfl, mem_childFiles.mp hmem⟩)
  revert hshown
  decide +kernel

end Run

end TanjaOS
