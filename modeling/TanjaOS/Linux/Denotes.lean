import TanjaOS.Linux.ReadOnly

/-!
Which file a descriptor stands for: the three ways to read through it, and its write-back.
-/

open Lib

namespace TanjaOS

/--
The call closes descriptor `i`, or puts another one into its place.
-/
def LxCall.Gives (i : Fin linuxMaxFd) : LxCall → Prop
  | .close fd => fd = i.val
  | .dup2 _ newfd => newfd = i.val
  | _ => False

section Same

variable {st : LxState} {i : Fin linuxMaxFd}

theorem lxStep_same_entry {c : LxCall} (hused : (st.lfd i).used) (hgives : ¬c.Gives i)
    : (st.lfd i).Same ((lxStep st c).2.lfd i) := by
  have hother : ∀ {j : Fin linuxMaxFd} {f : LinuxFd}, i ≠ j →
      ((st.setFd j f).lfd i) = st.lfd i := by
    intro j f hij
    simp [hij]
  cases c with
  | «open» path flags =>
    have heq : (sysOpen st path flags).2.lfd i = st.lfd i := by
      obtain heq | ⟨_, j, hfree, hkeep, _⟩ := sysOpen_entries st path flags
      . rw [heq]
      . apply hkeep
        rintro rfl
        rw [(fdFree_some hfree).2] at hused
        contradiction
    show (st.lfd i).Same ((sysOpen st path flags).2.lfd i)
    rw [heq]
    exact .refl _
  | close fd =>
    show (st.lfd i).Same ((sysClose st fd).2.lfd i)
    unfold sysClose
    split
    . exact .refl _
    . next j hget =>
      have hij : i ≠ j := by
        rintro rfl
        exact hgives (fdGet_some hget).2.1.symm
      have hflush := (show SameTables st (fdFlush st j) from .fdFlush j).entry i
      dsimp only
      split
      . simpa [hij] using hflush
      . simpa [hij] using hflush
  | dup fd =>
    show (st.lfd i).Same ((sysDup st fd).2.lfd i)
    unfold sysDup
    split
    . exact .refl _
    . split
      . exact .refl _
      . next n hfree =>
        rw [hother]
        . exact .refl _
        . rintro rfl
          rw [(fdFree_some hfree).2] at hused
          contradiction
  | dup2 oldfd newfd =>
    show (st.lfd i).Same ((sysDup2 st oldfd newfd).2.lfd i)
    unfold sysDup2
    split
    . exact .refl _
    . split
      . next hn =>
        split
        . exact .refl _
        . have hij : i ≠ ⟨newfd, hn⟩ := by
            rintro rfl
            exact hgives rfl
          dsimp only
          have hflush : (st.lfd i).Same ((if (st.lfd ⟨newfd, hn⟩).used
              then fdFlush st ⟨newfd, hn⟩ else st).lfd i) := by
            split
            . exact (SameTables.fdFlush _).entry i
            . exact .refl _
          simpa [hij] using hflush
      . exact .refl _
  | _ => exact (SameTables.lxStep (by simp) (by simp) (by simp) (by simp)).entry i

theorem run_same_entry {st' : LxState} (hused : (st.lfd i).used)
    (hrun : LxRun (fun _ c => ¬c.Gives i) st st')
    : (st.lfd i).Same (st'.lfd i) := by
  refine Run.keeps (I := fun st' => (st.lfd i).Same (st'.lfd i)) ?_ (.refl _) hrun
  rintro st' c _ hgives hsame rfl
  exact hsame.trans (lxStep_same_entry (hsame.used.trans hused) hgives)

end Same

/--
The part of `bs` that a reader of `count` bytes at `off` gets.
-/
def slice (bs : Bytes) (off count : Nat) : Bytes :=
  (bs.drop off).take count

/--
`read` after an `lseek` to `off`.
-/
def readAt (st : LxState) (fd count : Nat) (off : Int32) : Bytes :=
  (sysRead (sysLseek st fd off 0).2 fd count []).1.bytes

/--
File `j` may be read and lies where the descriptor expects it.
-/
structure UpToDate (st : LxState) (i : Fin linuxMaxFd) (j : Fin maxF) : Prop where
  readable : permAllows st.fs (st.fs.fmode j) (st.fs.fowner j) 0o400
  data : (st.lfd i).data = match st.fs.fdata j with
    | some p => .pool p
    | none => .null
  len : (st.lfd i).len = (st.fs.fileBytes j).length

/--
All that read through the descriptor get the same bytes `bs`. A mapped area is one away from the
files.
-/
structure ReadsAlike (st : LxState) (i : Fin linuxMaxFd) (bs : Bytes) : Prop where
  read : ∀ (count : Nat) (off : Int32), 0 ≤ off.toInt →
    readAt st i.val count off = slice bs off.toInt.toNat count
  pread : ∀ count off, (sysPread st i.val count off).1.bytes = slice bs off count
  mmap : ∀ fixed addr len off base st', len ≠ 0 →
    mmapPlace st fixed addr ((len + 4095) % 2 ^ 32 / 4096 * 4096) = .ok (base, st') →
    (∀ a, st.fs.Stored a → ¬Covers st base ((len + 4095) % 2 ^ 32 / 4096 * 4096) a) →
    (sysMmap st fixed addr len (some i.val) off).1.bytes
      = slice bs off ((len + 4095) % 2 ^ 32 / 4096 * 4096)

section Read

variable {st : LxState} {i : Fin linuxMaxFd} {j : Fin maxF}

theorem fdGet_val (hle : 3 ≤ i.val) (hused : (st.lfd i).used) : fdGet st i.val = some i := by
  unfold fdGet
  rw [dif_pos ⟨hle, i.isLt⟩]
  simp [hused]

theorem getData_fileBytes {d : LxData} {off n : Nat} (hd : d = match st.fs.fdata j with
      | some p => .pool p
      | none => .null)
    : st.getData d off (min ((st.fs.fileBytes j).length - off) n)
        = slice (st.fs.fileBytes j) off n := by
  unfold slice FsState.fileBytes
  cases hp : st.fs.fdata j with
  | none => simp [LxState.getData, Mem.readBytes_zero]
  | some p =>
    rw [hp] at hd
    dsimp only at hd ⊢
    rw [hd, Mem.length_readBytes]
    by_cases hoff : off ≤ st.fs.fsize j
    . rw [Mem.drop_readBytes hoff]
      have htake : (st.fs.fpool.readBytes (p + off) (st.fs.fsize j - off)).take n
          = (st.fs.fpool.readBytes (p + off) (st.fs.fsize j - off)).take
              (min (st.fs.fsize j - off) n) := by
        rw [Nat.min_comm, ← List.take_take, List.take_of_length_le (i := st.fs.fsize j - off)]
        rw [Mem.length_readBytes]
      rw [htake, Mem.take_readBytes (Nat.min_le_left _ _)]
      unfold LxState.getData LxState.dataMem Mem.readBytes
      simp only [Nat.add_assoc]
    . rw [List.drop_eq_nil_of_le (by rw [Mem.length_readBytes]; omega)]
      have hzero : st.fs.fsize j - off = 0 := by omega
      simp [hzero, LxState.getData, Mem.readBytes_zero]

theorem sysPread_bytes (hle : 3 ≤ i.val) (hused : (st.lfd i).used) (hdir : (st.lfd i).isDir = false)
    (h : UpToDate st i j) (count off : Nat)
    : (sysPread st i.val count off).1.bytes = slice (st.fs.fileBytes j) off count := by
  unfold sysPread
  rw [fdGet_val hle hused]
  dsimp only
  rw [hdir, if_neg (by decide)]
  dsimp only
  rw [h.len]
  exact getData_fileBytes h.data

theorem readData_bytes {d : LxData} {pos len : Nat} {f : LinuxFd} (count : Nat)
    (hd : d = match st.fs.fdata j with
      | some p => .pool p
      | none => .null)
    (hlen : len = (st.fs.fileBytes j).length) (hfd : st.lfd i = f) (hfdata : f.data = d)
    (hflen : f.len = len) (hpos : f.pos = pos)
    : (sysRead.readData st i count).1.bytes = slice (st.fs.fileBytes j) pos count := by
  unfold sysRead.readData
  dsimp only
  rw [hfd, hflen, hpos, hfdata]
  split
  . next hle =>
    unfold slice
    rw [List.drop_eq_nil_of_le (by omega)]
    simp
  . dsimp only
    rw [hlen, Nat.min_comm]
    exact getData_fileBytes hd

theorem seekNewPos_set {f : LinuxFd} {off : Int32} (h : 0 ≤ off.toInt)
    : seekNewPos f off 0 = some off.toInt.toNat := by
  have hlt : off.toInt < 2 ^ 31 := off.toInt_lt
  have hmod : Int.bmod off.toInt (2 ^ 32) = off.toInt := by
    apply Int.bmod_eq_of_le
    . omega
    . omega
  show (if Int.bmod (0 + off.toInt) (2 ^ 32) < 0 then none
    else some (Int.bmod (0 + off.toInt) (2 ^ 32)).toNat) = some off.toInt.toNat
  rw [Int.zero_add, hmod, if_neg (by omega)]

theorem sysRead_bytes (hle : 3 ≤ i.val) (hused : (st.lfd i).used) (hdir : (st.lfd i).isDir = false)
    (hnamed : fileIndex st.fs (absPath st.fs.cwd.str (st.lfd i).path) = some j)
    (hpath : (st.lfd i).path ≠ []) (h : UpToDate st i j) (count : Nat) (line : Bytes)
    : (sysRead st i.val count line).1.bytes = slice (st.fs.fileBytes j) (st.lfd i).pos count := by
  unfold sysRead
  dsimp only
  rw [if_neg (by omega), fdGet_val hle hused]
  dsimp only
  rw [hdir, if_neg (by decide)]
  split
  . -- the path is looked up again
    rw [fsFileDataPtr_eq hpath hnamed h.readable]
    cases hp : st.fs.fdata j with
    | none =>
      have hnil : st.fs.fileBytes j = [] := by
        unfold FsState.fileBytes
        rw [hp]
      rw [hnil]
      simp [slice]
    | some p =>
      dsimp only
      apply readData_bytes (j := j) (d := .pool p) count
      . show _ = match st.fs.fdata j with
          | some p => LxData.pool p
          | none => .null
        rw [hp]
      . show st.fs.fsize j = (st.fs.fileBytes j).length
        unfold FsState.fileBytes
        rw [hp]
        simp
      . simp only [LxState.lfd_setFd, ↓reduceIte]
        rfl
      . rfl
      . rfl
      . rfl
  . exact readData_bytes (j := j) count h.data h.len rfl rfl rfl rfl

theorem readAt_bytes (hle : 3 ≤ i.val) (hused : (st.lfd i).used) (hdir : (st.lfd i).isDir = false)
    (hnamed : fileIndex st.fs (absPath st.fs.cwd.str (st.lfd i).path) = some j)
    (hpath : (st.lfd i).path ≠ []) (h : UpToDate st i j) (count : Nat) {off : Int32}
    (hoff : 0 ≤ off.toInt)
    : readAt st i.val count off = slice (st.fs.fileBytes j) off.toInt.toNat count := by
  have hseek : (sysLseek st i.val off 0).2
      = st.setFd i { st.lfd i with pos := off.toInt.toNat } := by
    unfold sysLseek
    rw [fdGet_val hle hused]
    dsimp only
    rw [seekNewPos_set hoff]
  have hi : (st.setFd i { st.lfd i with pos := off.toInt.toNat }).lfd i
      = { st.lfd i with pos := off.toInt.toNat } := by simp
  have hup : UpToDate (st.setFd i { st.lfd i with pos := off.toInt.toNat }) i j := by
    constructor
    . exact h.readable
    . rw [hi]
      exact h.data
    . rw [hi]
      exact h.len
  unfold readAt
  rw [hseek, sysRead_bytes hle (by simpa using hused) (by simpa using hdir)
    (by rw [hi]; exact hnamed) (by rw [hi]; exact hpath) hup, hi]
  rfl

theorem mmapPlace_lfd {st' : LxState} {fixed : Bool} {addr len base : Nat}
    (h : mmapPlace st fixed addr len = .ok (base, st'))
    : st'.lfd = st.lfd := by
  unfold mmapPlace at h
  split at h
  . split at h
    . contradiction
    . cases h
      rfl
  . split at h
    . contradiction
    . split at h
      . contradiction
      . cases h
        rfl

theorem sysMmap_bytes {fixed : Bool} {addr len off base : Nat} {st' : LxState} (hle : 3 ≤ i.val)
    (hused : (st.lfd i).used) (hdir : (st.lfd i).isDir = false) (hfused : st.fs.fused j ≠ 0)
    (h : UpToDate st i j) (hlen : len ≠ 0)
    (hplace : mmapPlace st fixed addr ((len + 4095) % 2 ^ 32 / 4096 * 4096) = .ok (base, st'))
    (hclear : ∀ a, st.fs.Stored a → ¬Covers st base ((len + 4095) % 2 ^ 32 / 4096 * 4096) a)
    : (sysMmap st fixed addr len (some i.val) off).1.bytes
        = slice (st.fs.fileBytes j) off ((len + 4095) % 2 ^ 32 / 4096 * 4096) := by
  unfold sysMmap
  rw [if_neg hlen]
  dsimp only
  rw [hplace]
  obtain ⟨hfs, hbase⟩ := mmapPlace_fs hplace
  have hfd : st'.lfd = st.lfd := mmapPlace_lfd hplace
  generalize (len + 4095) % 2 ^ 32 / 4096 * 4096 = pages at *
  dsimp only
  have hsame : FsState.SameStore st.fs (st'.fillAbs base pages (fun _ => 0)).fs := by
    rw [← hfs]
    apply fillAbs_same
    intro a ha hin
    unfold Covers at hin
    rw [hbase] at hin
    rw [hfs] at ha
    exact absurd hin (hclear a ha)
  have hi : (st'.fillAbs base pages (fun _ => 0)).lfd i = st.lfd i := by
    rw [LxState.lfd_fillAbs, hfd]
  have hbytes := hsame.fileBytes hfused
  rw [fdGet_val hle (by rw [hi]; exact hused)]
  dsimp only
  rw [hi, hdir, if_neg (by decide), h.len, ← hbytes]
  apply getData_fileBytes
  rw [hsame.fdata]
  exact h.data

end Read

section Open

variable {st : LxState}

/--
A call that hands out descriptor `i` for `path`, or one that fails.
-/
def Hands (i : Fin linuxMaxFd) (used : Bool) (path : Bytes) (r : Nat × LxState) : Prop :=
  (r.1 = i.val ∧ (r.2.lfd i).used = used ∧ (r.2.lfd i).path = path.take 255)
    ∨ 2 ^ 32 - 28 ≤ r.1

theorem Hands.failed {i : Fin linuxMaxFd} {used : Bool} {path : Bytes} {e : Nat} {st' : LxState}
    (he : e ≤ 28)
    : Hands i used path (lxErr e, st') := by
  right
  show 2 ^ 32 - 28 ≤ 2 ^ 32 - e
  omega

theorem openFile_hands {i : Fin linuxMaxFd} {path : Bytes} {flags : UInt32} {f : LinuxFd}
    : Hands i f.used path (i.val, openFile (st.setFd i f) i path flags) := by
  left
  refine ⟨rfl, ?_, ?_⟩
  . unfold openFile
    simp only [LxState.lfd_setFd, ↓reduceIte]
    split <;> split <;> rfl
  . unfold openFile
    simp only [LxState.lfd_setFd, ↓reduceIte]
    split <;> split <;> rfl

theorem openPath_hands (st : LxState) (i : Fin linuxMaxFd) (path : Bytes) (flags : UInt32)
    : Hands i (st.lfd i).used path (openPath st i path flags) := by
  unfold openPath
  split
  . unfold openDir
    dsimp only
    split
    . exact .failed (by decide)
    . left
      simp
  . split
    . unfold openNew
      split
      . exact .failed (by decide)
      . split
        . exact .failed (by decide)
        . dsimp only
          split
          . split <;> exact .failed (by decide)
          . left
            simp
    . split
      . unfold openWrite
        dsimp only
        split
        . exact .failed (by decide)
        . split
          . exact .failed (by decide)
          . simp only [LxState.lfd_putData]
            exact openFile_hands (f := { st.lfd i with len := _ })
      . unfold openRead
        dsimp only
        split
        . exact openFile_hands (f := { st.lfd i with data := _, len := _, zeroCopy := true })
        . exact openFile_hands (f := { st.lfd i with data := _, len := _, zeroCopy := true })
        . split
          . exact .failed (by decide)
          . exact openFile_hands (f := { st.lfd i with data := _, len := _, zeroCopy := true })

theorem sysOpen_handed {path : Bytes} {flags : UInt32} {i : Fin linuxMaxFd}
    (h : (sysOpen st path flags).1 = i.val)
    : fdFree st = some i ∧ lxnorm st.fs path ≠ [] ∧ ((sysOpen st path flags).2.lfd i).used
        ∧ ((sysOpen st path flags).2.lfd i).path = (lxnorm st.fs path).take 255 := by
  have hlt := i.isLt
  have hmax : linuxMaxFd = 6 := rfl
  have herr : ∀ {e}, e ≤ 28 → lxErr e ≠ i.val := by
    intro e he
    unfold lxErr
    omega
  unfold sysOpen at h ⊢
  split at h
  . exact absurd h (herr (by decide))
  . next hpath =>
    rw [if_neg hpath]
    dsimp only at h ⊢
    split at h
    . exact absurd h (herr (by decide))
    . next k hfree =>
      have hgiven : ∀ {st' : LxState} {f : LinuxFd}, f.used = true →
          (openPath (st'.setFd k f) k (lxnorm st.fs path) flags).1 = i.val →
          fdFree st = some i ∧ lxnorm st.fs path ≠ []
            ∧ ((openPath (st'.setFd k f) k (lxnorm st.fs path) flags).2.lfd i).used
            ∧ ((openPath (st'.setFd k f) k (lxnorm st.fs path) flags).2.lfd i).path
                = (lxnorm st.fs path).take 255 := by
        intro st' f hf hres
        obtain ⟨hk, hused, htake⟩ | herr' :=
          openPath_hands (st'.setFd k f) k (lxnorm st.fs path) flags
        . have hki : k = i := Fin.ext (hk.symm.trans hres)
          rw [← hki]
          refine ⟨hfree, fun hnil => hpath (.inr hnil), ?_, htake⟩
          rw [hused]
          simpa using hf
        . omega
      split at h
      . next hwrite =>
        rw [if_pos hwrite]
        split at h
        . exact absurd h (herr (by decide))
        . exact hgiven rfl h
      . next hread =>
        rw [if_neg hread]
        exact hgiven rfl h

end Open

theorem fsWriteFile_congr {s : FsState} {p q data : Bytes} (hp : p ≠ []) (hq : q ≠ [])
    (h : absPath s.cwd.str p = absPath s.cwd.str q)
    : fsWriteFile s p data = fsWriteFile s q data := by
  have hcreate : ∀ e, fsCreateFile { s with fsErrno := e } p
      = fsCreateFile { s with fsErrno := e } q := by
    intro e
    unfold fsCreateFile parentExists
    dsimp only
    rw [if_neg hp, if_neg hq, h]
  unfold fsWriteFile
  dsimp only
  rw [h, hcreate]

theorem descriptor_denotes (st st' : LxState) (path : CStr) (flags : UInt32) (i : Fin linuxMaxFd)
    (hopen : (sysOpen st path flags).1 = i.val)
    (hfile : ((sysOpen st path flags).2.lfd i).isDir = false)
    (hrun : LxRun (fun _ c => ¬c.Gives i) (sysOpen st path flags).2 st')
    (hpath : absPath st'.fs.cwd.str ((lxnorm st.fs path).take 255)
      = absPath st.fs.cwd.str (lxnorm st.fs path))
    : (∀ j, fileIndex st'.fs (absPath st.fs.cwd.str (lxnorm st.fs path)) = some j →
          UpToDate st' i j → ReadsAlike st' i (st'.fs.fileBytes j))
        ∧ ∀ p, p ≠ [] → absPath st'.fs.cwd.str p = absPath st.fs.cwd.str (lxnorm st.fs path) →
            (fdFlush st' i).fs
              = if (st'.lfd i).dirty ∧ (st'.lfd i).writable ∧ ¬(st'.lfd i).zeroCopy then
                  (fsWriteFile st'.fs p (st'.getData (st'.lfd i).data 0 (st'.lfd i).len)).2
                else
                  st'.fs := by
  obtain ⟨hfree, hnorm, hused, hgiven⟩ := sysOpen_handed hopen
  have hle := (fdFree_some hfree).1
  have hsame := run_same_entry hused hrun
  have hused' : (st'.lfd i).used := hsame.used.trans hused
  have hdir : (st'.lfd i).isDir = false := hsame.isDir.trans hfile
  have hname : (st'.lfd i).path = (lxnorm st.fs path).take 255 := hsame.path.trans hgiven
  have hne : (st'.lfd i).path ≠ [] := by
    rw [hname]
    simpa using hnorm
  constructor
  . intro j hj hup
    have hnamed : fileIndex st'.fs (absPath st'.fs.cwd.str (st'.lfd i).path) = some j := by
      rw [hname, hpath]
      exact hj
    constructor
    . intro count off hoff
      exact readAt_bytes hle hused' hdir hnamed hne hup count hoff
    . intro count off
      exact sysPread_bytes hle hused' hdir hup count off
    . intro fixed addr len off base st'' hlen hplace hclear
      exact sysMmap_bytes hle hused' hdir (fileIndex_eq_some hj).1 hup hlen hplace hclear
  . intro p hp hpx
    have hwrite : ∀ data, fsWriteFile st'.fs (st'.lfd i).path data = fsWriteFile st'.fs p data := by
      intro data
      apply fsWriteFile_congr hne hp
      rw [hname, hpath, hpx]
    unfold fdFlush
    dsimp only
    split
    . rw [← hwrite]
      show (fsWriteFile (st'.touch _ _ _).fs _ _).2 = _
      rw [fs_touch]
    . rfl

section Example

/-!
`/a` holds one byte and is opened as `a`. Another file is then opened; or the program goes to `/d`.
-/

theorem plainPath_noNul : (0 : Byte) ∉ ([97] : Bytes) := by decide

def plainPath : CStr :=
  ⟨[97], plainPath_noNul⟩

def dirPath : CStr :=
  ⟨[slash, 100], by decide⟩

def notedDir : LxState :=
  (LxState.fresh (fsCreateDirectory noted dirPath).2).boot

def plainOpen : LxState :=
  (sysOpen notedDir plainPath 0).2

def copyOpen : LxState :=
  (lxStep plainOpen openCopy).2

def awayOpen : LxState :=
  (lxStep plainOpen (.chdir dirPath)).2

end Example

theorem descriptor_denotes_plain
    : readAt copyOpen 3 1 0 = [1] ∧ (sysPread copyOpen 3 1 0).1.bytes = [1] := by
  have hrun : LxRun (fun _ c => ¬c.Gives ⟨3, by decide⟩) plainOpen copyOpen :=
    Run.call .refl (c := openCopy) rfl id
  have hdenotes := (descriptor_denotes notedDir copyOpen plainPath 0 ⟨3, by decide⟩ (by decide +kernel)
    (by decide +kernel) hrun (by decide +kernel)).1 ⟨0, by decide⟩ (by decide +kernel)
    ⟨by decide +kernel, by decide +kernel, by decide +kernel⟩
  have hbytes : slice (copyOpen.fs.fileBytes ⟨0, by decide⟩) 0 1 = [1] := by decide +kernel
  exact ⟨(hdenotes.read 1 0 (by decide)).trans hbytes, (hdenotes.pread 1 0).trans hbytes⟩

theorem descriptor_denotes_away
    : ¬∀ (st st' : LxState) (path : CStr) (flags : UInt32) (i : Fin linuxMaxFd),
        (sysOpen st path flags).1 = i.val → ((sysOpen st path flags).2.lfd i).isDir = false →
        LxRun (fun _ c => ¬c.Gives i) (sysOpen st path flags).2 st' →
        ∀ j, fileIndex st'.fs (absPath st.fs.cwd.str (lxnorm st.fs path)) = some j →
          ReadsAlike st' i (st'.fs.fileBytes j) := by
  intro h
  have hrun : LxRun (fun _ c => ¬c.Gives ⟨3, by decide⟩) plainOpen awayOpen :=
    Run.call .refl (c := LxCall.chdir dirPath) rfl id
  have hread := (h notedDir awayOpen plainPath 0 ⟨3, by decide⟩ (by decide +kernel)
    (by decide +kernel) hrun ⟨0, by decide⟩ (by decide +kernel)).read 1 0 (by decide)
  revert hread
  decide +kernel

end TanjaOS
