import TanjaOS.Vi.Buffer
import TanjaOS.Fs.Atomic
import TanjaOS.Fs.HomeTree
import TanjaOS.Fs.ReadFile
import TanjaOS.Store.Size

/-!
Opening a file in the editor and saving it.
-/

open Lib
open Lib.Tiling

namespace TanjaOS

/--
The variables of the editor that opening and saving work with. `gFile` is a C string.
-/
structure Vi where
  eb : EditorBuffer
  gFile : Bytes
  gPos : Int
  gScroll : Int
  gModified : Bool
  undoCnt : Nat
  undoHead : Nat
  redoCnt : Nat
  redoHead : Nat
  marks : Fin 27 → Int
  viMsg : Option String

namespace Vi

def clampMarks (v : Vi) : Vi :=
  { v with marks := fun i => if v.eb.len < v.marks i then v.eb.len else v.marks i }

def writeFile (v : Vi) (s : FsState) (name : Bytes) : Int × Vi × FsState :=
  let savebuf := v.eb.flatten
  let (rc, s) := fsWriteFile s name (savebuf.take (v.eb.len % 2 ^ 32).toNat)
  if rc ≠ 0 then
    (0, { v with viMsg := some "write error: file too large or filesystem full" }, s)
  else
    (1, { v with gModified := if name = v.gFile then false else v.gModified }, s)

def loadFile (v : Vi) (s : FsState) (name : Bytes) (force : Bool) : Int × Vi × FsState :=
  if v.gModified ∧ ¬force then
    (0, { v with viMsg := some "No write since last change (use :e!)" }, s)
  else if ¬fsFileExists s name then
    let (rc, s) := fsCreateFile s name
    if rc ≠ 0 then
      (0, { v with viMsg := some "no such directory" }, s)
    else
      fill v s [] 0
  else
    let r := fsReadFilePrefix s name maxText
    if r.rc ≠ 0 then
      (0, { v with viMsg := some "cannot read file" }, r.state)
    else
      fill v r.state r.buffer (r.size.getD 0)
where
  fill (v : Vi) (s : FsState) (savebuf : Bytes) (size : Nat) : Int × Vi × FsState :=
    if maxText - 1 < size then
      (0, { v with viMsg := some "file too large" }, s)
    else
      let v := { v with
        eb := v.eb.load (savebuf.take size)
        gFile := name.take (fsPathCap - 1)
        gPos := 0
        gScroll := 0
        gModified := false
        undoCnt := 0
        undoHead := 0
        redoCnt := 0
        redoHead := 0 }
      (1, v.clampMarks, s)

end Vi

/--
What is in the file `x`, nothing if there is none.
-/
def FsState.bytesOf (s : FsState) (x : Bytes) : Bytes :=
  (s.files x).elim [] FileView.bytes

/--
If `name` can be opened, all of it is in the buffer, saving it at once leaves it as it is, and after
any edits it is saved with them, also when other calls have been made in between.
-/
structure Preserves (s₀ s : FsState) (v : Vi) (name : CStr) (force : Bool) : Prop where
  whole : (v.loadFile s name force).1 ≠ 0 →
    (v.loadFile s name force).2.1.eb.text = s.bytesOf (absPath s.cwd.str name)
  kept : (v.loadFile s name force).1 ≠ 0 →
    (((v.loadFile s name force).2.1.writeFile (v.loadFile s name force).2.2 name).2.2.files
      (absPath s.cwd.str name)).map FileView.bytes = some (s.bytesOf (absPath s.cwd.str name))
  edited : (v.loadFile s name force).1 ≠ 0 → ∀ y,
    Run EditOp.Step (fun x op => op.Fits x.2)
      ((v.loadFile s name force).2.1.eb, s.bytesOf (absPath s.cwd.str name)) y →
    ∀ t uid, FsRun (fun s c => c.NoWrap s) (fsInit s₀) t →
      ({ (v.loadFile s name force).2.1 with eb := y.1 }.writeFile { t with fsCurUid := uid } name).1 ≠ 0 →
      (({ (v.loadFile s name force).2.1 with eb := y.1 }.writeFile { t with fsCurUid := uid }
        name).2.2.files (absPath t.cwd.str name)).map FileView.bytes = some y.2

/--
The file is opened, but it is longer than the buffer.
-/
def OpensCut (s : FsState) (v : Vi) (name : Bytes) (force : Bool) : Prop :=
  ¬(v.gModified ∧ ¬force) ∧ name ≠ []
    ∧ ∃ i, fileIndex s (absPath s.cwd.str name) = some i
      ∧ permAllows s (s.fmode i) (s.fowner i) 0o400 ∧ maxText - 1 < s.fsize i

section Load

variable {s : FsState} {v : Vi} {name : CStr} {force : Bool}

theorem fill_rc {n : Bytes} {savebuf : Bytes} {size : Nat}
    : (Vi.loadFile.fill n v s savebuf size).1 ≠ 0 ↔ size ≤ maxText - 1 := by
  unfold Vi.loadFile.fill
  split
  . next hlarge =>
    simp only [ne_eq, not_true_eq_false, false_iff]
    omega
  . next hfits =>
    simp only [ne_eq, one_ne_zero, not_false_eq_true, true_iff]
    omega

theorem fill_loaded {n : Bytes} {savebuf : Bytes} {size : Nat} (h : size ≤ maxText - 1)
    : (Vi.loadFile.fill n v s savebuf size).2.1.eb = v.eb.load (savebuf.take size)
        ∧ (Vi.loadFile.fill n v s savebuf size).2.2 = s := by
  unfold Vi.loadFile.fill
  rw [if_neg (by omega)]
  exact ⟨rfl, rfl⟩

structure FileLoaded (s : FsState) (v v' : Vi) (s' : FsState) (x : Bytes) : Prop where
  eb : v'.eb = v.eb.load ((s.bytesOf x).take (maxText - 1))
  files : (s'.files x).map FileView.bytes = some (s.bytesOf x)
  cwd : s'.cwd = s.cwd
  inv : ContentInv s'

theorem ContentInv.errno (h : ContentInv s) (e : Nat) : ContentInv { s with fsErrno := e } where
  names := h.names.congr ⟨rfl, rfl, rfl, rfl, rfl, rfl⟩
  inv := by
    obtain ⟨bs, hinv⟩ := h.inv
    exact ⟨bs, hinv.pool, hinv.held, hinv.distinct⟩
  sizes := h.sizes

theorem loadFile_loaded (h : ContentInv s) (hrc : (v.loadFile s name force).1 ≠ 0)
    : FileLoaded s v (v.loadFile s name force).2.1 (v.loadFile s name force).2.2
        (absPath s.cwd.str name) := by
  unfold Vi.loadFile at hrc ⊢
  split
  . simp_all
  . next hmodified =>
    rw [if_neg hmodified] at hrc
    split
    . next hmissing =>
      rw [if_pos hmissing] at hrc
      dsimp only at hrc ⊢
      split
      . simp_all
      . next hcreate =>
        rw [if_neg hcreate] at hrc
        simp only [ne_eq, Decidable.not_not] at hcreate
        have hname : name.val ≠ [] := by
          intro hnil
          unfold fsCreateFile at hcreate
          simp [hnil] at hcreate
        have hnone : fileIndex s (absPath s.cwd.str name) = none := by
          unfold fsFileExists at hmissing
          simpa [hname] using hmissing
        obtain ⟨heb, hstate⟩ := @fill_loaded (fsCreateFile s name).2 v name [] 0 (Nat.zero_le _)
        obtain ⟨i, hi, hnew⟩ := h.made hnone hcreate
        have hempty : s.bytesOf (absPath s.cwd.str name) = [] := by
          unfold FsState.bytesOf
          rw [hnew.absent]
          rfl
        refine ⟨?_, ?_, ?_, ?_⟩
        . rw [heb, hempty]
          rfl
        . rw [hstate, hempty]
          unfold FsState.files
          rw [hi]
          simp [FsState.view, FsState.fileBytes, hnew.fdata]
        . rw [hstate]
          exact cwd_fsCreateFile name
        . rw [hstate]
          exact ⟨h.names.prims (fsCreateFile_prims (g := Grant.any) name (fun _ => trivial)),
            hnew.target.inv, hnew.target.sizes⟩
    . next hexists =>
      rw [if_neg hexists] at hrc
      have hidx : ∃ i, fileIndex s (absPath s.cwd.str name) = some i := by
        unfold fsFileExists at hexists
        simp only [ne_eq, Bool.decide_and, Bool.and_eq_true, decide_eq_true_eq, Decidable.not_not,
          Bool.decide_eq_true] at hexists
        exact Option.isSome_iff_exists.mp hexists.2
      obtain ⟨i, hi⟩ := hidx
      have hi' : fileIndex { s with fsErrno := 0 } (absPath s.cwd.str name) = some i := hi
      dsimp only at hrc ⊢
      split
      . simp_all
      . next hread =>
        rw [if_neg hread] at hrc
        have hbytes : s.bytesOf (absPath s.cwd.str name) = s.fileBytes i := by
          unfold FsState.bytesOf FsState.files
          rw [hi]
          rfl
        have hlen := DataInv.length_fileBytes (h.sizes i).2
        have hperm : permAllows s (s.fmode i) (s.fowner i) 0o400 := by
          by_contra hdenied
          exact hread (fsReadFilePrefix_denied hi (by decide) hdenied)
        have hbuffer := @fsReadFilePrefix_readable s name i maxText hi (h.sizes i).2 (by decide) hperm
        rw [hbuffer]
        dsimp only [Option.getD_some]
        obtain ⟨heb, hstate⟩ := @fill_loaded { s with fsErrno := 0 } v name
          ((s.fileBytes i).take (maxText - 1) ++ [0]) (min (s.fsize i) (maxText - 1)) (by omega)
        have hsize : min (s.fsize i) (maxText - 1) = ((s.fileBytes i).take (maxText - 1)).length := by
          rw [List.length_take, hlen, Nat.min_comm]
        refine ⟨?_, ?_, ?_, ?_⟩
        . rw [heb, hbytes, hsize, List.take_left]
        . rw [hstate, hbytes]
          change (s.files _).map _ = _
          unfold FsState.files
          rw [hi]
          rfl
        . rw [hstate]
        . rw [hstate]
          exact h.errno 0

theorem loadFile_opensCut (hcut : OpensCut s v name force)
    : (v.loadFile s name force).1 ≠ 0 := by
  obtain ⟨hmodified, hname, i, hi, hperm, _⟩ := hcut
  have hexists : ¬¬fsFileExists s name := by
    unfold fsFileExists
    simp [hname, hi]
  unfold Vi.loadFile
  rw [if_neg hmodified, if_neg hexists]
  dsimp only
  have hread : (fsReadFilePrefix s name maxText).rc = 0
      ∧ (fsReadFilePrefix s name maxText).size.getD 0 ≤ maxText - 1 := by
    have hidx' : fileIndex { s with fsErrno := 0 } (absPath s.cwd.str name) = some i := hi
    have hperm' : permAllows { s with fsErrno := 0 } (s.fmode i) (s.fowner i) 0o400 := hperm
    unfold fsReadFilePrefix
    dsimp only
    rw [if_neg (by decide), hidx']
    dsimp only
    rw [if_pos hperm']
    exact ⟨rfl, Nat.min_le_right _ _⟩
  rw [if_neg (by rw [hread.1]; decide), fill_rc]
  exact hread.2

theorem length_bytesOf_le (h : ContentInv s) (hcut : ¬OpensCut s v name force)
    (hrc : (v.loadFile s name force).1 ≠ 0)
    : (s.bytesOf (absPath s.cwd.str name)).length ≤ maxText - 1 := by
  cases hidx : fileIndex s (absPath s.cwd.str name) with
  | none =>
    unfold FsState.bytesOf FsState.files
    rw [hidx]
    exact Nat.zero_le _
  | some i =>
    by_contra hlarge
    have hbytes : (s.bytesOf (absPath s.cwd.str name)).length = s.fsize i := by
      unfold FsState.bytesOf FsState.files
      rw [hidx]
      exact DataInv.length_fileBytes (h.sizes i).2
    rw [hbytes] at hlarge
    apply hcut
    unfold Vi.loadFile at hrc
    split at hrc
    . contradiction
    . next hmodified =>
      split at hrc
      . next hmissing =>
        dsimp only at hrc
        split at hrc
        . contradiction
        . next hcreate =>
          -- `fs_create_file` has not made a file that is there
          have hname : name.val = [] := by
            unfold fsFileExists at hmissing
            simpa [hidx] using hmissing
          unfold fsCreateFile at hcreate
          simp [hname] at hcreate
      . next hexists =>
        dsimp only at hrc
        split at hrc
        . contradiction
        . next hread =>
          refine ⟨hmodified, ?_, i, hidx, ?_, by omega⟩
          . intro hname
            unfold fsFileExists at hexists
            simp [hname] at hexists
          . by_contra hdenied
            exact hread (fsReadFilePrefix_denied hidx (by decide) hdenied)

end Load

section Write

variable {s : FsState} {v : Vi} {name : CStr} {l : Bytes}

theorem savebuf_eq (hinv : GapInv v.eb) (htext : v.eb.text = l)
    : v.eb.flatten.take (v.eb.len % 2 ^ 32).toNat = l := by
  have hlen := EditorBuffer.length_text hinv
  rw [EditorBuffer.unsigned_len hinv, EditorBuffer.flatten_eq, ← hlen, Int.toNat_natCast,
    List.take_left, htext]

theorem writeFile_eq (hinv : GapInv v.eb) (htext : v.eb.text = l)
    : (v.writeFile s name).2.2 = (fsWriteFile s name l).2
        ∧ ((v.writeFile s name).1 ≠ 0 ↔ (fsWriteFile s name l).1 = 0) := by
  unfold Vi.writeFile
  dsimp only
  rw [savebuf_eq hinv htext]
  split
  . next hfail => simp [hfail]
  . next hdone => simpa using hdone

theorem writeFile_saved (h : ContentInv s) (hinv : GapInv v.eb) (htext : v.eb.text = l)
    (hrc : (v.writeFile s name).1 ≠ 0)
    : ((v.writeFile s name).2.2.files (absPath s.cwd.str name)).map FileView.bytes = some l := by
  obtain ⟨hstate, hdone⟩ := @writeFile_eq s v name l hinv htext
  rw [hstate]
  exact (fsWriteFile_replaced h (hdone.mp hrc)).content

theorem writeFile_same (h : ContentInv s) (hinv : GapInv v.eb) (htext : v.eb.text = l)
    (hfile : (s.files (absPath s.cwd.str name)).map FileView.bytes = some l)
    : ((v.writeFile s name).2.2.files (absPath s.cwd.str name)).map FileView.bytes = some l := by
  obtain ⟨hstate, hdone⟩ := @writeFile_eq s v name l hinv htext
  by_cases hrc : (fsWriteFile s name l).1 = 0
  . exact writeFile_saved h hinv htext (hdone.mpr hrc)
  . have hempty : ¬EmptyFull s name l := by
      rintro ⟨i, hidx, _, hsize, _, hroom⟩
      have hbytes : s.fileBytes i = l := by
        unfold FsState.files at hfile
        rw [hidx] at hfile
        simpa [FsState.view] using hfile
      have hlen := DataInv.length_fileBytes (h.sizes i).2
      rw [hbytes, hsize] at hlen
      rw [hlen] at hroom
      obtain hmax | ⟨hne, _⟩ := hroom
      . simp at hmax
      . simp at hne
    rw [hstate, (fsWriteFile_atomic_iff name l h).mpr hempty hrc]
    exact hfile

end Write

theorem preserves_iff {s₀ s : FsState} {bytes : UInt32} {v : Vi} {name : CStr} {force : Bool}
    (hpool : s₀.fpoolBytes = fsSetPool bytes) (h : ContentInv s)
    : Preserves s₀ s v name force ↔ ¬OpensCut s v name force := by
  constructor
  . intro hpreserves hcut
    have hrc := loadFile_opensCut hcut
    have hloaded := loadFile_loaded h hrc
    have hwhole := hpreserves.whole hrc
    obtain ⟨_, _, i, hidx, _, hlarge⟩ := hcut
    have hbytes : (s.bytesOf (absPath s.cwd.str name)).length = s.fsize i := by
      unfold FsState.bytesOf FsState.files
      rw [hidx]
      exact DataInv.length_fileBytes (h.sizes i).2
    have hcap : ((s.bytesOf (absPath s.cwd.str name)).take (maxText - 1)).length ≤ maxText - 1 := by
      rw [List.length_take]
      exact Nat.min_le_left _ _
    rw [hloaded.eb, (EditorBuffer.load_text v.eb hcap).2] at hwhole
    have := congrArg List.length hwhole
    rw [List.length_take] at this
    omega
  . intro hcut
    have htext : (v.loadFile s name force).1 ≠ 0 →
        GapInv (v.loadFile s name force).2.1.eb
          ∧ (v.loadFile s name force).2.1.eb.text = s.bytesOf (absPath s.cwd.str name) := by
      intro hrc
      have hlen := length_bytesOf_le h hcut hrc
      rw [(loadFile_loaded h hrc).eb, List.take_of_length_le hlen]
      exact EditorBuffer.load_text v.eb hlen
    refine ⟨fun hrc => (htext hrc).2, ?_, ?_⟩
    . intro hrc
      obtain ⟨heb, hfiles, hcwd, hinv⟩ := loadFile_loaded h hrc
      rw [← hcwd] at hfiles ⊢
      have hsame := @writeFile_same _ _ name _ hinv (htext hrc).1 rfl
      rw [(htext hrc).2, ← hcwd] at hsame
      exact hsame hfiles
    . intro hrc y hrun t uid ht hwrite
      obtain ⟨hinv, hy⟩ := EditOp.run_text (htext hrc) hrun
      exact @writeFile_saved { t with fsCurUid := uid } _ name y.2 (ContentInv.run hpool ht uid) hinv hy
        hwrite

/--
Any file of any state that a run without a wrapped write leads to, opened by any user.
-/
theorem vi_preserves (s₀ s : FsState) (bytes : UInt32) (uid : Int32) (v : Vi) (name : CStr)
    (force : Bool) (hpool : s₀.fpoolBytes = fsSetPool bytes)
    (hrun : FsRun (fun s c => c.NoWrap s) (fsInit s₀) s)
    : Preserves s₀ { s with fsCurUid := uid } v name force
      ↔ ¬OpensCut { s with fsCurUid := uid } v name force :=
  preserves_iff hpool (ContentInv.run hpool hrun uid)

section Example

/-!
A pool of 1 MiB, and a file `/a` that is one byte longer than the buffer.
-/

def blankVi : Vi where
  eb := blankBuffer
  gFile := []
  gPos := 0
  gScroll := 0
  gModified := false
  undoCnt := 0
  undoHead := 0
  redoCnt := 0
  redoHead := 0
  marks _ := 0
  viMsg := none

def overSize : UInt32 := 524289

def overMade : FsState :=
  (fsCreateFile { fsInit (.zeroed 1048576) with fsCurUid := 0 } notePath).2

def overFile : FsState :=
  (fdataResize overMade ⟨0, maxF_pos⟩ overSize.toNat).2

theorem overFile_call
    : fsPreallocFile { fsInit (.zeroed 1048576) with fsCurUid := 0 } notePath overSize.toNat
        = (0, overFile) := by
  apply fsPreallocFile_whole
  . decide
  . decide
  . decide
  . decide +kernel
  . exact Prod.ext (by decide +kernel) rfl
  . decide +kernel
  . decide +kernel
  . decide +kernel
  . decide +kernel

theorem overFile_run {ok : FsState → FsCall → Prop} (hok : ∀ s c, c.NoWrap s → ok s c)
    : FsRun ok (fsInit (.zeroed 1048576)) overFile := by
  have hprealloc : FsCall.Step ⟨0, .preallocFile notePath overSize⟩ (fsInit (.zeroed 1048576))
      overFile := by
    refine ⟨0, 0, ?_⟩
    exact congrArg some overFile_call
  exact Run.call .refl hprealloc (hok _ _ trivial)

end Example

theorem vi_preserves_noted : Preserves (.zeroed 64) { noted with fsCurUid := 0 } blankVi notePath true := by
  apply (vi_preserves (.zeroed 64) noted 64 0 blankVi notePath true (by decide)
    (noted_run (fun _ _ hwrap => hwrap))).mpr
  rintro ⟨_, _, i, hidx, _, hlarge⟩
  have hfirst : fileIndex { noted with fsCurUid := 0 } (absPath noted.cwd.str notePath)
      = some ⟨0, by decide⟩ := by decide +kernel
  rw [hfirst] at hidx
  injection hidx with hidx
  subst hidx
  revert hlarge
  decide +kernel

theorem vi_cuts_file
    : ¬∀ s₀ s bytes uid v name force, s₀.fpoolBytes = fsSetPool bytes → AnyRun (fsInit s₀) s →
        Preserves s₀ { s with fsCurUid := uid } v name force := by
  intro h
  have hpreserves := h (.zeroed 1048576) overFile 1048576 0 blankVi notePath false (by decide)
    (overFile_run (fun _ _ _ => trivial))
  have hinv : ContentInv { overFile with fsCurUid := 0 } :=
    @ContentInv.run (.zeroed 1048576) overFile 1048576 (by decide) (overFile_run (fun _ _ hwrap => hwrap)) 0
  apply (@preserves_iff (.zeroed 1048576) _ 1048576 _ _ _ (by decide) hinv).mp hpreserves
  refine ⟨by decide, by decide, ⟨0, by decide⟩, ?_, ?_, ?_⟩
  . decide +kernel
  . decide +kernel
  . decide +kernel

end TanjaOS
