import TanjaOS.Fs.Delete.Impl
import TanjaOS.Account.Impl

/-!
Modes, owners and home directories: what the account commands ask the filesystem for.
-/

open Lib

namespace TanjaOS

def fsFileExists (s : FsState) (path : Bytes) : Bool :=
  path ≠ [] ∧ (fileIndex s (absPath s.cwd.str path)).isSome

def fsGetMode (s : FsState) (path : Bytes) : Option UInt16 :=
  if path = [] then
    none
  else
    match fileIndex s (absPath s.cwd.str path) with
    | some f => some (s.fmode f)
    | none => (dirIndex s (absPath s.cwd.str path)).map s.dmode

def fsGetOwner (s : FsState) (path : Bytes) : Option Int32 :=
  if path = [] then
    none
  else
    match fileIndex s (absPath s.cwd.str path) with
    | some f => some (s.fowner f)
    | none => (dirIndex s (absPath s.cwd.str path)).map s.downer

/--
`Documents`, `Programs`, `Projects`, `Trash` and `Scripts`
-/
def homeSubdirs : List Bytes :=
  [[68, 111, 99, 117, 109, 101, 110, 116, 115],
    [80, 114, 111, 103, 114, 97, 109, 115],
    [80, 114, 111, 106, 101, 99, 116, 115],
    [84, 114, 97, 115, 104],
    [83, 99, 114, 105, 112, 116, 115]]

def homeSubdirPath (base sub : Bytes) : Bytes :=
  let bl := strlenSafe base
  let bl := if base[bl - 1]? = some slash then bl - 1 else bl
  let p := if base.head? = some slash then base.take bl else slash :: base.take bl
  let p := if p.getLast? = some slash then p else p ++ [slash]
  p ++ sub

/--
Hand `path` over to `uid`, for it alone.
-/
def giveDirectory (s : FsState) (path : Bytes) (uid : Int32) : FsState :=
  (fsChmod (fsChown s path uid).2 path 0o700).2

def makeSubdir (base : Bytes) (uid : Int32) (s : FsState) (sub : Bytes) : FsState :=
  let p := homeSubdirPath base sub
  giveDirectory (if fsDirectoryExists s p then s else (fsCreateDirectory s p).2) p uid

/--
The work of `fs_create_home_tree`, as root.
-/
def makeHomeTree (s : FsState) (base : Bytes) (uid : Int32) : Int × FsState :=
  let (rc, s) := if fsDirectoryExists s base then (0, s) else fsCreateDirectory s base
  if rc ≠ 0 then
    (-1, s)
  else
    (0, giveDirectory (homeSubdirs.foldl (makeSubdir base uid) s) base uid)

def fsCreateHomeTree (s : FsState) (base : Bytes) (uid : Int32) : Int × FsState :=
  let (rc, s') := makeHomeTree { s with fsCurUid := 0 } base uid
  (rc, { s' with fsCurUid := s.fsCurUid })

/--
`fuel` bounds the nested calls of a recursive delete.
-/
def HomeOp.exec (fuel : Nat) (s : FsState) : HomeOp → Option FsState
  | .createHomeTree base uid => some (fsCreateHomeTree s base uid).2
  | .deleteTree path =>
    if fsDirectoryExists s path then
      (fsDeleteDirectoryRecursive fuel s path).map Prod.snd
    else
      some s
  | .reassignUid oldUid newUid => some (fsReassignUid s oldUid newUid).2

def runHomeOps (fuel : Nat) (s : FsState) (ops : List HomeOp) : Option FsState :=
  ops.foldlM (HomeOp.exec fuel) s

section Uid

/-!
No operation changes who the user is.
-/

variable {s : FsState} {path : Bytes}

theorem mayModifyParent_uid (x : Bytes) : (mayModifyParent s x).2.fsCurUid = s.fsCurUid := by
  unfold mayModifyParent
  split
  . rfl
  . split
    . rfl
    . rfl

theorem fsCreateDirectory_uid : (fsCreateDirectory s path).2.fsCurUid = s.fsCurUid := by
  have hmay := mayModifyParent_uid (s := { s with fsErrno := 0 }) (absPath s.cwd.str path)
  unfold fsCreateDirectory
  dsimp only
  repeat (split; rfl)
  split
  . next heq =>
    rw [heq] at hmay
    exact hmay
  . next heq =>
    rw [heq] at hmay
    split
    . exact hmay
    . exact hmay

theorem fsDeleteFile_uid (s : FsState) (path : Bytes)
    : (fsDeleteFile s path).2.fsCurUid = s.fsCurUid := by
  have hmay := mayModifyParent_uid (s := { s with fsErrno := 0 }) (absPath s.cwd.str path)
  unfold fsDeleteFile
  dsimp only
  split
  . rfl
  . split
    . next heq =>
      rw [heq] at hmay
      exact hmay
    . next heq =>
      rw [heq] at hmay
      split
      . exact hmay
      . exact hmay

theorem fsDeleteDirectory_uid : (fsDeleteDirectory s path).2.fsCurUid = s.fsCurUid := by
  have hmay : (if path = [] then (true, { s with fsErrno := 0 })
      else mayModifyParent { s with fsErrno := 0 } (absPath s.cwd.str path)).2.fsCurUid
        = s.fsCurUid := by
    split
    . rfl
    . rw [mayModifyParent_uid]
  unfold fsDeleteDirectory
  dsimp only
  split
  . next heq =>
    rw [heq] at hmay
    exact hmay
  . next heq =>
    rw [heq] at hmay
    repeat (split; exact hmay)
    exact hmay

theorem fsChmod_uid (mode : UInt32) : (fsChmod s path mode).2.fsCurUid = s.fsCurUid := by
  unfold fsChmod
  dsimp only
  repeat (first | rfl | split)

theorem fsChown_uid (uid : Int32) : (fsChown s path uid).2.fsCurUid = s.fsCurUid := by
  unfold fsChown
  dsimp only
  repeat (first | rfl | split)

theorem fsChmodRecursive_uid (mode : UInt32) : (fsChmodRecursive s path mode).2.fsCurUid = s.fsCurUid := by
  unfold fsChmodRecursive
  dsimp only
  split
  . rfl
  . split
    . exact fsChmod_uid mode
    . exact fsChmod_uid mode

theorem fsChownRecursive_uid (uid : Int32) : (fsChownRecursive s path uid).2.fsCurUid = s.fsCurUid := by
  unfold fsChownRecursive
  dsimp only
  split
  . rfl
  . split
    . rfl
    . split
      . exact fsChown_uid uid
      . exact fsChown_uid uid

theorem fsListDirectory_uid (s : FsState) (path : Bytes)
    : (fsListDirectory s path).2.2.fsCurUid = s.fsCurUid := by
  unfold fsListDirectory
  dsimp only
  repeat (first | rfl | split)

theorem deleteEntries_uid {delete : FsState → Bytes → Option (Int × FsState)}
    (hdelete : ∀ {s path rc s'}, delete s path = some (rc, s') → s'.fsCurUid = s.fsCurUid)
    {entries : List Bytes} {s' : FsState} {rc : Int}
    (h : deleteEntries delete path entries s = some (rc, s'))
    : s'.fsCurUid = s.fsCurUid := by
  induction entries generalizing s with
  | nil =>
    simp only [deleteEntries, Option.some.injEq, Prod.mk.injEq] at h
    rw [← h.2]
  | cons entry entries ih =>
    unfold deleteEntries at h
    split at h
    . exact ih h
    . dsimp only at h
      have hone : ∀ rc₁ s₁, (if entry.getLast? = some slash then
            delete s (childPath path entry.dropLast)
          else
            some (fsDeleteFile s (childPath path entry))) = some (rc₁, s₁) →
          s₁.fsCurUid = s.fsCurUid := by
        intro rc₁ s₁ heq
        split at heq
        . exact hdelete heq
        . rw [← fsDeleteFile_uid s (childPath path entry), Option.some.inj heq]
      split at h
      . contradiction
      . next rc₁ s₁ heq =>
        have hs₁ := hone rc₁ s₁ heq
        split at h
        . simp only [Option.some.injEq, Prod.mk.injEq] at h
          rw [← h.2, hs₁]
        . rw [ih h, hs₁]

theorem fsDeleteDirectoryRecursive_uid {fuel : Nat} {s' : FsState} {rc : Int}
    (h : fsDeleteDirectoryRecursive fuel s path = some (rc, s'))
    : s'.fsCurUid = s.fsCurUid := by
  induction fuel generalizing s path rc s' with
  | zero => contradiction
  | succ fuel ih =>
    have hmay : (if path = [] then (true, { s with fsErrno := 0 })
        else mayModifyParent { s with fsErrno := 0 } (absPath s.cwd.str path)).2.fsCurUid
          = s.fsCurUid := by
      split
      . rfl
      . rw [mayModifyParent_uid]
    unfold fsDeleteDirectoryRecursive at h
    dsimp only at h
    split at h
    . next heq =>
      rw [heq] at hmay
      simp only [Option.some.injEq, Prod.mk.injEq] at h
      rw [← h.2]
      exact hmay
    . next s₁ heq =>
      rw [heq] at hmay
      dsimp only at hmay
      have hlist := fsListDirectory_uid s₁ path
      split at h
      . simp only [Option.some.injEq, Prod.mk.injEq] at h
        rw [← h.2, hmay]
      . split at h
        . simp only [Option.some.injEq, Prod.mk.injEq] at h
          rw [← h.2, hmay]
        . split at h
          . simp only [Option.some.injEq, Prod.mk.injEq] at h
            rw [← h.2, hlist, hmay]
          . split at h
            . contradiction
            . next rc₂ s₂ hentries =>
              have hs₂ := deleteEntries_uid ih hentries
              split at h
              . simp only [Option.some.injEq, Prod.mk.injEq] at h
                rw [← h.2, hs₂, hlist, hmay]
              . simp only [Option.some.injEq, Prod.mk.injEq] at h
                rw [← h.2, fsDeleteDirectory_uid, hs₂, hlist, hmay]

theorem HomeOp.exec_uid {fuel : Nat} {op : HomeOp} {s' : FsState} (h : op.exec fuel s = some s')
    : s'.fsCurUid = s.fsCurUid := by
  cases op with
  | createHomeTree base uid =>
    rw [← Option.some.inj h]
    rfl
  | deleteTree path =>
    simp only [HomeOp.exec] at h
    split at h
    . rw [Option.map_eq_some_iff] at h
      obtain ⟨⟨rc, s₁⟩, hdelete, rfl⟩ := h
      exact fsDeleteDirectoryRecursive_uid hdelete
    . rw [← Option.some.inj h]
  | reassignUid oldUid newUid =>
    rw [← Option.some.inj h]
    rfl

theorem runHomeOps_uid {fuel : Nat} {ops : List HomeOp} {s' : FsState}
    (h : runHomeOps fuel s ops = some s')
    : s'.fsCurUid = s.fsCurUid := by
  unfold runHomeOps at h
  induction ops generalizing s with
  | nil =>
    simp only [List.foldlM_nil, Option.pure_def, Option.some.injEq] at h
    rw [← h]
  | cons op ops ih =>
    rw [List.foldlM_cons, Option.bind_eq_bind, Option.bind_eq_some_iff] at h
    obtain ⟨s₁, hop, hrest⟩ := h
    rw [ih hrest, HomeOp.exec_uid hop]

end Uid

end TanjaOS
