import TanjaOS.Fs.Delete.Paths

/-!
What a recursive delete can do to the directories.
-/

open Lib

namespace TanjaOS

open absPath (Normal walk)

theorem zero_not_mem_childPath {path entry : Bytes} (hpath : 0 ∉ path) (hentry : 0 ∉ entry)
    : 0 ∉ childPath path entry := by
  have hpre : 0 ∉ (if path = [slash] then [slash] else path.take (min (strlenSafe path) 255)) := by
    split
    . decide
    . intro h
      exact hpath (List.mem_of_mem_take h)
  have hsep : ∀ pre : Bytes, 0 ∉ pre →
      0 ∉ (if 1 < pre.length ∧ pre.getLast? ≠ some slash ∧ pre.length < 255 then pre ++ [slash]
        else if pre.length = 0 then pre ++ [slash] else pre) := by
    intro pre hpre
    have hadd : 0 ∉ pre ++ [slash] := by
      simp only [List.mem_append, List.mem_singleton, not_or]
      exact ⟨hpre, by decide⟩
    split
    . exact hadd
    . split
      . exact hadd
      . exact hpre
  unfold childPath
  dsimp only
  rw [List.mem_append, not_or]
  refine ⟨hsep _ hpre, ?_⟩
  intro h
  exact hentry (List.mem_of_mem_take h)

structure Deletes (s s' : FsState) : Prop where
  prims : ∀ g : Grant, g.dropDir → g.dropFile → Prims g s s'
  cwd : s'.cwd = s.cwd
  dirs : ∀ x, s'.UsedDir x → s.UsedDir x

namespace Deletes

variable {s t u : FsState}

theorem refl (s : FsState) : Deletes s s :=
  ⟨fun _ _ _ => Relation.ReflTransGen.refl, rfl, fun _ h => h⟩

theorem trans (h : Deletes s t) (h' : Deletes t u) : Deletes s u where
  prims g hdir hfile := (h.prims g hdir hfile).trans (h'.prims g hdir hfile)
  cwd := h'.cwd.trans h.cwd
  dirs x hx := h.dirs x (h'.dirs x hx)

theorem errno (s : FsState) (e : Nat) : Deletes s { s with fsErrno := e } :=
  ⟨fun _ _ _ => Prims.single (.errno e), rfl, fun _ h => h⟩

theorem inv (h : Deletes s t) (hinv : NsInv s) : NsInv t :=
  hinv.prims (h.prims Grant.any trivial trivial)

end Deletes

theorem fsDeleteFile_cases (s : FsState) (path : Bytes)
    : (∃ e, (fsDeleteFile s path).2 = { s with fsErrno := e })
      ∨ ∃ i, s.IsFile i (absPath s.cwd.str path)
        ∧ (fsDeleteFile s path).2 = ({ s with fsErrno := 0 }.dropFile i).freeData i := by
  unfold fsDeleteFile
  dsimp only
  split
  . exact Or.inl ⟨0, rfl⟩
  . obtain hmay | hmay := mayModifyParent_cases { s with fsErrno := 0 } (absPath s.cwd.str path)
    . rw [hmay]
      dsimp only
      split
      . exact Or.inl ⟨0, rfl⟩
      . next i hi => exact Or.inr ⟨i, fileIndex_eq_some hi, rfl⟩
    . rw [hmay]
      exact Or.inl ⟨13, rfl⟩

theorem usedDir_fsDeleteFile (s : FsState) (path x : Bytes)
    : (fsDeleteFile s path).2.UsedDir x ↔ s.UsedDir x := by
  obtain ⟨e, heq⟩ | ⟨i, _, heq⟩ := fsDeleteFile_cases s path
  . rw [heq]
    rfl
  . rw [heq]
    rfl

theorem fsDeleteFile_deletes (s : FsState) (path : CStr) : Deletes s (fsDeleteFile s path).2 := by
  refine ⟨fun _ _ hg => fsDeleteFile_prims path hg, ?_, ?_⟩
  . obtain ⟨e, heq⟩ | ⟨i, _, heq⟩ := fsDeleteFile_cases s path
    . rw [heq]
    . rw [heq]
      rfl
  . intro x hx
    rwa [usedDir_fsDeleteFile] at hx

theorem fsDeleteDirectory_deletes (s : FsState) (path : CStr)
    : Deletes s (fsDeleteDirectory s path).2 := by
  obtain ⟨e, heq, _⟩ | ⟨i, heq, _⟩ := fsDeleteDirectory_cases s path
  . rw [heq]
    exact Deletes.errno s e
  . refine ⟨fun _ hg _ => fsDeleteDirectory_prims path hg, ?_, ?_⟩
    . rw [heq]
      rfl
    . rw [heq]
      rintro x ⟨j, hj⟩
      exact ⟨j, (FsState.isDir_dropDir.mp hj).2⟩

section Loop

variable {delete : FsState → Bytes → Option (Int × FsState)} {path : Bytes}

theorem deleteEntries_rule {P : Bytes → Prop} {I : List Bytes → FsState → Prop} {J : FsState → Prop}
    (hfile : ∀ qs s entry, P entry → I qs s → I qs (fsDeleteFile s (childPath path entry)).2)
    (hdir : ∀ q qs s rc s', P q → I (q :: qs) s →
      delete s (childPath path q) = some (rc, s') → (rc = 0 → I qs s') ∧ (rc ≠ 0 → J s'))
    (hfail : ∀ qs s, I qs s → J s) (hdrop : ∀ e, P e → P e.dropLast)
    {entries : List Bytes} {s s' : FsState} {rc : Int} (hentries : ∀ e ∈ entries, P e)
    (h : I (dirPieces entries) s) (hres : deleteEntries delete path entries s = some (rc, s'))
    : (rc = 0 → I [] s') ∧ (rc ≠ 0 → J s') := by
  induction entries generalizing s with
  | nil =>
    simp only [deleteEntries, Option.some.injEq, Prod.mk.injEq] at hres
    obtain ⟨rfl, rfl⟩ := hres
    exact ⟨fun _ => h, fun hne => absurd rfl hne⟩
  | cons entry entries ih =>
    have hentry := hentries entry (by simp)
    have hentries' : ∀ e ∈ entries, P e := by
      intro e he
      apply hentries
      simp [he]
    rw [deleteEntries] at hres
    split at hres
    . next hnil =>
      subst hnil
      exact ih hentries' h hres
    . by_cases hlast : entry.getLast? = some slash
      . have hpieces : dirPieces (entry :: entries) = entry.dropLast :: dirPieces entries := by
          simp [dirPieces, hlast]
        rw [hpieces] at h
        rw [if_pos hlast] at hres
        dsimp only at hres
        split at hres
        . simp at hres
        . next rc₁ s₁ hcall =>
          have hstep := hdir _ _ _ _ _ (hdrop _ hentry) h hcall
          split at hres
          . next hrc =>
            simp only [Option.some.injEq, Prod.mk.injEq] at hres
            obtain ⟨rfl, rfl⟩ := hres
            exact ⟨fun hzero => absurd hzero (by decide), fun _ => hstep.2 hrc⟩
          . next hrc =>
            simp only [ne_eq, Decidable.not_not] at hrc
            exact ih hentries' (hstep.1 hrc) hres
      . have hpieces : dirPieces (entry :: entries) = dirPieces entries := by
          simp [dirPieces, hlast]
        rw [hpieces] at h
        rw [if_neg hlast] at hres
        dsimp only at hres
        have hstep := hfile _ _ _ hentry h
        split at hres
        . simp only [Option.some.injEq, Prod.mk.injEq] at hres
          obtain ⟨rfl, rfl⟩ := hres
          exact ⟨fun hzero => absurd hzero (by decide), fun _ => hfail _ _ hstep⟩
        . exact ih hentries' hstep hres

end Loop

theorem fsListDirectory_cases (s : FsState) {path : Bytes} (hpath : path ≠ [])
    : ∃ rc e, fsListDirectory s path = (rc, (fsListDirectory s path).2.1, { s with fsErrno := e })
        ∧ (rc = 0 → e = 0
          ∧ (fsListDirectory s path).2.1 = fsListDirectory.lines s (absPath s.cwd.str path)) := by
  unfold fsListDirectory
  dsimp only
  rw [if_neg hpath]
  split
  . exact ⟨_, _, rfl, by simp⟩
  . split
    . split
      . exact ⟨_, _, rfl, fun _ => ⟨rfl, rfl⟩⟩
      . exact ⟨-2, 13, rfl, by simp⟩
    . exact ⟨_, _, rfl, fun _ => ⟨rfl, rfl⟩⟩

theorem fsDeleteDirectoryRecursive_cases {n : Nat} {s s' : FsState} {path : Bytes} {rc : Int}
    (h : fsDeleteDirectoryRecursive (n + 1) s path = some (rc, s'))
    : (rc ≠ 0 ∧ ∃ e, s' = { s with fsErrno := e })
      ∨ (path ≠ [] ∧ fsDirectoryExists s path ∧ ∃ rc₁ s₁,
          deleteEntries (fsDeleteDirectoryRecursive n) path
            (splitEntries (fsListDirectory.lines s (absPath s.cwd.str path)))
            { s with fsErrno := 0 } = some (rc₁, s₁)
          ∧ ((rc₁ ≠ 0 ∧ rc ≠ 0 ∧ s' = s₁)
            ∨ (rc₁ = 0 ∧ s' = (fsDeleteDirectory s₁ path).2
                ∧ (rc = 0 → (fsDeleteDirectory s₁ path).1 = 0)))) := by
  rw [fsDeleteDirectoryRecursive] at h
  dsimp only at h
  by_cases hnil : path = []
  . simp only [hnil, ↓reduceIte, Option.some.injEq, Prod.mk.injEq] at h
    obtain ⟨rfl, rfl⟩ := h
    exact Or.inl ⟨by decide, 0, rfl⟩
  . rw [if_neg hnil] at h
    obtain hmay | hmay := mayModifyParent_cases { s with fsErrno := 0 } (absPath s.cwd.str path)
    . rw [hmay] at h
      dsimp only at h
      rw [if_neg hnil] at h
      split at h
      . simp only [Option.some.injEq, Prod.mk.injEq] at h
        obtain ⟨rfl, rfl⟩ := h
        exact Or.inl ⟨by decide, 0, rfl⟩
      . next hexists =>
        obtain ⟨rc₂, e, hlist, hrc₂⟩ := fsListDirectory_cases { s with fsErrno := 0 } hnil
        rw [hlist] at h
        dsimp only at h
        split at h
        . simp only [Option.some.injEq, Prod.mk.injEq] at h
          obtain ⟨rfl, rfl⟩ := h
          exact Or.inl ⟨by decide, e, rfl⟩
        . next hzero =>
          simp only [ne_eq, Decidable.not_not] at hzero
          obtain ⟨rfl, hbuf⟩ := hrc₂ hzero
          rw [hbuf] at h
          refine Or.inr ⟨hnil, Decidable.not_not.mp hexists, ?_⟩
          split at h
          . simp at h
          . next rc₁ s₁ hloop =>
            refine ⟨rc₁, s₁, hloop, ?_⟩
            split at h
            . next hrc =>
              simp only [Option.some.injEq, Prod.mk.injEq] at h
              obtain ⟨rfl, rfl⟩ := h
              exact Or.inl ⟨hrc, hrc, rfl⟩
            . next hrc =>
              simp only [ne_eq, Decidable.not_not] at hrc
              simp only [Option.some.injEq, Prod.mk.injEq] at h
              obtain ⟨hrc', rfl⟩ := h
              refine Or.inr ⟨hrc, rfl, ?_⟩
              intro h0
              by_contra hne
              rw [if_pos hne] at hrc'
              omega
    . rw [hmay] at h
      simp only [Option.some.injEq, Prod.mk.injEq] at h
      obtain ⟨rfl, rfl⟩ := h
      exact Or.inl ⟨by decide, 13, rfl⟩

theorem zero_not_mem_dropLast {e : Bytes} (h : 0 ∉ e) : 0 ∉ e.dropLast := by
  intro hmem
  exact h (List.mem_of_mem_dropLast hmem)

theorem zero_not_mem_entries (s : FsState) (lp : Bytes)
    : ∀ e ∈ splitEntries (fsListDirectory.lines s lp), 0 ∉ e := by
  intro e he hmem
  exact zero_not_mem_lines s lp (mem_splitEntries he hmem)

theorem deleteEntries_deletes {delete : FsState → Bytes → Option (Int × FsState)}
    {s s₁ : FsState} {path lp : Bytes} {rc : Int}
    (hdel : ∀ t p rc t', 0 ∉ p → delete t p = some (rc, t') → Deletes t t') (hnul : 0 ∉ path)
    (hloop : deleteEntries delete path (splitEntries (fsListDirectory.lines s lp))
      { s with fsErrno := 0 } = some (rc, s₁))
    : Deletes s s₁ := by
  have hrule := deleteEntries_rule (P := fun e => 0 ∉ e) (I := fun _ t => Deletes s t)
    (J := fun t => Deletes s t) ?_ ?_ (fun _ _ ht => ht) (fun _ => zero_not_mem_dropLast)
    (zero_not_mem_entries _ _) (Deletes.errno s 0) hloop
  . by_cases hrc : rc = 0
    . exact hrule.1 hrc
    . exact hrule.2 hrc
  . intro qs t entry hentry ht
    exact ht.trans (fsDeleteFile_deletes t ⟨_, zero_not_mem_childPath hnul hentry⟩)
  . intro q qs t rc₂ t' hq ht hcall
    have := ht.trans (hdel _ _ _ _ (zero_not_mem_childPath hnul hq) hcall)
    exact ⟨fun _ => this, fun _ => this⟩

theorem fsDeleteDirectoryRecursive_deletes {n : Nat} {s s' : FsState} {path : Bytes} {rc : Int}
    (hnul : 0 ∉ path) (h : fsDeleteDirectoryRecursive n s path = some (rc, s'))
    : Deletes s s' := by
  induction n generalizing s s' path rc with
  | zero => simp [fsDeleteDirectoryRecursive] at h
  | succ n ih =>
    obtain ⟨_, e, rfl⟩ | ⟨_, _, rc₁, s₁, hloop, hend⟩ := fsDeleteDirectoryRecursive_cases h
    . exact Deletes.errno s e
    . have hentries : Deletes s s₁ := deleteEntries_deletes (fun _ _ _ _ hp hcall => ih hp hcall)
        hnul hloop
      obtain ⟨_, _, rfl⟩ | ⟨_, rfl, _⟩ := hend
      . exact hentries
      . exact hentries.trans (fsDeleteDirectory_deletes s₁ ⟨path, hnul⟩)

end TanjaOS
