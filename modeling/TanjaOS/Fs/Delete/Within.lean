import TanjaOS.Fs.HomeTree

/-!
A recursive delete by anyone, whatever its listings show: nothing goes but the directory and what is
below it.
-/

open Lib
open Lib.Tiling

namespace TanjaOS

section Lines

variable {s : FsState} {path : Bytes} {cs : List Bytes} {e : Bytes}

theorem listLines_files_lines (lp : Bytes) (names : List Bytes) (buf : Bytes)
    (hlen : ∀ x ∈ names, ∀ c, listChild lp x = some c → c.length ≤ 254)
    : ∃ es : List Bytes, (∀ e ∈ es, e ∈ names.filterMap (listChild lp))
        ∧ listLines lp [newline] names buf = buf ++ es.flatMap (· ++ [newline]) := by
  induction names generalizing buf with
  | nil => exact ⟨[], by simp, by simp [listLines]⟩
  | cons name names ih =>
    have hlen' : ∀ x ∈ names, ∀ c, listChild lp x = some c → c.length ≤ 254 :=
      fun x hx => hlen x (by simp [hx])
    have hskip : ∀ es : List Bytes, (∀ e ∈ es, e ∈ names.filterMap (listChild lp)) →
        ∀ e ∈ es, e ∈ (name :: names).filterMap (listChild lp) := by
      intro es hes e he
      obtain ⟨x, hx, hc⟩ := List.mem_filterMap.mp (hes e he)
      exact List.mem_filterMap.mpr ⟨x, List.mem_cons_of_mem _ hx, hc⟩
    rw [listLines]
    split
    . cases hc : listChild lp name with
      | none =>
        obtain ⟨es, hes, heq⟩ := ih buf hlen'
        exact ⟨es, hskip es hes, heq⟩
      | some c =>
        have hle := hlen name (by simp) c hc
        have hstr : strlenSafe c = c.length := by
          unfold strlenSafe
          omega
        dsimp only
        split
        . obtain ⟨es, hes, heq⟩ := ih buf hlen'
          exact ⟨es, hskip es hes, heq⟩
        . rw [hstr, List.take_length]
          obtain ⟨es, hes, heq⟩ := ih (buf ++ c ++ [newline]) hlen'
          refine ⟨c :: es, ?_, ?_⟩
          . rw [List.forall_mem_cons]
            exact ⟨List.mem_filterMap.mpr ⟨name, by simp, hc⟩, hskip es hes⟩
          . rw [heq]
            simp
    . exact ⟨[], by simp, by simp⟩

theorem Tidy.entries_listed (h : Tidy s path cs)
    : ∀ e ∈ splitEntries (fsListDirectory.lines s (render cs)), IsEntry s (render cs) e := by
  have htext : PathText (render cs) := by
    rw [← h.out]
    exact absPath_text _ _
  have hfiles := filterMap_listChild htext (fun x hx => pathText_of_mem_fileNames h.tree hx)
  obtain ⟨es, hes, heq⟩ := listLines_files_lines (render cs) (fileNames s)
    ((childDirs s (render cs)).flatMap (· ++ [slash, newline])) (length_listChild_le h.tree htext)
  have hmem : ∀ e ∈ (childDirs s (render cs)).map (· ++ [slash]) ++ es, e ∈ entries s (render cs) := by
    intro e he
    rw [hfiles] at hes
    unfold entries
    rw [List.mem_append] at he ⊢
    exact he.imp_right (hes e)
  have hlines : fsListDirectory.lines s (render cs)
      = ((childDirs s (render cs)).map (· ++ [slash]) ++ es).flatMap (· ++ [newline]) := by
    rw [lines_eq h.tree htext, heq, List.flatMap_append, List.flatMap_map]
    congr 1
    apply List.flatMap_congr
    intro c _
    simp
  rw [hlines, splitEntries_lines fun e he => h.entry_line ((mem_entries h.tree).mp (hmem e he))]
  exact fun e he => (mem_entries h.tree).mp (hmem e he)

end Lines

/--
Some names have gone, and nothing has changed but what `P` says.
-/
structure Pruned (P : Bytes → Prop) (s t : FsState) : Prop where
  only : Only P s t
  deletes : Deletes s t
  used : ∀ x, t.Used x → s.Used x

namespace Pruned

variable {P Q : Bytes → Prop} {s t u : FsState}

theorem errno (P : Bytes → Prop) (s : FsState) (e : Nat) : Pruned P s { s with fsErrno := e } :=
  ⟨Only.errno P s e, Deletes.errno s e, fun _ hx => hx⟩

theorem trans (h : Pruned P s t) (h' : Pruned P t u) : Pruned P s u :=
  ⟨h.only.trans h'.only, h.deletes.trans h'.deletes, fun x hx => h.used x (h'.used x hx)⟩

theorem mono (h : Pruned P s t) (himp : ∀ x, P x → Q x) : Pruned Q s t :=
  ⟨h.only.mono himp, h.deletes, h.used⟩

end Pruned

theorem Tidy.pruned {P : Bytes → Prop} {s t : FsState} {path : Bytes} {cs : List Bytes}
    (h : Tidy s path cs) (hpruned : Pruned P s t)
    : Tidy t path cs where
  tree := hpruned.deletes.inv h.tree
  blocks := by
    obtain ⟨bs, hinv⟩ := h.blocks
    exact hinv.prims (g := { Grant.any with wild := False }) (fun hwild => hwild)
      (hpruned.deletes.prims _ trivial trivial)
  nul := h.nul
  proper := h.proper
  walk := by
    rw [hpruned.deletes.cwd]
    exact h.walk
  ne_root := h.ne_root
  names x hx hbelow := h.names x (hpruned.used x hx) hbelow

section Steps

variable {s : FsState} {bs : List Block}

theorem pruned_fsDeleteFile (path : CStr) (hinv : DataInv s bs)
    : Pruned (fun x => x = absPath s.cwd.str path) s (fsDeleteFile s path).2 := by
  have hdel := fsDeleteFile_deletes s path
  have herr : DataInv { s with fsErrno := 0 } bs := ⟨hinv.pool, hinv.held, hinv.distinct⟩
  obtain ⟨e, heq⟩ | ⟨i, hi, heq⟩ := fsDeleteFile_cases s path
  . rw [heq]
    exact .errno _ s e
  . have hdrop : ∀ j x, (({ s with fsErrno := 0 }.dropFile i).freeData i).IsFile j x
        ↔ j ≠ i ∧ s.IsFile j x := fun j x => @FsState.isFile_dropFile { s with fsErrno := 0 } x i j
    obtain ⟨hdropped, hother⟩ := herr.dropFile i
    obtain ⟨_, _, _, _, hother'⟩ := hdropped.freeData i
    rw [heq] at hdel ⊢
    refine ⟨⟨rfl, fun x hx => ?_, fun _ _ => rfl⟩, hdel, ?_⟩
    . have hne : ∀ j, s.IsFile j x → j ≠ i := by
        rintro j hj rfl
        exact hx (hj.2.symm.trans hi.2)
      apply files_congr fun j => (hdrop j x).trans (and_iff_right_of_imp (hne j))
      intro j hj
      have hsame : SameFile s { s with fsErrno := 0 } j := ⟨rfl, rfl, rfl⟩
      have hkept := hsame.trans ((hother j (hne j hj)).trans (hother' j (hne j hj)))
      simp only [FsState.view, hkept.bytes, hkept.fsize]
      rfl
    . rintro x (⟨j, hj⟩ | hdir)
      . exact Or.inl ⟨j, ((hdrop j x).mp hj).2⟩
      . exact Or.inr hdir

theorem pruned_fsDeleteDirectory (path : CStr)
    : Pruned (fun x => x = absPath s.cwd.str path) s (fsDeleteDirectory s path).2 := by
  have hdel := fsDeleteDirectory_deletes s path
  obtain ⟨e, heq, _⟩ | ⟨i, heq, hi, _⟩ := fsDeleteDirectory_cases s path
  . rw [heq]
    exact .errno _ s e
  . have hdrop : ∀ j x, ({ s with fsErrno := 0 }.dropDir i).IsDir j x ↔ j ≠ i ∧ s.IsDir j x :=
      fun j x => @FsState.isDir_dropDir { s with fsErrno := 0 } x i j
    rw [heq] at hdel ⊢
    refine ⟨⟨rfl, fun _ _ => rfl, fun x hx => ?_⟩, hdel, ?_⟩
    . have hne : ∀ j, s.IsDir j x → j ≠ i := by
        rintro j hj rfl
        exact hx (hj.2.symm.trans hi.2)
      exact dirs_congr (fun j => (hdrop j x).trans (and_iff_right_of_imp (hne j))) fun _ _ => ⟨rfl, rfl⟩
    . rintro x (hfile | ⟨j, hj⟩)
      . exact Or.inl hfile
      . exact Or.inr ⟨j, ((hdrop j x).mp hj).2⟩

end Steps

section Calls

variable {s s' : FsState} {path : Bytes} {cs : List Bytes} {rc : Int}

theorem Tidy.pruned_file {e : Bytes} (h : Tidy s path cs) (hkid : Kid path cs e)
    : Pruned (Below cs) s (fsDeleteFile s (childPath path e)).2 := by
  obtain ⟨bs, hinv⟩ := h.blocks
  have hgone := @pruned_fsDeleteFile s bs ⟨slashed path ++ e, h.child_nul hkid.nul⟩ hinv
  have hout : absPath s.cwd.str (slashed path ++ e) = sepd cs ++ e := by
    rw [absPath_eq]
    exact (h.child_walk hkid.canon hkid.len).out
  rw [h.child_eq hkid.len]
  apply hgone.mono
  rintro x rfl
  dsimp only
  rw [hout]
  exact Or.inr (List.prefix_append _ _)

theorem Tidy.pruned_entries {delete : FsState → Bytes → Option (Int × FsState)}
    (hdelete : ∀ t p ds rc t', Tidy t p ds → delete t p = some (rc, t') → Pruned (Below ds) t t')
    {es : List Bytes} (h : Tidy s path cs)
    (hes : ∀ e ∈ es, (∃ c, Kid path cs c ∧ e = c ++ [slash]) ∨ Kid path cs e)
    (hrun : deleteEntries delete path es s = some (rc, s'))
    : Pruned (Below cs) s s' := by
  induction es generalizing s with
  | nil =>
    simp only [deleteEntries, Option.some.injEq, Prod.mk.injEq] at hrun
    rw [← hrun.2]
    exact Pruned.errno _ s s.fsErrno
  | cons e es ih =>
    rw [List.forall_mem_cons] at hes
    rw [deleteEntries] at hrun
    split at hrun
    . exact ih h hes.2 hrun
    . have hline : ∀ rc₁ t, (if e.getLast? = some slash then delete s (childPath path e.dropLast)
          else some (fsDeleteFile s (childPath path e))) = some (rc₁, t) → Pruned (Below cs) s t := by
        intro rc₁ t hcall
        obtain ⟨c, hkid, rfl⟩ | hkid := hes.1
        . rw [List.getLast?_append_of_ne_nil _ (by simp), if_pos (by simp), List.dropLast_concat,
            h.child_eq hkid.len] at hcall
          exact (hdelete _ _ _ _ _ (h.child hkid) hcall).mono fun x hx => hx.of_kid
        . have hcomp := hkid.canon.comps e (by simp)
          rw [if_neg (fun hlast => hcomp.no_slash (List.mem_of_getLast? hlast))] at hcall
          have hgone := h.pruned_file hkid
          rw [Option.some.inj hcall] at hgone
          exact hgone
      dsimp only at hrun
      split at hrun
      . contradiction
      . next rc₁ t hcall =>
        have hstep := hline rc₁ t hcall
        split at hrun
        . simp only [Option.some.injEq, Prod.mk.injEq] at hrun
          rw [← hrun.2]
          exact hstep
        . exact hstep.trans (ih (h.pruned hstep) hes.2 hrun)

theorem Tidy.pruned_delete {n : Nat} (h : Tidy s path cs)
    (hrun : fsDeleteDirectoryRecursive n s path = some (rc, s'))
    : Pruned (Below cs) s s' := by
  induction n generalizing s s' path cs rc with
  | zero => contradiction
  | succ n ih =>
    obtain ⟨_, e, rfl⟩ | ⟨_, _, rc₁, s₁, hloop, hend⟩ := fsDeleteDirectoryRecursive_cases hrun
    . exact Pruned.errno _ s e
    . rw [h.out] at hloop
      have herr := Pruned.errno (Below cs) s 0
      have hentries := (h.pruned herr).pruned_entries (fun t p ds rc t' ht hcall => ih ht hcall)
        (fun e he => h.entry_kid (h.entries_listed e he)) hloop
      have hmid := herr.trans hentries
      obtain ⟨_, _, rfl⟩ | ⟨_, rfl, _⟩ := hend
      . exact hmid
      . have hlast := @pruned_fsDeleteDirectory s₁ ⟨path, h.nul⟩
        refine hmid.trans (hlast.mono ?_)
        rintro x rfl
        left
        dsimp only
        rw [hmid.deletes.cwd, h.out]

end Calls

end TanjaOS
