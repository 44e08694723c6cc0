import TanjaOS.Fs.Delete.Lemmas
import TanjaOS.Fs.Path.Reference

/-!
Which names a recursive delete can reach: those of paths that begin with its own one and go on
without a newline, with 255 bytes at most.
-/

open Lib

namespace TanjaOS

open absPath (walk State)

def FsState.Used (s : FsState) (x : Bytes) : Prop :=
  s.UsedFile x ∨ s.UsedDir x

/--
`x` has a path that can be put together behind `path`.
-/
def Reaches (cwd path x : Bytes) : Prop :=
  ∃ r, newline ∉ r ∧ (slashed path).length + r.length ≤ 255 ∧ x = absPath cwd (slashed path ++ r)

section Grown

/--
`st` comes from an output of `base` and `k` more bytes without a newline, of both some may have been
taken off again.
-/
structure Grown (base : Bytes) (k : Nat) (st : State) : Prop where
  split : ∃ a b, st.out = a ++ b ∧ a <+: base ∧ newline ∉ b
  len : st.out.length ≤ base.length + k

variable {base : Bytes} {k : Nat} {st : State}

theorem Grown.refl (st : State) : Grown st.out 0 st :=
  ⟨⟨st.out, [], by simp, List.prefix_refl _, by simp⟩, Nat.le_refl _⟩

theorem Grown.mono {l : Nat} (h : Grown base k st) (hle : k ≤ l) : Grown base l st := by
  have := h.len
  exact ⟨h.split, by omega⟩

theorem Grown.step {c : Bytes} (h : Grown base k st) (hc : newline ∉ c)
    : Grown base (k + (c.length + 1)) (absPath.step st c) := by
  obtain ⟨a, b, hout, ha, hb⟩ := h.split
  have hlen := h.len
  unfold absPath.step
  split
  . exact h.mono (by omega)
  . split
    . split
      . exact h.mono (by omega)
      . next start starts _ =>
        generalize (if 1 < start then start - 1 else start) = m
        refine ⟨⟨a.take m, b.take (m - a.length), ?_, ?_, ?_⟩, ?_⟩
        . dsimp only
          rw [hout, List.take_append]
        . exact (List.take_prefix _ _).trans ha
        . exact fun hmem => hb (List.mem_of_mem_take hmem)
        . dsimp only
          rw [List.length_take]
          omega
    . split
      . exact h.mono (by omega)
      . have hadd : ∃ sep : Bytes, newline ∉ sep ∧ sep.length ≤ 1
            ∧ (if 1 < strlenSafe st.out ∧ strlenSafe st.out < 255 then st.out ++ [slash] else st.out)
              = st.out ++ sep := by
          split
          . exact ⟨[slash], by decide, by decide, rfl⟩
          . exact ⟨[], by decide, by decide, by simp⟩
        obtain ⟨sep, hsep, hone, heq⟩ := hadd
        dsimp only
        rw [heq]
        generalize 255 - (st.out ++ sep).length = m
        refine ⟨⟨a, b ++ (sep ++ c.take m), ?_, ha, ?_⟩, ?_⟩
        . dsimp only
          rw [hout]
          simp only [List.append_assoc]
        . simp only [List.mem_append, not_or]
          exact ⟨hb, hsep, fun hmem => hc (List.mem_of_mem_take hmem)⟩
        . dsimp only
          rw [List.length_append, List.length_append, List.length_take]
          omega

theorem Grown.steps {cs : List Bytes} (h : Grown base k st) (hcs : ∀ c ∈ cs, newline ∉ c)
    : Grown base (k + cost cs) (cs.foldl absPath.step st) := by
  induction cs generalizing k st with
  | nil => exact h
  | cons c cs ih =>
    have hstep := ih (h.step (hcs c (by simp))) (fun d hd => hcs d (by simp [hd]))
    rw [List.foldl_cons]
    apply hstep.mono
    unfold cost
    simp only [List.map_cons, List.sum_cons]
    omega

theorem Reaches.fits {cwd path x : Bytes} (h : Reaches cwd path x) (hproper : Proper path)
    (hcwd : cwd.length ≤ 255) (hbelow : absPath cwd path ++ [slash] <+: x)
    : newline ∉ x.drop ((absPath cwd path).length + 1)
        ∧ (slashed path).length + (x.length - ((absPath cwd path).length + 1)) ≤ 255 := by
  obtain ⟨r, hr, hlen, rfl⟩ := h
  have hcomps : ∀ c ∈ components r, newline ∉ c :=
    fun c hc hmem => hr (mem_of_mem_components hc hmem)
  have hgrown := (Grown.refl (walk cwd path)).steps hcomps
  have hcost := cost_components_le r
  rw [← walk_append hproper hcwd hlen, ← absPath_eq] at hgrown
  obtain ⟨⟨a, b, hout, ha, hb⟩, hle⟩ := hgrown
  rw [← absPath_eq] at hout hle
  have hshort := ha.length_le
  constructor
  . rw [hout, List.drop_append, List.mem_append, not_or]
    constructor
    . rw [List.drop_eq_nil_of_le (by omega)]
      simp
    . exact fun hmem => hb (List.mem_of_mem_drop hmem)
  . omega

end Grown

section Lost

variable {P Q : Bytes → Prop} {s t u : FsState} {path : Bytes}

structure Lost (P : Bytes → Prop) (s t : FsState) : Prop where
  cwd : t.cwd = s.cwd
  lost : ∀ x, s.Used x → ¬t.Used x → P x

theorem Lost.errno (e : Nat) : Lost P s { s with fsErrno := e } :=
  ⟨rfl, fun _ hx hno => absurd hx hno⟩

theorem Lost.trans (h : Lost P s t) (h' : Lost P t u) : Lost P s u where
  cwd := h'.cwd.trans h.cwd
  lost x hx hno := by
    by_cases hmid : t.Used x
    . exact h'.lost x hmid hno
    . exact h.lost x hx hmid

theorem Lost.mono (h : Lost P s t) (himp : ∀ x, P x → Q x) : Lost Q s t :=
  ⟨h.cwd, fun x hx hno => himp x (h.lost x hx hno)⟩

theorem lost_fsDeleteFile (path : CStr)
    : Lost (fun x => x = absPath s.cwd.str path) s (fsDeleteFile s path).2 := by
  refine ⟨(fsDeleteFile_deletes s path).cwd, ?_⟩
  intro x hx hlost
  by_contra hne
  apply hlost
  obtain ⟨e, heq⟩ | ⟨i, hi, heq⟩ := fsDeleteFile_cases s path
  . rw [heq]
    exact hx
  . rw [heq]
    obtain ⟨j, hj⟩ | hdir := hx
    . have hdrop : (({ s with fsErrno := 0 }.dropFile i).freeData i).IsFile j x
          ↔ j ≠ i ∧ s.IsFile j x := @FsState.isFile_dropFile { s with fsErrno := 0 } x i j
      refine Or.inl ⟨j, hdrop.mpr ⟨?_, hj⟩⟩
      rintro rfl
      exact hne (hj.2.symm.trans hi.2)
    . exact Or.inr hdir

theorem lost_fsDeleteDirectory (path : CStr)
    : Lost (fun x => x = absPath s.cwd.str path) s (fsDeleteDirectory s path).2 := by
  refine ⟨(fsDeleteDirectory_deletes s path).cwd, ?_⟩
  intro x hx hlost
  by_contra hne
  apply hlost
  obtain ⟨e, heq, _⟩ | ⟨i, heq, hdir, _⟩ := fsDeleteDirectory_cases s path
  . rw [heq]
    exact hx
  . rw [heq]
    obtain hfile | ⟨j, hj⟩ := hx
    . exact Or.inl hfile
    . have hdrop : ({ s with fsErrno := 0 }.dropDir i).IsDir j x ↔ j ≠ i ∧ s.IsDir j x :=
        @FsState.isDir_dropDir { s with fsErrno := 0 } x i j
      refine Or.inr ⟨j, hdrop.mpr ⟨?_, hj⟩⟩
      rintro rfl
      exact hne (hj.2.symm.trans hdir.2)

theorem newline_not_mem_splitEntries {buf e : Bytes} (he : e ∈ splitEntries buf) : newline ∉ e := by
  fun_induction splitEntries buf with
  | case1 => simp at he
  | case2 c cs line entry rest ih =>
    rw [List.mem_cons] at he
    cases he with
    | inl he =>
      subst he
      intro hmem
      have := List.mem_takeWhile_imp (List.mem_of_mem_take hmem)
      simp at this
    | inr he => exact ih he

end Lost

section Loop

variable {path : Bytes}

theorem Proper.append (h : Proper path) {r : Bytes} (hlen : (slashed path).length + r.length ≤ 255)
    : Proper (slashed path ++ r) := by
  have hle := length_le_slashed path
  obtain rfl | ⟨hlo, _⟩ := h
  . cases r with
    | nil =>
      left
      simp [slashed]
    | cons b r =>
      right
      rw [List.length_append]
      simp only [List.length_cons] at hle hlen ⊢
      omega
  . right
    rw [List.length_append]
    omega

theorem Reaches.of_child {cwd r x : Bytes} (hr : newline ∉ r)
    (hlen : (slashed path).length + r.length ≤ 255)
    (h : x = absPath cwd (slashed path ++ r) ∨ Reaches cwd (slashed path ++ r) x)
    : Reaches cwd path x := by
  obtain heq | ⟨r', hr', hlen', rfl⟩ := h
  . exact ⟨r, hr, hlen, heq⟩
  . have hsep : ∃ sep : Bytes, newline ∉ sep
        ∧ slashed (slashed path ++ r) = slashed path ++ (r ++ sep) := by
      rw [slashed.eq_def (slashed path ++ r)]
      split
      . exact ⟨[], by decide, by simp⟩
      . exact ⟨[slash], by decide, by simp⟩
    obtain ⟨sep, hsep, heq⟩ := hsep
    rw [heq] at hlen' ⊢
    refine ⟨r ++ sep ++ r', ?_, ?_, ?_⟩
    . simp only [List.mem_append, not_or]
      exact ⟨⟨hr, hsep⟩, hr'⟩
    . simp only [List.length_append] at hlen' ⊢
      omega
    . simp only [List.append_assoc]

theorem exists_childPath (h : Proper path) {w : Bytes} (hw : newline ∉ w)
    : ∃ r, newline ∉ r ∧ (slashed path).length + r.length ≤ 255
        ∧ childPath path w = slashed path ++ r := by
  have hlen := length_slashed_le h
  refine ⟨w.take (255 - (slashed path).length), ?_, ?_, childPath_eq h w⟩
  . exact fun hmem => hw (List.mem_of_mem_take hmem)
  . rw [List.length_take]
    omega

theorem delete_reaches {n : Nat} {s s' : FsState} {rc : Int} (hproper : Proper path)
    (hnul : 0 ∉ path) (h : fsDeleteDirectoryRecursive n s path = some (rc, s'))
    : Lost (fun x => x = absPath s.cwd.str path ∨ Reaches s.cwd.str path x) s s' := by
  induction n generalizing s s' path rc with
  | zero => simp [fsDeleteDirectoryRecursive] at h
  | succ n ih =>
    obtain ⟨_, e, rfl⟩ | ⟨_, _, rc₁, s₁, hloop, hend⟩ := fsDeleteDirectoryRecursive_cases h
    . exact Lost.errno e
    . have hentries : ∀ e ∈ splitEntries (fsListDirectory.lines s (absPath s.cwd.str path)),
          0 ∉ e ∧ newline ∉ e :=
        fun e he => ⟨zero_not_mem_entries s _ e he, newline_not_mem_splitEntries he⟩
      have hrule := deleteEntries_rule (P := fun e => 0 ∉ e ∧ newline ∉ e)
        (I := fun _ t => Lost (Reaches s.cwd.str path) s t)
        (J := fun t => Lost (Reaches s.cwd.str path) s t) ?_ ?_ (fun _ _ ht => ht) ?_ hentries
        (Lost.errno 0) hloop
      . have hmid : Lost (Reaches s.cwd.str path) s s₁ := by
          by_cases hrc : rc₁ = 0
          . exact hrule.1 hrc
          . exact hrule.2 hrc
        have hmid' : Lost (fun x => x = absPath s.cwd.str path ∨ Reaches s.cwd.str path x) s s₁ :=
          hmid.mono fun x hx => Or.inr hx
        obtain ⟨_, _, rfl⟩ | ⟨_, rfl, _⟩ := hend
        . exact hmid'
        . have hlast := @lost_fsDeleteDirectory s₁ ⟨path, hnul⟩
          rw [hmid.cwd] at hlast
          exact hmid'.trans (hlast.mono fun x hx => Or.inl hx)
      . rintro _ t e ⟨he, hnl⟩ ht
        obtain ⟨r, hr, hlen, heq⟩ := exists_childPath hproper hnl
        have hlast := @lost_fsDeleteFile t ⟨childPath path e, zero_not_mem_childPath hnul he⟩
        rw [ht.cwd] at hlast
        refine ht.trans (hlast.mono ?_)
        intro x hx
        apply Reaches.of_child hr hlen
        rw [← heq]
        exact Or.inl hx
      . rintro q _ t rc₂ t' ⟨hq, hnl⟩ ht hcall
        obtain ⟨r, hr, hlen, heq⟩ := exists_childPath hproper hnl
        have hnul' := zero_not_mem_childPath hnul hq
        rw [heq] at hcall hnul'
        have hlast := ih (hproper.append hlen) hnul' hcall
        rw [ht.cwd] at hlast
        have := ht.trans (hlast.mono fun x hx => Reaches.of_child hr hlen hx)
        exact ⟨fun _ => this, fun _ => this⟩
      . rintro e ⟨he, hnl⟩
        exact ⟨zero_not_mem_dropLast he, fun hmem => hnl (List.mem_of_mem_dropLast hmem)⟩

end Loop

theorem found_of_success {n : Nat} {s s' : FsState} {path : Bytes} (hne : path ≠ [])
    (h : fsDeleteDirectoryRecursive n s path = some (0, s'))
    : fsDirectoryExists s (absPath s.cwd.str path) := by
  cases n with
  | zero => simp [fsDeleteDirectoryRecursive] at h
  | succ n =>
    by_contra hno
    have hlist : (fsListDirectory { s with fsErrno := 0 } path).1 = -1 := by
      have hno' : ¬fsDirectoryExists { s with fsErrno := 0 } (absPath s.cwd.str path) := hno
      unfold fsListDirectory
      dsimp only
      rw [if_neg hne, if_pos hno']
    rw [fsDeleteDirectoryRecursive] at h
    dsimp only at h
    rw [if_neg hne] at h
    obtain hmay | hmay := mayModifyParent_cases { s with fsErrno := 0 } (absPath s.cwd.str path)
    . rw [hmay] at h
      dsimp only at h
      rw [if_neg hne] at h
      split at h
      . simp at h
      . generalize fsListDirectory { s with fsErrno := 0 } path = r at *
        obtain ⟨rc, buf, t⟩ := r
        dsimp only at hlist h
        subst hlist
        simp at h
    . rw [hmay] at h
      simp at h

end TanjaOS
