import TanjaOS.Fs.Delete.Success

/-!
A recursive delete of another directory does not delete the root. The path of an entry can lead to
the root, by a name that comes back from the listing as `..`. The call for this path lists the root
and comes by the same entry again, so it does not get to the end of the listing.
-/

open Lib

namespace TanjaOS

open absPath (Normal walk)

/--
A call for `path`, which leads to the root, cannot succeed.
-/
def Stuck (s : FsState) (path : Bytes) : Prop :=
  (∃ c, IsKid s [] c ∧ ¬Fits path c)
    ∨ ∃ c c', IsKid s [] c ∧ IsKid s [c] c' ∧ ¬FitsBelow path c c'

theorem normal_of_root {cwd path : Bytes} (h : absPath cwd path = [slash])
    : Normal [] (walk cwd path) := by
  rw [absPath_eq] at h
  have hlen : (walk cwd path).out.length < 254 := by simp [h]
  obtain ⟨cs, hn⟩ := absPath.normal_of_length hlen
  have hcs : cs = [] := by
    by_contra hne
    have := (one_lt_length_render hn.canon.comps).mpr hne
    rw [← hn.out, h] at this
    simp at this
  rwa [hcs] at hn

theorem Normal.ne_root {cwd path : Bytes} {cs : List Bytes} (h : Normal cs (walk cwd path))
    (hcs : cs ≠ [])
    : absPath cwd path ≠ [slash] := by
  intro hroot
  exact hcs (Normal.unique h (normal_of_root hroot))

theorem Stuck.not_success {s s' : FsState} {path : Bytes} (h : Stuck s path)
    (hroot : absPath s.cwd.str path = [slash])
    : ¬Success s path s' := by
  intro hsucc
  have hn := normal_of_root hroot
  obtain ⟨c, hkid, hfit⟩ | ⟨c, c', hkid, hkid', hfit⟩ := h
  . exact hfit (hsucc.kids [] c hn hkid)
  . exact hfit (hsucc.grandkids [] c c' hn hkid hkid')

theorem fsDeleteDirectory_root {s : FsState} (path : CStr) (h : s.UsedDir [slash])
    (hpath : absPath s.cwd.str path ≠ [slash] ∨ path.val = [slash])
    : (fsDeleteDirectory s path).2.UsedDir [slash] := by
  obtain ⟨e, heq, _⟩ | ⟨i, heq, hdir, hroot, _⟩ := fsDeleteDirectory_cases s path
  . rw [heq]
    exact h
  . rw [heq]
    obtain ⟨j, hj⟩ := h
    refine ⟨j, FsState.isDir_dropDir.mpr ⟨?_, hj⟩⟩
    rintro rfl
    obtain hpath | hpath := hpath
    . exact hpath (hdir.2.symm.trans hj.2)
    . exact hroot hpath

theorem NsInv.exists_kid {s : FsState} {cs : List Bytes} (h : NsInv s) (hcanon : Canon cs)
    (hcs : cs ≠ []) (hused : s.UsedDir (render cs))
    : ∃ d, IsKid s [] d := by
  induction cs with
  | nil => contradiction
  | cons d cs ih =>
    have hd := hcanon.comps d (by simp)
    by_cases hnil : cs = []
    . subst hnil
      exact ⟨d, hused.kid hd⟩
    . apply ih hcanon.tail hnil
      apply h.parent _ cs (Or.inr hused) hcanon.tail hnil
      rw [render, parentText_sepd cs hd.no_slash, if_neg hnil]

section Dot

/-!
The entries of `.` get no slash in front: the entry `c` is deleted as `.c`, the entry `.` as `..`.
-/

theorem childPath_single {b : Byte} (hb : b ≠ slash) {entry : Bytes} (hlen : entry.length ≤ 254)
    : childPath [b] entry = b :: entry := by
  have hroot : [b] ≠ [slash] := by simpa using hb
  unfold childPath
  simp only [if_neg hroot]
  simp [strlenSafe, List.take_of_length_le hlen]

theorem combined_nil {cwd : Bytes} (h : PathText cwd)
    : ∃ pre, absPath.combined cwd [] = pre ++ [slash] ∧ (pre ++ [slash]).length ≤ 256 := by
  have hlen := h.length_le
  have hne := h.ne_nil
  have hpos := List.length_pos_of_ne_nil hne
  unfold absPath.combined
  simp only [List.head?_nil, reduceCtorEq, ↓reduceIte, List.take_nil, List.append_nil]
  rw [List.take_of_length_le (by omega), if_neg hne]
  split
  . exact ⟨cwd, rfl, by simp; omega⟩
  . next hno =>
    by_cases hone : 1 < cwd.length
    . have hlast : cwd.getLast? = some slash := by
        by_contra hlast
        exact hno ⟨hone, hlast⟩
      obtain ⟨init, hinit⟩ := List.getLast?_eq_some_iff.mp hlast
      exact ⟨init, hinit, by rw [← hinit]; omega⟩
    . obtain ⟨b, rfl⟩ := List.length_eq_one_iff.mp (show cwd.length = 1 by omega)
      refine ⟨[], ?_, by simp⟩
      have hhead := h.head
      simp at hhead
      simp [hhead]

theorem walk_name {cwd w : Bytes} (h : PathText cwd) (hne : w ≠ []) (hslash : slash ∉ w)
    (hlen : w.length ≤ 255)
    : walk cwd w = absPath.step (walk cwd []) w := by
  obtain ⟨pre, hpre, hpre'⟩ := combined_nil h
  have hhead : w.head? ≠ some slash := by
    intro hhead
    exact hslash (List.mem_of_head? hhead)
  have hcombined : absPath.combined cwd w = pre ++ [slash] ++ w := by
    have : absPath.combined cwd w = absPath.combined cwd []
        ++ w.take (511 - (absPath.combined cwd []).length) := by
      unfold absPath.combined
      simp [hhead]
    rw [this, hpre, List.take_of_length_le]
    omega
  unfold walk
  rw [hcombined, hpre, List.append_assoc, List.singleton_append, components_append_slash,
    components_append_slash, components_nil, List.append_nil, components_of_no_slash hslash,
    if_neg hne, List.foldl_append]
  rfl

variable {s t t' : FsState} {d c : Bytes}

/--
The loop over the entries of `.`, a directory right below the root, as long as all calls in it
succeed. The limit of 255 bytes may cut `.c` down to another name, even to `.`, but then there is
no room for any entry of `../d`.
-/
structure DotInv (s : FsState) (d : Bytes) (t : FsState) : Prop where
  deletes : Deletes s t
  self : t.UsedDir (render [d])
  newline_stays : ∀ c, IsKid s [d] c → newline ∈ c → IsKid t [d] c
  dot_stays : IsKid s [d] [dot] → (sepd [d]).length ≠ 254 → IsKid t [d] [dot]
  full : (sepd [d]).length = 254 → (∀ c, IsKid s [d] c → c ≠ [dot] → IsKid t [d] c)
    ∧ ((∃ c, IsKid s [d] c) → ∃ c, IsKid t [d] c)

theorem DotInv.congr (h : DotInv s d t) (hdel : Deletes t t')
    (hdirs : ∀ x, t'.UsedDir x ↔ t.UsedDir x)
    : DotInv s d t' := by
  have hkid : ∀ c, IsKid t [d] c → IsKid t' [d] c := by
    intro c hc
    exact ⟨(hdirs _).mpr hc.used, hc.ne_nil, hc.no_slash⟩
  refine ⟨h.deletes.trans hdel, (hdirs _).mpr h.self, ?_, ?_, ?_⟩
  . intro c hc hnl
    exact hkid c (h.newline_stays c hc hnl)
  . intro hc hlen
    exact hkid _ (h.dot_stays hc hlen)
  . intro hlen
    refine ⟨?_, ?_⟩
    . intro c hc hne
      exact hkid c ((h.full hlen).1 c hc hne)
    . intro hex
      obtain ⟨c, hc⟩ := (h.full hlen).2 hex
      exact ⟨c, hkid c hc⟩

theorem DotInv.init (h : Deletes s t) (hdirs : ∀ x, t.UsedDir x ↔ s.UsedDir x)
    (hself : s.UsedDir (render [d]))
    : DotInv s d t := by
  apply DotInv.congr (t := s) _ h hdirs
  exact ⟨Deletes.refl s, hself, fun _ hc _ => hc, fun hc _ => hc,
    fun _ => ⟨fun _ hc _ => hc, fun hex => hex⟩⟩

theorem DotInv.stuck (h : DotInv s d t) (hd : Comp d) (hkid : IsKid s [d] c)
    (hc : afterNewline c = [dot])
    : Stuck t [dot, dot] := by
  have hslashed : (slashed [dot, dot]).length = 3 := rfl
  right
  by_cases hlen : (sepd [d]).length = 254
  . obtain ⟨c', hkid'⟩ := (h.full hlen).2 ⟨c, hkid⟩
    refine ⟨d, c', h.self.kid hd, hkid', ?_⟩
    intro hfits
    have := hfits.len
    have hpos := List.length_pos_of_ne_nil hkid'.ne_nil
    simp only [sepd, List.length_append, List.length_singleton] at hlen
    omega
  . by_cases hdot : c = [dot]
    . subst hdot
      refine ⟨d, [dot], h.self.kid hd, h.dot_stays hkid hlen, ?_⟩
      intro hfits
      exact hfits.comp.ne_dot rfl
    . have hnl := newline_mem_of_afterNewline_ne (c := c) (by rw [hc]; exact Ne.symm hdot)
      refine ⟨d, c, h.self.kid hd, h.newline_stays c hkid hnl, ?_⟩
      intro hfits
      exact hfits.no_newline hnl

theorem Success.frame_name {w x : Bytes} (h : Success t w t') (hx : t.UsedDir x)
    (heq : absPath t.cwd.str w ≠ x) (hpre : ¬absPath t.cwd.str w ++ [slash] <+: x)
    (hroot : absPath t.cwd.str w ≠ [slash])
    : t'.UsedDir x := by
  apply h.frame x hx (Ne.symm heq)
  intro cs hn hbelow
  have hout : absPath t.cwd.str w = render cs := hn.out
  have hcs : cs ≠ [] := by
    rintro rfl
    exact hroot hout
  rw [hout] at heq hpre
  obtain hx' | hx' := hbelow
  . exact heq hx'.symm
  . rw [sepd_eq, if_neg hcs] at hx'
    exact hpre hx'

theorem DotInv.step (h : DotInv s d t) (hinv : NsInv s) (hn : Normal [d] (walk s.cwd.str []))
    (hkid : IsKid s [d] c) (hne : afterNewline c ≠ []) (hne' : afterNewline c ≠ [dot])
    (hsucc : Success t (dot :: afterNewline c) t') (hdel : Deletes t t')
    : DotInv s d t' := by
  have hlen := hinv.kid_length hkid
  have hsep := length_sepd_pos [d]
  have hafter := length_afterNewline_le c
  have hpos := List.length_pos_of_ne_nil hne
  have hslash : slash ∉ dot :: afterNewline c := by
    rw [List.mem_cons, not_or]
    refine ⟨by decide, ?_⟩
    intro hmem
    exact hkid.no_slash (mem_of_mem_afterNewline hmem)
  have hcomp : Comp (dot :: afterNewline c) :=
    ⟨by simp, hslash, by simpa using hne, by simpa using hne'⟩
  -- the name that is left of `.c`
  obtain ⟨e, he⟩ : ∃ e, (dot :: afterNewline c).take (255 - (sepd [d]).length) = e := ⟨_, rfl⟩
  have hrender : (render [d]).length < 255 := by
    have := length_render_le_sepd [d]
    have := List.length_pos_of_ne_nil hkid.ne_nil
    omega
  have hout : absPath t.cwd.str (dot :: afterNewline c) = sepd [d] ++ e := by
    rw [absPath_eq, h.deletes.cwd, walk_name hinv.cwd (by simp) hslash (by simp; omega), ← he]
    exact absPath.step_out hn hcomp (by simp) hrender
  have hene : e ≠ [] := by
    rw [← he]
    have := List.length_pos_of_ne_nil hkid.ne_nil
    intro hnil
    have := congrArg List.length hnil
    rw [List.length_take, List.length_cons, List.length_nil] at this
    omega
  have henl : newline ∉ e := by
    rw [← he]
    intro hmem
    have := List.mem_of_mem_take hmem
    rw [List.mem_cons] at this
    obtain this | this := this
    . exact absurd this (by decide)
    . exact newline_not_mem_afterNewline c this
  have hroot : sepd [d] ++ e ≠ [slash] := by
    intro heq
    have hlen := congrArg List.length heq
    have := List.length_pos_of_ne_nil hene
    rw [List.length_append, List.length_singleton] at hlen
    omega
  have hstays : ∀ c', IsKid t [d] c' → c' ≠ e → IsKid t' [d] c' := by
    intro c' hkid' hne
    refine ⟨?_, hkid'.ne_nil, hkid'.no_slash⟩
    apply hsucc.frame_name hkid'.used
    . rw [hout]
      intro heq
      exact hne (List.append_cancel_left heq).symm
    . rw [hout, List.append_assoc, List.prefix_append_right_inj]
      intro hpre
      exact hkid'.no_slash (hpre.subset (by simp))
    . rwa [hout]
  refine ⟨h.deletes.trans hdel, ?_, ?_, ?_, ?_⟩
  . have hle := length_render_le_sepd [d]
    have := List.length_pos_of_ne_nil hene
    apply hsucc.frame_name h.self
    . rw [hout]
      intro heq
      have := congrArg List.length heq
      rw [List.length_append] at this
      omega
    . rw [hout]
      intro hpre
      have := hpre.length_le
      simp only [List.length_append, List.length_singleton] at this
      omega
    . rwa [hout]
  . intro c' hkid' hnl
    apply hstays c' (h.newline_stays c' hkid' hnl)
    rintro rfl
    exact henl hnl
  . intro hkid' hlen'
    apply hstays _ (h.dot_stays hkid' hlen')
    have := List.length_pos_of_ne_nil hkid.ne_nil
    intro heq
    have := congrArg List.length (he.trans heq.symm)
    rw [List.length_take, List.length_cons, List.length_singleton] at this
    omega
  . intro hlen'
    have hedot : e = [dot] := by
      rw [← he, hlen']
      rfl
    refine ⟨?_, ?_⟩
    . intro c' hkid' hne
      exact hstays c' ((h.full hlen').1 c' hkid' hne) (by rwa [hedot])
    . intro _
      have hcdot : c ≠ [dot] := by
        rintro rfl
        exact hne' rfl
      exact ⟨c, hstays c ((h.full hlen').1 c hkid hcdot) (by rwa [hedot])⟩

theorem walk_dot {cwd : Bytes} (h : PathText cwd) : walk cwd [dot] = walk cwd [] := by
  rw [walk_name h (by simp) (by decide) (by simp), absPath.step_dot]

theorem walk_dotdot {cwd : Bytes} (h : PathText cwd)
    : walk cwd [dot, dot] = absPath.step (walk cwd []) [dot, dot] :=
  walk_name h (by simp) (by decide) (by simp)

theorem dot_loop {n : Nat} {rc : Int} {s₁ : FsState} {Q J : FsState → Prop}
    (hnewline : ∀ t t' c, NsInv t → Normal [d] (walk t.cwd.str []) →
      fsDeleteDirectoryRecursive n t [dot] = some (0, t') → IsKid t [d] c → newline ∉ c)
    (hinv : NsInv s) (hn : Normal [d] (walk s.cwd.str [])) (hself : s.UsedDir (render [d]))
    (hfile : ∀ t p, Q t → Q (fsDeleteFile t p).2) (hfail : ∀ t, Q t → J t)
    (hstep : ∀ c t rc t', DotInv s d t → IsKid s [d] c → Q t → 0 ∉ dot :: afterNewline c →
      fsDeleteDirectoryRecursive n t (dot :: afterNewline c) = some (rc, t') →
      (rc = 0 → Q t') ∧ (rc ≠ 0 → J t'))
    (hQ : Q { s with fsErrno := 0 })
    (hloop : deleteEntries (fsDeleteDirectoryRecursive n) [dot]
      (splitEntries (fsListDirectory.lines s (absPath s.cwd.str [dot]))) { s with fsErrno := 0 }
        = some (rc, s₁))
    : (rc = 0 → DotInv s d s₁ ∧ Q s₁) ∧ (rc ≠ 0 → J s₁) := by
  have hkids : ∀ c, c ∈ subdirs s (absPath s.cwd.str [dot]) ↔ IsKid s [d] c := by
    intro c
    rw [absPath_eq, walk_dot hinv.cwd, hn.out, hinv.mem_subdirs hn.canon]
  have hd := hn.canon.comps d (by simp)
  have hrule := deleteEntries_subdirs
    (I := fun rest t => (∀ c ∈ rest, IsKid s [d] c) ∧ DotInv s d t ∧ Q t) (J := J) hinv
    (by decide) ?_ ?_ ?_ ?_ hloop
  . refine ⟨?_, hrule.2⟩
    intro hrc
    exact (hrule.1 hrc).2
  . rintro rest t p hp ⟨hrest, hdot, hQ'⟩
    refine ⟨hrest, ?_, hfile _ _ hQ'⟩
    apply hdot.congr (fsDeleteFile_deletes t ⟨p, hp⟩)
    intro x
    exact usedDir_fsDeleteFile t p x
  . rintro c rest t rc₂ t' hnul ⟨hrest, hdot, hQ'⟩ hcall
    have hkid := hrest c (by simp)
    have hlen := hinv.kid_length hkid
    have hsep := length_sepd_pos [d]
    have hafter := length_afterNewline_le c
    rw [childPath_single (by decide) (by omega)] at hcall hnul
    have hstep' := hstep c t rc₂ t' hdot hkid hQ' hnul hcall
    refine ⟨?_, hstep'.2⟩
    rintro rfl
    have hinv' := hdot.deletes.inv hinv
    have hn' : Normal [d] (walk t.cwd.str []) := by rwa [hdot.deletes.cwd]
    have hrest' : ∀ c ∈ rest, IsKid s [d] c := by
      intro c' hc'
      exact hrest c' (by simp [hc'])
    refine ⟨hrest', ?_, hstep'.1 rfl⟩
    by_cases hnil : afterNewline c = []
    . rw [hnil] at hcall
      have hnl := newline_mem_of_afterNewline_ne (c := c) (by rw [hnil]; exact hkid.ne_nil.symm)
      exact absurd hnl (hnewline t t' c hinv' hn' hcall (hdot.newline_stays c hkid hnl))
    . have hsucc : Success t (dot :: afterNewline c) t' := by
        apply success hinv' hnul _ hcall
        right
        have := List.length_pos_of_ne_nil hnil
        simp only [List.length_cons]
        omega
      by_cases hdotdot : afterNewline c = [dot]
      . rw [hdotdot] at hsucc
        have hroot : absPath t.cwd.str [dot, dot] = [slash] := by
          rw [absPath_eq, walk_dotdot hinv'.cwd]
          exact (absPath.step_dotdot hn').out
        exact absurd hsucc ((hdot.stuck hd hkid hdotdot).not_success hroot)
      . exact hdot.step hinv hn hkid hnil hdotdot hsucc
          (fsDeleteDirectoryRecursive_deletes hnul hcall)
  . rintro rest t ⟨_, _, hQ'⟩
    exact hfail t hQ'
  . refine ⟨?_, ?_, hQ⟩
    . intro c hc
      exact (hkids c).mp hc
    . exact DotInv.init (Deletes.errno s 0) (fun x => Iff.rfl) hself

theorem no_newline_of_success {n : Nat} (hinv : NsInv s) (hn : Normal [d] (walk s.cwd.str []))
    (h : fsDeleteDirectoryRecursive n s [dot] = some (0, t)) (hkid : IsKid s [d] c)
    : newline ∉ c := by
  induction n generalizing s t c with
  | zero => simp [fsDeleteDirectoryRecursive] at h
  | succ n ih =>
    intro hnl
    obtain ⟨hne, _⟩ | ⟨_, hexists, rc₁, s₁, hloop, hend⟩ := fsDeleteDirectoryRecursive_cases h
    . contradiction
    obtain ⟨_, hne, _⟩ | ⟨rfl, rfl, hrc⟩ := hend
    . contradiction
    have hn' : Normal [d] (walk s.cwd.str [dot]) := by rwa [walk_dot hinv.cwd]
    have hself := usedDir_of_exists hexists hn' (by simp)
    have hdot := ((dot_loop (Q := fun _ => True) (J := fun _ => True)
      (fun t t' c hinv' hn' hcall hkid' => ih hinv' hn' hcall hkid') hinv hn hself (fun _ _ h => h)
      (fun _ h => h) (fun _ _ _ _ _ _ _ _ _ => ⟨fun _ => trivial, fun _ => trivial⟩) trivial
      hloop).1 rfl).1
    -- the entry is still there, so the directory is not empty
    obtain ⟨j, hj⟩ := (hdot.newline_stays c hkid hnl).used
    obtain ⟨e, _, hrc'⟩ | ⟨i, _, _, _, _, hdirs, _⟩ :=
      fsDeleteDirectory_cases s₁ ⟨[dot], by decide⟩
    . exact hrc' (hrc rfl)
    . have hfull : absPath s₁.cwd.str [dot] = render [d] := by
        rw [hdot.deletes.cwd]
        exact hn'.out
      have hpar : parentText (sepd [d] ++ c) = render [d] := by
        rw [parentText_sepd _ hkid.no_slash]
        rfl
      have hinv₁ := hdot.deletes.inv hinv
      have hchild := isDirectChild_of_parentText (hinv₁.dirs j _ hj).length_le
        (List.ne_nil_of_length_pos (length_render_pos [d])) hpar
      simp only at hdirs
      rw [hfull] at hdirs
      apply hdirs j hj.1
      . rw [hj.2]
        intro heq
        have := congrArg List.length heq
        have := length_render_le_sepd [d]
        have := List.length_pos_of_ne_nil hkid.ne_nil
        rw [List.length_append] at *
        omega
      . rw [hj.2]
        exact hchild

end Dot

def KeepsRoot (n : Nat) : Prop :=
  ∀ s path rc s', NsInv s → 0 ∉ path → s.UsedDir [slash] →
    absPath s.cwd.str path ≠ [slash] ∨ path = [slash] →
    fsDeleteDirectoryRecursive n s path = some (rc, s') → s'.UsedDir [slash]

def StuckKeepsRoot (n : Nat) : Prop :=
  ∀ s path rc s', NsInv s → 0 ∉ path → s.UsedDir [slash] → Proper path →
    absPath s.cwd.str path = [slash] → Stuck s path →
    fsDeleteDirectoryRecursive n s path = some (rc, s') → s'.UsedDir [slash]

section Keep

variable {n : Nat} {s s' t t' : FsState} {path : Bytes} {cs : List Bytes} {rc : Int}

theorem child_keeps_root {done : List Bytes} {c : Bytes} (hkeep : KeepsRoot n)
    (hstuck : StuckKeepsRoot n) (hinv : NsInv s) (hproper : Proper path)
    (hn : Normal cs (walk s.cwd.str path)) (hused : cs ≠ [] → s.UsedDir (render cs))
    (hloop : LoopInv s path cs done t) (hkid : IsKid s cs c) (hroot : t.UsedDir [slash])
    (hnul : 0 ∉ slashed path ++ target path c)
    (hcall : fsDeleteDirectoryRecursive n t (slashed path ++ target path c) = some (rc, t'))
    : t'.UsedDir [slash] := by
  have hinv' := hloop.deletes.inv hinv
  have hcwd := hloop.deletes.cwd
  by_cases htgt : Comp (target path c)
  . have hn' := walk_target hinv hproper hn hkid htgt
    rw [← hcwd] at hn'
    exact hkeep _ _ _ _ hinv' hnul hroot (Or.inl (Normal.ne_root hn' (by simp))) hcall
  . have hstays := hloop.kid_stays hproper hkid htgt
    have hle := length_slashed_child_le path (target path c)
    have hwalk := walk_special hproper hinv.cwd.length_le hn (slash_not_mem_target hkid.no_slash)
      (length_target_le hproper c) htgt
    rw [← hcwd] at hwalk
    obtain hn' | ⟨_, d, cs', rfl, hn'⟩ := hwalk
    . by_cases hcs : cs = []
      . subst hcs
        exact hstuck _ _ _ _ hinv' hnul hroot (hproper.child c) hn'.out
          (Or.inl ⟨c, hstays, not_fits_of_target htgt hle⟩) hcall
      . exact hkeep _ _ _ _ hinv' hnul hroot (Or.inl (Normal.ne_root hn' hcs)) hcall
    . by_cases hcs : cs' = []
      . subst hcs
        have hself := (hloop.self_stays (hused (by simp))).kid (hn.canon.comps d (by simp))
        exact hstuck _ _ _ _ hinv' hnul hroot (hproper.child c) hn'.out
          (Or.inr ⟨d, c, hself, hstays, not_fitsBelow_of_target htgt hle⟩) hcall
      . exact hkeep _ _ _ _ hinv' hnul hroot (Or.inl (Normal.ne_root hn' hcs)) hcall

theorem usedDir_root_fsDeleteFile (t : FsState) (p : Bytes) (h : t.UsedDir [slash])
    : (fsDeleteFile t p).2.UsedDir [slash] :=
  (usedDir_fsDeleteFile t p _).mpr h

theorem stuckKeepsRoot_succ (hkeep : KeepsRoot n) (hstuck : StuckKeepsRoot n)
    : StuckKeepsRoot (n + 1) := by
  intro s path rc s' hinv hnul hroot hproper hpath hst h
  obtain ⟨_, e, rfl⟩ | ⟨_, _, rc₁, s₁, hloop, hend⟩ := fsDeleteDirectoryRecursive_cases h
  . exact hroot
  have hn := normal_of_root hpath
  have hrule := deleteEntries_loop (Q := fun t => t.UsedDir [slash])
    (J := fun t => t.UsedDir [slash]) (fun _ _ _ => success) hinv hnul hproper hn (by simp)
    usedDir_root_fsDeleteFile (fun _ h => h) ?_ hroot hloop
  . obtain ⟨hrc, _, rfl⟩ | ⟨hrc, rfl, _⟩ := hend
    . exact hrule.2 hrc
    . -- the loop does not come to its end
      obtain ⟨⟨done, hall, hinv'⟩, _⟩ := hrule.1 hrc
      obtain ⟨c, hkid, hfit⟩ | ⟨c, c', hkid, hkid', hfit⟩ := hst
      . exact absurd (hinv'.kids hproper hall hkid) hfit
      . exact absurd (hinv'.grandkids hproper hall hkid hkid') hfit
  . intro done c t rc₂ t' hinv' hkid hQ hnul' hcall
    have := child_keeps_root hkeep hstuck hinv hproper hn (by simp) hinv' hkid hQ hnul' hcall
    exact ⟨fun _ => this, fun _ => this⟩

theorem keeps_root_of_loop (hnul : 0 ∉ path)
    (hpath : absPath s.cwd.str path ≠ [slash] ∨ path = [slash]) (hroot : s.UsedDir [slash])
    (h : fsDeleteDirectoryRecursive (n + 1) s path = some (rc, s'))
    (hkeep : ∀ rc₁ s₁, fsDirectoryExists s path →
      deleteEntries (fsDeleteDirectoryRecursive n) path
        (splitEntries (fsListDirectory.lines s (absPath s.cwd.str path)))
        { s with fsErrno := 0 } = some (rc₁, s₁) → s₁.UsedDir [slash])
    : s'.UsedDir [slash] := by
  obtain ⟨_, e, rfl⟩ | ⟨_, hexists, rc₁, s₁, hloop, hend⟩ := fsDeleteDirectoryRecursive_cases h
  . exact hroot
  have hroot₁ := hkeep rc₁ s₁ hexists hloop
  have hdel : Deletes s s₁ := deleteEntries_deletes
    (fun _ _ _ _ hp hcall => fsDeleteDirectoryRecursive_deletes hp hcall) hnul hloop
  obtain ⟨_, _, rfl⟩ | ⟨_, rfl, _⟩ := hend
  . exact hroot₁
  . apply fsDeleteDirectory_root ⟨path, hnul⟩ hroot₁
    rwa [hdel.cwd]

theorem proper_keeps_root (hkeep : KeepsRoot n) (hstuck : StuckKeepsRoot n) (hinv : NsInv s)
    (hnul : 0 ∉ path) (hproper : Proper path) (hroot : s.UsedDir [slash])
    (hpath : absPath s.cwd.str path ≠ [slash] ∨ path = [slash])
    (h : fsDeleteDirectoryRecursive (n + 1) s path = some (rc, s'))
    : s'.UsedDir [slash] := by
  apply keeps_root_of_loop hnul hpath hroot h
  intro rc₁ s₁ hexists hloop
  by_cases hkids : subdirs s (absPath s.cwd.str path) = []
  . exact ((deleteEntries_files hinv hnul hkids hloop).2 _).mpr hroot
  obtain ⟨c, hc⟩ := List.exists_mem_of_ne_nil _ hkids
  obtain ⟨cs, hn⟩ := hinv.normal_of_subdirs hc
  have hused := usedDir_of_exists hexists hn
  have hrule := deleteEntries_loop (Q := fun t => t.UsedDir [slash])
    (J := fun t => t.UsedDir [slash]) (fun _ _ _ => success) hinv hnul hproper hn hused
    usedDir_root_fsDeleteFile (fun _ h => h) ?_ hroot hloop
  . by_cases hrc : rc₁ = 0
    . exact (hrule.1 hrc).2
    . exact hrule.2 hrc
  . intro done c t rc₂ t' hinv' hkid hQ hnul' hcall
    have := child_keeps_root hkeep hstuck hinv hproper hn hused hinv' hkid hQ hnul' hcall
    exact ⟨fun _ => this, fun _ => this⟩

theorem childPath_long (hlen : 255 < path.length) (entry : Bytes)
    : childPath path entry = path.take 255 := by
  have hroot : path ≠ [slash] := by
    rintro rfl
    simp at hlen
  have hstr : min (strlenSafe path) 255 = 255 := by
    unfold strlenSafe
    omega
  unfold childPath
  simp only [if_neg hroot, hstr]
  have htake : (path.take 255).length = 255 := by
    rw [List.length_take]
    omega
  simp [htake]

theorem long_keeps_root (hkeep : KeepsRoot n) (hstuck : StuckKeepsRoot n) (hinv : NsInv s)
    (hnul : 0 ∉ path) (hlen : 255 < path.length) (hroot : s.UsedDir [slash])
    (hpath : absPath s.cwd.str path ≠ [slash])
    (h : fsDeleteDirectoryRecursive (n + 1) s path = some (rc, s'))
    : s'.UsedDir [slash] := by
  apply keeps_root_of_loop hnul (Or.inl hpath) hroot h
  intro rc₁ s₁ hexists hloop
  by_cases hkids : subdirs s (absPath s.cwd.str path) = []
  . exact ((deleteEntries_files hinv hnul hkids hloop).2 _).mpr hroot
  obtain ⟨c, hc⟩ := List.exists_mem_of_ne_nil _ hkids
  obtain ⟨cs, hn⟩ := hinv.normal_of_subdirs hc
  have hcs : cs ≠ [] := by
    rintro rfl
    exact hpath hn.out
  obtain ⟨d, hd⟩ := hinv.exists_kid hn.canon hcs (usedDir_of_exists hexists hn hcs)
  have htake : (path.take 255).length = 255 := by
    rw [List.length_take]
    omega
  have hproper : Proper (path.take 255) := Or.inr (by omega)
  -- if the prefix leads to the root, `d` is too long for it and stays
  have hrule := deleteEntries_subdirs
    (I := fun _ t => Deletes s t ∧ t.UsedDir [slash]
      ∧ (absPath s.cwd.str (path.take 255) = [slash] → IsKid t [] d))
    (J := fun t => t.UsedDir [slash]) hinv hnul ?_ ?_ (fun _ _ h => h.2.1)
    ⟨Deletes.errno s 0, hroot, fun _ => ⟨hd.used, hd.ne_nil, hd.no_slash⟩⟩ hloop
  . by_cases hrc : rc₁ = 0
    . exact (hrule.1 hrc).2.1
    . exact hrule.2 hrc
  . rintro rest t p hp ⟨hdel, hroot', hkid⟩
    refine ⟨hdel.trans (fsDeleteFile_deletes t ⟨p, hp⟩), usedDir_root_fsDeleteFile t p hroot', ?_⟩
    intro hpre
    have := hkid hpre
    exact ⟨(usedDir_fsDeleteFile t p _).mpr this.used, this.ne_nil, this.no_slash⟩
  . rintro c rest t rc₂ t' hnul' ⟨hdel, hroot', hkid⟩ hcall
    rw [childPath_long hlen] at hcall hnul'
    have hinv' := hdel.inv hinv
    have hdel' := hdel.trans (fsDeleteDirectoryRecursive_deletes hnul' hcall)
    by_cases hpre : absPath s.cwd.str (path.take 255) = [slash]
    . have hkid' := hkid hpre
      have hst : Stuck t (path.take 255) := by
        left
        refine ⟨d, hkid', ?_⟩
        intro hfits
        have := hfits.len
        have := length_le_slashed (path.take 255)
        have := List.length_pos_of_ne_nil hkid'.ne_nil
        omega
      rw [← hdel.cwd] at hpre
      refine ⟨?_, ?_⟩
      . rintro rfl
        exact absurd (success hinv' hnul' hproper hcall) (hst.not_success hpre)
      . intro _
        exact hstuck _ _ _ _ hinv' hnul' hroot' hproper hpre hst hcall
    . have hpre' : absPath t.cwd.str (path.take 255) ≠ [slash] := by rwa [hdel.cwd]
      have := hkeep _ _ _ _ hinv' hnul' hroot' (Or.inl hpre') hcall
      exact ⟨fun _ => ⟨hdel', this, fun h => absurd h hpre⟩, fun _ => this⟩

theorem absPath_name_ne_root {cwd w : Bytes} (hcwd : PathText cwd) (hw : Comp w)
    (hlen : w.length ≤ 255)
    : absPath cwd w ≠ [slash] := by
  rw [absPath_eq, walk_name hcwd hw.ne_nil hw.no_slash hlen]
  exact absPath.step_ne_root (absPath.walk_shape cwd []) hw

theorem single_loop_keeps_root {b : Byte} {rc₁ : Int} {s₁ : FsState} (hkeep : KeepsRoot n)
    (hinv : NsInv s) (hb : b ≠ slash) (hnul : 0 ∉ [b]) (hroot : s.UsedDir [slash])
    (hchild : ∀ q, slash ∉ q → q.length ≤ 254 → absPath s.cwd.str (b :: q) ≠ [slash])
    (hn : Normal cs (walk s.cwd.str [b]))
    (hloop : deleteEntries (fsDeleteDirectoryRecursive n) [b]
      (splitEntries (fsListDirectory.lines s (absPath s.cwd.str [b]))) { s with fsErrno := 0 }
        = some (rc₁, s₁))
    : s₁.UsedDir [slash] := by
  have hrule := deleteEntries_subdirs
    (I := fun rest t => (∀ c ∈ rest, IsKid s cs c) ∧ Deletes s t ∧ t.UsedDir [slash])
    (J := fun t => t.UsedDir [slash]) hinv hnul ?_ ?_ (fun _ _ h => h.2.2) ?_ hloop
  . by_cases hrc : rc₁ = 0
    . exact (hrule.1 hrc).2.2
    . exact hrule.2 hrc
  . rintro rest t p hp ⟨hrest, hdel, hroot'⟩
    exact ⟨hrest, hdel.trans (fsDeleteFile_deletes t ⟨p, hp⟩),
      usedDir_root_fsDeleteFile t p hroot'⟩
  . rintro c rest t rc₂ t' hnul' ⟨hrest, hdel, hroot'⟩ hcall
    have hkid := hrest c (by simp)
    have hlen := hinv.kid_length hkid
    have hsep := length_sepd_pos cs
    have hafter := length_afterNewline_le c
    rw [childPath_single hb (by omega)] at hcall hnul'
    have hne : absPath t.cwd.str (b :: afterNewline c) ≠ [slash] := by
      rw [hdel.cwd]
      apply hchild _ _ (by omega)
      intro hmem
      exact hkid.no_slash (mem_of_mem_afterNewline hmem)
    have hkept := hkeep _ _ _ _ (hdel.inv hinv) hnul' hroot' (Or.inl hne) hcall
    refine ⟨fun _ => ⟨?_, ?_, hkept⟩, fun _ => hkept⟩
    . intro d hd
      exact hrest d (by simp [hd])
    . exact hdel.trans (fsDeleteDirectoryRecursive_deletes hnul' hcall)
  . refine ⟨?_, Deletes.errno s 0, hroot⟩
    intro c hc
    rwa [absPath_eq, hn.out, hinv.mem_subdirs hn.canon] at hc

theorem single_keeps_root {b : Byte} (hkeep : KeepsRoot n) (hstuck : StuckKeepsRoot n)
    (hinv : NsInv s) (hb : b ≠ slash) (hnul : 0 ∉ [b]) (hroot : s.UsedDir [slash])
    (hpath : absPath s.cwd.str [b] ≠ [slash])
    (h : fsDeleteDirectoryRecursive (n + 1) s [b] = some (rc, s'))
    : s'.UsedDir [slash] := by
  apply keeps_root_of_loop hnul (Or.inl hpath) hroot h
  intro rc₁ s₁ hexists hloop
  by_cases hkids : subdirs s (absPath s.cwd.str [b]) = []
  . exact ((deleteEntries_files hinv hnul hkids hloop).2 _).mpr hroot
  obtain ⟨c, hc⟩ := List.exists_mem_of_ne_nil _ hkids
  obtain ⟨cs, hn⟩ := hinv.normal_of_subdirs hc
  have hcs : cs ≠ [] := by
    rintro rfl
    exact hpath hn.out
  have hslash : ∀ q, slash ∉ q → slash ∉ b :: q := by
    intro q hq
    rw [List.mem_cons, not_or]
    exact ⟨hb.symm, hq⟩
  by_cases hdot : b = dot
  . subst hdot
    have hn' : Normal cs (walk s.cwd.str []) := by rwa [walk_dot hinv.cwd] at hn
    obtain ⟨d, cs', rfl⟩ := List.exists_cons_of_ne_nil hcs
    -- whatever is not left as `.` or `..` is a name
    have hname : ∀ q, slash ∉ q → q.length ≤ 254 → q ≠ [] → q ≠ [dot] →
        absPath s.cwd.str (dot :: q) ≠ [slash] := by
      intro q hq hlen hnil hne
      apply absPath_name_ne_root hinv.cwd _ (by simp; omega)
      exact ⟨by simp, hslash q hq, by simpa using hnil, by simpa using hne⟩
    have hdd := absPath.step_dotdot hn'
    rw [← walk_dotdot hinv.cwd] at hdd
    by_cases hcs' : cs' = []
    . subst hcs'
      have hself := usedDir_of_exists hexists hn (by simp)
      have hrule := dot_loop (Q := fun t => t.UsedDir [slash]) (J := fun t => t.UsedDir [slash])
        (fun _ _ _ => no_newline_of_success) hinv hn' hself usedDir_root_fsDeleteFile
        (fun _ h => h) ?_ hroot hloop
      . by_cases hrc : rc₁ = 0
        . exact (hrule.1 hrc).2
        . exact hrule.2 hrc
      . intro c t rc₂ t' hdotInv hkid hroot' hnul' hcall
        have hcwd := hdotInv.deletes.cwd
        have hinv' := hdotInv.deletes.inv hinv
        have hlen := hinv.kid_length hkid
        have hsep := length_sepd_pos [d]
        have hafter := length_afterNewline_le c
        suffices t'.UsedDir [slash] from ⟨fun _ => this, fun _ => this⟩
        by_cases hdotdot : afterNewline c = [dot]
        . have hst := hdotInv.stuck (hn.canon.comps d (by simp)) hkid hdotdot
          rw [hdotdot] at hcall hnul'
          exact hstuck _ _ _ _ hinv' hnul' hroot' (Or.inr (by simp)) (by rw [hcwd]; exact hdd.out)
            hst hcall
        . have hne : absPath t.cwd.str (dot :: afterNewline c) ≠ [slash] := by
            rw [hcwd]
            by_cases hnil : afterNewline c = []
            . rwa [hnil]
            . apply hname _ _ (by omega) hnil hdotdot
              intro hmem
              exact hkid.no_slash (mem_of_mem_afterNewline hmem)
          exact hkeep _ _ _ _ hinv' hnul' hroot' (Or.inl hne) hcall
    . apply single_loop_keeps_root hkeep hinv hb hnul hroot _ hn hloop
      intro q hq hlen
      by_cases hnil : q = []
      . rwa [hnil]
      . by_cases hdotdot : q = [dot]
        . rw [hdotdot]
          exact Normal.ne_root hdd hcs'
        . exact hname q hq hlen hnil hdotdot
  . apply single_loop_keeps_root hkeep hinv hb hnul hroot _ hn hloop
    intro q hq hlen
    apply absPath_name_ne_root hinv.cwd _ (by simp; omega)
    exact ⟨by simp, hslash q hq, by simp [hdot], by simp [hdot]⟩

theorem keepsRoot (n : Nat) : KeepsRoot n ∧ StuckKeepsRoot n := by
  induction n with
  | zero =>
    refine ⟨?_, ?_⟩
    . intro s path rc s' _ _ _ _ h
      simp [fsDeleteDirectoryRecursive] at h
    . intro s path rc s' _ _ _ _ _ _ h
      simp [fsDeleteDirectoryRecursive] at h
  | succ n ih =>
    obtain ⟨hkeep, hstuck⟩ := ih
    refine ⟨?_, stuckKeepsRoot_succ hkeep hstuck⟩
    intro s path rc s' hinv hnul hroot hpath h
    by_cases hproper : Proper path
    . exact proper_keeps_root hkeep hstuck hinv hnul hproper hroot hpath h
    have hpath : absPath s.cwd.str path ≠ [slash] := by
      obtain hpath | hpath := hpath
      . exact hpath
      . exact absurd (Or.inl hpath) hproper
    by_cases hlen : 255 < path.length
    . exact long_keeps_root hkeep hstuck hinv hnul hlen hroot hpath h
    cases path with
    | nil =>
      obtain ⟨_, e, rfl⟩ | ⟨hne, _⟩ := fsDeleteDirectoryRecursive_cases h
      . exact hroot
      . contradiction
    | cons b rest =>
      cases rest with
      | nil =>
        have hb : b ≠ slash := by
          rintro rfl
          exact hproper (Or.inl rfl)
        exact single_keeps_root hkeep hstuck hinv hb hnul hroot hpath h
      | cons b' rest =>
        apply absurd _ hproper
        right
        simp only [List.length_cons] at *
        omega

end Keep

end TanjaOS
