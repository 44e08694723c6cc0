import TanjaOS.Fs.Delete.Lemmas

/-!
What a recursive delete that succeeds says about the directories it went through. An entry whose
name does not come back from the listing as it is, or whose path does not fit the 255 bytes that
there are for it, leads somewhere else; but then the entry itself stays, and the call fails.
-/

open Lib

namespace TanjaOS

open absPath (Normal walk)

/--
`x` is the directory with the components `cs` or lies below it.
-/
def Below (cs : List Bytes) (x : Bytes) : Prop :=
  x = render cs ∨ sepd cs <+: x

/--
The path of the entry `c` of `path` leads to `c`.
-/
structure Fits (path c : Bytes) : Prop where
  comp : Comp c
  no_newline : newline ∉ c
  len : (slashed path).length + c.length ≤ 255

/--
The path of the entry `c'` of the entry `c` of `path` leads to `c'`.
-/
structure FitsBelow (path c c' : Bytes) : Prop where
  comp : Comp c'
  no_newline : newline ∉ c'
  len : (slashed path).length + c.length + 1 + c'.length ≤ 255

/--
What is left of the name `c` in the path of this entry of `path`.
-/
def target (path c : Bytes) : Bytes :=
  (afterNewline c).take (255 - (slashed path).length)

theorem childPath_afterNewline {path : Bytes} (h : Proper path) (c : Bytes)
    : childPath path (afterNewline c) = slashed path ++ target path c :=
  childPath_eq h _

theorem slash_not_mem_target {path c : Bytes} (h : slash ∉ c) : slash ∉ target path c := by
  intro hmem
  exact h (mem_of_mem_afterNewline (List.mem_of_mem_take hmem))

theorem newline_not_mem_target (path c : Bytes) : newline ∉ target path c := by
  intro hmem
  exact newline_not_mem_afterNewline c (List.mem_of_mem_take hmem)

theorem length_target_le {path : Bytes} (h : Proper path) (c : Bytes)
    : (slashed path).length + (target path c).length ≤ 255 := by
  have := length_slashed_le h
  unfold target
  rw [List.length_take]
  omega

theorem length_target_le_self (path c : Bytes) : (target path c).length ≤ c.length := by
  have := length_afterNewline_le c
  unfold target
  rw [List.length_take]
  omega

theorem target_of_fits {path c : Bytes} (hnl : newline ∉ c)
    (hlen : (slashed path).length + c.length ≤ 255)
    : target path c = c := by
  unfold target
  rw [afterNewline_of_not_mem hnl, List.take_of_length_le (by omega)]

theorem target_target {path : Bytes} (h : Proper path) (c : Bytes)
    : target path (target path c) = target path c :=
  target_of_fits (newline_not_mem_target path c) (length_target_le h c)

theorem length_slashed_append (path : Bytes) {f : Bytes} (hf : slash ∉ f) (hne : f ≠ [])
    (hlen : (slashed path).length + f.length < 255)
    : slashed (slashed path ++ f) = slashed path ++ f ++ [slash] := by
  have hno : ¬((slashed path ++ f).getLast? = some slash ∨ 255 ≤ (slashed path ++ f).length) := by
    rw [not_or, List.getLast?_append_of_ne_nil _ hne, List.length_append]
    refine ⟨?_, by omega⟩
    intro hlast
    exact hf (List.mem_of_getLast? hlast)
  rw [slashed, if_neg hno]

theorem not_below_kid {cs : List Bytes} {f c : Bytes} (hc : slash ∉ c) (hne : f ≠ c)
    : ¬Below (f :: cs) (sepd cs ++ c) := by
  rintro (heq | hpre)
  . exact hne (List.append_cancel_left heq).symm
  . rw [sepd, List.append_assoc, List.prefix_append_right_inj] at hpre
    exact hc (hpre.subset (by simp))

theorem not_below_grandkid {cs : List Bytes} {f c : Bytes} (c' : Bytes) (hf : slash ∉ f)
    (hc : slash ∉ c) (hne : f ≠ c)
    : ¬Below (f :: cs) (sepd (c :: cs) ++ c') := by
  have hsepd : sepd (c :: cs) ++ c' = sepd cs ++ (c ++ slash :: c') := by simp [sepd]
  have hfirst : ∀ w v : Bytes, slash ∉ w → (w ++ slash :: v).takeWhile (· ≠ slash) = w := by
    intro w v hw
    rw [List.takeWhile_append_of_pos]
    . simp
    . intro b hb
      simp only [ne_eq, decide_not, Bool.not_eq_eq_eq_not, Bool.not_true, decide_eq_false_iff_not]
      rintro rfl
      contradiction
  rw [hsepd]
  rintro (heq | hpre)
  . have := List.append_cancel_left heq
    rw [← this] at hf
    simp at hf
  . rw [sepd, List.append_assoc, List.prefix_append_right_inj] at hpre
    obtain ⟨rest, hrest⟩ := hpre
    rw [List.append_assoc, List.singleton_append] at hrest
    -- both sides have their first slash behind `f` and `c`
    have htake := congrArg (List.takeWhile (· ≠ slash)) hrest
    rw [hfirst f rest hf, hfirst c c' hc] at htake
    exact hne htake

theorem not_below_self {cs : List Bytes} {f : Bytes} (hne : f ≠ []) : ¬Below (f :: cs) (render cs) := by
  have hpos := List.length_pos_of_ne_nil hne
  have hle := length_render_le_sepd cs
  rintro (heq | hpre)
  . have := congrArg List.length heq
    rw [render, List.length_append] at this
    omega
  . have := hpre.length_le
    simp only [sepd, List.length_append, List.length_singleton] at this
    omega

theorem Below.of_kid {cs : List Bytes} {f x : Bytes} (h : Below (f :: cs) x) : Below cs x := by
  right
  obtain rfl | hpre := h
  . exact List.prefix_append _ _
  . rw [sepd, List.append_assoc] at hpre
    exact (List.prefix_append _ _).trans hpre

theorem Normal.unique {cs cs' : List Bytes} {st : absPath.State} (h : Normal cs st)
    (h' : Normal cs' st)
    : cs = cs' := by
  have hout := h.out.symm.trans h'.out
  have := congrArg components hout
  rw [components_render h.canon.comps, components_render h'.canon.comps] at this
  exact List.reverse_injective this

/--
A call that succeeded: the directory was there and is gone, nothing outside of it is, and the paths
of its entries and of their entries led where they should.
-/
structure Success (s : FsState) (path : Bytes) (s' : FsState) : Prop where
  used : s.UsedDir (absPath s.cwd.str path)
  unused : ¬s'.UsedDir (absPath s.cwd.str path)
  frame : ∀ x, s.UsedDir x → x ≠ absPath s.cwd.str path →
    (∀ cs, Normal cs (walk s.cwd.str path) → ¬Below cs x) → s'.UsedDir x
  kids : ∀ cs c, Normal cs (walk s.cwd.str path) → IsKid s cs c → Fits path c
  grandkids : ∀ cs c c', Normal cs (walk s.cwd.str path) → IsKid s cs c → IsKid s (c :: cs) c' →
    FitsBelow path c c'

theorem Success.frame_of_normal {s s' : FsState} {path x : Bytes} {cs : List Bytes}
    (h : Success s path s') (hn : Normal cs (walk s.cwd.str path)) (hx : s.UsedDir x)
    (hbelow : ¬Below cs x)
    : s'.UsedDir x := by
  apply h.frame x hx
  . rintro rfl
    exact hbelow (Or.inl hn.out)
  . intro cs' hn'
    rwa [← Normal.unique hn hn']

theorem Proper.child {path : Bytes} (h : Proper path) (c : Bytes)
    : Proper (slashed path ++ target path c) := by
  have hlen := length_target_le h c
  have hle := length_le_slashed path
  obtain rfl | ⟨hlo, _⟩ := h
  . have hslashed : slashed [slash] = [slash] := by simp [slashed]
    rw [hslashed] at hlen ⊢
    cases htgt : target [slash] c with
    | nil => exact Or.inl rfl
    | cons b t =>
      rw [htgt] at hlen
      right
      simp only [List.singleton_append, List.length_cons] at hlen ⊢
      omega
  . right
    rw [List.length_append]
    omega

theorem length_slashed_child_le (path f : Bytes)
    : (slashed path).length ≤ (slashed (slashed path ++ f)).length := by
  have := length_le_slashed (slashed path ++ f)
  rw [List.length_append] at this
  omega

theorem not_fits_of_target {path path' c : Bytes} (h : ¬Comp (target path c))
    (hle : (slashed path).length ≤ (slashed path').length)
    : ¬Fits path' c := by
  intro hfits
  have := hfits.len
  rw [target_of_fits hfits.no_newline (by omega)] at h
  exact h hfits.comp

theorem not_fitsBelow_of_target {path path' c d : Bytes} (h : ¬Comp (target path c))
    (hle : (slashed path).length ≤ (slashed path').length)
    : ¬FitsBelow path' d c := by
  intro hfits
  have := hfits.len
  rw [target_of_fits hfits.no_newline (by omega)] at h
  exact h hfits.comp

theorem eq_of_not_comp {t : Bytes} (hslash : slash ∉ t) (h : ¬Comp t)
    : t = [] ∨ t = [dot] ∨ t = [dot, dot] := by
  by_contra hno
  simp only [not_or] at hno
  exact h ⟨hno.1, hslash, hno.2.1, hno.2.2⟩

theorem FsState.UsedDir.kid {s : FsState} {d : Bytes} {cs : List Bytes}
    (h : s.UsedDir (render (d :: cs))) (hcomp : Comp d)
    : IsKid s cs d :=
  ⟨h, hcomp.ne_nil, hcomp.no_slash⟩

/--
The loop over the entries of `path` as long as every call in it succeeds. `s₀` is the state before
the loop, `done` are the subdirectories whose entries have been dealt with.
-/
structure LoopInv (s₀ : FsState) (path : Bytes) (cs done : List Bytes) (s : FsState) : Prop where
  deletes : Deletes s₀ s
  comp : ∀ c ∈ done, Comp (target path c)
  kid : ∀ c ∈ done, IsKid s₀ cs (target path c)
  gone : ∀ c ∈ done, ¬s.UsedDir (sepd cs ++ target path c)
  nodup : (done.map (target path)).Nodup
  frame : ∀ x, s₀.UsedDir x → (∀ c ∈ done, ¬Below (target path c :: cs) x) → s.UsedDir x
  below : ∀ c ∈ done, ∀ c', IsKid s₀ (target path c :: cs) c' → FitsBelow path (target path c) c'

namespace LoopInv

section

variable {s₀ s s' : FsState} {path c : Bytes} {cs done : List Bytes}

theorem init (h : Deletes s₀ s) (hdirs : ∀ x, s₀.UsedDir x → s.UsedDir x)
    : LoopInv s₀ path cs [] s where
  deletes := h
  comp := by simp
  kid := by simp
  gone := by simp
  nodup := by simp
  frame x hx _ := hdirs x hx
  below := by simp

theorem congr (h : LoopInv s₀ path cs done s) (hdel : Deletes s s')
    (hdirs : ∀ x, s'.UsedDir x ↔ s.UsedDir x)
    : LoopInv s₀ path cs done s' where
  deletes := h.deletes.trans hdel
  comp := h.comp
  kid := h.kid
  gone c hc := by
    rw [hdirs]
    exact h.gone c hc
  nodup := h.nodup
  frame x hx hbelow := by
    rw [hdirs]
    exact h.frame x hx hbelow
  below := h.below

theorem kid_stays (h : LoopInv s₀ path cs done s) (hproper : Proper path) (hkid : IsKid s₀ cs c)
    (htgt : ¬Comp (target path c))
    : IsKid s cs c := by
  refine ⟨?_, hkid.ne_nil, hkid.no_slash⟩
  apply h.frame _ hkid.used
  intro d hd
  apply not_below_kid hkid.no_slash
  rintro rfl
  rw [target_target hproper] at htgt
  exact htgt (h.comp d hd)

theorem self_stays (h : LoopInv s₀ path cs done s) (hused : s₀.UsedDir (render cs))
    : s.UsedDir (render cs) := by
  apply h.frame _ hused
  intro d hd
  exact not_below_self (h.comp d hd).ne_nil

end

end LoopInv

theorem walk_special {cwd path : Bytes} {cs : List Bytes} {t : Bytes} (hproper : Proper path)
    (hcwd : cwd.length ≤ 255) (hn : Normal cs (walk cwd path)) (hslash : slash ∉ t)
    (hlen : (slashed path).length + t.length ≤ 255) (ht : ¬Comp t)
    : Normal cs (walk cwd (slashed path ++ t))
      ∨ (t = [dot, dot] ∧ ∃ d cs', cs = d :: cs' ∧ Normal cs' (walk cwd (slashed path ++ t))) := by
  rw [walk_child hproper hcwd hslash hlen]
  obtain rfl | rfl | rfl := eq_of_not_comp hslash ht
  . exact Or.inl hn
  . rw [if_neg (by simp), absPath.step_dot]
    exact Or.inl hn
  . rw [if_neg (by simp)]
    cases cs with
    | nil => exact Or.inl (absPath.step_dotdot_nil hn)
    | cons d cs' => exact Or.inr ⟨rfl, d, cs', rfl, absPath.step_dotdot hn⟩

theorem walk_target {s₀ : FsState} {path c : Bytes} {cs : List Bytes} (hinv : NsInv s₀)
    (hproper : Proper path) (hn : Normal cs (walk s₀.cwd.str path)) (hkid : IsKid s₀ cs c)
    (htgt : Comp (target path c))
    : Normal (target path c :: cs) (walk s₀.cwd.str (slashed path ++ target path c)) := by
  rw [walk_child hproper hinv.cwd.length_le htgt.no_slash (length_target_le hproper c),
    if_neg htgt.ne_nil]
  have := hinv.kid_length hkid
  have := length_target_le_self path c
  exact absPath.step_push hn htgt (hinv.kid_depth hn.canon hkid) (by omega)

namespace LoopInv

variable {s₀ s s' : FsState} {path c : Bytes} {cs done : List Bytes}

theorem target_comp (h : LoopInv s₀ path cs done s) (hinv : NsInv s₀) (hproper : Proper path)
    (hn : Normal cs (walk s₀.cwd.str path)) (hused : cs ≠ [] → s₀.UsedDir (render cs))
    (hkid : IsKid s₀ cs c) (hsucc : Success s (slashed path ++ target path c) s')
    : Comp (target path c) := by
  by_contra htgt
  have hstays := h.kid_stays hproper hkid htgt
  have hle := length_slashed_child_le path (target path c)
  have hwalk := walk_special hproper hinv.cwd.length_le hn (slash_not_mem_target hkid.no_slash)
    (length_target_le hproper c) htgt
  rw [← h.deletes.cwd] at hwalk
  obtain hn' | ⟨_, d, cs', rfl, hn'⟩ := hwalk
  . exact not_fits_of_target htgt hle (hsucc.kids cs c hn' hstays)
  . have hself := (h.self_stays (hused (by simp))).kid (hn.canon.comps d (by simp))
    exact not_fitsBelow_of_target htgt hle (hsucc.grandkids cs' d c hn' hself hstays)

theorem step (h : LoopInv s₀ path cs done s) (hinv : NsInv s₀) (hproper : Proper path)
    (hn : Normal cs (walk s₀.cwd.str path)) (hused : cs ≠ [] → s₀.UsedDir (render cs))
    (hkid : IsKid s₀ cs c) (hsucc : Success s (slashed path ++ target path c) s')
    (hdel : Deletes s s')
    : LoopInv s₀ path cs (c :: done) s' := by
  have htgt := h.target_comp hinv hproper hn hused hkid hsucc
  have hn' := walk_target hinv hproper hn hkid htgt
  rw [← h.deletes.cwd] at hn'
  have hout : absPath s.cwd.str (slashed path ++ target path c) = sepd cs ++ target path c := hn'.out
  have hwas := hsucc.used
  rw [hout] at hwas
  have hnew : ∀ d ∈ done, target path d ≠ target path c := by
    intro d hd heq
    apply h.gone d hd
    rwa [heq]
  refine ⟨h.deletes.trans hdel, ?_, ?_, ?_, ?_, ?_, ?_⟩
  . intro d hd
    rw [List.mem_cons] at hd
    obtain rfl | hd := hd
    . exact htgt
    . exact h.comp d hd
  . intro d hd
    rw [List.mem_cons] at hd
    obtain rfl | hd := hd
    . exact ⟨h.deletes.dirs _ hwas, htgt.ne_nil, htgt.no_slash⟩
    . exact h.kid d hd
  . intro d hd
    rw [List.mem_cons] at hd
    obtain rfl | hd := hd
    . have := hsucc.unused
      rwa [hout] at this
    . intro hd'
      exact h.gone d hd (hdel.dirs _ hd')
  . rw [List.map_cons, List.nodup_cons]
    refine ⟨?_, h.nodup⟩
    rw [List.mem_map]
    rintro ⟨d, hd, heq⟩
    exact hnew d hd heq
  . intro x hx hbelow
    apply hsucc.frame_of_normal hn'
    . apply h.frame x hx
      intro d hd
      exact hbelow d (by simp [hd])
    . exact hbelow c (by simp)
  . intro d hd c' hkid'
    rw [List.mem_cons] at hd
    obtain rfl | hd := hd
    . -- the entries below are still there when the call for `d` starts
      have hstays : IsKid s (target path d :: cs) c' := by
        refine ⟨?_, hkid'.ne_nil, hkid'.no_slash⟩
        apply h.frame _ hkid'.used
        intro e he
        exact not_below_grandkid c' (h.comp e he).no_slash htgt.no_slash (hnew e he)
      have hfits := hsucc.kids _ c' hn' hstays
      have hlen := hfits.len
      have hpos := List.length_pos_of_ne_nil hkid'.ne_nil
      have hle := length_le_slashed (slashed path ++ target path d)
      rw [List.length_append] at hle
      rw [length_slashed_append path htgt.no_slash htgt.ne_nil (by omega)] at hlen
      simp only [List.length_append, List.length_singleton] at hlen
      exact ⟨hfits.comp, hfits.no_newline, by omega⟩
    . exact h.below d hd c' hkid'

theorem target_eq (h : LoopInv s₀ path cs done s) (hproper : Proper path)
    (hall : ∀ c, IsKid s₀ cs c → c ∈ done) (hkid : IsKid s₀ cs c)
    : target path c = c := by
  have hc := hall c hkid
  have htgt := hall _ (h.kid c hc)
  exact List.inj_on_of_nodup_map h.nodup htgt hc (target_target hproper c)

theorem kids (h : LoopInv s₀ path cs done s) (hproper : Proper path)
    (hall : ∀ c, IsKid s₀ cs c → c ∈ done) (hkid : IsKid s₀ cs c)
    : Fits path c := by
  have heq := h.target_eq hproper hall hkid
  have hlen := length_target_le hproper c
  have hnl := newline_not_mem_target path c
  have hcomp := h.comp c (hall c hkid)
  rw [heq] at hlen hnl hcomp
  exact ⟨hcomp, hnl, hlen⟩

theorem grandkids {c' : Bytes} (h : LoopInv s₀ path cs done s) (hproper : Proper path)
    (hall : ∀ c, IsKid s₀ cs c → c ∈ done) (hkid : IsKid s₀ cs c) (hkid' : IsKid s₀ (c :: cs) c')
    : FitsBelow path c c' := by
  have heq := h.target_eq hproper hall hkid
  have := h.below c (hall c hkid) c'
  rw [heq] at this
  exact this hkid'

end LoopInv

section Loop

variable {n : Nat} {s s₁ : FsState} {path : Bytes} {rc : Int}

theorem deleteEntries_subdirs {I : List Bytes → FsState → Prop} {J : FsState → Prop}
    (hinv : NsInv s) (hnul : 0 ∉ path)
    (hfile : ∀ rest t p, 0 ∉ p → I rest t → I rest (fsDeleteFile t p).2)
    (hdir : ∀ c rest t rc t', 0 ∉ childPath path (afterNewline c) → I (c :: rest) t →
      fsDeleteDirectoryRecursive n t (childPath path (afterNewline c)) = some (rc, t') →
      (rc = 0 → I rest t') ∧ (rc ≠ 0 → J t'))
    (hfail : ∀ rest t, I rest t → J t)
    (h : I (subdirs s (absPath s.cwd.str path)) { s with fsErrno := 0 })
    (hloop : deleteEntries (fsDeleteDirectoryRecursive n) path
      (splitEntries (fsListDirectory.lines s (absPath s.cwd.str path))) { s with fsErrno := 0 }
        = some (rc, s₁))
    : (rc = 0 → I [] s₁) ∧ (rc ≠ 0 → J s₁) := by
  have hpieces := dirPieces_lines_subdirs (s := s) (absPath_text s.cwd.str path).ne_nil
    (absPath_text s.cwd.str path).length_le hinv.dirNames_length
  have hrule := deleteEntries_rule (P := fun e => 0 ∉ e)
    (I := fun qs t => ∃ rest : List Bytes, qs = rest.map afterNewline ∧ I rest t) (J := J)
    ?_ ?_ ?_ (fun _ => zero_not_mem_dropLast) (zero_not_mem_entries _ _) ⟨_, hpieces, h⟩ hloop
  . refine ⟨?_, hrule.2⟩
    intro hrc
    obtain ⟨rest, hnil, hI⟩ := hrule.1 hrc
    rwa [List.map_eq_nil_iff.mp hnil.symm] at hI
  . rintro qs t entry hentry ⟨rest, hqs, hI⟩
    exact ⟨rest, hqs, hfile rest t _ (zero_not_mem_childPath hnul hentry) hI⟩
  . rintro q qs t rc₂ t' hq ⟨rest, hqs, hI⟩ hcall
    cases rest with
    | nil => simp at hqs
    | cons c rest =>
      simp only [List.map_cons, List.cons.injEq] at hqs
      obtain ⟨rfl, rfl⟩ := hqs
      have hstep := hdir c rest t rc₂ t' (zero_not_mem_childPath hnul hq) hI hcall
      exact ⟨fun hrc => ⟨rest, rfl, hstep.1 hrc⟩, hstep.2⟩
  . rintro qs t ⟨rest, _, hI⟩
    exact hfail rest t hI

theorem deleteEntries_loop {cs : List Bytes} {Q J : FsState → Prop}
    (hsuccess : ∀ t p t', NsInv t → 0 ∉ p → Proper p →
      fsDeleteDirectoryRecursive n t p = some (0, t') → Success t p t')
    (hinv : NsInv s) (hnul : 0 ∉ path) (hproper : Proper path)
    (hn : Normal cs (walk s.cwd.str path)) (hused : cs ≠ [] → s.UsedDir (render cs))
    (hfile : ∀ t p, Q t → Q (fsDeleteFile t p).2) (hfail : ∀ t, Q t → J t)
    (hstep : ∀ done c t rc t', LoopInv s path cs done t → IsKid s cs c → Q t →
      0 ∉ slashed path ++ target path c →
      fsDeleteDirectoryRecursive n t (slashed path ++ target path c) = some (rc, t') →
      (rc = 0 → Q t') ∧ (rc ≠ 0 → J t'))
    (hQ : Q { s with fsErrno := 0 })
    (hloop : deleteEntries (fsDeleteDirectoryRecursive n) path
      (splitEntries (fsListDirectory.lines s (absPath s.cwd.str path))) { s with fsErrno := 0 }
        = some (rc, s₁))
    : (rc = 0 → (∃ done, (∀ c, IsKid s cs c → c ∈ done) ∧ LoopInv s path cs done s₁) ∧ Q s₁)
      ∧ (rc ≠ 0 → J s₁) := by
  have hkids : ∀ c, c ∈ subdirs s (absPath s.cwd.str path) ↔ IsKid s cs c := by
    intro c
    rw [absPath_eq, hn.out, hinv.mem_subdirs hn.canon]
  have hrule := deleteEntries_subdirs
    (I := fun rest t => (∃ done, (∀ c ∈ rest, IsKid s cs c)
      ∧ (∀ c, IsKid s cs c → c ∈ done ∨ c ∈ rest) ∧ LoopInv s path cs done t) ∧ Q t)
    (J := J) hinv hnul ?_ ?_ ?_ ?_ hloop
  . refine ⟨?_, hrule.2⟩
    intro hrc
    obtain ⟨⟨done, _, hall, hinv'⟩, hQ'⟩ := hrule.1 hrc
    exact ⟨⟨done, by simpa using hall, hinv'⟩, hQ'⟩
  . rintro rest t p hp ⟨⟨done, hrest, hall, hinv'⟩, hQ'⟩
    refine ⟨⟨done, hrest, hall, ?_⟩, hfile _ _ hQ'⟩
    apply hinv'.congr (fsDeleteFile_deletes t ⟨p, hp⟩)
    intro x
    exact usedDir_fsDeleteFile t p x
  . rintro c rest t rc₂ t' hnul' ⟨⟨done, hrest, hall, hinv'⟩, hQ'⟩ hcall
    have hkid := hrest c (by simp)
    rw [childPath_afterNewline hproper] at hcall hnul'
    have hstep' := hstep done c t rc₂ t' hinv' hkid hQ' hnul' hcall
    refine ⟨?_, hstep'.2⟩
    rintro rfl
    have hsucc := hsuccess _ _ _ (hinv'.deletes.inv hinv) hnul' (hproper.child c) hcall
    have hdel := fsDeleteDirectoryRecursive_deletes hnul' hcall
    refine ⟨⟨c :: done, ?_, ?_, ?_⟩, hstep'.1 rfl⟩
    . intro d hd
      exact hrest d (by simp [hd])
    . intro d hd
      have := hall d hd
      simp only [List.mem_cons] at this ⊢
      tauto
    . exact hinv'.step hinv hproper hn hused hkid hsucc hdel
  . rintro rest t ⟨_, hQ'⟩
    exact hfail t hQ'
  . refine ⟨⟨[], ?_, ?_, ?_⟩, hQ⟩
    . intro c hc
      exact (hkids c).mp hc
    . intro c hc
      exact Or.inr ((hkids c).mpr hc)
    . exact LoopInv.init (Deletes.errno s 0) (fun x hx => hx)

theorem deleteEntries_files (hinv : NsInv s) (hnul : 0 ∉ path)
    (hkids : subdirs s (absPath s.cwd.str path) = [])
    (hloop : deleteEntries (fsDeleteDirectoryRecursive n) path
      (splitEntries (fsListDirectory.lines s (absPath s.cwd.str path))) { s with fsErrno := 0 }
        = some (rc, s₁))
    : Deletes s s₁ ∧ ∀ x, s₁.UsedDir x ↔ s.UsedDir x := by
  have hrule := deleteEntries_subdirs
    (I := fun rest t => rest = [] ∧ Deletes s t ∧ ∀ x, t.UsedDir x ↔ s.UsedDir x)
    (J := fun t => Deletes s t ∧ ∀ x, t.UsedDir x ↔ s.UsedDir x) hinv hnul ?_ ?_ ?_
    ⟨hkids, Deletes.errno s 0, fun x => Iff.rfl⟩ hloop
  . by_cases hrc : rc = 0
    . exact (hrule.1 hrc).2
    . exact hrule.2 hrc
  . rintro rest t p hp ⟨rfl, hdel, hdirs⟩
    refine ⟨rfl, hdel.trans (fsDeleteFile_deletes t ⟨p, hp⟩), ?_⟩
    intro x
    rw [usedDir_fsDeleteFile]
    exact hdirs x
  . rintro c rest t rc₂ t' _ ⟨hnil, _⟩
    simp at hnil
  . rintro rest t ⟨_, h⟩
    exact h

end Loop

theorem fsDeleteDirectory_usedDir {s : FsState} (path : CStr) (hinv : NsInv s)
    (h : (fsDeleteDirectory s path).1 = 0)
    : s.UsedDir (absPath s.cwd.str path)
        ∧ ∀ x, (fsDeleteDirectory s path).2.UsedDir x
            ↔ s.UsedDir x ∧ x ≠ absPath s.cwd.str path := by
  obtain ⟨e, _, hrc⟩ | ⟨i, heq, hdir, _⟩ := fsDeleteDirectory_cases s path
  . contradiction
  . rw [heq]
    refine ⟨⟨i, hdir⟩, ?_⟩
    intro x
    constructor
    . rintro ⟨j, hj⟩
      obtain ⟨hne, hj⟩ := FsState.isDir_dropDir.mp hj
      refine ⟨⟨j, hj⟩, ?_⟩
      rintro rfl
      exact hne (hinv.dir_unique j i _ hj hdir)
    . rintro ⟨⟨j, hj⟩, hx⟩
      refine ⟨j, FsState.isDir_dropDir.mpr ⟨?_, hj⟩⟩
      rintro rfl
      exact hx (hj.2.symm.trans hdir.2)

theorem usedDir_of_exists {s : FsState} {path : Bytes} {cs : List Bytes}
    (h : fsDirectoryExists s path) (hn : Normal cs (walk s.cwd.str path)) (hcs : cs ≠ [])
    : s.UsedDir (render cs) := by
  have hroot : path ≠ [slash] := by
    rintro rfl
    exact hcs (Normal.unique hn (absPath.walk_render Canon.nil))
  unfold fsDirectoryExists at h
  split at h
  . simp at h
  . rwa [dirIndex_isSome, absPath_eq, hn.out] at h

theorem success {n : Nat} {s s' : FsState} {path : Bytes} (hinv : NsInv s) (hnul : 0 ∉ path)
    (hproper : Proper path) (h : fsDeleteDirectoryRecursive n s path = some (0, s'))
    : Success s path s' := by
  induction n generalizing s s' path with
  | zero => simp [fsDeleteDirectoryRecursive] at h
  | succ n ih =>
    obtain ⟨hne, _⟩ | ⟨_, hexists, rc₁, s₁, hloop, hend⟩ := fsDeleteDirectoryRecursive_cases h
    . contradiction
    obtain ⟨_, hne, _⟩ | ⟨rfl, rfl, hrc⟩ := hend
    . contradiction
    have hrc := hrc rfl
    by_cases hkids : subdirs s (absPath s.cwd.str path) = []
    . obtain ⟨hdel, hdirs⟩ := deleteEntries_files hinv hnul hkids hloop
      obtain ⟨hused, hafter⟩ := fsDeleteDirectory_usedDir ⟨path, hnul⟩ (hdel.inv hinv) hrc
      simp only [hdel.cwd, hdirs] at hused hafter
      have hnone : ∀ cs c, Normal cs (walk s.cwd.str path) → ¬IsKid s cs c := by
        intro cs c hn hkid
        rw [← hinv.mem_subdirs hn.canon, ← hn.out, ← absPath_eq, hkids] at hkid
        simp at hkid
      refine ⟨hused, ?_, ?_, ?_, ?_⟩
      . rw [hafter]
        simp
      . intro x hx hne _
        rw [hafter]
        exact ⟨hx, hne⟩
      . intro cs c hn hkid
        exact absurd hkid (hnone cs c hn)
      . intro cs c c' hn hkid
        exact absurd hkid (hnone cs c hn)
    . obtain ⟨c, hc⟩ := List.exists_mem_of_ne_nil _ hkids
      obtain ⟨cs, hn⟩ := hinv.normal_of_subdirs hc
      have hused := usedDir_of_exists hexists hn
      have hsuccess : ∀ t p t', NsInv t → 0 ∉ p → Proper p →
          fsDeleteDirectoryRecursive n t p = some (0, t') → Success t p t' := by
        intro t p t' hinv' hnul' hproper' hcall
        exact ih hinv' hnul' hproper' hcall
      obtain ⟨⟨done, hall, hloopInv⟩, _⟩ := (deleteEntries_loop (Q := fun _ => True)
        (J := fun _ => True) hsuccess hinv hnul hproper hn hused (fun _ _ h => h) (fun _ h => h)
        (fun _ _ _ _ _ _ _ _ _ _ => ⟨fun _ => trivial, fun _ => trivial⟩) trivial hloop).1 rfl
      have hdel := hloopInv.deletes
      obtain ⟨hused', hafter⟩ := fsDeleteDirectory_usedDir ⟨path, hnul⟩ (hdel.inv hinv) hrc
      simp only [hdel.cwd] at hused' hafter
      refine ⟨hdel.dirs _ hused', ?_, ?_, ?_, ?_⟩
      . rw [hafter]
        simp
      . intro x hx hne hbelow
        rw [hafter]
        refine ⟨?_, hne⟩
        apply hloopInv.frame x hx
        intro d _ hd
        exact hbelow cs hn hd.of_kid
      . intro cs' c' hn' hkid
        obtain rfl := Normal.unique hn hn'
        exact hloopInv.kids hproper hall hkid
      . intro cs' c' c'' hn' hkid hkid'
        obtain rfl := Normal.unique hn hn'
        exact hloopInv.grandkids hproper hall hkid hkid'

end TanjaOS
