import TanjaOS.Fs.Listing
import TanjaOS.Shell.Glob
import TanjaOS.Shell.Words

/-!
Wildcards in the arguments of a command: each word with a `*` becomes the names in its directory that
match, all of them, once each, in order.
-/

open Lib

namespace TanjaOS

section Order

theorem globNameLe_total (a b : Bytes) : globNameLe a b = true ∨ globNameLe b a = true := by
  induction a generalizing b with
  | nil => exact Or.inl rfl
  | cons x a ih =>
    cases b with
    | nil => exact Or.inr rfl
    | cons y b =>
      unfold globNameLe
      by_cases hxy : x = y
      . rw [if_pos hxy, if_pos hxy.symm]
        exact ih b
      . rw [if_neg hxy, if_neg (Ne.symm hxy), decide_eq_true_eq, decide_eq_true_eq]
        have hne : x.toInt8 ≠ y.toInt8 := fun h => hxy (congrArg Int8.toUInt8 h)
        rcases Int8.lt_or_lt_of_ne hne with h | h
        . exact Or.inl h
        . exact Or.inr h

theorem globNameLe_trans {a b c : Bytes} (hab : globNameLe a b = true) (hbc : globNameLe b c = true)
    : globNameLe a c = true := by
  induction a generalizing b c with
  | nil => rfl
  | cons x a ih =>
    cases b with
    | nil => contradiction
    | cons y b =>
      cases c with
      | nil => contradiction
      | cons z c =>
        unfold globNameLe at hab hbc ⊢
        by_cases hxy : x = y
        . subst hxy
          rw [if_pos rfl] at hab
          by_cases hyz : x = z
          . rw [if_pos hyz] at hbc ⊢
            exact ih hab hbc
          . rw [if_neg hyz] at hbc ⊢
            exact hbc
        . rw [if_neg hxy, decide_eq_true_eq] at hab
          by_cases hyz : y = z
          . subst hyz
            rw [if_neg hxy, decide_eq_true_eq]
            exact hab
          . rw [if_neg hyz, decide_eq_true_eq] at hbc
            have hlt := Int8.lt_trans hab hbc
            have hxz : x ≠ z := by
              rintro rfl
              exact Int8.lt_irrefl hlt
            rw [if_neg hxz, decide_eq_true_eq]
            exact hlt

theorem globNameLe_antisymm {a b : Bytes} (hab : globNameLe a b = true) (hba : globNameLe b a = true)
    : a = b := by
  induction a generalizing b with
  | nil =>
    cases b with
    | nil => rfl
    | cons y b => contradiction
  | cons x a ih =>
    cases b with
    | nil => contradiction
    | cons y b =>
      unfold globNameLe at hab hba
      by_cases hxy : x = y
      . subst hxy
        rw [if_pos rfl] at hab hba
        rw [ih hab hba]
      . rw [if_neg hxy, decide_eq_true_eq] at hab
        rw [if_neg (Ne.symm hxy), decide_eq_true_eq] at hba
        exact absurd (Int8.lt_trans hab hba) Int8.lt_irrefl

instance : Std.Total (fun a b : Bytes => globNameLe a b = true) :=
  ⟨globNameLe_total⟩

instance : IsTrans Bytes (fun a b : Bytes => globNameLe a b = true) :=
  ⟨fun _ _ _ => globNameLe_trans⟩

theorem toInt_toInt8 {x : Byte} (h : x.toNat < 128) : x.toInt8.toInt = x.toNat := by
  change x.toBitVec.toInt = x.toBitVec.toNat
  apply BitVec.toInt_eq_toNat_of_lt
  change 2 * x.toNat < 2 ^ 8
  omega

theorem globNameLe_iff_le {a b : Bytes} (ha : ∀ x ∈ a, x < 128) (hb : ∀ x ∈ b, x < 128)
    : globNameLe a b = true ↔ a ≤ b := by
  induction a generalizing b with
  | nil => simp [globNameLe]
  | cons x a ih =>
    cases b with
    | nil => simp [globNameLe]
    | cons y b =>
      rw [List.forall_mem_cons] at ha hb
      unfold globNameLe
      rw [List.cons_le_cons_iff]
      by_cases hxy : x = y
      . rw [if_pos hxy, ih ha.2 hb.2]
        simp [hxy]
      . rw [if_neg hxy, decide_eq_true_eq]
        simp only [hxy, false_and, or_false]
        have hx := ha.1
        have hy := hb.1
        rw [UInt8.lt_iff_toNat_lt] at hx hy ⊢
        rw [Int8.lt_iff_toInt_lt, toInt_toInt8 hx, toInt_toInt8 hy]
        exact Int.ofNat_lt

end Order

/--
The directory whose names a pattern stands for. Without a directory part it is the current one.
-/
def globDir (s : FsState) (dir : Bytes) : Bytes :=
  if dir = [] then s.cwd.str else absPath s.cwd.str dir

/--
`dir` names a directory that the user may list.
-/
def Readable (s : FsState) (dir : Bytes) : Prop :=
  fsDirectoryExists s (globDir s dir)
    ∧ ∀ d, dirIndex s (globDir s dir) = some d → permAllows s (s.dmode d) (s.downer d) 0o400

/--
`c` is a directory or a file in the directory `d`.
-/
def IsChild (s : FsState) (d c : Bytes) : Prop :=
  ∃ x, (s.UsedDir x ∨ s.UsedFile x) ∧ ChildOf d x c

/--
The pattern stands for the name. Hidden names need a pattern that begins with a dot.
-/
def Selects (pat name : Bytes) : Prop :=
  (name.head? = some dot → pat.head? = some dot) ∧ Fills star pat name

/--
The order of `glob_name_cmp`, which is the one of the bytes as long as no character is negative.
-/
def GlobSorted (names : List Bytes) : Prop :=
  names.Pairwise (fun a b => globNameLe a b)
    ∧ ((∀ name ∈ names, ∀ x ∈ name, x < 128) → names.Pairwise (· ≤ ·))

/--
What a word is replaced with. `sel` says which names a pattern stands for, `sorted` in which order
they come.
-/
inductive Expansion (sel : Bytes → Bytes → Prop) (sorted : List Bytes → Prop) (s : FsState) (tok : Bytes)
    : List Bytes → Prop where
  | names {names : List Bytes} (hstar : star ∈ tok) (hread : Readable s (globSplit tok).1)
    (hne : names ≠ []) (hnodup : names.Nodup) (hsorted : sorted names)
    (hmem : ∀ name, name ∈ names
      ↔ IsChild s (globDir s (globSplit tok).1) name ∧ sel (globSplit tok).2 name)
    : Expansion sel sorted s tok (names.map ((globSplit tok).1 ++ ·))
  | same (hnone : star ∉ tok ∨ ¬Readable s (globSplit tok).1
      ∨ ∀ name, IsChild s (globDir s (globSplit tok).1) name → ¬sel (globSplit tok).2 name)
    : Expansion sel sorted s tok [tok]

/--
The buffers are big enough for a word with a `*`: for its two parts, the listing and the names. No
name has a newline in it.
-/
structure GlobFits (s : FsState) (tok : Bytes) : Prop where
  dir : (globSplit tok).1.length < 256
  pat : (globSplit tok).2.length < 256
  listing : ListingFits s (globDir s (globSplit tok).1)
  newlines : ∀ name, IsChild s (globDir s (globSplit tok).1) name → newline ∉ name
  few : ∀ names : List Bytes, names.Nodup →
    (∀ name ∈ names, IsChild s (globDir s (globSplit tok).1) name ∧ Selects (globSplit tok).2 name) →
    names.length ≤ globMaxMatches

section Names

variable {s : FsState} {d dir pat tok : Bytes}

theorem readable_iff : (fsListDirectory s dir).1 = 0 ↔ Readable s dir := by
  have hsame : (if dir = [] then s.cwd.str else absPath s.cwd.str dir) = globDir s dir := rfl
  unfold fsListDirectory Readable
  dsimp only
  rw [hsame]
  by_cases hexists : fsDirectoryExists s (globDir s dir) = true
  . have hexists' : fsDirectoryExists { s with fsErrno := 0 } (globDir s dir) = true := hexists
    rw [if_neg (not_not_intro hexists')]
    have hindex : dirIndex { s with fsErrno := 0 } (globDir s dir) = dirIndex s (globDir s dir) := rfl
    rw [hindex]
    cases hd : dirIndex s (globDir s dir) with
    | none => simp [hexists]
    | some d =>
      have hperm : permAllows { s with fsErrno := 0 } (s.dmode d) (s.downer d) 0o400
          = permAllows s (s.dmode d) (s.downer d) 0o400 := rfl
      simp only [hperm, hexists, true_and, Option.some.injEq, forall_eq']
      split
      . next hread => simp [hread]
      . next hread => simp [hread]
  . have hexists' : ¬fsDirectoryExists { s with fsErrno := 0 } (globDir s dir) = true := hexists
    rw [if_pos hexists']
    simp [hexists]

theorem fsListDirectory_text (h : Readable s dir)
    : (fsListDirectory s dir).2.1 = fsListDirectory.lines s (globDir s dir) := by
  have hsame : (if dir = [] then s.cwd.str else absPath s.cwd.str dir) = globDir s dir := rfl
  have hexists : fsDirectoryExists { s with fsErrno := 0 } (globDir s dir) = true := h.1
  unfold fsListDirectory
  dsimp only
  rw [hsame, if_neg (not_not_intro hexists)]
  split
  . next d hd =>
    have hperm : permAllows { s with fsErrno := 0 } (s.dmode d) (s.downer d) 0o400 = true := h.2 d hd
    rw [if_pos hperm]
    rfl
  . rfl

theorem globDir_text (h : NsInv s) : PathText (globDir s dir) := by
  unfold globDir
  split
  . exact h.cwd
  . exact absPath_text s.cwd.str dir

def childNames (s : FsState) (d : Bytes) : List Bytes :=
  childDirs s d ++ childFiles s d

theorem mem_childNames {c : Bytes} (h : NsInv s) : c ∈ childNames s d ↔ IsChild s d c := by
  unfold childNames IsChild
  rw [List.mem_append, mem_childDirs h, mem_childFiles]
  constructor
  . rintro (⟨x, hx, hc⟩ | ⟨x, hx, hc⟩)
    . exact ⟨x, Or.inl hx, hc⟩
    . exact ⟨x, Or.inr hx, hc⟩
  . rintro ⟨x, hx | hx, hc⟩
    . exact Or.inl ⟨x, hx, hc⟩
    . exact Or.inr ⟨x, hx, hc⟩

theorem nodup_childNames (h : NsInv s) : (childNames s d).Nodup := by
  unfold childNames
  apply List.Nodup.append (nodup_childDirs h) (nodup_childFiles h)
  intro c hdir hfile
  obtain ⟨x, hx, hc⟩ := (mem_childDirs h).mp hdir
  obtain ⟨y, hy, hc'⟩ := mem_childFiles.mp hfile
  rw [hc'.name, ← hc.name] at hy
  exact h.disjoint x hy hx

theorem rdropWhile_slash {c : Bytes} (hc : slash ∉ c) : c.rdropWhile (· = slash) = c := by
  rw [List.rdropWhile_eq_self_iff]
  intro hne hlast
  have hmem := List.getLast_mem hne
  rw [of_decide_eq_true hlast] at hmem
  exact hc hmem

theorem map_entries (h : NsInv s)
    : (entries s d).map (·.rdropWhile (· = slash)) = childNames s d := by
  have hno : ∀ c ∈ childNames s d, slash ∉ c := by
    intro c hc
    obtain ⟨x, _, hchild⟩ := (mem_childNames h).mp hc
    exact hchild.component
  unfold childNames at hno ⊢
  unfold entries
  rw [List.map_append, List.map_map]
  congr 1
  . conv => rhs; rw [← List.map_id (childDirs s d)]
    apply List.map_congr_left
    intro c hc
    rw [Function.comp_apply, List.rdropWhile_concat_pos _ _ _ (by simp), id_eq]
    exact rdropWhile_slash (hno c (List.mem_append_left _ hc))
  . conv => rhs; rw [← List.map_id (childFiles s d)]
    apply List.map_congr_left
    intro c hc
    exact rdropWhile_slash (hno c (List.mem_append_right _ hc))

theorem globMatch_iff_fills (pat name : Bytes) : globMatch pat name = true ↔ Fills star pat name := by
  unfold globMatch
  rw [globMatchLoop_iff (by rintro q r ⟨⟩)]
  simp [GlobGoal]

def globKeeps (pat name : Bytes) : Bool :=
  name ≠ [] ∧ name.length < globNameLen ∧ ¬(name.head? = some dot ∧ pat.head? ≠ some dot)
    ∧ globMatch pat name

theorem globKeeps_iff {name : Bytes} (hne : name ≠ []) (hlen : name.length < globNameLen)
    : globKeeps pat name = true ↔ Selects pat name := by
  unfold globKeeps Selects
  rw [decide_eq_true_eq, globMatch_iff_fills]
  simp [hne, hlen]

theorem IsChild.name_ok {c : Bytes} (h : NsInv s) (hc : IsChild s d c) : c ≠ [] ∧ c.length < globNameLen := by
  obtain ⟨x, hx, hchild⟩ := hc
  have htext : PathText x := by
    rcases hx with ⟨i, hi⟩ | ⟨i, hi⟩
    . exact h.dirs i x hi
    . exact h.files i x hi
  have hlen := hchild.length_le htext
  have hcap : globNameLen = 256 := rfl
  exact ⟨hchild.ne_nil, by omega⟩

theorem globNames_eq (h : NsInv s) (hd : PathText d) (hfits : ListingFits s d)
    (hnewlines : ∀ name, IsChild s d name → newline ∉ name)
    : globNames pat (fsListDirectory.lines s d)
      = ((childNames s d).filter (globKeeps pat)).take globMaxMatches := by
  have hlines : ∀ e ∈ entries s d, newline ∉ e := by
    intro e he
    rcases (mem_entries h).mp he with ⟨x, c, hx, hc, rfl⟩ | ⟨x, hx, hc⟩
    . rw [List.mem_append, not_or]
      exact ⟨hnewlines c ⟨x, Or.inl hx, hc⟩, by decide⟩
    . exact hnewlines e ⟨x, Or.inr hx, hc⟩
  unfold globNames
  dsimp only
  rw [lines_of_fits h hd hfits, splitOn_lines hlines, List.map_append, map_entries h, List.filter_append]
  congr 1
  -- what is behind the last line is no name
  have hempty : globKeeps pat [] = false := by
    simp [globKeeps]
  change (childNames s d).filter (globKeeps pat) ++ [[]].filter (globKeeps pat) = _
  simp [hempty]

end Names

section Words

variable {s : FsState} {tok : Bytes} {text : Bytes}

theorem globSorted_insertionSort (names : List Bytes) : GlobSorted (names.insertionSort (globNameLe · ·)) := by
  have hsorted := List.pairwise_insertionSort (fun a b : Bytes => globNameLe a b = true) names
  refine ⟨hsorted, ?_⟩
  intro hascii
  apply hsorted.imp_of_mem
  intro a b ha hb hle
  exact (globNameLe_iff_le (hascii a ha) (hascii b hb)).mp hle

def selected (s : FsState) (tok : Bytes) : List Bytes :=
  (childNames s (globDir s (globSplit tok).1)).filter (globKeeps (globSplit tok).2)

theorem mem_selected {name : Bytes} (h : NsInv s)
    : name ∈ selected s tok
      ↔ IsChild s (globDir s (globSplit tok).1) name ∧ Selects (globSplit tok).2 name := by
  unfold selected
  rw [List.mem_filter, mem_childNames h]
  constructor
  . rintro ⟨hchild, hkeeps⟩
    have hok := hchild.name_ok h
    exact ⟨hchild, (globKeeps_iff hok.1 hok.2).mp hkeeps⟩
  . rintro ⟨hchild, hsel⟩
    have hok := hchild.name_ok h
    exact ⟨hchild, (globKeeps_iff hok.1 hok.2).mpr hsel⟩

theorem nodup_selected (h : NsInv s) : (selected s tok).Nodup :=
  (nodup_childNames h).filter _

theorem globToken_readable (h : NsInv s) (hstar : star ∈ tok) (hplain : 39 ∉ tok ∧ 34 ∉ tok ∧ 92 ∉ tok)
    (hfits : GlobFits s tok) (hread : Readable s (globSplit tok).1)
    : globToken s tok
      = if selected s tok = [] then none
        else some ((globSplit tok).1, (selected s tok).insertionSort (globNameLe · ·)) := by
  unfold globToken
  dsimp only
  by_cases hpat : (globSplit tok).2 = []
  . -- no name matches nothing
    have hnone : selected s tok = [] := by
      rw [List.eq_nil_iff_forall_not_mem]
      intro name hname
      obtain ⟨hchild, hsel⟩ := (mem_selected h).mp hname
      rw [Selects, hpat, fills_nil] at hsel
      exact (hchild.name_ok h).1 hsel.2
    rw [if_neg (fun hall => hall.2.2.2.2.2.2 hpat), if_pos hnone]
  . have hnames : globNames (globSplit tok).2 (fsListDirectory s (globSplit tok).1).2.1 = selected s tok := by
      rw [fsListDirectory_text hread,
        globNames_eq h (globDir_text h) hfits.listing hfits.newlines]
      apply List.take_of_length_le
      exact hfits.few _ (nodup_selected h) (fun name hname => (mem_selected h).mp hname)
    rw [if_pos ⟨hstar, hplain.1, hplain.2.1, hplain.2.2, hfits.dir, hfits.pat, hpat⟩,
      if_neg (not_not_intro (readable_iff.mpr hread)), hnames]

end Words

section Output

variable {s : FsState} {dir out : Bytes} {xs ys done : List Bytes}

theorem globAppend_eq {names : List Bytes} (hne : names ≠ [])
    (hroom : out.length + (spaced (names.map (dir ++ ·))).length < inputBufferSize - 1)
    : globAppend dir names out = out ++ spaced (names.map (dir ++ ·)) := by
  induction names generalizing out with
  | nil => contradiction
  | cons name names ih =>
    unfold globAppend
    by_cases hnames : names = []
    . subst hnames
      have hone : spaced ([name].map (dir ++ ·)) = dir ++ name := by
        simp [spaced]
      rw [hone, List.length_append] at hroom
      rw [if_neg (by omega), hone]
      simp [globAppend]
    . have hmap : names.map (dir ++ ·) ≠ [] := by
        simpa using hnames
      have hcons : spaced ((name :: names).map (dir ++ ·))
          = dir ++ name ++ 32 :: spaced (names.map (dir ++ ·)) := by
        have happend := spaced_append (List.cons_ne_nil (dir ++ name) []) hmap
        simpa [spaced] using happend
      rw [hcons] at hroom ⊢
      simp only [List.length_append, List.length_cons] at hroom
      rw [if_neg (by omega)]
      dsimp only
      rw [if_pos ⟨hnames, by simp only [List.length_append]; omega⟩, ih hnames]
      . simp
      . simp only [List.length_append, List.length_singleton]
        omega

theorem spaced_next (hy : ys ≠ []) (hfit : (spaced done).length < inputBufferSize - 1)
    : (if ¬decide (done = []) = true ∧ (spaced done).length < inputBufferSize - 1 then spaced done ++ [32]
        else spaced done) ++ spaced ys = spaced (done ++ ys) := by
  by_cases hdone : done = []
  . simp [hdone, spaced]
  . rw [if_pos ⟨by simpa using hdone, hfit⟩, spaced_append hdone hy, List.append_assoc,
      List.singleton_append]

def tokenParts (s : FsState) (tok : Bytes) : List Bytes :=
  match globToken s tok with
  | some (dir, names) => names.map (dir ++ ·)
  | none => [tok]

theorem globToken_ne_nil {tok : Bytes} {names : List Bytes} (h : globToken s tok = some (dir, names))
    : names ≠ [] := by
  unfold globToken at h
  dsimp only at h
  split at h
  . split at h
    . contradiction
    . split at h
      . contradiction
      . next hne =>
        injection h with h
        injection h with _ hnames
        rw [← hnames]
        intro hnil
        have hperm := List.perm_insertionSort (fun a b : Bytes => globNameLe a b = true)
          (globNames (globSplit tok).2 (fsListDirectory s (globSplit tok).1).2.1)
        rw [hnil] at hperm
        exact hne hperm.symm.eq_nil
  . contradiction

theorem tokenParts_ne_nil (tok : Bytes) : tokenParts s tok ≠ [] := by
  unfold tokenParts
  split
  . next htok => simpa using globToken_ne_nil htok
  . exact List.cons_ne_nil _ _

theorem expandGlobsLoop_step {tok : Bytes} {toks : List Bytes}
    (hroom : (spaced (done ++ tokenParts s tok)).length < inputBufferSize - 1)
    : expandGlobsLoop s (tok :: toks) (spaced done) (decide (done = []))
      = expandGlobsLoop s toks (spaced (done ++ tokenParts s tok))
        (decide (done ++ tokenParts s tok = [])) := by
  have hlen := length_spaced_le done (tokenParts s tok)
  have hnext := spaced_next (@tokenParts_ne_nil s tok) (Nat.lt_of_le_of_lt hlen hroom)
  have hlast : decide (done ++ tokenParts s tok = []) = false := by
    simp [tokenParts_ne_nil]
  have hfit := congrArg List.length hnext
  rw [List.length_append] at hfit
  rw [hlast, ← hnext]
  conv => lhs; unfold expandGlobsLoop
  dsimp only
  cases htok : globToken s tok with
  | none =>
    have hone : spaced (tokenParts s tok) = tok := by
      simp [tokenParts, htok, spaced]
    rw [hone] at hfit ⊢
    dsimp only
    rw [if_pos (by omega)]
  | some found =>
    obtain ⟨dir, names⟩ := found
    have hparts : tokenParts s tok = names.map (dir ++ ·) := by
      simp [tokenParts, htok]
    rw [hparts] at hfit hroom ⊢
    dsimp only
    rw [globAppend_eq (globToken_ne_nil htok) (by omega)]

theorem expandGlobsLoop_eq {toks : List Bytes}
    (hroom : (spaced (done ++ toks.flatMap (tokenParts s))).length < inputBufferSize - 1)
    : expandGlobsLoop s toks (spaced done) (decide (done = []))
      = spaced (done ++ toks.flatMap (tokenParts s)) := by
  induction toks generalizing done with
  | nil => simp [expandGlobsLoop]
  | cons tok toks ih =>
    rw [List.flatMap_cons, ← List.append_assoc] at hroom ⊢
    have hlen := length_spaced_le (done ++ tokenParts s tok) (toks.flatMap (tokenParts s))
    rw [expandGlobsLoop_step (Nat.lt_of_le_of_lt hlen hroom)]
    exact ih hroom

theorem expandGlobs_eq {text : Bytes}
    (hroom : (spaced ((words text).flatMap (tokenParts s))).length < inputBufferSize - 1)
    : expandGlobs s text = spaced ((words text).flatMap (tokenParts s)) :=
  @expandGlobsLoop_eq s [] (words text) hroom

theorem tokenParts_expansion {tok : Bytes} (h : NsInv s) (hplain : 39 ∉ tok ∧ 34 ∉ tok ∧ 92 ∉ tok)
    (hfits : star ∈ tok → Readable s (globSplit tok).1 → GlobFits s tok)
    : Expansion Selects GlobSorted s tok (tokenParts s tok) := by
  unfold tokenParts
  by_cases hstar : star ∈ tok
  . by_cases hread : Readable s (globSplit tok).1
    . rw [globToken_readable h hstar hplain (hfits hstar hread) hread]
      by_cases hnil : selected s tok = []
      . rw [if_pos hnil]
        refine .same (Or.inr (Or.inr ?_))
        intro name hchild hsel
        have hmem := (mem_selected h).mpr ⟨hchild, hsel⟩
        rw [hnil] at hmem
        simp at hmem
      . rw [if_neg hnil]
        have hperm := List.perm_insertionSort (fun a b : Bytes => globNameLe a b = true) (selected s tok)
        have hne : (selected s tok).insertionSort (globNameLe · ·) ≠ [] := by
          intro hsorted
          rw [hsorted] at hperm
          exact hnil hperm.symm.eq_nil
        refine .names hstar hread hne (hperm.nodup_iff.mpr (nodup_selected h))
          (globSorted_insertionSort _) ?_
        intro name
        rw [hperm.mem_iff, mem_selected h]
    . have hnone : globToken s tok = none := by
        unfold globToken
        dsimp only
        split
        . rw [if_pos (fun hrc => hread (readable_iff.mp hrc))]
        . rfl
      rw [hnone]
      exact .same (Or.inr (Or.inl hread))
  . have hnone : globToken s tok = none := by
      unfold globToken
      dsimp only
      rw [if_neg (fun hall => hstar hall.1)]
    rw [hnone]
    exact .same (Or.inl hstar)

end Output

/--
Nothing in the text suppresses the wildcards.
-/
def Unquoted (text : Bytes) : Prop :=
  39 ∉ text ∧ 34 ∉ text ∧ 92 ∉ text

theorem expandGlobs_expansion {s : FsState} {text : Bytes} (h : NsInv s) (hplain : Unquoted text)
    (hfits : ∀ tok ∈ words text, star ∈ tok → Readable s (globSplit tok).1 → GlobFits s tok)
    : ∃ parts : List (List Bytes), List.Forall₂ (Expansion Selects GlobSorted s) (words text) parts
      ∧ ((spaced parts.flatten).length < inputBufferSize - 1 → expandGlobs s text = spaced parts.flatten) := by
  have hwords : ∀ tok ∈ words text, 39 ∉ tok ∧ 34 ∉ tok ∧ 92 ∉ tok := by
    intro tok htok
    have hmem := (mem_words htok).2.2
    exact ⟨fun h => hplain.1 (hmem _ h), fun h => hplain.2.1 (hmem _ h), fun h => hplain.2.2 (hmem _ h)⟩
  refine ⟨(words text).map (tokenParts s), ?_, ?_⟩
  . rw [List.forall₂_map_right_iff, List.forall₂_same]
    intro tok htok
    exact tokenParts_expansion h (hwords tok htok) (hfits tok htok)
  . rw [← List.flatMap_def]
    exact expandGlobs_eq

theorem expandGlobs_word {s : FsState} {text tok : Bytes} {names : List Bytes} (h : NsInv s)
    (hplain : Unquoted text) (hwords : words text = [tok]) (hfits : GlobFits s tok) (hstar : star ∈ tok)
    (hread : Readable s (globSplit tok).1) (hne : names ≠ []) (hnodup : names.Nodup)
    (hsorted : names.Pairwise (fun a b => globNameLe a b = true))
    (hmem : ∀ name, name ∈ names
      ↔ IsChild s (globDir s (globSplit tok).1) name ∧ Selects (globSplit tok).2 name)
    (hroom : (spaced (names.map ((globSplit tok).1 ++ ·))).length < inputBufferSize - 1)
    : expandGlobs s text = spaced (names.map ((globSplit tok).1 ++ ·)) := by
  obtain ⟨parts, hparts, hout⟩ := expandGlobs_expansion h hplain (by
    intro tok' htok' _ _
    rw [hwords, List.mem_singleton] at htok'
    rw [htok']
    exact hfits)
  rw [hwords] at hparts
  cases hparts with
  | cons hexp hnil =>
    cases hnil
    rw [List.flatten_singleton] at hout
    cases hexp with
    | names _ _ _ hnodup' hsorted' hmem' =>
      have hperm := (List.perm_ext_iff_of_nodup hnodup' hnodup).mpr
        (fun name => (hmem' name).trans (hmem name).symm)
      have heq := hperm.eq_of_pairwise (fun a b _ _ hab hba => globNameLe_antisymm hab hba) hsorted'.1 hsorted
      rw [heq] at hout
      exact hout hroom
    | same hnone =>
      obtain ⟨name, hname⟩ := List.exists_mem_of_ne_nil _ hne
      have hsel := (hmem name).mp hname
      rcases hnone with hno | hno | hno
      . exact absurd hstar hno
      . exact absurd hread hno
      . exact absurd hsel.2 (hno name hsel.1)

/--
The words become names that are not hidden, in the order of their bytes.
-/
def PlainlyExpanded (s : FsState) (text : Bytes) : Prop :=
  ∃ parts : List (List Bytes),
    List.Forall₂ (Expansion (fun pat name => name.head? ≠ some dot ∧ Fills star pat name)
      (·.Pairwise (· ≤ ·)) s) (words text) parts
    ∧ ((spaced parts.flatten).length < inputBufferSize → expandGlobs s text = spaced parts.flatten)

/--
None of the names that a word selects is hidden, and the signs of their bytes do not matter for
their order.
-/
structure PlainNames (s : FsState) (tok : Bytes) : Prop where
  visible : ∀ name, IsChild s (globDir s (globSplit tok).1) name → Selects (globSplit tok).2 name →
    name.head? ≠ some dot
  order : ∀ a b, IsChild s (globDir s (globSplit tok).1) a → Selects (globSplit tok).2 a →
    IsChild s (globDir s (globSplit tok).1) b → Selects (globSplit tok).2 b → globNameLe a b = true →
    a ≤ b

theorem Expansion.plain {s : FsState} {tok : Bytes} {parts : List Bytes} (h : Expansion Selects GlobSorted s tok parts)
    (hnames : star ∈ tok → Readable s (globSplit tok).1 → PlainNames s tok)
    : Expansion (fun pat name => name.head? ≠ some dot ∧ Fills star pat name) (·.Pairwise (· ≤ ·)) s tok
        parts := by
  cases h with
  | names hstar hread hne hnodup hsorted hmem =>
    have hplain := hnames hstar hread
    refine .names hstar hread hne hnodup ?_ ?_
    . refine hsorted.1.imp_of_mem ?_
      intro a b ha hb hle
      have ha := (hmem a).mp ha
      have hb := (hmem b).mp hb
      exact hplain.order a b ha.1 ha.2 hb.1 hb.2 hle
    . intro name
      rw [hmem]
      constructor
      . rintro ⟨hchild, hsel⟩
        exact ⟨hchild, hplain.visible name hchild hsel, hsel.2⟩
      . rintro ⟨hchild, hvisible, hfill⟩
        exact ⟨hchild, fun hdot => absurd hdot hvisible, hfill⟩
  | same hnone =>
    refine .same (hnone.imp_right (Or.imp_right ?_))
    intro hno name hchild hsel
    exact hno name hchild ⟨fun hdot => absurd hdot hsel.1, hsel.2⟩

/--
Wildcards are expanded completely as long as the buffers are big enough, and plainly when the names
are plain and the text is not of exactly the length that loses its last word.
-/
theorem globs_expanded (s₀ s : FsState) (uid : Int32) (text : Bytes) (hrun : AnyRun (fsInit s₀) s)
    (hplain : Unquoted text)
    (hfits : ∀ tok ∈ words text, star ∈ tok → Readable { s with fsCurUid := uid } (globSplit tok).1 →
      GlobFits { s with fsCurUid := uid } tok)
    : (∃ parts : List (List Bytes),
        List.Forall₂ (Expansion Selects GlobSorted { s with fsCurUid := uid }) (words text) parts
        ∧ ((spaced parts.flatten).length < inputBufferSize - 1 →
          expandGlobs { s with fsCurUid := uid } text = spaced parts.flatten))
      ∧ ((∀ tok ∈ words text, star ∈ tok → Readable { s with fsCurUid := uid } (globSplit tok).1 →
            PlainNames { s with fsCurUid := uid } tok) →
          (∀ parts : List (List Bytes),
            List.Forall₂ (Expansion Selects GlobSorted { s with fsCurUid := uid }) (words text) parts →
            (spaced parts.flatten).length ≠ inputBufferSize - 1) →
          PlainlyExpanded { s with fsCurUid := uid } text) := by
  have hns : NsInv s := Run.keeps (I := NsInv) (fun _ _ _ _ h => h.call) (NsInv.init s₀) hrun
  have hexp := expandGlobs_expansion (hns.setUid uid) hplain hfits
  refine ⟨hexp, ?_⟩
  intro hnames hlen
  obtain ⟨parts, hparts, hout⟩ := hexp
  refine ⟨parts, ?_, ?_⟩
  . rw [List.forall₂_iff_get] at hparts ⊢
    refine ⟨hparts.1, ?_⟩
    intro i hi hi'
    exact (hparts.2 i hi hi').plain (hnames _ (List.get_mem _ _))
  . intro hroom
    have := hlen parts hparts
    exact hout (by omega)

section Example

/--
`/.a`
-/
def hiddenFs : FsState :=
  (fsCreateFile { fsInit (.zeroed 64) with fsCurUid := 0 } [slash, dot, 97]).2

/--
`/é` and `/a`
-/
def latinFs : FsState :=
  (fsCreateFile { (fsCreateFile { fsInit (.zeroed 64) with fsCurUid := 0 } [slash, 233]).2 with fsCurUid := 0 }
    [slash, 97]).2

/--
`.*`
-/
def hiddenText : Bytes :=
  [dot, star]

theorem hiddenFs_run : AnyRun (fsInit (.zeroed 64)) hiddenFs :=
  Run.call .refl (FsCall.step (c := ⟨0, .createFile ⟨[slash, dot, 97], by decide⟩⟩) 0 rfl) trivial

theorem latinFs_run : AnyRun (fsInit (.zeroed 64)) latinFs := by
  have hfirst : AnyRun (fsInit (.zeroed 64))
      (fsCreateFile { fsInit (.zeroed 64) with fsCurUid := 0 } [slash, 233]).2 :=
    Run.call .refl (FsCall.step (c := ⟨0, .createFile ⟨[slash, 233], by decide⟩⟩) 0 rfl) trivial
  exact Run.call hfirst (FsCall.step (c := ⟨0, .createFile ⟨[slash, 97], by decide⟩⟩) 0 rfl) trivial

theorem hiddenFs_ns : NsInv hiddenFs :=
  Run.keeps (I := NsInv) (fun _ _ _ _ h => h.call) (NsInv.init _) hiddenFs_run

theorem latinFs_ns : NsInv latinFs :=
  Run.keeps (I := NsInv) (fun _ _ _ _ h => h.call) (NsInv.init _) latinFs_run

theorem isChild_hiddenFs {c : Bytes}
    : IsChild hiddenFs (globDir hiddenFs (globSplit hiddenText).1) c ↔ c = [dot, 97] := by
  have hnames : childNames hiddenFs (globDir hiddenFs (globSplit hiddenText).1) = [[dot, 97]] := by
    decide
  rw [← mem_childNames hiddenFs_ns, hnames, List.mem_singleton]

theorem isChild_latinFs {c : Bytes}
    : IsChild latinFs (globDir latinFs (globSplit [star]).1) c ↔ c ∈ [[97], [233]] := by
  have hnames : childNames latinFs (globDir latinFs (globSplit [star]).1) = [[233], [97]] := by
    decide
  rw [← mem_childNames latinFs_ns, hnames]
  simp [or_comm]

theorem words_hiddenText : words hiddenText = [hiddenText] := by
  decide

theorem words_star : words [star] = [[star]] := by
  decide

theorem hiddenText_fits : GlobFits hiddenFs hiddenText where
  dir := by decide
  pat := by decide
  listing := by
    have hsize : listingSize hiddenFs (globDir hiddenFs (globSplit hiddenText).1) = 3 := by
      decide
    unfold ListingFits
    rw [hsize]
    exact ⟨by decide, fun h => absurd h (by decide)⟩
  newlines name hname := by
    rw [isChild_hiddenFs.mp hname]
    decide
  few names hnodup hnames := by
    have hsub : names ⊆ [[dot, 97]] := by
      intro name hname
      rw [isChild_hiddenFs.mp (hnames name hname).1]
      exact List.mem_singleton_self _
    have hlen := (hnodup.subperm hsub).length_le
    have hmax : globMaxMatches = 128 := rfl
    rw [List.length_singleton] at hlen
    omega

theorem latin_fits {tok : Bytes} (hdir : (globSplit tok).1 = (globSplit [star]).1)
    (hpat : (globSplit tok).2.length < 256)
    : GlobFits latinFs tok where
  dir := by
    rw [hdir]
    decide
  pat := hpat
  listing := by
    have hsize : listingSize latinFs (globDir latinFs (globSplit [star]).1) = 4 := by
      decide
    unfold ListingFits
    rw [hdir, hsize]
    exact ⟨by decide, fun h => absurd h (by decide)⟩
  newlines name hname := by
    rw [hdir] at hname
    obtain rfl | rfl : name = [97] ∨ name = [233] := by
      simpa using isChild_latinFs.mp hname
    . decide
    . decide
  few names hnodup hnames := by
    rw [hdir] at hnames
    have hsub : names ⊆ [[97], [233]] := fun name hname => isChild_latinFs.mp (hnames name hname).1
    have hlen := (hnodup.subperm hsub).length_le
    have hmax : globMaxMatches = 128 := rfl
    simp only [List.length_cons, List.length_nil] at hlen
    omega

theorem expandGlobs_hidden : expandGlobs hiddenFs hiddenText = [dot, 97] := by
  have hsel : Selects (globSplit hiddenText).2 [dot, 97] :=
    ⟨fun _ => by decide, [[97]], by decide⟩
  have hmem : ∀ name, name ∈ [[dot, 97]]
      ↔ IsChild hiddenFs (globDir hiddenFs (globSplit hiddenText).1) name
        ∧ Selects (globSplit hiddenText).2 name := by
    intro name
    rw [isChild_hiddenFs, List.mem_singleton]
    constructor
    . rintro rfl
      exact ⟨rfl, hsel⟩
    . exact fun h => h.1
  exact expandGlobs_word hiddenFs_ns (by unfold Unquoted; decide) words_hiddenText hiddenText_fits
    (by decide) ⟨by decide, by decide⟩ (by decide) (by decide) (by decide) hmem (by decide)

theorem latin_mem (name : Bytes)
    : name ∈ [[97], [233]]
      ↔ IsChild latinFs (globDir latinFs (globSplit [star]).1) name ∧ Selects (globSplit [star]).2 name := by
  rw [isChild_latinFs]
  constructor
  . intro hname
    refine ⟨hname, ?_⟩
    obtain rfl | rfl : name = [97] ∨ name = [233] := by
      simpa using hname
    . exact ⟨fun h => absurd h (by decide), [[97]], by decide⟩
    . exact ⟨fun h => absurd h (by decide), [[233]], by decide⟩
  . exact fun h => h.1

theorem expandGlobs_latin : expandGlobs latinFs [star] = [233, 32, 97] := by
  have hmem : ∀ name, name ∈ [[233], [97]]
      ↔ IsChild latinFs (globDir latinFs (globSplit [star]).1) name
        ∧ Selects (globSplit [star]).2 name := by
    intro name
    rw [← latin_mem]
    simp [or_comm]
  exact expandGlobs_word latinFs_ns (by unfold Unquoted; decide) words_star (latin_fits rfl (by decide))
    (by decide) ⟨by decide, by decide⟩ (by decide) (by decide) (by decide) hmem (by decide)

theorem words_latin : words [97, star] = [[97, star]] := by
  decide

theorem selected_latin {name : Bytes} (hchild : IsChild latinFs (globDir latinFs (globSplit [97, star]).1) name)
    (hsel : Selects (globSplit [97, star]).2 name)
    : name = [97] := by
  obtain rfl | rfl : name = [97] ∨ name = [233] := by
    simpa using isChild_latinFs.mp hchild
  . rfl
  . obtain ⟨_, fills, hfills⟩ := hsel
    have hpat : (globSplit [97, star]).2 = [97, star] := by
      decide
    rw [hpat] at hfills
    have hhead := congrArg List.head? hfills
    simp [fillStars, star] at hhead

/--
`a*` stands for `a` only.
-/
theorem globs_expanded_latin : PlainlyExpanded latinFs [97, star] := by
  have hfits := @latin_fits [97, star] (by decide) (by decide)
  refine (globs_expanded _ latinFs 0 [97, star] latinFs_run ?_ ?_).2 ?_ ?_
  . unfold Unquoted
    decide
  . intro tok htok _ _
    rw [words_latin, List.mem_singleton] at htok
    rw [htok]
    exact hfits
  . intro tok htok _ _
    rw [words_latin, List.mem_singleton] at htok
    rw [htok]
    refine ⟨?_, ?_⟩
    . intro name hchild hsel
      rw [selected_latin hchild hsel]
      decide
    . intro x y hx hselx hy hsely _
      rw [selected_latin hx hselx, selected_latin hy hsely]
      exact List.le_refl _
  . intro parts hparts
    rw [words_latin] at hparts
    cases hparts with
    | cons hexp hnil =>
      cases hnil
      cases hexp with
      | @names names _ _ hne hnodup _ hmem =>
        have hsub : names ⊆ [[97]] := by
          intro name hname
          have hsel := (hmem name).mp hname
          rw [selected_latin hsel.1 hsel.2]
          exact List.mem_singleton_self _
        have hlen := (hnodup.subperm hsub).length_le
        obtain ⟨name, rfl⟩ := List.length_eq_one_iff.mp
          (Nat.le_antisymm hlen (List.length_pos_of_ne_nil hne))
        rw [List.mem_singleton.mp (hsub (List.mem_singleton_self name))]
        decide
      | same => decide

/--
`.*` stands for the hidden name, and `é` comes before `a`.
-/
theorem globs_not_plain
    : ¬PlainlyExpanded hiddenFs hiddenText ∧ ¬PlainlyExpanded latinFs [star] := by
  constructor
  . rintro ⟨parts, hparts, hout⟩
    rw [words_hiddenText] at hparts
    cases hparts with
    | cons hexp hnil =>
      cases hnil
      cases hexp with
      | names hstar hread hne hnodup hsorted hmem =>
        obtain ⟨name, hname⟩ := List.exists_mem_of_ne_nil _ hne
        obtain ⟨hchild, hvisible, _⟩ := (hmem name).mp hname
        rw [isChild_hiddenFs.mp hchild] at hvisible
        exact hvisible rfl
      | same =>
        have htext := hout (by decide)
        rw [expandGlobs_hidden] at htext
        revert htext
        decide
  . rintro ⟨parts, hparts, hout⟩
    rw [words_star] at hparts
    cases hparts with
    | cons hexp hnil =>
      cases hnil
      cases hexp with
      | @names names hstar hread hne hnodup hsorted hmem =>
        have hall : ∀ name, name ∈ names ↔ name ∈ [[97], [233]] := by
          intro name
          rw [hmem, isChild_latinFs]
          constructor
          . exact fun hname => hname.1
          . intro hname
            have hsel := ((latin_mem name).mp hname).2
            refine ⟨hname, ?_, hsel.2⟩
            obtain rfl | rfl : name = [97] ∨ name = [233] := by
              simpa using hname
            . decide
            . decide
        have hperm : names.Perm [[97], [233]] := by
          rw [List.perm_ext_iff_of_nodup hnodup (by decide)]
          exact hall
        have heq : names = [[97], [233]] :=
          hperm.eq_of_pairwise (fun a b _ _ hab hba => List.le_antisymm hab hba) hsorted (by decide)
        subst heq
        have htext := hout (by decide)
        rw [expandGlobs_latin] at htext
        revert htext
        decide
      | same =>
        have htext := hout (by decide)
        rw [expandGlobs_latin] at htext
        revert htext
        decide

end Example

end TanjaOS
