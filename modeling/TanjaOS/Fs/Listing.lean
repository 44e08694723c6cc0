import TanjaOS.Fs.Atomic
import TanjaOS.Fs.Tree

/-!
What a listing shows and what it leaves out: it stops at 16 KiB and returns 0 all the same, and it
does not quote newlines.
-/

open Lib

namespace TanjaOS

def fsDirectoryIsEmpty (s : FsState) (path : Bytes) : Bool :=
  let full := absPath s.cwd.str path
  if path = [] then
    false
  else if ¬fsDirectoryExists s full then
    false
  else if (dirNames s).any (occupies full) then
    false
  else
    ¬(fileNames s).any (occupies full)
where
  occupies (full name : Bytes) : Bool :=
    let llen := strlenSafe full
    if strlenSafe name ≤ llen then
      false
    else if name.take llen ≠ full.take llen then
      false
    else if full = [slash] then
      -- any depth
      name[0]? = some slash ∧ 1 < name.length
    else if name[llen]? = some slash then
      name.drop (llen + 1) ≠ [] ∧ slash ∉ name.drop (llen + 1)
    else
      false

/--
What all names below `d` begin with.
-/
def childPrefix (d : Bytes) : Bytes :=
  if d = [slash] then [slash] else d ++ [slash]

/--
`x` is the directory `h` or lies below it.
-/
def AtOrBelow (h x : Bytes) : Prop :=
  x = h ∨ childPrefix h <+: x

instance (h x : Bytes) : Decidable (AtOrBelow h x) :=
  inferInstanceAs (Decidable (_ ∨ _))

/--
`x` is `c` in the directory `d`.
-/
structure ChildOf (d x c : Bytes) : Prop where
  name : x = childPrefix d ++ c
  ne_nil : c ≠ []
  component : slash ∉ c

/--
The last component of `x` if it is a child of `d`.
-/
def childIn (d x : Bytes) : Option Bytes :=
  let c := x.drop (childPrefix d).length
  if x = childPrefix d ++ c ∧ c ≠ [] ∧ slash ∉ c then some c else none

def childDirs (s : FsState) (d : Bytes) : List Bytes :=
  (dirNames s).filterMap (childIn d)

def childFiles (s : FsState) (d : Bytes) : List Bytes :=
  (fileNames s).filterMap (childIn d)

/--
`e` is the line for a child of `d`.
-/
def IsEntry (s : FsState) (d e : Bytes) : Prop :=
  (∃ x c, s.UsedDir x ∧ ChildOf d x c ∧ e = c ++ [slash]) ∨ ∃ x, s.UsedFile x ∧ ChildOf d x e

/--
`text` has a line for each child of `d` and no others.
-/
def Listed (s : FsState) (d text : Bytes) : Prop :=
  ∃ es : List Bytes, text = es.flatMap (· ++ [newline]) ∧ (∀ e ∈ es, newline ∉ e) ∧ es.Nodup
    ∧ ∀ e, e ∈ es ↔ IsEntry s d e

/--
The length of the lines for all children of `d`.
-/
def listingSize (s : FsState) (d : Bytes) : Nat :=
  ((childDirs s d).map (fun c => c.length + 2)).sum + ((childFiles s d).map (fun c => c.length + 1)).sum

/--
All lines go into the buffer. The test before the last file leaves two bytes less to a name of one
byte.
-/
def ListingFits (s : FsState) (d : Bytes) : Prop :=
  listingSize s d ≤ 16382
    ∧ (listingSize s d = 16382 → ∀ c, (childFiles s d).getLast? = some c → 2 ≤ c.length)

section Children

variable {d x c : Bytes}

theorem childIn_eq_some : childIn d x = some c ↔ ChildOf d x c := by
  unfold childIn
  dsimp only
  constructor
  . intro h
    split at h
    . next hc =>
      injection h with h
      rw [h] at hc
      exact ⟨hc.1, hc.2.1, hc.2.2⟩
    . contradiction
  . rintro ⟨rfl, hne, hslash⟩
    rw [List.drop_left, if_pos ⟨rfl, hne, hslash⟩]

theorem ChildOf.unique {c' : Bytes} (h : ChildOf d x c) (h' : ChildOf d x c') : c = c' := by
  have heq := h.name
  rw [h'.name] at heq
  exact (List.append_cancel_left heq).symm

theorem listChild_eq_childIn (hne : d ≠ []) (hd : d.length ≤ 255) (hx : x.length ≤ 255)
    : listChild d x = childIn d x := by
  cases hc : listChild d x with
  | some c =>
    obtain ⟨hc', hslash, _⟩ := listChild_text hc
    exact (childIn_eq_some.mpr ⟨listChild_eq hd hx hc, hc', hslash⟩).symm
  | none =>
    cases hc' : childIn d x with
    | none => rfl
    | some c =>
      obtain ⟨rfl, hpos, hslash⟩ := childIn_eq_some.mp hc'
      have hlen : (childPrefix d ++ c).length ≤ 256 := by omega
      unfold childPrefix at hc hlen
      have hsum : d.length + 1 + c.length ≤ 256 := by
        split at hlen
        . next hroot =>
          subst hroot
          simp only [List.length_append, List.length_singleton] at hlen hx ⊢
          unfold childPrefix at hx
          simp only [↓reduceIte, List.length_singleton] at hx
          omega
        . simp only [List.length_append, List.length_singleton] at hlen
          omega
      rw [listChild_append hsum hne hpos hslash] at hc
      contradiction

end Children

section Lines

variable {lp : Bytes}

/--
The tests that the lines for the files `cs` have to pass when `n` bytes are in use.
-/
def Room (n : Nat) : List Bytes → Prop
  | [] => True
  | c :: cs => n < 16380 ∧ n + c.length + 2 < 16384 ∧ Room (n + c.length + 1) cs

theorem room_iff (n : Nat) (cs : List Bytes) (hne : ∀ c ∈ cs, c ≠ [])
    : Room n cs ↔ cs = [] ∨ (n + (cs.map (fun c => c.length + 1)).sum ≤ 16382
        ∧ (n + (cs.map (fun c => c.length + 1)).sum = 16382 →
            ∀ c, cs.getLast? = some c → 2 ≤ c.length)) := by
  induction cs generalizing n with
  | nil => simp [Room]
  | cons c cs ih =>
    have hc := List.length_pos_of_ne_nil (hne c (by simp))
    unfold Room
    rw [ih (n + c.length + 1) (fun c' hc' => hne c' (by simp [hc']))]
    simp only [List.map_cons, List.sum_cons, reduceCtorEq, false_or]
    cases cs with
    | nil =>
      simp only [true_or, and_true, List.map_nil, List.sum_nil, List.getLast?_singleton,
        Option.some.injEq, forall_eq']
      constructor
      . intro h
        refine ⟨by omega, fun heq => by omega⟩
      . rintro ⟨hle, hlast⟩
        by_cases heq : n + (c.length + 1 + 0) = 16382
        . have := hlast heq
          omega
        . omega
    | cons c' cs =>
      have hc' := List.length_pos_of_ne_nil (hne c' (by simp))
      simp only [List.map_cons, List.sum_cons, reduceCtorEq, false_or, List.getLast?_cons_cons]
      generalize (cs.map (fun c => c.length + 1)).sum = rest
      have hsum : n + c.length + 1 + (c'.length + 1 + rest) = n + (c.length + 1 + (c'.length + 1 + rest)) := by
        omega
      rw [hsum]
      constructor
      . rintro ⟨_, _, h⟩
        exact h
      . rintro ⟨hle, hlast⟩
        refine ⟨by omega, by omega, hle, hlast⟩

theorem listLines_files_room {names : List Bytes} (buf : Bytes)
    (hlen : ∀ x ∈ names, ∀ c, listChild lp x = some c → c.length ≤ 254)
    : (Room buf.length (names.filterMap (listChild lp)) →
        listLines lp [newline] names buf
          = buf ++ (names.filterMap (listChild lp)).flatMap (· ++ [newline]))
      ∧ (listLines lp [newline] names buf).length
          ≤ buf.length + ((names.filterMap (listChild lp)).map (fun c => c.length + 1)).sum
      ∧ ((listLines lp [newline] names buf).length
          = buf.length + ((names.filterMap (listChild lp)).map (fun c => c.length + 1)).sum →
        Room buf.length (names.filterMap (listChild lp))) := by
  induction names generalizing buf with
  | nil => simp [listLines, Room]
  | cons x names ih =>
    have hlen' : ∀ x ∈ names, ∀ c, listChild lp x = some c → c.length ≤ 254 := by
      intro y hy
      apply hlen
      simp [hy]
    rw [listLines]
    cases hc : listChild lp x with
    | none =>
      rw [List.filterMap_cons_none hc]
      dsimp only
      split
      . exact ih buf hlen'
      . next hfull =>
        refine ⟨?_, Nat.le_add_right _ _, ?_⟩
        . intro hroom
          cases hcs : names.filterMap (listChild lp) with
          | nil => simp
          | cons c cs =>
            rw [hcs] at hroom
            exact absurd hroom.1 hfull
        . intro heq
          cases hcs : names.filterMap (listChild lp) with
          | nil => trivial
          | cons c cs =>
            rw [hcs] at heq
            simp only [List.map_cons, List.sum_cons] at heq
            omega
    | some c =>
      have hstr : strlenSafe c = c.length := by
        have := hlen x (by simp) c hc
        unfold strlenSafe
        omega
      rw [List.filterMap_cons_some hc]
      simp only [List.map_cons, List.sum_cons, List.flatMap_cons, List.length_singleton]
      split
      . next hopen =>
        rw [hstr, List.take_length]
        split
        . next hlarge =>
          obtain ⟨_, hle, _⟩ := ih buf hlen'
          refine ⟨?_, by omega, ?_⟩
          . intro hroom
            have := hroom.2.1
            omega
          . intro heq
            omega
        . next hfits =>
          obtain ⟨hall, hle, hroom⟩ := ih (buf ++ c ++ [newline]) hlen'
          have hgrown : (buf ++ c ++ [newline]).length = buf.length + c.length + 1 := by
            simp only [List.length_append, List.length_singleton]
          rw [hgrown] at hall hle hroom
          refine ⟨?_, by omega, ?_⟩
          . intro h
            rw [hall h.2.2]
            simp
          . intro heq
            exact ⟨hopen, by omega, hroom (by omega)⟩
      . next hfull =>
        refine ⟨?_, Nat.le_add_right _ _, ?_⟩
        . intro hroom
          exact absurd hroom.1 hfull
        . intro heq
          omega

end Lines

section Entries

variable {s : FsState} {d : Bytes}

theorem mem_fileNames {x : Bytes} : x ∈ fileNames s ↔ s.UsedFile x := by
  unfold fileNames FsState.UsedFile FsState.IsFile
  simp only [List.mem_map, List.mem_filter, List.mem_finRange, decide_eq_true_eq, true_and]

theorem pathText_of_mem_fileNames {x : Bytes} (h : NsInv s) (hx : x ∈ fileNames s) : PathText x := by
  obtain ⟨i, hi⟩ := mem_fileNames.mp hx
  exact h.files i x hi

theorem pathText_of_mem_dirNames {x : Bytes} (h : NsInv s) (hx : x ∈ dirNames s)
    : PathText x ∧ x ≠ [slash] := by
  obtain ⟨i, hne, hi⟩ := mem_dirNames.mp hx
  exact ⟨h.dirs i x hi, fun hroot => hne ((h.root i x hi).mp hroot)⟩

theorem filterMap_listChild {names : List Bytes} (hd : PathText d) (hnames : ∀ x ∈ names, PathText x)
    : names.filterMap (listChild d) = names.filterMap (childIn d) := by
  apply List.filterMap_congr
  intro x hx
  exact listChild_eq_childIn hd.ne_nil hd.length_le (hnames x hx).length_le

theorem ChildOf.length_le {x c : Bytes} (h : ChildOf d x c) (hx : PathText x) : c.length ≤ 254 := by
  have hlen := hx.length_le
  rw [h.name, List.length_append] at hlen
  have hpos : 0 < (childPrefix d).length := by
    unfold childPrefix
    split <;> simp
  omega

theorem not_childOf_root {c : Bytes} : ¬ChildOf d [slash] c := by
  rintro ⟨hname, hne, _⟩
  have hlen := congrArg List.length hname
  rw [List.length_append] at hlen
  have hpos : 0 < (childPrefix d).length := by
    unfold childPrefix
    split <;> simp
  have := List.length_pos_of_ne_nil hne
  simp only [List.length_singleton] at hlen
  omega

theorem mem_childDirs {c : Bytes} (h : NsInv s)
    : c ∈ childDirs s d ↔ ∃ x, s.UsedDir x ∧ ChildOf d x c := by
  unfold childDirs
  simp only [List.mem_filterMap, childIn_eq_some, mem_dirNames]
  constructor
  . rintro ⟨x, ⟨i, _, hi⟩, hc⟩
    exact ⟨x, ⟨i, hi⟩, hc⟩
  . rintro ⟨x, ⟨i, hi⟩, hc⟩
    refine ⟨x, ⟨i, ?_, hi⟩, hc⟩
    intro hroot
    rw [← h.root i x hi] at hroot
    subst hroot
    exact not_childOf_root hc

theorem mem_childFiles {c : Bytes} : c ∈ childFiles s d ↔ ∃ x, s.UsedFile x ∧ ChildOf d x c := by
  unfold childFiles
  simp only [List.mem_filterMap, childIn_eq_some, mem_fileNames]

theorem nodup_filterMap_childIn {names : List Bytes} (h : names.Nodup)
    : (names.filterMap (childIn d)).Nodup := by
  apply h.filterMap
  intro x x' c hx hx'
  rw [Option.mem_def, childIn_eq_some] at hx hx'
  rw [hx.name, hx'.name]

theorem nodup_childDirs (h : NsInv s) : (childDirs s d).Nodup := by
  apply nodup_filterMap_childIn
  unfold dirNames
  apply List.Nodup.map_on
  . intro i hi j hj heq
    simp only [List.mem_filter, decide_eq_true_eq] at hi hj
    exact h.dir_unique i j _ ⟨hi.2.2, rfl⟩ ⟨hj.2.2, heq.symm⟩
  . exact (List.nodup_finRange maxD).filter _

theorem nodup_childFiles (h : NsInv s) : (childFiles s d).Nodup := by
  apply nodup_filterMap_childIn
  unfold fileNames
  apply List.Nodup.map_on
  . intro i hi j hj heq
    simp only [List.mem_filter, decide_eq_true_eq] at hi hj
    exact h.file_unique i j _ ⟨hi.2, rfl⟩ ⟨hj.2, heq.symm⟩
  . exact (List.nodup_finRange maxF).filter _

def entries (s : FsState) (d : Bytes) : List Bytes :=
  (childDirs s d).map (· ++ [slash]) ++ childFiles s d

theorem mem_entries {e : Bytes} (h : NsInv s) : e ∈ entries s d ↔ IsEntry s d e := by
  unfold entries IsEntry
  rw [List.mem_append, List.mem_map, mem_childFiles]
  simp only [mem_childDirs h]
  constructor
  . rintro (⟨c, ⟨x, hx, hc⟩, rfl⟩ | hfile)
    . exact Or.inl ⟨x, c, hx, hc, rfl⟩
    . exact Or.inr hfile
  . rintro (⟨x, c, hx, hc, rfl⟩ | hfile)
    . exact Or.inl ⟨c, ⟨x, hx, hc⟩, rfl⟩
    . exact Or.inr hfile

theorem nodup_entries (h : NsInv s) : (entries s d).Nodup := by
  unfold entries
  apply List.Nodup.append
  . exact (nodup_childDirs h).map (fun c c' heq => List.append_cancel_right heq)
  . exact nodup_childFiles h
  . -- only the line of a directory has a slash in it
    intro e hdir hfile
    rw [List.mem_map] at hdir
    obtain ⟨c, _, rfl⟩ := hdir
    obtain ⟨x, _, hc⟩ := mem_childFiles.mp hfile
    apply hc.component
    simp

theorem entries_length (s : FsState) (d : Bytes)
    : ((entries s d).flatMap (· ++ [newline])).length = listingSize s d := by
  unfold entries listingSize
  rw [List.length_flatMap, List.map_append, List.sum_append, List.map_map]
  congr 2
  . apply List.map_congr_left
    intro c _
    simp
  . apply List.map_congr_left
    intro c _
    simp

theorem lines_eq (h : NsInv s) (hd : PathText d)
    : fsListDirectory.lines s d
      = listLines d [newline] (fileNames s) ((childDirs s d).flatMap (· ++ [slash, newline])) := by
  have hcount := length_dirNames_le s
  unfold fsListDirectory.lines
  rw [listLines_dirs [] hd.ne_nil hd.length_le
    (fun x hx => (pathText_of_mem_dirNames h hx).1.length_le) (by simp; omega), List.nil_append,
    filterMap_listChild hd (fun x hx => (pathText_of_mem_dirNames h hx).1)]
  rfl

theorem length_childDirs_le (h : NsInv s)
    : ((childDirs s d).map (fun c => c.length + 2)).sum ≤ 63 * 256 := by
  have hcount : (childDirs s d).length ≤ 63 :=
    Nat.le_trans (List.length_filterMap_le _ _) (length_dirNames_le s)
  have hle : ∀ n ∈ (childDirs s d).map (fun c => c.length + 2), n ≤ 256 := by
    intro n hn
    rw [List.mem_map] at hn
    obtain ⟨c, hc, rfl⟩ := hn
    obtain ⟨x, ⟨i, hi⟩, hchild⟩ := (mem_childDirs h).mp hc
    have := hchild.length_le (h.dirs i x hi)
    omega
  have hsum := List.sum_le_card_nsmul _ 256 hle
  rw [List.length_map, smul_eq_mul] at hsum
  exact Nat.le_trans hsum (Nat.mul_le_mul_right 256 hcount)

theorem childFiles_ne_nil {c : Bytes} (hc : c ∈ childFiles s d) : c ≠ [] := by
  obtain ⟨x, _, hchild⟩ := mem_childFiles.mp hc
  exact hchild.ne_nil

theorem length_lines (cs : List Bytes) (suffix : Bytes)
    : (cs.flatMap (· ++ suffix)).length = (cs.map (fun c => c.length + suffix.length)).sum := by
  rw [List.length_flatMap]
  congr 1
  apply List.map_congr_left
  intro c _
  exact List.length_append

theorem listingFits_iff (h : NsInv s)
    : ListingFits s d
      ↔ Room ((childDirs s d).flatMap (· ++ [slash, newline])).length (childFiles s d) := by
  have hdirs := length_childDirs_le (d := d) h
  rw [room_iff _ _ (fun c hc => childFiles_ne_nil hc), length_lines]
  unfold ListingFits listingSize
  constructor
  . exact fun hfits => Or.inr hfits
  . rintro (hnil | hfits)
    . rw [hnil]
      simp only [List.map_nil, List.sum_nil, List.getLast?_nil]
      refine ⟨by omega, fun heq => by omega⟩
    . exact hfits

theorem length_listChild_le (h : NsInv s) (hd : PathText d)
    : ∀ x ∈ fileNames s, ∀ c, listChild d x = some c → c.length ≤ 254 := by
  intro x hx c hc
  have htext := pathText_of_mem_fileNames h hx
  rw [listChild_eq_childIn hd.ne_nil hd.length_le htext.length_le, childIn_eq_some] at hc
  exact hc.length_le htext

theorem lines_eq_iff (h : NsInv s) (hd : PathText d)
    : (fsListDirectory.lines s d).length = listingSize s d ↔ ListingFits s d := by
  have hfiles := filterMap_listChild hd (fun x hx => pathText_of_mem_fileNames h hx)
  have hlen := length_listChild_le h hd
  obtain ⟨hall, _, hroom⟩ := listLines_files_room
    ((childDirs s d).flatMap (· ++ [slash, newline])) hlen
  rw [hfiles] at hall hroom
  rw [lines_eq h hd, listingFits_iff h]
  unfold listingSize
  constructor
  . intro heq
    apply hroom
    rw [heq, length_lines]
    rfl
  . intro hfits
    rw [hall hfits, List.length_append, length_lines, length_lines]
    rfl

theorem lines_of_fits (h : NsInv s) (hd : PathText d) (hfits : ListingFits s d)
    : fsListDirectory.lines s d = (entries s d).flatMap (· ++ [newline]) := by
  have hfiles := filterMap_listChild hd (fun x hx => pathText_of_mem_fileNames h hx)
  have hlen := length_listChild_le h hd
  obtain ⟨hall, _, _⟩ := listLines_files_room
    ((childDirs s d).flatMap (· ++ [slash, newline])) hlen
  rw [hfiles] at hall
  rw [lines_eq h hd, hall ((listingFits_iff h).mp hfits)]
  unfold entries
  rw [List.flatMap_append, List.flatMap_map]
  congr 1
  apply List.flatMap_congr
  intro c _
  simp

theorem listLines_files_eq_nil_iff {names : List Bytes}
    (hlen : ∀ x ∈ names, ∀ c, listChild d x = some c → c.length ≤ 254)
    : listLines d [newline] names [] = [] ↔ names.filterMap (listChild d) = [] := by
  induction names with
  | nil => simp [listLines]
  | cons x names ih =>
    have hlen' : ∀ x ∈ names, ∀ c, listChild d x = some c → c.length ≤ 254 := by
      intro y hy
      apply hlen
      simp [hy]
    rw [listLines, if_pos (by simp)]
    cases hc : listChild d x with
    | none =>
      rw [List.filterMap_cons_none hc]
      exact ih hlen'
    | some c =>
      have hle := hlen x (by simp) c hc
      have hstr : strlenSafe c = c.length := by
        unfold strlenSafe
        omega
      rw [List.filterMap_cons_some hc]
      dsimp only
      rw [hstr, if_neg (by simp; omega)]
      obtain ⟨text, htext, _⟩ := listLines_files d names ([] ++ c.take c.length ++ [newline])
      rw [htext]
      simp

theorem lines_eq_nil_iff (h : NsInv s) (hd : PathText d)
    : fsListDirectory.lines s d = [] ↔ entries s d = [] := by
  rw [lines_eq h hd]
  unfold entries
  by_cases hdirs : childDirs s d = []
  . rw [hdirs, List.flatMap_nil, listLines_files_eq_nil_iff (length_listChild_le h hd),
      filterMap_listChild hd (fun x hx => pathText_of_mem_fileNames h hx)]
    rfl
  . obtain ⟨text, htext, _⟩ := listLines_files d (fileNames s)
      ((childDirs s d).flatMap (· ++ [slash, newline]))
    obtain ⟨c, cs, hcs⟩ := List.exists_cons_of_ne_nil hdirs
    rw [htext, hcs]
    simp

theorem occupies_iff {x : Bytes} (hd : PathText d) (hx : PathText x)
    : fsDirectoryIsEmpty.occupies d x
      ↔ if d = [slash] then x ≠ [slash] else ∃ c, ChildOf d x c := by
  have hdlen := hd.length_le
  have hxlen := hx.length_le
  have hstrd : strlenSafe d = d.length := by
    unfold strlenSafe
    omega
  have hstrx : strlenSafe x = x.length := by
    unfold strlenSafe
    omega
  by_cases hroot : d = [slash]
  . subst hroot
    obtain ⟨b, rest, rfl⟩ := List.exists_cons_of_ne_nil hx.ne_nil
    have hhead := hx.head
    simp only [List.head?_cons, Option.some.injEq] at hhead
    subst hhead
    unfold fsDirectoryIsEmpty.occupies
    rw [hstrd, hstrx]
    cases rest with
    | nil => simp
    | cons b rest => simp
  . have hchild : (∃ c, ChildOf d x c) ↔ (listChild d x).isSome := by
      rw [listChild_eq_childIn hd.ne_nil hdlen hxlen, Option.isSome_iff_exists]
      simp only [childIn_eq_some]
    have hroot' : ¬(d.length = 1 ∧ d[0]? = some slash) := by
      rintro ⟨hone, hhead⟩
      obtain ⟨b, rfl⟩ := List.length_eq_one_iff.mp hone
      simp at hhead
      simp [hhead] at hroot
    rw [if_neg hroot, hchild]
    unfold fsDirectoryIsEmpty.occupies listChild listChild.visible
    rw [hstrd, hstrx]
    dsimp only
    split
    . simp
    . split
      . simp
      . split
        . next hslash =>
          rw [if_neg (by simpa using hslash)]
          generalize x.drop (d.length + 1) = child
          by_cases hnil : child = []
          . simp [hnil]
          . by_cases hmem : slash ∈ child
            . simp [hmem]
            . simp [hnil, hmem]
        . simp

theorem fsDirectoryIsEmpty_iff {path : Bytes} (h : NsInv s) (hpath : path ≠ [])
    (hexists : fsDirectoryExists s (absPath s.cwd.str path))
    : fsDirectoryIsEmpty s path
      ↔ if absPath s.cwd.str path = [slash] then ∀ x, s.UsedFile x ∨ s.UsedDir x → x = [slash]
        else entries s (absPath s.cwd.str path) = [] := by
  have hd := absPath_text s.cwd.str path
  generalize hfull : absPath s.cwd.str path = d at *
  have hdirs : ∀ x ∈ dirNames s, fsDirectoryIsEmpty.occupies d x
      ↔ if d = [slash] then x ≠ [slash] else ∃ c, ChildOf d x c :=
    fun x hx => occupies_iff hd (pathText_of_mem_dirNames h hx).1
  have hfiles : ∀ x ∈ fileNames s, fsDirectoryIsEmpty.occupies d x
      ↔ if d = [slash] then x ≠ [slash] else ∃ c, ChildOf d x c :=
    fun x hx => occupies_iff hd (pathText_of_mem_fileNames h hx)
  have hempty : fsDirectoryIsEmpty s path
      ↔ (∀ x ∈ dirNames s, ¬fsDirectoryIsEmpty.occupies d x)
        ∧ ∀ x ∈ fileNames s, ¬fsDirectoryIsEmpty.occupies d x := by
    unfold fsDirectoryIsEmpty
    dsimp only
    rw [hfull, if_neg hpath, if_neg (by simpa using hexists)]
    split
    . next hany =>
      simp only [Bool.false_eq_true, false_iff, not_and]
      intro hnone
      rw [List.any_eq_true] at hany
      obtain ⟨x, hx, hocc⟩ := hany
      exact absurd hocc (hnone x hx)
    . next hnone =>
      simp only [List.any_eq_true, not_exists, not_and] at hnone
      simp only [List.any_eq_true, not_exists, not_and, decide_eq_true_eq]
      exact ⟨fun hfiles => ⟨hnone, hfiles⟩, fun hboth => hboth.2⟩
  rw [hempty]
  split
  . next hroot =>
    simp only [hroot, ↓reduceIte, ne_eq] at hdirs hfiles
    constructor
    . rintro ⟨hnodir, hnofile⟩ x (hx | ⟨i, hi⟩)
      . have hx' := mem_fileNames.mpr hx
        by_contra hne
        apply hnofile x hx'
        rw [hroot, hfiles x hx']
        exact hne
      . by_contra hne
        have hslot : i ≠ rootSlot := fun heq => hne ((h.root i x hi).mpr heq)
        have hx' := mem_dirNames.mpr ⟨i, hslot, hi⟩
        apply hnodir x hx'
        rw [hroot, hdirs x hx']
        exact hne
    . intro hall
      refine ⟨?_, ?_⟩
      . intro x hx
        obtain ⟨i, _, hi⟩ := mem_dirNames.mp hx
        exact absurd (hall x (Or.inr ⟨i, hi⟩)) (pathText_of_mem_dirNames h hx).2
      . intro x hx
        rw [hroot, hfiles x hx]
        exact fun hne => hne (hall x (Or.inl (mem_fileNames.mp hx)))
  . next hroot =>
    simp only [hroot, ↓reduceIte] at hdirs hfiles
    have hnil : ∀ names : List Bytes, names.filterMap (childIn d) = []
        ↔ ∀ x ∈ names, ¬∃ c, ChildOf d x c := by
      intro names
      rw [List.filterMap_eq_nil_iff]
      apply forall₂_congr
      intro x _
      rw [Option.eq_none_iff_forall_ne_some]
      simp only [ne_eq, childIn_eq_some, not_exists]
    unfold entries
    rw [List.append_eq_nil_iff, List.map_eq_nil_iff]
    unfold childDirs childFiles
    rw [hnil, hnil]
    apply and_congr
    . apply forall₂_congr
      intro x hx
      rw [hdirs x hx]
    . apply forall₂_congr
      intro x hx
      rw [hfiles x hx]

end Entries

/--
A listing of `path` that works shows the children of this directory, and the directory is empty if
the listing is.
-/
def ListingExact (s : FsState) (path : Bytes) : Prop :=
  Listed s (absPath s.cwd.str path) (fsListDirectory s path).2.1
    ∧ (fsDirectoryIsEmpty s path ↔ (fsListDirectory s path).2.1 = [])

/--
The buffer takes all lines, no name has a newline in it, and nothing lies below `/` without anything
in it.
-/
structure ListingOk (s : FsState) (d : Bytes) : Prop where
  fits : ListingFits s d
  newlines : ∀ e, IsEntry s d e → newline ∉ e
  root : d = [slash] → (∃ x, x ≠ [slash] ∧ (s.UsedFile x ∨ s.UsedDir x)) → ∃ e, IsEntry s d e

section Exact

variable {s : FsState} {d : Bytes}

theorem listed_iff (h : NsInv s) (hd : PathText d)
    : Listed s d (fsListDirectory.lines s d)
      ↔ ListingFits s d ∧ ∀ e, IsEntry s d e → newline ∉ e := by
  constructor
  . rintro ⟨es, htext, hnl, hnodup, hmem⟩
    refine ⟨?_, fun e he => hnl e ((hmem e).mpr he)⟩
    -- the lines are those that there should be, in some order
    have hperm : es.Perm (entries s d) := by
      rw [List.perm_ext_iff_of_nodup hnodup (nodup_entries h)]
      intro e
      rw [hmem e, mem_entries h]
    rw [← lines_eq_iff h hd, htext, ← entries_length]
    exact (hperm.flatMap_right _).length_eq
  . rintro ⟨hfits, hnl⟩
    refine ⟨entries s d, lines_of_fits h hd hfits, ?_, nodup_entries h, fun e => mem_entries h⟩
    intro e he
    exact hnl e ((mem_entries h).mp he)

theorem fsListDirectory_done {path : Bytes} (hpath : path ≠ [])
    (hrc : (fsListDirectory s path).1 = 0)
    : (fsListDirectory s path).2.1 = fsListDirectory.lines s (absPath s.cwd.str path)
        ∧ fsDirectoryExists s (absPath s.cwd.str path) := by
  have hlines : fsListDirectory.lines { s with fsErrno := 0 } (absPath s.cwd.str path)
      = fsListDirectory.lines s (absPath s.cwd.str path) := rfl
  unfold fsListDirectory at hrc ⊢
  dsimp only at hrc ⊢
  rw [if_neg hpath] at hrc ⊢
  split
  . simp_all
  . next hexists =>
    rw [if_neg hexists] at hrc
    have hexists' : fsDirectoryExists s (absPath s.cwd.str path) :=
      Decidable.not_not.mp hexists
    refine ⟨?_, hexists'⟩
    split
    . next i hi =>
      rw [hi] at hrc
      dsimp only at hrc
      split
      . exact hlines
      . next hperm =>
        rw [if_neg hperm] at hrc
        contradiction
    . exact hlines

theorem listingExact_iff {path : Bytes} (h : NsInv s) (hpath : path ≠ [])
    (hrc : (fsListDirectory s path).1 = 0)
    : ListingExact s path ↔ ListingOk s (absPath s.cwd.str path) := by
  obtain ⟨htext, hexists⟩ := fsListDirectory_done hpath hrc
  have hd := absPath_text s.cwd.str path
  have hempty := fsDirectoryIsEmpty_iff h hpath hexists
  unfold ListingExact
  rw [htext, hempty, listed_iff h hd, lines_eq_nil_iff h hd]
  generalize absPath s.cwd.str path = d at *
  have hnone : entries s d = [] ↔ ¬∃ e, IsEntry s d e := by
    rw [List.eq_nil_iff_forall_not_mem, not_exists]
    simp only [mem_entries h]
  by_cases hroot : d = [slash]
  . rw [if_pos hroot, hnone]
    constructor
    . rintro ⟨⟨hfits, hnl⟩, hiff⟩
      refine ⟨hfits, hnl, ?_⟩
      rintro _ ⟨x, hne, hx⟩
      by_contra hno
      exact hne (hiff.mpr hno x hx)
    . rintro ⟨hfits, hnl, hbelow⟩
      refine ⟨⟨hfits, hnl⟩, ?_, ?_⟩
      . rintro hall ⟨e, ⟨x, c, hx, hc, _⟩ | ⟨x, hx, hc⟩⟩
        . rw [hall x (Or.inr hx)] at hc
          exact not_childOf_root hc
        . rw [hall x (Or.inl hx)] at hc
          exact not_childOf_root hc
      . intro hno x hx
        by_contra hne
        exact hno (hbelow hroot ⟨x, hne, hx⟩)
  . rw [if_neg hroot]
    constructor
    . rintro ⟨⟨hfits, hnl⟩, _⟩
      exact ⟨hfits, hnl, fun hbad => absurd hbad hroot⟩
    . rintro ⟨hfits, hnl, _⟩
      exact ⟨⟨hfits, hnl⟩, Iff.rfl⟩

end Exact

/--
Any run, any user and any directory that can be listed.
-/
theorem listing_exact (s₀ s : FsState) (uid : Int32) (path : CStr) (hrun : AnyRun (fsInit s₀) s)
    (hpath : path.val ≠ []) (hrc : (fsListDirectory { s with fsCurUid := uid } path).1 = 0)
    : ListingExact { s with fsCurUid := uid } path
      ↔ ListingOk { s with fsCurUid := uid } (absPath s.cwd.str path) := by
  have hns : NsInv s := Run.keeps (I := NsInv) (fun _ _ _ _ h => h.call) (NsInv.init s₀) hrun
  exact listingExact_iff (hns.setUid uid) hpath hrc

section Example

/-!
65 files with names of 254 bytes in the root: their lines take 16575 bytes.
-/

def tallComp (j : Nat) : Bytes :=
  List.replicate 253 97 ++ [UInt8.ofNat (128 + j)]

def tallPath (j : Nat) : Bytes :=
  slash :: tallComp j

/--
`k` of the files, made by root.
-/
structure Crowded (s : FsState) (k : Nat) : Prop where
  run : FsRun (fun s c => c.NoWrap s) (fsInit (.zeroed 0)) s
  files : ∀ x, s.UsedFile x ↔ ∃ j, j < k ∧ x = tallPath j
  dirs : ∀ x, s.UsedDir x → x = [slash]
  slots : (Finset.univ.filter (fun i => s.fused i ≠ 0)).card ≤ k

theorem length_tallComp (j : Nat) : (tallComp j).length = 254 := by
  unfold tallComp
  rw [List.length_append, List.length_replicate]
  rfl

theorem mem_tallComp {j : Nat} {b : Byte} (h : b ∈ tallComp j) : b = 97 ∨ b = UInt8.ofNat (128 + j) := by
  unfold tallComp at h
  rw [List.mem_append, List.mem_replicate, List.mem_singleton] at h
  obtain ⟨_, h⟩ | h := h
  . exact Or.inl h
  . exact Or.inr h

theorem tallByte {j : Nat} (hj : j < 65) : (UInt8.ofNat (128 + j)).toNat = 128 + j := by
  rw [UInt8.toNat_ofNat']
  omega

theorem tallComp_comp {j : Nat} (hj : j < 65) : Comp (tallComp j) := by
  have hlen := length_tallComp j
  refine ⟨?_, ?_, ?_, ?_⟩
  . intro h
    rw [h] at hlen
    simp at hlen
  . intro h
    obtain h | h := mem_tallComp h
    . contradiction
    . have := congrArg UInt8.toNat h
      rw [tallByte hj] at this
      change 47 = 128 + j at this
      omega
  . intro h
    rw [h] at hlen
    simp at hlen
  . intro h
    rw [h] at hlen
    simp at hlen

theorem tallComp_inj {j k : Nat} (hj : j < 65) (hk : k < 65) (h : tallComp j = tallComp k) : j = k := by
  unfold tallComp at h
  have hlast := List.append_cancel_left h
  simp only [List.cons.injEq, and_true] at hlast
  have := congrArg UInt8.toNat hlast
  rw [tallByte hj, tallByte hk] at this
  omega

theorem tallPath_no_nul {j : Nat} (hj : j < 65) : 0 ∉ tallPath j := by
  unfold tallPath
  rw [List.mem_cons, not_or]
  refine ⟨by decide, ?_⟩
  intro h
  obtain h | h := mem_tallComp h
  . contradiction
  . have := congrArg UInt8.toNat h
    rw [tallByte hj] at this
    change 0 = 128 + j at this
    omega

theorem absPath_tallPath {j : Nat} (hj : j < 65) (cwd : Bytes) : absPath cwd (tallPath j) = tallPath j := by
  have hlen := length_tallComp j
  have hrender : tallPath j = render [tallComp j] := by
    unfold render tallPath
    rfl
  have hcanon : Canon [tallComp j] := by
    refine ⟨?_, by simp, ?_⟩
    . intro c hc
      rw [List.mem_singleton] at hc
      subst hc
      exact tallComp_comp hj
    . rw [← hrender]
      unfold tallPath
      rw [List.length_cons]
      omega
  rw [hrender]
  exact absPath_render hcanon

theorem tallPath_childOf {j : Nat} (hj : j < 65) : ChildOf [slash] (tallPath j) (tallComp j) :=
  ⟨rfl, (tallComp_comp hj).ne_nil, (tallComp_comp hj).no_slash⟩

theorem mayModifyParent_root {s : FsState} (h : s.fsCurUid = 0) (x : Bytes)
    : mayModifyParent s x = (true, s) := by
  unfold mayModifyParent permAllows
  split
  . rfl
  . simp [h]

theorem Crowded.zero : Crowded (fsInit (.zeroed 0)) 0 where
  run := .refl
  files x := by
    simp only [Nat.not_lt_zero, false_and, exists_false, iff_false]
    rintro ⟨i, hi⟩
    exact not_isFile_fsInit hi
  dirs x := by
    rintro ⟨i, hi⟩
    exact (isDir_fsInit.mp hi).2
  slots := by
    have hnone : Finset.univ.filter (fun i => (fsInit (.zeroed 0)).fused i ≠ 0) = ∅ := by
      rw [Finset.filter_eq_empty_iff]
      intro i _ hi
      exact hi rfl
    rw [hnone]
    rfl

theorem Crowded.succ {s : FsState} {k : Nat} (hk : k < 65) (h : Crowded s k)
    : ∃ s', Crowded s' (k + 1) := by
  let path : CStr := ⟨tallPath k, tallPath_no_nul hk⟩
  have habs : absPath s.cwd.str path = tallPath k := absPath_tallPath hk s.cwd.str
  have hfile : ¬s.UsedFile (tallPath k) := by
    rw [h.files]
    rintro ⟨j, hj, heq⟩
    have := tallComp_inj hk (by omega) (List.cons.inj heq).2
    omega
  have hnone : fileIndex { s with fsCurUid := 0 } (absPath s.cwd.str path) = none := by
    rw [habs, fileIndex_eq_none]
    intro i hi
    exact hfile ⟨i, hi⟩
  have hcreate : CanCreate { s with fsCurUid := 0 } path := by
    refine ⟨List.cons_ne_nil _ _, ?_, ?_, ?_, ?_, ?_⟩
    . unfold parentExists
      dsimp only
      rw [habs]
      have hcut : lastCut (tallPath k) = 1 :=
        lastCut_append (a := []) (tallComp_comp hk).no_slash
      rw [hcut]
      simp
    . rw [habs]
      exact hfile
    . rw [habs]
      intro hdir
      have hroot := h.dirs _ hdir
      have := congrArg List.length hroot
      unfold tallPath at this
      rw [List.length_cons, length_tallComp, List.length_singleton] at this
      omega
    . rw [mayModifyParent_root rfl]
    . by_contra hfull
      simp only [not_exists] at hfull
      have hall : Finset.univ.filter (fun i => s.fused i ≠ 0) = Finset.univ := by
        rw [Finset.filter_eq_self]
        intro i _
        exact hfull i
      have hcard := h.slots
      rw [hall, Finset.card_univ, Fintype.card_fin] at hcard
      exact absurd (Nat.lt_of_le_of_lt hcard hk) (by decide)
  have hrc := (fsCreateFile_eq_zero_iff hnone).mpr hcreate
  have hstep : FsCall.Step ⟨0, .createFile path⟩ s (fsCreateFile { s with fsCurUid := 0 } path).2 :=
    FsCall.step 0 rfl
  refine ⟨(fsCreateFile { s with fsCurUid := 0 } path).2, ?_⟩
  obtain ⟨e, _, hex⟩ | ⟨i, heq, hfree, _⟩ := fsCreateFile_cases (g := Grant.any)
    { s with fsCurUid := 0 } path (fun _ => trivial)
  . exact absurd (hex hrc) (by rw [habs]; exact hfile)
  . have hmade := fun j x => @FsState.isFile_addFile { s with fsCurUid := 0, fsErrno := 0 }
      (absPath s.cwd.str path) x i j (CStr.absPath_no_nul s path) (absPath_text _ _).length_le
    have hold : ∀ j x, s.IsFile j x → j ≠ i := by
      rintro j x hj rfl
      exact hj.1 hfree
    refine ⟨Run.call h.run hstep trivial, ?_, ?_, ?_⟩
    . intro x
      rw [heq]
      have hx : s.UsedFile x ↔ ∃ j, j < k ∧ x = tallPath j := h.files x
      constructor
      . rintro ⟨j, hj⟩
        obtain ⟨_, hj⟩ | ⟨_, hj⟩ := (hmade j x).mp hj
        . exact ⟨k, by omega, by rw [hj, habs]⟩
        . obtain ⟨m, hm, heq⟩ := hx.mp ⟨j, hj⟩
          exact ⟨m, by omega, heq⟩
      . rintro ⟨m, hm, rfl⟩
        by_cases hmk : m = k
        . subst hmk
          exact ⟨i, (hmade i _).mpr (Or.inl ⟨rfl, habs.symm⟩)⟩
        . obtain ⟨j, hj⟩ := hx.mpr ⟨m, by omega, rfl⟩
          exact ⟨j, (hmade j _).mpr (Or.inr ⟨hold j _ hj, hj⟩)⟩
    . rw [heq]
      exact h.dirs
    . rw [heq]
      have hsub : Finset.univ.filter (fun j => (Function.update s.fused i 1) j ≠ 0)
          ⊆ insert i (Finset.univ.filter (fun j => s.fused j ≠ 0)) := by
        intro j hj
        rw [Finset.mem_insert, Finset.mem_filter]
        rw [Finset.mem_filter] at hj
        by_cases hji : j = i
        . exact Or.inl hji
        . rw [Function.update_of_ne hji] at hj
          exact Or.inr hj
      exact Nat.le_trans (Finset.card_le_card hsub)
        (Nat.le_trans (Finset.card_insert_le _ _) (Nat.succ_le_succ h.slots))

theorem Crowded.all (k : Nat) (hk : k ≤ 65) : ∃ s, Crowded s k := by
  induction k with
  | zero => exact ⟨_, Crowded.zero⟩
  | succ k ih =>
    obtain ⟨s, hs⟩ := ih (by omega)
    exact hs.succ (by omega)

theorem Crowded.not_fits {s : FsState} (h : Crowded s 65) (hns : NsInv s)
    : ¬ListingFits s [slash] := by
  have hfiles : (childFiles s [slash]).Perm ((List.range 65).map tallComp) := by
    rw [List.perm_ext_iff_of_nodup (nodup_childFiles hns)]
    . intro c
      rw [mem_childFiles, List.mem_map]
      simp only [h.files, List.mem_range]
      constructor
      . rintro ⟨x, ⟨j, hj, rfl⟩, hc⟩
        exact ⟨j, hj, (tallPath_childOf hj).unique hc⟩
      . rintro ⟨j, hj, rfl⟩
        exact ⟨_, ⟨j, hj, rfl⟩, tallPath_childOf hj⟩
    . apply List.Nodup.map_on
      . intro j hj k hk heq
        rw [List.mem_range] at hj hk
        exact tallComp_inj hj hk heq
      . exact List.nodup_range
  have hsize : ((childFiles s [slash]).map (fun c => c.length + 1)).sum = 65 * 255 := by
    rw [(hfiles.map _).sum_eq, List.map_map]
    have hconst : (fun c : Bytes => c.length + 1) ∘ tallComp = fun _ => 255 := by
      funext j
      rw [Function.comp_apply, length_tallComp]
    rw [hconst]
    simp
  rintro ⟨hle, _⟩
  unfold listingSize at hle
  rw [hsize] at hle
  have := Nat.le_trans (Nat.le_add_left (65 * 255) _) hle
  contradiction

def rootPath : CStr :=
  ⟨[slash], by decide⟩

theorem fsListDirectory_root {s : FsState} (h : s.fsCurUid = 0) : (fsListDirectory s rootPath).1 = 0 := by
  have habs : absPath s.cwd.str rootPath = [slash] := absPath_render Canon.nil
  have hne : rootPath.val ≠ [] := by decide
  unfold fsListDirectory
  dsimp only
  rw [if_neg hne, habs]
  have hexists : ¬¬fsDirectoryExists { s with fsErrno := 0 } [slash] := by simp [fsDirectoryExists]
  rw [if_neg hexists]
  split
  . unfold permAllows
    simp [h]
  . rfl

end Example

theorem listing_exact_noted : ListingExact { noted with fsCurUid := 0 } rootPath := by
  apply (listing_exact (.zeroed 64) noted 0 rootPath (noted_run (fun _ _ _ => trivial)) (by decide)
    (fsListDirectory_root rfl)).mpr
  have habs : absPath noted.cwd.str rootPath = [slash] := absPath_render Canon.nil
  have hns : NsInv noted :=
    Run.keeps (I := NsInv) (fun _ _ _ _ h => h.call) (NsInv.init _) (noted_run (fun _ _ _ => trivial))
  have hdirs : childDirs { noted with fsCurUid := 0 } [slash] = [] := by decide +kernel
  have hfiles : childFiles { noted with fsCurUid := 0 } [slash] = [[97]] := by decide +kernel
  have hentries : ∀ e, IsEntry { noted with fsCurUid := 0 } [slash] e ↔ e = [97] := by
    intro e
    rw [← mem_entries (hns.setUid 0)]
    unfold entries
    rw [hdirs, hfiles]
    simp
  rw [habs]
  refine ⟨?_, ?_, fun _ _ => ⟨[97], (hentries _).mpr rfl⟩⟩
  . unfold ListingFits listingSize
    rw [hdirs, hfiles]
    decide
  . intro e he
    rw [(hentries e).mp he]
    decide

theorem listing_cut
    : ¬∀ s₀ s uid (path : CStr), AnyRun (fsInit s₀) s → path.val ≠ [] →
        (fsListDirectory { s with fsCurUid := uid } path).1 = 0 →
        ListingExact { s with fsCurUid := uid } path := by
  intro h
  obtain ⟨s, hs⟩ := Crowded.all 65 (Nat.le_refl _)
  have hany : AnyRun (fsInit (.zeroed 0)) s := hs.run.mono (fun _ _ _ => trivial)
  have hns : NsInv s := Run.keeps (I := NsInv) (fun _ _ _ _ h => h.call) (NsInv.init _) hany
  have hrc := @fsListDirectory_root { s with fsCurUid := 0 } rfl
  have habs : absPath s.cwd.str rootPath = [slash] := absPath_render Canon.nil
  have hok := (listingExact_iff (hns.setUid 0) (by decide) hrc).mp (h _ _ 0 rootPath hany (by decide) hrc)
  have hfits := hok.fits
  rw [show absPath _ _ = [slash] from habs] at hfits
  exact hs.not_fits hns hfits

end TanjaOS
