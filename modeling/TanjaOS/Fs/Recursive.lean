import TanjaOS.Fs.Home
import TanjaOS.Fs.Listing
import TanjaOS.Fs.Path.Reference

/-!
`chmod -R` and `chown -R`: which entries they change, and what they return.
-/

open Lib

namespace TanjaOS

abbrev Entry : Type :=
  Fin maxF ⊕ Fin maxD

def allEntries : List Entry :=
  (List.finRange maxF).map Sum.inl ++ (List.finRange maxD).map Sum.inr

namespace FsState

def entryUsed (s : FsState) : Entry → Bool
  | .inl i => s.fused i ≠ 0
  | .inr i => s.dused i ≠ 0

def entryName (s : FsState) : Entry → Bytes
  | .inl i => (s.fname i).str
  | .inr i => (s.dname i).str

def entryOwner (s : FsState) : Entry → Int32
  | .inl i => s.fowner i
  | .inr i => s.downer i

def entryMode (s : FsState) : Entry → UInt16
  | .inl i => s.fmode i
  | .inr i => s.dmode i

/--
The entries at `full` or below it, if their owner is one that `may` allows.
-/
def picks (s : FsState) (full : Bytes) (may : Int32 → Bool) (e : Entry) : Bool :=
  s.entryUsed e ∧ AtOrBelow full (s.entryName e) ∧ may (s.entryOwner e)

def scans (s : FsState) (full : Bytes) (may : Int32 → Bool) (e : Entry) : Bool :=
  s.entryUsed e ∧ pathUnder (s.entryName e) full ∧ may (s.entryOwner e)

end FsState

/--
From `a` to `b`, the entries at `full` and below it have got the value `v`, and no others.
-/
def CoversBelow {α : Type} (s : FsState) (full : Bytes) (may : Int32 → Bool) (v : α) (a b : Entry → α) : Prop :=
  ∀ e, s.entryUsed e → b e = if s.picks full may e then v else a e

/--
`chmod -R` changes the entries at `path` and below it that the user owns, and returns their number.
-/
def ChmodCovers (s : FsState) (path : Bytes) (mode : UInt32) : Prop :=
  CoversBelow s (absPath s.cwd.str path) (mayChmod s) (mode &&& 0o777).toUInt16 s.entryMode
      (fsChmodRecursive s path mode).2.entryMode
    ∧ (fsChmodRecursive s path mode).1 = allEntries.countP (s.picks (absPath s.cwd.str path) (mayChmod s))

/--
`chown -R` changes the entries at `path` and below it, and returns their number.
-/
def ChownCovers (s : FsState) (path : Bytes) (uid : Int32) : Prop :=
  CoversBelow s (absPath s.cwd.str path) (fun _ => true) uid s.entryOwner
      (fsChownRecursive s path uid).2.entryOwner
    ∧ (fsChownRecursive s path uid).1
      = allEntries.countP (s.picks (absPath s.cwd.str path) (fun _ => true))

section Scan

variable {s : FsState} {full x : Bytes} {may : Int32 → Bool} {e t : Entry}

theorem pathUnder_of_atOrBelow (hfull : PathText full) (hroot : full ≠ [slash]) (h : AtOrBelow full x)
    : pathUnder x full := by
  have hlen := hfull.length_le
  have hhead := hfull.head
  have hstr : strlenSafe full = full.length := by
    unfold strlenSafe
    omega
  have hpos := List.length_pos_of_ne_nil hfull.ne_nil
  have hpre : full <+: x := by
    obtain rfl | hbelow := h
    . exact List.prefix_refl _
    . unfold childPrefix at hbelow
      rw [if_neg hroot] at hbelow
      exact (List.prefix_append _ _).trans hbelow
  obtain ⟨w, rfl⟩ := hpre
  have htwo : 2 ≤ full.length := by
    by_contra hshort
    obtain ⟨b, hb⟩ := List.length_eq_one_iff.mp (show full.length = 1 by omega)
    rw [hb, List.head?_cons, Option.some.injEq] at hhead
    rw [hb, hhead] at hroot
    exact hroot rfl
  have hzero : (full ++ w)[0]? = some slash := by
    rw [← List.head?_eq_getElem?, List.head?_append_of_ne_nil _ hfull.ne_nil]
    exact hhead
  unfold pathUnder
  dsimp only
  rw [hstr]
  by_cases hlast : full.length ≠ 0 ∧ full[full.length - 1]? = some slash
  . have hback : (full ++ w)[full.length - 1]? = some slash := by
      rw [List.getElem?_append_left (by omega)]
      exact hlast.2
    rw [if_pos hlast, List.take_append_of_le_length (by omega)]
    simp only [ne_eq, not_true_eq_false, if_false, decide_eq_true_eq]
    by_cases hone : full.length - 1 = 1
    . refine Or.inr (Or.inr ⟨hone, ?_, hzero⟩)
      rw [← List.head?_eq_getElem?]
      exact hhead
    . exact Or.inr (Or.inl ⟨by omega, hback⟩)
  . rw [if_neg hlast, List.take_append_of_le_length (Nat.le_refl _)]
    simp only [ne_eq, not_true_eq_false, if_false, decide_eq_true_eq]
    obtain heq | hbelow := h
    . exact Or.inl (congrArg List.length heq)
    . unfold childPrefix at hbelow
      rw [if_neg hroot, List.prefix_append_right_inj] at hbelow
      obtain ⟨v, rfl⟩ := hbelow
      exact Or.inr (Or.inl ⟨by omega, by simp⟩)

theorem pathUnder_iff {cs : List Bytes} (hcs : Canon cs) (hne : cs ≠ [])
    : pathUnder x (render cs) ↔ AtOrBelow (render cs) x := by
  have hlen := hcs.len
  have hstr : strlenSafe (render cs) = (render cs).length := by
    unfold strlenSafe
    omega
  have hlong := (one_lt_length_render hcs.comps).mpr hne
  have hroot : render cs ≠ [slash] := by
    intro heq
    rw [heq] at hlong
    simp at hlong
  constructor
  . intro h
    have hlast : ¬((render cs).length ≠ 0 ∧ (render cs)[(render cs).length - 1]? = some slash) := by
      rintro ⟨_, hlast⟩
      rw [← List.getLast?_eq_getElem?] at hlast
      exact getLast_render hcs hne hlast
    unfold pathUnder at h
    dsimp only at h
    rw [hstr, if_neg hlast, List.take_length] at h
    split at h
    . contradiction
    . next htake =>
      rw [not_not] at htake
      have hpre : render cs <+: x := by
        rw [← htake]
        exact List.take_prefix _ _
      obtain ⟨w, rfl⟩ := hpre
      simp only [decide_eq_true_eq] at h
      obtain heq | ⟨_, hat⟩ | ⟨hone, _⟩ := h
      . rw [List.length_append] at heq
        obtain rfl : w = [] := List.eq_nil_of_length_eq_zero (by omega)
        exact Or.inl (List.append_nil _)
      . right
        unfold childPrefix
        rw [if_neg hroot, List.prefix_append_right_inj]
        rw [List.getElem?_append_right (Nat.le_refl _), Nat.sub_self] at hat
        cases w with
        | nil => simp at hat
        | cons b w =>
          obtain rfl : b = slash := by simpa using hat
          exact ⟨w, rfl⟩
      . omega
  . exact pathUnder_of_atOrBelow ⟨cs, hcs, Or.inl rfl⟩ hroot

theorem pathUnder_root : pathUnder x [slash] ↔ x = [] := by
  unfold pathUnder
  simp [strlenSafe]

theorem FsState.scans_inl (i : Fin maxF)
    : s.scans full may (.inl i)
      = decide (s.fused i ≠ 0 ∧ pathUnder (s.fname i).str full ∧ may (s.fowner i)) := by
  simp [FsState.scans, FsState.entryUsed, FsState.entryName, FsState.entryOwner]

theorem FsState.scans_inr (i : Fin maxD)
    : s.scans full may (.inr i)
      = decide (s.dused i ≠ 0 ∧ pathUnder (s.dname i).str full ∧ may (s.downer i)) := by
  simp [FsState.scans, FsState.entryUsed, FsState.entryName, FsState.entryOwner]

theorem countP_le_scans (hfull : PathText full) (hroot : full ≠ [slash])
    : allEntries.countP (s.picks full may) ≤ allEntries.countP (s.scans full may) := by
  apply List.countP_mono_left
  intro e _ he
  unfold FsState.picks at he
  unfold FsState.scans
  rw [decide_eq_true_eq] at he ⊢
  exact ⟨he.1, pathUnder_of_atOrBelow hfull hroot he.2.1, he.2.2⟩

theorem mem_allEntries (e : Entry) : e ∈ allEntries := by
  unfold allEntries
  cases e with
  | inl i => simp
  | inr i => simp

theorem nodup_allEntries : allEntries.Nodup := by
  unfold allEntries
  rw [List.nodup_append]
  refine ⟨(List.nodup_finRange _).map Sum.inl_injective, (List.nodup_finRange _).map Sum.inr_injective,
    fun a ha b hb => ?_⟩
  obtain ⟨i, _, rfl⟩ := List.mem_map.mp ha
  obtain ⟨j, _, rfl⟩ := List.mem_map.mp hb
  exact Sum.inl_ne_inr

theorem countP_allEntries (p : Entry → Bool)
    : allEntries.countP p
      = (List.finRange maxF).countP (fun i => p (.inl i))
        + (List.finRange maxD).countP (fun i => p (.inr i)) := by
  unfold allEntries
  rw [List.countP_append, List.countP_map, List.countP_map]
  rfl

theorem countP_eq_one_iff {p : Entry → Bool} (ht : p t)
    : allEntries.countP p = 1 ↔ ∀ e, p e → e = t := by
  have hmem : t ∈ allEntries.filter p := List.mem_filter.mpr ⟨mem_allEntries t, ht⟩
  rw [List.countP_eq_length_filter]
  constructor
  . intro hone e he
    obtain ⟨u, hu⟩ := List.length_eq_one_iff.mp hone
    have hmem' : e ∈ allEntries.filter p := List.mem_filter.mpr ⟨mem_allEntries e, he⟩
    rw [hu, List.mem_singleton] at hmem hmem'
    rw [hmem, hmem']
  . intro hall
    have hperm : (allEntries.filter p).toFinset = {t} := by
      ext e
      rw [List.mem_toFinset, List.mem_filter, Finset.mem_singleton]
      constructor
      . exact fun he => hall e he.2
      . rintro rfl
        exact ⟨mem_allEntries e, ht⟩
    rw [← List.toFinset_card_of_nodup (nodup_allEntries.filter p), hperm, Finset.card_singleton]

theorem NsInv.entry_unique (h : NsInv s) (he : s.entryUsed e) (ht : s.entryUsed t)
    (hname : s.entryName e = s.entryName t)
    : e = t := by
  cases e with
  | inl i =>
    have hi : s.IsFile i (s.fname i).str := ⟨by simpa [FsState.entryUsed] using he, rfl⟩
    cases t with
    | inl j =>
      have hj : s.IsFile j (s.fname i).str := ⟨by simpa [FsState.entryUsed] using ht, hname.symm⟩
      rw [h.file_unique i j _ hi hj]
    | inr j =>
      have hj : s.IsDir j (s.fname i).str := ⟨by simpa [FsState.entryUsed] using ht, hname.symm⟩
      exact absurd ⟨j, hj⟩ (h.disjoint _ ⟨i, hi⟩)
  | inr i =>
    have hi : s.IsDir i (s.dname i).str := ⟨by simpa [FsState.entryUsed] using he, rfl⟩
    cases t with
    | inl j =>
      have hj : s.IsFile j (s.dname i).str := ⟨by simpa [FsState.entryUsed] using ht, hname.symm⟩
      exact absurd ⟨i, hi⟩ (h.disjoint _ ⟨j, hj⟩)
    | inr j =>
      have hj : s.IsDir j (s.dname i).str := ⟨by simpa [FsState.entryUsed] using ht, hname.symm⟩
      rw [h.dir_unique i j _ hi hj]

theorem NsInv.fileIndex_eq {i : Fin maxF} (h : NsInv s) (hi : s.IsFile i x) : fileIndex s x = some i := by
  obtain ⟨j, hj⟩ := Option.isSome_iff_exists.mp (fileIndex_isSome.mpr ⟨i, hi⟩)
  rw [hj, h.file_unique i j x hi (fileIndex_eq_some hj)]

theorem NsInv.dirIndex_eq {i : Fin maxD} (h : NsInv s) (hi : s.IsDir i x)
    : fileIndex s x = none ∧ dirIndex s x = some i := by
  obtain ⟨j, hj⟩ := Option.isSome_iff_exists.mp (dirIndex_isSome.mpr ⟨i, hi⟩)
  constructor
  . rw [fileIndex_eq_none]
    exact fun k hk => h.disjoint x ⟨k, hk⟩ ⟨i, hi⟩
  . rw [hj, h.dir_unique i j x hi (dirIndex_eq_some hj)]

theorem NsInv.entry_text (h : NsInv s) (he : s.entryUsed e) : PathText (s.entryName e) := by
  cases e with
  | inl i => exact h.files i _ ⟨by simpa [FsState.entryUsed] using he, rfl⟩
  | inr i => exact h.dirs i _ ⟨by simpa [FsState.entryUsed] using he, rfl⟩

theorem atOrBelow_root (h : PathText x) : AtOrBelow [slash] x := by
  right
  cases x with
  | nil => exact absurd rfl h.ne_nil
  | cons b x =>
    obtain rfl : b = slash := by simpa using h.head
    exact ⟨x, rfl⟩

end Scan

/--
The entry that a path leads to, with an owner that `may` allows.
-/
structure IsTarget (s : FsState) (full : Bytes) (may : Int32 → Bool) (t : Entry) : Prop where
  used : s.entryUsed t
  name : s.entryName t = full
  owner : may (s.entryOwner t)

section Covers

variable {α : Type} {s : FsState} {full : Bytes} {may : Int32 → Bool} {t : Entry} {v : α}
  {a b : Entry → α} {rc : Int}

theorem IsTarget.picks (h : IsTarget s full may t) : s.picks full may t := by
  unfold FsState.picks
  rw [decide_eq_true_eq]
  exact ⟨h.used, Or.inl h.name, h.owner⟩

theorem covers_of_canon {cs : List Bytes} (hcs : Canon cs) (hne : cs ≠ [])
    (ht : IsTarget s (render cs) may t)
    (hb : ∀ e, b e = if s.scans (render cs) may e then v else Function.update a t v e)
    (hrc : rc = 1 + allEntries.countP (s.scans (render cs) may))
    : CoversBelow s (render cs) may v a b ∧ rc = allEntries.countP (s.picks (render cs) may) + 1 := by
  have hsame : s.scans (render cs) may = s.picks (render cs) may := by
    funext e
    unfold FsState.scans FsState.picks
    rw [decide_eq_decide, pathUnder_iff hcs hne]
  rw [hsame] at hb hrc
  refine ⟨fun e _ => ?_, by omega⟩
  rw [hb]
  split
  . rfl
  . next hno =>
    rw [Function.update_of_ne]
    rintro rfl
    exact hno ht.picks

theorem covers_root_iff (hinv : NsInv s) (ht : IsTarget s [slash] may t)
    (hb : ∀ e, b e = if s.scans [slash] may e then v else Function.update a t v e)
    (hrc : rc = 1 + allEntries.countP (s.scans [slash] may))
    : (CoversBelow s [slash] may v a b ∧ rc = allEntries.countP (s.picks [slash] may))
      ↔ ∀ e, s.entryUsed e → s.entryName e ≠ [slash] → ¬may (s.entryOwner e) := by
  have hno : ∀ e, ¬s.scans [slash] may e := by
    intro e he
    unfold FsState.scans at he
    rw [decide_eq_true_eq] at he
    exact (hinv.entry_text he.1).ne_nil (pathUnder_root.mp he.2.1)
  have hzero : allEntries.countP (s.scans [slash] may) = 0 := by
    rw [List.countP_eq_zero]
    exact fun e _ => hno e
  have hone : rc = allEntries.countP (s.picks [slash] may) ↔ ∀ e, s.picks [slash] may e → e = t := by
    rw [← countP_eq_one_iff ht.picks, hrc, hzero]
    omega
  have hpick : ∀ e, s.picks [slash] may e ↔ s.entryUsed e ∧ may (s.entryOwner e) := by
    intro e
    unfold FsState.picks
    rw [decide_eq_true_eq]
    constructor
    . exact fun h => ⟨h.1, h.2.2⟩
    . exact fun h => ⟨h.1, atOrBelow_root (hinv.entry_text h.1), h.2⟩
  have honly : (∀ e, s.picks [slash] may e → e = t)
      ↔ ∀ e, s.entryUsed e → s.entryName e ≠ [slash] → ¬may (s.entryOwner e) := by
    constructor
    . intro hall e hused hname hmay
      apply hname
      rw [hall e ((hpick e).mpr ⟨hused, hmay⟩)]
      exact ht.name
    . intro hall e he
      obtain ⟨hused, hmay⟩ := (hpick e).mp he
      by_contra hne
      apply hall e hused _ hmay
      intro hname
      exact hne (hinv.entry_unique hused ht.used (hname.trans ht.name.symm))
  rw [hone, honly]
  constructor
  . exact fun h => h.2
  . intro h
    refine ⟨fun e hused => ?_, h⟩
    rw [hb, if_neg (hno e)]
    by_cases he : e = t
    . rw [he, Function.update_self, if_pos ht.picks]
    . rw [Function.update_of_ne he, if_neg]
      exact fun hpicked => he (honly.mpr h e hpicked)

end Covers

section Chmod

variable {s : FsState} {path full : Bytes} {mode : UInt32}

theorem fsChmod_fields (s : FsState) (path : Bytes) (mode : UInt32)
    : ∃ fmode dmode, (fsChmod s path mode).2 = { s with fmode := fmode, dmode := dmode } := by
  unfold fsChmod
  dsimp only
  split
  . exact ⟨_, _, rfl⟩
  . split
    . split
      . exact ⟨_, _, rfl⟩
      . exact ⟨_, _, rfl⟩
    . split
      . split
        . exact ⟨_, _, rfl⟩
        . exact ⟨_, _, rfl⟩
      . exact ⟨_, _, rfl⟩

theorem fsChmodRecursive_scans (hne : path ≠ []) (hrc : (fsChmod s (absPath s.cwd.str path) mode).1 = 0)
    : (fsChmodRecursive s path mode).1
        = 1 + allEntries.countP (s.scans (absPath s.cwd.str path) (mayChmod s))
      ∧ ∀ e, (fsChmodRecursive s path mode).2.entryMode e
        = if s.scans (absPath s.cwd.str path) (mayChmod s) e then (mode &&& 0o777).toUInt16
          else (fsChmod s (absPath s.cwd.str path) mode).2.entryMode e := by
  obtain ⟨fmode, dmode, hfields⟩ := fsChmod_fields s (absPath s.cwd.str path) mode
  have hbase : fsChmod s (absPath s.cwd.str path) mode
      = (0, { s with fmode := fmode, dmode := dmode }) := Prod.ext hrc hfields
  unfold fsChmodRecursive
  rw [if_neg hne]
  dsimp only
  rw [hbase, countP_allEntries]
  dsimp only
  rw [if_neg (by simp)]
  simp only [FsState.scans_inl, FsState.scans_inr]
  constructor
  . push_cast
    rw [← add_assoc]
    rfl
  . intro e
    cases e with
    | inl i =>
      rw [FsState.scans_inl]
      rfl
    | inr i =>
      rw [FsState.scans_inr]
      rfl

theorem fsChmodRecursive_fails (hne : path ≠ []) (hrc : (fsChmod s (absPath s.cwd.str path) mode).1 ≠ 0)
    : (fsChmodRecursive s path mode).1 = -1 := by
  unfold fsChmodRecursive
  rw [if_neg hne]
  dsimp only
  rw [if_pos hrc]

theorem fsChmod_target {t : Entry} (hinv : NsInv s) (ht : IsTarget s full (mayChmod s) t)
    (hself : absPath s.cwd.str full = full) (hne : full ≠ [])
    : (fsChmod s full mode).1 = 0
      ∧ ∀ e, (fsChmod s full mode).2.entryMode e
        = Function.update s.entryMode t (mode &&& 0o777).toUInt16 e := by
  have howner := ht.owner
  unfold fsChmod
  dsimp only
  rw [if_neg hne, hself]
  cases t with
  | inl f =>
    have hf : s.IsFile f full := ⟨by simpa [FsState.entryUsed] using ht.used, ht.name⟩
    have hmay : mayChmod s (s.fowner f) = true := howner
    rw [hinv.fileIndex_eq hf]
    dsimp only
    rw [if_pos hmay]
    refine ⟨rfl, fun e => ?_⟩
    cases e with
    | inl i => simp [FsState.entryMode, Function.update_apply]
    | inr i => rfl
  | inr d =>
    have hd : s.IsDir d full := ⟨by simpa [FsState.entryUsed] using ht.used, ht.name⟩
    have hmay : mayChmod s (s.downer d) = true := howner
    rw [(hinv.dirIndex_eq hd).1, (hinv.dirIndex_eq hd).2]
    dsimp only
    rw [if_pos hmay]
    refine ⟨rfl, fun e => ?_⟩
    cases e with
    | inl i => rfl
    | inr i => simp [FsState.entryMode, Function.update_apply]

end Chmod

section Chown

variable {s : FsState} {path full : Bytes} {uid : Int32}

theorem fsChown_fields (s : FsState) (path : Bytes) (uid : Int32)
    : ∃ fowner downer, (fsChown s path uid).2 = { s with fowner := fowner, downer := downer } := by
  unfold fsChown
  dsimp only
  split
  . exact ⟨_, _, rfl⟩
  . split
    . exact ⟨_, _, rfl⟩
    . split
      . exact ⟨_, _, rfl⟩
      . split
        . exact ⟨_, _, rfl⟩
        . exact ⟨_, _, rfl⟩

theorem fsChownRecursive_scans (hne : path ≠ []) (hroot : s.fsCurUid = 0)
    (hrc : (fsChown s (absPath s.cwd.str path) uid).1 = 0)
    : (fsChownRecursive s path uid).1
        = 1 + allEntries.countP (s.scans (absPath s.cwd.str path) (fun _ => true))
      ∧ ∀ e, (fsChownRecursive s path uid).2.entryOwner e
        = if s.scans (absPath s.cwd.str path) (fun _ => true) e then uid
          else (fsChown s (absPath s.cwd.str path) uid).2.entryOwner e := by
  obtain ⟨fowner, downer, hfields⟩ := fsChown_fields s (absPath s.cwd.str path) uid
  have hbase : fsChown s (absPath s.cwd.str path) uid
      = (0, { s with fowner := fowner, downer := downer }) := Prod.ext hrc hfields
  unfold fsChownRecursive
  rw [if_neg hne, if_neg (by simpa using hroot)]
  dsimp only
  rw [hbase, countP_allEntries]
  dsimp only
  rw [if_neg (by simp)]
  simp only [FsState.scans_inl, FsState.scans_inr, and_true]
  constructor
  . push_cast
    rw [← add_assoc]
  . intro e
    cases e with
    | inl i =>
      rw [FsState.scans_inl]
      simp only [and_true]
      rfl
    | inr i =>
      rw [FsState.scans_inr]
      simp only [and_true]
      rfl

theorem fsChownRecursive_fails (hne : path ≠ []) (hroot : s.fsCurUid = 0)
    (hrc : (fsChown s (absPath s.cwd.str path) uid).1 ≠ 0)
    : (fsChownRecursive s path uid).1 = -1 := by
  unfold fsChownRecursive
  rw [if_neg hne, if_neg (by simpa using hroot)]
  dsimp only
  rw [if_pos hrc]

theorem fsChown_target {t : Entry} {may : Int32 → Bool} (hinv : NsInv s) (ht : IsTarget s full may t)
    (hroot : s.fsCurUid = 0) (hself : absPath s.cwd.str full = full) (hne : full ≠ [])
    : (fsChown s full uid).1 = 0
      ∧ ∀ e, (fsChown s full uid).2.entryOwner e = Function.update s.entryOwner t uid e := by
  unfold fsChown
  dsimp only
  rw [if_neg hne, if_neg (by simpa using hroot), hself]
  cases t with
  | inl f =>
    have hf : s.IsFile f full := ⟨by simpa [FsState.entryUsed] using ht.used, ht.name⟩
    rw [hinv.fileIndex_eq hf]
    refine ⟨rfl, fun e => ?_⟩
    cases e with
    | inl i => simp [FsState.entryOwner, Function.update_apply]
    | inr i => rfl
  | inr d =>
    have hd : s.IsDir d full := ⟨by simpa [FsState.entryUsed] using ht.used, ht.name⟩
    rw [(hinv.dirIndex_eq hd).1, (hinv.dirIndex_eq hd).2]
    refine ⟨rfl, fun e => ?_⟩
    cases e with
    | inl i => rfl
    | inr i => simp [FsState.entryOwner, Function.update_apply]

end Chown

section Claims

variable {s : FsState} {path : Bytes}

theorem exists_target {may : Int32 → Bool} (h : ∃ owner, fsGetOwner s path = some owner ∧ may owner)
    : path ≠ [] ∧ ∃ t, IsTarget s (absPath s.cwd.str path) may t := by
  obtain ⟨owner, hget, hmay⟩ := h
  unfold fsGetOwner at hget
  split at hget
  . contradiction
  . next hne =>
    refine ⟨hne, ?_⟩
    split at hget
    . next f hf =>
      obtain ⟨hused, hname⟩ := fileIndex_eq_some hf
      obtain rfl := Option.some.inj hget
      exact ⟨.inl f, by simpa [FsState.entryUsed] using hused, hname, hmay⟩
    . obtain ⟨d, hd, rfl⟩ := Option.map_eq_some_iff.mp hget
      obtain ⟨hused, hname⟩ := dirIndex_eq_some hd
      exact ⟨.inr d, by simpa [FsState.entryUsed] using hused, hname, hmay⟩

theorem absPath_root (cwd : Bytes) : absPath cwd [slash] = [slash] :=
  absPath_render Canon.nil

theorem chmodCovers_iff (hinv : NsInv s) (mode : UInt32)
    (htarget : ∃ owner, fsGetOwner s path = some owner ∧ mayChmod s owner)
    : ChmodCovers s path mode ↔ absPath s.cwd.str path = [slash]
        ∧ ∀ e, s.entryUsed e → s.entryName e ≠ [slash] → ¬mayChmod s (s.entryOwner e) := by
  obtain ⟨hne, t, ht⟩ := exists_target htarget
  have htext := absPath_text s.cwd.str path
  by_cases hroot : absPath s.cwd.str path = [slash]
  . rw [and_iff_right hroot]
    rw [hroot] at ht
    obtain ⟨hrc, hbase⟩ := @fsChmod_target s _ mode t hinv ht (absPath_root _) (by simp)
    obtain ⟨hcount, hmode⟩ := fsChmodRecursive_scans hne (by rw [hroot]; exact hrc)
    unfold ChmodCovers
    rw [hroot] at hcount hmode ⊢
    simp only [hbase] at hmode
    exact covers_root_iff hinv ht hmode hcount
  . rw [iff_false_intro (fun h => hroot (And.left h)), iff_false]
    rintro ⟨_, hcount⟩
    by_cases hrc : (fsChmod s (absPath s.cwd.str path) mode).1 = 0
    . have hle := @countP_le_scans s _ (mayChmod s) htext hroot
      rw [(fsChmodRecursive_scans hne hrc).1] at hcount
      omega
    . rw [fsChmodRecursive_fails hne hrc] at hcount
      omega

theorem chmod_covers {cs : List Bytes} (hinv : NsInv s) (mode : UInt32)
    (htarget : ∃ owner, fsGetOwner s path = some owner ∧ mayChmod s owner)
    (hcs : Canon cs) (hcs0 : cs ≠ []) (hfull : absPath s.cwd.str path = render cs)
    : CoversBelow s (render cs) (mayChmod s) (mode &&& 0o777).toUInt16 s.entryMode
        (fsChmodRecursive s path mode).2.entryMode
      ∧ (fsChmodRecursive s path mode).1 = allEntries.countP (s.picks (render cs) (mayChmod s)) + 1 := by
  obtain ⟨hne, t, ht⟩ := exists_target htarget
  rw [hfull] at ht
  have hnil : render cs ≠ [] := List.ne_nil_of_length_pos (length_render_pos cs)
  obtain ⟨hrc, hbase⟩ := @fsChmod_target s _ mode t hinv ht (absPath_render hcs) hnil
  obtain ⟨hcount, hmode⟩ := fsChmodRecursive_scans hne (by rw [hfull]; exact hrc)
  rw [hfull] at hcount hmode
  simp only [hbase] at hmode
  exact covers_of_canon hcs hcs0 ht hmode hcount

theorem chownCovers_iff (hinv : NsInv s) (uid : Int32) (hroot : s.fsCurUid = 0)
    (htarget : ∃ owner, fsGetOwner s path = some owner)
    : ChownCovers s path uid ↔ absPath s.cwd.str path = [slash]
        ∧ ∀ e, s.entryUsed e → s.entryName e = [slash] := by
  obtain ⟨owner, howner⟩ := htarget
  obtain ⟨hne, t, ht⟩ := @exists_target s path (fun _ => true) ⟨owner, howner, rfl⟩
  have htext := absPath_text s.cwd.str path
  by_cases hfull : absPath s.cwd.str path = [slash]
  . rw [and_iff_right hfull]
    rw [hfull] at ht
    obtain ⟨hrc, hbase⟩ := @fsChown_target s _ uid t _ hinv ht hroot (absPath_root _) (by simp)
    obtain ⟨hcount, howners⟩ := fsChownRecursive_scans hne hroot (by rw [hfull]; exact hrc)
    unfold ChownCovers
    rw [hfull] at hcount howners ⊢
    simp only [hbase] at howners
    rw [covers_root_iff hinv ht howners hcount]
    constructor
    . intro h e hused
      by_contra hname
      exact h e hused hname rfl
    . exact fun h e hused hname => absurd (h e hused) hname
  . rw [iff_false_intro (fun h => hfull (And.left h)), iff_false]
    rintro ⟨_, hcount⟩
    by_cases hrc : (fsChown s (absPath s.cwd.str path) uid).1 = 0
    . have hle := @countP_le_scans s _ (fun _ => true) htext hfull
      rw [(fsChownRecursive_scans hne hroot hrc).1] at hcount
      omega
    . rw [fsChownRecursive_fails hne hroot hrc] at hcount
      omega

theorem chown_covers {cs : List Bytes} (hinv : NsInv s) (uid : Int32) (hroot : s.fsCurUid = 0)
    (htarget : ∃ owner, fsGetOwner s path = some owner)
    (hcs : Canon cs) (hcs0 : cs ≠ []) (hfull : absPath s.cwd.str path = render cs)
    : CoversBelow s (render cs) (fun _ => true) uid s.entryOwner (fsChownRecursive s path uid).2.entryOwner
      ∧ (fsChownRecursive s path uid).1
        = allEntries.countP (s.picks (render cs) (fun _ => true)) + 1 := by
  obtain ⟨owner, howner⟩ := htarget
  obtain ⟨hne, t, ht⟩ := @exists_target s path (fun _ => true) ⟨owner, howner, rfl⟩
  rw [hfull] at ht
  have hnil : render cs ≠ [] := List.ne_nil_of_length_pos (length_render_pos cs)
  obtain ⟨hrc, hbase⟩ := @fsChown_target s _ uid t _ hinv ht hroot (absPath_render hcs) hnil
  obtain ⟨hcount, howners⟩ := fsChownRecursive_scans hne hroot (by rw [hfull]; exact hrc)
  rw [hfull] at hcount howners
  simp only [hbase] at howners
  exact covers_of_canon hcs hcs0 ht howners hcount

/--
The recursive calls are right for a root directory that stands alone for the user. For another target
the entries are right, if its path has its canonical form, and the target is counted twice.
-/
theorem recursive_covers {s₀ s : FsState} (hrun : AnyRun (fsInit s₀) s) (uid : Int32) (path : Bytes)
    (owner : Int32) (howner : fsGetOwner s path = some owner)
    : (∀ mode, mayChmod { s with fsCurUid := uid } owner →
        (ChmodCovers { s with fsCurUid := uid } path mode ↔ absPath s.cwd.str path = [slash]
          ∧ ∀ e, s.entryUsed e → s.entryName e ≠ [slash] →
            ¬mayChmod { s with fsCurUid := uid } (s.entryOwner e))
        ∧ ∀ cs, Canon cs → cs ≠ [] → absPath s.cwd.str path = render cs →
          CoversBelow s (render cs) (mayChmod { s with fsCurUid := uid }) (mode &&& 0o777).toUInt16
              s.entryMode (fsChmodRecursive { s with fsCurUid := uid } path mode).2.entryMode
            ∧ (fsChmodRecursive { s with fsCurUid := uid } path mode).1
              = allEntries.countP (s.picks (render cs) (mayChmod { s with fsCurUid := uid })) + 1)
      ∧ ∀ newUid,
        (ChownCovers { s with fsCurUid := 0 } path newUid ↔ absPath s.cwd.str path = [slash]
          ∧ ∀ e, s.entryUsed e → s.entryName e = [slash])
        ∧ ∀ cs, Canon cs → cs ≠ [] → absPath s.cwd.str path = render cs →
          CoversBelow s (render cs) (fun _ => true) newUid s.entryOwner
              (fsChownRecursive { s with fsCurUid := 0 } path newUid).2.entryOwner
            ∧ (fsChownRecursive { s with fsCurUid := 0 } path newUid).1
              = allEntries.countP (s.picks (render cs) (fun _ => true)) + 1 := by
  have h : NsInv s := Run.keeps (I := NsInv) (fun _ _ _ _ h => h.call) (NsInv.init s₀) hrun
  have hinv : ∀ uid, NsInv { s with fsCurUid := uid } := fun uid =>
    ⟨h.files, h.dirs, h.cwd, h.file_unique, h.dir_unique, h.disjoint, h.parent, h.root⟩
  constructor
  . intro mode hmay
    have htarget : ∃ owner, fsGetOwner { s with fsCurUid := uid } path = some owner
        ∧ mayChmod { s with fsCurUid := uid } owner := ⟨owner, howner, hmay⟩
    exact ⟨chmodCovers_iff (hinv uid) mode htarget,
      fun cs hcs hne hfull => chmod_covers (hinv uid) mode htarget hcs hne hfull⟩
  . intro newUid
    have htarget : ∃ owner, fsGetOwner { s with fsCurUid := 0 } path = some owner := ⟨owner, howner⟩
    exact ⟨chownCovers_iff (hinv 0) newUid rfl htarget,
      fun cs hcs hne hfull => chown_covers (hinv 0) newUid rfl htarget hcs hne hfull⟩

/--
`chmod -R 700 /` on a fresh filesystem.
-/
theorem recursive_covers_fresh
    : fsGetOwner (fsInit (.zeroed 64)) [slash] = some 0
      ∧ ChmodCovers { fsInit (.zeroed 64) with fsCurUid := 0 } [slash] 0o700 := by
  have howner : fsGetOwner (fsInit (.zeroed 64)) [slash] = some 0 := by decide +kernel
  refine ⟨howner, ?_⟩
  apply (((recursive_covers .refl 0 [slash] 0 howner).1 0o700 (by decide)).1).mpr
  refine ⟨absPath_root _, ?_⟩
  decide +kernel

/--
`/a`
-/
def lonePath : CStr :=
  ⟨[47, 97], by decide⟩

/--
`chmod -R 700 /` leaves `/a` as it is.
-/
theorem not_recursive_covers
    : ¬∀ s₀ s uid path owner mode, AnyRun (fsInit s₀) s → fsGetOwner s path = some owner →
        mayChmod { s with fsCurUid := uid } owner →
        ChmodCovers { s with fsCurUid := uid } path mode := by
  intro h
  have hmake : FsCall.Step ⟨0, .createDirectory lonePath⟩ (fsInit (.zeroed 64))
      (fsCreateDirectory { fsInit (.zeroed 64) with fsCurUid := 0 } lonePath).2 := FsCall.step 0 rfl
  have hcovers := h _ _ 0 [slash] 0 0o700 (Run.call .refl hmake trivial) (by decide +kernel) (by decide)
  have hcount := hcovers.2
  revert hcount
  decide +kernel

end Claims

end TanjaOS
