import TanjaOS.Fs.Delete.Impl
import TanjaOS.Fs.Lemmas

/-!
What a recursive delete reads back from the listing it asked for. The text of a listing does not
quote newlines, so that a name with a newline in it comes back in pieces.
-/

open Lib

namespace TanjaOS

def dirPieces (entries : List Bytes) : List Bytes :=
  entries.filterMap (fun e => if e.getLast? = some slash then some e.dropLast else none)

/--
What comes back of the name of a directory: the piece behind its last newline.
-/
def afterNewline (c : Bytes) : Bytes :=
  (c.reverse.takeWhile (· ≠ newline)).reverse

theorem newline_not_mem_afterNewline (c : Bytes) : newline ∉ afterNewline c := by
  unfold afterNewline
  rw [List.mem_reverse]
  intro h
  have := List.mem_takeWhile_imp h
  simp at this

theorem afterNewline_of_not_mem {c : Bytes} (h : newline ∉ c) : afterNewline c = c := by
  unfold afterNewline
  rw [List.takeWhile_eq_self_iff.mpr]
  . simp
  . intro b hb
    rw [List.mem_reverse] at hb
    simp only [ne_eq, decide_not, Bool.not_eq_eq_eq_not, Bool.not_true, decide_eq_false_iff_not]
    rintro rfl
    contradiction

theorem afterNewline_append (a c : Bytes) : afterNewline (a ++ newline :: c) = afterNewline c := by
  have hstop : ∀ l m : Bytes,
      (l ++ newline :: m).takeWhile (· ≠ newline) = l.takeWhile (· ≠ newline) := by
    intro l m
    induction l with
    | nil => simp
    | cons b l ih =>
      simp only [List.cons_append, List.takeWhile_cons]
      rw [ih]
  unfold afterNewline
  simp only [List.reverse_append, List.reverse_cons, List.append_assoc, List.singleton_append]
  rw [hstop]

theorem mem_of_mem_afterNewline {b : Byte} {c : Bytes} (h : b ∈ afterNewline c) : b ∈ c := by
  unfold afterNewline at h
  rw [List.mem_reverse] at h
  have := List.takeWhile_subset _ h
  rwa [List.mem_reverse] at this

theorem length_afterNewline_le (c : Bytes) : (afterNewline c).length ≤ c.length := by
  unfold afterNewline
  rw [List.length_reverse]
  apply Nat.le_trans (List.takeWhile_sublist _).length_le
  simp

theorem newline_mem_of_afterNewline_ne {c : Bytes} (h : afterNewline c ≠ c) : newline ∈ c := by
  by_contra hmem
  exact h (afterNewline_of_not_mem hmem)

theorem splitEntries_line {a : Bytes} (rest : Bytes) (hnl : newline ∉ a) (hlen : a.length ≤ 255)
    : splitEntries (a ++ newline :: rest) = a :: splitEntries rest := by
  have hline : (a ++ newline :: rest).takeWhile (· ≠ newline) = a := by
    rw [List.takeWhile_append_of_pos]
    . simp
    . intro b hb
      simp only [ne_eq, decide_not, Bool.not_eq_eq_eq_not, Bool.not_true, decide_eq_false_iff_not]
      rintro rfl
      contradiction
  have hne : a ++ newline :: rest ≠ [] := by simp
  obtain ⟨c, cs, heq⟩ := List.exists_cons_of_ne_nil hne
  rw [heq] at hline ⊢
  rw [splitEntries]
  rw [hline, List.take_of_length_le hlen, ← heq]
  simp

theorem mem_splitEntries {buf e : Bytes} {b : Byte} (he : e ∈ splitEntries buf) (hb : b ∈ e)
    : b ∈ buf := by
  fun_induction splitEntries buf with
  | case1 => simp at he
  | case2 c cs line entry rest ih =>
    rw [List.mem_cons] at he
    cases he with
    | inl he =>
      subst he
      exact List.takeWhile_subset _ (List.mem_of_mem_take hb)
    | inr he =>
      have := ih he
      split at this
      . exact List.mem_of_mem_drop (List.mem_of_mem_tail this)
      . exact List.mem_of_mem_drop this

theorem dirPieces_line {c : Bytes} (rest : Bytes) (hslash : slash ∉ c) (hlen : c.length ≤ 254)
    : dirPieces (splitEntries (c ++ [slash, newline] ++ rest))
        = afterNewline c :: dirPieces (splitEntries rest) := by
  have hsplit : c ++ [slash, newline] ++ rest = c ++ slash :: newline :: rest := by simp
  rw [hsplit]
  clear hsplit
  induction hn : c.length using Nat.strong_induction_on generalizing c with
  | h n ih =>
    by_cases hnl : newline ∈ c
    . obtain ⟨a, c', rfl, ha⟩ := List.eq_append_cons_of_mem hnl
      simp only [List.mem_append, List.mem_cons, not_or] at hslash
      simp only [List.length_append, List.length_cons] at hlen hn
      rw [List.append_assoc, List.cons_append, splitEntries_line _ ha (by omega),
        afterNewline_append, ← ih c'.length (by omega) hslash.2.2 (by omega) rfl]
      have hlast : a.getLast? ≠ some slash := by
        intro h
        exact hslash.1 (List.mem_of_getLast? h)
      simp [dirPieces, hlast]
    . have hnl' : newline ∉ c ++ [slash] := by
        simp only [List.mem_append, List.mem_singleton, not_or]
        exact ⟨hnl, by decide⟩
      have := splitEntries_line rest hnl' (by simp; omega)
      rw [List.append_assoc, List.singleton_append] at this
      rw [this, afterNewline_of_not_mem hnl]
      simp [dirPieces]

theorem dirPieces_lines {cs : List Bytes} (rest : Bytes)
    (h : ∀ c ∈ cs, slash ∉ c ∧ c.length ≤ 254)
    : dirPieces (splitEntries (cs.flatMap (· ++ [slash, newline]) ++ rest))
        = cs.map afterNewline ++ dirPieces (splitEntries rest) := by
  induction cs with
  | nil => simp
  | cons c cs ih =>
    have hc := h c (by simp)
    rw [List.flatMap_cons, List.append_assoc, dirPieces_line _ hc.1 hc.2, ih]
    . simp
    . intro d hd
      apply h
      simp [hd]

theorem dirPieces_of_no_slash {buf : Bytes} (h : slash ∉ buf) : dirPieces (splitEntries buf) = [] := by
  unfold dirPieces
  rw [List.filterMap_eq_nil_iff]
  intro e he
  rw [if_neg]
  intro hlast
  exact h (mem_splitEntries he (List.mem_of_getLast? hlast))

theorem listChild_text {lp name c : Bytes} (h : listChild lp name = some c)
    : c ≠ [] ∧ slash ∉ c ∧ ∀ b ∈ c, b ∈ name := by
  have hvis : ∀ child, listChild.visible child = some c → (∀ b ∈ child, b ∈ name) →
      c ≠ [] ∧ slash ∉ c ∧ ∀ b ∈ c, b ∈ name := by
    intro child hvis hmem
    unfold listChild.visible at hvis
    split at hvis
    . simp at hvis
    . next hno =>
      rw [not_or] at hno
      simp only [Option.some.injEq] at hvis
      subst hvis
      exact ⟨hno.1, hno.2, hmem⟩
  unfold listChild at h
  dsimp only at h
  split at h
  . simp at h
  . split at h
    . simp at h
    . split at h
      . exact hvis _ h (fun b hb => List.mem_of_mem_drop hb)
      . split at h
        . simp at h
        . exact hvis _ h (fun b hb => List.mem_of_mem_drop hb)

theorem listChild_eq {lp name c : Bytes} (hlp : lp.length ≤ 255) (hname : name.length ≤ 255)
    (h : listChild lp name = some c)
    : name = (if lp = [slash] then [slash] else lp ++ [slash]) ++ c := by
  have hvis : ∀ child, listChild.visible child = some c → child = c := by
    intro child hvis
    unfold listChild.visible at hvis
    split at hvis
    . simp at hvis
    . simpa using hvis
  have hstr : strlenSafe lp = lp.length := by
    unfold strlenSafe
    omega
  have hstr' : strlenSafe name = name.length := by
    unfold strlenSafe
    omega
  unfold listChild at h
  rw [hstr, hstr'] at h
  dsimp only at h
  split at h
  . simp at h
  . next hlt =>
    split at h
    . simp at h
    . next htake =>
      simp only [ne_eq, Decidable.not_not, List.take_length] at htake
      split at h
      . next hroot =>
        have hlp' : lp = [slash] := by
          obtain ⟨hlen, hhead⟩ := hroot
          obtain ⟨b, rfl⟩ := List.length_eq_one_iff.mp hlen
          simpa using hhead
        have := hvis _ h
        subst hlp'
        change name.take 1 = [slash] at htake
        rw [if_pos rfl, ← this]
        nth_rewrite 1 [← List.take_append_drop 1 name]
        rw [htake]
      . next hroot =>
        have hlp' : lp ≠ [slash] := by
          rintro rfl
          simp at hroot
        split at h
        . simp at h
        . next hslash =>
          simp only [ne_eq, Decidable.not_not] at hslash
          have := hvis _ h
          rw [if_neg hlp', ← this]
          have hdrop : name.drop lp.length = slash :: name.drop (lp.length + 1) := by
            rw [List.drop_eq_getElem?_toList_append, hslash]
            rfl
          rw [List.append_assoc, List.singleton_append, ← hdrop]
          nth_rewrite 1 [← List.take_append_drop lp.length name]
          rw [htake]

theorem listChild_append {lp c : Bytes} (hlen : lp.length + 1 + c.length ≤ 256) (hlp : lp ≠ [])
    (hne : c ≠ []) (hslash : slash ∉ c)
    : listChild lp ((if lp = [slash] then [slash] else lp ++ [slash]) ++ c) = some c := by
  have hpos := List.length_pos_of_ne_nil hne
  have hstr : strlenSafe lp = lp.length := by
    unfold strlenSafe
    omega
  unfold listChild
  by_cases hroot : lp = [slash]
  . subst hroot
    have hstr' : ¬ strlenSafe ([slash] ++ c) ≤ 1 := by
      unfold strlenSafe
      simp
      omega
    simp only [↓reduceIte, hstr]
    rw [if_neg (by simpa using hstr')]
    simp [listChild.visible, hne, hslash]
  . have hstr' : ¬ strlenSafe (lp ++ [slash] ++ c) ≤ lp.length := by
      unfold strlenSafe
      simp
      omega
    have hroot' : ¬(lp.length = 1 ∧ lp[0]? = some slash) := by
      rintro ⟨hone, hhead⟩
      obtain ⟨b, rfl⟩ := List.length_eq_one_iff.mp hone
      simp at hhead
      simp [hhead] at hroot
    simp only [hroot, ↓reduceIte, hstr]
    rw [if_neg hstr', if_neg (by simp), if_neg hroot']
    simp [listChild.visible, hne, hslash]

theorem listLines_dirs {lp : Bytes} {names : List Bytes} (buf : Bytes) (hlp : lp ≠ [])
    (hlp' : lp.length ≤ 255) (hnames : ∀ name ∈ names, name.length ≤ 255)
    (hlen : buf.length + 256 * names.length ≤ 16380)
    : listLines lp [slash, newline] names buf
        = buf ++ (names.filterMap (listChild lp)).flatMap (· ++ [slash, newline]) := by
  have hpos := List.length_pos_of_ne_nil hlp
  induction names generalizing buf with
  | nil => simp [listLines]
  | cons name names ih =>
    have hname := hnames name (by simp)
    have hnames' : ∀ name ∈ names, name.length ≤ 255 := by
      intro n hn
      apply hnames
      simp [hn]
    simp only [List.length_cons] at hlen
    rw [listLines, if_pos (by omega)]
    cases hc : listChild lp name with
    | none =>
      dsimp only
      rw [ih _ hnames' (by omega), List.filterMap_cons_none hc]
    | some c =>
      have heq := congrArg List.length (listChild_eq hlp' hname hc)
      have hclen : c.length ≤ 254 := by
        rw [List.length_append] at heq
        split at heq
        . simp only [List.length_singleton] at heq
          omega
        . simp only [List.length_append, List.length_singleton] at heq
          omega
      have hstr : strlenSafe c = c.length := by
        unfold strlenSafe
        omega
      dsimp only
      rw [hstr, if_neg (by simp; omega), List.take_length, ih _ hnames' (by simp; omega),
        List.filterMap_cons_some hc]
      simp

theorem listLines_files (lp : Bytes) (names : List Bytes) (buf : Bytes)
    : ∃ text, listLines lp [newline] names buf = buf ++ text ∧ slash ∉ text := by
  induction names generalizing buf with
  | nil => exact ⟨[], by simp [listLines]⟩
  | cons name names ih =>
    rw [listLines]
    split
    . cases hc : listChild lp name with
      | none => exact ih buf
      | some c =>
        dsimp only
        split
        . exact ih buf
        . obtain ⟨_, hslash, _⟩ := listChild_text hc
          obtain ⟨text, heq, hslash'⟩ := ih (buf ++ c.take (strlenSafe c) ++ [newline])
          refine ⟨c.take (strlenSafe c) ++ newline :: text, ?_, ?_⟩
          . rw [heq]
            simp
          . simp only [List.mem_append, List.mem_cons, not_or]
            refine ⟨?_, by decide, hslash'⟩
            intro h
            exact hslash (List.mem_of_mem_take h)
    . exact ⟨[], by simp⟩

/--
The subdirectories that a listing of `lp` shows, in slot order.
-/
def subdirs (s : FsState) (lp : Bytes) : List Bytes :=
  (dirNames s).filterMap (listChild lp)

theorem mem_dirNames {s : FsState} {x : Bytes}
    : x ∈ dirNames s ↔ ∃ i, i ≠ rootSlot ∧ s.IsDir i x := by
  unfold dirNames FsState.IsDir
  simp only [List.mem_map, List.mem_filter, List.mem_finRange, decide_eq_true_eq, true_and]
  have hpos : ∀ i : Fin maxD, 1 ≤ i.val ↔ i ≠ rootSlot := by
    intro i
    rw [ne_eq, Fin.ext_iff]
    simp only [rootSlot]
    omega
  simp only [hpos, and_assoc]

theorem length_dirNames_le (s : FsState) : (dirNames s).length ≤ 63 := by
  unfold dirNames
  rw [List.length_map]
  have hsub : ((List.finRange maxD).filter (fun i => 1 ≤ i.val ∧ s.dused i ≠ 0)).Sublist
      ((List.finRange maxD).filter (fun i => 1 ≤ i.val)) := by
    apply List.monotone_filter_right
    intro i hi
    simp only [decide_eq_true_eq] at hi ⊢
    exact hi.1
  exact hsub.length_le

theorem dirPieces_lines_subdirs {s : FsState} {lp : Bytes} (hlp : lp ≠ []) (hlp' : lp.length ≤ 255)
    (hdirs : ∀ x ∈ dirNames s, x.length ≤ 255)
    : dirPieces (splitEntries (fsListDirectory.lines s lp)) = (subdirs s lp).map afterNewline := by
  have hpos := List.length_pos_of_ne_nil hlp
  have hcount := length_dirNames_le s
  unfold fsListDirectory.lines
  rw [listLines_dirs [] hlp hlp' hdirs (by simp; omega)]
  obtain ⟨text, heq, hslash⟩ := listLines_files lp (fileNames s)
    ([] ++ ((dirNames s).filterMap (listChild lp)).flatMap (· ++ [slash, newline]))
  rw [heq, List.nil_append, dirPieces_lines, dirPieces_of_no_slash hslash, List.append_nil]
  . rfl
  . intro c hc
    rw [List.mem_filterMap] at hc
    obtain ⟨name, hname, hc⟩ := hc
    refine ⟨(listChild_text hc).2.1, ?_⟩
    have hlen := congrArg List.length (listChild_eq hlp' (hdirs name hname) hc)
    have := hdirs name hname
    rw [List.length_append] at hlen
    split at hlen
    . simp only [List.length_singleton] at hlen
      omega
    . simp only [List.length_append, List.length_singleton] at hlen
      omega

theorem zero_not_mem_lines (s : FsState) (lp : Bytes) : 0 ∉ fsListDirectory.lines s lp := by
  have hfile : ∀ name ∈ fileNames s, 0 ∉ name := by
    intro name hname
    unfold fileNames at hname
    simp only [List.mem_map] at hname
    obtain ⟨i, _, rfl⟩ := hname
    exact Buf.zero_not_mem_str _
  have hdir : ∀ name ∈ dirNames s, 0 ∉ name := by
    intro name hname
    unfold dirNames at hname
    simp only [List.mem_map] at hname
    obtain ⟨i, _, rfl⟩ := hname
    exact Buf.zero_not_mem_str _
  have hlines : ∀ (suffix : Bytes) (names : List Bytes) (buf : Bytes), 0 ∉ suffix →
      (∀ name ∈ names, 0 ∉ name) → 0 ∉ buf → 0 ∉ listLines lp suffix names buf := by
    intro suffix names
    induction names with
    | nil =>
      intro buf _ _ hbuf
      simpa [listLines] using hbuf
    | cons name names ih =>
      intro buf hsuffix hnames hbuf
      have hnames' : ∀ name ∈ names, 0 ∉ name := by
        intro n hn
        apply hnames
        simp [hn]
      rw [listLines]
      split
      . cases hc : listChild lp name with
        | none => exact ih buf hsuffix hnames' hbuf
        | some c =>
          dsimp only
          split
          . exact ih buf hsuffix hnames' hbuf
          . apply ih _ hsuffix hnames'
            simp only [List.mem_append, not_or]
            refine ⟨⟨hbuf, ?_⟩, hsuffix⟩
            intro h
            exact hnames name (by simp) ((listChild_text hc).2.2 _ (List.mem_of_mem_take h))
      . exact hbuf
  unfold fsListDirectory.lines
  apply hlines _ _ _ (by decide) hfile
  exact hlines _ _ _ (by decide) hdir (by simp)

end TanjaOS
