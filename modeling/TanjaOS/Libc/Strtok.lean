import TanjaOS.Fs.Basic
import TanjaOS.Lib.Checked

/-!
`strtok` and `strtok_r`. Both cut the string they walk, where they resume is kept by the library
in one case and by the caller in the other.
-/

open Lib

namespace TanjaOS

/--
How many characters from `s` on are in `accept`. The bytes of `s` are all that may be read.
-/
def strspn (s : Bytes) (accept : CStr) : Checked Nat :=
  match s with
  | [] => .error .load
  | c :: s =>
    if c = 0 then
      .ok 0
    else if c ∈ accept.val then do
      let n ← strspn s accept
      return n + 1
    else
      .ok 0

def strcspn (s : Bytes) (reject : CStr) : Checked Nat :=
  match s with
  | [] => .error .load
  | c :: s =>
    if c = 0 then
      .ok 0
    else if c ∈ reject.val then
      .ok 0
    else do
      let n ← strcspn s reject
      return n + 1

/--
The index of the character `c`, the end of the string is where its terminator is found.
-/
def strchr (s : Bytes) (c : Byte) : Option Nat :=
  match s with
  | [] => if c = 0 then some 0 else none
  | x :: s => if x = c then some 0 else (strchr s c).map (· + 1)

/--
The buffer that is cut, and `strtok_save` or what the caller's `saveptr` points to. A pointer is an
index into the buffer, `none` is null.
-/
structure Strtok where
  buf : Bytes
  save : Option Nat
  deriving DecidableEq

def strtok (delim : CStr) (s : Option Nat) (st : Strtok) : Checked (Option Nat × Strtok) :=
  match s.or st.save with
  | none => .ok (none, st)
  | some s => do
    let s := s + (← strspn (st.buf.drop s) delim)
    if (← load8 st.buf s) = 0 then
      return (none, { st with save := none })
    let e := s + (← strcspn (st.buf.drop s) delim)
    if (← load8 st.buf e) ≠ 0 then
      return (some s, { buf := st.buf.set e 0, save := some (e + 1) })
    else
      return (some s, { st with save := none })

/--
`while (*p && strchr(delim, *p)) p++`, and with `found` negated the loop after it. The result is how
far `p` moves.
-/
def strtokR.walk (delim : CStr) (found : Bool) (s : Bytes) : Checked Nat :=
  match s with
  | [] => .error .load
  | c :: s =>
    if c ≠ 0 && (strchr delim.val c).isSome == found then do
      let n ← walk delim found s
      return n + 1
    else
      .ok 0

/--
`strtok_r`, `delim` and `saveptr` are not null.
-/
def strtokR (delim : CStr) (s : Option Nat) (st : Strtok) : Checked (Option Nat × Strtok) :=
  match s.or st.save with
  | none => .ok (none, st)
  | some p => do
    let p := p + (← strtokR.walk delim true (st.buf.drop p))
    if (← load8 st.buf p) = 0 then
      return (none, { st with save := some p })
    let start := p
    let p := p + (← strtokR.walk delim false (st.buf.drop p))
    if (← load8 st.buf p) ≠ 0 then
      return (some start, { buf := st.buf.set p 0, save := some (p + 1) })
    else
      return (some start, { st with save := some p })

/--
The string at the pointer `p`.
-/
def Strtok.str (st : Strtok) (p : Nat) : Bytes :=
  (st.buf.drop p).takeWhile (· ≠ 0)

abbrev Tokeniser := Option Nat → Strtok → Checked (Option Nat × Strtok)

/--
The results of `n` calls as the caller reads them, only the first one is given a string.
-/
def Tokeniser.results (call : Tokeniser) (n : Nat) (s : Option Nat) (st : Strtok)
    : Checked (List (Option Bytes)) :=
  match n with
  | 0 => .ok []
  | n + 1 => do
    let (p, st) ← call s st
    let rest ← results call n none st
    return p.map st.str :: rest

/--
The maximal runs of characters of `s` that are not in `d`, the empty ones left out.
-/
def runsOf (d : CStr) (s : Bytes) : List Bytes :=
  (s.splitOnP (· ∈ d.val)).filter (· ≠ [])

section Runs

variable {d : CStr}

theorem runsOf_nil : runsOf d [] = [] := rfl

theorem runsOf_cons_mem {c : Byte} (hc : c ∈ d.val) (s : Bytes)
    : runsOf d (c :: s) = runsOf d s := by
  unfold runsOf
  rw [List.splitOnP_cons_eq_if_modifyHead, if_pos (by simpa using hc), List.filter_cons, if_neg (by simp)]

theorem runsOf_append_mem {sep : Bytes} (hsep : ∀ c ∈ sep, c ∈ d.val) (s : Bytes)
    : runsOf d (sep ++ s) = runsOf d s := by
  induction sep with
  | nil => rfl
  | cons c sep ih =>
    rw [List.cons_append, runsOf_cons_mem (hsep c (by simp))]
    apply ih
    intro x hx
    apply hsep
    simp [hx]

theorem runsOf_word {w : Bytes} (hw : ∀ c ∈ w, c ∉ d.val) (hne : w ≠ [])
    : runsOf d w = [w] := by
  unfold runsOf
  rw [List.splitOnP_eq_singleton (by simpa using hw)]
  simp [hne]

theorem runsOf_word_cons {w : Bytes} (hw : ∀ c ∈ w, c ∉ d.val) (hne : w ≠ []) {c : Byte}
    (hc : c ∈ d.val) (s : Bytes)
    : runsOf d (w ++ c :: s) = w :: runsOf d s := by
  unfold runsOf
  rw [List.splitOnP_append_cons_of_forall_mem (by simpa using hw) c (by simpa using hc), List.filter_cons]
  rw [if_pos (by simpa using hne)]

end Runs

section Walks

variable {d : CStr} {w : Bytes} {c : Byte}

theorem strchr_isSome {s : Bytes} (hc : c ≠ 0) : (strchr s c).isSome = decide (c ∈ s) := by
  induction s with
  | nil =>
    unfold strchr
    rw [if_neg hc]
    rfl
  | cons x s ih =>
    unfold strchr
    split
    . next h => simp [h]
    . next h =>
      rw [Option.isSome_map, ih]
      simp [Ne.symm h]

theorem strspn_append (hw : ∀ x ∈ w, x ≠ 0 ∧ x ∈ d.val) (hc : c = 0 ∨ c ∉ d.val) (s : Bytes)
    : strspn (w ++ c :: s) d = .ok w.length := by
  induction w with
  | nil =>
    simp only [List.nil_append, strspn]
    cases hc with
    | inl hc => rw [if_pos hc]; rfl
    | inr hc => simp [hc]
  | cons x w ih =>
    have hx := hw x (by simp)
    simp only [List.cons_append, strspn]
    rw [if_neg hx.1, if_pos hx.2, ih (by intro y hy; exact hw y (by simp [hy]))]
    rfl

theorem strcspn_append (hw : ∀ x ∈ w, x ≠ 0 ∧ x ∉ d.val) (hc : c = 0 ∨ c ∈ d.val) (s : Bytes)
    : strcspn (w ++ c :: s) d = .ok w.length := by
  induction w with
  | nil =>
    simp only [List.nil_append, strcspn]
    cases hc with
    | inl hc => rw [if_pos hc]; rfl
    | inr hc => simp [hc]
  | cons x w ih =>
    have hx := hw x (by simp)
    simp only [List.cons_append, strcspn]
    rw [if_neg hx.1, if_neg hx.2, ih (by intro y hy; exact hw y (by simp [hy]))]
    rfl

theorem strtokR.walk_append {found : Bool} (hw : ∀ x ∈ w, x ≠ 0 ∧ decide (x ∈ d.val) = found)
    (hc : c = 0 ∨ decide (c ∈ d.val) ≠ found) (s : Bytes)
    : strtokR.walk d found (w ++ c :: s) = .ok w.length := by
  induction w with
  | nil =>
    simp only [List.nil_append, strtokR.walk]
    by_cases hz : c = 0
    . simp [hz]
    . have hc := hc.resolve_left hz
      rw [strchr_isSome hz]
      simp [hc]
  | cons x w ih =>
    have hx := hw x (by simp)
    simp only [List.cons_append, strtokR.walk]
    rw [strchr_isSome hx.1, hx.2]
    rw [if_pos (by simp [hx.1]), ih (by intro y hy; exact hw y (by simp [hy]))]
    rfl

end Walks

section Runs

theorem map_getElem?_nil (n : Nat)
    : (List.range n).map (fun i => ([] : List Bytes)[i]?) = List.replicate n none := by
  simp [List.map_const']

theorem map_getElem?_cons (n : Nat) (w : Bytes) (ws : List Bytes)
    : (List.range (n + 1)).map (fun i => (w :: ws)[i]?)
      = some w :: (List.range n).map (fun i => ws[i]?) := by
  rw [List.range_succ_eq_map]
  simp

theorem Strtok.str_word {w : Bytes} (hw : ∀ c ∈ w, c ≠ 0) (pre tl : Bytes) (save : Option Nat)
    : Strtok.str ⟨pre ++ w ++ 0 :: tl, save⟩ pre.length = w := by
  unfold Strtok.str
  rw [List.append_assoc, List.drop_left, List.takeWhile_append_of_pos (by simpa using hw)]
  simp

end Runs

theorem exists_cut (d : CStr) (s : Bytes)
    : ∃ sep w tl, s = sep ++ w ++ tl ∧ (∀ c ∈ sep, c ∈ d.val) ∧ (∀ c ∈ w, c ∉ d.val)
      ∧ (w = [] → tl = []) ∧ ∀ c ∈ tl.head?, c ∈ d.val := by
  let rest := s.dropWhile (· ∈ d.val)
  refine ⟨s.takeWhile (· ∈ d.val), rest.takeWhile (· ∉ d.val), rest.dropWhile (· ∉ d.val), ?_, ?_, ?_,
    ?_, ?_⟩
  . rw [List.append_assoc, List.takeWhile_append_dropWhile, List.takeWhile_append_dropWhile]
  . intro c hc
    simpa using List.mem_takeWhile_imp hc
  . intro c hc
    simpa using List.mem_takeWhile_imp hc
  . intro hw
    -- an empty word means that nothing but separators was left
    cases hrest : rest with
    | nil => rfl
    | cons c l =>
      have hc : c ∉ d.val := by
        have := List.dropWhile_get_zero_not (fun c => decide (c ∈ d.val)) s (by show 0 < rest.length; simp [hrest])
        have hget : (s.dropWhile (fun c => decide (c ∈ d.val))) = c :: l := hrest
        simp only [List.get_eq_getElem, hget, List.getElem_cons_zero] at this
        simpa using this
      rw [hrest, List.takeWhile_cons, if_pos (by simpa using hc)] at hw
      cases hw
  . intro c hc
    have := List.head?_dropWhile_not (fun c => decide (c ∉ d.val)) rest
    rw [hc] at this
    simpa using this

/--
How a tokeniser walks a buffer: it resumes in the middle, cuts a word off, and stays at the end once
it has reached it.
-/
structure Cuts (d : CStr) (call : Tokeniser) (Done : Strtok → Prop) : Prop where
  stop (pre sep : Bytes) (hsep : ∀ c ∈ sep, c ≠ 0 ∧ c ∈ d.val)
    : ∃ st, call none ⟨pre ++ sep ++ [0], some pre.length⟩ = .ok (none, st) ∧ Done st
  last (pre sep w : Bytes) (hsep : ∀ c ∈ sep, c ≠ 0 ∧ c ∈ d.val) (hw : ∀ c ∈ w, c ≠ 0 ∧ c ∉ d.val)
    (hne : w ≠ [])
    : ∃ st, call none ⟨pre ++ sep ++ w ++ [0], some pre.length⟩
        = .ok (some (pre ++ sep).length, st)
      ∧ st.buf = pre ++ sep ++ w ++ [0] ∧ Done st
  next (pre sep w tl : Bytes) (c : Byte) (hsep : ∀ c ∈ sep, c ≠ 0 ∧ c ∈ d.val)
    (hw : ∀ c ∈ w, c ≠ 0 ∧ c ∉ d.val) (hne : w ≠ []) (hc : c ≠ 0 ∧ c ∈ d.val)
    : call none ⟨pre ++ sep ++ w ++ c :: tl, some pre.length⟩
      = .ok (some (pre ++ sep).length,
          ⟨pre ++ sep ++ w ++ 0 :: tl, some (pre ++ sep ++ w ++ [0]).length⟩)
  done {st : Strtok} (h : Done st) : ∃ st', call none st = .ok (none, st') ∧ Done st'

namespace Cuts

variable {d : CStr} {call : Tokeniser} {Done : Strtok → Prop}

theorem results_done (h : Cuts d call Done) (n : Nat) {st : Strtok} (hst : Done st)
    : call.results n none st = .ok (List.replicate n none) := by
  induction n generalizing st with
  | zero => rfl
  | succ n ih =>
    obtain ⟨st', hcall, hdone⟩ := h.done hst
    unfold Tokeniser.results
    rw [hcall]
    show (do let rest ← call.results n none st'; pure (none :: rest)) = _
    rw [ih hdone]
    rfl

theorem results_runs (h : Cuts d call Done) (n : Nat) {pre rest : Bytes} (h0 : 0 ∉ rest)
    : call.results n none ⟨pre ++ rest ++ [0], some pre.length⟩
      = .ok ((List.range n).map (fun i => (runsOf d rest)[i]?)) := by
  induction n generalizing pre rest with
  | zero => rfl
  | succ n ih =>
    obtain ⟨sep, w, tl, rfl, hsep, hw, hne, htl⟩ := exists_cut d rest
    have hsep : ∀ c ∈ sep, c ≠ 0 ∧ c ∈ d.val := by
      intro c hc
      refine ⟨?_, hsep c hc⟩
      rintro rfl
      simp [hc] at h0
    have hw : ∀ c ∈ w, c ≠ 0 ∧ c ∉ d.val := by
      intro c hc
      refine ⟨?_, hw c hc⟩
      rintro rfl
      simp [hc] at h0
    unfold Tokeniser.results
    rw [List.append_assoc sep, runsOf_append_mem (by intro c hc; exact (hsep c hc).2)]
    by_cases hw0 : w = []
    . obtain rfl := hw0
      obtain rfl := hne rfl
      obtain ⟨st, hcall, hdone⟩ := h.stop pre sep hsep
      rw [List.append_nil, List.append_nil, hcall, runsOf_nil, map_getElem?_nil]
      show (do let rest ← call.results n none st; pure (none :: rest)) = _
      rw [h.results_done n hdone]
      rfl
    . cases tl with
      | nil =>
        obtain ⟨st, hcall, hbuf, hdone⟩ := h.last pre sep w hsep hw hw0
        rw [List.append_nil, ← List.append_assoc pre, hcall,
          runsOf_word (by intro c hc; exact (hw c hc).2) hw0, map_getElem?_cons, map_getElem?_nil]
        show (do let rest ← call.results n none st; pure (some (st.str _) :: rest)) = _
        have hstr : st.str (pre ++ sep).length = w := by
          have := Strtok.str_word (fun c hc => (hw c hc).1) (pre ++ sep) [] st.save
          rwa [← hbuf] at this
        rw [h.results_done n hdone, hstr]
        rfl
      | cons c tl =>
        have hcd : c ∈ d.val := htl c (by simp)
        have hc0 : c ≠ 0 := by
          rintro rfl
          simp at h0
        have hcall := h.next pre sep w (tl ++ [0]) c hsep hw hw0 ⟨hc0, hcd⟩
        have htl0 : 0 ∉ tl := by
          simp only [List.mem_append, List.mem_cons, not_or] at h0
          exact h0.2.2
        have hbuf : pre ++ (sep ++ (w ++ c :: tl)) ++ [0] = pre ++ sep ++ w ++ c :: (tl ++ [0]) := by
          simp
        have hrest : pre ++ sep ++ w ++ 0 :: (tl ++ [0]) = (pre ++ sep ++ w ++ [0]) ++ tl ++ [0] := by
          simp
        rw [hbuf, hcall, runsOf_word_cons (by intro c hc; exact (hw c hc).2) hw0 hcd, map_getElem?_cons]
        show (do let rest ← call.results n none _; pure (some (Strtok.str _ _) :: rest)) = _
        rw [Strtok.str_word (fun c hc => (hw c hc).1), hrest, ih htl0]
        rfl

end Cuts

section Strtok

variable {d : CStr}

theorem drop_resume (pre l : Bytes) : (pre ++ l).drop pre.length = l :=
  List.drop_left

theorem load8_append (pre tl : Bytes) (c : Byte) : load8 (pre ++ c :: tl) pre.length = .ok c := by
  unfold load8
  rw [List.getElem?_append_right (le_refl _), Nat.sub_self]
  rfl

theorem set_append (pre tl : Bytes) (c x : Byte)
    : (pre ++ c :: tl).set pre.length x = pre ++ x :: tl := by
  rw [List.set_append_right _ _ (le_refl _), Nat.sub_self]
  rfl

theorem load8_at {pre w tl : Bytes} {c : Byte}
    : load8 (pre ++ w ++ c :: tl) (pre.length + w.length) = .ok c := by
  rw [← List.length_append]
  exact load8_append _ _ _

theorem set_at {pre w tl : Bytes} {c x : Byte}
    : (pre ++ w ++ c :: tl).set (pre.length + w.length) x = pre ++ w ++ x :: tl := by
  rw [← List.length_append]
  exact set_append _ _ _ _

variable {buf : Bytes} {p i j : Nat} {c : Byte}

theorem strtok_stop (hi : strspn (buf.drop p) d = .ok i) (hc : load8 buf (p + i) = .ok 0)
    : strtok d none ⟨buf, some p⟩ = .ok (none, ⟨buf, none⟩) := by
  simp only [strtok, Option.none_or, hi, bind, Except.bind, hc]
  rfl

theorem strtok_word {c' : Byte} (hi : strspn (buf.drop p) d = .ok i)
    (hc : load8 buf (p + i) = .ok c) (hc0 : c ≠ 0)
    (hj : strcspn (buf.drop (p + i)) d = .ok j) (hc' : load8 buf (p + i + j) = .ok c')
    : strtok d none ⟨buf, some p⟩
      = if c' = 0 then .ok (some (p + i), ⟨buf, none⟩)
        else .ok (some (p + i), ⟨buf.set (p + i + j) 0, some (p + i + j + 1)⟩) := by
  simp only [strtok, Option.none_or, hi, bind, Except.bind, hc, if_neg hc0, hj, hc']
  by_cases h : c' = 0
  . rw [if_neg (not_not.2 h), if_pos h]
    rfl
  . rw [if_pos h, if_neg h]
    rfl

theorem strtokR_stop (hi : strtokR.walk d true (buf.drop p) = .ok i)
    (hc : load8 buf (p + i) = .ok 0)
    : strtokR d none ⟨buf, some p⟩ = .ok (none, ⟨buf, some (p + i)⟩) := by
  simp only [strtokR, Option.none_or, hi, bind, Except.bind, hc]
  rfl

theorem strtokR_word {c' : Byte} (hi : strtokR.walk d true (buf.drop p) = .ok i)
    (hc : load8 buf (p + i) = .ok c) (hc0 : c ≠ 0)
    (hj : strtokR.walk d false (buf.drop (p + i)) = .ok j)
    (hc' : load8 buf (p + i + j) = .ok c')
    : strtokR d none ⟨buf, some p⟩
      = if c' = 0 then .ok (some (p + i), ⟨buf, some (p + i + j)⟩)
        else .ok (some (p + i), ⟨buf.set (p + i + j) 0, some (p + i + j + 1)⟩) := by
  simp only [strtokR, Option.none_or, hi, bind, Except.bind, hc, if_neg hc0, hj, hc']
  by_cases h : c' = 0
  . rw [if_neg (not_not.2 h), if_pos h]
    rfl
  . rw [if_pos h, if_neg h]
    rfl

theorem load8_word {pre sep w tl : Bytes} (hw : ∀ c ∈ w, c ≠ 0 ∧ c ∉ d.val) (hne : w ≠ [])
    : ∃ c, load8 (pre ++ sep ++ w ++ tl) (pre.length + sep.length) = .ok c ∧ c ≠ 0 ∧ c ∉ d.val := by
  cases w with
  | nil => exact absurd rfl hne
  | cons c w =>
    refine ⟨c, ?_, hw c (by simp)⟩
    rw [List.append_assoc]
    exact load8_at

theorem cons_of_word {w : Bytes} (hw : ∀ c ∈ w, c ≠ 0 ∧ c ∉ d.val) (hne : w ≠ [])
    : ∃ c w', w = c :: w' ∧ c ∉ d.val := by
  cases w with
  | nil => exact absurd rfl hne
  | cons c w' => exact ⟨c, w', rfl, (hw c (by simp)).2⟩

theorem strspn_sep {pre sep : Bytes} (hsep : ∀ c ∈ sep, c ≠ 0 ∧ c ∈ d.val)
    : strspn ((pre ++ sep ++ [0]).drop pre.length) d = .ok sep.length := by
  rw [List.append_assoc, drop_resume]
  exact strspn_append hsep (Or.inl rfl) []

theorem strspn_word {pre sep w tl : Bytes} (hsep : ∀ c ∈ sep, c ≠ 0 ∧ c ∈ d.val)
    (hw : ∀ c ∈ w, c ≠ 0 ∧ c ∉ d.val) (hne : w ≠ [])
    : strspn ((pre ++ sep ++ w ++ tl).drop pre.length) d = .ok sep.length := by
  obtain ⟨c, w', rfl, hc⟩ := cons_of_word hw hne
  rw [List.append_assoc, List.append_assoc, drop_resume]
  exact strspn_append hsep (Or.inr hc) (w' ++ tl)

theorem strcspn_word {pre sep w tl : Bytes} (hw : ∀ c ∈ w, c ≠ 0 ∧ c ∉ d.val)
    (hc : c = 0 ∨ c ∈ d.val)
    : strcspn ((pre ++ sep ++ w ++ c :: tl).drop (pre.length + sep.length)) d = .ok w.length := by
  rw [← List.length_append, List.append_assoc, drop_resume]
  exact strcspn_append hw hc tl

theorem load8_end {pre sep w tl : Bytes}
    : load8 (pre ++ sep ++ w ++ c :: tl) (pre.length + sep.length + w.length) = .ok c := by
  rw [← List.length_append]
  exact load8_at

theorem set_end {pre sep w tl : Bytes}
    : (pre ++ sep ++ w ++ c :: tl).set (pre.length + sep.length + w.length) 0
      = pre ++ sep ++ w ++ 0 :: tl := by
  rw [← List.length_append]
  exact set_at

theorem strtok_cuts (d : CStr) : Cuts d (strtok d) (fun st => st.save = none) where
  stop pre sep hsep := ⟨_, strtok_stop (strspn_sep hsep) load8_at, rfl⟩
  last pre sep w hsep hw hne := by
    obtain ⟨c, hc, hc0, -⟩ := @load8_word d pre sep w [0] hw hne
    have hi := @strspn_word d pre sep w [0] hsep hw hne
    refine ⟨⟨_, none⟩, ?_, rfl, rfl⟩
    rw [strtok_word hi hc hc0 (strcspn_word hw (Or.inl rfl)) load8_end, List.length_append]
    rfl
  next pre sep w tl c hsep hw hne hc := by
    obtain ⟨x, hx, hx0, -⟩ := @load8_word d pre sep w (c :: tl) hw hne
    have hi := @strspn_word d pre sep w (c :: tl) hsep hw hne
    rw [strtok_word hi hx hx0 (strcspn_word hw (Or.inr hc.2)) load8_end, if_neg hc.1, set_end]
    simp [Nat.add_assoc]
  done {st} h := by
    refine ⟨st, ?_, h⟩
    unfold strtok
    rw [h]
    rfl

theorem strtokR.walk_sep {pre sep : Bytes} (hsep : ∀ c ∈ sep, c ≠ 0 ∧ c ∈ d.val)
    : strtokR.walk d true ((pre ++ sep ++ [0]).drop pre.length) = .ok sep.length := by
  rw [List.append_assoc, drop_resume]
  apply strtokR.walk_append
  . simpa using hsep
  . exact Or.inl rfl

theorem strtokR.walk_word {pre sep w tl : Bytes} (hsep : ∀ c ∈ sep, c ≠ 0 ∧ c ∈ d.val)
    (hw : ∀ c ∈ w, c ≠ 0 ∧ c ∉ d.val) (hne : w ≠ [])
    : strtokR.walk d true ((pre ++ sep ++ w ++ tl).drop pre.length) = .ok sep.length := by
  obtain ⟨c, w', rfl, hc⟩ := cons_of_word hw hne
  rw [List.append_assoc, List.append_assoc, drop_resume]
  apply strtokR.walk_append
  . simpa using hsep
  . right
    simpa using hc

theorem strtokR.walk_rest {pre sep w tl : Bytes} (hw : ∀ c ∈ w, c ≠ 0 ∧ c ∉ d.val)
    (hc : c = 0 ∨ c ∈ d.val)
    : strtokR.walk d false ((pre ++ sep ++ w ++ c :: tl).drop (pre.length + sep.length))
      = .ok w.length := by
  rw [← List.length_append, List.append_assoc, drop_resume]
  apply strtokR.walk_append
  . simpa using hw
  . simpa using hc

theorem strtokR_cuts (d : CStr)
    : Cuts d (strtokR d) (fun st => ∃ s, st = ⟨s ++ [0], some s.length⟩) where
  stop pre sep hsep := by
    refine ⟨_, strtokR_stop (strtokR.walk_sep hsep) load8_at, pre ++ sep, ?_⟩
    rw [List.length_append]
  last pre sep w hsep hw hne := by
    obtain ⟨c, hc, hc0, -⟩ := @load8_word d pre sep w [0] hw hne
    have hi := @strtokR.walk_word d pre sep w [0] hsep hw hne
    refine ⟨⟨_, some (pre ++ sep ++ w).length⟩, ?_, rfl, pre ++ sep ++ w, rfl⟩
    rw [strtokR_word hi hc hc0 (strtokR.walk_rest hw (Or.inl rfl)) load8_end, if_pos rfl]
    simp [Nat.add_assoc]
  next pre sep w tl c hsep hw hne hc := by
    obtain ⟨x, hx, hx0, -⟩ := @load8_word d pre sep w (c :: tl) hw hne
    have hi := @strtokR.walk_word d pre sep w (c :: tl) hsep hw hne
    rw [strtokR_word hi hx hx0 (strtokR.walk_rest hw (Or.inr hc.2)) load8_end, if_neg hc.1, set_end]
    simp [Nat.add_assoc]
  done {st} h := by
    obtain ⟨s, rfl⟩ := h
    have hi := @strtokR.walk_sep d s [] (by simp)
    rw [List.append_nil] at hi
    refine ⟨_, strtokR_stop hi (by simpa using load8_append s [] 0), s, ?_⟩
    simp

end Strtok

theorem Tokeniser.results_some {call : Tokeniser} {p : Nat} {buf : Bytes} {save : Option Nat}
    (h : call (some p) ⟨buf, save⟩ = call none ⟨buf, some p⟩) (n : Nat)
    : call.results n (some p) ⟨buf, save⟩ = call.results n none ⟨buf, some p⟩ := by
  cases n with
  | zero => rfl
  | succ n =>
    unfold Tokeniser.results
    rw [h]

/--
The first `n` results over a copy of `s` are its first `n` runs, and null where there is none left.
-/
theorem strtok_strtokR_runs (s d : CStr) (save save' : Option Nat) (n : Nat)
    : Tokeniser.results (strtok d) n (some 0) ⟨s.val ++ [0], save⟩
        = .ok ((List.range n).map (fun i => (runsOf d s.val)[i]?))
      ∧ Tokeniser.results (strtokR d) n (some 0) ⟨s.val ++ [0], save'⟩
        = .ok ((List.range n).map (fun i => (runsOf d s.val)[i]?)) := by
  constructor
  . rw [Tokeniser.results_some rfl]
    exact @Cuts.results_runs _ _ _ (strtok_cuts d) n [] s.val s.property
  . rw [Tokeniser.results_some rfl]
    exact @Cuts.results_runs _ _ _ (strtokR_cuts d) n [] s.val s.property

end TanjaOS
