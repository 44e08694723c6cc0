import TanjaOS.Libc.Strtok

/-!
The argument vector of a program. `tanja_setargs` cuts the words out of one string, which may be of
any length: `execv` joins up to 2 KiB.
-/

open Lib

namespace TanjaOS

def argsBufSize : Nat := 1024

def argvSize : Nat := 64

inductive ArgPtr where
  /-- The path that the caller has given. -/
  | path
  /-- An address in `tanja_args_buf`. -/
  | buf (start : Nat)
  deriving DecidableEq

/--
`tanja_args_buf`, `tanja_argv_store` and `tanja_argc`.
-/
structure ArgTable where
  buf : Octets argsBufSize
  store : { ps : List (Option ArgPtr) // ps.length = argvSize }
  argc : Nat

namespace ArgTable

def putByte (t : ArgTable) (i : Nat) (c : Byte) : Checked ArgTable :=
  if i < argsBufSize then
    .ok { t with buf := ⟨t.buf.1.set i c, by rw [List.length_set]; exact t.buf.2⟩ }
  else
    .error .store

def putPtr (t : ArgTable) (i : Nat) (p : Option ArgPtr) : Checked ArgTable :=
  if i < argvSize then
    .ok { t with store := ⟨t.store.1.set i p, by rw [List.length_set]; exact t.store.2⟩ }
  else
    .error .store

/--
The string that starts at `i`, if it ends in the buffer.
-/
def str (t : ArgTable) (i : Nat) : Option Bytes :=
  if 0 ∈ t.buf.1.drop i then some ((t.buf.1.drop i).takeWhile (· ≠ 0)) else none

def deref (t : ArgTable) (path : CStr) : Option ArgPtr → Option Bytes
  | some .path => some path.val
  | some (.buf i) => t.str i
  | none => none

end ArgTable

/--
The words that are still to come, and the `n` bytes of the buffer that are in use.
-/
structure ArgScan where
  s : Bytes
  n : Nat
  table : ArgTable

/--
`while (*s == ' ') s++`
-/
def skipArgBlanks : Bytes → Checked Bytes
  | [] => .error .load
  | c :: s => if c = 32 then skipArgBlanks s else .ok (c :: s)

/--
The inner loop of `tanja_setargs`.
-/
def copyWord (s : Bytes) (n : Nat) (t : ArgTable) : Checked ArgScan :=
  match s with
  | [] => .error .load
  | c :: s =>
    if c ≠ 0 ∧ c ≠ 32 ∧ n < argsBufSize - 1 then do
      let t ← t.putByte n c
      copyWord s (n + 1) t
    else
      .ok { s := c :: s, n, table := t }

/--
`if (n > start)`
-/
def enterWord (start : Nat) (st : ArgScan) : Checked ArgScan :=
  if start < st.n then do
    let t ← st.table.putByte st.n 0
    let t ← t.putPtr t.argc (some (.buf start))
    return { st with n := st.n + 1, table := { t with argc := t.argc + 1 } }
  else
    .ok st

def argRound (st : ArgScan) : Checked ArgScan := do
  let st' ← copyWord st.s st.n st.table
  let st' ← enterWord st.n st'
  let s ← skipArgBlanks st'.s
  return { st' with s }

/--
The outer loop, for at most `fuel` rounds.
-/
def argLoop (fuel : Nat) (st : ArgScan) : Checked ArgTable := do
  let c ← load8 st.s 0
  if c ≠ 0 ∧ st.table.argc < 63 then
    match fuel with
    | 0 => .error .loop
    | fuel + 1 => do
      let st ← argRound st
      argLoop fuel st
  else
    return st.table

/--
`if (args)`
-/
def enterArgs (fuel : Nat) (args : Option CStr) (t : ArgTable) : Checked ArgTable :=
  match args with
  | some args => do
    let s ← skipArgBlanks (args.val ++ [0])
    argLoop fuel { s, n := 0, table := t }
  | none => .ok t

/--
`t` is what the program before has left.
-/
def tanjaSetargs (fuel : Nat) (args : Option CStr) (t : ArgTable) : Checked ArgTable := do
  let t ← t.putPtr 0 (some .path)
  let t ← { t with argc := 1 }.putByte 0 0
  let t ← enterArgs fuel args t
  t.putPtr t.argc none

def blank : CStr := ⟨[32], by decide⟩

def argWords (args : Option CStr) : List Bytes :=
  (args.map fun s => runsOf blank s.val).getD []

/--
As many leading words as there are entries and, with a null behind each of them, bytes for.
-/
def fitting (entries space : Nat) : List Bytes → List Bytes
  | [] => []
  | w :: ws =>
    if 0 < entries ∧ w.length + 1 ≤ space then
      w :: fitting (entries - 1) (space - (w.length + 1)) ws
    else
      []

/--
`tanja_setargs` comes to an end, has written to the buffer and the table only, and the program finds
`vs` behind its path.
-/
def SetsArgs (path : CStr) (args : Option CStr) (t : ArgTable) (vs : List Bytes) : Prop :=
  ∃ fuel t', tanjaSetargs fuel args t = .ok t'
    ∧ t'.argc = vs.length + 1
    ∧ (t'.store.1.take (vs.length + 2)).map (t'.deref path)
        = some path.val :: vs.map some ++ [none]
    ∧ t'.store.1[vs.length + 1]? = some none

section Copy

variable {w s tl : Bytes} {n : Nat} {t : ArgTable} {c : Byte}

/--
`bs` has been written at `n`, the entries and what stands before are as they were.
-/
structure Wrote (t t' : ArgTable) (n : Nat) (bs : Bytes) : Prop where
  store : t'.store = t.store
  argc : t'.argc = t.argc
  bytes : (t'.buf.1.drop n).take bs.length = bs
  before : t'.buf.1.take n = t.buf.1.take n

theorem putByte_wrote (hn : n < argsBufSize) : ∃ t', t.putByte n c = .ok t' ∧ Wrote t t' n [c] := by
  unfold ArgTable.putByte
  rw [if_pos hn]
  refine ⟨_, rfl, rfl, rfl, ?_, ?_⟩
  . have hlen : n < (t.buf.1.set n c).length := by
      rw [List.length_set, t.buf.2]
      exact hn
    dsimp only
    rw [List.drop_eq_getElem_cons hlen]
    simp
  . exact List.take_set_of_le (Nat.le_refl n)

theorem Wrote.append {t' t'' : ArgTable} {bs bs' : Bytes} (h : Wrote t t' n bs)
    (h' : Wrote t' t'' (n + bs.length) bs')
    : Wrote t t'' n (bs ++ bs') := by
  have hsame : (t''.buf.1.drop n).take bs.length = bs := by
    rw [List.take_drop, Nat.add_comm, Nat.add_comm, h'.before, ← List.take_drop]
    exact h.bytes
  refine ⟨h'.store.trans h.store, h'.argc.trans h.argc, ?_, ?_⟩
  . rw [List.length_append, List.take_add, hsame, List.drop_drop]
    rw [h'.bytes]
  . have hle : n ≤ n + bs.length := by omega
    have htake := congrArg (List.take n) h'.before
    rw [List.take_take, List.take_take, Nat.min_eq_left hle] at htake
    exact htake.trans h.before

theorem copyWord_word (hw : ∀ x ∈ w, x ≠ 0 ∧ x ≠ 32) (hc : c = 0 ∨ c = 32)
    (hroom : n + w.length < argsBufSize)
    : ∃ t', copyWord (w ++ c :: tl) n t = .ok { s := c :: tl, n := n + w.length, table := t' }
        ∧ Wrote t t' n w := by
  induction w generalizing n t with
  | nil =>
    refine ⟨t, ?_, rfl, rfl, rfl, rfl⟩
    simp only [List.nil_append, copyWord]
    rw [if_neg]
    . rfl
    . rintro ⟨h0, h32, _⟩
      cases hc with
      | inl hc => exact h0 hc
      | inr hc => exact h32 hc
  | cons x w ih =>
    rw [List.length_cons] at hroom
    obtain ⟨t₁, hput, hwrote⟩ := @putByte_wrote n t x (by omega)
    obtain ⟨t', hcopy, hwrote'⟩ :=
      ih (n := n + 1) (t := t₁) (by intro y hy; exact hw y (by simp [hy])) (by omega)
    refine ⟨t', ?_, hwrote.append hwrote'⟩
    have hx := hw x (by simp)
    simp only [List.cons_append, copyWord]
    rw [if_pos ⟨hx.1, hx.2, by unfold argsBufSize at *; omega⟩, hput]
    show copyWord (w ++ c :: tl) (n + 1) t₁ = _
    rw [hcopy, List.length_cons, Nat.add_assoc, Nat.add_comm 1]

theorem copyWord_full (hw : ∀ x ∈ w, x ≠ 0 ∧ x ≠ 32) (hne : w ≠ [])
    (hfull : argsBufSize ≤ n + w.length)
    : ∃ t' c s, copyWord (w ++ tl) n t = .ok { s := c :: s, n := max n (argsBufSize - 1), table := t' }
        ∧ t'.argc = t.argc ∧ c ≠ 0 ∧ c ≠ 32 := by
  induction w generalizing n t with
  | nil => exact absurd rfl hne
  | cons x w ih =>
    have hx := hw x List.mem_cons_self
    rw [List.cons_append]
    by_cases hn : n < argsBufSize - 1
    . unfold copyWord
      rw [if_pos ⟨hx.1, hx.2, hn⟩]
      obtain ⟨t₁, hput, hwrote⟩ := @putByte_wrote n t x (by omega)
      rw [List.length_cons] at hfull
      have hw0 : w ≠ [] := by
        rintro rfl
        rw [List.length_nil] at hfull
        omega
      obtain ⟨t', c, s, hcopy, hargc, hc⟩ :=
        ih (n := n + 1) (t := t₁) (by intro y hy; exact hw y (by simp [hy])) hw0 (by omega)
      refine ⟨t', c, s, ?_, hargc.trans hwrote.argc, hc⟩
      rw [hput]
      show copyWord (w ++ tl) (n + 1) t₁ = _
      have hmax : max (n + 1) (argsBufSize - 1) = max n (argsBufSize - 1) := by omega
      rw [hcopy, hmax]
    . unfold copyWord
      rw [if_neg (fun h => hn h.2.2)]
      have hmax : max n (argsBufSize - 1) = n := by omega
      exact ⟨t, x, w ++ tl, by rw [hmax], rfl, hx⟩

end Copy

section Rounds

variable {st : ArgScan} {vs ws : List Bytes} {w : Bytes} {c : Byte} {s : Bytes}

/--
The entries from the second on are the words `vs`, which are in the part of the buffer in use.
-/
structure ArgsHeld (st : ArgScan) (vs : List Bytes) : Prop where
  argc : st.table.argc = vs.length + 1
  path : st.table.store.1[0]? = some (some .path)
  clean : ∀ v ∈ vs, 0 ∉ v
  word : ∀ i v, vs[i]? = some v → ∃ p, st.table.store.1[i + 1]? = some (some (.buf p))
    ∧ p + v.length < st.n ∧ (st.table.buf.1.drop p).take (v.length + 1) = v ++ [0]

theorem putPtr_eq {t : ArgTable} {i : Nat} {p : Option ArgPtr} (hi : i < argvSize)
    : ∃ t', t.putPtr i p = .ok t' ∧ t'.buf = t.buf ∧ t'.argc = t.argc
        ∧ t'.store.1 = t.store.1.set i p := by
  unfold ArgTable.putPtr
  rw [if_pos hi]
  exact ⟨_, rfl, rfl, rfl, rfl⟩

theorem enterWord_word {n : Nat} (hlt : n < st.n) (hn : st.n < argsBufSize)
    (hargc : st.table.argc < argvSize)
    : ∃ t, enterWord n st = .ok { st with n := st.n + 1, table := t }
        ∧ t.argc = st.table.argc + 1
        ∧ t.store.1 = st.table.store.1.set st.table.argc (some (.buf n))
        ∧ (t.buf.1.drop st.n).take 1 = [0] ∧ t.buf.1.take st.n = st.table.buf.1.take st.n := by
  obtain ⟨t₁, hput, hwrote⟩ := @putByte_wrote st.n st.table 0 hn
  obtain ⟨t₂, hptr, hbuf, hargc₂, hstore⟩ :=
    @putPtr_eq t₁ t₁.argc (some (.buf n)) (by rw [hwrote.argc]; exact hargc)
  refine ⟨{ t₂ with argc := t₂.argc + 1 }, ?_, ?_, ?_, ?_, ?_⟩
  . unfold enterWord
    rw [if_pos hlt, hput]
    show (t₁.putPtr t₁.argc (some (.buf n)) >>= _) = _
    rw [hptr]
    rfl
  . dsimp only
    rw [hargc₂, hwrote.argc]
  . dsimp only
    rw [hstore, hwrote.store, hwrote.argc]
  . dsimp only
    rw [hbuf]
    exact hwrote.bytes
  . dsimp only
    rw [hbuf]
    exact hwrote.before

theorem argRound_word (h : ArgsHeld st vs) (hs : st.s = w ++ c :: s) (hne : w ≠ [])
    (hw : ∀ x ∈ w, x ≠ 0 ∧ x ≠ 32) (hc : c = 0 ∨ c = 32) (hroom : st.n + w.length < argsBufSize)
    (hargc : st.table.argc < 63) {s' : Bytes} (hskip : skipArgBlanks (c :: s) = .ok s')
    : ∃ st', argRound st = .ok st' ∧ ArgsHeld st' (vs ++ [w]) ∧ st'.s = s'
        ∧ st'.n = st.n + (w.length + 1) := by
  obtain ⟨t₁, hcopy, hwrote⟩ := @copyWord_word w s st.n st.table c hw hc hroom
  have hlen : 0 < w.length := List.length_pos_of_ne_nil hne
  obtain ⟨t₂, henter, hargc₂, hstore, hzero, hbefore⟩ :=
    @enterWord_word { s := c :: s, n := st.n + w.length, table := t₁ } st.n
      (by dsimp only; omega) hroom
      (by dsimp only; rw [hwrote.argc]; exact Nat.lt_trans hargc (by decide))
  dsimp only at henter hargc₂ hstore hzero hbefore
  rw [hwrote.argc] at hargc₂ hstore
  rw [hwrote.store, h.argc] at hstore
  refine ⟨{ s := s', n := st.n + w.length + 1, table := t₂ }, ?_, ⟨?_, ?_, ?_, ?_⟩, rfl, rfl⟩
  . unfold argRound
    rw [hs, hcopy]
    show (enterWord st.n _ >>= _) = _
    rw [henter]
    show (skipArgBlanks (c :: s) >>= _) = _
    rw [hskip]
    rfl
  . dsimp only
    rw [hargc₂, h.argc, List.length_append, List.length_singleton]
  . dsimp only
    rw [hstore, List.getElem?_set_ne (by omega)]
    exact h.path
  . intro v hv
    rw [List.mem_append, List.mem_singleton] at hv
    cases hv with
    | inl hv => exact h.clean v hv
    | inr hv =>
      rw [hv]
      exact fun h0 => (hw 0 h0).1 rfl
  . intro i v hv
    dsimp only
    rw [hstore]
    cases Nat.lt_or_ge i vs.length with
    | inl hi =>
      -- an earlier word, in front of the bytes that have been written
      rw [List.getElem?_append_left hi] at hv
      obtain ⟨p, hptr, hpn, hbytes⟩ := h.word i v hv
      refine ⟨p, ?_, by omega, ?_⟩
      . rw [List.getElem?_set_ne (by omega)]
        exact hptr
      . have hsame : t₂.buf.1.take st.n = st.table.buf.1.take st.n := by
          have hle : st.n ≤ st.n + w.length := by omega
          have htake := congrArg (List.take st.n) hbefore
          rw [List.take_take, List.take_take, Nat.min_eq_left hle, hwrote.before] at htake
          exact htake
        have hpre : ∀ l : Bytes, (l.drop p).take (v.length + 1)
            = ((l.take st.n).drop p).take (v.length + 1) := by
          intro l
          rw [List.drop_take, List.take_take, Nat.min_eq_left (by omega)]
        rw [hpre, hsame, ← hpre]
        exact hbytes
    | inr hi =>
      obtain ⟨hieq, hveq⟩ : i = vs.length ∧ v = w := by
        rw [List.getElem?_append_right hi, List.getElem?_singleton] at hv
        split at hv
        . cases hv
          exact ⟨by omega, rfl⟩
        . contradiction
      subst hieq hveq
      refine ⟨st.n, ?_, by omega, ?_⟩
      . rw [List.getElem?_set_self]
        rw [st.table.store.2, ← h.argc]
        exact Nat.lt_trans hargc (by decide)
      . have hword : (t₂.buf.1.drop st.n).take v.length = v := by
          rw [List.take_drop, hbefore, ← List.take_drop]
          exact hwrote.bytes
        rw [List.take_add, hword, List.drop_drop, hzero]

theorem argRound_full (hs : st.s = w ++ s) (hne : w ≠ []) (hw : ∀ x ∈ w, x ≠ 0 ∧ x ≠ 32)
    (hfull : argsBufSize ≤ st.n + w.length) (hargc : st.table.argc < 63)
    : ∃ st' c tl, argRound st = .ok st' ∧ st'.s = c :: tl ∧ c ≠ 0 ∧ c ≠ 32
        ∧ argsBufSize - 1 ≤ st'.n
        ∧ (st'.table.argc = st.table.argc ∨ st'.table.argc = st.table.argc + 1) := by
  obtain ⟨t₁, c, tl, hcopy, hargc₁, hc0, hc⟩ := @copyWord_full w s st.n st.table hw hne hfull
  have hskip : skipArgBlanks (c :: tl) = .ok (c :: tl) := by
    simp only [skipArgBlanks]
    rw [if_neg hc]
  by_cases hn : st.n < argsBufSize - 1
  . have hmax : max st.n (argsBufSize - 1) = argsBufSize - 1 := by omega
    rw [hmax] at hcopy
    obtain ⟨t₂, henter, hargc₂, -⟩ :=
      @enterWord_word { s := c :: tl, n := argsBufSize - 1, table := t₁ } st.n hn
        (by dsimp only; unfold argsBufSize; omega)
        (by dsimp only; rw [hargc₁]; exact Nat.lt_trans hargc (by decide))
    refine ⟨{ s := c :: tl, n := argsBufSize - 1 + 1, table := t₂ }, c, tl, ?_, rfl, hc0, hc, ?_, ?_⟩
    . unfold argRound
      rw [hs, hcopy]
      show (enterWord st.n _ >>= _) = _
      rw [henter]
      show (skipArgBlanks (c :: tl) >>= _) = _
      rw [hskip]
      rfl
    . dsimp only
      omega
    . dsimp only at hargc₂ ⊢
      rw [hargc₂, hargc₁]
      exact .inr rfl
  . have hmax : max st.n (argsBufSize - 1) = st.n := by omega
    rw [hmax] at hcopy
    refine ⟨{ s := c :: tl, n := st.n, table := t₁ }, c, tl, ?_, rfl, hc0, hc, by dsimp only; omega,
      .inl hargc₁⟩
    unfold argRound
    rw [hs, hcopy]
    show (enterWord st.n _ >>= _) = _
    unfold enterWord
    rw [if_neg (Nat.lt_irrefl st.n)]
    show (skipArgBlanks (c :: tl) >>= _) = _
    rw [hskip]
    rfl

theorem argLoop_stuck {tl : Bytes} (hs : st.s = c :: tl) (hc0 : c ≠ 0) (hc : c ≠ 32)
    (hn : argsBufSize - 1 ≤ st.n) (hargc : st.table.argc < 63) (fuel : Nat)
    : argLoop fuel st = .error .loop := by
  have hround : argRound st = .ok st := by
    unfold argRound
    rw [hs]
    unfold copyWord
    rw [if_neg (fun h => absurd h.2.2 (by omega))]
    show (enterWord st.n _ >>= _) = _
    unfold enterWord
    rw [if_neg (Nat.lt_irrefl st.n)]
    show (skipArgBlanks (c :: tl) >>= _) = _
    simp only [skipArgBlanks]
    rw [if_neg hc]
    show Except.ok { st with s := c :: tl } = _
    rw [← hs]
  induction fuel with
  | zero =>
    unfold argLoop
    rw [hs]
    show (if c ≠ 0 ∧ _ then _ else _) = _
    rw [if_pos ⟨hc0, hargc⟩]
  | succ fuel ih =>
    unfold argLoop
    rw [hround, hs]
    show (if c ≠ 0 ∧ _ then _ else _) = _
    rw [if_pos ⟨hc0, hargc⟩]
    exact ih

end Rounds

section Words

variable {st : ArgScan} {vs : List Bytes} {l : Bytes}

theorem skipArgBlanks_string (h0 : 0 ∉ l) : skipArgBlanks (l ++ [0]) = .ok (l.dropWhile (· = 32) ++ [0]) := by
  induction l with
  | nil => rfl
  | cons c l ih =>
    rw [List.mem_cons, not_or] at h0
    rw [List.cons_append, List.dropWhile_cons]
    unfold skipArgBlanks
    by_cases hc : c = 32
    . rw [if_pos hc, if_pos (by simpa using hc), ih h0.2]
    . rw [if_neg hc, if_neg (by simpa using hc), List.cons_append]

theorem runsOf_dropWhile (l : Bytes) : runsOf blank (l.dropWhile (· = 32)) = runsOf blank l := by
  induction l with
  | nil => rfl
  | cons c l ih =>
    rw [List.dropWhile_cons]
    by_cases hc : c = 32
    . rw [if_pos (by simpa using hc), ih, runsOf_cons_mem (by rw [hc]; exact List.mem_singleton_self 32)]
    . rw [if_neg (by simpa using hc)]

/--
What the loop stands in front of: a string that does not start with a blank.
-/
structure ArgsLeft (st : ArgScan) (l : Bytes) : Prop where
  s : st.s = l ++ [0]
  clean : 0 ∉ l
  head : ∀ c ∈ l.head?, c ≠ 32

theorem ArgsLeft.word (h : ArgsLeft st l) (hne : l ≠ [])
    : ∃ w c s l', st.s = w ++ c :: s ∧ w ≠ [] ∧ (∀ x ∈ w, x ≠ 0 ∧ x ≠ 32) ∧ (c = 0 ∨ c = 32)
        ∧ skipArgBlanks (c :: s) = .ok (l' ++ [0]) ∧ 0 ∉ l' ∧ (∀ x ∈ l'.head?, x ≠ 32)
        ∧ runsOf blank l = w :: runsOf blank l' ∧ l'.length < l.length := by
  obtain ⟨sep, w, tl, rfl, hsep, hw, hwtl, htl⟩ := exists_cut blank l
  obtain ⟨hs, hclean, hhead⟩ := h
  cases sep with
  | cons x sep => exact absurd (List.mem_singleton.1 (hsep x (by simp))) (hhead x (by simp))
  | nil =>
    rw [List.nil_append] at hs hclean hne ⊢
    have hw0 : w ≠ [] := by
      rintro rfl
      rw [hwtl rfl] at hne
      exact hne rfl
    have hlen := List.length_pos_of_ne_nil hw0
    have hwc : ∀ x ∈ w, x ≠ 0 ∧ x ≠ 32 := by
      intro x hx
      constructor
      . rintro rfl
        exact hclean (by simp [hx])
      . rintro rfl
        exact hw 32 hx (List.mem_singleton_self 32)
    cases tl with
    | nil =>
      rw [List.append_nil] at hs ⊢
      refine ⟨w, 0, [], [], hs, hw0, hwc, .inl rfl, rfl, by simp, by simp, ?_, by simpa using hlen⟩
      exact runsOf_word hw hw0
    | cons c tl =>
      have hc := htl c (by simp)
      have htl0 : 0 ∉ tl := by
        intro h0
        exact hclean (by simp [h0])
      refine ⟨w, c, tl ++ [0], tl.dropWhile (· = 32), ?_, hw0, hwc, .inr (List.mem_singleton.1 hc), ?_,
        ?_, ?_, ?_, ?_⟩
      . rw [hs, List.append_assoc, List.cons_append]
      . unfold skipArgBlanks
        rw [if_pos (List.mem_singleton.1 hc)]
        exact skipArgBlanks_string htl0
      . exact fun h0 => htl0 ((List.dropWhile_sublist _).mem h0)
      . intro x hx
        have := List.head?_dropWhile_not (fun c : Byte => decide (c = 32)) tl
        rw [hx] at this
        simpa using this
      . rw [runsOf_word_cons hw hw0 hc, runsOf_dropWhile]
      . have := (List.dropWhile_sublist (fun c : Byte => decide (c = 32)) (l := tl)).length_le
        rw [List.length_append, List.length_cons]
        omega

theorem argLoop_done (h : ArgsLeft st l) (hdone : l = [] ∨ 63 ≤ st.table.argc) (fuel : Nat)
    : argLoop fuel st = .ok st.table := by
  obtain ⟨c, s, hs, hc⟩ : ∃ c s, st.s = c :: s ∧ (c = 0 ∨ 63 ≤ st.table.argc) := by
    rw [h.s]
    cases l with
    | nil => exact ⟨0, [], rfl, .inl rfl⟩
    | cons c l => exact ⟨c, l ++ [0], rfl, .inr (hdone.resolve_left (by simp))⟩
  unfold argLoop
  rw [hs]
  show (if c ≠ 0 ∧ _ then _ else _) = _
  rw [if_neg]
  . rfl
  . rintro ⟨hne, hlt⟩
    exact absurd hlt (Nat.not_lt.2 (hc.resolve_left hne))

theorem argLoop_succ (h : ArgsLeft st l) (hne : l ≠ []) (hargc : st.table.argc < 63)
    {st' : ArgScan} (hround : argRound st = .ok st') (fuel : Nat)
    : argLoop (fuel + 1) st = argLoop fuel st' := by
  obtain ⟨c, l', rfl⟩ := List.exists_cons_of_ne_nil hne
  have hc : c ≠ 0 := by
    rintro rfl
    exact h.clean List.mem_cons_self
  rw [argLoop.eq_def, hround, h.s]
  show (if c ≠ 0 ∧ _ then _ else _) = _
  rw [if_pos ⟨hc, hargc⟩]
  rfl

def argBytes (ws : List Bytes) : Nat :=
  (ws.map (·.length + 1)).sum

theorem argLoop_fits (h : ArgsHeld st vs) (hl : ArgsLeft st l) (hvs : vs.length ≤ 62)
    (hroom : st.n + argBytes ((runsOf blank l).take (62 - vs.length)) ≤ argsBufSize)
    : ∃ fuel st', argLoop fuel st = .ok st'.table
        ∧ ArgsHeld st' (vs ++ (runsOf blank l).take (62 - vs.length)) := by
  induction hn : l.length using Nat.strongRecOn generalizing l st vs with
  | ind n ih =>
    by_cases hdone : l = [] ∨ vs.length = 62
    . refine ⟨0, st, argLoop_done hl (hdone.imp_right ?_) 0, ?_⟩
      . intro hfull
        rw [h.argc]
        omega
      . have hnil : (runsOf blank l).take (62 - vs.length) = [] := by
          cases hdone with
          | inl hdone => rw [hdone, runsOf_nil, List.take_nil]
          | inr hdone => rw [hdone, Nat.sub_self, List.take_zero]
        rw [hnil, List.append_nil]
        exact h
    . rw [not_or] at hdone
      have hargc : st.table.argc < 63 := by
        rw [h.argc]
        omega
      obtain ⟨w, c, s, l', hs, hw0, hw, hc, hskip, hclean, hhead, hruns, hlt⟩ := hl.word hdone.1
      obtain ⟨k, hk⟩ : ∃ k, 62 - vs.length = k + 1 := ⟨61 - vs.length, by omega⟩
      rw [hruns, hk, List.take_succ_cons] at hroom ⊢
      unfold argBytes at hroom
      rw [List.map_cons, List.sum_cons] at hroom
      obtain ⟨st₁, hround, hheld, hs₁, hn₁⟩ := argRound_word h hs hw0 hw hc (by omega) hargc hskip
      have hlen : (vs ++ [w]).length = vs.length + 1 := by simp
      have hk' : 62 - (vs ++ [w]).length = k := by omega
      obtain ⟨fuel, st', hloop, hheld'⟩ :=
        ih l'.length (by omega) hheld ⟨hs₁, hclean, hhead⟩ (by omega)
          (by rw [hk', hn₁]; unfold argBytes; omega) rfl
      refine ⟨fuel + 1, st', (argLoop_succ hl hdone.1 hargc hround fuel).trans hloop, ?_⟩
      rw [hk', List.append_assoc, List.singleton_append] at hheld'
      exact hheld'

theorem more_of_overfull {n : Nat} (hn : n ≤ argsBufSize)
    (hroom : argsBufSize < n + argBytes ((runsOf blank l).take (62 - vs.length)))
    : l ≠ [] ∧ vs.length ≠ 62 := by
  constructor
  . rintro rfl
    rw [runsOf_nil, List.take_nil] at hroom
    exact absurd hroom (Nat.not_lt.2 hn)
  . intro hfull
    rw [hfull, Nat.sub_self, List.take_zero] at hroom
    exact absurd hroom (Nat.not_lt.2 hn)

theorem argLoop_overfull (h : ArgsHeld st vs) (hl : ArgsLeft st l) (hvs : vs.length ≤ 62)
    (hn : st.n ≤ argsBufSize)
    (hroom : argsBufSize < st.n + argBytes ((runsOf blank l).take (62 - vs.length)))
    (fuel : Nat) {t : ArgTable} (hloop : argLoop fuel st = .ok t)
    : t.argc = (vs ++ fitting (62 - vs.length) (argsBufSize - st.n) (runsOf blank l)).length + 2 := by
  induction fuel generalizing l st vs with
  | zero =>
    have hmore := more_of_overfull hn hroom
    have hargc : st.table.argc < 63 := by
      rw [h.argc]
      omega
    obtain ⟨c, l', rfl⟩ := List.exists_cons_of_ne_nil hmore.1
    have hc : c ≠ 0 := by
      rintro rfl
      exact hl.clean List.mem_cons_self
    rw [argLoop.eq_def, hl.s] at hloop
    have hstop : (if c ≠ 0 ∧ st.table.argc < 63 then (.error .loop : Checked ArgTable)
        else .ok st.table) = .ok t := hloop
    rw [if_pos ⟨hc, hargc⟩] at hstop
    contradiction
  | succ fuel ih =>
    have hmore := more_of_overfull hn hroom
    have hargc : st.table.argc < 63 := by
      rw [h.argc]
      omega
    obtain ⟨w, c, s, l', hs, hw0, hw, hc, hskip, hclean, hhead, hruns, hlt⟩ := hl.word hmore.1
    obtain ⟨k, hk⟩ : ∃ k, 62 - vs.length = k + 1 := ⟨61 - vs.length, by omega⟩
    rw [hruns, hk, List.take_succ_cons] at hroom
    unfold argBytes at hroom
    rw [List.map_cons, List.sum_cons] at hroom
    rw [hruns, hk]
    unfold fitting
    by_cases hfit : w.length + 1 ≤ argsBufSize - st.n
    . obtain ⟨st₁, hround, hheld, hs₁, hn₁⟩ := argRound_word h hs hw0 hw hc (by omega) hargc hskip
      rw [argLoop_succ hl hmore.1 hargc hround] at hloop
      have hlen : (vs ++ [w]).length = vs.length + 1 := by simp
      have hk' : 62 - (vs ++ [w]).length = k := by omega
      have hspace : argsBufSize - st₁.n = argsBufSize - st.n - (w.length + 1) := by omega
      rw [if_pos ⟨by omega, hfit⟩]
      have hover : argsBufSize < st₁.n + argBytes ((runsOf blank l').take k) := by
        unfold argBytes
        omega
      have hleft : ArgsLeft st₁ l' := ⟨hs₁, hclean, hhead⟩
      have := ih hheld hleft (by omega) (by omega) (by rw [hk']; exact hover) hloop
      rw [hk', hspace, List.append_assoc, List.singleton_append] at this
      exact this
    . obtain ⟨st₁, c₁, tl, hround, hs₁, hc0, hc₁, hn₁, hargc₁⟩ :=
        argRound_full (s := c :: s) hs hw0 hw (by omega) hargc
      rw [argLoop_succ hl hmore.1 hargc hround] at hloop
      rw [if_neg (fun h => hfit h.2), List.append_nil]
      have hstop : 63 ≤ st₁.table.argc := by
        by_contra hlt'
        rw [argLoop_stuck hs₁ hc0 hc₁ hn₁ (by omega)] at hloop
        contradiction
      have hend : argLoop fuel st₁ = .ok st₁.table := by
        rw [argLoop.eq_def, hs₁]
        show (if c₁ ≠ 0 ∧ _ then _ else _) = _
        rw [if_neg (fun h => absurd h.2 (by omega))]
        rfl
      rw [hend] at hloop
      cases hloop
      have := h.argc
      omega

end Words

section SetArgs

variable {t : ArgTable} {args : Option CStr} {path : CStr}

theorem fitting_eq_take (ws : List Bytes) {entries space : Nat}
    (h : argBytes (ws.take entries) ≤ space)
    : fitting entries space ws = ws.take entries := by
  induction ws generalizing entries space with
  | nil => simp [fitting]
  | cons w ws ih =>
    cases entries with
    | zero => simp [fitting]
    | succ entries =>
      unfold argBytes at h
      rw [List.take_succ_cons, List.map_cons, List.sum_cons] at h
      unfold fitting
      rw [if_pos ⟨by omega, by omega⟩, Nat.add_sub_cancel, ih (by unfold argBytes; omega),
        List.take_succ_cons]

theorem ArgsHeld.deref {st : ArgScan} {vs : List Bytes} (h : ArgsHeld st vs) (path : CStr)
    {t' : ArgTable} (hbuf : t'.buf = st.table.buf)
    (hstore : t'.store.1 = st.table.store.1.set (vs.length + 1) none)
    (hvs : vs.length ≤ 62)
    : (t'.store.1.take (vs.length + 2)).map (t'.deref path)
        = some path.val :: vs.map some ++ [none] := by
  apply List.ext_getElem?
  intro i
  rw [List.getElem?_map, List.getElem?_take, hstore]
  cases i with
  | zero =>
    rw [if_pos (by omega), List.getElem?_set_ne (by omega), h.path]
    rfl
  | succ i =>
    rw [List.cons_append, List.getElem?_cons_succ]
    cases Nat.lt_or_ge i vs.length with
    | inl hi =>
      obtain ⟨p, hptr, _, hbytes⟩ := h.word i vs[i] (List.getElem?_eq_getElem hi)
      have hclean := h.clean vs[i] (List.getElem_mem hi)
      rw [if_pos (by omega), List.getElem?_set_ne (by omega), hptr,
        List.getElem?_append_left (by rw [List.length_map]; exact hi), List.getElem?_map,
        List.getElem?_eq_getElem hi]
      show some (t'.str p) = some (some vs[i])
      unfold ArgTable.str
      rw [hbuf]
      have hsplit := List.take_append_drop (vs[i].length + 1) (st.table.buf.1.drop p)
      rw [hbytes] at hsplit
      rw [← hsplit, if_pos (by simp), List.append_assoc,
        List.takeWhile_append_of_pos (by intro c hc; simpa using fun h0 : c = 0 => hclean (h0 ▸ hc))]
      simp
    | inr hi =>
      rw [List.getElem?_append_right (by rw [List.length_map]; exact hi), List.length_map]
      cases Nat.eq_or_lt_of_le hi with
      | inl heq =>
        subst heq
        rw [if_pos (by omega), List.getElem?_set_self, Nat.sub_self]
        . rfl
        . rw [st.table.store.2]
          unfold argvSize
          omega
      | inr hlt =>
        rw [if_neg (by omega), List.getElem?_eq_none]
        . rfl
        . rw [List.length_singleton]
          omega

theorem argsLeft_dropWhile (l : CStr) (t : ArgTable)
    : ArgsLeft ⟨l.val.dropWhile (· = 32) ++ [0], 0, t⟩ (l.val.dropWhile (· = 32)) where
  s := rfl
  clean h0 := l.2 ((List.dropWhile_sublist _).mem h0)
  head := by
    intro c hc
    have := List.head?_dropWhile_not (fun c : Byte => decide (c = 32)) l.val
    rw [hc] at this
    simpa using this

theorem enterArgs_some (l : CStr) (t : ArgTable) (fuel : Nat)
    : enterArgs fuel (some l) t = argLoop fuel ⟨l.val.dropWhile (· = 32) ++ [0], 0, t⟩ := by
  unfold enterArgs
  dsimp only
  rw [skipArgBlanks_string l.2]
  rfl

theorem enterArgs_fits (args : Option CStr) (hargc : t.argc = 1)
    (hpath : t.store.1[0]? = some (some .path))
    (hroom : argBytes ((argWords args).take 62) ≤ argsBufSize)
    : ∃ fuel st, enterArgs fuel args t = .ok st.table ∧ ArgsHeld st ((argWords args).take 62) := by
  cases args with
  | none => exact ⟨0, ⟨[], 0, t⟩, rfl, hargc, hpath, by simp [argWords], by simp [argWords]⟩
  | some l =>
    have hheld : ArgsHeld ⟨l.val.dropWhile (· = 32) ++ [0], 0, t⟩ [] := ⟨hargc, hpath, by simp, by simp⟩
    have hwords : runsOf blank (l.val.dropWhile (· = 32)) = argWords (some l) := runsOf_dropWhile l.val
    obtain ⟨fuel, st, hloop, hend⟩ :=
      argLoop_fits hheld (argsLeft_dropWhile l t) (by simp)
        (by rw [hwords, List.length_nil, Nat.sub_zero, Nat.zero_add]; exact hroom)
    rw [hwords] at hend
    exact ⟨fuel, st, (enterArgs_some l t fuel).trans hloop, hend⟩

theorem enterArgs_overfull (args : Option CStr) (hargc : t.argc = 1)
    (hpath : t.store.1[0]? = some (some .path))
    (hroom : argsBufSize < argBytes ((argWords args).take 62)) {fuel : Nat} {t' : ArgTable}
    (hloop : enterArgs fuel args t = .ok t')
    : t'.argc = (fitting 62 argsBufSize (argWords args)).length + 2 := by
  cases args with
  | none => exact absurd hroom (by decide)
  | some l =>
    have hheld : ArgsHeld ⟨l.val.dropWhile (· = 32) ++ [0], 0, t⟩ [] := ⟨hargc, hpath, by simp, by simp⟩
    have hwords : runsOf blank (l.val.dropWhile (· = 32)) = argWords (some l) := runsOf_dropWhile l.val
    rw [enterArgs_some] at hloop
    have hend := argLoop_overfull hheld (argsLeft_dropWhile l t) (by simp) (Nat.zero_le _)
      (by rw [hwords, List.length_nil, Nat.sub_zero, Nat.zero_add]; exact hroom) fuel hloop
    rw [hwords] at hend
    exact hend

theorem tanjaSetargs_eq (args : Option CStr) (t : ArgTable)
    : ∃ t₁, t₁.argc = 1 ∧ t₁.store.1[0]? = some (some .path)
        ∧ ∀ fuel, tanjaSetargs fuel args t
            = (enterArgs fuel args t₁ >>= fun t => t.putPtr t.argc none) := by
  obtain ⟨t₁, hptr, -, -, hstore⟩ := @putPtr_eq t 0 (some .path) (by decide)
  obtain ⟨t₂, hput, hwrote⟩ := @putByte_wrote 0 { t₁ with argc := 1 } 0 (by decide)
  refine ⟨t₂, hwrote.argc, ?_, ?_⟩
  . rw [hwrote.store]
    dsimp only
    rw [hstore, List.getElem?_set_self]
    rw [t.store.2]
    decide
  . intro fuel
    unfold tanjaSetargs
    rw [hptr, Checked.ok_bind, hput, Checked.ok_bind]

theorem setsArgs_of_room (path : CStr) (t : ArgTable)
    (hroom : argBytes ((argWords args).take 62) ≤ argsBufSize)
    : SetsArgs path args t (fitting 62 argsBufSize (argWords args)) := by
  obtain ⟨t₁, hargc, hpath, heq⟩ := tanjaSetargs_eq args t
  obtain ⟨fuel, st, henter, hheld⟩ := enterArgs_fits args hargc hpath hroom
  rw [fitting_eq_take _ hroom]
  have hlen : ((argWords args).take 62).length ≤ 62 := List.length_take_le _ _
  generalize (argWords args).take 62 = vs at *
  obtain ⟨t', hput, hbuf, hargc', hstore⟩ :=
    @putPtr_eq st.table st.table.argc none (by rw [hheld.argc]; unfold argvSize; omega)
  rw [hheld.argc] at hargc' hstore
  refine ⟨fuel, t', ?_, hargc', hheld.deref path hbuf hstore hlen, ?_⟩
  . rw [heq, henter, Checked.ok_bind, hput]
  . rw [hstore, List.getElem?_set_self]
    rw [st.table.store.2]
    unfold argvSize
    omega

theorem not_setsArgs (path : CStr) (t : ArgTable)
    (hroom : argsBufSize < argBytes ((argWords args).take 62))
    : ¬SetsArgs path args t (fitting 62 argsBufSize (argWords args)) := by
  rintro ⟨fuel, t', hset, hargc', _⟩
  obtain ⟨t₁, hargc, hpath, heq⟩ := tanjaSetargs_eq args t
  rw [heq] at hset
  cases henter : enterArgs fuel args t₁ with
  | error e =>
    rw [henter] at hset
    contradiction
  | ok t₂ =>
    rw [henter] at hset
    have hput : t₂.putPtr t₂.argc none = .ok t' := hset
    have hsame : t'.argc = t₂.argc := by
      unfold ArgTable.putPtr at hput
      split at hput
      . cases hput
        rfl
      . contradiction
    have := enterArgs_overfull args hargc hpath hroom henter
    omega

/--
`tanja_setargs` sets the words that fit if those which there are entries for take at most the bytes
that the buffer has. With one byte more it does not come to an end, or the last word is cut off.
-/
theorem setsArgs_iff (path : CStr) (args : Option CStr) (t : ArgTable)
    : SetsArgs path args t (fitting 62 argsBufSize (argWords args))
        ↔ argBytes ((argWords args).take 62) ≤ argsBufSize := by
  constructor
  . intro h
    by_contra hover
    exact not_setsArgs path t (Nat.lt_of_not_le hover) h
  . exact setsArgs_of_room path t

def ArgTable.boot : ArgTable where
  buf := ⟨List.replicate argsBufSize 0, List.length_replicate⟩
  store := ⟨List.replicate argvSize none, List.length_replicate⟩
  argc := 1

def longArg : CStr :=
  ⟨List.replicate argsBufSize 97, fun h => absurd (List.eq_of_mem_replicate h) (by decide)⟩

/--
`execv` can pass on a word that does not fit with its null.
-/
theorem not_setsArgs_long
    : ¬SetsArgs ⟨[47], by decide⟩ (some longArg) .boot
        (fitting 62 argsBufSize (argWords (some longArg))) := by
  apply not_setsArgs
  have hword : argWords (some longArg) = [longArg.val] := by
    apply runsOf_word
    . intro c hc
      rw [List.eq_of_mem_replicate hc]
      decide
    . exact List.ne_nil_of_length_pos (by unfold longArg; rw [List.length_replicate]; decide)
  rw [hword]
  have hlen : longArg.val.length = argsBufSize := List.length_replicate
  rw [List.take_of_length_le (by simp)]
  unfold argBytes
  rw [List.map_singleton, List.sum_singleton, hlen]
  exact Nat.lt_succ_self argsBufSize

end SetArgs

end TanjaOS
