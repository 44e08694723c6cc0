import TanjaOS.Libc.Descriptors

/-!
What a program writes to a stream is what it reads from the file afterwards, whatever it does with its other
descriptors in between. A stream that `fopen` has opened is never one to read from.
-/

open Lib

namespace TanjaOS

section Spec

def FdCall.target : FdCall → Option (Fin tanjaMaxFds)
  | .close fd => fdEntry fd
  | .read fd _ => fdEntry fd
  | .write fd _ _ => fdEntry fd
  | .lseek fd _ _ => fdEntry fd
  | .fclose f => f
  | .fread _ _ f => f
  | .fwrite _ _ _ f => f
  | .fgetc f => f
  | .fputc _ _ f => f
  | .fputs _ _ f => f
  | .ungetc _ f => f
  | .fflush f => f
  | _ => none

def FdCall.Leaves (c : FdCall) (i : Fin tanjaMaxFds) : Prop :=
  c.target ≠ some i ∧ c ≠ .fflush none

/--
A call writes to a descriptor or moves in its text, or is not about it.
-/
inductive FdCall.Edits (i : Fin tanjaMaxFds) : FdCall → Prop where
  | leaves {c : FdCall} (h : c.Leaves i) : Edits i c
  | writes {c : FdCall} {data : Bytes} {fresh : Mem} (h : c.written = some (some i, data, some fresh)) : Edits i c
  | seeks {fd : Int} (h : fdEntry fd = some i) (offset whence : Int) : Edits i (.lseek fd offset whence)

abbrev Draft := Bytes × Nat

def Draft.seek (t : Draft) (offset whence : Int) : Draft :=
  if whence = 0 then
    (t.1, min (asUnsigned offset) t.1.length)
  else if whence = 1 then
    (t.1, min (asUnsigned (t.2 + offset)) t.1.length)
  else if whence = 2 then
    (t.1, min (asUnsigned (t.1.length + offset)) t.1.length)
  else
    t

def FdCall.edit (i : Fin tanjaMaxFds) (t : Draft) (c : FdCall) : Draft :=
  match c with
  | .lseek fd offset whence => if fdEntry fd = some i then t.seek offset whence else t
  | c =>
    match c.written with
    | some (some j, data, _) => if j = i then (splice t.1 t.2 data, t.2 + data.length) else t
    | _ => t

/--
The text that a program writes to a new file.
-/
def draftText (i : Fin tanjaMaxFds) (calls : List FdCall) : Bytes :=
  (calls.foldl (FdCall.edit i) ([], 0)).1

end Spec

section Touched

variable {a a' a'' : Streams} {i j : Fin tanjaMaxFds} {o : Option (Fin tanjaMaxFds)} {full : Bool}
  {s s' : OpenStream}

theorem set_other {s : Option OpenStream} (h : i ≠ j) : (a.set j s).table i = a.table i := by
  unfold Streams.set
  exact Function.update_of_ne h _ _

/--
A stream that is open stays so, and what it may be used for stays the same.
-/
def SameUse (i : Fin tanjaMaxFds) (a a' : Streams) : Prop :=
  ∀ s, a.table i = some s → ∃ s', a'.table i = some s' ∧ s'.readable = s.readable

theorem SameUse.refl (i : Fin tanjaMaxFds) (a : Streams) : SameUse i a a := fun s h => ⟨s, h, rfl⟩

theorem SameUse.trans (h : SameUse i a a') (h' : SameUse i a' a'') : SameUse i a a'' := by
  intro s hs
  obtain ⟨s', hs', hsame⟩ := h s hs
  obtain ⟨s'', hs'', hsame'⟩ := h' s' hs'
  exact ⟨s'', hs'', hsame'.trans hsame⟩

/--
No stream but that of `o` is different, and it is of the same use.
-/
structure Touches (o : Option (Fin tanjaMaxFds)) (a a' : Streams) : Prop where
  other : ∀ i, o ≠ some i → a'.table i = a.table i
  use : ∀ i, SameUse i a a'

theorem Touches.of_table (h : a'.table = a.table) : Touches o a a' where
  other i _ := congrFun h i
  use i s hs := ⟨s, (congrFun h i).trans hs, rfl⟩

theorem Touches.trans (h : Touches o a a') (h' : Touches o a' a'') : Touches o a a'' where
  other i hi := (h'.other i hi).trans (h.other i hi)
  use i := (h.use i).trans (h'.use i)

theorem Touches.set (h : a.table j = some s) (hsame : s'.readable = s.readable)
    : Touches (some j) a (a.set j (some s')) where
  other i hi := set_other (fun hij => hi (congrArg some hij.symm))
  use i := by
    intro s₀ hs₀
    by_cases hij : i = j
    . subst hij
      obtain rfl : s₀ = s := Option.some.inj (hs₀.symm.trans h)
      exact ⟨s', table_set, hsame⟩
    . rw [set_other hij]
      exact ⟨s₀, hs₀, rfl⟩

theorem flush_touches (j : Fin tanjaMaxFds) : Touches (some j) a (a.flush j) := by
  unfold Streams.flush
  split
  . exact .of_table rfl
  . next s htable =>
    split
    . exact .of_table rfl
    . split
      . -- the file is written before the record is changed
        refine .trans (.of_table ?_) (.set htable ?_)
        . rfl
        . rfl
      . exact .of_table rfl

theorem flush_all_use (l : List (Fin tanjaMaxFds)) : SameUse i a (l.foldl Streams.flush a) := by
  induction l generalizing a with
  | nil => exact .refl i a
  | cons j l ih => exact ((flush_touches j).use i).trans ih

theorem getc_touches (j : Fin tanjaMaxFds) : Touches (some j) a (a.getc j).2 := by
  unfold Streams.getc
  split
  . exact .of_table rfl
  . next s htable =>
    split
    . exact .set htable rfl
    . split
      . exact .of_table rfl
      . split
        . exact .set htable rfl
        . exact .set htable rfl

theorem getLoop_touches (j : Fin tanjaMaxFds) (line : Bool) (count : Nat)
    : Touches (some j) a (getLoop (fun a => a.getc j) line count a).2 := by
  induction count generalizing a with
  | zero => exact .of_table rfl
  | succ count ih =>
    unfold getLoop
    dsimp only
    split
    . exact getc_touches j
    . split
      . exact getc_touches j
      . exact (getc_touches j).trans ih

theorem take_readable (s : OpenStream) (count : Nat) : (s.take count).2.readable = s.readable := by
  unfold OpenStream.take
  split
  . rfl
  . rfl
  . dsimp only
    split <;> rfl

theorem take_touches (htable : a.table j = some s) (line : Bool) (count : Nat)
    : Touches (some j) a (a.take j s line count).2 := by
  unfold Streams.take
  split
  . exact getLoop_touches j line count
  . exact .set htable (take_readable s count)

theorem atEnd_readable (s : OpenStream) : s.atEnd.readable = s.readable := by
  unfold OpenStream.atEnd
  split <;> rfl

theorem put_touches (j : Fin tanjaMaxFds) (data : Bytes) : Touches (some j) a (a.put full j data).2 := by
  unfold Streams.put
  split
  . exact .of_table rfl
  . next s htable =>
    split
    . exact .of_table rfl
    . split
      . exact .of_table rfl
      . split
        . exact .set htable (atEnd_readable s)
        . exact .set htable (atEnd_readable s)

theorem read_touches (fd : Int) (count : Nat) : Touches (fdEntry fd) a (a.read fd count).2 := by
  unfold Streams.read
  cases fdEntry fd with
  | none => exact .of_table rfl
  | some j =>
    dsimp only
    split
    . exact .of_table rfl
    . next s htable =>
      split
      . exact .of_table rfl
      . exact take_touches htable _ count

theorem fread_touches (size nmemb : Nat) : Touches (some j) a (a.fread size nmemb j).2 := by
  unfold Streams.fread
  split
  . exact .of_table rfl
  . next s htable =>
    split
    . exact .of_table rfl
    . exact take_touches htable _ _

theorem write_touches (fd : Int) (data : Bytes) : Touches (fdEntry fd) a (a.write full fd data).2 := by
  unfold Streams.write
  cases fdEntry fd with
  | none => exact .of_table rfl
  | some j =>
    dsimp only
    split
    . exact .of_table rfl
    . split
      . exact (put_touches j data).trans (.of_table rfl)
      . exact put_touches j data

theorem fwrite_touches (data : Bytes) (size : Nat) : Touches (some j) a (a.fwrite full data size j).2 := by
  unfold Streams.fwrite
  dsimp only
  split
  . exact put_touches j data
  . exact put_touches j data

theorem lseek_touches (fd offset whence : Int) : Touches (fdEntry fd) a (a.lseek fd offset whence).2 := by
  unfold Streams.lseek
  cases fdEntry fd with
  | none => exact .of_table rfl
  | some j =>
    dsimp only
    split
    . exact .of_table rfl
    . next s htable =>
      split
      . exact .of_table rfl
      . split
        . exact .set htable rfl
        . split
          . exact .set htable rfl
          . split
            . exact .set htable rfl
            . exact .of_table rfl

theorem ungetc_touches (c : Int) : Touches (some j) a (a.ungetc c j).2 := by
  unfold Streams.ungetc
  split
  . exact .of_table rfl
  . next s htable => exact .set htable rfl

/--
A call opens and closes nothing, and it is about one descriptor if any.
-/
def FdCall.Keeps : FdCall → Prop
  | .openFd .. => False
  | .fopen .. => False
  | .close _ => False
  | .fclose _ => False
  | .fflush none => False
  | _ => True

theorem outcome_touches {c : FdCall} (h : c.Keeps) : Touches c.target a (c.outcome full a).2 := by
  cases c with
  | read fd count => exact read_touches fd count
  | write fd data m => exact write_touches fd data
  | lseek fd offset whence => exact lseek_touches fd offset whence
  | fread size nmemb f =>
    cases f with
    | none => exact .of_table rfl
    | some j => exact fread_touches size nmemb
  | fwrite data size m f =>
    cases f with
    | none => exact .of_table rfl
    | some j => exact fwrite_touches data size
  | fgetc f =>
    cases f with
    | none => exact .of_table rfl
    | some j => exact getc_touches j
  | fputc c m f =>
    cases f with
    | none => exact .of_table rfl
    | some j => exact put_touches j [asByte c]
  | fputs s m f =>
    cases f with
    | none => exact .of_table rfl
    | some j => exact put_touches j s
  | ungetc c f =>
    cases f with
    | none => exact .of_table rfl
    | some j => exact ungetc_touches c
  | fflush f =>
    cases f with
    | none => contradiction
    | some j => exact flush_touches j
  | other change => exact .of_table rfl
  | _ => contradiction

theorem ready_other {path : CStr} {flags : UInt32} {named : Bool} {text : Bytes} {dirty : Bool} (h : i ≠ j)
    : (Streams.openFd.ready path flags named a j text dirty).2.table i = a.table i :=
  set_other h

theorem withConsole_other (h : 3 ≤ i.val) : a.withConsole.table i = a.table i := by
  have hne : ∀ j : Fin tanjaMaxFds, j.val < 3 → i ≠ j := by
    rintro j hj rfl
    omega
  unfold Streams.withConsole
  split
  . rfl
  . rw [set_other (hne 2 (by decide)), set_other (hne 1 (by decide)), set_other (hne 0 (by decide))]

theorem openFd_other {path : CStr} {flags : UInt32} {m : Option Mem} {named : Bool} (hi : 3 ≤ i.val)
    (hused : (a.table i).isSome) : (a.openFd path flags m named).2.table i = a.table i := by
  have hkept := @withConsole_other a i hi
  unfold Streams.openFd
  split
  . rfl
  . dsimp only
    split
    . exact hkept
    . next j hfree =>
      have hne : i ≠ j := by
        rintro rfl
        rw [hkept.symm, (free_entry hfree).2] at hused
        contradiction
      split
      . exact hkept
      . split
        . exact (ready_other hne).trans hkept
        . split
          . exact hkept
          . split
            . exact hkept
            . exact (ready_other hne).trans hkept

theorem flush_other (h : i ≠ j) : (a.flush j).table i = a.table i :=
  (flush_touches j).other i (fun hji => h (Option.some.inj hji).symm)

theorem close_other {fd : Int} (h : fdEntry fd ≠ some i) : (a.close fd).2.table i = a.table i := by
  unfold Streams.close
  split
  . rfl
  . next j hentry =>
    have hne : i ≠ j := by
      rintro rfl
      exact h hentry
    split
    . rfl
    . split
      . rfl
      . exact (set_other hne).trans (flush_other hne)

theorem fclose_other (h : i ≠ j) : (a.fclose j).2.table i = a.table i := by
  unfold Streams.fclose
  split
  . rfl
  . split
    . rfl
    . exact (set_other h).trans (flush_other h)

theorem outcome_leaves {c : FdCall} (hi : 3 ≤ i.val) (hused : (a.table i).isSome) (h : c.Leaves i)
    : (c.outcome full a).2.table i = a.table i := by
  have hkeeps : c.Keeps → (c.outcome full a).2.table i = a.table i := fun hc => (outcome_touches hc).other i h.1
  cases c with
  | openFd path flags m named => exact openFd_other hi hused
  | fopen path mode m named =>
    unfold FdCall.outcome
    dsimp only
    split
    . rfl
    . exact openFd_other hi hused
  | close fd => exact close_other h.1
  | fclose f =>
    cases f with
    | none => rfl
    | some j => exact fclose_other (fun hij => h.1 (congrArg some hij.symm))
  | fflush f =>
    cases f with
    | none => exact absurd rfl h.2
    | some j => exact hkeeps trivial
  | _ => exact hkeeps trivial

end Touched

section Draft

variable {a a' : Streams} {i : Fin tanjaMaxFds} {full : Bool} {t : Draft} {path : CStr} {s : OpenStream}

structure Drafting (a : Streams) (i : Fin tanjaMaxFds) (path : CStr) (t : Draft) : Prop where
  stream : ∃ s, a.table i = some s ∧ (s.content, s.pos) = t ∧ s.console = .none ∧ s.path = some path
    ∧ s.writable = true ∧ s.append = false ∧ s.dirty = true
  pos : t.2 ≤ t.1.length

theorem Drafting.writes (h : Drafting a i path t) (data : Bytes)
    : (a.put false i data).1 = asInt data.length
      ∧ Drafting (a.put false i data).2 i path (splice t.1 t.2 data, t.2 + data.length) := by
  obtain ⟨⟨s, htable, htext, hcon, hpath, hwritable, happend, hdirty⟩, hpos⟩ := h
  obtain rfl := htext
  have hend : s.atEnd = s := by
    unfold OpenStream.atEnd
    rw [happend, if_neg (by decide)]
  rw [put_file htable hwritable (by rw [hcon]; decide), if_neg Bool.false_ne_true, hend]
  dsimp only
  refine ⟨rfl, ⟨s.put data, table_set, rfl, hcon, hpath, hwritable, happend, rfl⟩, ?_⟩
  dsimp only at hpos ⊢
  rw [length_splice hpos]
  omega

theorem Drafting.set (h : Drafting a i path t) (htable : a.table i = some s) {t' : Draft} {s' : OpenStream}
    (hsame : s' = { s with content := t'.1, pos := t'.2, eof := s'.eof }) (hpos : t'.2 ≤ t'.1.length)
    : Drafting (a.set i (some s')) i path t' := by
  obtain ⟨⟨s₀, htable₀, _, hcon, hpath, hwritable, happend, hdirty⟩, _⟩ := h
  obtain rfl : s₀ = s := Option.some.inj (htable₀.symm.trans htable)
  rw [hsame]
  exact ⟨⟨_, table_set, rfl, hcon, hpath, hwritable, happend, hdirty⟩, hpos⟩

theorem Drafting.seeks (h : Drafting a i path t) {fd : Int} (hfd : fdEntry fd = some i) (offset whence : Int)
    : Drafting (a.lseek fd offset whence).2 i path (t.seek offset whence) := by
  obtain ⟨s, htable, htext, hcon, _⟩ := h.stream
  obtain rfl := htext
  have hle := h.pos
  have hmoved : ∀ base : Nat, Drafting (a.set i (some (s.seek base offset))) i path
      (s.content, min (asUnsigned (base + offset)) s.content.length) :=
    fun base => h.set htable rfl (Nat.min_le_right _ _)
  unfold Streams.lseek Draft.seek
  rw [hfd]
  dsimp only
  rw [htable]
  dsimp only
  rw [if_neg (not_not_intro hcon)]
  split
  . have hzero := hmoved 0
    rw [Nat.cast_zero, Int.zero_add] at hzero
    exact hzero
  . split
    . exact hmoved s.pos
    . split
      . exact hmoved s.content.length
      . exact ⟨h.stream, hle⟩

theorem edit_leaves {c : FdCall} (h : c.Leaves i) : c.edit i t = t := by
  have htarget := h.1
  cases c with
  | lseek fd offset whence => exact if_neg htarget
  | write fd data m =>
    unfold FdCall.edit FdCall.written
    dsimp only
    split
    . next j _ _ hj =>
      rw [Option.some.injEq, Prod.mk.injEq] at hj
      exact if_neg (fun hji => htarget (hj.1.trans (congrArg some hji)))
    . rfl
  | fwrite data size m f =>
    cases f with
    | none => rfl
    | some j => exact if_neg (fun hji => htarget (congrArg some hji))
  | fputc c m f =>
    cases f with
    | none => rfl
    | some j => exact if_neg (fun hji => htarget (congrArg some hji))
  | fputs s m f =>
    cases f with
    | none => rfl
    | some j => exact if_neg (fun hji => htarget (congrArg some hji))
  | _ => rfl

theorem edit_writes {c : FdCall} {data : Bytes} {m : Option Mem} (h : c.written = some (some i, data, m))
    : c.edit i t = (splice t.1 t.2 data, t.2 + data.length) := by
  unfold FdCall.edit
  split
  . contradiction
  . rw [h]
    exact if_pos rfl

theorem outcome_writes {c : FdCall} {data : Bytes} {m : Option Mem} (h : c.written = some (some i, data, m))
    (hused : (a.table i).isSome)
    : (c.outcome full a).2.table = (a.put full i data).2.table := by
  cases c with
  | write fd data' m' =>
    unfold FdCall.written at h
    rw [Option.some.injEq, Prod.mk.injEq, Prod.mk.injEq] at h
    obtain ⟨hfd, rfl, _⟩ := h
    unfold FdCall.outcome Streams.write
    dsimp only
    rw [hfd]
    dsimp only
    rw [if_neg (by rw [Option.isNone_iff_eq_none]; exact Option.isSome_iff_ne_none.mp hused)]
    split
    . rfl
    . rfl
  | fwrite data' size m' f =>
    cases h
    unfold FdCall.outcome Streams.fwrite
    dsimp only
    split
    . rfl
    . rfl
  | fputc c m' f =>
    cases h
    rfl
  | fputs s m' f =>
    cases h
    rfl
  | _ => contradiction

theorem Drafting.congr (h : Drafting a i path t) (htable : a'.table i = a.table i) : Drafting a' i path t :=
  ⟨by rw [htable]; exact h.stream, h.pos⟩

theorem Drafting.step {c : FdCall} (h : Drafting a i path t) (hi : 3 ≤ i.val) (hc : c.Edits i)
    (hfull : full = true → ∃ w ∈ c.written, w.2.2 = none)
    : Drafting (c.outcome full a).2 i path (c.edit i t) := by
  obtain ⟨s, htable, _⟩ := h.stream
  have hused : (a.table i).isSome := by
    rw [htable]
    rfl
  cases hc with
  | leaves hleaves =>
    rw [edit_leaves hleaves]
    exact h.congr (outcome_leaves hi hused hleaves)
  | @writes _ data fresh hwrites =>
    have hroom : full = false := by
      cases full with
      | false => rfl
      | true =>
        obtain ⟨w, hw, hnone⟩ := hfull rfl
        rw [hwrites, Option.mem_some_iff] at hw
        rw [← hw] at hnone
        contradiction
    subst hroom
    rw [edit_writes hwrites]
    exact (h.writes data).2.congr (by rw [outcome_writes hwrites hused])
  | @seeks fd hfd offset whence =>
    have hedit : FdCall.edit i t (.lseek fd offset whence) = t.seek offset whence := if_pos hfd
    rw [hedit]
    exact h.seeks hfd offset whence

end Draft

section Opened

variable {a : Streams} {st : FdState} {i j : Fin tanjaMaxFds} {path : CStr} {m : Option Mem} {s : OpenStream}

theorem fail_ret {e : Nat} (h : (a.fail e).1.ret = i.val) : False := by
  have hneg : (-1 : Int) = i.val := h
  omega

theorem withConsole_fs : a.withConsole.fs = a.fs := by
  unfold Streams.withConsole
  split <;> rfl

theorem openFd_ret {flags : UInt32} {named : Bool} (h : (a.openFd path flags m named).1.ret = i.val)
    : path.val ≠ [] ∧ 3 ≤ i.val ∧ ((∃ text, (loadedText a.fs path m).1 = some text
        ∧ (a.openFd path flags m named).2.table i = some { OpenStream.empty .none with
          path := if named then some path else none
          content := if flags &&& oTruncate ≠ 0 then [] else text
          pos := if flags &&& oAppending ≠ 0 then (if flags &&& oTruncate ≠ 0 then [] else text).length else 0
          readable := flags &&& oWrOnly = 0
          writable := flags &&& (oWrOnly ||| oReadWrite) ≠ 0
          append := flags &&& oAppending ≠ 0
          dirty := flags &&& oTruncate ≠ 0 })
      ∨ flags &&& oCreate ≠ 0 ∧ (loadedText a.fs path m).1 = none
        ∧ (a.openFd path flags m named).2.table i = some { OpenStream.empty .none with
          path := if named then some path else none
          readable := flags &&& oWrOnly = 0
          writable := flags &&& (oWrOnly ||| oReadWrite) ≠ 0
          append := flags &&& oAppending ≠ 0 }) := by
  unfold Streams.openFd at h ⊢
  by_cases hpath : path.val = []
  . rw [if_pos hpath] at h
    exact (fail_ret h).elim
  . rw [if_neg hpath] at h ⊢
    dsimp only at h ⊢
    cases hfree : a.withConsole.free with
    | none =>
      rw [hfree] at h
      exact (fail_ret h).elim
    | some j =>
      have hj := free_entry hfree
      rw [hfree] at h
      dsimp only at h ⊢
      rw [withConsole_fs] at h ⊢
      by_cases hmissing : flags &&& oCreate = 0 ∧ ¬fsFileExists a.fs path = true
      . rw [if_pos hmissing] at h
        exact (fail_ret h).elim
      . rw [if_neg hmissing] at h ⊢
        cases htext : (loadedText a.fs path m).1 with
        | some text =>
          rw [htext] at h
          have hij : j = i := Fin.ext (Int.ofNat.inj h)
          subst hij
          exact ⟨hpath, hj.1, .inl ⟨text, rfl, table_set⟩⟩
        | none =>
          rw [htext] at h
          dsimp only at h ⊢
          by_cases hcreate : flags &&& oCreate = 0
          . rw [if_pos hcreate] at h
            exact (fail_ret h).elim
          . rw [if_neg hcreate] at h ⊢
            by_cases hrc : (fsCreateFile (loadedText a.fs path m).2 path).1 ≠ 0
            . rw [if_pos hrc] at h
              exact (fail_ret h).elim
            . rw [if_neg hrc] at h ⊢
              have hij : j = i := Fin.ext (Int.ofNat.inj h)
              subst hij
              refine ⟨hpath, hj.1, .inr ⟨hcreate, rfl, ?_⟩⟩
              unfold Streams.openFd.ready
              dsimp only
              rw [table_set, List.length_nil, ite_self]
              rfl

theorem loadedText_readable {fs : FsState} {fresh : Mem} (h : ContentInv fs)
    (hread : ∀ k, fileIndex fs (absPath fs.cwd.str path) = some k → FileReadable fs k)
    : (loadedText fs path (some fresh)).1 ≠ none := by
  unfold loadedText
  dsimp only
  rw [if_neg (by simp)]
  split
  . next hexists =>
    obtain ⟨e, he⟩ := fsGetFileSize_state fs path
    obtain ⟨hne, k, hidx⟩ := fsFileExists_iff.mp hexists
    have hidx' : fileIndex fs (absPath fs.cwd.str path) = some k := by
      rw [he] at hidx
      exact hidx
    have hwhole := @fsReadFile_whole { fs with fsErrno := 0 } k path (h.withErrno 0) hidx' (hread k hidx')
    rw [fsGetFileSize_readable hne hidx' (hread k hidx')]
    dsimp only at hwhole ⊢
    rw [hwhole]
    dsimp only
    rw [if_pos rfl, @files_found { fs with fsErrno := 0 } _ k hidx']
    exact nofun
  . exact nofun

theorem loadedText_bytes {fs : FsState} {data text : Bytes} (hpath : path.val ≠ [])
    (hdata : (fs.files (absPath fs.cwd.str path)).map FileView.bytes = some data)
    (hload : (loadedText fs path m).1 = some text) : text = data := by
  obtain ⟨e, he⟩ := fsGetFileSize_state fs path
  have hfiles : (fsGetFileSize fs path).2.files = fs.files := funext (fsGetFileSize_files fs path)
  have hcwd : (fsGetFileSize fs path).2.cwd = fs.cwd := by rw [he]
  have hexists : fsFileExists (fsGetFileSize fs path).2 path = true := by
    rw [fsFileExists_iff]
    refine ⟨hpath, ?_⟩
    obtain ⟨view, hview, _⟩ := Option.map_eq_some_iff.mp hdata
    rw [← hfiles, ← hcwd] at hview
    obtain ⟨k, hk, _⟩ := files_eq_some hview
    exact ⟨k, hk⟩
  unfold loadedText at hload
  dsimp only at hload
  split at hload
  . contradiction
  . rw [hfiles, hcwd, hdata] at hload
    dsimp only at hload
    split at hload
    . exact (Option.some.inj hload).symm
    . contradiction

theorem open_drafting {fresh : Mem} (h : st.Ok)
    (hread : ∀ k, fileIndex st.fs (absPath st.fs.cwd.str path) = some k → FileReadable st.fs k)
    (hopen : (st.openFd path (oWrOnly ||| oCreate ||| oTruncate) (some fresh) true).1.ret = i.val)
    : path.val ≠ [] ∧ 3 ≤ i.val
      ∧ (st.openFd path (oWrOnly ||| oCreate ||| oTruncate) (some fresh) true).2.Ok
      ∧ Drafting (st.openFd path (oWrOnly ||| oCreate ||| oTruncate) (some fresh) true).2.streams i path ([], 0) := by
  obtain ⟨hview, hok⟩ := @openFd_matches st path (some fresh) h (oWrOnly ||| oCreate ||| oTruncate) true
  have hret : (st.streams.openFd path (oWrOnly ||| oCreate ||| oTruncate) (some fresh) true).1.ret = i.val := by
    rw [hview]
    exact hopen
  have htable : ((st.openFd path (oWrOnly ||| oCreate ||| oTruncate) (some fresh) true).2.streams).table
      = (st.streams.openFd path (oWrOnly ||| oCreate ||| oTruncate) (some fresh) true).2.table := by
    rw [hview]
  obtain ⟨hpath, hi, ⟨text, _, hopened⟩ | ⟨_, hnone, _⟩⟩ := openFd_ret hret
  . have hstream := (congrFun htable i).trans hopened
    exact ⟨hpath, hi, hok, ⟨_, hstream, rfl, rfl, rfl, rfl, rfl, rfl⟩, Nat.le_refl _⟩
  . exact absurd hnone (loadedText_readable h.fs hread)

theorem Drafting.close {t : Draft} (hok : st.Ok) (h : Drafting st.streams i path t)
    : (st.close i.val).2.Ok ∧ (st.close i.val).2.fs = (fsWriteFile st.fs path t.1).2 := by
  obtain ⟨s, htable, htext, hcon, hpath, hwritable, _, hdirty⟩ := h.stream
  obtain rfl := htext
  obtain ⟨hview, hclosed⟩ := close_matches hok i.val
  have hfs : (st.close i.val).2.fs = (st.streams.close i.val).2.fs := by
    rw [hview]
    rfl
  refine ⟨hclosed, ?_⟩
  rw [hfs]
  unfold Streams.close
  rw [fdEntry_val]
  dsimp only
  rw [htable]
  dsimp only
  rw [if_neg (not_not_intro hcon), flush_stored htable hpath ⟨hcon, hdirty, hwritable⟩]
  rfl

theorem table_pos (h : st.Ok) (htable : st.streams.table i = some s) : s.pos ≤ s.content.length := by
  by_cases hused : (st.fdt i).used = true
  . rw [table_used hused] at htable
    cases htable
    rw [text_length]
    exact (h.bounds i).1
  . rw [table_unused hused] at htable
    contradiction

theorem take_next {count : Nat} (hpos : s.pos ≤ s.content.length) (hpushed : s.pushed = none)
    : s.take count = s.next count := by
  unfold OpenStream.take
  cases count with
  | zero => exact (next_zero hpos).symm
  | succ count => rw [hpushed]

theorem reads_flatten {counts : List Nat} (h : st.Ok) (htable : st.streams.table i = some s) (hcon : s.console = .none)
    (hread : s.readable = true) (hpushed : s.pushed = none)
    : ((trace FdCall.exec (counts.map (FdCall.read i.val)) st).1.map FdResult.bytes).flatten
      = (s.content.drop s.pos).take counts.sum := by
  induction counts generalizing st s with
  | nil => rfl
  | cons count counts ih =>
    obtain ⟨hview, hok⟩ := read_matches h i.val count
    have hpos := table_pos h htable
    have hspec : (st.streams.read i.val count).1.bytes = (s.next count).1
        ∧ (st.streams.read i.val count).2.table i = some (s.next count).2 := by
      unfold Streams.read Streams.take
      rw [fdEntry_val]
      dsimp only
      rw [htable]
      dsimp only
      rw [if_neg (not_not_intro hread), if_neg (not_not_intro hcon), take_next hpos hpushed]
      exact ⟨rfl, table_set⟩
    rw [hview] at hspec
    have hrest := ih hok hspec.2 hcon hread hpushed
    have hnext : (s.next count).2.content.drop (s.next count).2.pos = (s.content.drop s.pos).drop count := by
      unfold OpenStream.next
      dsimp only
      rw [List.drop_drop]
      by_cases hle : s.pos + count ≤ s.content.length
      . rw [Nat.min_eq_left hle]
      . rw [Nat.min_eq_right (by omega), List.drop_length, List.drop_of_length_le (by omega)]
    rw [hnext] at hrest
    rw [List.sum_cons, List.take_add, ← hrest, ← show (s.next count).1 = (s.content.drop s.pos).take count from rfl,
      ← hspec.1]
    rfl

end Opened

section RoundTrip

variable {st : FdState} {i : Fin tanjaMaxFds} {path : CStr} {t : Draft} {calls : List FdCall}

theorem drafting_run (h : st.Ok) (hi : 3 ≤ i.val) (hdraft : Drafting st.streams i path t)
    (hedits : ∀ c ∈ calls, c.Edits i) (hfits : AllFine FdCall.exec FdCall.Fits calls st)
    : (trace FdCall.exec calls st).2.Ok
      ∧ Drafting (trace FdCall.exec calls st).2.streams i path (calls.foldl (FdCall.edit i) t) := by
  induction calls generalizing st t with
  | nil => exact ⟨h, hdraft⟩
  | cons c calls ih =>
    obtain ⟨full, hfull, hview, hok⟩ := call_matches c h hfits.1
    have hstep := hdraft.step hi (hedits c List.mem_cons_self) hfull
    rw [hview] at hstep
    exact ih hok hstep (fun c' hc' => hedits c' (List.mem_cons_of_mem c hc')) hfits.2

theorem stored_then_read {closed : FdState} {j : Fin tanjaMaxFds} {m : Option Mem} {named : Bool} (h : st.Ok)
    (hdraft : Drafting st.streams i path t) (hstored : (fsWriteFile st.fs path t.1).1 = 0)
    (hclose : closed = (st.close i.val).2) (hagain : (closed.openFd path 0 m named).1.ret = j.val)
    (counts : List Nat)
    : ((trace FdCall.exec (counts.map (FdCall.read j.val)) (closed.openFd path 0 m named).2).1.map
        FdResult.bytes).flatten = t.1.take counts.sum := by
  obtain ⟨hclosed, hfs⟩ := hdraft.close h
  rw [← hclose] at hclosed hfs
  obtain ⟨hview, hok⟩ := @openFd_matches closed path m hclosed 0 named
  have hret : (closed.streams.openFd path 0 m named).1.ret = j.val := by
    rw [hview]
    exact hagain
  obtain ⟨hpath, _, ⟨text, hload, htable⟩ | ⟨hcreate, _⟩⟩ := openFd_ret hret
  . have hcwd : closed.fs.cwd = st.fs.cwd := by
      rw [hfs]
      exact (SameDirs.writeFile st.fs path t.1).cwd
    have hcontent : (closed.fs.files (absPath closed.fs.cwd.str path)).map FileView.bytes = some t.1 := by
      rw [hcwd, hfs]
      exact (fsWriteFile_replaced h.fs hstored).content
    have hbytes : text = t.1 := loadedText_bytes hpath hcontent hload
    rw [hview] at htable
    rw [reads_flatten hok htable rfl rfl rfl, ← hbytes]
    rfl
  . exact absurd rfl hcreate

def drafted (st : FdState) (path : CStr) (fresh : Mem) (calls : List FdCall) : FdState :=
  (trace FdCall.exec calls (st.fopen path [119] (some fresh) true).2).2

/--
A program opens a file with `fopen` and "w", and writes to it and moves in it as it likes while it uses other
descriptors as well. If the file can be stored when it is closed, reading it gives the text that has been written.
-/
theorem written_then_read (fs : FsState) (keys : Nat → Int) (before : List FdCall) (hfs : ContentInv fs)
    (hbefore : AllFine FdCall.exec FdCall.Fits before (FdState.start fs keys)) (path : CStr) (fresh : Mem)
    (m : Option Mem) (named : Bool) (i j : Fin tanjaMaxFds) (calls : List FdCall) (counts : List Nat)
    : ∀ st, st = (trace FdCall.exec before (FdState.start fs keys)).2 →
      (∀ k, fileIndex st.fs (absPath st.fs.cwd.str path) = some k → FileReadable st.fs k) →
      (st.fopen path [119] (some fresh) true).1.ret = i.val →
      (∀ c ∈ calls, c.Edits i) → AllFine FdCall.exec FdCall.Fits calls (st.fopen path [119] (some fresh) true).2 →
      (fsWriteFile (drafted st path fresh calls).fs path (draftText i calls)).1 = 0 →
      ∀ closed, closed = ((drafted st path fresh calls).close i.val).2 →
      (closed.openFd path 0 m named).1.ret = j.val →
      ((trace FdCall.exec (counts.map (FdCall.read j.val)) (closed.openFd path 0 m named).2).1.map
          FdResult.bytes).flatten
        = (draftText i calls).take counts.sum := by
  intro st hst hread hopen hedits hfits hstored closed hclosed hagain
  have hok : st.Ok := by
    rw [hst]
    exact (fd_simulates.run (start_ok keys hfs) hbefore).1
  obtain ⟨_, hi, hopened, hdraft⟩ := open_drafting hok hread hopen
  obtain ⟨hdone, hfinal⟩ := drafting_run hopened hi hdraft hedits hfits
  exact stored_then_read hdone hfinal hstored hclosed hagain counts

theorem noted_contentInv : ContentInv { noted with fsCurUid := 0 } :=
  ContentInv.run (show (FsState.zeroed 64).fpoolBytes = fsSetPool 64 by decide) (noted_run (fun _ _ h => h)) 0

theorem written_then_read_note
    : ((trace FdCall.exec [.read 3 1, .read 3 5]
        ((((drafted noteStart copyPath (fun _ => 0) noteDraft).close 3).2).openFd copyPath 0 (some fun _ => 0)
          false).2).1.map FdResult.bytes).flatten = [9, 8] := by
  have hopen : (noteStart.fopen copyPath [119] (some fun _ => 0) true).1.ret = 3 := by decide +kernel
  have hstored : (fsWriteFile (drafted noteStart copyPath (fun _ => 0) noteDraft).fs copyPath [9, 8]).1 = 0 := by
    decide +kernel
  have hagain : ((((drafted noteStart copyPath (fun _ => 0) noteDraft).close 3).2).openFd copyPath 0
      (some fun _ => 0) false).1.ret = 3 := by
    decide +kernel
  have hedits : ∀ c ∈ noteDraft, c.Edits 3 := by
    intro c hc
    unfold noteDraft at hc
    rw [List.mem_cons, List.mem_cons, List.mem_singleton] at hc
    obtain rfl | rfl | rfl := hc
    . exact .writes rfl
    . exact .seeks rfl 0 0
    . exact .writes rfl
  exact written_then_read _ (fun _ => 0) [] noted_contentInv trivial copyPath (fun _ => 0) (some fun _ => 0) false 3 3
    noteDraft [1, 5] noteStart rfl (fun _ _ => rfl) hopen hedits noteDraft_fine hstored _ rfl hagain

end RoundTrip

section Unreadable

variable {a : Streams} {i : Fin tanjaMaxFds} {full : Bool}

def FdCall.Closes (i : Fin tanjaMaxFds) : FdCall → Prop
  | .close fd => fdEntry fd = some i
  | .fclose f => f = some i
  | _ => False

theorem outcome_use {c : FdCall} (hi : 3 ≤ i.val) (hc : ¬c.Closes i) : SameUse i a (c.outcome full a).2 := by
  have hleaves : c.Leaves i → SameUse i a (c.outcome full a).2 := by
    intro h s hs
    refine ⟨s, ?_, rfl⟩
    rw [outcome_leaves hi (by rw [hs]; rfl) h, hs]
  have hkeeps : c.Keeps → SameUse i a (c.outcome full a).2 := fun h => (outcome_touches h).use i
  cases c with
  | openFd path flags m named => exact hleaves ⟨nofun, nofun⟩
  | fopen path mode m named => exact hleaves ⟨nofun, nofun⟩
  | close fd => exact hleaves ⟨hc, nofun⟩
  | fclose f => exact hleaves ⟨hc, nofun⟩
  | fflush f =>
    cases f with
    | none => exact flush_all_use _
    | some j => exact hkeeps trivial
  | _ => exact hkeeps trivial

theorem use_run {st : FdState} {calls : List FdCall} (h : st.Ok) (hi : 3 ≤ i.val)
    (hfits : AllFine FdCall.exec FdCall.Fits calls st) (hopen : ∀ c ∈ calls, ¬c.Closes i)
    : (trace FdCall.exec calls st).2.Ok ∧ SameUse i st.streams (trace FdCall.exec calls st).2.streams := by
  induction calls generalizing st with
  | nil => exact ⟨h, .refl i _⟩
  | cons c calls ih =>
    obtain ⟨full, _, hview, hok⟩ := call_matches c h hfits.1
    have hstep := @outcome_use st.streams i full c hi (hopen c List.mem_cons_self)
    rw [hview] at hstep
    obtain ⟨hdone, hrest⟩ := ih hok hfits.2 (fun c' hc' => hopen c' (List.mem_cons_of_mem c hc'))
    exact ⟨hdone, hstep.trans hrest⟩

theorem fopenFlags_writeOnly (mode : Bytes) : FdState.fopenFlags mode &&& oWrOnly ≠ 0 := by
  unfold FdState.fopenFlags
  dsimp only
  split
  . split
    . split <;> decide
    . split
      . split <;> decide
      . split <;> decide
  . split
    . decide
    . split <;> decide

theorem fopen_unreadable {st : FdState} {path : CStr} {mode : Bytes} {m : Option Mem} {named : Bool} (h : st.Ok)
    (hret : (st.fopen path mode m named).1.ret = i.val)
    : 3 ≤ i.val ∧ (st.fopen path mode m named).2.Ok
      ∧ ∃ s, (st.fopen path mode m named).2.streams.table i = some s ∧ s.readable = false := by
  unfold FdState.fopen at hret ⊢
  by_cases hmode : mode = []
  . rw [if_pos hmode] at hret
    have hneg : (-1 : Int) = i.val := hret
    omega
  . rw [if_neg hmode] at hret ⊢
    obtain ⟨hview, hok⟩ := @openFd_matches st path m h (FdState.fopenFlags mode) named
    have hwriteOnly : decide (FdState.fopenFlags mode &&& oWrOnly = 0) = false :=
      decide_eq_false (fopenFlags_writeOnly mode)
    have hspec : (st.streams.openFd path (FdState.fopenFlags mode) m named).1.ret = i.val := by
      rw [hview]
      exact hret
    obtain ⟨_, hi, ⟨text, _, htable⟩ | ⟨_, _, htable⟩⟩ := openFd_ret hspec
    . rw [hview] at htable
      exact ⟨hi, hok, _, htable, hwriteOnly⟩
    . rw [hview] at htable
      exact ⟨hi, hok, _, htable, hwriteOnly⟩

/--
`fopen` takes 1 for the flag of reading. So `fread` and `read` fail on every stream that it opens, in any mode,
for as long as the stream is open.
-/
theorem fopen_never_reads (fs : FsState) (keys : Nat → Int) (before calls : List FdCall) (hfs : ContentInv fs)
    (hbefore : AllFine FdCall.exec FdCall.Fits before (FdState.start fs keys)) (path : CStr) (mode : Bytes)
    (m : Option Mem) (named : Bool) (i : Fin tanjaMaxFds)
    : ∀ opened, opened = (trace FdCall.exec before (FdState.start fs keys)).2.fopen path mode m named →
      opened.1.ret = i.val → AllFine FdCall.exec FdCall.Fits calls opened.2 → (∀ c ∈ calls, ¬c.Closes i) →
      ∀ st, st = (trace FdCall.exec calls opened.2).2 →
        (∀ size nmemb, st.fread size nmemb (some i) = (⟨0, []⟩, st)) ∧ ∀ count, (st.read i.val count).1 = ⟨-1, []⟩ := by
  rintro opened rfl hret hfits hopen st rfl
  have hst := (fd_simulates.run (start_ok keys hfs) hbefore).1
  generalize (trace FdCall.exec before (FdState.start fs keys)).2 = st₀ at hst hret hfits
  obtain ⟨hi, hok, s, htable, hunread⟩ := fopen_unreadable hst hret
  obtain ⟨_, huse⟩ := use_run hok hi hfits hopen
  obtain ⟨s', htable', hsame⟩ := huse s htable
  generalize (trace FdCall.exec calls (st₀.fopen path mode m named).2).2 = st at htable'
  have hclosed : ¬(st.fdt i).used = true ∨ ¬(st.fdt i).readable = true := by
    by_cases hused : (st.fdt i).used = true
    . rw [table_used hused] at htable'
      obtain rfl := Option.some.inj htable'
      have hreadable : (st.fdt i).readable = s.readable := hsame
      right
      rw [hreadable, hunread]
      decide
    . exact .inl hused
  constructor
  . intro size nmemb
    unfold FdState.fread
    exact if_pos hclosed
  . intro count
    unfold FdState.read
    rw [fdEntry_val]
    dsimp only
    rw [if_pos hclosed]
    rfl

theorem fopen_never_reads_note
    : ((noteStart.fopen notePath [114] (some fun _ => 0) true).2.fread 1 1 (some 3)).1 = ⟨0, []⟩ := by
  have hopen : (noteStart.fopen notePath [114] (some fun _ => 0) true).1.ret = 3 := by decide +kernel
  exact congrArg Prod.fst ((fopen_never_reads _ (fun _ => 0) [] [] noted_contentInv trivial notePath [114]
    (some fun _ => 0) true 3 _ rfl hopen trivial nofun _ rfl).1 1 1)

end Unreadable

end TanjaOS
