import TanjaOS.Fs.HomeTree

/-!
The factory archive: a `ustar` file with what ships in the root directory. Seeding makes what is
missing and leaves alone what is there.
-/

open Lib

namespace TanjaOS

def tarOctalStep (v : UInt32) (c : Byte) : UInt32 :=
  if 48 ≤ c ∧ c ≤ 55 then (v <<< 3) + (c - 48).toUInt32 else v

def tarOctal (p : Bytes) : UInt32 :=
  p.foldl tarOctalStep 0

/--
`i` characters have been read. A `.` in the first place and a `/` in the second one are left out,
whatever stands next to them.
-/
def homeCopyLoop : Nat → Bytes → Bytes → Bytes
  | _, [], out => out
  | i, c :: name, out =>
    if c = 0 ∨ 255 ≤ out.length then
      out
    else if (i = 0 ∧ c = dot) ∨ (i = 1 ∧ c = slash) then
      homeCopyLoop (i + 1) name out
    else
      homeCopyLoop (i + 1) name (out ++ [c])

def homeCopyPath (name : Bytes) : Bytes :=
  let out := homeCopyLoop 0 name [slash]
  if 1 < out.length ∧ out.getLast? = some slash then out.dropLast else out

/--
`/bin`
-/
def binPath : Bytes :=
  [47, 98, 105, 110]

/--
Make the file or directory of an entry if there is none. `data` are the `size` bytes behind the header.
The number counts what has failed.
-/
def seedEntry (path : Bytes) (type : Byte) (size : Nat) (data : Bytes) (st : FsState × Nat)
    : FsState × Nat :=
  let (s, skipped) := st
  if type = 53 then
    (if fsDirectoryExists s path then s else (fsCreateDirectory s path).2, skipped)
  else if type = 48 ∨ type = 0 then
    if fsFileExists s path then
      (s, skipped)
    else if maxFileData - 1 < size then
      (s, skipped)
    else
      let (rc, s) := fsCreateFile s path
      if rc ≠ 0 then
        (s, skipped + 1)
      else
        let (rc, s) := fsWriteFile s path data
        let skipped := if rc ≠ 0 then skipped + 1 else skipped
        if path.take 4 = binPath ∧ (path[4]? = some slash ∨ path[4]? = none) then
          ((fsChmod s path 0o755).2, skipped)
        else
          (s, skipped)
  else
    (s, skipped)

def seedWalk (tar : Bytes) (st : FsState × Nat) : FsState × Nat :=
  if h : 512 ≤ tar.length then
    let head := tar.take 512
    if head.all (· = 0) then
      st
    else
      let size := tarOctal ((head.drop 124).take 12)
      let path := homeCopyPath (head.take 100)
      if path.length ≤ 1 then
        seedWalk (tar.drop 512) st
      else
        let st := seedEntry path (head.getD 156 0) size.toNat ((tar.drop 512).take size.toNat) st
        let blocks := ((size + 511) / 512).toNat
        if tar.length < 512 + blocks * 512 then
          st
        else
          seedWalk (tar.drop (512 + blocks * 512)) st
  else
    st
termination_by tar.length
decreasing_by
  . rw [List.length_drop]
    omega
  . rw [List.length_drop]
    omega

/--
`/home` and `/root`
-/
def homeDir : Bytes :=
  [47, 104, 111, 109, 101]

def rootDir : Bytes :=
  [47, 114, 111, 111, 116]

def fsSeedHome (tar : Bytes) (s : FsState) : FsState × Nat :=
  let (s, skipped) := seedWalk tar (s, 0)
  let s := if fsDirectoryExists s homeDir then s else (fsCreateDirectory s homeDir).2
  ((fsCreateHomeTree s rootDir 0).2, skipped)

section Spec

def octalValue (digits : Bytes) : Nat :=
  digits.foldl (fun v (d : Byte) => v * 8 + (d - 48).toNat) 0

structure Member where
  name : Bytes
  isDir : Bool
  data : Bytes

namespace Member

/--
The name without `./` in front and `/` at the end, below the root.
-/
def path (m : Member) : Bytes :=
  let rest := if [dot, slash] <+: m.name then m.name.drop 2 else m.name
  slash :: (if rest.getLast? = some slash then rest.dropLast else rest)

/--
What the header of a member says. The size is in octal, with NULs or spaces after it.
-/
structure Header (m : Member) (head : Bytes) : Prop where
  length : head.length = 512
  name : (head.take 100).takeWhile (· ≠ 0) = m.name
  size : ∃ digits pad : Bytes, (head.drop 124).take 12 = digits ++ pad
    ∧ (∀ d ∈ digits, 48 ≤ d ∧ d ≤ 55) ∧ (∀ c ∈ pad, c = 0 ∨ c = 32) ∧ octalValue digits = m.data.length
  type : if m.isDir then head.getD 156 0 = 53 else head.getD 156 0 = 48 ∨ head.getD 156 0 = 0

/--
Relative names of at most 99 characters, and files of a size that the filesystem has room for.
-/
structure Ok (m : Member) : Prop where
  ne_nil : m.name ≠ []
  relative : m.name.head? ≠ some slash
  short : m.name.length ≤ 99
  no_nul : 0 ∉ m.name
  size : m.data.length < maxFileData
  dir : m.isDir → m.data = []
  root : m.path = [slash] ∨ m.name = [dot] → m.isDir

end Member

/--
`tar` is an archive of the members: a header, the bytes and zeros up to a multiple of 512 for each,
and then an empty block or nothing.
-/
inductive Archive : List Member → Bytes → Prop where
  | nil (tar : Bytes) (hend : tar.length < 512 ∨ (tar.take 512).all (· = 0)) : Archive [] tar
  | cons {m : Member} {ms : List Member} {head pad tar : Bytes} (hok : m.Ok) (hhead : m.Header head)
    (hpad : m.data.length + pad.length = (m.data.length + 511) / 512 * 512) (hrest : Archive ms tar)
    : Archive (m :: ms) (head ++ (m.data ++ pad) ++ tar)

end Spec

/--
A name that is mapped as it should be: it begins with `./`, or it has no `.` in the first and no `/` in
the second place, but for a directory of one letter.
-/
def PlainName (name : Bytes) : Prop :=
  [dot, slash] <+: name ∨ name.head? ≠ some dot ∧ (name[1]? = some slash → name.length = 2)

section Octal

theorem tarOctal_step {v : UInt32} {n : Nat} {d : Byte} (hv : v.toNat = n % 2 ^ 32)
    : ((v <<< 3) + (d - 48).toUInt32).toNat = (n * 8 + (d - 48).toNat) % 2 ^ 32 := by
  rw [UInt32.toNat_add, UInt32.toNat_shiftLeft, UInt8.toNat_toUInt32, Nat.shiftLeft_eq, hv,
    show (3 : UInt32).toNat % 32 = 3 by rfl]
  omega

theorem tarOctal_digits {digits : Bytes} (hdigits : ∀ d ∈ digits, 48 ≤ d ∧ d ≤ 55) {v : UInt32}
    {n : Nat} (hv : v.toNat = n % 2 ^ 32)
    : (digits.foldl tarOctalStep v).toNat
      = digits.foldl (fun v (d : Byte) => v * 8 + (d - 48).toNat) n % 2 ^ 32 := by
  induction digits generalizing v n with
  | nil => exact hv
  | cons d digits ih =>
    rw [List.foldl_cons, List.foldl_cons, tarOctalStep, if_pos (hdigits d (by simp))]
    exact ih (fun d hd => hdigits d (List.mem_cons_of_mem _ hd)) (tarOctal_step hv)

theorem tarOctal_pad {pad : Bytes} (hpad : ∀ c ∈ pad, c = 0 ∨ c = 32) (v : UInt32)
    : pad.foldl tarOctalStep v = v := by
  induction pad with
  | nil => rfl
  | cons c pad ih =>
    have hc : ¬(48 ≤ c ∧ c ≤ 55) := by
      obtain rfl | rfl := hpad c (by simp)
      . decide
      . decide
    rw [List.foldl_cons, tarOctalStep, if_neg hc]
    exact ih fun c hc => hpad c (List.mem_cons_of_mem _ hc)

theorem Member.Header.size_eq {m : Member} {head : Bytes} (hok : m.Ok) (hhead : m.Header head)
    : (tarOctal ((head.drop 124).take 12)).toNat = m.data.length := by
  obtain ⟨digits, pad, hfield, hdigits, hpad, hvalue⟩ := hhead.size
  have hsize := hok.size
  have hmax : maxFileData = 33554432 := rfl
  unfold tarOctal
  rw [hfield, List.foldl_append, tarOctal_pad hpad, tarOctal_digits (n := 0) hdigits rfl]
  unfold octalValue at hvalue
  rw [hvalue, Nat.mod_eq_of_lt (by omega)]

end Octal

section Names

variable {name rest out : Bytes}

theorem homeCopyLoop_rest {i : Nat} (hi : 2 ≤ i) (hnul : 0 ∉ name) (hlen : out.length + name.length ≤ 255)
    : homeCopyLoop i (name ++ 0 :: rest) out = out ++ name := by
  induction name generalizing i out with
  | nil => simp [homeCopyLoop]
  | cons c name ih =>
    rw [List.mem_cons, not_or] at hnul
    rw [List.length_cons] at hlen
    rw [List.cons_append, homeCopyLoop, if_neg, if_neg (by omega),
      ih (by omega) hnul.2 (by rw [List.length_append, List.length_singleton]; omega)]
    . simp
    . rintro (hc | hc)
      . exact hnul.1 hc.symm
      . omega

theorem dropLast_slash (out : Bytes) (hne : out ≠ [])
    : (if 1 < (slash :: out).length ∧ (slash :: out).getLast? = some slash then (slash :: out).dropLast
        else slash :: out)
      = slash :: (if out.getLast? = some slash then out.dropLast else out) := by
  rw [List.getLast?_cons_of_ne_nil hne, List.dropLast_cons_of_ne_nil hne]
  have hpos := List.length_pos_of_ne_nil hne
  split
  . next h => rw [if_pos h.2]
  . next h =>
    rw [if_neg]
    intro hlast
    exact h ⟨by rw [List.length_cons]; omega, hlast⟩

theorem homeCopyPath_plain {m : Member} (hok : m.Ok) (hplain : PlainName m.name)
    : homeCopyPath (m.name ++ 0 :: rest) = m.path := by
  have hshort := hok.short
  have hnul := hok.no_nul
  unfold homeCopyPath Member.path
  dsimp only
  cases hname : m.name with
  | nil => exact absurd hname hok.ne_nil
  | cons a name =>
    rw [hname] at hplain hshort hnul
    rw [List.length_cons] at hshort
    rw [List.mem_cons, not_or] at hnul
    have ha : ¬(a = 0 ∨ 255 ≤ ([slash] : Bytes).length) := by
      rintro (h | h)
      . exact hnul.1 h.symm
      . simp at h
    have hrel := hok.relative
    rw [hname, List.head?_cons, ne_eq, Option.some.injEq] at hrel
    cases name with
    | nil =>
      have hdot : a ≠ dot := by
        obtain h | h := hplain
        . simpa using h.length_le
        . simpa using h.1
      have hlead : ¬[dot, slash] <+: [a] := fun h => by simpa using h.length_le
      have hloop : homeCopyLoop 0 ([a] ++ 0 :: rest) [slash] = [slash, a] := by
        rw [List.singleton_append, homeCopyLoop, if_neg ha, if_neg (by simp [hdot]), homeCopyLoop,
          if_pos (Or.inl rfl)]
        rfl
      rw [hloop, if_neg hlead]
      exact dropLast_slash [a] (List.cons_ne_nil _ _)
    | cons b name =>
      rw [List.mem_cons, not_or] at hnul
      have hb : ∀ out : Bytes, out.length < 255 → ¬(b = 0 ∨ 255 ≤ out.length) := by
        rintro out hout (h | h)
        . exact hnul.2.1 h.symm
        . omega
      rw [List.length_cons] at hshort
      by_cases hdot : a = dot
      . have hslash : b = slash := by
          obtain h | h := hplain
          . rw [List.cons_prefix_cons, List.cons_prefix_cons] at h
            exact h.2.1.symm
          . exact absurd (congrArg some hdot) h.1
        have hloop : homeCopyLoop 0 (a :: b :: name ++ 0 :: rest) [slash] = slash :: name := by
          rw [List.cons_append, List.cons_append, homeCopyLoop, if_neg ha, if_pos (Or.inl ⟨rfl, hdot⟩),
            homeCopyLoop, if_neg (hb _ (by simp)), if_pos (Or.inr ⟨rfl, hslash⟩),
            homeCopyLoop_rest (Nat.le_refl 2) hnul.2.2 (by simp; omega)]
          rfl
        have hlead : [dot, slash] <+: a :: b :: name := by
          rw [hdot, hslash]
          exact ⟨name, rfl⟩
        rw [hloop, if_pos hlead]
        by_cases hempty : name = []
        . subst hempty
          rfl
        . exact dropLast_slash name hempty
      . have hlead : ¬[dot, slash] <+: a :: b :: name := by
          rw [List.cons_prefix_cons]
          exact fun h => hdot h.1.symm
        obtain hplain | ⟨_, hplain⟩ := hplain
        . exact absurd hplain hlead
        . by_cases hslash : b = slash
          . have hlen := hplain (by simp [hslash])
            obtain rfl : name = [] := by simpa using hlen
            have hloop : homeCopyLoop 0 (a :: b :: [] ++ 0 :: rest) [slash] = [slash, a] := by
              rw [List.cons_append, List.cons_append, homeCopyLoop, if_neg ha, if_neg (by simp [hdot]),
                homeCopyLoop, if_neg (hb _ (by simp)), if_pos (Or.inr ⟨rfl, hslash⟩), List.nil_append,
                homeCopyLoop, if_pos (Or.inl rfl)]
              rfl
            rw [hloop, if_neg hlead, hslash]
            simp [hrel]
          . have hloop : homeCopyLoop 0 (a :: b :: name ++ 0 :: rest) [slash] = slash :: a :: b :: name := by
              rw [List.cons_append, List.cons_append, homeCopyLoop, if_neg ha, if_neg (by simp [hdot]),
                homeCopyLoop, if_neg (hb _ (by simp)), if_neg (by simp [hslash]),
                homeCopyLoop_rest (Nat.le_refl 2) hnul.2.2 (by simp; omega)]
              rfl
            rw [hloop, if_neg hlead]
            exact dropLast_slash (a :: b :: name) (List.cons_ne_nil _ _)

theorem homeCopyPath_other {m : Member} (hok : m.Ok) (hplain : ¬PlainName m.name)
    : (∃ tail, m.name = dot :: tail ∧ tail.head? ≠ some slash
        ∧ homeCopyPath (m.name ++ 0 :: rest)
          = slash :: if tail.getLast? = some slash then tail.dropLast else tail)
      ∨ ∃ a tail, tail ≠ [] ∧ m.name = a :: slash :: tail
        ∧ homeCopyPath (m.name ++ 0 :: rest)
          = slash :: if (a :: tail).getLast? = some slash then (a :: tail).dropLast else a :: tail := by
  have hshort := hok.short
  have hnul := hok.no_nul
  unfold PlainName at hplain
  rw [not_or] at hplain
  obtain ⟨hlead, hrest⟩ := hplain
  unfold homeCopyPath
  dsimp only
  obtain ⟨a, name, hname⟩ := List.exists_cons_of_ne_nil hok.ne_nil
  rw [hname] at hrest hshort hnul hlead ⊢
  rw [List.length_cons] at hshort
  rw [List.mem_cons, not_or] at hnul
  have ha : ¬(a = 0 ∨ 255 ≤ ([slash] : Bytes).length) := by
    rintro (h | h)
    . exact hnul.1 h.symm
    . simp at h
  cases name with
  | nil =>
    obtain rfl : a = dot := by simpa using hrest
    refine Or.inl ⟨[], rfl, by simp, ?_⟩
    rw [List.singleton_append, homeCopyLoop, if_neg ha, if_pos (Or.inl ⟨rfl, rfl⟩), homeCopyLoop,
      if_pos (Or.inl rfl)]
    rfl
  | cons b name =>
    rw [List.mem_cons, not_or] at hnul
    rw [List.length_cons] at hshort
    have hb : ∀ out : Bytes, out.length < 255 → ¬(b = 0 ∨ 255 ≤ out.length) := by
      rintro out hout (h | h)
      . exact hnul.2.1 h.symm
      . omega
    by_cases hdot : a = dot
    . subst hdot
      have hslash : b ≠ slash := by
        rintro rfl
        exact hlead ⟨name, rfl⟩
      have hloop : homeCopyLoop 0 (dot :: b :: name ++ 0 :: rest) [slash] = slash :: b :: name := by
        rw [List.cons_append, List.cons_append, homeCopyLoop, if_neg ha, if_pos (Or.inl ⟨rfl, rfl⟩),
          homeCopyLoop, if_neg (hb _ (by simp)), if_neg (by simp [hslash]),
          homeCopyLoop_rest (Nat.le_refl 2) hnul.2.2 (by simp; omega)]
        rfl
      refine Or.inl ⟨b :: name, rfl, by simp [hslash], ?_⟩
      rw [hloop]
      exact dropLast_slash _ (List.cons_ne_nil _ _)
    . obtain ⟨rfl, hne⟩ : b = slash ∧ name ≠ [] := by
        simpa [hdot, List.length_eq_zero_iff] using hrest
      have hloop : homeCopyLoop 0 (a :: slash :: name ++ 0 :: rest) [slash] = slash :: a :: name := by
        rw [List.cons_append, List.cons_append, homeCopyLoop, if_neg ha, if_neg (by simp [hdot]),
          homeCopyLoop, if_neg (hb _ (by simp)), if_pos (Or.inr ⟨rfl, rfl⟩),
          homeCopyLoop_rest (Nat.le_refl 2) hnul.2.2 (by simp; omega)]
        rfl
      refine Or.inr ⟨a, name, hne, rfl, ?_⟩
      rw [hloop]
      exact dropLast_slash _ (List.cons_ne_nil _ _)

theorem homeCopyPath_root {m : Member} (hok : m.Ok)
    (hlen : (homeCopyPath (m.name ++ 0 :: rest)).length ≤ 1)
    : m.isDir := by
  by_cases hplain : PlainName m.name
  . rw [homeCopyPath_plain hok hplain] at hlen
    have htail : m.path.tail = [] := by
      apply List.eq_nil_of_length_eq_zero
      rw [List.length_tail]
      omega
    apply hok.root
    rw [show m.path = slash :: m.path.tail by rfl, htail]
    exact Or.inl rfl
  . obtain ⟨tail, hname, hhead, heq⟩ | ⟨a, tail, hne, hname, heq⟩ :=
      @homeCopyPath_other rest _ hok hplain
    . apply hok.root
      rw [heq, List.length_cons] at hlen
      have hnil : tail = [] := by
        by_contra hne
        have hpos := List.length_pos_of_ne_nil hne
        split at hlen
        . next hlast =>
          rw [List.length_dropLast] at hlen
          obtain ⟨c, rfl⟩ := List.length_eq_one_iff.mp (show tail.length = 1 by omega)
          exact hhead hlast
        . omega
      rw [hname, hnil]
      exact Or.inr rfl
    . have hpos := List.length_pos_of_ne_nil hne
      rw [heq, List.length_cons] at hlen
      split at hlen
      . rw [List.length_dropLast, List.length_cons] at hlen
        omega
      . rw [List.length_cons] at hlen
        omega

theorem homeCopyPath_nul (hnul : 0 ∉ name) : homeCopyPath (name ++ 0 :: rest) = homeCopyPath name := by
  have hloop : ∀ i out, homeCopyLoop i (name ++ 0 :: rest) out = homeCopyLoop i name out := by
    induction name with
    | nil => simp [homeCopyLoop]
    | cons c name ih =>
      rw [List.mem_cons, not_or] at hnul
      intro i out
      rw [List.cons_append, homeCopyLoop, homeCopyLoop, ih hnul.2, ih hnul.2]
  unfold homeCopyPath
  rw [hloop]

theorem homeCopyLoop_no_nul {i : Nat} (hout : 0 ∉ out) : 0 ∉ homeCopyLoop i name out := by
  induction name generalizing i out with
  | nil => exact hout
  | cons c name ih =>
    unfold homeCopyLoop
    split
    . exact hout
    . next hstop =>
      split
      . exact ih hout
      . apply ih
        rw [List.mem_append, List.mem_singleton, not_or]
        exact ⟨hout, fun hc => hstop (Or.inl hc.symm)⟩

theorem homeCopyPath_no_nul : 0 ∉ homeCopyPath name := by
  have hloop : 0 ∉ homeCopyLoop 0 name [slash] := homeCopyLoop_no_nul (by decide)
  unfold homeCopyPath
  dsimp only
  split
  . exact fun h => hloop (List.mem_of_mem_dropLast h)
  . exact hloop

theorem Member.plain_of_root {m : Member} (hok : m.Ok) (hroot : m.path = [slash]) : PlainName m.name := by
  by_contra hplain
  unfold PlainName at hplain
  rw [not_or] at hplain
  unfold Member.path at hroot
  dsimp only at hroot
  rw [if_neg hplain.1] at hroot
  have hrest := (List.cons.inj hroot).2
  obtain ⟨c, name, hname⟩ := List.exists_cons_of_ne_nil hok.ne_nil
  have hrel := hok.relative
  rw [hname] at hrest hrel
  split at hrest
  . next hlast =>
    have hlen := congrArg List.length hrest
    rw [List.length_dropLast, List.length_cons, List.length_nil] at hlen
    obtain rfl : name = [] := List.eq_nil_of_length_eq_zero (by omega)
    exact hrel hlast
  . contradiction

end Names

/--
The bytes of the file `x`.
-/
def bytesAt (s : FsState) (x : Bytes) : Option Bytes :=
  (s.files x).map FileView.bytes

def seedGrant (P : Bytes → Prop) : Grant :=
  { Grant.any with create := P, dropDir := False, wild := False }

/--
`t` has no files and directories but those of `s` and what `P` says.
-/
structure SeededOnly (P : Bytes → Prop) (s t : FsState) : Prop where
  inv : ContentInv t
  cwd : t.cwd = s.cwd
  new : ∀ x, t.UsedFile x ∨ t.UsedDir x → s.UsedFile x ∨ s.UsedDir x ∨ P x

namespace SeededOnly

variable {P Q : Bytes → Prop} {s t u : FsState}

theorem refl (hinv : ContentInv s) : SeededOnly P s s where
  inv := hinv
  cwd := rfl
  new _ h := h.imp id Or.inl

theorem trans (h : SeededOnly P s t) (h' : SeededOnly P t u) : SeededOnly P s u where
  inv := h'.inv
  cwd := h'.cwd.trans h.cwd
  new x hx := by
    obtain hx | hx | hx := h'.new x hx
    . exact h.new x (Or.inl hx)
    . exact h.new x (Or.inr hx)
    . exact Or.inr (Or.inr hx)

theorem mono (h : SeededOnly P s t) (himp : ∀ x, P x → Q x) : SeededOnly Q s t where
  inv := h.inv
  cwd := h.cwd
  new x hx := (h.new x hx).imp id (Or.imp id (himp x))

theorem of_prims (hinv : ContentInv s) (hprims : Prims (seedGrant P) s t) (hcwd : t.cwd = s.cwd)
    : SeededOnly P s t where
  inv := by
    obtain ⟨bs, hdata⟩ := hinv.inv
    exact ⟨hinv.names.prims hprims, hdata.prims (fun h => h) hprims, hinv.sizes.prims hprims⟩
  cwd := hcwd
  new x hx := by
    have havoid : NamesAvoid (fun x => ¬(s.UsedFile x ∨ s.UsedDir x ∨ P x)) t := by
      have hstart : NamesAvoid (fun x => ¬(s.UsedFile x ∨ s.UsedDir x ∨ P x)) s :=
        fun x hx hno => hno (hx.imp id Or.inl)
      clear hcwd hx hinv
      induction hprims with
      | refl => exact hstart
      | tail _ hprim ih => exact ih.prim (fun x hx hno => hno (Or.inr (Or.inr hx))) hprim
    exact not_not.mp (havoid x hx)

end SeededOnly

/--
`t` has all files and directories of `s` too, with their bytes.
-/
structure Seeded (P : Bytes → Prop) (s t : FsState) : Prop extends SeededOnly P s t where
  kept : ∀ x b, bytesAt s x = some b → bytesAt t x = some b
  dirs : ∀ x, s.UsedDir x → t.UsedDir x

namespace Seeded

variable {P Q : Bytes → Prop} {s t u : FsState}

theorem refl (hinv : ContentInv s) : Seeded P s s where
  toSeededOnly := .refl hinv
  kept _ _ h := h
  dirs _ h := h

theorem trans (h : Seeded P s t) (h' : Seeded P t u) : Seeded P s u where
  toSeededOnly := h.toSeededOnly.trans h'.toSeededOnly
  kept x b hx := h'.kept x b (h.kept x b hx)
  dirs x hx := h'.dirs x (h.dirs x hx)

theorem mono (h : Seeded P s t) (himp : ∀ x, P x → Q x) : Seeded Q s t where
  toSeededOnly := h.toSeededOnly.mono himp
  kept := h.kept
  dirs := h.dirs

theorem of_prims (hinv : ContentInv s) (hprims : Prims (seedGrant P) s t) (hcwd : t.cwd = s.cwd)
    (hkept : ∀ x b, bytesAt s x = some b → bytesAt t x = some b)
    : Seeded P s t where
  toSeededOnly := .of_prims hinv hprims hcwd
  kept := hkept
  dirs _ hx := usedDir_of_prims (fun h => h) hx hprims

end Seeded

section Steps

variable {s : FsState} {P : Bytes → Prop}

theorem bytesAt_congr {t : FsState} (hfused : t.fused = s.fused) (hfname : t.fname = s.fname)
    (hbytes : ∀ i, t.fileBytes i = s.fileBytes i) (x : Bytes)
    : bytesAt t x = bytesAt s x := by
  have hidx : fileIndex t x = fileIndex s x := by
    apply fileIndex_congr
    intro i
    unfold FsState.IsFile
    rw [hfused, hfname]
  unfold bytesAt FsState.files
  rw [hidx, Option.map_map, Option.map_map]
  cases fileIndex s x with
  | none => rfl
  | some i => exact congrArg some (hbytes i)

theorem bytesAt_meta {fowner : Fin maxF → Int32} {fmode : Fin maxF → UInt16} (x : Bytes)
    : bytesAt { s with fowner := fowner, fmode := fmode } x = bytesAt s x :=
  @bytesAt_congr s { s with fowner := fowner, fmode := fmode } rfl rfl (fun _ => rfl) x

theorem seeded_fsCreateDirectory (path : CStr) (hinv : ContentInv s)
    : Seeded (fun x => x = absPath s.cwd.str path) s (fsCreateDirectory s path).2 := by
  have hprims : Prims (seedGrant (fun x => x = absPath s.cwd.str path)) s (fsCreateDirectory s path).2 :=
    fsCreateDirectory_prims path rfl
  obtain ⟨e, heq⟩ | ⟨i, heq, _⟩ := fsCreateDirectory_cases (g := Grant.any) s path trivial
  . apply Seeded.of_prims hinv hprims
    . rw [heq]
    . rw [heq]
      exact fun x b h => h
  . apply Seeded.of_prims hinv hprims
    . rw [heq]
      rfl
    . rw [heq]
      exact fun x b h => h

theorem usedDir_fsCreateDirectory (path : CStr) (hrc : (fsCreateDirectory s path).1 = 0)
    : (fsCreateDirectory s path).2.UsedDir (absPath s.cwd.str path) := by
  unfold fsCreateDirectory at hrc ⊢
  dsimp only at hrc ⊢
  split at hrc
  . contradiction
  . split at hrc
    . contradiction
    . split at hrc
      . contradiction
      . split at hrc
        . contradiction
        . split at hrc
          . contradiction
          . next hpath hparent hroot hdir hfile =>
            rw [if_neg hpath, if_neg hparent, if_neg hroot, if_neg hdir, if_neg hfile]
            obtain hmay | hmay := mayModifyParent_cases { s with fsErrno := 0 } (absPath s.cwd.str path)
            . rw [hmay] at hrc ⊢
              dsimp only at hrc ⊢
              split at hrc
              . contradiction
              . next i hi =>
                refine ⟨i, ?_⟩
                rw [FsState.isDir_addDir (CStr.absPath_no_nul s path) (absPath_text _ _).length_le]
                exact Or.inl ⟨rfl, rfl⟩
            . rw [hmay] at hrc
              contradiction

theorem seeded_fsChmod (path : Bytes) (mode : UInt32) (hinv : ContentInv s)
    : Seeded P s (fsChmod s path mode).2 := by
  have hprims : Prims (seedGrant P) s (fsChmod s path mode).2 := fsChmod_prims path mode trivial
  apply Seeded.of_prims hinv hprims (only_fsChmod path mode).cwd
  intro x b hx
  rw [← hx]
  unfold fsChmod
  dsimp only
  split
  . rfl
  . split
    . split
      . exact bytesAt_meta x
      . rfl
    . split
      . split
        . rfl
        . rfl
      . rfl

theorem seeded_fsChown (path : Bytes) (uid : Int32) (hinv : ContentInv s)
    : Seeded P s (fsChown s path uid).2 := by
  have hprims : Prims (seedGrant P) s (fsChown s path uid).2 := fsChown_prims path uid (fun _ => trivial)
  apply Seeded.of_prims hinv hprims (only_fsChown path uid).cwd
  intro x b hx
  rw [← hx]
  unfold fsChown
  dsimp only
  split
  . rfl
  . split
    . rfl
    . split
      . exact bytesAt_meta x
      . split
        . rfl
        . rfl

theorem cwd_fsWriteFile (path : CStr) (data : Bytes) : (fsWriteFile s path data).2.cwd = s.cwd := by
  have hback : ∀ (t : FsState) idx, (rollBack t idx).cwd = t.cwd := by
    intro t idx
    unfold rollBack
    split
    . rfl
    . rfl
  have hwrite : ∀ (t : FsState) idx, (fsWriteFile.write data t idx).2.cwd = t.cwd := by
    intro t idx
    unfold fsWriteFile.write
    split
    . exact hback t idx
    . dsimp only
      split
      . rw [hback, (FsState.sameNames_fdataResize _ _).cwd]
      . dsimp only
        rw [(FsState.sameNames_storeFile _ _ _).cwd, (FsState.sameNames_storeFile _ _ _).cwd,
          (FsState.sameNames_fdataResize _ _).cwd]
  unfold fsWriteFile
  dsimp only
  split
  . split
    . exact hwrite _ _
    . rfl
  . split
    . exact cwd_fsCreateFile (s := { s with fsErrno := 0 }) path
    . split
      . exact cwd_fsCreateFile (s := { s with fsErrno := 0 }) path
      . exact (hwrite _ _).trans (cwd_fsCreateFile (s := { s with fsErrno := 0 }) path)

theorem seeded_file (path : CStr) (data : Bytes) (hinv : ContentInv s)
    (hnone : fileIndex s (absPath s.cwd.str path) = none) (hcreate : (fsCreateFile s path).1 = 0)
    (hwrite : (fsWriteFile (fsCreateFile s path).2 path data).1 = 0)
    : Seeded (fun x => x = absPath s.cwd.str path) s (fsWriteFile (fsCreateFile s path).2 path data).2
      ∧ bytesAt (fsWriteFile (fsCreateFile s path).2 path data).2 (absPath s.cwd.str path) = some data := by
  have hmade : Prims (seedGrant (fun x => x = absPath s.cwd.str path)) s (fsCreateFile s path).2 :=
    fsCreateFile_prims path (fun _ => rfl)
  have hcwd : (fsCreateFile s path).2.cwd = s.cwd := cwd_fsCreateFile path
  obtain ⟨idx, hidx⟩ : ∃ idx, fileIndex (fsCreateFile s path).2 (absPath s.cwd.str path) = some idx := by
    rw [← Option.isSome_iff_exists, fileIndex_isSome]
    obtain ⟨e, _, hex⟩ | ⟨i, heq, _⟩ := fsCreateFile_cases (g := Grant.any) s path (fun _ => trivial)
    . rw [← fileIndex_isSome, hnone] at hex
      exact absurd (hex hcreate) (by simp)
    . rw [heq]
      refine ⟨i, ?_⟩
      rw [FsState.isFile_addFile (CStr.absPath_no_nul s path) (absPath_text _ _).length_le]
      exact Or.inl ⟨rfl, rfl⟩
  obtain ⟨bs, hdata⟩ := hinv.inv
  have htarget := Target.created hinv.names hdata hinv.sizes hnone hcreate hidx
  have hfresh : ∀ x b, bytesAt s x = some b → x ≠ absPath s.cwd.str path := by
    rintro x b hx rfl
    unfold bytesAt FsState.files at hx
    rw [hnone] at hx
    contradiction
  have hinv' : ContentInv (fsCreateFile s path).2 := (SeededOnly.of_prims hinv hmade hcwd).inv
  have habs : absPath (fsCreateFile s path).2.cwd.str path = absPath s.cwd.str path := by
    rw [hcwd]
  have hreplaced := fsWriteFile_replaced hinv' hwrite
  rw [habs] at hreplaced
  have hwritten : Prims (seedGrant (fun x => x = absPath s.cwd.str path)) (fsCreateFile s path).2
      (fsWriteFile (fsCreateFile s path).2 path data).2 :=
    fsWriteFile_prims path data (fun _ => habs) (fun _ _ => ⟨trivial, trivial⟩) (fun _ _ _ => trivial)
      (fun _ _ _ _ _ _ => trivial)
  refine ⟨?_, hreplaced.content⟩
  apply Seeded.of_prims hinv (hmade.trans hwritten) ((cwd_fsWriteFile path data).trans hcwd)
  intro x b hx
  have hne := hfresh x b hx
  unfold bytesAt at hx ⊢
  rw [hreplaced.other x hne, htarget.other x hne]
  exact hx

end Steps

section Entry

variable {s : FsState}

theorem seededOnly_seedEntry (path : CStr) (type : Byte) (size : Nat) (data : Bytes) (n : Nat)
    (hinv : ContentInv s)
    : SeededOnly (fun x => x = absPath s.cwd.str path) s (seedEntry path type size data (s, n)).1 := by
  have hcwd := cwd_fsCreateFile (s := s) path
  have hmade : SeededOnly (fun x => x = absPath s.cwd.str path) s (fsCreateFile s path).2 :=
    .of_prims hinv (fsCreateFile_prims path (fun _ => rfl)) hcwd
  have hwritten : SeededOnly (fun x => x = absPath s.cwd.str path) s
      (fsWriteFile (fsCreateFile s path).2 path data).2 := by
    apply hmade.trans
    refine .of_prims hmade.inv (fsWriteFile_prims path data (fun _ => ?_) (fun _ _ => ⟨trivial, trivial⟩)
      (fun _ _ _ => trivial) (fun _ _ _ _ _ _ => trivial)) (cwd_fsWriteFile path data)
    show absPath _ _ = absPath _ _
    rw [hcwd]
  unfold seedEntry
  dsimp only
  split
  . split
    . exact .refl hinv
    . exact (seeded_fsCreateDirectory path hinv).toSeededOnly
  . split
    . split
      . exact .refl hinv
      . split
        . exact .refl hinv
        . split
          . exact hmade
          . split
            . exact hwritten.trans (seeded_fsChmod path.val 0o755 hwritten.inv).toSeededOnly
            . exact hwritten
    . exact .refl hinv

end Entry

section Tree

variable {s : FsState} {P : Bytes → Prop}

theorem seeded_setUid (uid : Int32) (hinv : ContentInv s) : Seeded P s { s with fsCurUid := uid } where
  inv := by
    obtain ⟨bs, hdata⟩ := hinv.inv
    exact ⟨hinv.names.setUid uid, ⟨bs, hdata.setUid uid⟩, hinv.sizes⟩
  cwd := rfl
  new _ h := h.imp id Or.inl
  kept _ _ h := h
  dirs _ h := h

theorem seeded_giveDirectory (path : Bytes) (uid : Int32) (hinv : ContentInv s)
    : Seeded P s (giveDirectory s path uid) :=
  have hown := seeded_fsChown path uid hinv
  hown.trans (seeded_fsChmod path 0o700 hown.inv)

theorem seeded_makeSubdir {base sub : Bytes} (hnul : 0 ∉ homeSubdirPath base sub) (uid : Int32)
    (hinv : ContentInv s)
    : Seeded (fun x => x = absPath s.cwd.str (homeSubdirPath base sub)) s (makeSubdir base uid s sub) := by
  unfold makeSubdir
  dsimp only
  split
  . exact seeded_giveDirectory _ uid hinv
  . have hmade := @seeded_fsCreateDirectory s ⟨homeSubdirPath base sub, hnul⟩ hinv
    exact hmade.trans (seeded_giveDirectory _ uid hmade.inv)

theorem seeded_makeSubdirs {base : Bytes} {subs : List Bytes} (uid : Int32) (hinv : ContentInv s)
    (hsubs : ∀ sub ∈ subs, sub ∈ homeSubdirs ∧ 0 ∉ homeSubdirPath base sub)
    : Seeded (InSubdirs s.cwd.str base) s (subs.foldl (makeSubdir base uid) s) := by
  induction subs generalizing s with
  | nil => exact .refl hinv
  | cons sub subs ih =>
    obtain ⟨hsub, hnul⟩ := hsubs sub (by simp)
    have hone := seeded_makeSubdir hnul uid hinv
    have hrest := ih hone.inv (fun d hd => hsubs d (by simp [hd]))
    rw [hone.cwd] at hrest
    rw [List.foldl_cons]
    exact (hone.mono fun x hx => ⟨sub, hsub, hx⟩).trans hrest

theorem seeded_fsCreateHomeTree {base : Bytes} (hbase : 0 ∉ base)
    (hsubs : ∀ sub ∈ homeSubdirs, 0 ∉ homeSubdirPath base sub) (uid : Int32) (hinv : ContentInv s)
    : Seeded (InTree s.cwd.str base) s (fsCreateHomeTree s base uid).2 := by
  have hroot : Seeded (InTree s.cwd.str base) s { s with fsCurUid := 0 } := seeded_setUid 0 hinv
  have hrest : ∀ t : FsState, t.cwd = s.cwd → ContentInv t → Seeded (InTree s.cwd.str base) t
      (giveDirectory (homeSubdirs.foldl (makeSubdir base uid) t) base uid) := by
    intro t hcwd ht
    have hsub := seeded_makeSubdirs uid ht (fun sub h => ⟨h, hsubs sub h⟩)
    rw [hcwd] at hsub
    exact (hsub.mono fun x hx => Or.inr hx).trans (seeded_giveDirectory base uid hsub.inv)
  have htree : Seeded (InTree s.cwd.str base) { s with fsCurUid := 0 }
      (makeHomeTree { s with fsCurUid := 0 } base uid).2 := by
    have hmade := @seeded_fsCreateDirectory { s with fsCurUid := 0 } ⟨base, hbase⟩ hroot.inv
    unfold makeHomeTree
    by_cases hexists : fsDirectoryExists { s with fsCurUid := 0 } base
    . rw [if_pos hexists]
      exact hrest _ rfl hroot.inv
    . rw [if_neg hexists]
      dsimp only
      split
      . exact hmade.mono fun x hx => Or.inl hx
      . exact (hmade.mono fun x hx => Or.inl hx).trans (hrest _ hmade.cwd hmade.inv)
  have hall := hroot.trans htree
  exact hall.trans (seeded_setUid _ hall.inv)

theorem seeded_homes (hinv : ContentInv s)
    : Seeded (fun x => x = absPath s.cwd.str homeDir ∨ InTree s.cwd.str rootDir x) s
        (fsCreateHomeTree (if fsDirectoryExists s homeDir then s else (fsCreateDirectory s homeDir).2)
          rootDir 0).2 := by
  have hsubs : ∀ sub ∈ homeSubdirs, 0 ∉ homeSubdirPath rootDir sub := by decide
  have hhome : Seeded (fun x => x = absPath s.cwd.str homeDir) s
      (if fsDirectoryExists s homeDir then s else (fsCreateDirectory s homeDir).2) := by
    split
    . exact .refl hinv
    . exact @seeded_fsCreateDirectory s ⟨homeDir, by decide⟩ hinv
  have htree := seeded_fsCreateHomeTree (by decide) hsubs 0 hhome.inv
  rw [hhome.cwd] at htree
  exact (hhome.mono fun x hx => Or.inl hx).trans (htree.mono fun x hx => Or.inr hx)

end Tree

theorem usedFile_of_bytesAt {t : FsState} {x b : Bytes} (h : bytesAt t x = some b) : t.UsedFile x := by
  rw [← fileIndex_isSome]
  unfold bytesAt FsState.files at h
  cases hidx : fileIndex t x with
  | none =>
    rw [hidx] at h
    contradiction
  | some j => rfl

namespace Member

variable {m : Member} {s : FsState}

def seed (s : FsState) (m : Member) : FsState :=
  (seedEntry m.path (if m.isDir then 53 else 48) m.data.length m.data (s, 0)).1

/--
The calls that make a member, if it is missing, have room for it.
-/
def Fits (s : FsState) (m : Member) : Prop :=
  if m.isDir then
    fsDirectoryExists s m.path ∨ (fsCreateDirectory s m.path).1 = 0
  else
    fsFileExists s m.path
      ∨ (fsCreateFile s m.path).1 = 0 ∧ (fsWriteFile (fsCreateFile s m.path).2 m.path m.data).1 = 0

def Present (t : FsState) (m : Member) : Prop :=
  if m.isDir then fsDirectoryExists t m.path else fsFileExists t m.path

theorem path_ne_nil (m : Member) : m.path ≠ [] :=
  List.cons_ne_nil _ _

theorem path_no_nul (hok : m.Ok) : 0 ∉ m.path := by
  have hrest : ∀ x ∈ (if [dot, slash] <+: m.name then m.name.drop 2 else m.name), x ∈ m.name := by
    intro x hx
    split at hx
    . exact List.mem_of_mem_drop hx
    . exact hx
  unfold path
  dsimp only
  generalize (if [dot, slash] <+: m.name then m.name.drop 2 else m.name) = rest at hrest ⊢
  rw [List.mem_cons, not_or]
  refine ⟨by decide, fun hx => hok.no_nul (hrest 0 ?_)⟩
  split at hx
  . exact List.mem_of_mem_dropLast hx
  . exact hx

theorem fileExists_iff : fsFileExists s m.path ↔ s.UsedFile (absPath s.cwd.str m.path) := by
  unfold fsFileExists
  rw [← fileIndex_isSome]
  simp [m.path_ne_nil]

theorem dirExists_iff
    : fsDirectoryExists s m.path ↔ m.path = [slash] ∨ s.UsedDir (absPath s.cwd.str m.path) := by
  unfold fsDirectoryExists
  rw [if_neg m.path_ne_nil, ← dirIndex_isSome]
  split
  . next h => simp [h]
  . next h => simp [h]

theorem Present.seeded {P : Bytes → Prop} {t : FsState} (h : m.Present s) (hseed : Seeded P s t)
    : m.Present t := by
  unfold Present at h ⊢
  split at h
  . next hdir =>
    rw [if_pos hdir, dirExists_iff, hseed.cwd]
    exact (dirExists_iff.mp h).imp id (hseed.dirs _)
  . next hdir =>
    rw [if_neg hdir, fileExists_iff, hseed.cwd]
    rw [fileExists_iff, ← fileIndex_isSome, Option.isSome_iff_exists] at h
    obtain ⟨i, hi⟩ := h
    exact usedFile_of_bytesAt (hseed.kept _ (s.view i).bytes (by rw [bytesAt, FsState.files, hi]; rfl))

/--
The outcome for a member: it is there, and a file that was not has the bytes of the archive.
-/
structure Made (s t : FsState) (m : Member) : Prop where
  seeded : Seeded (fun x => x = absPath s.cwd.str m.path) s t
  present : m.Present t
  fresh : ¬m.isDir → ¬fsFileExists s m.path → bytesAt t (absPath s.cwd.str m.path) = some m.data

theorem Made.of_bytes {t : FsState} (hdir : ¬m.isDir)
    (hseed : Seeded (fun x => x = absPath s.cwd.str m.path) s t)
    (hbytes : bytesAt t (absPath s.cwd.str m.path) = some m.data)
    : m.Made s t where
  seeded := hseed
  present := by
    rw [Present, if_neg hdir, fileExists_iff, hseed.cwd]
    exact usedFile_of_bytesAt hbytes
  fresh _ _ := hbytes

theorem Made.of_dir {t : FsState} (hdir : m.isDir)
    (hseed : Seeded (fun x => x = absPath s.cwd.str m.path) s t) (hexists : fsDirectoryExists t m.path)
    : m.Made s t where
  seeded := hseed
  present := by
    rw [Present, if_pos hdir]
    exact hexists
  fresh h := absurd hdir h

theorem Made.of_exists (hinv : ContentInv s) (hdir : ¬m.isDir) (hexists : fsFileExists s m.path)
    : m.Made s s where
  seeded := .refl hinv
  present := by
    rw [Present, if_neg hdir]
    exact hexists
  fresh _ h := absurd hexists h

theorem seed_dir (hdir : m.isDir)
    : m.seed s = if fsDirectoryExists s m.path then s else (fsCreateDirectory s m.path).2 := by
  unfold seed seedEntry
  dsimp only
  rw [if_pos hdir, if_pos rfl]

theorem seed_file (hdir : ¬m.isDir) (hok : m.Ok)
    : m.seed s = if fsFileExists s m.path then s
        else if (fsCreateFile s m.path).1 ≠ 0 then (fsCreateFile s m.path).2
        else if m.path.take 4 = binPath ∧ (m.path[4]? = some slash ∨ m.path[4]? = none) then
          (fsChmod (fsWriteFile (fsCreateFile s m.path).2 m.path m.data).2 m.path 0o755).2
        else (fsWriteFile (fsCreateFile s m.path).2 m.path m.data).2 := by
  have hmax : ¬maxFileData - 1 < m.data.length := by
    have := hok.size
    omega
  unfold seed seedEntry
  dsimp only
  rw [if_neg hdir, if_neg (by decide), if_pos (Or.inl rfl), if_neg hmax]
  simp only [apply_ite Prod.fst]

theorem seed_made (hok : m.Ok) (hinv : ContentInv s) (hfits : m.Fits s) : m.Made s (m.seed s) := by
  have hnul := path_no_nul hok
  unfold Fits at hfits
  by_cases hdir : m.isDir
  . rw [if_pos hdir] at hfits
    rw [seed_dir hdir]
    split
    . next hexists => exact .of_dir hdir (.refl hinv) hexists
    . next hexists =>
      have hmade := @seeded_fsCreateDirectory s ⟨m.path, hnul⟩ hinv
      have hused := @usedDir_fsCreateDirectory s ⟨m.path, hnul⟩ (hfits.resolve_left hexists)
      refine .of_dir hdir hmade ?_
      rw [dirExists_iff, hmade.cwd]
      exact Or.inr hused
  . rw [if_neg hdir] at hfits
    rw [seed_file hdir hok]
    split
    . next hexists => exact .of_exists hinv hdir hexists
    . next hexists =>
      obtain ⟨hcreate, hwrite⟩ := hfits.resolve_left hexists
      have hnone : fileIndex s (absPath s.cwd.str m.path) = none := by
        rw [fileExists_iff, ← fileIndex_isSome, Option.not_isSome_iff_eq_none] at hexists
        exact hexists
      obtain ⟨hseeded, hbytes⟩ := @seeded_file s ⟨m.path, hnul⟩ m.data hinv hnone hcreate hwrite
      rw [if_neg (not_not.mpr hcreate)]
      split
      . have hmode := @seeded_fsChmod _ (fun x => x = absPath s.cwd.str m.path) m.path 0o755 hseeded.inv
        exact .of_bytes hdir (hseeded.trans hmode) (hmode.kept _ _ hbytes)
      . exact .of_bytes hdir hseeded hbytes

end Member

/--
All members fit, one after the other.
-/
def SeedFits : FsState → List Member → Prop
  | _, [] => True
  | s, m :: ms => m.Fits s ∧ SeedFits (m.seed s) ms

section Walk

variable {m : Member} {ms : List Member} {s : FsState} {head pad tar : Bytes}

theorem seedEntry_fst (path : Bytes) (type : Byte) (size : Nat) (data : Bytes) (s : FsState) (n k : Nat)
    : (seedEntry path type size data (s, n)).1 = (seedEntry path type size data (s, k)).1 := by
  unfold seedEntry
  dsimp only
  split
  . rfl
  . split
    . split
      . rfl
      . split
        . rfl
        . split
          . rfl
          . split
            . rfl
            . rfl
    . rfl

theorem seedEntry_header (hhead : m.Header head) (n : Nat)
    : (seedEntry m.path (head.getD 156 0) m.data.length m.data (s, n)).1 = m.seed s := by
  unfold Member.seed
  rw [seedEntry_fst _ _ _ _ s n 0]
  have htype := hhead.type
  split at htype
  . next hdir => rw [if_pos hdir, htype]
  . next hdir =>
    rw [if_neg hdir]
    obtain h | h := htype
    . rw [h]
    . rw [h]
      rfl

theorem Member.Header.field (hok : m.Ok) (hhead : m.Header head)
    : ∃ rest, head.take 100 = m.name ++ 0 :: rest := by
  have hsplit := List.takeWhile_append_dropWhile (p := fun c : Byte => decide (c ≠ 0)) (l := head.take 100)
  rw [hhead.name] at hsplit
  have hlen := congrArg List.length hsplit
  rw [List.length_append, List.length_take, hhead.length] at hlen
  have hshort := hok.short
  cases hrest : (head.take 100).dropWhile (fun c => decide (c ≠ 0)) with
  | nil =>
    rw [hrest, List.length_nil] at hlen
    omega
  | cons c rest =>
    have hc := List.head_dropWhile_not (fun c : Byte => decide (c ≠ 0))
      (show (head.take 100).dropWhile _ ≠ [] by rw [hrest]; simp)
    simp only [hrest, List.head_cons, decide_eq_false_iff_not, not_not] at hc
    rw [hrest, hc] at hsplit
    exact ⟨rest, hsplit.symm⟩

theorem Member.Header.not_empty (hok : m.Ok) (hhead : m.Header head) : ¬head.all (· = 0) := by
  intro hall
  obtain ⟨rest, hfield⟩ := hhead.field hok
  obtain ⟨c, name, hname⟩ := List.exists_cons_of_ne_nil hok.ne_nil
  have hc : c ∈ head := by
    apply List.mem_of_mem_take (i := 100)
    rw [hfield, hname]
    simp
  have hzero : c = 0 := by simpa using List.all_eq_true.mp hall c hc
  apply hok.no_nul
  rw [hname, hzero]
  simp

theorem blocks_eq {size : UInt32} {n : Nat} (hsize : size.toNat = n) (hlt : n < maxFileData)
    : ((size + 511) / 512).toNat = (n + 511) / 512 := by
  have hmax : maxFileData = 33554432 := rfl
  rw [UInt32.toNat_div, UInt32.toNat_add, hsize]
  rw [show (511 : UInt32).toNat = 511 by rfl, show (512 : UInt32).toNat = 512 by rfl, Nat.mod_eq_of_lt]
  omega

theorem seedWalk_member (hok : m.Ok) (hhead : m.Header head)
    (hpad : m.data.length + pad.length = (m.data.length + 511) / 512 * 512) (st : FsState × Nat)
    : seedWalk (head ++ (m.data ++ pad) ++ tar) st
      = seedWalk tar (if (homeCopyPath m.name).length ≤ 1 then st
          else seedEntry (homeCopyPath m.name) (head.getD 156 0) m.data.length m.data st) := by
  have hlen := hhead.length
  have htake : (head ++ (m.data ++ pad) ++ tar).take 512 = head := by
    rw [List.append_assoc, List.take_left' hlen]
  have hdrop : (head ++ (m.data ++ pad) ++ tar).drop 512 = m.data ++ pad ++ tar := by
    rw [List.append_assoc, List.drop_left' hlen]
  obtain ⟨rest, hfield⟩ := hhead.field hok
  have hpath : homeCopyPath (head.take 100) = homeCopyPath m.name := by
    rw [hfield, homeCopyPath_nul hok.no_nul]
  rw [seedWalk, dif_pos (by simp [hlen])]
  dsimp only
  rw [htake, hdrop, if_neg (hhead.not_empty hok), hpath, hhead.size_eq hok]
  split
  . next hshort =>
    -- the root itself, which has no bytes
    rw [← @homeCopyPath_nul _ [] hok.no_nul] at hshort
    have hnil := hok.dir (homeCopyPath_root hok hshort)
    obtain rfl : pad = [] := by
      rw [hnil] at hpad
      simpa using hpad
    rw [hnil]
    rfl
  . have hblocks := blocks_eq (hhead.size_eq hok) hok.size
    have hcount : (head ++ (m.data ++ pad) ++ tar).length
        = 512 + (m.data.length + 511) / 512 * 512 + tar.length := by
      rw [List.length_append, List.length_append, List.length_append, hlen, hpad]
    have hskip : (head ++ (m.data ++ pad) ++ tar).drop (512 + (m.data.length + 511) / 512 * 512) = tar := by
      apply List.drop_left'
      rw [List.length_append, List.length_append, hlen, hpad]
    have hdata : (m.data ++ pad ++ tar).take m.data.length = m.data := by
      rw [List.append_assoc, List.take_left' rfl]
    rw [hblocks, hcount, if_neg (by omega), hskip, hdata]

theorem seedWalk_end (hend : tar.length < 512 ∨ (tar.take 512).all (· = 0)) (st : FsState × Nat)
    : seedWalk tar st = st := by
  rw [seedWalk]
  split
  . next hlen =>
    dsimp only
    rw [if_pos (hend.resolve_left (by omega))]
  . rfl

theorem seedWalk_archive (harch : Archive ms tar) (hplain : ∀ m ∈ ms, PlainName m.name) (n : Nat)
    : (seedWalk tar (s, n)).1 = ms.foldl Member.seed s := by
  induction harch generalizing s n with
  | nil tar hend =>
    rw [seedWalk_end hend]
    rfl
  | @cons m ms head pad tar hok hhead hpad hrest ih =>
    have ih' := fun {s} n => ih (s := s) (fun m' hm => hplain m' (List.mem_cons_of_mem m hm)) n
    have hpath : homeCopyPath m.name = m.path := by
      rw [← @homeCopyPath_nul _ [] hok.no_nul]
      exact homeCopyPath_plain hok (hplain m (by simp))
    rw [seedWalk_member hok hhead hpad, hpath, List.foldl_cons]
    split
    . next hshort =>
      have htail : m.path.tail = [] := by
        apply List.eq_nil_of_length_eq_zero
        rw [List.length_tail]
        omega
      have hroot : m.path = [slash] := by
        rw [show m.path = slash :: m.path.tail by rfl, htail]
      have hsame : m.seed s = s := by
        unfold Member.seed seedEntry
        rw [if_pos (hok.root (Or.inl hroot)), hroot]
        rfl
      rw [hsame]
      exact ih' n
    . rw [← seedEntry_header (s := s) hhead n]
      exact ih' _

theorem seededOnly_seedWalk (harch : Archive ms tar) (hinv : ContentInv s) (n : Nat)
    : SeededOnly (fun x => ∃ m ∈ ms, x = absPath s.cwd.str (homeCopyPath m.name)) s
        (seedWalk tar (s, n)).1 := by
  induction harch generalizing s n with
  | nil tar hend =>
    rw [seedWalk_end hend]
    exact .refl hinv
  | @cons m ms head pad tar hok hhead hpad hrest ih =>
    rw [seedWalk_member hok hhead hpad]
    have hlater : ∀ x, (∃ m' ∈ ms, x = absPath s.cwd.str (homeCopyPath m'.name)) →
        ∃ m' ∈ m :: ms, x = absPath s.cwd.str (homeCopyPath m'.name) := by
      rintro x ⟨m', hm, hx⟩
      exact ⟨m', List.mem_cons_of_mem m hm, hx⟩
    split
    . exact (ih hinv n).mono hlater
    . have hentry := seededOnly_seedEntry ⟨homeCopyPath m.name, homeCopyPath_no_nul⟩ (head.getD 156 0)
        m.data.length m.data n hinv
      have hrest := ih hentry.inv
        (seedEntry (homeCopyPath m.name) (head.getD 156 0) m.data.length m.data (s, n)).2
      rw [hentry.cwd] at hrest
      exact (hentry.mono fun x hx => ⟨m, by simp, hx⟩).trans (hrest.mono hlater)

end Walk

/--
Every member is there, with its bytes if it is a file that was not. What was there before is as it was,
and nothing else has been made but `/home` and the tree of `/root`.
-/
structure SeedFaithful (ms : List Member) (s t : FsState) : Prop where
  present : ∀ m ∈ ms, m.Present t
  fresh : ∀ m ∈ ms, ¬m.isDir → ¬fsFileExists s m.path →
    bytesAt t (absPath s.cwd.str m.path) = some m.data
  kept : ∀ x b, bytesAt s x = some b → bytesAt t x = some b
  new : ∀ x, t.UsedFile x ∨ t.UsedDir x → s.UsedFile x ∨ s.UsedDir x
    ∨ (∃ m ∈ ms, x = absPath s.cwd.str m.path) ∨ x = absPath s.cwd.str homeDir
    ∨ InTree s.cwd.str rootDir x

section Run

variable {m : Member} {ms : List Member} {s : FsState} {tar : Bytes}

/--
No file or directory is by chance where a name that loses a character should lead.
-/
def Untaken (s : FsState) (ms : List Member) : Prop :=
  ∀ m ∈ ms, ¬PlainName m.name → ¬(s.UsedFile (absPath s.cwd.str m.path)
    ∨ s.UsedDir (absPath s.cwd.str m.path)
    ∨ (∃ m' ∈ ms, absPath s.cwd.str m.path = absPath s.cwd.str (homeCopyPath m'.name))
    ∨ absPath s.cwd.str m.path = absPath s.cwd.str homeDir
    ∨ InTree s.cwd.str rootDir (absPath s.cwd.str m.path))

/--
The files of two members are not the same one.
-/
def Distinct (cwd : Bytes) (ms : List Member) : Prop :=
  ms.Pairwise fun m m' => absPath cwd m.path ≠ absPath cwd m'.path

theorem Archive.ok (harch : Archive ms tar) : ∀ m ∈ ms, m.Ok := by
  induction harch with
  | nil => simp
  | cons hok _ _ _ ih =>
    intro m hm
    obtain rfl | hm := List.mem_cons.mp hm
    . exact hok
    . exact ih m hm

theorem Member.Made.missing {m' : Member} {t : FsState} (hmade : m.Made s t)
    (hne : absPath s.cwd.str m.path ≠ absPath s.cwd.str m'.path) (hmissing : ¬fsFileExists s m'.path)
    : ¬fsFileExists t m'.path := by
  rw [Member.fileExists_iff] at hmissing ⊢
  rw [hmade.seeded.cwd]
  intro hused
  obtain h | h | h := hmade.seeded.new _ (Or.inl hused)
  . exact hmissing h
  . exact hmade.seeded.inv.names.disjoint _ hused (hmade.seeded.dirs _ h)
  . exact hne h.symm

theorem seed_members (hok : ∀ m ∈ ms, m.Ok) (hinv : ContentInv s) (hfits : SeedFits s ms)
    (hdistinct : Distinct s.cwd.str ms)
    : Seeded (fun x => ∃ m ∈ ms, x = absPath s.cwd.str m.path) s (ms.foldl Member.seed s)
      ∧ ∀ m ∈ ms, m.Present (ms.foldl Member.seed s)
        ∧ (¬m.isDir → ¬fsFileExists s m.path →
          bytesAt (ms.foldl Member.seed s) (absPath s.cwd.str m.path) = some m.data) := by
  induction ms generalizing s with
  | nil => exact ⟨.refl hinv, by simp⟩
  | cons m ms ih =>
    obtain ⟨hfit, hfits⟩ := hfits
    obtain ⟨hne, hdistinct⟩ := List.pairwise_cons.mp hdistinct
    have hmade := Member.seed_made (hok m (by simp)) hinv hfit
    have hcwd := hmade.seeded.cwd
    obtain ⟨hseeded, hrest⟩ := ih (fun m' hm => hok m' (List.mem_cons_of_mem m hm)) hmade.seeded.inv hfits
      (by rw [hcwd]; exact hdistinct)
    rw [hcwd] at hseeded hrest
    rw [List.foldl_cons]
    constructor
    . apply (hmade.seeded.mono _).trans (hseeded.mono _)
      . exact fun x hx => ⟨m, by simp, hx⟩
      . rintro x ⟨m', hm, hx⟩
        exact ⟨m', List.mem_cons_of_mem m hm, hx⟩
    . intro m' hm
      obtain rfl | hm := List.mem_cons.mp hm
      . exact ⟨hmade.present.seeded hseeded, fun hdir hmissing =>
          hseeded.kept _ _ (hmade.fresh hdir hmissing)⟩
      . obtain ⟨hpresent, hfresh⟩ := hrest m' hm
        exact ⟨hpresent, fun hdir hmissing => hfresh hdir (hmade.missing (hne m' hm) hmissing)⟩

theorem fsSeedHome_fst
    : (fsSeedHome tar s).1
      = (fsCreateHomeTree (if fsDirectoryExists (seedWalk tar (s, 0)).1 homeDir then (seedWalk tar (s, 0)).1
          else (fsCreateDirectory (seedWalk tar (s, 0)).1 homeDir).2) rootDir 0).2 := by
  unfold fsSeedHome
  dsimp only

theorem seed_faithful_of_inv (hinv : ContentInv s) (harch : Archive ms tar)
    (hfits : SeedFits s ms) (hdistinct : Distinct s.cwd.str ms) (hplain : ∀ m ∈ ms, PlainName m.name)
    : SeedFaithful ms s (fsSeedHome tar s).1 := by
  obtain ⟨hseeded, hmembers⟩ := seed_members harch.ok hinv hfits hdistinct
  rw [← seedWalk_archive harch hplain 0] at hseeded hmembers
  have hhomes := seeded_homes hseeded.inv
  rw [← fsSeedHome_fst, hseeded.cwd] at hhomes
  have hall := (hseeded.mono fun x hx => Or.inl hx).trans (hhomes.mono fun x hx => Or.inr hx)
  exact ⟨fun m hm => (hmembers m hm).1.seeded hhomes,
    fun m hm hdir hmissing => hhomes.kept _ _ ((hmembers m hm).2 hdir hmissing), hall.kept, hall.new⟩

theorem seededOnly_fsSeedHome (harch : Archive ms tar) (hinv : ContentInv s)
    : SeededOnly (fun x => (∃ m ∈ ms, x = absPath s.cwd.str (homeCopyPath m.name))
        ∨ x = absPath s.cwd.str homeDir ∨ InTree s.cwd.str rootDir x) s (fsSeedHome tar s).1 := by
  have hwalk := seededOnly_seedWalk harch hinv 0
  have hhomes := (seeded_homes hwalk.inv).toSeededOnly
  rw [← fsSeedHome_fst, hwalk.cwd] at hhomes
  exact (hwalk.mono fun x hx => Or.inl hx).trans (hhomes.mono fun x hx => Or.inr hx)

theorem plain_of_faithful (hinv : ContentInv s) (harch : Archive ms tar) (hfree : Untaken s ms)
    (hfaithful : SeedFaithful ms s (fsSeedHome tar s).1)
    : ∀ m ∈ ms, PlainName m.name := by
  intro m hm
  by_contra hplain
  have honly := seededOnly_fsSeedHome harch hinv
  have hused : (fsSeedHome tar s).1.UsedFile (absPath s.cwd.str m.path)
      ∨ (fsSeedHome tar s).1.UsedDir (absPath s.cwd.str m.path) := by
    have hpresent := hfaithful.present m hm
    unfold Member.Present at hpresent
    split at hpresent
    . rw [Member.dirExists_iff, honly.cwd] at hpresent
      obtain hroot | hdir := hpresent
      . exact absurd (Member.plain_of_root (harch.ok m hm) hroot) hplain
      . exact Or.inr hdir
    . rw [Member.fileExists_iff, honly.cwd] at hpresent
      exact Or.inl hpresent
  exact hfree m hm hplain (honly.new _ hused)

end Run

/--
On any state that a run reaches, seeding is faithful just to the archives of which no name loses a
character.
-/
theorem seed_faithful (s₀ s : FsState) (bytes : UInt32) (uid : Int32) (ms : List Member) (tar : Bytes)
    (hpool : s₀.fpoolBytes = fsSetPool bytes)
    (hrun : FsRun (fun s c => c.NoWrap s) (fsInit s₀) s) (harch : Archive ms tar)
    (hfits : SeedFits { s with fsCurUid := uid } ms) (hdistinct : Distinct s.cwd.str ms)
    (hfree : Untaken { s with fsCurUid := uid } ms)
    : SeedFaithful ms { s with fsCurUid := uid } (fsSeedHome tar { s with fsCurUid := uid }).1
      ↔ ∀ m ∈ ms, PlainName m.name :=
  have hinv := ContentInv.run hpool hrun uid
  ⟨plain_of_faithful hinv harch hfree, seed_faithful_of_inv hinv harch hfits hdistinct⟩

section Example

/-!
An archive of one file that is called like a plain file, and of one that is called like a hidden one.
-/

/--
A header with the name `name`, the size 1 and the type `type`.
-/
def tarHeader (name : Bytes) (type : Byte) : Bytes :=
  name ++ List.replicate (124 - name.length) 0 ++ (List.replicate 10 48 ++ [49, 0]) ++ List.replicate 20 0
    ++ [type] ++ List.replicate 355 0

def oneFile (name : Bytes) : Member :=
  ⟨name, false, [7]⟩

def oneFileTar (name : Bytes) : Bytes :=
  tarHeader name 48 ++ ([7] ++ List.replicate 511 0) ++ []

/--
`./b` and `.b`
-/
def plainB : Bytes :=
  [46, 47, 98]

def dotB : Bytes :=
  [46, 98]

theorem oneFile_archive {name : Bytes} (hok : (oneFile name).Ok)
    (hhead : (oneFile name).Header (tarHeader name 48))
    : Archive [oneFile name] (oneFileTar name) := by
  apply Archive.cons hok hhead
  . show 1 + (List.replicate 511 (0 : Byte)).length = (1 + 511) / 512 * 512
    rw [List.length_replicate]
  . exact .nil [] (Or.inl (by decide))

theorem sizeField_one {field : Bytes} (hfield : field = List.replicate 10 48 ++ [49, 0])
    : ∃ digits pad : Bytes, field = digits ++ pad
      ∧ (∀ d ∈ digits, 48 ≤ d ∧ d ≤ 55) ∧ (∀ c ∈ pad, c = 0 ∨ c = 32) ∧ octalValue digits = 1 :=
  ⟨List.replicate 10 48 ++ [49], [0], hfield, by simp, by simp, by decide⟩

theorem archive_plainB : Archive [oneFile plainB] (oneFileTar plainB) :=
  oneFile_archive
    ⟨by decide, by decide, by decide, by decide, by decide, by decide, by decide⟩
    ⟨by decide +kernel, by decide +kernel, sizeField_one (by decide +kernel),
      Or.inl (by decide +kernel)⟩

theorem archive_dotB : Archive [oneFile dotB] (oneFileTar dotB) :=
  oneFile_archive
    ⟨by decide, by decide, by decide, by decide, by decide, by decide, by decide⟩
    ⟨by decide +kernel, by decide +kernel, sizeField_one (by decide +kernel),
      Or.inl (by decide +kernel)⟩

end Example

theorem seed_faithful_noted
    : bytesAt (fsSeedHome (oneFileTar plainB) { noted with fsCurUid := 0 }).1 [slash, 98] = some [7] := by
  have hfits : SeedFits { noted with fsCurUid := 0 } [oneFile plainB] :=
    ⟨Or.inr (by decide +kernel), trivial⟩
  have hplain : ∀ m ∈ [oneFile plainB], PlainName m.name := by
    intro m hm
    rw [List.mem_singleton.mp hm]
    exact Or.inl ⟨[98], rfl⟩
  have hfree : Untaken { noted with fsCurUid := 0 } [oneFile plainB] :=
    fun m hm hother => absurd (hplain m hm) hother
  have h := (seed_faithful (.zeroed 64) noted 64 0 [oneFile plainB] (oneFileTar plainB) (by decide)
    (noted_run fun _ _ hwrap => hwrap) archive_plainB hfits (List.pairwise_singleton _ _) hfree).mpr hplain
  have hbytes := h.fresh (oneFile plainB) (by simp) (by decide) (by decide +kernel)
  have habs : absPath noted.cwd.str (oneFile plainB).path = [slash, 98] := by decide +kernel
  exact habs ▸ hbytes

theorem seed_not_faithful
    : ¬∀ (s₀ s : FsState) (bytes : UInt32) (uid : Int32) (ms : List Member) (tar : Bytes),
        s₀.fpoolBytes = fsSetPool bytes → FsRun (fun s c => c.NoWrap s) (fsInit s₀) s →
        Archive ms tar → SeedFits { s with fsCurUid := uid } ms → Distinct s.cwd.str ms →
        SeedFaithful ms { s with fsCurUid := uid } (fsSeedHome tar { s with fsCurUid := uid }).1 := by
  intro h
  have hrun : FsRun (fun s c => c.NoWrap s) (fsInit (.zeroed 64)) noted :=
    noted_run fun _ _ hwrap => hwrap
  have hinv : ContentInv { noted with fsCurUid := 0 } :=
    @ContentInv.run (.zeroed 64) noted 64 (by decide) hrun 0
  have hfaithful := h (.zeroed 64) noted 64 0 [oneFile dotB] (oneFileTar dotB) (by decide) hrun archive_dotB
    ⟨Or.inr (by decide +kernel), trivial⟩ (List.pairwise_singleton _ _)
  have hfree : Untaken { noted with fsCurUid := 0 } [oneFile dotB] := by
    intro m hm _
    rw [List.mem_singleton.mp hm, ← fileIndex_isSome, ← dirIndex_isSome]
    unfold InTree InSubdirs
    decide +kernel
  have hplain := plain_of_faithful hinv archive_dotB hfree hfaithful (oneFile dotB) (by simp)
  revert hplain
  unfold PlainName
  decide

end TanjaOS
