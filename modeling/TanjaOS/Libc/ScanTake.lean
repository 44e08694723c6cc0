import TanjaOS.Libc.ScanText

/-!
The scanning engine without a character in hand: what every round takes from the front of a text. The
engine does the same wherever it gives back what it should.
-/

open Lib

namespace TanjaOS

def isWordChar (b : Byte) : Bool :=
  !isScanSpace b

/--
The word at the start of `t`, and what is behind it and the white space that ends it.
-/
def takeWord (lim : Nat) (t : Bytes) : Bytes × Bytes :=
  let word := whileRun isWordChar lim t
  (word, if word.length < lim then (t.drop word.length).tail else t.drop word.length)

structure FloatParts where
  sign : Bytes
  whole : Bytes
  point : Bytes
  frac : Bytes
  rest : Bytes

def floatParts (t : Bytes) : FloatParts :=
  let r := intRest t
  let whole := r.takeWhile isDecimal
  let r := r.dropWhile isDecimal
  if r.head? = some 46 then
    ⟨t.take (signAt t).2, whole, [46], r.tail.takeWhile isDecimal, r.tail.dropWhile isDecimal⟩
  else
    ⟨t.take (signAt t).2, whole, [], [], r⟩

def FloatParts.mantissa (p : FloatParts) : Bytes :=
  p.sign ++ p.whole ++ p.point ++ p.frac

/--
The digits of an exponent at the start of `r`, of which the first character is the `e`, and what is
behind them.
-/
def exponentDigits (r : Bytes) : Bytes × Bytes :=
  ((intRest r.tail).takeWhile isDecimal, (intRest r.tail).dropWhile isDecimal)

def hasExponent (r : Bytes) : Bool :=
  r.head? = some 101 ∨ r.head? = some 69

/--
What a round takes of the text `s`, and what it leaves. The numbers that `%n` stores are left out.
-/
def takeConv (sp : ScanSpec) (s : Bytes) : ScanRes Scanned × Bytes :=
  let t := s.dropWhile isScanSpace
  let got (text : Bytes) (val : ScanVal) (rest : Bytes) : ScanRes Scanned × Bytes :=
    (.got ⟨text, if sp.suppress then none else some val⟩, rest)
  -- n
  if sp.conv = 110 then
    (.got ⟨[], none⟩, s)
  -- c
  else if sp.conv = 99 then
    let n := if sp.width = 0 then 1 else sp.width.toInt.toNat
    if n ≤ s.length then got (s.take n) (.chars (s.take n)) (s.drop n)
    else if s = [] then (.eof, s) else (.fail, s)
  -- s
  else if sp.conv = 115 then
    let (word, rest) := takeWord (widthLimit 1023 sp.width) t
    if t = [] then (.eof, t) else got word (.str word) rest
  -- d i u x X o
  else if sp.conv ∈ ([100, 105, 117, 120, 88, 111] : Bytes) then
    let lim := widthLimit 1024 sp.width
    if t = [] then (.eof, t)
    else if intRun sp.conv lim (intRest t) = [] then (.fail, t)
    else got (t.take (intLen sp.conv lim t)) (scanStore sp.lmod (intVal sp.conv lim t))
      (t.drop (intLen sp.conv lim t))
  -- f e E g G a A
  else if sp.conv ∈ ([102, 101, 69, 103, 71, 97, 65] : Bytes) then
    let p := floatParts t
    if t = [] then (.eof, t)
    else if p.whole ++ p.frac = [] then (.fail, t)
    else if hasExponent p.rest then
      let (ds, rest) := exponentDigits p.rest
      let text := p.mantissa ++ (p.rest.take 1 ++ p.rest.tail.take (signAt p.rest.tail).2 ++ ds)
      got text (.float sp.lmod text) rest.tail
    else got p.mantissa (.float sp.lmod p.mantissa) p.rest
  else
    (.fail, s)

def takeItem (it : ScanItem) (s : Bytes) : ScanRes Scanned × Bytes :=
  match it with
  | .blank => (.got ⟨[], none⟩, s.dropWhile isScanSpace)
  | .lit b =>
    match s with
    | [] => (.eof, [])
    | ch :: s => if b < 128 ∧ ch = b then (.got ⟨[ch], none⟩, s) else (.fail, ch :: s)
  | .conv sp => takeConv sp s

/--
A round that gives back what it should: a word ends before the width does, and an exponent has digits
with white space or the end of the input behind them.
-/
def CleanConv (sp : ScanSpec) (s : Bytes) : Prop :=
  let t := s.dropWhile isScanSpace
  if sp.conv = 115 then
    (t.takeWhile isWordChar).length < widthLimit 1023 sp.width
  else if sp.conv ∈ ([102, 101, 69, 103, 71, 97, 65] : Bytes) then
    let p := floatParts t
    p.whole ++ p.frac ≠ [] → hasExponent p.rest →
      (exponentDigits p.rest).1 ≠ [] ∧ ∀ b ∈ (exponentDigits p.rest).2.head?, isScanSpace b
  else
    True

def Clean (it : ScanItem) (s : Bytes) : Prop :=
  match it with
  | .conv sp => CleanConv sp s
  | _ => True

def ScanItem.counts : ScanItem → Bool
  | .conv sp => sp.conv = 110
  | _ => false

structure ScanAgrees (counts : Bool) (r : ScanRes Scanned × ScanCtx) (q : ScanRes Scanned × Bytes) : Prop where
  eof : q.1 = .eof → r.1 = .eof
  fail : q.1 = .fail → r.1 = .fail
  got : ∀ a, q.1 = .got a → ∃ a', r.1 = .got a' ∧ a'.text = a.text ∧ (counts = false → a' = a)
  left : ∀ a, q.1 = .got a → ∃ k, r.2.At q.2 k

section Rounds

variable {c : ScanCtx} {s t : Bytes} {u : Option Byte} {k : Int}

theorem ScanAgrees.eof' {counts : Bool} {c' : ScanCtx} {rest : Bytes} : ScanAgrees counts (.eof, c') (.eof, rest) :=
  ⟨fun _ => rfl, nofun, nofun, nofun⟩

theorem ScanAgrees.fail' {counts : Bool} {c' : ScanCtx} {rest : Bytes} : ScanAgrees counts (.fail, c') (.fail, rest) :=
  ⟨nofun, fun _ => rfl, nofun, nofun⟩

theorem ScanAgrees.got' {counts : Bool} {a : Scanned} {c' : ScanCtx} {rest : Bytes} (h : c'.At rest k)
    : ScanAgrees counts (.got a, c') (.got a, rest) :=
  ⟨nofun, nofun, fun a ha => ⟨a, ha, rfl, fun _ => rfl⟩, fun _ _ => ⟨k, h⟩⟩

theorem blank_agrees (h : c.At s k) : ScanAgrees false (scanItem .blank c) (takeItem .blank s) := by
  show ScanAgrees false (.got ⟨[], none⟩, giveBack (skipBlanks c).2 (skipBlanks c).1) _
  rw [h.skipBlanks]
  exact .got' (giveBack_at _ _ _)

theorem lit_agrees (h : c.At s k) (b : Byte) : ScanAgrees false (scanItem (.lit b) c) (takeItem (.lit b) s) := by
  unfold scanItem takeItem
  dsimp only
  rw [h.getc]
  cases s with
  | nil => exact .eof'
  | cons ch s =>
    rw [scGetc_before_cons]
    dsimp only
    split
    . exact .got' (ScanCtx.before_at _ _ _)
    . exact .fail'

theorem scanChars_before (n : Nat) (s : Bytes) (u : Option Byte) (k : Int)
    : (n ≤ s.length → scanChars n (.before s u k) = (.got (s.take n), .before (s.drop n) u (k + n)))
      ∧ (s.length < n → (scanChars n (.before s u k)).1 = if s = [] then .eof else .fail) := by
  induction n generalizing s k with
  | zero => exact ⟨fun _ => by simp [scanChars], nofun⟩
  | succ n ih =>
    cases s with
    | nil => exact ⟨nofun, fun _ => rfl⟩
    | cons b s =>
      obtain ⟨hgot, hshort⟩ := ih s (k + 1)
      unfold scanChars
      rw [scGetc_before_cons]
      dsimp only
      constructor
      . intro hn
        rw [hgot (by simpa using hn)]
        simp only [List.take_succ_cons, List.drop_succ_cons, Nat.cast_add, Nat.cast_one]
        rw [Int.add_right_comm, Int.add_assoc]
      . intro hn
        have hshort := hshort (by simpa using hn)
        rw [if_neg (List.cons_ne_nil _ _)]
        generalize scanChars n (.before s u (k + 1)) = r at hshort
        obtain ⟨r, c⟩ := r
        dsimp only at hshort
        subst hshort
        split <;> rename_i heq
        . split at heq <;> simp at heq
        . rfl

theorem ScanCtx.At.scanChars (h : c.At s k) {n : Nat} (hn : n ≠ 0)
    : scanChars n c = scanChars n (.before s c.unget k) := by
  obtain ⟨m, rfl⟩ := Nat.exists_eq_succ_of_ne_zero hn
  unfold TanjaOS.scanChars
  rw [h.getc]

theorem readWord_go (fuel lim : Nat) (hfuel : s.length < fuel) (hlim : (s.takeWhile isWordChar).length < lim)
    : readWord.go fuel lim (scGetc (.before s u k)).1 (scGetc (.before s u k)).2
      = (s.takeWhile isWordChar, scGetc (.before (s.dropWhile isWordChar) u
          (k + (s.takeWhile isWordChar).length))) := by
  induction s generalizing fuel lim k with
  | nil =>
    obtain ⟨fuel, rfl⟩ : ∃ n, fuel = n + 1 := ⟨fuel - 1, by simp at hfuel; omega⟩
    simp [readWord.go]
  | cons b s ih =>
    rw [List.length_cons] at hfuel
    obtain ⟨fuel, rfl⟩ : ∃ n, fuel = n + 1 := ⟨fuel - 1, by omega⟩
    rw [scGetc_before_cons]
    unfold readWord.go
    dsimp only
    rw [List.takeWhile_cons] at hlim ⊢
    by_cases hb : isScanSpace b
    . have hw : ¬isWordChar b := by
        simp [isWordChar, hb]
      rw [if_neg (fun h => h.1 hb), if_neg hw, List.dropWhile_cons, if_neg hw]
      simp
    . have hw : isWordChar b := by
        simp [isWordChar, hb]
      rw [if_pos hw, List.length_cons] at hlim
      rw [if_pos ⟨hb, by omega⟩, if_neg (by omega), if_pos hw, List.dropWhile_cons, if_pos hw,
        ih fuel (lim - 1) (by omega) (by omega)]
      simp only [List.length_cons, Nat.cast_add, Nat.cast_one]
      rw [Int.add_right_comm, Int.add_assoc]

theorem scGetc_before_fst (s : Bytes) (u : Option Byte) (k : Int) : (scGetc (.before s u k)).1 = s.head? := by
  cases s <;> rfl

theorem scGetc_before_at (s : Bytes) (u : Option Byte) (k : Int)
    : ∃ k', (scGetc (.before s u k)).2.At s.tail k' := by
  cases s with
  | nil => exact ⟨k, ScanCtx.before_at _ _ _⟩
  | cons b s => exact ⟨k + 1, ScanCtx.before_at _ _ _⟩

theorem takeWhile_word_ne_nil (ht : t ≠ []) (hs : s.dropWhile isScanSpace = t)
    : t.takeWhile isWordChar ≠ [] := by
  cases t with
  | nil => exact absurd rfl ht
  | cons b t =>
    have hb := List.head?_dropWhile_not isScanSpace s
    rw [hs] at hb
    have hw : isWordChar b := by
      simp only [List.head?_cons] at hb
      simp [isWordChar, hb]
    rw [List.takeWhile_cons, if_pos hw]
    exact List.cons_ne_nil _ _

theorem ScanCtx.At.scanStr {width : Int32} (h : c.At s k) (ht : s.dropWhile isScanSpace = t)
    (hclean : (t.takeWhile isWordChar).length < widthLimit 1023 width)
    : ∃ c' k', c'.At (t.dropWhile isWordChar).tail k'
      ∧ scanStr width c = (if t = [] then .eof else .got (t.takeWhile isWordChar), c') := by
  unfold TanjaOS.scanStr
  rw [h.skipBlanks, ht]
  cases t with
  | nil => exact ⟨_, _, ScanCtx.before_at _ _ _, rfl⟩
  | cons b t =>
    have hword := takeWhile_word_ne_nil (List.cons_ne_nil b t) ht
    have hread := @readWord_go (b :: t) c.unget (k + (s.takeWhile isScanSpace).length) (t.length + 3)
      (widthLimit 1023 width) (by simp) hclean
    rw [scGetc_before_cons] at hread ⊢
    dsimp only at hread ⊢
    have hread : readWord (if width = 0 then 1023 else width.toInt.toNat) (some b)
        (.before t c.unget (k + (s.takeWhile isScanSpace).length + 1)) = _ := hread
    rw [hread]
    dsimp only
    rw [if_neg hword, if_neg (List.cons_ne_nil b t)]
    have hspace : ¬(scGetc (.before ((b :: t).dropWhile isWordChar) c.unget
        (k + (s.takeWhile isScanSpace).length + ((b :: t).takeWhile isWordChar).length))).1.any
          (!isScanSpace ·) := by
      rw [scGetc_before_fst]
      have hhead := List.head?_dropWhile_not isWordChar (b :: t)
      cases hx : ((b :: t).dropWhile isWordChar).head? with
      | none => simp
      | some x =>
        rw [hx] at hhead
        simpa [isWordChar] using hhead
    rw [if_neg hspace]
    obtain ⟨k', hat⟩ := scGetc_before_at ((b :: t).dropWhile isWordChar) c.unget
      (k + (s.takeWhile isScanSpace).length + ((b :: t).takeWhile isWordChar).length)
    exact ⟨_, k', hat, rfl⟩

theorem readDecimals_before (s : Bytes) (u : Option Byte) (k : Int)
    : readDecimals (scGetc (.before s u k)).1 (scGetc (.before s u k)).2
      = (s.takeWhile isDecimal, scGetc (.before (s.dropWhile isDecimal) u
          (k + (s.takeWhile isDecimal).length))) := by
  unfold readDecimals
  rw [readWhile_before, whileRun_of_le, drop_takeWhile]
  cases s with
  | nil => simp
  | cons b s =>
    show s.length + 1 ≤ s.length + 3
    omega

theorem scanExponent_before {e : Byte} {r : Bytes} (h : (exponentDigits (e :: r)).1 ≠ [])
    : ∃ c' k', c'.At (exponentDigits (e :: r)).2.tail k'
      ∧ scanExponent e (.before r u k)
        = (e :: r.take (signAt r).2 ++ (exponentDigits (e :: r)).1, c') := by
  have hsign : exponentSign (scGetc (.before r u k)).1 (scGetc (.before r u k)).2
      = (r.take (signAt r).2, scGetc (.before (intRest r) u (k + (signAt r).2))) := by
    cases r with
    | nil => simp [exponentSign, intRest, signAt]
    | cons b r =>
      have hb := scanSign_eq b r u k
      unfold scanSign at hb
      rw [scGetc_before_cons]
      unfold exponentSign
      dsimp only
      split
      . next hpm =>
        rw [if_pos hpm] at hb
        injection hb with h₁ h₂
        injection h₂ with h₂ h₃
        rw [h₁, h₃]
      . next hpm =>
        rw [if_neg hpm] at hb
        injection hb with h₁ h₂
        injection h₂ with h₂ h₃
        rw [h₁, h₃]
  unfold scanExponent
  dsimp only
  rw [hsign]
  dsimp only
  rw [readDecimals_before]
  dsimp only
  have h : (intRest r).takeWhile isDecimal ≠ [] := h
  rw [if_pos h]
  obtain ⟨k', hat⟩ := scGetc_before_at ((intRest r).dropWhile isDecimal) u
    (k + (signAt r).2 + ((intRest r).takeWhile isDecimal).length)
  exact ⟨_, k', hat, rfl⟩

theorem scanFraction_before (r : Bytes) (u : Option Byte) (k : Int)
    : ∃ k', scanFraction (scGetc (.before r u k)).1 (scGetc (.before r u k)).2
      = (if r.head? = some 46 then
          ([46], r.tail.takeWhile isDecimal, scGetc (.before (r.tail.dropWhile isDecimal) u k'))
        else ([], [], scGetc (.before r u k'))) := by
  by_cases hdot : r.head? = some 46
  . obtain ⟨r, rfl⟩ : ∃ r', r = 46 :: r' := by
      cases r with
      | nil => cases hdot
      | cons b r => exact ⟨r, by rw [Option.some.inj hdot]⟩
    refine ⟨k + 1 + (r.takeWhile isDecimal).length, ?_⟩
    rw [if_pos hdot]
    unfold scanFraction
    rw [scGetc_before_fst, if_pos hdot, scGetc_before_cons]
    dsimp only
    rw [readDecimals_before]
    rfl
  . refine ⟨k, ?_⟩
    rw [if_neg hdot]
    unfold scanFraction
    rw [scGetc_before_fst, if_neg hdot, ← scGetc_before_fst r u k]

theorem scanFloatEnd_before {digits r : Bytes} (u : Option Byte) (k : Int) (hd : digits ≠ [])
    (hclean : hasExponent r → (exponentDigits r).1 ≠ [])
    : ∃ c' k', scanFloatEnd digits (scGetc (.before r u k)).1 (scGetc (.before r u k)).2
        = (if hasExponent r then r.take 1 ++ r.tail.take (signAt r.tail).2 ++ (exponentDigits r).1 else [], c')
      ∧ c'.At (if hasExponent r then (exponentDigits r).2.tail else r) k' := by
  cases r with
  | nil => exact ⟨_, k, rfl, ScanCtx.before_at _ _ _⟩
  | cons e r =>
    rw [scGetc_before_cons]
    unfold scanFloatEnd
    dsimp only
    by_cases he : hasExponent (e :: r)
    . have hmark : e = 101 ∨ e = 69 := by
        simpa [hasExponent] using he
      obtain ⟨c', k', hat, hex⟩ := @scanExponent_before u (k + 1) e r (hclean he)
      rw [if_pos ⟨hmark, hd⟩, if_pos he, if_pos he]
      exact ⟨c', k', hex, hat⟩
    . have hmark : ¬(e = 101 ∨ e = 69) := by
        simpa [hasExponent] using he
      rw [if_neg (fun h => hmark h.1), if_neg he, if_neg he]
      exact ⟨_, k, rfl, giveBack_at (e :: r) u k⟩

theorem ScanCtx.At.scanFloat {p : FloatParts} (h : c.At s k) (ht : s.dropWhile isScanSpace = t)
    (hp : floatParts t = p) (hclean : p.whole ++ p.frac ≠ [] → hasExponent p.rest →
      (exponentDigits p.rest).1 ≠ [])
    : ∃ c', (t = [] → scanFloat c = (.eof, c'))
      ∧ (t ≠ [] → p.whole ++ p.frac = [] → scanFloat c = (.fail, c'))
      ∧ (t ≠ [] → p.whole ++ p.frac ≠ [] →
          scanFloat c = (.got (p.mantissa ++ if hasExponent p.rest then
              p.rest.take 1 ++ p.rest.tail.take (signAt p.rest.tail).2 ++ (exponentDigits p.rest).1
            else []), c')
          ∧ ∃ k', c'.At (if hasExponent p.rest then (exponentDigits p.rest).2.tail else p.rest) k') := by
  unfold TanjaOS.scanFloat
  rw [h.skipBlanks, ht]
  cases t with
  | nil => exact ⟨_, fun _ => rfl, fun h => absurd rfl h, fun h => absurd rfl h⟩
  | cons b t =>
    rw [scGetc_before_cons]
    dsimp only
    rw [scanSign_eq]
    dsimp only
    rw [readDecimals_before]
    dsimp only
    generalize k + (s.takeWhile isScanSpace).length + (signAt (b :: t)).2
      + ((intRest (b :: t)).takeWhile isDecimal).length = k₁
    obtain ⟨k₂, hfrac⟩ := scanFraction_before ((intRest (b :: t)).dropWhile isDecimal) c.unget k₁
    rw [hfrac]
    have hparts : (if ((intRest (b :: t)).dropWhile isDecimal).head? = some 46 then
          (([46], ((intRest (b :: t)).dropWhile isDecimal).tail.takeWhile isDecimal,
            scGetc (.before (((intRest (b :: t)).dropWhile isDecimal).tail.dropWhile isDecimal) c.unget k₂))
            : Bytes × Bytes × Option Byte × ScanCtx)
        else ([], [], scGetc (.before ((intRest (b :: t)).dropWhile isDecimal) c.unget k₂)))
        = (p.point, p.frac, scGetc (.before p.rest c.unget k₂))
        ∧ (b :: t).take (signAt (b :: t)).2 = p.sign ∧ (intRest (b :: t)).takeWhile isDecimal = p.whole := by
      subst hp
      unfold floatParts
      dsimp only
      split
      . exact ⟨rfl, rfl, rfl⟩
      . exact ⟨rfl, rfl, rfl⟩
    obtain ⟨hparts, hsign, hwhole⟩ := hparts
    rw [hparts, hsign, hwhole]
    dsimp only
    by_cases hd : p.whole ++ p.frac = []
    . rw [if_pos hd]
      exact ⟨_, nofun, fun _ _ => rfl, fun _ h => absurd hd h⟩
    . obtain ⟨c', k', hend, hat⟩ := scanFloatEnd_before c.unget k₂ hd (hclean hd)
      rw [if_neg hd, hend]
      exact ⟨c', nofun, fun _ h => absurd h hd, fun _ _ => ⟨rfl, k', hat⟩⟩

section Conv

variable {counts : Bool} (suppress : Bool)

def scannedAs (text : Bytes) (val : ScanVal) : Scanned :=
  ⟨text, if suppress then none else some val⟩

theorem chars_agrees (h : c.At s k) (n : Nat)
    : ScanAgrees counts (scanTaken suppress (scanChars n c) id .chars)
        (if n ≤ s.length then (.got (scannedAs suppress (s.take n) (.chars (s.take n))), s.drop n)
          else if s = [] then (.eof, s) else (.fail, s)) := by
  rcases Nat.eq_zero_or_pos n with rfl | hpos
  . rw [if_pos (Nat.zero_le _)]
    exact .got' h
  . obtain ⟨hgot, hshort⟩ := scanChars_before n s c.unget k
    rw [h.scanChars (by omega)]
    by_cases hlen : n ≤ s.length
    . rw [hgot hlen, if_pos hlen]
      exact .got' (ScanCtx.before_at _ _ _)
    . have hshort := hshort (by omega)
      rw [if_neg hlen]
      generalize scanChars n (.before s c.unget k) = r at hshort
      obtain ⟨r, c'⟩ := r
      dsimp only at hshort
      subst hshort
      by_cases hs : s = []
      . rw [if_pos hs, if_pos hs]
        exact .eof'
      . rw [if_neg hs, if_neg hs]
        exact .fail'

theorem takeWord_clean {lim : Nat} (hclean : (t.takeWhile isWordChar).length < lim)
    : takeWord lim t = (t.takeWhile isWordChar, (t.dropWhile isWordChar).tail) := by
  unfold takeWord whileRun
  rw [List.take_of_length_le (Nat.le_of_lt hclean)]
  dsimp only
  rw [if_pos hclean, drop_takeWhile]

theorem str_agrees {width : Int32} (h : c.At s k) (ht : s.dropWhile isScanSpace = t)
    (hclean : (t.takeWhile isWordChar).length < widthLimit 1023 width)
    : ScanAgrees counts (scanTaken suppress (scanStr width c) id .str)
        (if t = [] then (.eof, t) else
          (.got (scannedAs suppress (takeWord (widthLimit 1023 width) t).1
            (.str (takeWord (widthLimit 1023 width) t).1)), (takeWord (widthLimit 1023 width) t).2)) := by
  obtain ⟨c', k', hat, hscan⟩ := h.scanStr ht hclean
  rw [hscan, takeWord_clean hclean]
  by_cases hnil : t = []
  . rw [if_pos hnil, if_pos hnil]
    exact .eof'
  . rw [if_neg hnil, if_neg hnil]
    exact .got' hat

theorem int_agrees {width : Int32} (h : c.At s k) (ht : s.dropWhile isScanSpace = t) (conv : Byte)
    (val : UInt64 → ScanVal)
    : ScanAgrees counts (scanTaken suppress (scanInt conv width c) (·.text) (val ·.val))
        (if t = [] then (.eof, t)
          else if intRun conv (widthLimit 1024 width) (intRest t) = [] then (.fail, t)
          else (.got (scannedAs suppress (t.take (intLen conv (widthLimit 1024 width) t))
              (val (intVal conv (widthLimit 1024 width) t))),
            t.drop (intLen conv (widthLimit 1024 width) t))) := by
  obtain ⟨c', heof, hfail, hgot⟩ := h.scanInt conv ht rfl
  by_cases hnil : t = []
  . rw [if_pos hnil, heof hnil]
    exact .eof'
  rw [if_neg hnil]
  by_cases hrun : intRun conv (widthLimit 1024 width) (intRest t) = []
  . rw [if_pos hrun, hfail hnil hrun]
    exact .fail'
  . obtain ⟨hgot, hat⟩ := hgot hnil hrun
    rw [if_neg hrun, hgot]
    exact .got' hat

end Conv

theorem conv_agrees (h : c.At s k) (sp : ScanSpec) (hclean : CleanConv sp s)
    : ScanAgrees (sp.conv = 110) (scanConv sp c) (takeConv sp s) := by
  unfold CleanConv at hclean
  unfold scanConv takeConv
  dsimp only at hclean ⊢
  generalize ht : s.dropWhile isScanSpace = t at hclean ⊢
  by_cases hn : sp.conv = 110
  . rw [if_pos hn, if_pos hn]
    refine ⟨nofun, nofun, ?_, fun _ _ => ⟨k, h⟩⟩
    intro a ha
    cases ha
    refine ⟨_, rfl, rfl, ?_⟩
    intro hcounts
    simp [hn] at hcounts
  rw [if_neg hn, if_neg hn]
  by_cases hc : sp.conv = 99
  . rw [if_pos hc, if_pos hc]
    exact chars_agrees sp.suppress h _
  rw [if_neg hc, if_neg hc]
  by_cases hstr : sp.conv = 115
  . rw [if_pos hstr] at hclean
    rw [if_pos hstr, if_pos hstr]
    exact str_agrees sp.suppress h ht hclean
  rw [if_neg hstr] at hclean
  rw [if_neg hstr, if_neg hstr]
  by_cases hint : sp.conv ∈ ([100, 105, 117, 120, 88, 111] : Bytes)
  . rw [if_pos hint, if_pos hint]
    exact int_agrees sp.suppress h ht sp.conv _
  rw [if_neg hint, if_neg hint]
  by_cases hfl : sp.conv ∈ ([102, 101, 69, 103, 71, 97, 65] : Bytes)
  . rw [if_pos hfl] at hclean
    rw [if_pos hfl, if_pos hfl]
    generalize hp : floatParts t = p at hclean ⊢
    obtain ⟨c', heof, hfail, hgot⟩ := h.scanFloat ht hp fun hd he => (hclean hd he).1
    by_cases hnil : t = []
    . rw [if_pos hnil, heof hnil]
      exact .eof'
    rw [if_neg hnil]
    by_cases hd : p.whole ++ p.frac = []
    . rw [if_pos hd, hfail hnil hd]
      exact .fail'
    . obtain ⟨hgot, k', hat⟩ := hgot hnil hd
      rw [if_neg hd, hgot]
      by_cases he : hasExponent p.rest
      . rw [if_pos he] at hat
        rw [if_pos he, if_pos he]
        exact .got' hat
      . rw [if_neg he] at hat
        rw [if_neg he, if_neg he, List.append_nil]
        exact .got' hat
  . rw [if_neg hfl, if_neg hfl]
    exact .fail'

theorem scanItem_agrees (h : c.At s k) {it : ScanItem} (hclean : Clean it s)
    : ScanAgrees it.counts (scanItem it c) (takeItem it s) := by
  cases it with
  | blank => exact blank_agrees h
  | lit b => exact lit_agrees h b
  | conv sp => exact conv_agrees h sp hclean

/--
What is read stands in the text, with nothing but white space around it that is gone as well.
-/
def TakenFrom (s text rest : Bytes) : Prop :=
  ∃ ws ws', (∀ b ∈ ws, isScanSpace b) ∧ (∀ b ∈ ws', isScanSpace b) ∧ s = ws ++ (text ++ (ws' ++ rest))

theorem takenFrom_dropWhile {text rest : Bytes} (ht : s.dropWhile isScanSpace = t)
    (h : ∃ ws', (∀ b ∈ ws', isScanSpace b) ∧ t = text ++ (ws' ++ rest))
    : TakenFrom s text rest := by
  obtain ⟨ws', hspace, rfl⟩ := h
  refine ⟨s.takeWhile isScanSpace, ws', fun b hb => List.mem_takeWhile_imp hb, hspace, ?_⟩
  rw [← ht, List.takeWhile_append_dropWhile]

theorem tail_of_space {r : Bytes} (h : ∀ b ∈ r.head?, isScanSpace b)
    : ∃ ws', (∀ b ∈ ws', isScanSpace b) ∧ r = ws' ++ r.tail := by
  cases r with
  | nil => exact ⟨[], nofun, rfl⟩
  | cons b r =>
    refine ⟨[b], ?_, rfl⟩
    intro c hc
    rw [List.mem_singleton.1 hc]
    exact h b rfl

theorem head_dropWhile_word (t : Bytes) : ∀ b ∈ (t.dropWhile isWordChar).head?, isScanSpace b := by
  intro b hb
  have hhead := List.head?_dropWhile_not isWordChar t
  rw [Option.mem_def.1 hb] at hhead
  simpa [isWordChar] using hhead

theorem take_intRest (t : Bytes) : t.take (signAt t).2 ++ intRest t = t :=
  List.take_append_drop _ _

theorem floatParts_text (t : Bytes) : t = (floatParts t).mantissa ++ (floatParts t).rest := by
  have hsign := take_intRest t
  have hwhole := (intRest t).takeWhile_append_dropWhile (p := isDecimal)
  unfold floatParts FloatParts.mantissa
  dsimp only
  by_cases hdot : ((intRest t).dropWhile isDecimal).head? = some 46
  . rw [if_pos hdot]
    have hpoint : (intRest t).dropWhile isDecimal = 46 :: ((intRest t).dropWhile isDecimal).tail := by
      cases hr : (intRest t).dropWhile isDecimal with
      | nil =>
        rw [hr] at hdot
        cases hdot
      | cons b r =>
        rw [hr] at hdot
        rw [Option.some.inj hdot]
        rfl
    have hfrac := (((intRest t).dropWhile isDecimal).tail).takeWhile_append_dropWhile (p := isDecimal)
    simp only [List.append_assoc]
    rw [hfrac, List.singleton_append, ← hpoint, hwhole, hsign]
  . rw [if_neg hdot]
    simp only [List.append_nil, List.append_assoc]
    rw [hwhole, hsign]

theorem exponent_text {r : Bytes} (h : hasExponent r)
    : r = r.take 1 ++ r.tail.take (signAt r.tail).2 ++ (exponentDigits r).1 ++ (exponentDigits r).2 := by
  cases r with
  | nil => exact absurd h (by decide)
  | cons e r =>
    unfold exponentDigits
    simp only [List.take_succ_cons, List.take_zero, List.tail_cons, List.append_assoc]
    rw [List.takeWhile_append_dropWhile, take_intRest]
    rfl

theorem takeConv_from {sp : ScanSpec} {a : Scanned} {rest : Bytes} (hclean : CleanConv sp s)
    (h : takeConv sp s = (.got a, rest))
    : TakenFrom s a.text rest := by
  unfold CleanConv at hclean
  unfold takeConv at h
  dsimp only at hclean h
  generalize ht : s.dropWhile isScanSpace = t at hclean h
  split at h
  . cases h
    exact ⟨[], [], nofun, nofun, rfl⟩
  split at h
  . generalize (if sp.width = 0 then 1 else sp.width.toInt.toNat) = n at h
    split at h
    . cases h
      exact ⟨[], [], nofun, nofun, (List.take_append_drop _ _).symm⟩
    . split at h <;> cases h
  split at h
  . next hstr =>
    rw [if_pos hstr] at hclean
    split at h
    . cases h
    . rw [takeWord_clean hclean] at h
      cases h
      apply takenFrom_dropWhile ht
      obtain ⟨ws', hspace, heq⟩ := tail_of_space (head_dropWhile_word t)
      refine ⟨ws', hspace, ?_⟩
      rw [← heq, List.takeWhile_append_dropWhile]
  split at h
  . split at h
    . cases h
    . split at h
      . cases h
      . cases h
        exact takenFrom_dropWhile ht ⟨[], nofun, (List.take_append_drop _ _).symm⟩
  split at h
  . next hstr _ hfl =>
    rw [if_neg hstr, if_pos hfl] at hclean
    have htext := floatParts_text t
    split at h
    . cases h
    split at h
    . cases h
    split at h
    . next hd he =>
      obtain ⟨-, hspace⟩ := hclean hd he
      have hex := exponent_text he
      cases h
      apply takenFrom_dropWhile ht
      obtain ⟨ws', hws, heq⟩ := tail_of_space hspace
      refine ⟨ws', hws, ?_⟩
      rw [List.append_assoc, ← heq, ← hex]
      exact htext
    . cases h
      exact takenFrom_dropWhile ht ⟨[], nofun, htext⟩
  . cases h

theorem takeItem_from {it : ScanItem} {a : Scanned} {rest : Bytes} (hclean : Clean it s)
    (h : takeItem it s = (.got a, rest))
    : TakenFrom s a.text rest := by
  cases it with
  | blank =>
    cases h
    exact takenFrom_dropWhile rfl ⟨[], nofun, rfl⟩
  | lit b =>
    unfold takeItem at h
    dsimp only at h
    cases s with
    | nil => cases h
    | cons ch s =>
      dsimp only at h
      split at h
      . cases h
        exact ⟨[], [], nofun, nofun, rfl⟩
      . cases h
  | conv sp => exact takeConv_from hclean h

end Rounds

section Limit

variable {c : ScanCtx} {s t : Bytes} {u : Option Byte} {k : Int} {width : Int32}

theorem readWord_limit (fuel lim : Nat) (hfuel : s.length < fuel) (h0 : 0 < lim)
    (hlim : lim ≤ (s.takeWhile isWordChar).length)
    : ∃ b, isWordChar b ∧ (s.take lim).getLast? = some b
      ∧ readWord.go fuel lim (scGetc (.before s u k)).1 (scGetc (.before s u k)).2
        = (s.take lim, some b, .before (s.drop lim) u (k + lim)) := by
  induction s generalizing fuel lim k with
  | nil => exact absurd hlim (by simp; omega)
  | cons x s ih =>
    rw [List.length_cons] at hfuel
    obtain ⟨fuel, rfl⟩ : ∃ n, fuel = n + 1 := ⟨fuel - 1, by omega⟩
    rw [List.takeWhile_cons] at hlim
    by_cases hx : isWordChar x
    . rw [if_pos hx, List.length_cons] at hlim
      have hspace : ¬isScanSpace x := by
        simpa [isWordChar] using hx
      rw [scGetc_before_cons]
      unfold readWord.go
      dsimp only
      rw [if_pos ⟨hspace, h0⟩]
      by_cases hone : lim ≤ 1
      . obtain rfl : lim = 1 := by omega
        rw [if_pos hone]
        exact ⟨x, hx, rfl, rfl⟩
      . obtain ⟨lim, rfl⟩ : ∃ n, lim = n + 1 := ⟨lim - 1, by omega⟩
        rw [Nat.add_sub_cancel]
        obtain ⟨b, hb, hlast, hread⟩ := @ih (k + 1) fuel lim (by omega) (by omega) (by omega)
        rw [if_neg hone]
        refine ⟨b, hb, ?_, ?_⟩
        . rw [List.take_succ_cons, List.getLast?_cons, hlast]
          rfl
        . rw [hread]
          simp only [List.take_succ_cons, List.drop_succ_cons, Nat.cast_add, Nat.cast_one]
          rw [Int.add_right_comm, Int.add_assoc]
    . rw [if_neg hx] at hlim
      exact absurd hlim (by simp; omega)

theorem scanStr_limit (h : c.At s k) (ht : s.dropWhile isScanSpace = t)
    (h0 : 0 < widthLimit 1023 width)
    (hlim : widthLimit 1023 width ≤ (t.takeWhile isWordChar).length)
    : ∃ c' k' b, (t.take (widthLimit 1023 width)).getLast? = some b
      ∧ scanStr width c = (.got (t.take (widthLimit 1023 width)), c')
      ∧ c'.At (b :: t.drop (widthLimit 1023 width)) k' := by
  unfold scanStr
  rw [h.skipBlanks, ht]
  cases t with
  | nil => exact absurd hlim (by simp; omega)
  | cons x t =>
    obtain ⟨b, hb, hlast, hread⟩ := @readWord_limit (x :: t) c.unget
      (k + (s.takeWhile isScanSpace).length) (t.length + 3) (widthLimit 1023 width) (by simp) h0 hlim
    rw [scGetc_before_cons] at hread ⊢
    dsimp only at hread ⊢
    have hread : readWord (if width = 0 then 1023 else width.toInt.toNat) (some x)
        (.before t c.unget (k + (s.takeWhile isScanSpace).length + 1)) = _ := hread
    have hne : (x :: t).take (widthLimit 1023 width) ≠ [] := by
      intro hnil
      rw [hnil] at hlast
      cases hlast
    have hany : (some b).any (!isScanSpace ·) := hb
    rw [hread]
    dsimp only
    rw [if_neg hne, if_pos hany]
    exact ⟨_, _, b, hlast, rfl, rfl, nofun, rfl⟩

theorem takenFrom_length_le {text rest : Bytes} (h : TakenFrom s text rest) (ht : s.dropWhile isScanSpace = t)
    {b : Byte} (hb : text.head? = some b) (hword : ¬isScanSpace b)
    : text.length + rest.length ≤ t.length := by
  obtain ⟨ws, ws', hws, -, rfl⟩ := h
  obtain ⟨text, rfl⟩ : ∃ l, text = b :: l := by
    cases text with
    | nil => cases hb
    | cons x l => exact ⟨l, by rw [Option.some.inj hb]⟩
  rw [List.dropWhile_append_of_pos hws, List.cons_append, List.dropWhile_cons, if_neg hword] at ht
  rw [← ht]
  simp only [List.length_cons, List.length_append]
  omega

theorem word_once_iff (h : c.At s k) (ht : s.dropWhile isScanSpace = t) (hne : t ≠ [])
    (h0 : 0 < widthLimit 1023 width)
    : (∃ word c' rest k', scanStr width c = (.got word, c') ∧ c'.At rest k' ∧ TakenFrom s word rest)
      ↔ (t.takeWhile isWordChar).length < widthLimit 1023 width := by
  constructor
  . rintro ⟨word, c', rest, k', hscan, hat, htaken⟩
    by_contra hlim
    obtain ⟨c₁, k₁, b, hlast, hscan₁, hat₁⟩ := scanStr_limit h ht h0 (by omega)
    have hboth := hscan.symm.trans hscan₁
    injection hboth with hword hc
    injection hword with hword
    subst hword
    subst hc
    have hrest : rest = b :: t.drop (widthLimit 1023 width) :=
      hat.pending.symm.trans hat₁.pending
    obtain ⟨x, l, rfl⟩ := List.exists_cons_of_ne_nil hne
    have hx : ¬isScanSpace x := by
      have hhead := List.head?_dropWhile_not isScanSpace s
      rw [ht] at hhead
      simpa using hhead
    have hhead : ((x :: l).take (widthLimit 1023 width)).head? = some x := by
      obtain ⟨n, hn⟩ : ∃ n, widthLimit 1023 width = n + 1 := ⟨widthLimit 1023 width - 1, by omega⟩
      rw [hn, List.take_succ_cons, List.head?_cons]
    have hle := takenFrom_length_le htaken ht hhead hx
    have hlong := (List.takeWhile_prefix (p := isWordChar) (l := x :: l)).length_le
    rw [hrest] at hle
    simp only [List.length_take, List.length_cons, List.length_drop] at hle hlong
    omega
  . intro hclean
    obtain ⟨c', k', hat, hscan⟩ := h.scanStr ht hclean
    rw [if_neg hne] at hscan
    refine ⟨_, c', _, k', hscan, hat, takenFrom_dropWhile ht ?_⟩
    obtain ⟨ws', hspace, heq⟩ := tail_of_space (head_dropWhile_word t)
    refine ⟨ws', hspace, ?_⟩
    rw [← heq, List.takeWhile_append_dropWhile]

end Limit

end TanjaOS
