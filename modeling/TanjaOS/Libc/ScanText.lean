import TanjaOS.Libc.Scan

/-!
What the scanning engine takes of a text, whether or not the first character of it is in hand.
-/

open Lib

namespace TanjaOS

/--
`s` is what is still to be read, `k` characters have been.
-/
structure ScanCtx.At (c : ScanCtx) (s : Bytes) (k : Int) : Prop where
  pending : (if c.ungotten then c.unget.toList else []) ++ c.input = s
  given : c.ungotten → c.unget ≠ none
  consumed : c.consumed = k

/--
Nothing is in hand in front of `s`.
-/
def ScanCtx.before (s : Bytes) (u : Option Byte) (k : Int) : ScanCtx where
  input := s
  unget := u
  consumed := k

section Getc

variable {c : ScanCtx} {s : Bytes} {u : Option Byte} {k : Int} {p : Byte → Bool}

theorem ScanCtx.before_at (s : Bytes) (u : Option Byte) (k : Int) : (ScanCtx.before s u k).At s k where
  pending := rfl
  given := nofun
  consumed := rfl

@[simp]
theorem scGetc_before_nil : scGetc (.before [] u k) = (none, .before [] u k) := rfl

@[simp]
theorem scGetc_before_cons (b : Byte)
    : scGetc (.before (b :: s) u k) = (some b, .before s u (k + 1)) := rfl

theorem ScanCtx.At.getc (h : c.At s k) : scGetc c = scGetc (.before s c.unget k) := by
  obtain ⟨hp, hg, rfl⟩ := h
  obtain ⟨input, unget, ungotten, consumed⟩ := c
  subst hp
  cases ungotten with
  | false =>
    cases input with
    | nil => rfl
    | cons b input => rfl
  | true =>
    cases unget with
    | none => exact absurd rfl (hg rfl)
    | some b => rfl

theorem giveBack_at (s : Bytes) (u : Option Byte) (k : Int)
    : (giveBack (scGetc (.before s u k)).2 (scGetc (.before s u k)).1).At s k := by
  cases s with
  | nil => exact ScanCtx.before_at _ _ _
  | cons b s =>
    refine ⟨rfl, nofun, ?_⟩
    show k + 1 - 1 = k
    omega

theorem scGetc_scUngetc (c : ScanCtx) (ch : Option Byte)
    : scGetc (scUngetc c ch) = (ch, { c with unget := ch, ungotten := false }) := by
  unfold scGetc scUngetc
  rw [if_pos rfl]
  simp

/--
What one of the loops reads, `s` begins with the character in hand.
-/
def whileRun (p : Byte → Bool) (lim : Nat) (s : Bytes) : Bytes :=
  (s.takeWhile p).take lim

theorem whileRun_cons {b : Byte} {lim : Nat} (hb : p b) (hlim : 0 < lim)
    : whileRun p lim (b :: s) = b :: whileRun p (lim - 1) s := by
  obtain ⟨n, rfl⟩ : ∃ n, lim = n + 1 := ⟨lim - 1, by omega⟩
  unfold whileRun
  rw [List.takeWhile_cons, if_pos hb, List.take_succ_cons, Nat.add_sub_cancel]

theorem whileRun_stop {b : Byte} {lim : Nat} (h : ¬(p b ∧ 0 < lim)) : whileRun p lim (b :: s) = [] := by
  unfold whileRun
  rw [List.takeWhile_cons]
  split
  . next hb =>
    obtain rfl : lim = 0 := by
      by_contra hlim
      exact h ⟨hb, by omega⟩
    rfl
  . exact List.take_nil

theorem readWhile_go (fuel lim : Nat) (hfuel : s.length < fuel)
    : readWhile.go p fuel lim (scGetc (.before s u k)).1 (scGetc (.before s u k)).2
      = (whileRun p lim s, scGetc (.before (s.drop (whileRun p lim s).length) u
          (k + (whileRun p lim s).length))) := by
  induction s generalizing fuel lim k with
  | nil =>
    obtain ⟨fuel, rfl⟩ : ∃ n, fuel = n + 1 := ⟨fuel - 1, by simp at hfuel; omega⟩
    rw [scGetc_before_nil]
    simp [readWhile.go, whileRun]
  | cons b s ih =>
    rw [List.length_cons] at hfuel
    obtain ⟨fuel, rfl⟩ : ∃ n, fuel = n + 1 := ⟨fuel - 1, by omega⟩
    rw [scGetc_before_cons]
    unfold readWhile.go
    dsimp only
    by_cases h : p b ∧ 0 < lim
    . rw [if_pos h, whileRun_cons h.1 h.2, ih fuel (lim - 1) (by omega)]
      simp only [List.length_cons, List.drop_succ_cons, Nat.cast_add, Nat.cast_one]
      rw [Int.add_right_comm, Int.add_assoc]
    . rw [if_neg h, whileRun_stop h]
      simp

theorem readWhile_before (p : Byte → Bool) (lim : Nat) (s : Bytes) (u : Option Byte) (k : Int)
    : readWhile p lim (scGetc (.before s u k)).1 (scGetc (.before s u k)).2
      = (whileRun p lim s, scGetc (.before (s.drop (whileRun p lim s).length) u
          (k + (whileRun p lim s).length))) := by
  apply readWhile_go
  cases s with
  | nil => simp [ScanCtx.before]
  | cons b s =>
    show s.length + 1 < s.length + 3
    omega

theorem whileRun_of_le {lim : Nat} (h : s.length ≤ lim) : whileRun p lim s = s.takeWhile p := by
  apply List.take_of_length_le
  exact (List.takeWhile_prefix p).length_le.trans h

theorem ScanCtx.At.skipBlanks (h : c.At s k)
    : skipBlanks c = scGetc (.before (s.dropWhile isScanSpace) c.unget
        (k + (s.takeWhile isScanSpace).length)) := by
  unfold TanjaOS.skipBlanks
  rw [h.getc]
  dsimp only
  rw [readWhile_before, whileRun_of_le, drop_takeWhile]
  cases s with
  | nil => simp
  | cons b s =>
    show s.length + 1 ≤ s.length + 3
    omega

end Getc

section Int

variable {c : ScanCtx} {s : Bytes} {k : Int} {conv : Byte} {width : Int32}

/--
The base that is decided for in front of `r`, and how many characters are skipped for it.
-/
def scanBaseAt (conv : Byte) (r : Bytes) : Nat × Nat :=
  if conv = 105 ∧ r.getD 0 0 = 48 then
    if r.getD 1 0 = 120 ∨ r.getD 1 0 = 88 then (16, 2) else (8, 0)
  else
    (scanBase conv, 0)

def widthLimit (max : Nat) (width : Int32) : Nat :=
  if width = 0 then max else width.toInt.toNat

def intRest (s : Bytes) : Bytes :=
  s.drop (signAt s).2

def intRun (conv : Byte) (lim : Nat) (r : Bytes) : Bytes :=
  whileRun (isDigitOf (scanBaseAt conv r).1) lim (r.drop (scanBaseAt conv r).2)

/--
How many characters make up the number at the start of `s`.
-/
def intLen (conv : Byte) (lim : Nat) (s : Bytes) : Nat :=
  (signAt s).2 + ((scanBaseAt conv (intRest s)).2 + (intRun conv lim (intRest s)).length)

/--
The number at the start of `s`, modulo 2^64.
-/
def intVal (conv : Byte) (lim : Nat) (s : Bytes) : UInt64 :=
  let v := UInt64.ofNat (numVal (scanBaseAt conv (intRest s)).1 (intRun conv lim (intRest s)))
  if (signAt s).1 then 0 - v else v

theorem isSpaceChar_of_isScanSpace : ∀ b, isScanSpace b → isSpaceChar b := by
  decide +kernel

theorem numVal_append (b : Nat) (l l' : Bytes)
    : numVal b (l ++ l') = numVal b l * b ^ l'.length + numVal b l' := by
  have hfold : ∀ (l : Bytes) (v : Nat), l.foldl (fun v c => v * b + (digitVal c).getD 0) v
      = v * b ^ l.length + numVal b l := by
    intro l
    induction l with
    | nil => simp [numVal]
    | cons c l ih =>
      intro v
      unfold numVal
      rw [List.foldl_cons, List.foldl_cons, ih, ih (0 * b + _), List.length_cons]
      ring
  unfold numVal
  rw [List.foldl_append, hfold l']
  rfl

theorem scanDigit_eq : ∀ b, scanDigit b = (digitVal b).filter (· < 16) := by
  decide +kernel

theorem isScanDigit_eq {base : Nat} (hbase : base ≤ 16) : isScanDigit base = isDigitOf base := by
  funext b
  unfold isScanDigit isDigitOf
  rw [scanDigit_eq]
  cases digitVal b with
  | none => rfl
  | some d =>
    by_cases hd : d < 16
    . simp [Option.filter, hd]
    . simp only [Option.filter, hd, decide_false, Bool.false_eq_true, if_false]
      exact (decide_eq_false (by omega)).symm

theorem scanBaseAt_le (conv : Byte) (r : Bytes) : (scanBaseAt conv r).1 ≤ 16 := by
  unfold scanBaseAt scanBase
  split
  . split <;> simp
  . dsimp only
    repeat' split
    all_goals simp

theorem scanVal_eq {base : Nat} (hbase : base ≤ 16) {ds : Bytes} (hds : ∀ d ∈ ds, isDigitOf base d)
    : ds.foldl (fun v d => v * .ofNat base + .ofNat ((scanDigit d).getD 0)) (0 : UInt64)
      = .ofNat (numVal base ds) := by
  suffices h : ∀ v : Nat, ds.foldl
      (fun v d => v * .ofNat base + .ofNat ((scanDigit d).getD 0)) (UInt64.ofNat v)
        = .ofNat (ds.foldl (fun v d => v * base + (digitVal d).getD 0) v) from h 0
  induction ds with
  | nil => exact fun _ => rfl
  | cons d ds ih =>
    intro v
    have hd : (scanDigit d).getD 0 = (digitVal d).getD 0 := by
      have hd := hds d (by simp)
      rw [← isScanDigit_eq hbase] at hd
      unfold isScanDigit at hd
      rw [scanDigit_eq] at hd ⊢
      cases hv : digitVal d with
      | none => rfl
      | some n =>
        rw [hv] at hd
        by_cases hn : n < 16
        . simp [Option.filter, hn]
        . simp [Option.filter, hn] at hd
    rw [List.foldl_cons, List.foldl_cons, hd, ← ih fun d h => hds d (by simp [h])]
    simp

theorem scanSign_eq (b : Byte) (t : Bytes) (u : Option Byte) (k : Int)
    : scanSign b (.before t u (k + 1))
      = ((b :: t).take (signAt (b :: t)).2, (signAt (b :: t)).1,
          scGetc (.before (intRest (b :: t)) u (k + (signAt (b :: t)).2))) := by
  unfold scanSign intRest signAt
  simp only [List.getD_cons_zero]
  by_cases h43 : b = 43
  . subst h43
    rfl
  . by_cases h45 : b = 45
    . subst h45
      rfl
    . simp [h43, h45]

theorem readWhile_scUngetc {p : Byte → Bool} {lim : Nat} {b : Byte} (hb : p b) (hlim : 0 < lim)
    (r : Bytes) (u : Option Byte) (k : Int)
    : readWhile p lim (some b) (scUngetc (scGetc (.before r u (k + 1))).2 (scGetc (.before r u (k + 1))).1)
      = (whileRun p lim (b :: r), scGetc (.before ((b :: r).drop (whileRun p lim (b :: r)).length) r.head?
          (k + (whileRun p lim (b :: r)).length))) := by
  have hback : scGetc (scUngetc (scGetc (.before r u (k + 1))).2 (scGetc (.before r u (k + 1))).1)
      = scGetc (.before r r.head? (k + 1)) := by
    rw [scGetc_scUngetc]
    cases r with
    | nil => rfl
    | cons x r => rfl
  unfold readWhile
  generalize hc : scUngetc (scGetc (.before r u (k + 1))).2 (scGetc (.before r u (k + 1))).1 = c at hback ⊢
  have hinput : c.input = r.tail := by
    subst hc
    cases r with
    | nil => rfl
    | cons x r => rfl
  unfold readWhile.go
  dsimp only
  rw [if_pos ⟨hb, hlim⟩, hback, readWhile_go, whileRun_cons hb hlim]
  . simp only [List.length_cons, List.drop_succ_cons, Nat.cast_add, Nat.cast_one]
    rw [Int.add_right_comm, Int.add_assoc]
  . rw [hinput, List.length_tail]
    omega

theorem getD_zero_eq_48 (r : Bytes) : r.getD 0 0 = 48 ↔ r.head? = some 48 := by
  cases r with
  | nil => simp
  | cons b r => simp

theorem scanPrefix_readWhile {lim : Nat} (hlim : 0 < lim) (conv : Byte) (r : Bytes) (u : Option Byte)
    (k : Int)
    : ∃ ch c u', scanPrefix conv (scGetc (.before r u k)).1 (scGetc (.before r u k)).2
        = (r.take (scanBaseAt conv r).2, (scanBaseAt conv r).1, ch, c)
      ∧ readWhile (isScanDigit (scanBaseAt conv r).1) lim ch c
        = (intRun conv lim r,
            scGetc (.before (r.drop ((scanBaseAt conv r).2 + (intRun conv lim r).length)) u'
              (k + ((scanBaseAt conv r).2 + (intRun conv lim r).length : Nat)))) := by
  rw [isScanDigit_eq (scanBaseAt_le conv r)]
  unfold intRun
  by_cases h : conv = 105 ∧ r.getD 0 0 = 48
  . obtain ⟨rfl, h48⟩ := h
    obtain ⟨r, rfl⟩ : ∃ r', r = 48 :: r' := by
      cases r with
      | nil => cases h48
      | cons b r => exact ⟨r, by rw [show b = 48 from h48]⟩
    rw [scGetc_before_cons]
    by_cases hx : r.getD 0 0 = 120 ∨ r.getD 0 0 = 88
    . obtain ⟨x, r, rfl⟩ : ∃ x r', r = x :: r' := by
        cases r with
        | nil => exact absurd hx (by decide)
        | cons x r => exact ⟨x, r, rfl⟩
      have hx : x = 120 ∨ x = 88 := hx
      have hbase : scanBaseAt 105 (48 :: x :: r) = (16, 2) := by
        simp only [scanBaseAt, List.getD_cons_zero, List.getD_cons_succ, hx, and_self, if_true]
      rw [hbase]
      refine ⟨(scGetc (.before r u (k + 1 + 1))).1, (scGetc (.before r u (k + 1 + 1))).2, u, ?_, ?_⟩
      . simp only [scanPrefix, scGetc_before_cons, hx, and_self, if_true, List.take_succ_cons,
          List.take_zero]
      . rw [readWhile_before]
        simp only [List.drop_succ_cons, List.drop_zero]
        rw [Nat.add_comm 2]
        simp only [List.drop_succ_cons]
        push_cast
        rw [Int.add_assoc k 1 1, Int.add_assoc k, Int.add_comm _ 2]
        rfl
    . have hbase : scanBaseAt 105 (48 :: r) = (8, 0) := by
        simp only [scanBaseAt, List.getD_cons_zero, List.getD_cons_succ, hx, and_self, if_true, if_false]
      rw [hbase]
      refine ⟨some 48, scUngetc (scGetc (.before r u (k + 1))).2 (scGetc (.before r u (k + 1))).1, r.head?,
        ?_, ?_⟩
      . cases r with
        | nil => rfl
        | cons x r =>
          have hx : ¬(x = 120 ∨ x = 88) := hx
          simp only [scanPrefix, scGetc_before_cons, hx, and_self, if_true, if_false, List.take_zero]
      . have h8 : isDigitOf 8 48 := by decide
        have hread := readWhile_scUngetc h8 hlim r u k
        cases r with
        | nil => simpa using hread
        | cons x r => simpa using hread
  . have hbase : scanBaseAt conv r = (scanBase conv, 0) := if_neg h
    have hpre : scanPrefix conv (scGetc (.before r u k)).1 (scGetc (.before r u k)).2
        = ([], scanBase conv, scGetc (.before r u k)) := by
      apply if_neg
      rintro ⟨hconv, hch⟩
      apply h
      refine ⟨hconv, ?_⟩
      rw [getD_zero_eq_48]
      cases r with
      | nil => cases hch
      | cons b r => exact hch
    rw [hbase, hpre]
    refine ⟨(scGetc (.before r u k)).1, (scGetc (.before r u k)).2, u, rfl, ?_⟩
    rw [readWhile_before]
    simp

theorem readWhile_zero (p : Byte → Bool) (ch : Option Byte) (c : ScanCtx)
    : (readWhile p 0 ch c).1 = [] := by
  unfold readWhile readWhile.go
  cases ch with
  | none => rfl
  | some b =>
    dsimp only
    rw [if_neg (fun h => absurd h.2 (by decide))]

theorem intRun_zero (conv : Byte) (r : Bytes) : intRun conv 0 r = [] := by
  simp [intRun, whileRun]

theorem isDigitOf_intRun {lim : Nat} {r : Bytes}
    : ∀ d ∈ intRun conv lim r, isDigitOf (scanBaseAt conv r).1 d :=
  fun _ hd => List.mem_takeWhile_imp (List.mem_of_mem_take hd)

theorem intRun_isPrefix (conv : Byte) (lim : Nat) (r : Bytes)
    : intRun conv lim r <+: r.drop (scanBaseAt conv r).2 :=
  (List.take_prefix _ _).trans (List.takeWhile_prefix _)

theorem take_intLen (conv : Byte) (lim : Nat) (t : Bytes)
    : t.take (intLen conv lim t)
      = t.take (signAt t).2 ++ (intRest t).take (scanBaseAt conv (intRest t)).2
        ++ intRun conv lim (intRest t) := by
  unfold intLen
  rw [List.take_add, List.take_add]
  have hrun := List.prefix_iff_eq_take.1 (intRun_isPrefix conv lim (intRest t))
  rw [List.append_assoc]
  exact congrArg (fun l => t.take (signAt t).2 ++ ((intRest t).take _ ++ l)) hrun.symm

theorem ScanCtx.At.scanInt {t : Bytes} {lim : Nat} (h : c.At s k) (conv : Byte)
    (ht : s.dropWhile isScanSpace = t) (hlim : widthLimit 1024 width = lim)
    : ∃ c', (t = [] → scanInt conv width c = (.eof, c'))
      ∧ (t ≠ [] → intRun conv lim (intRest t) = [] → scanInt conv width c = (.fail, c'))
      ∧ (t ≠ [] → intRun conv lim (intRest t) ≠ [] →
          scanInt conv width c = (.got ⟨t.take (intLen conv lim t), intVal conv lim t⟩, c')
            ∧ c'.At (t.drop (intLen conv lim t))
              (k + ((s.takeWhile isScanSpace).length + intLen conv lim t : Nat))) := by
  unfold TanjaOS.scanInt
  rw [h.skipBlanks, ht]
  cases t with
  | nil => exact ⟨_, fun _ => rfl, fun h => absurd rfl h, fun h => absurd rfl h⟩
  | cons b t =>
    rw [scGetc_before_cons]
    dsimp only
    rw [scanSign_eq]
    dsimp only
    unfold widthLimit at hlim
    rw [hlim]
    rcases Nat.eq_zero_or_pos lim with rfl | hpos
    . rw [if_pos (readWhile_zero _ _ _)]
      exact ⟨_, nofun, fun _ _ => rfl, fun _ hrun => absurd (intRun_zero _ _) hrun⟩
    . obtain ⟨ch, c', u', hpre, hread⟩ := scanPrefix_readWhile hpos conv (intRest (b :: t)) c.unget
        (k + (s.takeWhile isScanSpace).length + (signAt (b :: t)).2)
      rw [hpre]
      dsimp only
      rw [hread]
      dsimp only
      by_cases hrun : intRun conv lim (intRest (b :: t)) = []
      . rw [if_pos hrun]
        exact ⟨_, nofun, fun _ _ => rfl, fun _ h => absurd hrun h⟩
      . rw [if_neg hrun, take_intLen, scanVal_eq (scanBaseAt_le _ _) isDigitOf_intRun]
        refine ⟨_, nofun, fun _ h => absurd h hrun, fun _ _ => ⟨rfl, ?_⟩⟩
        have hat := giveBack_at ((intRest (b :: t)).drop ((scanBaseAt conv (intRest (b :: t))).2
          + (intRun conv lim (intRest (b :: t))).length)) u'
          (k + (s.takeWhile isScanSpace).length + (signAt (b :: t)).2
            + ((scanBaseAt conv (intRest (b :: t))).2
              + (intRun conv lim (intRest (b :: t))).length : Nat))
        have hk : k + (s.takeWhile isScanSpace).length + (signAt (b :: t)).2
            + ((scanBaseAt conv (intRest (b :: t))).2
              + (intRun conv lim (intRest (b :: t))).length : Nat)
            = k + ((s.takeWhile isScanSpace).length + intLen conv lim (b :: t) : Nat) := by
          unfold intLen
          push_cast
          omega
        have htext : (intRest (b :: t)).drop ((scanBaseAt conv (intRest (b :: t))).2
            + (intRun conv lim (intRest (b :: t))).length) = (b :: t).drop (intLen conv lim (b :: t)) := by
          unfold intRest
          rw [List.drop_drop]
          rfl
        rw [← hk, ← htext]
        exact hat

end Int

end TanjaOS
