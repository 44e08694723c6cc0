import TanjaOS.Lib.Bits
import TanjaOS.Lib.Checked

/-!
The UTF-8 decoder that the console and the editor share. The standard encoding is the one of `Char`.
-/

open Lib

namespace TanjaOS

def utf8Invalid : UInt32 := 0xFFFFFFFF

def utf8Lead (b0 : Byte) : Option (UInt32 × Nat) :=
  if b0 &&& 0xE0 = 0xC0 then
    let c := b0 &&& 0x1F
    if c < 2 then none else some (c.toUInt32, 1)
  else if b0 &&& 0xF0 = 0xE0 then
    some ((b0 &&& 0x0F).toUInt32, 2)
  else if b0 &&& 0xF8 = 0xF0 then
    some ((b0 &&& 0x07).toUInt32, 3)
  else
    none

/--
The bytes that follow, `none` if one of them is no continuation byte.
-/
def utf8Rest (s : Bytes) (c : UInt32) (i : Nat) : Nat → Checked (Option UInt32)
  | 0 => pure (some c)
  | n + 1 => do
    let b ← load8 s i
    if b &&& 0xC0 ≠ 0x80 then
      return none
    utf8Rest s ((c <<< 6) ||| (b &&& 0x3F).toUInt32) (i + 1) n

def utf8Bad (need : Nat) (c : UInt32) : Bool :=
  (need = 2 ∧ c < 0x800) ∨ (need = 3 ∧ c < 0x10000) ∨ (0xD800 ≤ c ∧ c ≤ 0xDFFF) ∨ 0x10FFFF < c

/--
The length of the sequence at the start of `s` and its code point.
-/
def utf8Decode (s : Bytes) (len : Nat) : Checked (Nat × UInt32) := do
  let b0 ← load8 s 0
  if b0 < 0x80 then
    return (1, b0.toUInt32)
  match utf8Lead b0 with
  | none => return (1, utf8Invalid)
  | some (c, need) =>
    if len < need + 1 then
      return (1, utf8Invalid)
    match ← utf8Rest s c 1 need with
    | none => return (1, utf8Invalid)
    | some c =>
      if utf8Bad need c then
        return (1, utf8Invalid)
      return (need + 1, c)

section Spec

def Cont (b : Byte) : Prop :=
  0x80 ≤ b.toNat ∧ b.toNat < 0xC0

inductive Utf8Seq : Bytes → Nat → Prop where
  | one {a : Byte} : a.toNat < 0x80 → Utf8Seq [a] a.toNat
  | two {a b : Byte} {v : Nat} : 0xC0 ≤ a.toNat → a.toNat < 0xE0 → Cont b →
    v = (a.toNat - 0xC0) * 64 + (b.toNat - 0x80) → 0x80 ≤ v → Utf8Seq [a, b] v
  | three {a b c : Byte} {v : Nat} : 0xE0 ≤ a.toNat → a.toNat < 0xF0 → Cont b → Cont c →
    v = (a.toNat - 0xE0) * 4096 + (b.toNat - 0x80) * 64 + (c.toNat - 0x80) →
    0x800 ≤ v → ¬(0xD800 ≤ v ∧ v ≤ 0xDFFF) → Utf8Seq [a, b, c] v
  | four {a b c d : Byte} {v : Nat} : 0xF0 ≤ a.toNat → a.toNat < 0xF8 → Cont b → Cont c → Cont d →
    v = (a.toNat - 0xF0) * 262144 + (b.toNat - 0x80) * 4096 + (c.toNat - 0x80) * 64 + (d.toNat - 0x80) →
    0x10000 ≤ v → v ≤ 0x10FFFF → Utf8Seq [a, b, c, d] v

variable {bs s : Bytes} {v x k len : Nat}

theorem toNat_ofNat (h : x < 256) : (UInt8.ofNat x).toNat = x := by
  rw [UInt8.toNat_ofNat']
  omega

theorem toNat_cont (x : Nat) : (UInt8.ofNat (x % 64 + 128)).toNat = x % 64 + 128 :=
  toNat_ofNat (by omega)

theorem cont_ofNat (x : Nat) : Cont (UInt8.ofNat (x % 64 + 128)) := by
  unfold Cont
  rw [toNat_cont]
  omega

theorem utf8Seq_encode (ch : Char) : Utf8Seq (String.utf8EncodeChar ch) ch.toNat := by
  have hvalid := ch.valid
  have hnat : ch.val.toNat = ch.toNat := rfl
  unfold UInt32.isValidChar Nat.isValidChar at hvalid
  unfold String.utf8EncodeChar
  dsimp only
  rw [hnat] at hvalid ⊢
  generalize ch.toNat = v at hvalid ⊢
  have hlast := toNat_cont v
  have hmid := toNat_cont (v / 64)
  have hfirst := toNat_cont (v / 4096)
  split
  . next h =>
    have hv : (UInt8.ofNat v).toNat = v := toNat_ofNat (by omega)
    have hseq : Utf8Seq [UInt8.ofNat v] (UInt8.ofNat v).toNat := .one (by omega)
    rw [hv] at hseq
    exact hseq
  . split
    . have hlead : (UInt8.ofNat (v / 64 % 32 + 192)).toNat = v / 64 % 32 + 192 := toNat_ofNat (by omega)
      refine Utf8Seq.two ?_ ?_ (cont_ofNat _) ?_ ?_
      all_goals omega
    . split
      . have hlead : (UInt8.ofNat (v / 4096 % 16 + 224)).toNat = v / 4096 % 16 + 224 := toNat_ofNat (by omega)
        refine Utf8Seq.three ?_ ?_ (cont_ofNat _) (cont_ofNat _) ?_ ?_ ?_
        all_goals omega
      . have hlead : (UInt8.ofNat (v / 262144 % 8 + 240)).toNat = v / 262144 % 8 + 240 := toNat_ofNat (by omega)
        refine Utf8Seq.four ?_ ?_ (cont_ofNat _) (cont_ofNat _) (cont_ofNat _) ?_ ?_ ?_
        all_goals omega

theorem Utf8Seq.valid (h : Utf8Seq bs v) : v.isValidChar := by
  unfold Nat.isValidChar
  cases h with
  | one ha => omega
  | two ha ha' hb hv hmin =>
    unfold Cont at hb
    omega
  | three ha ha' hb hc hv hmin hsurr =>
    unfold Cont at hb hc
    omega
  | four ha ha' hb hc hd hv hmin hmax => omega

theorem eq_ofNat {a : Byte} (h : a.toNat = x) : UInt8.ofNat x = a := by
  rw [← h]
  exact UInt8.ofNat_toNat

theorem Utf8Seq.toNat_ofNat (h : Utf8Seq bs v) : (Char.ofNat v).toNat = v := by
  unfold Char.ofNat
  rw [dif_pos h.valid]
  rfl

theorem Utf8Seq.encode_eq (h : Utf8Seq bs v) : String.utf8EncodeChar (Char.ofNat v) = bs := by
  have hnat : (Char.ofNat v).val.toNat = v := h.toNat_ofNat
  unfold String.utf8EncodeChar
  dsimp only
  rw [hnat]
  cases h with
  | one ha =>
    rw [if_pos (by omega), eq_ofNat rfl]
  | @two a b _ ha ha' hb hv hmin =>
    unfold Cont at hb
    rw [if_neg (by omega), if_pos (by omega)]
    rw [@eq_ofNat _ a (by omega), @eq_ofNat _ b (by omega)]
  | @three a b c _ ha ha' hb hc hv hmin hsurr =>
    unfold Cont at hb hc
    rw [if_neg (by omega), if_neg (by omega), if_pos (by omega)]
    rw [@eq_ofNat _ a (by omega), @eq_ofNat _ b (by omega), @eq_ofNat _ c (by omega)]
  | @four a b c d _ ha ha' hb hc hd hv hmin hmax =>
    unfold Cont at hb hc hd
    rw [if_neg (by omega), if_neg (by omega), if_neg (by omega)]
    rw [@eq_ofNat _ a (by omega), @eq_ofNat _ b (by omega), @eq_ofNat _ c (by omega),
      @eq_ofNat _ d (by omega)]

end Spec

section Bits

theorem and_mask (b : Byte)
    : (b &&& 0xE0 = 0xC0 ↔ 0xC0 ≤ b.toNat ∧ b.toNat < 0xE0)
      ∧ (b &&& 0xF0 = 0xE0 ↔ 0xE0 ≤ b.toNat ∧ b.toNat < 0xF0)
      ∧ (b &&& 0xF8 = 0xF0 ↔ 0xF0 ≤ b.toNat ∧ b.toNat < 0xF8)
      ∧ (b &&& 0xC0 = 0x80 ↔ Cont b) := by
  have hb := b.toNat_lt
  have htwo : b.toNat &&& 0xC0 = b.toNat / 64 * 64 := and_high (j := 2) (k := 6) hb
  have hthree : b.toNat &&& 0xE0 = b.toNat / 32 * 32 := and_high (j := 3) (k := 5) hb
  have hfour : b.toNat &&& 0xF0 = b.toNat / 16 * 16 := and_high (j := 4) (k := 4) hb
  have hfive : b.toNat &&& 0xF8 = b.toNat / 8 * 8 := and_high (j := 5) (k := 3) hb
  unfold Cont
  rw [← UInt8.toNat_inj, ← UInt8.toNat_inj, ← UInt8.toNat_inj, ← UInt8.toNat_inj]
  show (b.toNat &&& 0xE0 = 0xC0 ↔ _) ∧ (b.toNat &&& 0xF0 = 0xE0 ↔ _) ∧ (b.toNat &&& 0xF8 = 0xF0 ↔ _)
    ∧ (b.toNat &&& 0xC0 = 0x80 ↔ _)
  rw [htwo, hthree, hfour, hfive]
  omega

theorem payload (b : Byte)
    : (b &&& 0x1F).toNat = b.toNat % 32 ∧ (b &&& 0x0F).toNat = b.toNat % 16
      ∧ (b &&& 0x07).toNat = b.toNat % 8 ∧ (b &&& 0x3F).toNat = b.toNat % 64 := by
  refine ⟨?_, ?_, ?_, ?_⟩
  . exact Nat.and_two_pow_sub_one_eq_mod b.toNat 5
  . exact Nat.and_two_pow_sub_one_eq_mod b.toNat 4
  . exact Nat.and_two_pow_sub_one_eq_mod b.toNat 3
  . exact Nat.and_two_pow_sub_one_eq_mod b.toNat 6

theorem toNat_shift {c : UInt32} {b : Byte} (hc : c.toNat < 2 ^ 26)
    : ((c <<< 6) ||| (b &&& 0x3F).toUInt32).toNat = 64 * c.toNat + b.toNat % 64 := by
  have hb : (b &&& 0x3F).toUInt32.toNat = b.toNat % 64 := (payload b).2.2.2
  rw [UInt32.toNat_or, UInt32.toNat_shiftLeft, hb]
  have h6 : (6 : UInt32).toNat % 32 = 6 := rfl
  rw [h6, Nat.shiftLeft_eq, Nat.mod_eq_of_lt (by omega), ← Nat.shiftLeft_eq]
  rw [← Nat.shiftLeft_add_eq_or_of_lt (by omega), Nat.shiftLeft_eq]
  omega

end Bits

section Decode

variable {s bs t : Bytes} {b0 b : Byte} {c : UInt32} {i n len need v : Nat}

def contFold (c : UInt32) : Bytes → Option UInt32
  | [] => some c
  | b :: bs => if b &&& 0xC0 = 0x80 then contFold ((c <<< 6) ||| (b &&& 0x3F).toUInt32) bs else none

theorem utf8Rest_eq (h : i + n ≤ s.length) : utf8Rest s c i n = .ok (contFold c ((s.drop i).take n)) := by
  induction n generalizing i c with
  | zero => rfl
  | succ n ih =>
    have hi : i < s.length := by omega
    have hload : load8 s i = .ok s[i] := by
      unfold load8
      rw [List.getElem?_eq_getElem hi]
    rw [List.drop_eq_getElem_cons hi, List.take_succ_cons]
    unfold utf8Rest contFold
    rw [hload]
    by_cases hcont : s[i] &&& 0xC0 = 0x80
    . rw [if_pos hcont, ← ih (by omega)]
      show (if s[i] &&& 0xC0 ≠ 0x80 then _ else _) = _
      rw [if_neg (not_not.mpr hcont)]
    . rw [if_neg hcont]
      show (if s[i] &&& 0xC0 ≠ 0x80 then _ else _) = _
      rw [if_pos hcont]
      rfl

/--
What a decoder has to return for the first `len` bytes of `s`.
-/
inductive Decoded (s : Bytes) (len : Nat) : Nat × UInt32 → Prop where
  | seq {bs : Bytes} {c : UInt32} : Utf8Seq bs c.toNat → bs <+: s → bs.length ≤ len →
    Decoded s len (bs.length, c)
  | invalid : (∀ bs v, Utf8Seq bs v → bs <+: s → ¬bs.length ≤ len) → Decoded s len (1, utf8Invalid)

theorem utf8Lead_cases (b0 : Byte)
    : (0xC2 ≤ b0.toNat ∧ b0.toNat < 0xE0 ∧ utf8Lead b0 = some ((b0 &&& 0x1F).toUInt32, 1))
      ∨ (0xE0 ≤ b0.toNat ∧ b0.toNat < 0xF0 ∧ utf8Lead b0 = some ((b0 &&& 0x0F).toUInt32, 2))
      ∨ (0xF0 ≤ b0.toNat ∧ b0.toNat < 0xF8 ∧ utf8Lead b0 = some ((b0 &&& 0x07).toUInt32, 3))
      ∨ ((b0.toNat < 0xC2 ∨ 0xF8 ≤ b0.toNat) ∧ utf8Lead b0 = none) := by
  obtain ⟨htwo, hthree, hfour, _⟩ := and_mask b0
  have hlow : b0 &&& 0x1F < 2 ↔ b0.toNat % 32 < 2 := by
    rw [UInt8.lt_iff_toNat_lt, (payload b0).1]
    rfl
  unfold utf8Lead
  dsimp only
  split
  . next h =>
    rw [htwo] at h
    split
    . next hc =>
      rw [hlow] at hc
      right; right; right
      exact ⟨by omega, rfl⟩
    . next hc =>
      rw [hlow] at hc
      left
      exact ⟨by omega, by omega, rfl⟩
  . next h =>
    rw [htwo] at h
    split
    . next h =>
      rw [hthree] at h
      right; left
      exact ⟨h.1, h.2, rfl⟩
    . next h =>
      rw [hthree] at h
      split
      . next h =>
        rw [hfour] at h
        right; right; left
        exact ⟨h.1, h.2, rfl⟩
      . next h =>
        rw [hfour] at h
        right; right; right
        exact ⟨by omega, rfl⟩

theorem contFold_cont (h : Cont b) (hc : c.toNat < 2 ^ 26)
    : ∃ c' : UInt32, c'.toNat = c.toNat * 64 + (b.toNat - 0x80) ∧ ∀ bs, contFold c (b :: bs) = contFold c' bs := by
  refine ⟨_, ?_, fun bs => if_pos ((and_mask b).2.2.2.mpr h)⟩
  rw [toNat_shift hc]
  unfold Cont at h
  omega

theorem contFold_not (h : ¬Cont b) : contFold c (b :: bs) = none :=
  if_neg (fun hb => h ((and_mask b).2.2.2.mp hb))

theorem utf8Bad_iff : utf8Bad need c = true
    ↔ (need = 2 ∧ c.toNat < 0x800) ∨ (need = 3 ∧ c.toNat < 0x10000)
      ∨ (0xD800 ≤ c.toNat ∧ c.toNat ≤ 0xDFFF) ∨ 0x10FFFF < c.toNat := by
  unfold utf8Bad
  rw [decide_eq_true_iff, UInt32.lt_iff_toNat_lt, UInt32.lt_iff_toNat_lt, UInt32.lt_iff_toNat_lt,
    UInt32.le_iff_toNat_le, UInt32.le_iff_toNat_le]
  rfl

/--
`utf8_decode` without its loads.
-/
def utf8Pure (b0 : Byte) (t : Bytes) (len : Nat) : Nat × UInt32 :=
  if b0 < 0x80 then
    (1, b0.toUInt32)
  else
    match utf8Lead b0 with
    | none => (1, utf8Invalid)
    | some (c, need) =>
      if len < need + 1 then
        (1, utf8Invalid)
      else
        match contFold c (t.take need) with
        | none => (1, utf8Invalid)
        | some c => if utf8Bad need c then (1, utf8Invalid) else (need + 1, c)

theorem utf8Decode_cons (h : len ≤ (b0 :: t).length) : utf8Decode (b0 :: t) len = .ok (utf8Pure b0 t len) := by
  unfold utf8Decode utf8Pure
  show (if b0 < 0x80 then (.ok (1, b0.toUInt32) : Checked (Nat × UInt32)) else _) = _
  split
  . rfl
  . cases hlead : utf8Lead b0 with
    | none => rfl
    | some r =>
      obtain ⟨c, need⟩ := r
      dsimp only
      split
      . rfl
      . rw [utf8Rest_eq (by omega)]
        show (match contFold c (((b0 :: t).drop 1).take need) with
          | none => _
          | some c => _) = _
        rw [List.drop_succ_cons, List.drop_zero]
        cases contFold c (t.take need) with
        | none => rfl
        | some c =>
          dsimp only
          split
          . rfl
          . rfl

def CodeSeq (b0 : Byte) (tl : Bytes) (v : Nat) : Prop :=
  ∃ c c' need, utf8Lead b0 = some (c, need) ∧ tl.length = need ∧ contFold c tl = some c'
    ∧ utf8Bad need c' = false ∧ c'.toNat = v

theorem codeSeq_of_seq (h : Utf8Seq (b0 :: t) v) (hb0 : ¬b0.toNat < 0x80) : CodeSeq b0 t v := by
  obtain ⟨hpay1, hpay2, hpay3, _⟩ := payload b0
  unfold CodeSeq
  have hlead := utf8Lead_cases b0
  cases h with
  | one ha => exact absurd ha hb0
  | two ha ha' hb hv hmin =>
    have hc : (b0 &&& 0x1F).toUInt32.toNat = b0.toNat % 32 := hpay1
    obtain ⟨c', hc', hfold⟩ := @contFold_cont _ (b0 &&& 0x1F).toUInt32 hb (by omega)
    unfold Cont at hb
    rcases hlead with ⟨_, _, hlead⟩ | h | h | h
    . refine ⟨_, c', 1, hlead, rfl, hfold [], ?_, by omega⟩
      rw [← Bool.not_eq_true, utf8Bad_iff]
      omega
    all_goals omega
  | three ha ha' hb hd hv hmin hsurr =>
    have hc : (b0 &&& 0x0F).toUInt32.toNat = b0.toNat % 16 := hpay2
    obtain ⟨c', hc', hfold⟩ := @contFold_cont _ (b0 &&& 0x0F).toUInt32 hb (by omega)
    obtain ⟨c₂, hc₂, hfold₂⟩ := @contFold_cont _ c' hd (by unfold Cont at hb; omega)
    unfold Cont at hb hd
    rcases hlead with h | ⟨_, _, hlead⟩ | h | h
    . omega
    . refine ⟨_, c₂, 2, hlead, rfl, (hfold _).trans (hfold₂ []), ?_, by omega⟩
      rw [← Bool.not_eq_true, utf8Bad_iff]
      omega
    all_goals omega
  | four ha ha' hb hd he hv hmin hmax =>
    have hc : (b0 &&& 0x07).toUInt32.toNat = b0.toNat % 8 := hpay3
    obtain ⟨c', hc', hfold⟩ := @contFold_cont _ (b0 &&& 0x07).toUInt32 hb (by omega)
    obtain ⟨c₂, hc₂, hfold₂⟩ := @contFold_cont _ c' hd (by unfold Cont at hb; omega)
    obtain ⟨c₃, hc₃, hfold₃⟩ := @contFold_cont _ c₂ he (by unfold Cont at hb hd; omega)
    unfold Cont at hb hd he
    rcases hlead with h | h | ⟨_, _, hlead⟩ | h
    . omega
    . omega
    . refine ⟨_, c₃, 3, hlead, rfl, (hfold _).trans ((hfold₂ _).trans (hfold₃ [])), ?_, by omega⟩
      rw [← Bool.not_eq_true, utf8Bad_iff]
      omega
    . omega

theorem contFold_some {c' : UInt32} (h : contFold c (b :: t) = some c') (hc : c.toNat < 2 ^ 26)
    : Cont b ∧ ∃ c₁ : UInt32, c₁.toNat = c.toNat * 64 + (b.toNat - 0x80) ∧ contFold c₁ t = some c' := by
  by_cases hb : Cont b
  . obtain ⟨c₁, hc₁, hfold⟩ := contFold_cont hb hc
    rw [hfold] at h
    exact ⟨hb, c₁, hc₁, h⟩
  . rw [contFold_not hb] at h
    contradiction

theorem seq_of_codeSeq (h : CodeSeq b0 t v) : Utf8Seq (b0 :: t) v := by
  obtain ⟨c, c', need, hlead, hlen, hfold, hbad, rfl⟩ := h
  obtain ⟨hpay1, hpay2, hpay3, _⟩ := payload b0
  rw [← Bool.not_eq_true, utf8Bad_iff] at hbad
  rcases utf8Lead_cases b0 with ⟨hlo, hhi, heq⟩ | ⟨hlo, hhi, heq⟩ | ⟨hlo, hhi, heq⟩ | ⟨_, heq⟩
  . rw [heq] at hlead
    obtain ⟨rfl, rfl⟩ := Prod.mk.inj (Option.some.inj hlead)
    have hc : (b0 &&& 0x1F).toUInt32.toNat = b0.toNat % 32 := hpay1
    obtain ⟨b, rfl⟩ := List.length_eq_one_iff.mp hlen
    obtain ⟨hb, c₁, hc₁, hfold⟩ := contFold_some hfold (by omega)
    obtain rfl := Option.some.inj hfold
    exact .two (by omega) (by omega) hb (by omega) (by omega)
  . rw [heq] at hlead
    obtain ⟨rfl, rfl⟩ := Prod.mk.inj (Option.some.inj hlead)
    have hc : (b0 &&& 0x0F).toUInt32.toNat = b0.toNat % 16 := hpay2
    obtain ⟨b, d, rfl⟩ := List.length_eq_two.mp hlen
    obtain ⟨hb, c₁, hc₁, hfold⟩ := contFold_some hfold (by omega)
    obtain ⟨hd, c₂, hc₂, hfold⟩ := contFold_some hfold (by unfold Cont at hb; omega)
    obtain rfl := Option.some.inj hfold
    exact .three hlo hhi hb hd (by omega) (by omega) (by omega)
  . rw [heq] at hlead
    obtain ⟨rfl, rfl⟩ := Prod.mk.inj (Option.some.inj hlead)
    have hc : (b0 &&& 0x07).toUInt32.toNat = b0.toNat % 8 := hpay3
    obtain ⟨b, d, e, rfl⟩ := List.length_eq_three.mp hlen
    obtain ⟨hb, c₁, hc₁, hfold⟩ := contFold_some hfold (by omega)
    obtain ⟨hd, c₂, hc₂, hfold⟩ := contFold_some hfold (by unfold Cont at hb; omega)
    obtain ⟨he, c₃, hc₃, hfold⟩ := contFold_some hfold (by unfold Cont at hb hd; omega)
    obtain rfl := Option.some.inj hfold
    exact .four hlo hhi hb hd he (by omega) (by omega) (by omega)
  . rw [heq] at hlead
    contradiction

theorem utf8Pure_decoded (h : len ≤ (b0 :: t).length) (hpos : 1 ≤ len)
    : Decoded (b0 :: t) len (utf8Pure b0 t len) := by
  have hlow : b0 < 0x80 ↔ b0.toNat < 0x80 := UInt8.lt_iff_toNat_lt
  rw [List.length_cons] at h
  unfold utf8Pure
  split
  . next hascii =>
    rw [hlow] at hascii
    have hseq : Utf8Seq [b0] b0.toUInt32.toNat := .one hascii
    exact .seq hseq ⟨t, rfl⟩ hpos
  . next hascii =>
    rw [hlow] at hascii
    -- Any sequence there has to pass the tests of the code.
    have hcode : ∀ bs v, Utf8Seq bs v → bs <+: b0 :: t → ∃ tl, bs = b0 :: tl ∧ tl <+: t ∧ CodeSeq b0 tl v := by
      intro bs v hseq hpre
      cases bs with
      | nil => cases hseq
      | cons a tl =>
        obtain ⟨rfl, htl⟩ := List.cons_prefix_cons.mp hpre
        exact ⟨tl, rfl, htl, codeSeq_of_seq hseq hascii⟩
    cases hlead : utf8Lead b0 with
    | none =>
      apply Decoded.invalid
      intro bs v hseq hpre
      obtain ⟨_, _, _, _, _, _, hlead', _⟩ := hcode bs v hseq hpre
      rw [hlead] at hlead'
      contradiction
    | some r =>
      obtain ⟨c, need⟩ := r
      dsimp only
      have htail : ∀ bs v, Utf8Seq bs v → bs <+: b0 :: t →
          bs.length = need + 1 ∧ ∃ c', contFold c (t.take need) = some c' ∧ utf8Bad need c' = false := by
        intro bs v hseq hpre
        obtain ⟨tl, rfl, htl, c₁, c', n, hlead', hlen, hfold, hbad, _⟩ := hcode bs v hseq hpre
        rw [hlead] at hlead'
        obtain ⟨rfl, rfl⟩ := Prod.mk.inj (Option.some.inj hlead')
        have htake := List.prefix_iff_eq_take.mp htl
        rw [hlen] at htake
        rw [htake] at hfold
        exact ⟨by rw [List.length_cons, hlen], c', hfold, hbad⟩
      split
      . apply Decoded.invalid
        intro bs v hseq hpre hlen
        have := (htail bs v hseq hpre).1
        omega
      . next hroom =>
        cases hfold : contFold c (t.take need) with
        | none =>
          apply Decoded.invalid
          intro bs v hseq hpre _
          obtain ⟨_, _, hfold', _⟩ := htail bs v hseq hpre
          rw [hfold] at hfold'
          contradiction
        | some c' =>
          dsimp only
          cases hbad : utf8Bad need c' with
          | true =>
            apply Decoded.invalid
            intro bs v hseq hpre _
            obtain ⟨_, _, hfold', hbad'⟩ := htail bs v hseq hpre
            rw [hfold] at hfold'
            obtain rfl := Option.some.inj hfold'
            rw [hbad] at hbad'
            contradiction
          | false =>
            have hlen : (t.take need).length = need := List.length_take_of_le (by omega)
            have hseq := seq_of_codeSeq ⟨c, c', need, hlead, hlen, hfold, hbad, rfl⟩
            have hdecoded : Decoded (b0 :: t) len ((b0 :: t.take need).length, c') :=
              .seq hseq (List.cons_prefix_cons.mpr ⟨rfl, List.take_prefix _ _⟩) (by rw [List.length_cons]; omega)
            rw [List.length_cons, hlen] at hdecoded
            exact hdecoded

theorem utf8Decode_decoded (hpos : 1 ≤ len) (h : len ≤ s.length) : (utf8Decode s len).Yields (Decoded s len) := by
  cases s with
  | nil =>
    rw [List.length_nil] at h
    omega
  | cons b0 t => exact ⟨_, utf8Decode_cons h, utf8Pure_decoded h hpos⟩

theorem utf8Pure_take : utf8Pure b0 (t.take len) (len + 1) = utf8Pure b0 t (len + 1) := by
  unfold utf8Pure
  split
  . rfl
  . cases utf8Lead b0 with
    | none => rfl
    | some r =>
      dsimp only
      split
      . rfl
      . rw [List.take_take, Nat.min_eq_left (by omega)]

theorem Utf8Seq.ascii (h : Utf8Seq (b0 :: t) v) (hb0 : b0.toNat < 0x80) : t = [] ∧ v = b0.toNat := by
  cases h with
  | one => exact ⟨rfl, rfl⟩
  | _ => omega

theorem Utf8Seq.unique {bs' : Bytes} {v' : Nat} (h : Utf8Seq bs v) (h' : Utf8Seq bs' v') (hpre : bs <+: s)
    (hpre' : bs' <+: s)
    : bs = bs' ∧ v = v' := by
  match bs, bs', s with
  | [], _, _ => cases h
  | _ :: _, [], _ => cases h'
  | _ :: _, _ :: _, [] =>
    have hlen := hpre.length_le
    rw [List.length_cons, List.length_nil] at hlen
    omega
  | a :: tl, a' :: tl', b0 :: t =>
    obtain ⟨rfl, htl⟩ := List.cons_prefix_cons.mp hpre
    obtain ⟨rfl, htl'⟩ := List.cons_prefix_cons.mp hpre'
    by_cases ha : a'.toNat < 0x80
    . obtain ⟨rfl, rfl⟩ := h.ascii ha
      obtain ⟨rfl, rfl⟩ := h'.ascii ha
      exact ⟨rfl, rfl⟩
    . obtain ⟨c, c₁, need, hlead, hlen, hfold, _, rfl⟩ := codeSeq_of_seq h ha
      obtain ⟨c', c₁', need', hlead', hlen', hfold', _, rfl⟩ := codeSeq_of_seq h' ha
      rw [hlead] at hlead'
      obtain ⟨rfl, rfl⟩ := Prod.mk.inj (Option.some.inj hlead')
      rw [List.prefix_iff_eq_take, hlen] at htl
      rw [List.prefix_iff_eq_take, hlen'] at htl'
      rw [← htl'] at htl
      subst htl
      rw [hfold] at hfold'
      obtain rfl := Option.some.inj hfold'
      exact ⟨rfl, rfl⟩

end Decode

/--
The decoder accepts just the standard encodings, and it only looks at the bytes it may look at.
-/
theorem utf8Decode_iff (s : Bytes) (len : Nat) (hpos : 1 ≤ len) (h : len ≤ s.length)
    : (∀ k c, utf8Decode s len = .ok (k, c) ∧ c ≠ utf8Invalid
        ↔ ∃ ch : Char, ch.val = c ∧ k ≤ len ∧ s.take k = String.utf8EncodeChar ch)
      ∧ ((¬∃ k, ∃ ch : Char, k ≤ len ∧ s.take k = String.utf8EncodeChar ch) →
        utf8Decode s len = .ok (1, utf8Invalid))
      ∧ utf8Decode (s.take len) len = utf8Decode s len := by
  obtain ⟨r, heq, hdecoded⟩ := utf8Decode_decoded hpos h
  refine ⟨fun k c => ⟨?_, ?_⟩, ?_, ?_⟩
  . rintro ⟨hok, hc⟩
    rw [heq] at hok
    obtain rfl := Except.ok.inj hok
    cases hdecoded with
    | invalid => contradiction
    | seq hseq hpre hlen =>
      refine ⟨Char.ofNat c.toNat, UInt32.toNat_inj.mp hseq.toNat_ofNat, hlen, ?_⟩
      rw [hseq.encode_eq, ← List.prefix_iff_eq_take.mp hpre]
  . rintro ⟨ch, rfl, hk, htake⟩
    have hseq := utf8Seq_encode ch
    have hlen : (String.utf8EncodeChar ch).length = k := by
      rw [← htake, List.length_take_of_le (by omega)]
    have hpre : String.utf8EncodeChar ch <+: s := by
      rw [← htake]
      exact List.take_prefix _ _
    rw [heq]
    cases hdecoded with
    | invalid hno => exact absurd (by omega) (hno _ _ hseq hpre)
    | @seq bs c hseq' hpre' hlen' =>
      obtain ⟨rfl, hval⟩ := hseq.unique hseq' hpre hpre'
      have hc : c = ch.val := UInt32.toNat_inj.mp hval.symm
      rw [hlen, hc]
      refine ⟨rfl, ?_⟩
      intro hinvalid
      have hvalid := hseq.valid
      have hnat : ch.toNat = utf8Invalid.toNat := congrArg UInt32.toNat hinvalid
      rw [hnat] at hvalid
      revert hvalid
      decide
  . intro hno
    rw [heq]
    cases hdecoded with
    | invalid => rfl
    | @seq bs c hseq hpre hlen =>
      exact absurd ⟨bs.length, Char.ofNat c.toNat, hlen,
        by rw [hseq.encode_eq, ← List.prefix_iff_eq_take.mp hpre]⟩ hno
  . match s, len, h with
    | b0 :: t, len + 1, h =>
      rw [List.take_succ_cons, utf8Decode_cons h, utf8Decode_cons, utf8Pure_take]
      rw [List.length_cons] at h ⊢
      rw [List.length_take_of_le (by omega)]

theorem utf8Decode_dash
    : utf8Decode [0xE2, 0x80, 0x94, 0x21] 3 = .ok (3, 0x2014) ∧ (0x2014 : UInt32) ≠ utf8Invalid :=
  ((utf8Decode_iff [0xE2, 0x80, 0x94, 0x21] 3 (by decide) (by decide)).1 3 0x2014).mpr
    ⟨Char.ofNat 0x2014, rfl, by decide, by decide⟩

end TanjaOS
