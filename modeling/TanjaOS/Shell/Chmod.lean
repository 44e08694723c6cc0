import TanjaOS.Shell.Impl

/-!
Symbolic modes of `chmod`, like `u+x,go-w`, as a language of clauses.
-/

open Lib

namespace TanjaOS

section Spec

inductive Cls where
  | user
  | group
  | other
  deriving DecidableEq

inductive Perm where
  | read
  | write
  | exec
  deriving DecidableEq

/--
One letter before the operator: a class or, for `a`, all of them.
-/
abbrev Who := Option Cls

def Who.byte : Who → Byte
  | some .user => 117
  | some .group => 103
  | some .other => 111
  | none => 97

def Perm.byte : Perm → Byte
  | .read => 114
  | .write => 119
  | .exec => 120

inductive ClauseOp where
  | add
  | remove
  | assign

def ClauseOp.byte : ClauseOp → Byte
  | .add => 43
  | .remove => 45
  | .assign => 61

structure Clause where
  who : List Who
  op : ClauseOp
  perms : List Perm

abbrev ModeBits := Cls → Perm → Bool

namespace Clause

def text (c : Clause) : Bytes :=
  c.who.map Who.byte ++ c.op.byte :: c.perms.map Perm.byte

def Selects (c : Clause) (cls : Cls) : Prop :=
  c.who = [] ∨ none ∈ c.who ∨ some cls ∈ c.who

instance (c : Clause) (cls : Cls) : Decidable (c.Selects cls) :=
  inferInstanceAs (Decidable (_ ∨ _ ∨ _))

def apply (c : Clause) (bits : ModeBits) : ModeBits := fun cls p =>
  if c.Selects cls then
    match c.op with
    | .add => bits cls p || p ∈ c.perms
    | .remove => bits cls p && p ∉ c.perms
    | .assign => p ∈ c.perms
  else
    bits cls p

end Clause

def clausesText : List Clause → Bytes
  | [] => []
  | [c] => c.text
  | c :: cs => c.text ++ 44 :: clausesText cs

def modeBit (cls : Cls) (p : Perm) : Nat :=
  (match cls with
    | .user => 6
    | .group => 3
    | .other => 0)
  + (match p with
    | .read => 2
    | .write => 1
    | .exec => 0)

def modeBits (mode : UInt32) : ModeBits := fun cls p =>
  mode.toBitVec.getLsbD (modeBit cls p)

/--
What `chmod_symbolic` should return for a text and a mode.
-/
structure ChmodOk (spec : Bytes) (mode : UInt32) : Prop where
  malformed : chmodSymbolic spec mode = none ↔ ¬∃ cs, cs ≠ [] ∧ spec = clausesText cs
  value : ∀ cs, cs ≠ [] → spec = clausesText cs →
    ∃ m, chmodSymbolic spec mode = some m ∧ m.toNat < 0o1000
      ∧ modeBits m = cs.foldl (fun bits c => c.apply bits) (modeBits mode)

end Spec

section Bits

variable {who perm mode : UInt32} {cls : Cls} {p : Perm}

def clsBit : Cls → Nat
  | .user => 0
  | .group => 1
  | .other => 2

def permBit : Perm → Nat
  | .read => 2
  | .write => 1
  | .exec => 0

def Who.mask : Who → UInt32
  | some .user => 1
  | some .group => 2
  | some .other => 4
  | none => 7

def Perm.mask : Perm → UInt32
  | .read => 4
  | .write => 2
  | .exec => 1

def whoBits (who : UInt32) (ws : List Who) : UInt32 :=
  ws.foldl (fun who w => who ||| w.mask) who

def permBits (perm : UInt32) (ps : List Perm) : UInt32 :=
  ps.foldl (fun perm p => perm ||| p.mask) perm

theorem getLsbD_whoMask (w : Who) (cls : Cls)
    : w.mask.toBitVec.getLsbD (clsBit cls) = true ↔ w = none ∨ w = some cls := by
  cases w with
  | none => cases cls <;> decide
  | some cls' => cases cls <;> cases cls' <;> decide

theorem getLsbD_permMask (p q : Perm) : p.mask.toBitVec.getLsbD (permBit q) = true ↔ p = q := by
  cases p <;> cases q <;> decide

theorem getLsbD_whoBits (ws : List Who) (cls : Cls)
    : (whoBits who ws).toBitVec.getLsbD (clsBit cls) = true
      ↔ who.toBitVec.getLsbD (clsBit cls) = true ∨ none ∈ ws ∨ some cls ∈ ws := by
  induction ws generalizing who with
  | nil => simp [whoBits]
  | cons w ws ih =>
    show (whoBits (who ||| w.mask) ws).toBitVec.getLsbD (clsBit cls) = true ↔ _
    rw [ih, UInt32.toBitVec_or, BitVec.getLsbD_or, Bool.or_eq_true, getLsbD_whoMask, List.mem_cons, List.mem_cons]
    grind

theorem getLsbD_permBits (ps : List Perm) (p : Perm)
    : (permBits perm ps).toBitVec.getLsbD (permBit p) = true
      ↔ perm.toBitVec.getLsbD (permBit p) = true ∨ p ∈ ps := by
  induction ps generalizing perm with
  | nil => simp [permBits]
  | cons q ps ih =>
    show (permBits (perm ||| q.mask) ps).toBitVec.getLsbD (permBit p) = true ↔ _
    rw [ih, UInt32.toBitVec_or, BitVec.getLsbD_or, Bool.or_eq_true, getLsbD_permMask, List.mem_cons]
    grind

theorem getLsbD_high {v : BitVec 32} {i : Nat} (h : v.toNat < 8) (hi : 3 ≤ i) : v.getLsbD i = false := by
  rw [← BitVec.testBit_toNat]
  apply Nat.testBit_lt_two_pow
  exact h.trans_le (Nat.pow_le_pow_right Nat.two_pos hi)

theorem permBits_high (ps : List Perm) {i : Nat} (hi : 3 ≤ i) (h : perm.toBitVec.getLsbD i = false)
    : (permBits perm ps).toBitVec.getLsbD i = false := by
  induction ps generalizing perm with
  | nil => exact h
  | cons q ps ih =>
    refine @ih (perm ||| q.mask) ?_
    have hmask : q.mask.toBitVec.getLsbD i = false := getLsbD_high (by cases q <;> decide) hi
    rw [UInt32.toBitVec_or, BitVec.getLsbD_or, h, hmask]
    rfl

theorem and_bit {v : BitVec 32} (k : Nat) (hk : k < 32) : v &&& BitVec.twoPow 32 k ≠ 0 ↔ v.getLsbD k = true := by
  rw [BitVec.and_twoPow]
  split
  . next h =>
    refine iff_of_true ?_ h
    intro hzero
    have hbit := congrArg (fun v => BitVec.getLsbD v k) hzero
    simp [hk] at hbit
  . next h => simp [h]

theorem clauseMask_bits (h : ∀ i, 3 ≤ i → perm.toBitVec.getLsbD i = false) (cls : Cls) (p : Perm)
    : (clauseMask who perm).toBitVec.getLsbD (modeBit cls p)
      = (who.toBitVec.getLsbD (clsBit cls) && perm.toBitVec.getLsbD (permBit p)) := by
  have hzero : ∀ v : UInt32, v ≠ 0 ↔ v.toBitVec ≠ 0 := by
    intro v
    rw [ne_eq, ← UInt32.toBitVec_inj]
    rfl
  have huser : who &&& 1 ≠ 0 ↔ who.toBitVec.getLsbD 0 = true := (hzero _).trans (and_bit 0 (by decide))
  have hgroup : who &&& 2 ≠ 0 ↔ who.toBitVec.getLsbD 1 = true := (hzero _).trans (and_bit 1 (by decide))
  have hother : who &&& 4 ≠ 0 ↔ who.toBitVec.getLsbD 2 = true := (hzero _).trans (and_bit 2 (by decide))
  have hite : ∀ (b : Bool) (v : UInt32), (if b = true then v else 0).toBitVec = if b = true then v.toBitVec else 0 := by
    intro b v
    cases b <;> rfl
  have hbit : ∀ (b : Bool) (v : BitVec 32) (i : Nat),
      (if b = true then v else 0).getLsbD i = (b && v.getLsbD i) := by
    intro b v i
    cases b with
    | true => rfl
    | false => simp
  have hsix : (perm <<< 6).toBitVec = perm.toBitVec <<< 6 := rfl
  have hthree : (perm <<< 3).toBitVec = perm.toBitVec <<< 3 := rfl
  unfold clauseMask
  simp only [huser, hgroup, hother, UInt32.toBitVec_or, hite, hsix, hthree, hbit, BitVec.getLsbD_or,
    BitVec.getLsbD_shiftLeft]
  generalize perm.toBitVec = perm at h ⊢
  generalize who.toBitVec = who
  have h3 : perm[3] = false := h 3 (by decide)
  have h4 : perm[4] = false := h 4 (by decide)
  have h5 : perm[5] = false := h 5 (by decide)
  cases cls with
  | user =>
    have h6 : perm[6] = false := h 6 (by decide)
    have h7 : perm[7] = false := h 7 (by decide)
    have h8 : perm[8] = false := h 8 (by decide)
    cases p with
    | read => simp [modeBit, clsBit, permBit, h5, h8]
    | write => simp [modeBit, clsBit, permBit, h4, h7]
    | exec => simp [modeBit, clsBit, permBit, h3, h6]
  | group =>
    cases p with
    | read => simp [modeBit, clsBit, permBit, h5]
    | write => simp [modeBit, clsBit, permBit, h4]
    | exec => simp [modeBit, clsBit, permBit, h3]
  | other =>
    cases p with
    | read => simp [modeBit, clsBit, permBit]
    | write => simp [modeBit, clsBit, permBit]
    | exec => simp [modeBit, clsBit, permBit]

end Bits

section Proofs

variable {who perm mode : UInt32} {spec rest : Bytes} {c : Clause} {cls : Cls} {p : Perm} {fuel : Nat}

theorem who_byte (w : Who) : (w.byte = 117 ∨ w.byte = 103 ∨ w.byte = 111 ∨ w.byte = 97)
    ∧ (if w.byte = 117 then 1 else if w.byte = 103 then 2 else if w.byte = 111 then 4 else 7) = w.mask := by
  match w with
  | none | some .user | some .group | some .other => decide

theorem perm_byte (p : Perm) : (p.byte = 114 ∨ p.byte = 119 ∨ p.byte = 120)
    ∧ (if p.byte = 114 then 4 else if p.byte = 119 then 2 else 1) = p.mask := by
  cases p <;> decide

theorem op_not_who (op : ClauseOp)
    : ¬(op.byte = 117 ∨ op.byte = 103 ∨ op.byte = 111 ∨ op.byte = 97) := by
  cases op <;> decide

theorem takeWhile_map {α : Type} {f : α → Byte} {q : Byte → Bool} (hf : ∀ a, q (f a) = true)
    (hrest : ∀ b ∈ rest.head?, q b = false) (as : List α)
    : (as.map f ++ rest).takeWhile q = as.map f ∧ (as.map f ++ rest).dropWhile q = rest := by
  induction as with
  | nil =>
    cases rest with
    | nil => exact ⟨rfl, rfl⟩
    | cons b rest =>
      have hb := hrest b rfl
      exact ⟨List.takeWhile_cons_of_neg (by simp [hb]), List.dropWhile_cons_of_neg (by simp [hb])⟩
  | cons a as ih =>
    rw [List.map_cons, List.cons_append, List.takeWhile_cons_of_pos (hf a), List.dropWhile_cons_of_pos (hf a)]
    exact ⟨congrArg _ ih.1, ih.2⟩

theorem clauseWho_text (c : Clause) (rest : Bytes)
    : clauseWho (c.text ++ rest) = whoBits 0 c.who
      ∧ (c.text ++ rest).dropWhile (fun b => b = 117 ∨ b = 103 ∨ b = 111 ∨ b = 97)
        = c.op.byte :: (c.perms.map Perm.byte ++ rest) := by
  have htake := @takeWhile_map (c.op.byte :: (c.perms.map Perm.byte ++ rest)) Who Who.byte
    (fun b => b = 117 ∨ b = 103 ∨ b = 111 ∨ b = 97) (fun w => decide_eq_true (who_byte w).1)
    (by
      intro b hb
      obtain rfl := Option.some.inj hb
      exact decide_eq_false (op_not_who c.op))
    c.who
  unfold Clause.text
  rw [List.append_assoc]
  refine ⟨?_, htake.2⟩
  unfold clauseWho whoBits
  rw [List.cons_append, htake.1, List.foldl_map]
  congr 1
  funext who w
  rw [(who_byte w).2]

theorem clausePerm_text (ps : List Perm) (hrest : ∀ b ∈ rest.head?, b = 44)
    : clausePerm (ps.map Perm.byte ++ rest) = permBits 0 ps
      ∧ (ps.map Perm.byte ++ rest).dropWhile (fun b => b = 114 ∨ b = 119 ∨ b = 120) = rest := by
  have htake := @takeWhile_map rest Perm Perm.byte (fun b => b = 114 ∨ b = 119 ∨ b = 120)
    (fun p => decide_eq_true (perm_byte p).1)
    (by
      intro b hb
      rw [hrest b hb]
      decide)
    ps
  refine ⟨?_, htake.2⟩
  unfold clausePerm permBits
  rw [htake.1, List.foldl_map]
  congr 1
  funext perm p
  rw [(perm_byte p).2]

namespace Clause

def whoAll (c : Clause) : UInt32 :=
  if whoBits 0 c.who = 0 then 7 else whoBits 0 c.who

def applyCode (c : Clause) (mode : UInt32) : UInt32 :=
  let mask := clauseMask c.whoAll (permBits 0 c.perms)
  if c.op.byte = 43 then mode ||| mask
  else if c.op.byte = 45 then mode &&& ~~~mask
  else (mode &&& ~~~(clauseMask c.whoAll 7)) ||| mask

theorem getLsbD_whoAll (c : Clause) (cls : Cls)
    : c.whoAll.toBitVec.getLsbD (clsBit cls) = decide (c.Selects cls) := by
  rw [Bool.eq_iff_iff, decide_eq_true_iff]
  have hbits := fun cls => @getLsbD_whoBits 0 c.who cls
  unfold whoAll Selects
  split
  . next hzero =>
    have hnone : c.who = [] := by
      rw [List.eq_nil_iff_forall_not_mem]
      intro w hw
      cases w with
      | none =>
        have h := (hbits .user).mpr (.inr (.inl hw))
        rw [hzero] at h
        simp at h
      | some cls =>
        have h := (hbits cls).mpr (.inr (.inr hw))
        rw [hzero] at h
        simp at h
    refine iff_of_true ?_ (.inl hnone)
    cases cls <;> decide
  . next hzero =>
    rw [hbits]
    have hsome : c.who ≠ [] := by
      intro h
      rw [h] at hzero
      exact hzero rfl
    simp [hsome]

theorem applyCode_bits (c : Clause) (mode : UInt32) : modeBits (c.applyCode mode) = c.apply (modeBits mode) := by
  have hmask : ∀ cls p, (clauseMask c.whoAll (permBits 0 c.perms)).toBitVec.getLsbD (modeBit cls p)
      = (decide (c.Selects cls) && decide (p ∈ c.perms)) := by
    intro cls p
    rw [clauseMask_bits (fun i hi => permBits_high _ hi (by simp)), getLsbD_whoAll]
    congr 1
    rw [Bool.eq_iff_iff, getLsbD_permBits, decide_eq_true_iff]
    simp
  have hclear : ∀ cls p, (clauseMask c.whoAll 7).toBitVec.getLsbD (modeBit cls p) = decide (c.Selects cls) := by
    intro cls p
    rw [clauseMask_bits (fun i hi => getLsbD_high (by decide) hi), getLsbD_whoAll]
    cases p <;> simp [permBit]
  have hbit : ∀ cls p, modeBit cls p < 32 := by
    intro cls p
    cases cls <;> cases p <;> decide
  funext cls p
  unfold modeBits applyCode apply
  dsimp only
  cases c.op with
  | add =>
    rw [if_pos (by decide), UInt32.toBitVec_or, BitVec.getLsbD_or, hmask]
    by_cases h : c.Selects cls <;> simp [h]
  | remove =>
    rw [if_neg (by decide), if_pos (by decide), UInt32.toBitVec_and, UInt32.toBitVec_not, BitVec.getLsbD_and,
      BitVec.getLsbD_not, hmask]
    by_cases h : c.Selects cls <;> simp [h, hbit]
  | assign =>
    rw [if_neg (by decide), if_neg (by decide), UInt32.toBitVec_or, UInt32.toBitVec_and, UInt32.toBitVec_not,
      BitVec.getLsbD_or, BitVec.getLsbD_and, BitVec.getLsbD_not, hmask, hclear]
    by_cases h : c.Selects cls <;> simp [h, hbit]

end Clause

theorem op_byte (op : ClauseOp) : ¬(op.byte ≠ 43 ∧ op.byte ≠ 45 ∧ op.byte ≠ 61) := by
  cases op <;> decide

theorem chmodClauses_cons {op : Byte} {ops : Bytes} (hspec : spec ≠ [])
    (hop : spec.dropWhile (fun b => b = 117 ∨ b = 103 ∨ b = 111 ∨ b = 97) = op :: ops)
    : chmodClauses (fuel + 1) spec mode
      = if op ≠ 43 ∧ op ≠ 45 ∧ op ≠ 61 then
          none
        else
          let who := if clauseWho spec = 0 then 7 else clauseWho spec
          let mask := clauseMask who (clausePerm ops)
          let mode :=
            if op = 43 then mode ||| mask
            else if op = 45 then mode &&& ~~~mask
            else (mode &&& ~~~(clauseMask who 7)) ||| mask
          match ops.dropWhile (fun b => b = 114 ∨ b = 119 ∨ b = 120) with
          | [] => chmodClauses fuel [] mode
          | 44 :: spec => chmodClauses fuel spec mode
          | _ => none := by
  have heq := chmodClauses.eq_3 spec mode fuel hspec
  rw [hop] at heq
  exact heq

theorem chmodClauses_nil : chmodClauses fuel [] mode = some (mode &&& 0o777) := by
  cases fuel <;> rfl

theorem chmodClauses_last (c : Clause) (mode : UInt32)
    : chmodClauses (fuel + 1) c.text mode = some (c.applyCode mode &&& 0o777) := by
  obtain ⟨hwho, hop⟩ := clauseWho_text c []
  obtain ⟨hperm, hrest⟩ := @clausePerm_text [] c.perms (by simp)
  rw [List.append_nil] at hwho hop
  rw [chmodClauses_cons (by simp [Clause.text]) hop, if_neg (op_byte c.op)]
  dsimp only
  rw [hwho, hperm, hrest]
  exact chmodClauses_nil

theorem chmodClauses_comma (c : Clause) (mode : UInt32)
    : chmodClauses (fuel + 1) (c.text ++ 44 :: rest) mode = chmodClauses fuel rest (c.applyCode mode) := by
  obtain ⟨hwho, hop⟩ := clauseWho_text c (44 :: rest)
  obtain ⟨hperm, hrest⟩ := @clausePerm_text (44 :: rest) c.perms (by simp)
  rw [chmodClauses_cons (by simp [Clause.text]) hop, if_neg (op_byte c.op)]
  dsimp only
  rw [hwho, hperm, hrest]
  rfl

theorem modeBits_and (mode : UInt32) : modeBits (mode &&& 0o777) = modeBits mode := by
  funext cls p
  unfold modeBits
  rw [UInt32.toBitVec_and, BitVec.getLsbD_and]
  have hones : (0o777 : UInt32).toBitVec.getLsbD (modeBit cls p) = true := by
    cases cls <;> cases p <;> decide
  rw [hones, Bool.and_true]

theorem chmodClauses_text {cs : List Clause} (hcs : cs ≠ []) (mode : UInt32) (h : (clausesText cs).length ≤ fuel)
    : ∃ m : UInt32, m.toNat < 0o1000 ∧ modeBits m = cs.foldl (fun bits c => c.apply bits) (modeBits mode)
      ∧ chmodClauses fuel (clausesText cs) mode = some m
      ∧ chmodClauses fuel (clausesText cs ++ [44]) mode = some m := by
  induction cs generalizing mode fuel with
  | nil => contradiction
  | cons c cs ih =>
    have hbits := c.applyCode_bits mode
    cases cs with
    | nil =>
      match fuel, h with
      | 0, h => simp [clausesText, Clause.text] at h
      | fuel + 1, h =>
        refine ⟨c.applyCode mode &&& 0o777, ?_, ?_, chmodClauses_last c mode, ?_⟩
        . rw [UInt32.toNat_and]
          exact Nat.lt_succ_of_le Nat.and_le_right
        . rw [modeBits_and, hbits]
          rfl
        . exact (chmodClauses_comma c mode).trans chmodClauses_nil
    | cons d cs =>
      change (c.text ++ 44 :: clausesText (d :: cs)).length ≤ fuel at h
      rw [List.length_append, List.length_cons] at h
      match fuel, h with
      | fuel + 1, h =>
        obtain ⟨m', hlt, hbits', htext, htrail⟩ := @ih fuel (by simp) (c.applyCode mode) (by omega)
        rw [hbits] at hbits'
        refine ⟨m', hlt, hbits', (chmodClauses_comma c mode).trans htext, ?_⟩
        show chmodClauses (fuel + 1) (c.text ++ 44 :: clausesText (d :: cs) ++ [44]) mode = _
        rw [List.append_assoc]
        exact (chmodClauses_comma c mode).trans htrail

theorem takeWhile_eq_map {α : Type} {f : α → Byte} {q : Byte → Bool} (hf : ∀ b, q b = true → b ∈ Set.range f)
    (bs : Bytes)
    : ∃ as : List α, bs = as.map f ++ bs.dropWhile q := by
  have hmem : bs.takeWhile q ∈ Set.range (List.map f) := by
    rw [Set.range_list_map]
    exact fun b hb => hf b (List.mem_takeWhile_imp hb)
  obtain ⟨as, has⟩ := hmem
  exact ⟨as, by rw [has, List.takeWhile_append_dropWhile]⟩

theorem clauses_of_chmodClauses {m : UInt32} (hfuel : spec.length ≤ fuel) (h : chmodClauses fuel spec mode = some m)
    : spec = [] ∨ ∃ cs, cs ≠ [] ∧ (spec = clausesText cs ∨ spec = clausesText cs ++ [44]) := by
  induction fuel generalizing spec mode with
  | zero => exact .inl (List.length_eq_zero_iff.mp (Nat.le_zero.mp hfuel))
  | succ fuel ih =>
    by_cases hspec : spec = []
    . exact .inl hspec
    . right
      obtain ⟨ws, hws⟩ := @takeWhile_eq_map Who Who.byte (fun b => b = 117 ∨ b = 103 ∨ b = 111 ∨ b = 97) (by
        intro b hb
        rcases of_decide_eq_true hb with rfl | rfl | rfl | rfl
        . exact ⟨some .user, rfl⟩
        . exact ⟨some .group, rfl⟩
        . exact ⟨some .other, rfl⟩
        . exact ⟨none, rfl⟩) spec
      cases hops : spec.dropWhile (fun b => b = 117 ∨ b = 103 ∨ b = 111 ∨ b = 97) with
      | nil =>
        obtain ⟨b, spec, rfl⟩ := List.exists_cons_of_ne_nil hspec
        rw [chmodClauses] at h
        . dsimp only at h
          rw [hops] at h
          contradiction
        . simp
      | cons op ops =>
        rw [chmodClauses_cons hspec hops] at h
        rw [hops] at hws
        obtain ⟨ps, hps⟩ := @takeWhile_eq_map Perm Perm.byte (fun b => b = 114 ∨ b = 119 ∨ b = 120) (by
          intro b hb
          rcases of_decide_eq_true hb with rfl | rfl | rfl
          . exact ⟨.read, rfl⟩
          . exact ⟨.write, rfl⟩
          . exact ⟨.exec, rfl⟩) ops
        split at h
        . contradiction
        . next hbyte =>
          have hop : ∃ o : ClauseOp, op = o.byte := by
            by_contra hno
            push Not at hno
            exact hbyte ⟨hno .add, hno .remove, hno .assign⟩
          obtain ⟨o, rfl⟩ := hop
          let c : Clause := ⟨ws, o, ps⟩
          dsimp only at h
          split at h
          . next hrest =>
            rw [hrest, List.append_nil] at hps
            refine ⟨[c], by simp, .inl ?_⟩
            rw [hws, hps]
            rfl
          . next rest hrest =>
            rw [hrest] at hps
            have htext : spec = c.text ++ 44 :: rest := by
              rw [hws, hps]
              unfold Clause.text
              rw [List.append_assoc]
              rfl
            rw [htext, List.length_append, List.length_cons] at hfuel
            rcases ih (by omega) h with hrest | ⟨cs, hcs, hrest⟩
            . rw [hrest] at htext
              exact ⟨[c], by simp, .inr htext⟩
            . obtain ⟨d, ds, rfl⟩ := List.exists_cons_of_ne_nil hcs
              refine ⟨c :: d :: ds, by simp, ?_⟩
              rcases hrest with hrest | hrest
              . left
                rw [htext, hrest]
                rfl
              . right
                rw [htext, hrest]
                show _ = (c.text ++ 44 :: clausesText (d :: ds)) ++ [44]
                rw [List.append_assoc]
                rfl
          . contradiction

theorem comma_ne_perm (p : Perm) : 44 ≠ p.byte := by
  cases p <;> decide

theorem comma_not_mem (c : Clause) : 44 ∉ c.text := by
  intro h
  rw [Clause.text, List.mem_append, List.mem_cons, List.mem_map, List.mem_map] at h
  rcases h with ⟨w, _, hw⟩ | hop | ⟨p, _, hp⟩
  . match w with
    | none | some .user | some .group | some .other => exact absurd hw (by decide)
  . cases hop' : c.op with
    | add | remove | assign =>
      rw [hop'] at hop
      exact absurd hop (by decide)
  . exact comma_ne_perm p hp.symm

theorem clausesText_ne_nil {cs : List Clause} (hcs : cs ≠ []) : clausesText cs ≠ [] := by
  match cs with
  | [c] => simp [clausesText, Clause.text]
  | c :: d :: cs => simp [clausesText]

theorem clausesText_ne_trailing {cs ds : List Clause} (hcs : cs ≠ []) : clausesText cs ≠ clausesText ds ++ [44] := by
  intro heq
  have hlast : (clausesText cs).getLast? = some 44 := by
    rw [heq, List.getLast?_concat]
  clear heq
  induction cs with
  | nil => contradiction
  | cons c cs ih =>
    cases cs with
    | nil =>
      exact comma_not_mem c (List.mem_of_getLast? hlast)
    | cons d cs =>
      have hne := clausesText_ne_nil (List.cons_ne_nil d cs)
      change (c.text ++ 44 :: clausesText (d :: cs)).getLast? = some 44 at hlast
      rw [List.getLast?_append_cons, List.getLast?_cons_of_ne_nil hne] at hlast
      exact ih (by simp) hlast

theorem not_chmodOk {cs : List Clause} (hcs : cs ≠ []) (mode : UInt32) : ¬ChmodOk (clausesText cs ++ [44]) mode := by
  intro hok
  obtain ⟨m, _, _, _, htrail⟩ := @chmodClauses_text ((clausesText cs ++ [44]).length) cs hcs mode (by simp)
  have hnone : ¬chmodSymbolic (clausesText cs ++ [44]) mode = none := by
    unfold chmodSymbolic
    rw [if_neg (by simp), htrail]
    simp
  apply hnone
  rw [hok.malformed]
  rintro ⟨ds, hds, heq⟩
  exact clausesText_ne_trailing hds heq.symm

end Proofs

/--
`chmod_symbolic` reads the clause language just if the text is no list of clauses with one more comma
behind it.
-/
theorem chmod_iff (spec : Bytes) (mode : UInt32)
    : ChmodOk spec mode ↔ ¬∃ cs, cs ≠ [] ∧ spec = clausesText cs ++ [44] := by
  constructor
  . rintro hok ⟨cs, hcs, rfl⟩
    exact not_chmodOk hcs mode hok
  . intro hno
    constructor
    . constructor
      . rintro hnone ⟨cs, hcs, rfl⟩
        obtain ⟨m, _, _, htext, _⟩ := chmodClauses_text hcs mode le_rfl
        unfold chmodSymbolic at hnone
        rw [if_neg (clausesText_ne_nil hcs), htext] at hnone
        contradiction
      . intro hbad
        unfold chmodSymbolic
        split
        . rfl
        . next hspec =>
          cases h : chmodClauses spec.length spec mode with
          | none => rfl
          | some m =>
            rcases clauses_of_chmodClauses le_rfl h with h | ⟨cs, hcs, h | h⟩
            . contradiction
            . exact absurd ⟨cs, hcs, h⟩ hbad
            . exact absurd ⟨cs, hcs, h⟩ hno
    . rintro cs hcs rfl
      obtain ⟨m, hlt, hbits, htext, _⟩ := chmodClauses_text hcs mode le_rfl
      refine ⟨m, ?_, hlt, hbits⟩
      unfold chmodSymbolic
      rw [if_neg (clausesText_ne_nil hcs), htext]

/--
`u+x,` is accepted.
-/
theorem chmod_trailing : ¬∀ spec mode, ChmodOk spec mode := by
  intro h
  exact not_chmodOk (List.cons_ne_nil ⟨[some .user], .add, [.exec]⟩ []) 0 (h _ 0)

end TanjaOS
