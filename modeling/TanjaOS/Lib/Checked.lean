import TanjaOS.Lib.Mem

/-!
Code that loads from and stores to buffers of known size. An access outside of a buffer and a loop
that does not end are faults, `Yields` is the rule set for showing that code runs without one.
-/

namespace Lib

inductive Fault where
  | load
  | store
  | index
  | loop
  deriving DecidableEq

abbrev Checked := Except Fault

/--
Exactly `n` bytes.
-/
abbrev Octets (n : Nat) := { bs : Bytes // bs.length = n }

/--
The `n` bytes from offset `i` on.
-/
def load (b : Bytes) (i n : Nat) : Checked (Octets n) :=
  if h : i + n ≤ b.length then
    .ok ⟨(b.drop i).take n, by simp; omega⟩
  else
    .error .load

def load8 (b : Bytes) (i : Nat) : Checked Byte :=
  match b[i]? with
  | some x => .ok x
  | none => .error .load

/--
The big endian word at offset `i`.
-/
def word16 (b : Bytes) (i : Nat) : UInt16 :=
  .ofNat (256 * (b.getD i 0).toNat + (b.getD (i + 1) 0).toNat)

def word32 (b : Bytes) (i : Nat) : UInt32 :=
  .ofNat (65536 * (word16 b i).toNat + (word16 b (i + 2)).toNat)

def load16 (b : Bytes) (i : Nat) : Checked UInt16 :=
  if i + 2 ≤ b.length then .ok (word16 b i) else .error .load

def load32 (b : Bytes) (i : Nat) : Checked UInt32 :=
  if i + 4 ≤ b.length then .ok (word32 b i) else .error .load

/--
The check for storing `n` bytes at offset `i` of a buffer of `cap` bytes.
-/
def store (cap i n : Nat) : Checked Unit :=
  if i + n ≤ cap then .ok () else .error .store

/--
A check that is made somewhere else.
-/
def check (c : Bool) (f : Fault) : Checked Unit :=
  if c then .ok () else .error f

namespace Checked

variable {α β : Type} {x : Checked α} {f : α → Checked β} {P Q : α → Prop} {R : β → Prop}

/--
`x` runs without a fault and what it returns meets `P`.
-/
def Yields (x : Checked α) (P : α → Prop) : Prop :=
  ∃ a, x = .ok a ∧ P a

theorem ok_bind (a : α) (f : α → Checked β) : (Except.ok a >>= f) = f a :=
  rfl

theorem Yields.mono (h : x.Yields P) (hpq : ∀ a, P a → Q a) : x.Yields Q := by
  cases h with
  | intro a h => exact ⟨a, h.1, hpq a h.2⟩

theorem yields_pure {a : α} (h : P a) : Yields (pure a) P :=
  ⟨a, rfl, h⟩

theorem yields_bind (hx : x.Yields P) (hf : ∀ a, P a → (f a).Yields R) : (x >>= f).Yields R := by
  cases hx with
  | intro a hx =>
    rw [hx.1]
    apply hf
    exact hx.2

theorem yields_ite {c : Prop} [Decidable c] {x y : Checked α} (hx : c → x.Yields P)
    (hy : ¬c → y.Yields P)
    : (if c then x else y).Yields P := by
  split
  . next h => exact hx h
  . next h => exact hy h

theorem yields_load {b : Bytes} {i n : Nat} (h : i + n ≤ b.length)
    : (load b i n).Yields (fun bs => bs.1 = (b.drop i).take n) := by
  unfold load
  rw [dif_pos h]
  exact ⟨_, rfl, rfl⟩

theorem yields_load8 {b : Bytes} {i : Nat} (h : i < b.length)
    : (load8 b i).Yields (fun x => x = b.getD i 0) := by
  unfold load8
  rw [List.getElem?_eq_getElem h]
  exact ⟨_, rfl, by simp [h]⟩

theorem yields_load16 {b : Bytes} {i : Nat} (h : i + 2 ≤ b.length)
    : (load16 b i).Yields (fun x => x = word16 b i) := by
  unfold load16
  rw [if_pos h]
  exact ⟨_, rfl, rfl⟩

theorem yields_load32 {b : Bytes} {i : Nat} (h : i + 4 ≤ b.length)
    : (load32 b i).Yields (fun x => x = word32 b i) := by
  unfold load32
  rw [if_pos h]
  exact ⟨_, rfl, rfl⟩

theorem yields_store {cap i n : Nat} (h : i + n ≤ cap) : (store cap i n).Yields (fun _ => True) := by
  unfold store
  rw [if_pos h]
  exact ⟨(), rfl, trivial⟩

/--
`x` runs without a fault exactly when `c` holds, and what it returns then meets `P`.
-/
structure Needs (x : Checked α) (c : Prop) (P : α → Prop) : Prop where
  yields : c → x.Yields P
  cond : x.Yields (fun _ => True) → c

section Needs

variable {c c' d : Prop}

theorem Needs.yields_iff (h : x.Needs c P) : x.Yields P ↔ c := by
  constructor
  . intro hx
    apply h.cond
    exact hx.mono (fun _ _ => trivial)
  . exact h.yields

theorem Needs.of_iff (h : x.Needs c P) (hc : c' ↔ c) : x.Needs c' P := by
  rw [propext hc]
  exact h

theorem Needs.mono (h : x.Needs c P) (hpq : ∀ a, P a → Q a) : x.Needs c Q where
  yields hc := (h.yields hc).mono hpq
  cond := h.cond

theorem Needs.and_cond (h : x.Needs c P) : x.Needs c (fun a => c ∧ P a) where
  yields hc := (h.yields hc).mono (fun _ ha => ⟨hc, ha⟩)
  cond := h.cond

theorem needs_pure {a : α} (h : P a) : Needs (pure a) True P where
  yields _ := yields_pure h
  cond _ := trivial

theorem needs_throw {e : Fault} : Needs (throw e) False P where
  yields h := h.elim
  cond h := by
    obtain ⟨_, heq, _⟩ := h
    cases heq

theorem needs_check {b : Bool} {e : Fault} : (check b e).Needs (b = true) (fun _ => b = true) := by
  unfold check
  cases b with
  | true =>
    apply Needs.of_iff (c := True)
    . exact needs_pure rfl
    . simp
  | false => exact needs_throw.of_iff (by simp)

theorem needs_bind (hx : x.Needs c P) (hf : ∀ a, P a → (f a).Needs d R)
    : (x >>= f).Needs (c ∧ d) R where
  yields h := by
    apply yields_bind (hx.yields h.1)
    intro a ha
    exact (hf a ha).yields h.2
  cond h := by
    obtain ⟨r, heq, _⟩ := h
    cases hr : x with
    | error _ =>
      rw [hr] at heq
      cases heq
    | ok a =>
      have hc := hx.cond ⟨a, hr, trivial⟩
      obtain ⟨a', hr', ha⟩ := hx.yields hc
      rw [hr] at hr' heq
      cases hr'
      exact ⟨hc, (hf a ha).cond ⟨r, heq, trivial⟩⟩

theorem needs_ite {p : Prop} [Decidable p] {x y : Checked α} (hx : p → x.Needs c P)
    (hy : ¬p → y.Needs d P)
    : (if p then x else y).Needs ((p → c) ∧ (¬p → d)) P := by
  split
  . next h => exact (hx h).of_iff (by simp [h])
  . next h => exact (hy h).of_iff (by simp [h])

end Needs

end Checked

end Lib
