import TanjaOS.Lib.Checked

/-!
What code returns if it runs without a fault, where it does not matter whether it does.
-/

namespace Lib.Checked

variable {α β : Type} {x y : Checked α} {f : α → Checked β} {P Q : α → Prop} {R : β → Prop}

def Returns (x : Checked α) (P : α → Prop) : Prop :=
  ∀ a, x = .ok a → P a

theorem Returns.mono (h : x.Returns P) (hpq : ∀ a, P a → Q a) : x.Returns Q :=
  fun a ha => hpq a (h a ha)

theorem returns_pure {a : α} (h : P a) : Returns (pure a) P := by
  intro a' ha
  cases ha
  exact h

theorem returns_any : x.Returns (fun _ => True) :=
  fun _ _ => trivial

theorem returns_bind (hx : x.Returns P) (hf : ∀ a, P a → (f a).Returns R) : (x >>= f).Returns R := by
  intro b hb
  cases hres : x with
  | error e =>
    rw [hres] at hb
    contradiction
  | ok a =>
    rw [hres] at hb
    exact hf a (hx a hres) b hb

theorem returns_ite {c : Prop} [Decidable c] (hx : c → x.Returns P) (hy : ¬c → y.Returns P)
    : (if c then x else y).Returns P := by
  split
  . next h => exact hx h
  . next h => exact hy h

theorem returns_load16 {b : Bytes} {i : Nat} : (load16 b i).Returns (· = word16 b i) := by
  intro w hw
  unfold load16 at hw
  split at hw
  . cases hw
    rfl
  . contradiction

theorem returns_load32 {b : Bytes} {i : Nat} : (load32 b i).Returns (· = word32 b i) := by
  intro w hw
  unfold load32 at hw
  split at hw
  . cases hw
    rfl
  . contradiction

theorem returns_load {b : Bytes} {i n : Nat} : (load b i n).Returns (fun r => r.1 = (b.drop i).take n) := by
  intro r hr
  unfold load at hr
  split at hr
  . cases hr
    rfl
  . contradiction

end Lib.Checked
