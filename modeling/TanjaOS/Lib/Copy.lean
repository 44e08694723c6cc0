import Mathlib.Logic.Function.Basic
import Mathlib.Data.Int.Notation

/-!
Copies from one place of an array to another one that it may overlap, cell by cell. From the first
cell on this is fine towards lower indices, from the last one on towards higher indices.
-/

namespace Lib

variable {α : Type}

/--
Copy `n` cells, the first one first.
-/
def copyUp (d : Int → α) (dst src : Int) : Nat → Int → α
  | 0 => d
  | n + 1 => Function.update (copyUp d dst src n) (dst + n) (copyUp d dst src n (src + n))

/--
Copy `n` cells, the last one first.
-/
def copyDown (d : Int → α) (dst src : Int) : Nat → Int → α
  | 0 => d
  | n + 1 => copyDown (Function.update d (dst + n) (d (src + n))) dst src n

variable {d : Int → α} {dst src : Int}

theorem copyUp_apply (h : dst ≤ src) (n : Nat) (a : Int)
    : copyUp d dst src n a = if dst ≤ a ∧ a < dst + n then d (a - dst + src) else d a := by
  induction n generalizing a with
  | zero =>
    rw [if_neg (by omega)]
    rfl
  | succ n ih =>
    unfold copyUp
    by_cases hlast : a = dst + n
    . -- what is read here has not been written yet
      subst hlast
      rw [Function.update_self, ih, if_neg (by omega), if_pos (by omega)]
      congr 1
      omega
    . rw [Function.update_of_ne hlast, ih]
      by_cases hin : dst ≤ a ∧ a < dst + n
      . rw [if_pos hin, if_pos (by omega)]
      . rw [if_neg hin, if_neg (by omega)]

theorem copyDown_apply (h : src ≤ dst) (n : Nat) (a : Int)
    : copyDown d dst src n a = if dst ≤ a ∧ a < dst + n then d (a - dst + src) else d a := by
  induction n generalizing d with
  | zero =>
    rw [if_neg (by omega)]
    rfl
  | succ n ih =>
    unfold copyDown
    rw [ih]
    by_cases hin : dst ≤ a ∧ a < dst + n
    . rw [if_pos hin, if_pos (by omega), Function.update_of_ne (by omega)]
    . rw [if_neg hin]
      by_cases hlast : a = dst + n
      . subst hlast
        rw [Function.update_self, if_pos (by omega)]
        congr 1
        omega
      . rw [Function.update_of_ne hlast, if_neg (by omega)]

end Lib
