import Mathlib.Data.List.Basic
import Mathlib.Logic.Function.Iterate
import Mathlib.Logic.Function.Basic

/-!
A history of states that can be walked back and forth, and the circular array that keeps one side of it.
-/

namespace Lib

variable {α : Type} {cap : Nat}

/--
The states that a walk back and a walk forth from `now` meet, the nearest in front.
-/
structure History (α : Type) where
  past : List α
  now : α
  future : List α

namespace History

/--
A history that nothing has happened in.
-/
def start (a : α) : History α :=
  ⟨[], a, []⟩

/--
A new state, of those before it the latest `cap` are kept.
-/
def change (cap : Nat) (h : History α) (a : α) : History α :=
  ⟨(h.now :: h.past).take cap, a, []⟩

def undo (h : History α) : History α :=
  match h.past with
  | [] => h
  | a :: past => ⟨past, a, h.now :: h.future⟩

def redo (h : History α) : History α :=
  match h.future with
  | [] => h
  | a :: future => ⟨h.now :: h.past, a, future⟩

/--
Back and forth change places.
-/
def flip (h : History α) : History α :=
  ⟨h.future, h.now, h.past⟩

theorem redo_eq_flip (h : History α) : h.redo = h.flip.undo.flip := by
  obtain ⟨past, now, future⟩ := h
  cases future with
  | nil => rfl
  | cons a future => rfl

theorem redo_undo {h : History α} (hpast : h.past ≠ []) : h.undo.redo = h := by
  obtain ⟨past, now, future⟩ := h
  cases past with
  | nil => contradiction
  | cons a past => rfl

theorem length_past_undo (h : History α) : h.undo.past.length = h.past.length - 1 := by
  obtain ⟨past, now, future⟩ := h
  cases past with
  | nil => rfl
  | cons a past => rfl

theorem redo_undo_iterate {h : History α} {k : Nat} (hk : k ≤ h.past.length)
    : redo^[k] (undo^[k] h) = h := by
  induction k generalizing h with
  | zero => rfl
  | succ k ih =>
    rw [Function.iterate_succ_apply' redo, Function.iterate_succ_apply undo, ih]
    . apply redo_undo
      intro hnil
      rw [hnil] at hk
      contradiction
    . rw [length_past_undo]
      omega

end History

/--
The `cnt` latest entries of an array of `cap` places whose place `head` is filled next, the latest in
front.
-/
def ringStack (cap : Nat) (ring : Nat → α) (head cnt : Nat) : List α :=
  (List.range cnt).map (fun i => ring ((head + (cap - 1 - i)) % cap))

section RingStack

variable {ring : Nat → α} {head cnt : Nat}

@[simp]
theorem length_ringStack : (ringStack cap ring head cnt).length = cnt := by
  simp [ringStack]

theorem ringStack_succ (hcnt : cnt < cap)
    : ringStack cap ring head (cnt + 1)
      = ring ((head + (cap - 1)) % cap) :: ringStack cap ring ((head + (cap - 1)) % cap) cnt := by
  unfold ringStack
  rw [List.range_succ_eq_map, List.map_cons, List.map_map]
  congr 1
  apply List.map_congr_left
  intro i hi
  have hi := List.mem_range.mp hi
  change ring ((head + (cap - 1 - (i + 1))) % cap) = _
  congr 1
  rw [Nat.mod_add_mod]
  have heq : head + (cap - 1) + (cap - 1 - i) = head + (cap - 1 - (i + 1)) + cap := by omega
  rw [heq, Nat.add_mod_right]

theorem ringStack_push (hhead : head < cap) (hcnt : cnt ≤ cap) (a : α)
    : ringStack cap (Function.update ring head a) ((head + 1) % cap) (min (cnt + 1) cap)
      = (a :: ringStack cap ring head cnt).take cap := by
  apply List.ext_getElem
  . rw [length_ringStack, List.length_take, List.length_cons, length_ringStack]
    omega
  . intro i hi hi'
    rw [length_ringStack] at hi
    rw [List.getElem_take]
    cases i with
    | zero =>
      have hplace : ((head + 1) % cap + (cap - 1 - 0)) % cap = head := by
        rw [Nat.mod_add_mod, show head + 1 + (cap - 1 - 0) = head + cap by omega, Nat.add_mod_right,
          Nat.mod_eq_of_lt hhead]
      simp only [ringStack, List.getElem_map, List.getElem_range, List.getElem_cons_zero, hplace,
        Function.update_self]
    | succ i =>
      have hplace : ((head + 1) % cap + (cap - 1 - (i + 1))) % cap = (head + (cap - 1 - i)) % cap := by
        rw [Nat.mod_add_mod]
        congr 1
        omega
      have hne : (head + (cap - 1 - i)) % cap ≠ head := by
        intro heq
        have hmod := Nat.div_add_mod (head + (cap - 1 - i)) cap
        rw [heq] at hmod
        have hpos : (head + (cap - 1 - i)) / cap = 0 := by
          apply Nat.eq_zero_of_not_pos
          intro hpos
          have := Nat.le_mul_of_pos_right cap hpos
          omega
        rw [hpos, Nat.mul_zero] at hmod
        omega
      simp only [ringStack, List.getElem_map, List.getElem_range, List.getElem_cons_succ, hplace,
        Function.update_of_ne hne]

end RingStack

end Lib
