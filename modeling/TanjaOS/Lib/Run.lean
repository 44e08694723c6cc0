import Mathlib.Logic.Relation

/-!
Runs of a system that takes calls, restricted to those calls that are fine in the state they meet.
-/

namespace Lib

variable {State Call : Type} {step : Call → State → State → Prop} {ok ok' : State → Call → Prop}

/--
A run whose calls all meet `ok`.
-/
abbrev Run (step : Call → State → State → Prop) (ok : State → Call → Prop) : State → State → Prop :=
  Relation.ReflTransGen (fun s s' => ∃ c, ok s c ∧ step c s s')

namespace Run

variable {s s' : State} {I : State → Prop}

theorem call (h : Run step ok s s') {c : Call} {s'' : State} (hcall : step c s' s'') (hok : ok s' c)
    : Run step ok s s'' :=
  h.tail ⟨c, hok, hcall⟩

theorem keeps (hstep : ∀ s c s', ok s c → I s → step c s s' → I s') (hinit : I s)
    (h : Run step ok s s')
    : I s' := by
  induction h with
  | refl => exact hinit
  | tail _ hcall ih =>
    obtain ⟨c, hok, hcall⟩ := hcall
    exact hstep _ c _ hok ih hcall

theorem mono (hok : ∀ s c, ok s c → ok' s c) (h : Run step ok s s') : Run step ok' s s' := by
  induction h with
  | refl => exact Relation.ReflTransGen.refl
  | tail _ hcall ih =>
    obtain ⟨c, hc, hcall⟩ := hcall
    exact ih.tail ⟨c, hok _ c hc, hcall⟩

end Run

section Function

variable {next : State → Call → Option State}

/--
The state after a call that is possible.
-/
def after (next : State → Call → Option State) (s : State) (c : Call) : State :=
  (next s c).getD s

/--
The calls are possible one after the other, and all meet `ok`.
-/
def Possible (next : State → Call → Option State) (ok : State → Call → Prop)
    : List Call → State → Prop
  | [], _ => True
  | c :: cs, s => (next s c).isSome ∧ ok s c ∧ Possible next ok cs (after next s c)

theorem Run.of_possible {cs : List Call} {s s' : State}
    (hpre : Run (fun c s s' => next s c = some s') ok s s') (h : Possible next ok cs s')
    : Run (fun c s s' => next s c = some s') ok s (cs.foldl (after next) s') := by
  induction cs generalizing s' with
  | nil => exact hpre
  | cons c cs ih =>
    apply ih
    . apply hpre.call (c := c)
      . unfold after
        cases hnext : next s' c with
        | none =>
          have := h.1
          rw [hnext] at this
          contradiction
        | some s'' => rfl
      . exact h.2.1
    . exact h.2.2

end Function

end Lib
