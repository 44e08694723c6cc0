import Mathlib.Logic.Relation

/-!
Calls that give a result, one after the other, and two systems of which one stands for the other.
-/

namespace Lib

variable {Call Result State Abstract : Type}

/--
The results of the calls and the state behind the last one.
-/
def trace (exec : Call → State → Result × State) (calls : List Call) (s : State) : List Result × State :=
  match calls with
  | [] => ([], s)
  | c :: calls =>
    let r := exec c s
    let rest := trace exec calls r.2
    (r.1 :: rest.1, rest.2)

/--
Each call is fine in the state that it meets.
-/
def AllFine (exec : Call → State → Result × State) (ok : Call → State → Prop) : List Call → State → Prop
  | [], _ => True
  | c :: calls, s => ok c s ∧ AllFine exec ok calls (exec c s).2

/--
What a system does that is given by what each call may do.
-/
inductive Behaves (spec : Call → Abstract → Result → Abstract → Prop)
    : List Call → Abstract → List Result → Abstract → Prop where
  | nil (a : Abstract) : Behaves spec [] a [] a
  | cons {c : Call} {calls : List Call} {r : Result} {rs : List Result} {a a' a'' : Abstract}
      (hcall : spec c a r a') (hrest : Behaves spec calls a' rs a'') : Behaves spec (c :: calls) a (r :: rs) a''

/--
What `exec` does is something that `spec` allows, when `view` takes the states of one to those of the other.
-/
structure Simulates (exec : Call → State → Result × State) (spec : Call → Abstract → Result → Abstract → Prop)
    (ok : Call → State → Prop) (Inv : State → Prop) (view : State → Abstract) : Prop where
  keeps : ∀ {c s}, Inv s → ok c s → Inv (exec c s).2
  allows : ∀ {c s}, Inv s → ok c s → spec c (view s) (exec c s).1 (view (exec c s).2)

variable {exec : Call → State → Result × State} {spec : Call → Abstract → Result → Abstract → Prop}
  {ok : Call → State → Prop} {Inv : State → Prop} {view : State → Abstract} {s : State} {calls : List Call}

theorem Simulates.run (h : Simulates exec spec ok Inv view) (hinit : Inv s) (hok : AllFine exec ok calls s)
    : Inv (trace exec calls s).2
      ∧ Behaves spec calls (view s) (trace exec calls s).1 (view (trace exec calls s).2) := by
  induction calls generalizing s with
  | nil => exact ⟨hinit, .nil _⟩
  | cons c calls ih =>
    obtain ⟨hc, hrest⟩ := hok
    obtain ⟨hinv, hbehaves⟩ := ih (h.keeps hinit hc) hrest
    exact ⟨hinv, .cons (h.allows hinit hc) hbehaves⟩

end Lib
