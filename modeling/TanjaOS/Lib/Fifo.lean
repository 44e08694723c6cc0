import Mathlib.Data.List.Nodup

/-!
A table of `cap` places that are filled in turn, and what it stands for: a list with the newest key
first. A new key pushes the oldest one out once the table is full, a known one keeps its place.
-/

namespace Lib

variable {K V : Type}

/--
The place of the key that `i` others have been put in after, where `next` is filled next.
-/
def fifoPlace (cap next i : Nat) : Nat :=
  if i < next then next - 1 - i else next + cap - 1 - i

/--
The table `ent` holds the list.
-/
structure FifoHolds (cap next : Nat) (ent : Nat → Option (K × V)) (l : List (K × V)) : Prop where
  next_lt : next < cap
  keys : (l.map Prod.fst).Nodup
  length : l.length ≤ cap
  place : ∀ i < cap, ent (fifoPlace cap next i) = l[i]?

namespace FifoHolds

variable {cap next : Nat} {ent : Nat → Option (K × V)} {l : List (K × V)} {j : Nat}

theorem clear (h : next < cap) : FifoHolds cap next (fun _ => (none : Option (K × V))) [] where
  next_lt := h
  keys := List.nodup_nil
  length := Nat.zero_le cap
  place _ _ := rfl

theorem exists_age (h : FifoHolds cap next ent l) (hj : j < cap) : ∃ i < cap, fifoPlace cap next i = j := by
  have hnext := h.next_lt
  unfold fifoPlace
  by_cases hle : next ≤ j
  . exact ⟨next + cap - 1 - j, by omega, by split <;> omega⟩
  . exact ⟨next - 1 - j, by omega, by split <;> omega⟩

theorem mem_of_ent (h : FifoHolds cap next ent l) (hj : j < cap) {e : K × V} (he : ent j = some e) : e ∈ l := by
  obtain ⟨i, hi, rfl⟩ := h.exists_age hj
  rw [h.place i hi] at he
  exact List.mem_of_getElem? he

theorem ent_of_mem (h : FifoHolds cap next ent l) {e : K × V} (he : e ∈ l) : ∃ j < cap, ent j = some e := by
  obtain ⟨i, hi, hget⟩ := List.getElem_of_mem he
  have hlt : i < cap := Nat.lt_of_lt_of_le hi h.length
  have hnext := h.next_lt
  refine ⟨fifoPlace cap next i, ?_, ?_⟩
  . unfold fifoPlace
    split <;> omega
  . rw [h.place i hlt, List.getElem?_eq_getElem hi, hget]

end FifoHolds

variable [DecidableEq K]

def assoc (l : List (K × V)) (k : K) : Option V :=
  (l.find? (fun e => e.1 = k)).map Prod.snd

def setValue (k : K) (v : V) (e : K × V) : K × V :=
  if e.1 = k then (k, v) else e

def fifoLearn (cap : Nat) (l : List (K × V)) (k : K) (v : V) : List (K × V) :=
  if k ∈ l.map Prod.fst then l.map (setValue k v) else ((k, v) :: l).take cap

section Lists

variable {cap : Nat} {l : List (K × V)} {k : K} {v : V}

theorem keys_setValue (l : List (K × V)) (k : K) (v : V)
    : (l.map (setValue k v)).map Prod.fst = l.map Prod.fst := by
  rw [List.map_map]
  apply List.map_congr_left
  intro e _
  unfold setValue
  simp only [Function.comp_apply]
  split
  . next h => exact h.symm
  . rfl

theorem find?_key (hkeys : (l.map Prod.fst).Nodup) (hmem : (k, v) ∈ l)
    : l.find? (fun e => e.1 = k) = some (k, v) := by
  induction l with
  | nil => contradiction
  | cons e l ih =>
    rw [List.map_cons, List.nodup_cons] at hkeys
    obtain rfl | hmem := List.mem_cons.mp hmem
    . rw [List.find?_cons_of_pos (by simp)]
    . have hne : e.1 ≠ k := by
        intro h
        exact hkeys.1 (h ▸ List.mem_map_of_mem hmem)
      rw [List.find?_cons_of_neg (by simpa using hne)]
      exact ih hkeys.2 hmem

theorem assoc_eq_some_iff (hkeys : (l.map Prod.fst).Nodup) : assoc l k = some v ↔ (k, v) ∈ l := by
  unfold assoc
  constructor
  . intro h
    obtain ⟨e, hfind, rfl⟩ := Option.map_eq_some_iff.1 h
    have hkey : e.1 = k := by simpa using List.find?_some hfind
    rw [← hkey]
    exact List.mem_of_find?_eq_some hfind
  . intro hmem
    rw [find?_key hkeys hmem]
    rfl

theorem assoc_eq_none_iff : assoc l k = none ↔ k ∉ l.map Prod.fst := by
  unfold assoc
  rw [Option.map_eq_none_iff, List.find?_eq_none, List.mem_map]
  simp only [decide_eq_true_eq, not_exists, not_and]

theorem keys_fifoLearn (hkeys : (l.map Prod.fst).Nodup) : ((fifoLearn cap l k v).map Prod.fst).Nodup := by
  unfold fifoLearn
  split
  . rw [keys_setValue]
    exact hkeys
  . next hnew =>
    rw [List.map_take]
    exact (List.take_sublist _ _).nodup (List.nodup_cons.mpr ⟨hnew, hkeys⟩)

theorem length_fifoLearn (hlen : l.length ≤ cap) : (fifoLearn cap l k v).length ≤ cap := by
  unfold fifoLearn
  split
  . rw [List.length_map]
    exact hlen
  . rw [List.length_take]
    exact Nat.min_le_left _ _

theorem mem_fifoLearn {e : K × V} (h : e ∈ fifoLearn cap l k v) : e = (k, v) ∨ e ∈ l ∧ e.1 ≠ k := by
  unfold fifoLearn at h
  split at h
  . obtain ⟨e', hmem, rfl⟩ := List.mem_map.mp h
    unfold setValue
    by_cases hkey : e'.1 = k
    . rw [if_pos hkey]
      exact .inl rfl
    . rw [if_neg hkey]
      exact .inr ⟨hmem, hkey⟩
  . next hnew =>
    obtain rfl | hmem := List.mem_cons.mp (List.mem_of_mem_take h)
    . exact .inl rfl
    . exact .inr ⟨hmem, fun hkey => hnew (hkey ▸ List.mem_map_of_mem hmem)⟩

end Lists

namespace FifoHolds

variable {cap next : Nat} {ent : Nat → Option (K × V)} {l : List (K × V)} {k : K} {v : V} {j : Nat}

theorem find_ent (h : FifoHolds cap next ent l) {p : Nat → Bool}
    (hp : ∀ j < cap, p j ↔ ∃ v, ent j = some (k, v))
    : (∀ j, (List.range cap).find? p = some j → j < cap ∧ ∃ v, ent j = some (k, v) ∧ assoc l k = some v)
      ∧ ((List.range cap).find? p = none → assoc l k = none) := by
  constructor
  . intro j hfind
    have hj : j < cap := List.mem_range.mp (List.mem_of_find?_eq_some hfind)
    obtain ⟨v, hv⟩ := (hp j hj).mp (List.find?_some hfind)
    exact ⟨hj, v, hv, (assoc_eq_some_iff h.keys).mpr (h.mem_of_ent hj hv)⟩
  . intro hfind
    rw [assoc_eq_none_iff]
    intro hmem
    obtain ⟨⟨k', v⟩, hentry, rfl⟩ := List.mem_map.mp hmem
    obtain ⟨j, hj, hv⟩ := h.ent_of_mem hentry
    exact absurd ((hp j hj).mpr ⟨v, hv⟩) (by simpa using List.find?_eq_none.mp hfind j (List.mem_range.mpr hj))

theorem learn_new (h : FifoHolds cap next ent l) (hnew : assoc l k = none)
    : FifoHolds cap ((next + 1) % cap) (fun j => if j = next then some (k, v) else ent j) (fifoLearn cap l k v) where
  next_lt := Nat.mod_lt _ (Nat.lt_of_le_of_lt (Nat.zero_le _) h.next_lt)
  keys := keys_fifoLearn h.keys
  length := length_fifoLearn h.length
  place i hi := by
    have hnext := h.next_lt
    have hlist : fifoLearn cap l k v = ((k, v) :: l).take cap := if_neg (assoc_eq_none_iff.mp hnew)
    have hstep : (next + 1) % cap = if next + 1 = cap then 0 else next + 1 := by
      split
      . next heq => rw [heq, Nat.mod_self]
      . exact Nat.mod_eq_of_lt (by omega)
    rw [hlist, List.getElem?_take_of_lt hi, hstep]
    cases i with
    | zero =>
      have hplace : fifoPlace cap (if next + 1 = cap then 0 else next + 1) 0 = next := by
        unfold fifoPlace
        split <;> split <;> omega
      rw [hplace, if_pos rfl, List.getElem?_cons_zero]
    | succ i =>
      have hplace : fifoPlace cap (if next + 1 = cap then 0 else next + 1) (i + 1) = fifoPlace cap next i := by
        unfold fifoPlace
        split <;> split <;> split <;> omega
      have hne : fifoPlace cap next i ≠ next := by
        unfold fifoPlace
        split <;> omega
      rw [hplace, if_neg hne, h.place i (by omega), List.getElem?_cons_succ]

theorem learn_old (h : FifoHolds cap next ent l) (hj : j < cap) {w : V} (hold : ent j = some (k, w))
    : FifoHolds cap next (fun i => if i = j then some (k, v) else ent i) (fifoLearn cap l k v) where
  next_lt := h.next_lt
  keys := keys_fifoLearn h.keys
  length := length_fifoLearn h.length
  place i hi := by
    have hmem := h.mem_of_ent hj hold
    have hlist : fifoLearn cap l k v = l.map (setValue k v) := if_pos (List.mem_map_of_mem hmem)
    rw [hlist, List.getElem?_map]
    obtain ⟨i', hi', rfl⟩ := h.exists_age hj
    rw [h.place i' hi'] at hold
    by_cases hsame : i = i'
    . subst hsame
      rw [if_pos rfl, hold]
      exact congrArg some (if_pos rfl).symm
    . have hplace : fifoPlace cap next i ≠ fifoPlace cap next i' := by
        have hnext := h.next_lt
        unfold fifoPlace
        split <;> split <;> omega
      rw [if_neg hplace, h.place i hi]
      cases hget : l[i]? with
      | none => rfl
      | some e =>
        have hne : e.1 ≠ k := by
          intro hkey
          -- the key stands in the list once
          have hi₁ : (l.map Prod.fst)[i]? = some k := by rw [List.getElem?_map, hget, Option.map_some, hkey]
          have hi₂ : (l.map Prod.fst)[i']? = some k := by rw [List.getElem?_map, hold]; rfl
          exact hsame ((List.getElem?_inj (List.getElem?_eq_some_iff.mp hi₁).1 h.keys).mp (hi₁.trans hi₂.symm))
        exact congrArg some (if_neg hne).symm

end FifoHolds

end Lib
