import TanjaOS.Lib.Split

/-!
The lines of a text. Every line ends in a newline, only the last one can do without.
-/

namespace Lib

variable {α : Type} {nl : α}

/--
One more character at the front of the first line.
-/
def consLine (c : α) (ls : List (List α)) : List (List α) :=
  match ls with
  | [] => [[c]]
  | l :: ls => (c :: l) :: ls

def linesOf [DecidableEq α] (nl : α) (t : List α) : List (List α) :=
  match t with
  | [] => []
  | c :: t => if c = nl then [] :: linesOf nl t else consLine c (linesOf nl t)

def linesText (nl : α) (ls : List (List α)) : List α :=
  ls.flatMap (· ++ [nl])

/--
No line lacks its newline.
-/
def Closed (nl : α) (t : List α) : Prop :=
  t = [] ∨ t.getLast? = some nl

instance [DecidableEq α] (t : List α) : Decidable (Closed nl t) :=
  inferInstanceAs (Decidable (_ ∨ _))

/--
The text with the newline that its last line may lack.
-/
def closeText [DecidableEq α] (nl : α) (t : List α) : List α :=
  if Closed nl t then t else t ++ [nl]

/--
Where line `k` starts, the end of the text if there is none.
-/
def lineIndex [DecidableEq α] (nl : α) (t : List α) (k : Nat) : Nat :=
  match t with
  | [] => 0
  | c :: t => if k = 0 then 0 else lineIndex nl t (if c = nl then k - 1 else k) + 1

section Closed

variable {t u v : List α}

theorem closed_nil : Closed nl [] :=
  Or.inl rfl

theorem closed_append_nl (t : List α) : Closed nl (t ++ [nl]) :=
  Or.inr List.getLast?_concat

theorem closed_tail {c : α} (h : Closed nl (c :: t)) : Closed nl t := by
  cases t with
  | nil => exact closed_nil
  | cons d t =>
    obtain h | h := h
    . exact absurd h (List.cons_ne_nil c _)
    . rw [List.getLast?_cons_cons] at h
      exact Or.inr h

theorem Closed.cons {c : α} (h : Closed nl t) (ht : t = [] → c = nl) : Closed nl (c :: t) := by
  cases t with
  | nil => exact Or.inr (by rw [ht rfl]; rfl)
  | cons d t =>
    obtain h | h := h
    . exact absurd h (List.cons_ne_nil d t)
    . exact Or.inr (by rw [List.getLast?_cons_cons]; exact h)

theorem closed_append (h : Closed nl u) : Closed nl (u ++ v) ↔ Closed nl v := by
  cases v with
  | nil =>
    rw [List.append_nil]
    exact ⟨fun _ => closed_nil, fun _ => h⟩
  | cons c v =>
    unfold Closed
    rw [List.getLast?_append_of_ne_nil u (List.cons_ne_nil c v)]
    simp

theorem closed_of_append (hv : v ≠ []) : Closed nl (u ++ v) ↔ Closed nl v := by
  unfold Closed
  rw [List.getLast?_append_of_ne_nil u hv]
  simp [hv]

variable [DecidableEq α]

theorem closeText_of_closed (h : Closed nl t) : closeText nl t = t :=
  if_pos h

theorem closed_closeText (t : List α) : Closed nl (closeText nl t) := by
  unfold closeText
  split
  . next h => exact h
  . exact closed_append_nl t

theorem closeText_append (h : Closed nl u) : closeText nl (u ++ v) = u ++ closeText nl v := by
  unfold closeText
  by_cases hv : Closed nl v
  . rw [if_pos hv, if_pos ((closed_append h).mpr hv)]
  . rw [if_neg hv, if_neg (fun hc => hv ((closed_append h).mp hc)), List.append_assoc]

theorem closeText_append_right (hv : v ≠ []) : closeText nl (u ++ v) = u ++ closeText nl v := by
  unfold closeText
  by_cases hc : Closed nl v
  . rw [if_pos hc, if_pos ((closed_of_append hv).mpr hc)]
  . rw [if_neg hc, if_neg (fun h => hc ((closed_of_append hv).mp h)), List.append_assoc]

theorem length_closeText_le (t : List α) : t.length ≤ (closeText nl t).length := by
  unfold closeText
  split
  . exact Nat.le_refl _
  . simp

theorem length_closeText_le_succ (t : List α) : (closeText nl t).length ≤ t.length + 1 := by
  unfold closeText
  split
  . omega
  . simp

theorem closeText_eq_nil : closeText nl t = [] ↔ t = [] := by
  unfold closeText
  split
  . exact Iff.rfl
  . next h =>
    constructor
    . intro h'
      simp at h'
    . rintro rfl
      exact absurd closed_nil h

end Closed

section LinesOf

variable [DecidableEq α] {t u v : List α}

theorem linesOf_cons (c : α) (t : List α)
    : linesOf nl (c :: t) = if c = nl then [] :: linesOf nl t else consLine c (linesOf nl t) :=
  rfl

theorem linesOf_eq_nil : linesOf nl t = [] ↔ t = [] := by
  cases t with
  | nil => exact ⟨fun _ => rfl, fun _ => rfl⟩
  | cons c t =>
    constructor
    . intro h
      rw [linesOf_cons] at h
      unfold consLine at h
      split at h
      . exact absurd h (List.cons_ne_nil _ _)
      . split at h
        . exact absurd h (List.cons_ne_nil _ _)
        . exact absurd h (List.cons_ne_nil _ _)
    . intro h
      exact absurd h (List.cons_ne_nil _ _)

theorem linesOf_append (h : Closed nl u) : linesOf nl (u ++ v) = linesOf nl u ++ linesOf nl v := by
  induction u with
  | nil => rfl
  | cons c u ih =>
    rw [List.cons_append, linesOf_cons, linesOf_cons, ih (closed_tail h)]
    by_cases hc : c = nl
    . rw [if_pos hc, if_pos hc, List.cons_append]
    . rw [if_neg hc, if_neg hc]
      cases hu : linesOf nl u with
      | nil =>
        -- a single character that is no newline would have to be one
        rw [linesOf_eq_nil] at hu
        subst hu
        obtain h | h := h
        . exact absurd h (List.cons_ne_nil c [])
        . rw [List.getLast?_singleton, Option.some.injEq] at h
          exact absurd h hc
      | cons l ls => rfl

theorem linesText_linesOf (t : List α) : linesText nl (linesOf nl t) = closeText nl t := by
  induction t with
  | nil => rfl
  | cons c t ih =>
    rw [linesOf_cons]
    have hcons : c :: t = [c] ++ t := rfl
    by_cases hc : c = nl
    . rw [if_pos hc, hcons, closeText_append (Or.inr (by rw [hc]; rfl)), ← ih, hc]
      rfl
    . rw [if_neg hc]
      cases ht : linesOf nl t with
      | nil =>
        rw [linesOf_eq_nil] at ht
        subst ht
        unfold closeText
        rw [if_neg]
        . rfl
        . rintro (h | h)
          . exact absurd h (List.cons_ne_nil c [])
          . rw [List.getLast?_singleton, Option.some.injEq] at h
            exact hc h
      | cons l ls =>
        have hne : t ≠ [] := by
          rintro rfl
          exact absurd ht.symm (List.cons_ne_nil l ls)
        rw [hcons, closeText_append_right hne, ← ih, ht]
        rfl

theorem linesOf_closeText (t : List α) : linesOf nl (closeText nl t) = linesOf nl t := by
  unfold closeText
  split
  . rfl
  . next h =>
    induction t with
    | nil => exact absurd closed_nil h
    | cons c t ih =>
      rw [List.cons_append, linesOf_cons, linesOf_cons]
      cases t with
      | nil =>
        have hc : c ≠ nl := by
          rintro rfl
          exact h (Or.inr rfl)
        rw [if_neg hc, if_neg hc, List.nil_append]
        rw [linesOf_cons, if_pos rfl]
        rfl
      | cons d t =>
        rw [ih (fun ht => h (ht.cons (fun hnil => absurd hnil (List.cons_ne_nil d t))))]

theorem linesOf_eq_iff : linesOf nl u = linesOf nl v ↔ closeText nl u = closeText nl v := by
  constructor
  . intro h
    rw [← linesText_linesOf, ← linesText_linesOf, h]
  . intro h
    rw [← linesOf_closeText u, ← linesOf_closeText v, h]

end LinesOf

section LineIndex

theorem consLine_take {k : Nat} (hk : k ≠ 0) (c : α) (ls : List (List α))
    : (consLine c ls).take k = consLine c (ls.take k) := by
  obtain ⟨k, rfl⟩ := Nat.exists_eq_succ_of_ne_zero hk
  cases ls with
  | nil => simp [consLine]
  | cons l ls => simp [consLine]

theorem consLine_drop {k : Nat} (hk : k ≠ 0) (c : α) (ls : List (List α))
    : (consLine c ls).drop k = ls.drop k := by
  obtain ⟨k, rfl⟩ := Nat.exists_eq_succ_of_ne_zero hk
  cases ls with
  | nil => simp [consLine]
  | cons l ls => simp [consLine]

variable [DecidableEq α]

theorem lineIndex_le (t : List α) (k : Nat) : lineIndex nl t k ≤ t.length := by
  induction t generalizing k with
  | nil => exact Nat.le_refl 0
  | cons c t ih =>
    unfold lineIndex
    rw [List.length_cons]
    split
    . exact Nat.zero_le _
    . have := ih (if c = nl then k - 1 else k)
      omega

theorem linesOf_take (t : List α) (k : Nat)
    : linesOf nl (t.take (lineIndex nl t k)) = (linesOf nl t).take k := by
  induction t generalizing k with
  | nil =>
    rw [List.take_nil]
    exact List.take_nil.symm
  | cons c t ih =>
    unfold lineIndex
    split
    . next hk =>
      rw [hk, List.take_zero, List.take_zero]
      rfl
    . next hk =>
      rw [List.take_succ_cons, linesOf_cons, linesOf_cons, ih]
      by_cases hc : c = nl
      . obtain ⟨k, rfl⟩ := Nat.exists_eq_succ_of_ne_zero hk
        rw [if_pos hc, if_pos hc, if_pos hc, Nat.succ_sub_one, List.take_succ_cons]
      . rw [if_neg hc, if_neg hc, if_neg hc, consLine_take hk]

theorem linesOf_drop (t : List α) (k : Nat)
    : linesOf nl (t.drop (lineIndex nl t k)) = (linesOf nl t).drop k := by
  induction t generalizing k with
  | nil =>
    rw [List.drop_nil]
    exact List.drop_nil.symm
  | cons c t ih =>
    unfold lineIndex
    split
    . next hk => rw [hk, List.drop_zero, List.drop_zero]
    . next hk =>
      rw [List.drop_succ_cons, ih, linesOf_cons]
      by_cases hc : c = nl
      . obtain ⟨k, rfl⟩ := Nat.exists_eq_succ_of_ne_zero hk
        rw [if_pos hc, if_pos hc, Nat.succ_sub_one, List.drop_succ_cons]
      . rw [if_neg hc, if_neg hc, consLine_drop hk]

theorem closed_take_lineIndex (t : List α) (k : Nat)
    : Closed nl (t.take (lineIndex nl t k)) ∨ lineIndex nl t k = t.length := by
  induction t generalizing k with
  | nil => exact Or.inr rfl
  | cons c t ih =>
    unfold lineIndex
    split
    . exact Or.inl closed_nil
    . next hk =>
      rw [List.take_succ_cons, List.length_cons]
      obtain h | h := ih (if c = nl then k - 1 else k)
      . by_cases hnil : t.take (lineIndex nl t (if c = nl then k - 1 else k)) = []
        . by_cases hc : c = nl
          . exact Or.inl (h.cons fun _ => hc)
          . -- the line of the character goes on to the end
            rw [if_neg hc] at hnil ⊢
            have hnone : lineIndex nl t k = 0 ∨ t = [] := by simpa using hnil
            obtain hzero | rfl := hnone
            . cases t with
              | nil => exact Or.inr rfl
              | cons d t =>
                unfold lineIndex at hzero
                rw [if_neg hk] at hzero
                omega
            . exact Or.inr rfl
        . exact Or.inl (h.cons fun hnil' => absurd hnil' hnil)
      . exact Or.inr (by omega)

theorem lineIndex_cons (c : α) (t : List α) (k : Nat)
    : lineIndex nl (c :: t) k = if k = 0 then 0 else lineIndex nl t (if c = nl then k - 1 else k) + 1 :=
  rfl

theorem lineIndex_zero (t : List α) : lineIndex nl t 0 = 0 := by
  cases t with
  | nil => rfl
  | cons c t => rfl

theorem lineIndex_succ (t : List α) (k : Nat)
    : lineIndex nl t (k + 1)
        = min t.length
          (lineIndex nl t k + ((t.drop (lineIndex nl t k)).takeWhile (· ≠ nl)).length + 1) := by
  induction t generalizing k with
  | nil => rfl
  | cons c t ih =>
    rw [lineIndex, if_neg (Nat.succ_ne_zero k), Nat.succ_sub_one]
    by_cases hk : k = 0
    . subst hk
      rw [lineIndex_zero, List.drop_zero, List.length_cons, List.takeWhile_cons]
      by_cases hc : c = nl
      . rw [if_pos hc, lineIndex_zero]
        simp [hc]
      . rw [if_neg hc, ih, lineIndex_zero, List.drop_zero]
        simp [hc]
    . rw [lineIndex, if_neg hk, List.drop_succ_cons, List.length_cons]
      by_cases hc : c = nl
      . rw [if_pos hc, if_pos hc]
        have := ih (k - 1)
        rw [Nat.sub_add_cancel (Nat.pos_of_ne_zero hk)] at this
        omega
      . rw [if_neg hc, if_neg hc]
        have := ih k
        omega

theorem lineIndex_mono (t : List α) {k k' : Nat} (h : k ≤ k') : lineIndex nl t k ≤ lineIndex nl t k' := by
  induction h with
  | refl => exact Nat.le_refl _
  | @step m _ ih =>
    change _ ≤ lineIndex nl t (m + 1)
    have := @lineIndex_succ _ nl _ t m
    have := @lineIndex_le _ nl _ t m
    omega

theorem lineIndex_drop (t : List α) (j k : Nat)
    : lineIndex nl (t.drop (lineIndex nl t j)) k = lineIndex nl t (j + k) - lineIndex nl t j := by
  induction t generalizing j with
  | nil => rfl
  | cons c t ih =>
    by_cases hj : j = 0
    . rw [hj, lineIndex_zero, List.drop_zero, Nat.zero_add, Nat.sub_zero]
    . have hstep : (if c = nl then j + k - 1 else j + k) = (if c = nl then j - 1 else j) + k := by
        split <;> omega
      have hjk : j + k ≠ 0 := by omega
      rw [lineIndex_cons c t j, lineIndex_cons c t (j + k), if_neg hj, if_neg hjk, List.drop_succ_cons,
        hstep, ih, Nat.add_sub_add_right]

theorem linesOf_range (t : List α) {i j : Nat} (hij : i ≤ j)
    : linesOf nl ((t.take (lineIndex nl t j)).drop (lineIndex nl t i)) = ((linesOf nl t).drop i).take (j - i) := by
  have hlen : lineIndex nl t j - lineIndex nl t i = lineIndex nl (t.drop (lineIndex nl t i)) (j - i) := by
    rw [lineIndex_drop, Nat.add_sub_cancel' hij]
  rw [List.drop_take, hlen, linesOf_take, linesOf_drop]

theorem linesOf_without (t : List α) {i j : Nat} (hij : i ≤ j)
    : linesOf nl (t.take (lineIndex nl t i) ++ t.drop (lineIndex nl t j))
        = (linesOf nl t).take i ++ (linesOf nl t).drop j := by
  obtain h | h := @closed_take_lineIndex _ nl _ t i
  . rw [linesOf_append h, linesOf_take, linesOf_drop]
  . have hmono := @lineIndex_mono _ nl _ t i j hij
    have hle := @lineIndex_le _ nl _ t j
    have hnil : t.drop (lineIndex nl t j) = [] := List.drop_eq_nil_of_le (by omega)
    have hdrop := @linesOf_drop _ nl _ t j
    rw [hnil] at hdrop
    rw [hnil, List.append_nil, linesOf_take, ← hdrop]
    exact (List.append_nil _).symm

end LineIndex

section Cut

variable [DecidableEq α] {front c rest : List α} {m : Nat}

/--
`m` characters are enough, if need be without the newline at the end.
-/
def FitsLines (nl : α) (m : Nat) (front c rest : List α) : Prop :=
  front.length + c.length + rest.length ≤ m
    ∨ rest = [] ∧ front.length + c.length = m + 1 ∧ Closed nl c ∧ ¬Closed nl (front ++ c).dropLast

theorem closeText_concat (h : ¬Closed nl c) : closeText nl c = c ++ [nl] :=
  if_neg h

theorem closeText_cut_iff (hfront : Closed nl front) (hrest : rest.length ≤ m)
    : closeText nl ((front ++ c).take (m - rest.length) ++ rest)
          = front ++ closeText nl c ++ closeText nl rest
        ↔ (Closed nl c ∨ rest = []) ∧ FitsLines nl m front c rest := by
  have hc := @length_closeText_le _ nl _ c
  have hr := @length_closeText_le _ nl _ rest
  have hc' := @length_closeText_le_succ _ nl _ c
  unfold FitsLines
  by_cases hfits : front.length + c.length + rest.length ≤ m
  . rw [List.take_of_length_le (by rw [List.length_append]; omega), List.append_assoc, closeText_append hfront,
      List.append_assoc, List.append_right_inj]
    simp only [hfits, true_or, and_true]
    by_cases hnil : rest = []
    . simp [hnil, closeText]
      simp [closed_nil]
    . rw [closeText_append_right hnil, List.append_left_inj]
      simp only [hnil, or_false]
      constructor
      . intro heq
        rw [heq]
        exact closed_closeText c
      . intro hclosed
        exact (closeText_of_closed hclosed).symm
  . simp only [hfits, false_or]
    have hcut : ((front ++ c).take (m - rest.length)).length = m - rest.length := by
      rw [List.length_take, List.length_append]
      omega
    by_cases hnil : rest = []
    . subst hnil
      rw [List.length_nil, Nat.sub_zero] at hcut ⊢
      rw [List.length_nil, Nat.add_zero] at hfits
      simp only [List.append_nil, or_true, true_and, closeText_of_closed closed_nil]
      have hcut' := @length_closeText_le_succ _ nl _ ((front ++ c).take m)
      constructor
      . intro heq
        have hlen := congrArg List.length heq
        rw [List.length_append] at hlen
        have hsum : front.length + c.length = m + 1 := by omega
        have hdrop : (front ++ c).take m = (front ++ c).dropLast := by
          rw [List.dropLast_eq_take, List.length_append, hsum, Nat.add_sub_cancel]
        refine ⟨hsum, ?_, ?_⟩
        . by_contra hopen
          rw [closeText_concat hopen, List.length_append, List.length_singleton] at hlen
          omega
        . intro hclosed
          rw [← hdrop] at hclosed
          rw [closeText_of_closed hclosed] at hlen
          omega
      . rintro ⟨hsum, hclosed, hopen⟩
        have hdrop : (front ++ c).take m = (front ++ c).dropLast := by
          rw [List.dropLast_eq_take, List.length_append, hsum, Nat.add_sub_cancel]
        have hne : front ++ c ≠ [] := by
          rw [← List.length_pos_iff, List.length_append]
          omega
        obtain hnone | hlast := (closed_append hfront).mpr hclosed
        . exact absurd hnone hne
        . rw [hdrop, closeText_concat hopen, closeText_of_closed hclosed]
          rw [List.getLast?_eq_some_getLast hne, Option.some.injEq] at hlast
          have hsplit := List.dropLast_append_getLast hne
          rw [hlast] at hsplit
          exact hsplit
    . simp only [hnil, or_false, false_and, and_false, iff_false]
      intro heq
      have hlen := congrArg List.length heq
      rw [closeText_append_right hnil, List.length_append, hcut, List.length_append, List.length_append] at hlen
      omega

end Cut

end Lib
