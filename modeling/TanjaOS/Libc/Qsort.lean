import TanjaOS.Libc.Strtok

/-!
`qsort` and `bsearch`. Both work on bytes: an element is `size` of them, an access outside of the
array is a fault.
-/

open Lib

namespace TanjaOS

/--
`memswap`, `a` and `b` move through the two elements.
-/
def memswap (m : Bytes) (a b n : Nat) : Checked Bytes :=
  match n with
  | 0 => .ok m
  | n + 1 => do
    let t ← load8 m a
    let u ← load8 m b
    memswap ((m.set a u).set b t) (a + 1) (b + 1) n

section Qsort

variable {size : Nat} (cmp : Octets size → Octets size → Int)

/--
`cmp(b + i * size, b + j * size)`
-/
def cmpAt (m : Bytes) (b i j : Nat) : Checked Int := do
  let x ← load m (b + i * size) size
  let y ← load m (b + j * size) size
  return cmp x y

def qsort.insert (m : Bytes) (b j : Nat) : Checked Bytes :=
  match j with
  | 0 => .ok m
  | j + 1 => do
    if (← cmpAt cmp m b j (j + 1)) > 0 then
      let m ← memswap m (b + j * size) (b + (j + 1) * size) size
      insert m b j
    else
      return m

/--
The outer loop from `i` on, `k` is how many elements are left.
-/
def qsort.insertAll (m : Bytes) (b i k : Nat) : Checked Bytes :=
  match k with
  | 0 => .ok m
  | k + 1 => do
    let m ← qsort.insert cmp m b i
    insertAll m b (i + 1) k

def qsort.scanUp (fuel : Nat) (m : Bytes) (b mid i : Nat) : Checked Nat :=
  match fuel with
  | 0 => .error .loop
  | fuel + 1 => do
    if (← cmpAt cmp m b i mid) < 0 then
      scanUp fuel m b mid (i + 1)
    else
      return i

/--
An unsigned `j` that runs past the start of the array wraps around.
-/
def qsort.scanDown (fuel : Nat) (m : Bytes) (b mid j : Nat) : Checked Nat :=
  match fuel with
  | 0 => .error .loop
  | fuel + 1 => do
    if (← cmpAt cmp m b j mid) > 0 then
      scanDown fuel m b mid (if j = 0 then 0xFFFFFFFF else j - 1)
    else
      return j

def qsort.partition (fuel : Nat) (m : Bytes) (b mid i j : Nat) : Checked (Bytes × Nat) :=
  match fuel with
  | 0 => .error .loop
  | fuel + 1 => do
    let i ← qsort.scanUp cmp (fuel + 1) m b mid i
    let j ← qsort.scanDown cmp (fuel + 1) m b mid j
    if i ≥ j then
      return (m, j)
    else
      let m ← memswap m (b + i * size) (b + j * size) size
      let mid := if mid = i then j else if mid = j then i else mid
      partition fuel m b mid (i + 1) (if j ≠ 0 then j - 1 else j)

/--
`qsort` of the `nmemb` elements from the address `b` on.
-/
def qsort (fuel : Nat) (m : Bytes) (b nmemb : Nat) : Checked Bytes :=
  match fuel with
  | 0 => .error .loop
  | fuel + 1 => do
    if nmemb < 2 ∨ size = 0 then
      return m
    else if nmemb < 8 then
      qsort.insertAll cmp m b 1 (nmemb - 1)
    else
      let (m, j) ← qsort.partition cmp (fuel + 1) m b (nmemb / 2) 0 (nmemb - 1)
      let m ← qsort fuel m b (j + 1)
      qsort fuel m (b + (j + 1) * size) (nmemb - j - 1)

def bsearch.loop (fuel : Nat) (key : Octets size) (m : Bytes) (lo hi : Nat)
    : Checked (Option Nat) :=
  match fuel with
  | 0 => .error .loop
  | fuel + 1 =>
    if lo < hi then do
      let mid := lo + (hi - lo) / 2
      let x ← load m (mid * size) size
      let r := cmp key x
      if r = 0 then
        return some mid
      else if r < 0 then
        loop fuel key m lo mid
      else
        loop fuel key m (mid + 1) hi
    else
      .ok none

def bsearch (fuel : Nat) (key : Octets size) (m : Bytes) (nmemb : Nat) : Checked (Option Nat) :=
  bsearch.loop cmp fuel key m 0 nmemb

/--
`cmp` is a total preorder, seen through the sign of its results.
-/
structure IsPreorder : Prop where
  flip (x y : Octets size) : cmp x y < 0 ↔ 0 < cmp y x
  trans {x y z : Octets size} (hxy : cmp x y ≤ 0) (hyz : cmp y z ≤ 0) : cmp x z ≤ 0

def Sorted (xs : List (Octets size)) : Prop :=
  xs.Pairwise (fun x y => cmp x y ≤ 0)

end Qsort

def flat {size : Nat} (xs : List (Octets size)) : Bytes :=
  xs.flatMap Subtype.val

section Flat

variable {size : Nat}

theorem flat_append (xs ys : List (Octets size)) : flat (xs ++ ys) = flat xs ++ flat ys := by
  unfold flat
  rw [List.flatMap_append]

theorem flat_cons (x : Octets size) (xs : List (Octets size)) : flat (x :: xs) = x.val ++ flat xs :=
  rfl

theorem length_flat (xs : List (Octets size)) : (flat xs).length = xs.length * size := by
  induction xs with
  | nil => simp [flat]
  | cons x xs ih =>
    rw [flat_cons, List.length_append, x.property, ih, List.length_cons, Nat.add_mul]
    omega

theorem load_flat (l : List (Octets size)) (x : Octets size) (r : List (Octets size))
    : load (flat (l ++ x :: r)) (l.length * size) size = .ok x := by
  have hx := x.property
  have hlen : l.length * size + size ≤ (flat (l ++ x :: r)).length := by
    rw [flat_append, flat_cons, List.length_append, List.length_append, length_flat, hx]
    omega
  unfold load
  rw [dif_pos hlen]
  congr 1
  apply Subtype.ext
  show ((flat (l ++ x :: r)).drop (l.length * size)).take size = x.val
  rw [flat_append, flat_cons, ← length_flat, List.drop_left]
  nth_rewrite 1 [← hx]
  exact List.take_left

theorem memswap_append (p x q y r : Bytes) (h : x.length = y.length)
    : memswap (p ++ x ++ q ++ y ++ r) p.length (p.length + x.length + q.length) x.length
      = .ok (p ++ y ++ q ++ x ++ r) := by
  induction x generalizing p q y with
  | nil =>
    obtain rfl := List.length_eq_zero_iff.1 h.symm
    rfl
  | cons a x ih =>
    cases y with
    | nil => cases h
    | cons b y =>
      have hlen : (p ++ (a :: x) ++ q).length = p.length + (a :: x).length + q.length := by
        simp only [List.length_append]
      have ha : load8 (p ++ (a :: x) ++ q ++ (b :: y) ++ r) p.length = .ok a := by
        simp only [List.append_assoc, List.cons_append]
        exact load8_append _ _ _
      have hb : load8 (p ++ (a :: x) ++ q ++ (b :: y) ++ r) (p.length + (a :: x).length + q.length)
          = .ok b := by
        rw [← hlen, List.append_assoc]
        exact load8_append _ _ _
      have hset : ((p ++ (a :: x) ++ q ++ (b :: y) ++ r).set p.length b).set
          (p.length + (a :: x).length + q.length) a
          = (p ++ [b]) ++ x ++ (q ++ [a]) ++ y ++ r := by
        have h1 : (p ++ (a :: x) ++ q ++ (b :: y) ++ r).set p.length b
            = (p ++ (b :: x) ++ q) ++ b :: (y ++ r) := by
          simp only [List.append_assoc, List.cons_append]
          rw [set_append]
        have hlen' : p.length + (a :: x).length + q.length = (p ++ (b :: x) ++ q).length := by
          simp only [List.length_append, List.length_cons]
        rw [h1, hlen', set_append]
        simp
      have hstep := ih (p ++ [b]) (q ++ [a]) y (by simpa using h)
      rw [List.length_cons, memswap]
      simp only [List.length_cons] at ha hb hset
      rw [ha]
      show (do
        let u ← load8 (p ++ (a :: x) ++ q ++ (b :: y) ++ r) (p.length + (x.length + 1) + q.length)
        memswap (((p ++ (a :: x) ++ q ++ (b :: y) ++ r).set p.length u).set
          (p.length + (x.length + 1) + q.length) a) (p.length + 1)
          (p.length + (x.length + 1) + q.length + 1) x.length) = _
      rw [hb]
      show memswap (((p ++ (a :: x) ++ q ++ (b :: y) ++ r).set p.length b).set
          (p.length + (x.length + 1) + q.length) a) (p.length + 1)
          (p.length + (x.length + 1) + q.length + 1) x.length = _
      rw [hset]
      simp only [List.length_append, List.length_cons, List.length_nil] at hstep
      rw [show p.length + (x.length + 1) + q.length + 1
        = p.length + (0 + 1) + x.length + (q.length + (0 + 1)) by omega]
      rw [hstep]
      simp

theorem memswap_flat (l₁ l₂ l₃ : List (Octets size)) (x y : Octets size)
    : memswap (flat (l₁ ++ x :: (l₂ ++ y :: l₃))) (l₁.length * size)
        ((l₁.length + 1 + l₂.length) * size) size
      = .ok (flat (l₁ ++ y :: (l₂ ++ x :: l₃))) := by
  have hswap := memswap_append (flat l₁) x.val (flat l₂) y.val (flat l₃)
    (by rw [x.property, y.property])
  rw [length_flat, length_flat, x.property] at hswap
  rw [show (l₁.length + 1 + l₂.length) * size = l₁.length * size + size + l₂.length * size by
    rw [Nat.add_mul, Nat.add_mul, Nat.one_mul]]
  simp only [flat_append, flat_cons]
  simp only [List.append_assoc] at hswap
  exact hswap

end Flat

section Array

variable {size : Nat} {cmp : Octets size → Octets size → Int} (pre ms post : List (Octets size))

theorem load_arr {i : Nat} (h : i < ms.length)
    : load (flat (pre ++ ms ++ post)) (pre.length * size + i * size) size = .ok ms[i] := by
  have hdec : pre ++ ms ++ post = (pre ++ ms.take i) ++ ms[i] :: (ms.drop (i + 1) ++ post) := by
    have hms : ms.take i ++ ms[i] :: ms.drop (i + 1) = ms := by
      rw [← List.drop_eq_getElem_cons h, List.take_append_drop]
    nth_rewrite 1 [← hms]
    simp only [List.append_assoc, List.cons_append]
  have hlen : pre.length * size + i * size = (pre ++ ms.take i).length * size := by
    rw [List.length_append, List.length_take, Nat.add_mul, Nat.min_eq_left (by omega)]
  rw [hdec, hlen]
  exact load_flat _ _ _

theorem cmpAt_arr {i j : Nat} (hi : i < ms.length) (hj : j < ms.length)
    : cmpAt cmp (flat (pre ++ ms ++ post)) (pre.length * size) i j = .ok (cmp ms[i] ms[j]) := by
  unfold cmpAt
  rw [load_arr pre ms post hi, load_arr pre ms post hj]
  rfl

/--
The elements `i` and `j` in each other's place.
-/
def swapped (i j : Nat) (hi : i < ms.length) (hj : j < ms.length) : List (Octets size) :=
  (ms.set i ms[j]).set j ms[i]

theorem memswap_arr {i j : Nat} (hij : i < j) (hj : j < ms.length)
    : memswap (flat (pre ++ ms ++ post)) (pre.length * size + i * size)
        (pre.length * size + j * size) size
      = .ok (flat (pre ++ swapped ms i j (by omega) hj ++ post)) := by
  have hi : i < ms.length := by omega
  obtain ⟨l₁, x, l₂, y, l₃, rfl, rfl, rfl⟩ : ∃ l₁ x l₂ y l₃, ms = l₁ ++ x :: (l₂ ++ y :: l₃)
      ∧ i = l₁.length ∧ j = l₁.length + 1 + l₂.length := by
    refine ⟨ms.take i, ms[i], (ms.drop (i + 1)).take (j - i - 1), ms[j], ms.drop (j + 1), ?_, ?_, ?_⟩
    . have hdrop : ms.drop (i + 1) = (ms.drop (i + 1)).take (j - i - 1) ++ ms[j] :: ms.drop (j + 1) := by
        nth_rewrite 1 [← List.take_append_drop (j - i - 1) (ms.drop (i + 1))]
        rw [List.drop_drop, show i + 1 + (j - i - 1) = j by omega, List.drop_eq_getElem_cons hj]
      rw [← hdrop, ← List.drop_eq_getElem_cons hi, List.take_append_drop]
    . rw [List.length_take]
      omega
    . simp only [List.length_take, List.length_drop]
      omega
  have hx : (l₁ ++ x :: (l₂ ++ y :: l₃))[l₁.length] = x := by simp
  have hy : (l₁ ++ x :: (l₂ ++ y :: l₃))[l₁.length + 1 + l₂.length] = y := by
    rw [List.getElem_append_right (by omega)]
    simp [show l₁.length + 1 + l₂.length - l₁.length = l₂.length + 1 by omega]
  have hswap := memswap_flat (pre ++ l₁) l₂ (l₃ ++ post) x y
  rw [List.length_append, Nat.add_mul, show pre.length + l₁.length + 1 + l₂.length
    = pre.length + (l₁.length + 1 + l₂.length) by omega, Nat.add_mul] at hswap
  have hres : swapped (l₁ ++ x :: (l₂ ++ y :: l₃)) l₁.length (l₁.length + 1 + l₂.length) hi hj
      = l₁ ++ y :: (l₂ ++ x :: l₃) := by
    unfold swapped
    rw [hx, hy, List.set_append_right _ _ (le_refl _), Nat.sub_self, List.set_cons_zero,
      List.set_append_right _ _ (by omega),
      show l₁.length + 1 + l₂.length - l₁.length = l₂.length + 1 by omega, List.set_cons_succ,
      List.set_append_right _ _ (le_refl _), Nat.sub_self, List.set_cons_zero]
  rw [hres]
  simp only [List.append_assoc, List.cons_append] at hswap ⊢
  exact hswap

end Array

section Insertion

variable {size : Nat} {cmp : Octets size → Octets size → Int} {pre post : List (Octets size)}

theorem IsPreorder.total (h : IsPreorder cmp) {x y : Octets size} (hxy : ¬cmp x y ≤ 0)
    : cmp y x ≤ 0 := by
  have := (h.flip y x).2 (by omega)
  omega

theorem IsPreorder.self (h : IsPreorder cmp) (x : Octets size) : cmp x x = 0 := by
  have := h.flip x x
  omega

theorem insert_spec (h : IsPreorder cmp) {x : Octets size} {a c rest : List (Octets size)}
    (hsorted : Sorted cmp (a ++ c)) (hx : ∀ y ∈ c, cmp x y ≤ 0)
    : ∃ zs, qsort.insert cmp (flat (pre ++ (a ++ x :: (c ++ rest)) ++ post)) (pre.length * size) a.length
        = .ok (flat (pre ++ (zs ++ rest) ++ post))
      ∧ zs.Perm (a ++ x :: c) ∧ Sorted cmp zs := by
  induction a using List.reverseRecOn generalizing c with
  | nil =>
    refine ⟨x :: c, rfl, List.Perm.refl _, ?_⟩
    exact List.Pairwise.cons hx hsorted
  | append_singleton a y ih =>
    have hcmp : cmpAt cmp (flat (pre ++ (a ++ [y] ++ x :: (c ++ rest)) ++ post)) (pre.length * size)
        a.length (a.length + 1) = .ok (cmp y x) := by
      rw [cmpAt_arr _ _ _ (by simp) (by simp)]
      simp
    rw [List.length_append, List.length_singleton, qsort.insert, hcmp]
    by_cases hyx : cmp y x > 0
    . have hswap := memswap_arr pre (a ++ [y] ++ x :: (c ++ rest)) post
        (show a.length < a.length + 1 by omega) (by simp)
      have hres : swapped (a ++ [y] ++ x :: (c ++ rest)) a.length (a.length + 1) (by simp) (by simp)
          = a ++ x :: (y :: c ++ rest) := by
        unfold swapped
        simp
      have hxy : cmp x y ≤ 0 := h.total (by omega)
      obtain ⟨zs, hrun, hperm, hzs⟩ := ih (c := y :: c) (by simpa using hsorted) (by
        intro z hz
        rcases List.mem_cons.1 hz with rfl | hz
        . exact hxy
        . exact hx z hz)
      refine ⟨zs, ?_, ?_, hzs⟩
      . show (if cmp y x > 0 then _ else _) = _
        rw [if_pos hyx, hswap, hres]
        exact hrun
      . apply hperm.trans
        rw [List.append_assoc]
        exact (List.Perm.swap y x c).append_left a
    . refine ⟨a ++ [y] ++ x :: c, ?_, List.Perm.refl _, ?_⟩
      . show (if cmp y x > 0 then _ else _) = _
        rw [if_neg hyx]
        simp
        rfl
      . have hyx : cmp y x ≤ 0 := by omega
        obtain ⟨hay, hc, hcross⟩ := List.pairwise_append.1 hsorted
        refine List.pairwise_append.2 ⟨hay, List.Pairwise.cons hx hc, ?_⟩
        intro u hu v hv
        rcases List.mem_cons.1 hv with rfl | hv
        . -- all of `a` is below `y`, and that is below `x`
          rcases List.mem_append.1 hu with hu | hu
          . exact h.trans ((List.pairwise_append.1 hay).2.2 u hu y (by simp)) hyx
          . rw [List.mem_singleton.1 hu]
            exact hyx
        . exact hcross u hu v hv

theorem insertAll_spec (h : IsPreorder cmp) (rest : List (Octets size)) {a : List (Octets size)}
    (hsorted : Sorted cmp a)
    : ∃ zs, qsort.insertAll cmp (flat (pre ++ (a ++ rest) ++ post)) (pre.length * size) a.length
        rest.length
        = .ok (flat (pre ++ zs ++ post))
      ∧ zs.Perm (a ++ rest) ∧ Sorted cmp zs := by
  induction rest generalizing a with
  | nil =>
    refine ⟨a, ?_, ?_, hsorted⟩
    . rw [List.append_nil]
      rfl
    . rw [List.append_nil]
  | cons x rest ih =>
    obtain ⟨ys, hinsert, hys, hsortedYs⟩ := @insert_spec size cmp pre post h x a [] rest
      (by simpa using hsorted) (by simp)
    obtain ⟨zs, hrun, hperm, hzs⟩ := ih hsortedYs
    have hlen : ys.length = a.length + 1 := by
      rw [hys.length_eq, List.length_append, List.length_singleton]
    refine ⟨zs, ?_, ?_, hzs⟩
    . rw [List.length_cons, qsort.insertAll]
      rw [List.nil_append] at hinsert
      rw [hinsert, ← hlen]
      exact hrun
    . apply hperm.trans
      have := hys.append_right rest
      rw [List.append_assoc] at this
      exact this

end Insertion

section Partition

variable {size : Nat} {cmp : Octets size → Octets size → Int} {pre post : List (Octets size)}

theorem scanUp_spec {ms : List (Octets size)} {fuel mid i s : Nat} (hmid : mid < ms.length)
    (his : i ≤ s) (hs : s < ms.length) (hstop : ¬cmp ms[s] ms[mid] < 0) (hfuel : s < i + fuel)
    : ∃ i', qsort.scanUp cmp fuel (flat (pre ++ ms ++ post)) (pre.length * size) mid i = .ok i'
      ∧ i ≤ i' ∧ ∃ hi : i' ≤ s, ¬cmp ms[i'] ms[mid] < 0
        ∧ ∀ k, i ≤ k → ∀ hk : k < i', cmp ms[k] ms[mid] < 0 := by
  induction fuel generalizing i with
  | zero => omega
  | succ fuel ih =>
    rw [qsort.scanUp, cmpAt_arr pre ms post (by omega) hmid]
    by_cases hlt : cmp ms[i] ms[mid] < 0
    . have hne : i ≠ s := by
        rintro rfl
        exact hstop hlt
      obtain ⟨i', hrun, hle, hi, hnot, hall⟩ := ih (i := i + 1) (by omega) (by omega)
      refine ⟨i', ?_, by omega, hi, hnot, ?_⟩
      . show (if cmp ms[i] ms[mid] < 0 then _ else _) = _
        rw [if_pos hlt]
        exact hrun
      . intro k hk hk'
        rcases Nat.eq_or_lt_of_le hk with rfl | hlt'
        . exact hlt
        . exact hall k hlt' hk'
    . refine ⟨i, ?_, le_refl _, his, hlt, ?_⟩
      . show (if cmp ms[i] ms[mid] < 0 then _ else _) = _
        rw [if_neg hlt]
        rfl
      . intro k hk hk'
        omega

theorem scanDown_spec {ms : List (Octets size)} {fuel mid j s : Nat} (hmid : mid < ms.length)
    (hsj : s ≤ j) (hj : j < ms.length) (hstop : ¬cmp ms[s] ms[mid] > 0) (hfuel : j < s + fuel)
    : ∃ j', qsort.scanDown cmp fuel (flat (pre ++ ms ++ post)) (pre.length * size) mid j = .ok j'
      ∧ s ≤ j' ∧ ∃ hle : j' ≤ j, ¬cmp ms[j'] ms[mid] > 0
        ∧ ∀ k, j' < k → ∀ hk : k ≤ j, cmp ms[k] ms[mid] > 0 := by
  induction fuel generalizing j with
  | zero => omega
  | succ fuel ih =>
    rw [qsort.scanDown, cmpAt_arr pre ms post hj hmid]
    by_cases hgt : cmp ms[j] ms[mid] > 0
    . have hne : j ≠ s := by
        rintro rfl
        exact hstop hgt
      obtain ⟨j', hrun, hle, hj', hnot, hall⟩ := ih (j := j - 1) (by omega) (by omega)
        hstop (by omega)
      refine ⟨j', ?_, hle, by omega, hnot, ?_⟩
      . show (if cmp ms[j] ms[mid] > 0 then _ else _) = _
        rw [if_pos hgt, if_neg (by omega)]
        exact hrun
      . intro k hk hk'
        rcases Nat.eq_or_lt_of_le hk' with rfl | hlt'
        . exact hgt
        . exact hall k hk (by omega)
    . refine ⟨j, ?_, hsj, le_refl _, hgt, ?_⟩
      . show (if cmp ms[j] ms[mid] > 0 then _ else _) = _
        rw [if_neg hgt]
        rfl
      . intro k hk hk'
        omega

theorem getElem?_swapped {ms : List (Octets size)} {i j : Nat} (hi : i < ms.length)
    (hj : j < ms.length) (k : Nat)
    : (swapped ms i j hi hj)[k]?
      = if k = j then some ms[i] else if k = i then some ms[j] else ms[k]? := by
  unfold swapped
  rw [List.getElem?_set, List.getElem?_set]
  split
  . next h =>
    subst h
    rw [if_pos (by simpa using hj), if_pos rfl]
  . next h =>
    rw [if_neg (Ne.symm h)]
    split
    . next h' =>
      subst h'
      rw [if_pos rfl]
    . next h' => rw [if_neg (Ne.symm h')]

theorem perm_swapped {ms : List (Octets size)} {i j : Nat} (hi : i < ms.length)
    (hj : j < ms.length)
    : (swapped ms i j hi hj).Perm ms :=
  List.set_set_perm hi hj

/--
Both sides of the part still to be split are on their side of the pivot `p`, and in it each scan
meets an element that stops it.
-/
structure PartInv (cmp : Octets size → Octets size → Int) (p : Octets size)
    (ms : List (Octets size)) (mid i j : Nat) : Prop where
  pivot : ms[mid]? = some p
  j_lt : j < ms.length
  low : ∀ k x, ms[k]? = some x → k < i → cmp x p ≤ 0
  high : ∀ k x, ms[k]? = some x → j < k → 0 ≤ cmp x p
  -- the first stop is not the last element, or `j` has moved already: the lower part is not all
  up : ∃ s x, ms[s]? = some x ∧ i ≤ s ∧ 0 ≤ cmp x p ∧ (s + 2 ≤ ms.length ∨ j + 2 ≤ ms.length)
  down : ∃ s x, ms[s]? = some x ∧ s ≤ j ∧ cmp x p ≤ 0

/--
`zs` is split behind `j`.
-/
structure Split (cmp : Octets size → Octets size → Int) (p : Octets size)
    (zs : List (Octets size)) (j : Nat) : Prop where
  proper : j + 2 ≤ zs.length
  low : ∀ k x, zs[k]? = some x → k ≤ j → cmp x p ≤ 0
  high : ∀ k x, zs[k]? = some x → j < k → 0 ≤ cmp x p

variable {p : Octets size} {ms : List (Octets size)} {mid i j : Nat}

theorem PartInv.scans (h : PartInv cmp p ms mid i j) {fuel : Nat} (hi : ms.length ≤ i + fuel)
    (hj : j < fuel)
    : ∃ i' j', qsort.scanUp cmp fuel (flat (pre ++ ms ++ post)) (pre.length * size) mid i = .ok i'
      ∧ qsort.scanDown cmp fuel (flat (pre ++ ms ++ post)) (pre.length * size) mid j = .ok j'
      ∧ i ≤ i' ∧ j' ≤ j ∧ (i' + 2 ≤ ms.length ∨ j + 2 ≤ ms.length)
      ∧ (∃ x, ms[i']? = some x ∧ 0 ≤ cmp x p) ∧ (∃ x, ms[j']? = some x ∧ cmp x p ≤ 0)
      ∧ (∀ k x, ms[k]? = some x → k < i' → cmp x p ≤ 0)
      ∧ (∀ k x, ms[k]? = some x → j' < k → 0 ≤ cmp x p) := by
  obtain ⟨hmid, hp⟩ := List.getElem?_eq_some_iff.1 h.pivot
  obtain ⟨s, x, hs, his, hsx, hproper⟩ := h.up
  obtain ⟨hslt, rfl⟩ := List.getElem?_eq_some_iff.1 hs
  obtain ⟨t, y, ht, htj, hty⟩ := h.down
  obtain ⟨htlt, rfl⟩ := List.getElem?_eq_some_iff.1 ht
  obtain ⟨i', hup, hii, hi', hnot, hall⟩ := @scanUp_spec size cmp pre post ms fuel mid i s
    hmid his hslt (by rw [hp]; omega) (by omega)
  obtain ⟨j', hdown, htj', hj', hnot', hall'⟩ := @scanDown_spec size cmp pre post ms
    fuel mid j t hmid htj h.j_lt (by rw [hp]; omega) (by omega)
  have hjlt := h.j_lt
  refine ⟨i', j', hup, hdown, hii, hj', by omega, ?_, ?_, ?_, ?_⟩
  . exact ⟨_, List.getElem?_eq_getElem (by omega), by rw [hp] at hnot; omega⟩
  . exact ⟨_, List.getElem?_eq_getElem (by omega), by rw [hp] at hnot'; omega⟩
  . intro k x hk hlt
    by_cases hki : k < i
    . exact h.low k x hk hki
    . obtain ⟨hkl, rfl⟩ := List.getElem?_eq_some_iff.1 hk
      have := hall k (by omega) hlt
      rw [hp] at this
      omega
  . intro k x hk hlt
    by_cases hkj : j < k
    . exact h.high k x hk hkj
    . obtain ⟨hkl, rfl⟩ := List.getElem?_eq_some_iff.1 hk
      have := hall' k hlt (by omega)
      rw [hp] at this
      omega

theorem PartInv.swap {x y : Octets size} (h : PartInv cmp p ms mid i j) (hij : i < j)
    (hj : j < ms.length) (hx : ms[i]? = some x) (hy : ms[j]? = some y)
    (hxp : 0 ≤ cmp x p) (hyp : cmp y p ≤ 0)
    : PartInv cmp p (swapped ms i j (by omega) hj)
        (if mid = i then j else if mid = j then i else mid) (i + 1) (j - 1) := by
  have hi : i < ms.length := by omega
  obtain ⟨_, rfl⟩ := List.getElem?_eq_some_iff.1 hx
  obtain ⟨_, rfl⟩ := List.getElem?_eq_some_iff.1 hy
  have hlen : (swapped ms i j hi hj).length = ms.length := (perm_swapped hi hj).length_eq
  have hget := getElem?_swapped hi hj
  constructor
  . rw [hget]
    by_cases h1 : mid = i
    . subst h1
      rw [if_pos rfl, if_pos rfl, ← h.pivot, List.getElem?_eq_getElem]
    . rw [if_neg h1]
      by_cases h2 : mid = j
      . subst h2
        rw [if_pos rfl, if_neg (by omega), if_pos rfl, ← h.pivot, List.getElem?_eq_getElem]
      . rw [if_neg h2, if_neg h2, if_neg h1, h.pivot]
  . omega
  . intro k z hk hlt
    rw [hget, if_neg (by omega)] at hk
    split at hk
    . injection hk with hk
      rw [← hk]
      exact hyp
    . exact h.low k z hk (by omega)
  . intro k z hk hlt
    rw [hget] at hk
    split at hk
    . injection hk with hk
      rw [← hk]
      exact hxp
    . rw [if_neg (by omega)] at hk
      exact h.high k z hk (by omega)
  . refine ⟨j, ms[i], ?_, by omega, hxp, Or.inr (by omega)⟩
    rw [hget, if_pos rfl]
  . refine ⟨i, ms[j], ?_, by omega, hyp⟩
    rw [hget, if_neg (by omega), if_pos rfl]

theorem partition_spec {fuel : Nat} (h : PartInv cmp p ms mid i j) (hi : ms.length ≤ i + fuel)
    (hj : j < fuel)
    : ∃ zs j', qsort.partition cmp fuel (flat (pre ++ ms ++ post)) (pre.length * size) mid i j
        = .ok (flat (pre ++ zs ++ post), j')
      ∧ zs.Perm ms ∧ Split cmp p zs j' := by
  induction fuel generalizing ms mid i j with
  | zero => omega
  | succ fuel ih =>
    obtain ⟨i', j', hup, hdown, hii, hjj, hproper, ⟨x, hx, hxp⟩, ⟨y, hy, hyp⟩, hlow, hhigh⟩ :=
      @PartInv.scans size cmp pre post p ms mid i j h _ hi hj
    have hjlt := h.j_lt
    have hround : qsort.partition cmp (fuel + 1) (flat (pre ++ ms ++ post)) (pre.length * size) mid i j
        = (if i' ≥ j' then
            .ok (flat (pre ++ ms ++ post), j')
          else do
            let m ← memswap (flat (pre ++ ms ++ post)) (pre.length * size + i' * size)
              (pre.length * size + j' * size) size
            qsort.partition cmp fuel m (pre.length * size)
              (if mid = i' then j' else if mid = j' then i' else mid) (i' + 1)
              (if j' ≠ 0 then j' - 1 else j')) := by
      simp only [qsort.partition, hup, hdown, bind, Except.bind]
      split <;> rfl
    by_cases hmeet : i' ≥ j'
    . refine ⟨ms, j', ?_, List.Perm.refl _, ?_, ?_, hhigh⟩
      . rw [hround, if_pos hmeet]
      . omega
      . intro k z hk hle
        by_cases hkj : k = j'
        . subst hkj
          rw [hk] at hy
          injection hy with hy
          rw [hy]
          exact hyp
        . exact hlow k z hk (by omega)
    . have hinv : PartInv cmp p ms mid i' j' := by
        refine ⟨h.pivot, by omega, hlow, hhigh, ?_, ?_⟩
        . exact ⟨i', x, hx, le_refl _, hxp, by omega⟩
        . exact ⟨j', y, hy, le_refl _, hyp⟩
      have hlen : (swapped ms i' j' (by omega) (by omega)).length = ms.length :=
        (perm_swapped _ _).length_eq
      obtain ⟨zs, j'', hrun, hperm, hsplit⟩ := ih
        (hinv.swap (by omega) (by omega) hx hy hxp hyp) (by omega) (by omega)
      refine ⟨zs, j'', ?_, hperm.trans (perm_swapped _ _), hsplit⟩
      rw [hround, if_neg hmeet, memswap_arr pre ms post (by omega) (by omega),
        if_pos (show j' ≠ 0 by omega)]
      exact hrun

end Partition

section Sorts

variable {size : Nat} {cmp : Octets size → Octets size → Int} {pre post : List (Octets size)}

theorem IsPreorder.partInv (h : IsPreorder cmp) {ms : List (Octets size)} (hlen : 8 ≤ ms.length)
    : PartInv cmp ms[ms.length / 2] ms (ms.length / 2) 0 (ms.length - 1) := by
  have hget : ms[ms.length / 2]? = some ms[ms.length / 2] := List.getElem?_eq_getElem (by omega)
  have hself := h.self ms[ms.length / 2]
  refine ⟨hget, by omega, by omega, ?_, ?_, ?_⟩
  . intro k x hk hlt
    obtain ⟨hk, -⟩ := List.getElem?_eq_some_iff.1 hk
    omega
  . exact ⟨ms.length / 2, _, hget, by omega, by omega, by omega⟩
  . exact ⟨ms.length / 2, _, hget, by omega, by omega⟩

theorem Split.sorted (h : IsPreorder cmp) {p : Octets size} {zs l r : List (Octets size)} {j : Nat}
    (hs : Split cmp p zs j) (hl : l.Perm (zs.take (j + 1))) (hr : r.Perm (zs.drop (j + 1)))
    (hls : Sorted cmp l) (hrs : Sorted cmp r)
    : Sorted cmp (l ++ r) := by
  refine List.pairwise_append.2 ⟨hls, hrs, ?_⟩
  intro u hu v hv
  obtain ⟨k, hk⟩ := List.mem_iff_getElem?.1 (hl.mem_iff.1 hu)
  obtain ⟨k', hk'⟩ := List.mem_iff_getElem?.1 (hr.mem_iff.1 hv)
  rw [List.getElem?_take] at hk
  split at hk
  . next hlt =>
    rw [List.getElem?_drop] at hk'
    have hup := hs.low k u hk (by omega)
    have hpv := hs.high (j + 1 + k') v hk' (by omega)
    have hflip := h.flip v p
    exact h.trans hup (by omega)
  . cases hk

theorem qsort_spec (h : IsPreorder cmp) (hsize : 0 < size) {fuel : Nat} {ms : List (Octets size)}
    (hfuel : ms.length < fuel)
    : ∃ zs, qsort cmp fuel (flat (pre ++ ms ++ post)) (pre.length * size) ms.length
        = .ok (flat (pre ++ zs ++ post))
      ∧ zs.Perm ms ∧ Sorted cmp zs := by
  induction fuel generalizing pre ms post with
  | zero => omega
  | succ fuel ih =>
    by_cases hshort : ms.length < 2
    . refine ⟨ms, ?_, List.Perm.refl _, ?_⟩
      . rw [qsort, if_pos (Or.inl hshort)]
        rfl
      . match ms, hshort with
        | [], _ => exact List.Pairwise.nil
        | [x], _ => exact List.pairwise_singleton _ _
    . have hlong : ¬(ms.length < 2 ∨ size = 0) := by omega
      by_cases hsmall : ms.length < 8
      . -- insertion sort, the first element is sorted as it is
        cases ms with
        | nil => exact absurd (show ([] : List (Octets size)).length < 2 by simp) hshort
        | cons x rest =>
          obtain ⟨zs, hrun, hperm, hsorted⟩ := @insertAll_spec size cmp pre post h rest [x]
            (List.pairwise_singleton _ _)
          refine ⟨zs, ?_, hperm, hsorted⟩
          rw [qsort, if_neg hlong, if_pos hsmall]
          exact hrun
      . obtain ⟨zs, j, hpart, hperm, hsplit⟩ := @partition_spec size cmp pre post _ ms _ _ _ (fuel + 1)
          (h.partInv (by omega)) (by omega) (by omega)
        have hlen := hperm.length_eq
        have hproper := hsplit.proper
        have htake : (zs.take (j + 1)).length = j + 1 := by
          rw [List.length_take]
          omega
        have hdrop : (zs.drop (j + 1)).length = ms.length - j - 1 := by
          rw [List.length_drop]
          omega
        obtain ⟨l, hl, hlp, hls⟩ := @ih pre (zs.drop (j + 1) ++ post)
          (zs.take (j + 1)) (by omega)
        obtain ⟨r, hr, hrp, hrs⟩ := @ih (pre ++ l) post (zs.drop (j + 1)) (by omega)
        have hllen : l.length = j + 1 := by rw [hlp.length_eq, htake]
        have hzs : pre ++ zs.take (j + 1) ++ (zs.drop (j + 1) ++ post) = pre ++ zs ++ post := by
          nth_rewrite 3 [← List.take_append_drop (j + 1) zs]
          simp only [List.append_assoc]
        have hmid : pre ++ l ++ (zs.drop (j + 1) ++ post) = pre ++ l ++ zs.drop (j + 1) ++ post := by
          simp only [List.append_assoc]
        rw [htake, hzs, hmid] at hl
        rw [hdrop, List.length_append, hllen, Nat.add_mul] at hr
        refine ⟨l ++ r, ?_, ?_, hsplit.sorted h hlp hrp hls hrs⟩
        . rw [qsort, if_neg hlong, if_neg hsmall, hpart]
          show (do
            let m ← qsort cmp fuel (flat (pre ++ zs ++ post)) (pre.length * size) (j + 1)
            qsort cmp fuel m (pre.length * size + (j + 1) * size) (ms.length - j - 1)) = _
          rw [hl]
          show qsort cmp fuel _ _ _ = _
          rw [hr]
          simp only [List.append_assoc]
        . apply List.Perm.trans _ hperm
          have := hlp.append hrp
          rwa [List.take_append_drop] at this

theorem bsearch_loop_spec (h : IsPreorder cmp) {xs : List (Octets size)} (hs : Sorted cmp xs)
    {key : Octets size} {fuel lo hi : Nat} (hhi : hi ≤ xs.length) (hle : lo ≤ hi)
    (hfuel : hi < lo + fuel)
    (hlow : ∀ k x, xs[k]? = some x → k < lo → 0 < cmp key x)
    (hhigh : ∀ k x, xs[k]? = some x → hi ≤ k → cmp key x < 0)
    : ∃ r, bsearch.loop cmp fuel key (flat xs) lo hi = .ok r
      ∧ (∀ i ∈ r, ∃ x, xs[i]? = some x ∧ cmp key x = 0)
      ∧ (r = none → ∀ x ∈ xs, cmp key x ≠ 0) := by
  induction fuel generalizing lo hi with
  | zero => omega
  | succ fuel ih =>
    by_cases hlt : lo < hi
    . obtain ⟨mid, hm⟩ : ∃ mid, lo + (hi - lo) / 2 = mid := ⟨_, rfl⟩
      have hmid : mid < xs.length := by omega
      have hload := load_arr [] xs [] hmid
      rw [List.nil_append, List.append_nil, List.length_nil, Nat.zero_mul, Nat.zero_add] at hload
      have hget : xs[mid]? = some xs[mid] := List.getElem?_eq_getElem hmid
      have hpair := List.pairwise_iff_getElem.1 hs
      have hround : bsearch.loop cmp (fuel + 1) key (flat xs) lo hi
          = if cmp key xs[mid] = 0 then
              .ok (some mid)
            else if cmp key xs[mid] < 0 then
              bsearch.loop cmp fuel key (flat xs) lo mid
            else
              bsearch.loop cmp fuel key (flat xs) (mid + 1) hi := by
        simp only [bsearch.loop, if_pos hlt, hm, hload, bind, Except.bind]
        rfl
      rw [hround]
      by_cases h0 : cmp key xs[mid] = 0
      . rw [if_pos h0]
        refine ⟨some mid, rfl, ?_, ?_⟩
        . rintro _ ⟨⟩
          exact ⟨_, hget, h0⟩
        . rintro ⟨⟩
      . rw [if_neg h0]
        by_cases hneg : cmp key xs[mid] < 0
        . rw [if_pos hneg]
          apply ih (by omega) (by omega) (by omega) hlow
          intro k x hk hge
          obtain ⟨hkl, rfl⟩ := List.getElem?_eq_some_iff.1 hk
          rcases Nat.eq_or_lt_of_le hge with rfl | hgt
          . exact hneg
          . -- the key is below an element that comes earlier
            have hle := hpair mid k hmid hkl hgt
            by_contra hnot
            have := h.flip key xs[k]
            have := h.flip key xs[mid]
            have := h.trans hle (z := key) (by omega)
            omega
        . rw [if_neg hneg]
          apply ih hhi (by omega) (by omega) _ hhigh
          intro k x hk hlt'
          obtain ⟨hkl, rfl⟩ := List.getElem?_eq_some_iff.1 hk
          rcases Nat.eq_or_lt_of_le (Nat.le_of_lt_succ hlt') with rfl | hgt
          . omega
          . have hle := hpair k mid hkl hmid hgt
            by_contra hnot
            have := h.trans (x := key) (by omega) hle
            omega
    . refine ⟨none, by rw [bsearch.loop, if_neg hlt], by simp, ?_⟩
      intro _ x hx
      obtain ⟨k, hk⟩ := List.mem_iff_getElem?.1 hx
      by_cases hkl : k < lo
      . have := hlow k x hk hkl
        omega
      . have := hhigh k x hk (by omega)
        omega

/--
For any amount of fuel above the number of elements `qsort` sorts, and `bsearch` then finds a key
exactly if it is there.
-/
theorem qsort_bsearch (hsize : 0 < size) (h : IsPreorder cmp) (xs : List (Octets size))
    {fuel : Nat} (hfuel : xs.length < fuel)
    : ∃ zs, qsort cmp fuel (flat xs) 0 xs.length = .ok (flat zs)
      ∧ zs.Perm xs ∧ Sorted cmp zs
      ∧ ∀ key, ∃ r, bsearch cmp fuel key (flat zs) xs.length = .ok r
        ∧ (r.isSome ↔ ∃ x ∈ zs, cmp key x = 0)
        ∧ ∀ i ∈ r, ∃ x, zs[i]? = some x ∧ cmp key x = 0 := by
  obtain ⟨zs, hrun, hperm, hsorted⟩ := @qsort_spec size cmp [] [] h hsize fuel xs hfuel
  rw [List.nil_append, List.append_nil, List.length_nil, Nat.zero_mul, List.nil_append,
    List.append_nil] at hrun
  refine ⟨zs, hrun, hperm, hsorted, ?_⟩
  intro key
  have hlen := hperm.length_eq
  obtain ⟨r, hr, hfound, hnone⟩ := @bsearch_loop_spec size cmp h zs hsorted key fuel 0
    xs.length (by omega) (by omega) (by omega) (by omega) (by
      intro k x hk hge
      obtain ⟨hk, -⟩ := List.getElem?_eq_some_iff.1 hk
      omega)
  refine ⟨r, hr, ?_, hfound⟩
  cases r with
  | none =>
    refine iff_of_false (by simp) ?_
    rintro ⟨x, hx, h0⟩
    exact hnone rfl x hx h0
  | some i =>
    obtain ⟨x, hx, h0⟩ := hfound i rfl
    exact iff_of_true rfl ⟨x, List.mem_of_getElem? hx, h0⟩

def byteCmp (x y : Octets 1) : Int :=
  (x.val.getD 0 0).toNat - (y.val.getD 0 0).toNat

theorem byteCmp_isPreorder : IsPreorder byteCmp where
  flip x y := by
    unfold byteCmp
    omega
  trans hxy hyz := by
    unfold byteCmp at *
    omega

theorem qsort_bsearch_bytes
    : ∃ zs, qsort byteCmp 3 (flat [⟨[2], rfl⟩, ⟨[1], rfl⟩]) 0 2 = .ok (flat zs)
      ∧ zs.Perm [⟨[2], rfl⟩, ⟨[1], rfl⟩] ∧ Sorted byteCmp zs
      ∧ ∀ key, ∃ r, bsearch byteCmp 3 key (flat zs) 2 = .ok r
        ∧ (r.isSome ↔ ∃ x ∈ zs, byteCmp key x = 0)
        ∧ ∀ i ∈ r, ∃ x, zs[i]? = some x ∧ byteCmp key x = 0 :=
  qsort_bsearch (by decide) byteCmp_isPreorder [⟨[2], rfl⟩, ⟨[1], rfl⟩] (by decide)

end Sorts

end TanjaOS
