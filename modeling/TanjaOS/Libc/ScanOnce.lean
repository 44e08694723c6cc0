import TanjaOS.Libc.ScanTake

/-!
Runs of the scanning engine over a whole format, in one call and in two.
-/

open Lib

namespace TanjaOS

/--
From the format `p` and the text `s` the rounds get to `p'` and `s'`.
-/
inductive Takes : Bytes → Bytes → Bytes → Bytes → Prop where
  | refl (p s : Bytes) : Takes p s p s
  | round {p p₁ p' s s₁ s' : Bytes} {it : ScanItem} {a : Scanned} (hit : nextItem p = some (it, p₁))
      (htake : takeItem it s = (.got a, s₁)) (h : Takes p₁ s₁ p' s')
      : Takes p s p' s'

/--
Every round of the run is clean.
-/
def CleanRun (p s : Bytes) : Prop :=
  ∀ p' s', Takes p s p' s' → ∀ it p'', nextItem p' = some (it, p'') → Clean it s'

/--
The texts stand one behind the other in `s`, with white space between them at most.
-/
inductive Consecutive : Bytes → List Bytes → Prop where
  | done (s : Bytes) : Consecutive s []
  | read {s text rest : Bytes} {texts : List Bytes} (h : TakenFrom s text rest)
      (hrest : Consecutive rest texts)
      : Consecutive s (text :: texts)

def formatItems.go (fuel : Nat) (p : Bytes) : List ScanItem :=
  match fuel, nextItem p with
  | 0, _ => []
  | _, none => []
  | fuel + 1, some (it, p) => it :: go fuel p

def formatItems (p : Bytes) : List ScanItem :=
  formatItems.go p.length p

def ScanItem.skips : ScanItem → Bool
  | .blank => true
  | .lit _ => false
  | .conv sp => sp.conv ∈ ([115, 100, 105, 117, 120, 88, 111, 102, 101, 69, 103, 71, 97, 65] : Bytes)

/--
A call that goes on with `g` misses nothing: no character is in hand, or white space that `g` skips.
-/
def NothingInHand (c : ScanCtx) (g : Bytes) : Prop :=
  c.ungotten = false ∨ ((∃ b ∈ c.unget, isScanSpace b) ∧ ∃ it ∈ (nextItem g).map (·.1), it.skips)

section Format

/--
A part of the format is read from its front, without a look at what is behind it.
-/
structure ReadsFormat {α : Type} (f : Bytes → α × Bytes) : Prop where
  le : ∀ p, (f p).2.length ≤ p.length
  append : ∀ p g, (f p).2 ≠ [] → f (p ++ g) = ((f p).1, (f p).2 ++ g)

variable {α β : Type}

theorem ReadsFormat.then {f : Bytes → α × Bytes} {g : α → Bytes → β × Bytes} (hf : ReadsFormat f)
    (hg : ∀ a, ReadsFormat (g a))
    : ReadsFormat fun p => g (f p).1 (f p).2 where
  le p := ((hg _).le _).trans (hf.le p)
  append p q h := by
    have hne : (f p).2 ≠ [] := by
      intro hnil
      have hle := (hg (f p).1).le (f p).2
      rw [hnil] at hle h
      exact h (List.length_eq_zero_iff.1 (Nat.le_zero.1 hle))
    rw [hf.append p q hne]
    exact (hg _).append _ _ h

theorem scanWidth_cons (b : Byte) (p : Bytes) (w : Int32)
    : scanWidth (b :: p) w
      = if 48 ≤ b ∧ b ≤ 57 then scanWidth p (w * 10 + .ofNat (b.toNat - 48)) else (w, b :: p) := rfl

theorem scanLongs_cons (b : Byte) (p : Bytes) (lmod : Lmod)
    : scanLongs (b :: p) lmod
      = if b = 108 then scanLongs p (if lmod = .l then .ll else .l) else (lmod, b :: p) := rfl

theorem scanWidth_reads (w : Int32) : ReadsFormat fun p => scanWidth p w where
  le p := by
    induction p generalizing w with
    | nil => exact Nat.le_refl _
    | cons b p ih =>
      rw [scanWidth_cons]
      split
      . exact (ih _).trans (Nat.le_succ _)
      . exact Nat.le_refl _
  append p g := by
    induction p generalizing w with
    | nil => exact fun h => absurd rfl h
    | cons b p ih =>
      rw [List.cons_append, scanWidth_cons, scanWidth_cons]
      by_cases hb : 48 ≤ b ∧ b ≤ 57
      . rw [if_pos hb, if_pos hb]
        exact ih _
      . rw [if_neg hb, if_neg hb]
        exact fun _ => rfl

theorem scanLongs_reads (lmod : Lmod) : ReadsFormat fun p => scanLongs p lmod where
  le p := by
    induction p generalizing lmod with
    | nil => exact Nat.le_refl _
    | cons b p ih =>
      rw [scanLongs_cons]
      split
      . exact (ih _).trans (Nat.le_succ _)
      . exact Nat.le_refl _
  append p g := by
    induction p generalizing lmod with
    | nil => exact fun h => absurd rfl h
    | cons b p ih =>
      rw [List.cons_append, scanLongs_cons, scanLongs_cons]
      by_cases hb : b = 108
      . rw [if_pos hb, if_pos hb]
        exact ih _
      . rw [if_neg hb, if_neg hb]
        exact fun _ => rfl

theorem scanOne_reads (c : Byte) (new lmod : Lmod) : ReadsFormat (scanOne c new lmod) where
  le p := by
    unfold scanOne
    split
    . rw [List.length_tail]
      omega
    . exact Nat.le_refl _
  append p g h := by
    cases p with
    | nil => exact absurd rfl h
    | cons b p =>
      unfold scanOne at h ⊢
      rw [List.cons_append, List.head?_cons, List.head?_cons]
      split <;> rfl

theorem scanHalf_reads (lmod : Lmod) : ReadsFormat (scanHalf lmod) where
  le p := by
    unfold scanHalf
    split
    . have := (scanOne_reads 104 .hh .h).le p.tail
      rw [List.length_tail] at this
      omega
    . exact Nat.le_refl _
  append p g h := by
    cases p with
    | nil => exact absurd rfl h
    | cons b p =>
      unfold scanHalf at h ⊢
      rw [List.cons_append, List.head?_cons, List.head?_cons] at *
      split at h
      . next hb =>
        rw [if_pos hb, if_pos hb]
        exact (scanOne_reads 104 .hh .h).append p g h
      . next hb =>
        rw [if_neg hb, if_neg hb]
        rfl

theorem scanLmod_reads : ReadsFormat scanLmod :=
  (((scanLongs_reads .none).then scanHalf_reads).then fun lmod => scanOne_reads 76 .L lmod).then
    fun lmod => scanOne_reads 122 .l lmod

theorem stars_reads : ReadsFormat fun p => (decide (p.head? = some 42), p.dropWhile (· = 42)) where
  le p := (List.dropWhile_suffix _).length_le
  append p g h := by
    cases p with
    | nil => exact absurd rfl h
    | cons b p =>
      dsimp only at h ⊢
      rw [List.cons_append, List.head?_cons, List.head?_cons, ← List.cons_append]
      congr 1
      obtain ⟨x, l, hx⟩ := List.exists_cons_of_ne_nil h
      have hsplit := (b :: p).takeWhile_append_dropWhile (p := (· = (42 : Byte)))
      have hnot := List.head?_dropWhile_not (· = (42 : Byte)) (b :: p)
      rw [hx] at hsplit hnot ⊢
      rw [← hsplit, List.append_assoc, List.dropWhile_append_of_pos]
      . rw [List.cons_append, List.dropWhile_cons, if_neg]
        simpa using hnot
      . intro c hc
        exact @List.mem_takeWhile_imp _ (fun x => decide (x = 42)) _ _ hc

theorem scanSpec_reads
    : ReadsFormat fun p =>
      let r := scanWidth (p.dropWhile (· = 42)) 0
      ((decide (p.head? = some 42), r.1, (scanLmod r.2).1), (scanLmod r.2).2) :=
  (stars_reads.then fun suppress =>
    ((scanWidth_reads 0).then fun width =>
      (scanLmod_reads.then fun lmod => (⟨fun _ => Nat.le_refl _, fun _ _ _ => rfl⟩
        : ReadsFormat fun p => ((suppress, width, lmod), p)))))

theorem nextItem_blank {b : Byte} (hb : isScanSpace b) (p : Bytes)
    : nextItem (b :: p) = some (.blank, p) :=
  if_pos hb

theorem nextItem_lit {b : Byte} (hb : ¬isScanSpace b) (h37 : b ≠ 37) (p : Bytes)
    : nextItem (b :: p) = some (.lit b, p) :=
  (if_neg hb).trans (if_pos h37)

theorem nextItem_percent (p : Bytes) : nextItem (37 :: 37 :: p) = some (.lit 37, p) := rfl

def specOf (r : (Bool × Int32 × Lmod) × Bytes) : Option (ScanItem × Bytes) :=
  match r.2 with
  | [] => none
  | conv :: p => some (.conv { suppress := r.1.1, width := r.1.2.1, lmod := r.1.2.2, conv }, p)

def readSpec (p : Bytes) : (Bool × Int32 × Lmod) × Bytes :=
  let r := scanWidth (p.dropWhile (· = 42)) 0
  ((decide (p.head? = some 42), r.1, (scanLmod r.2).1), (scanLmod r.2).2)

theorem nextItem_conv {p : Bytes} (h : p.head? ≠ some 37) : nextItem (37 :: p) = specOf (readSpec p) :=
  if_neg h

theorem nextItem_append {p p' : Bytes} {it : ScanItem} (h : nextItem p = some (it, p')) (g : Bytes)
    : p'.length < p.length ∧ nextItem (p ++ g) = some (it, p' ++ g) := by
  cases p with
  | nil => cases h
  | cons b p =>
    rw [List.cons_append]
    by_cases hb : isScanSpace b
    . rw [nextItem_blank hb] at h
      cases h
      exact ⟨Nat.lt_succ_self _, nextItem_blank hb _⟩
    by_cases h37 : b = 37
    . subst h37
      by_cases hp : p.head? = some 37
      . obtain ⟨p, rfl⟩ : ∃ q, p = 37 :: q := by
          cases p with
          | nil => cases hp
          | cons x q => exact ⟨q, by rw [Option.some.inj hp]⟩
        rw [nextItem_percent] at h
        cases h
        refine ⟨?_, nextItem_percent _⟩
        rw [List.length_cons, List.length_cons]
        omega
      . rw [nextItem_conv hp] at h
        have hle := scanSpec_reads.le p
        have happend := scanSpec_reads.append p g
        have hle : (readSpec p).2.length ≤ p.length := hle
        have happend : (readSpec p).2 ≠ [] → readSpec (p ++ g) = ((readSpec p).1, (readSpec p).2 ++ g) :=
          happend
        unfold specOf at h
        split at h
        . cases h
        . next conv q hq =>
          cases h
          have hne : p ≠ [] := by
            rintro rfl
            cases hq
          have hhead : (p ++ g).head? ≠ some 37 := by
            rwa [List.head?_append_of_ne_nil _ hne]
          rw [hq] at hle happend
          rw [List.length_cons] at hle ⊢
          rw [nextItem_conv hhead, happend (List.cons_ne_nil _ _)]
          exact ⟨by omega, rfl⟩
    . rw [nextItem_lit hb h37] at h
      cases h
      exact ⟨Nat.lt_succ_self _, nextItem_lit hb h37 _⟩

end Format

section Run

variable {c c' : ScanCtx} {p p' g s s' : Bytes} {k : Int} {it : ScanItem} {items : List Scanned}

theorem CleanRun.now (h : CleanRun p s) (hit : nextItem p = some (it, p')) : Clean it s :=
  h p s (.refl p s) it p' hit

theorem CleanRun.next {a : Scanned} (h : CleanRun p s) (hit : nextItem p = some (it, p'))
    (htake : takeItem it s = (.got a, s'))
    : CleanRun p' s' :=
  fun _ _ htakes => h _ _ (.round hit htake htakes)

theorem go_none (fuel : Nat) (h : nextItem p = none) (c : ScanCtx) (items : List Scanned)
    : vscanCore.go fuel p c items = ⟨items, assigned items, c, p⟩ := by
  unfold vscanCore.go
  rw [h]
  cases fuel <;> rfl

theorem go_some (fuel : Nat) (h : nextItem p = some (it, p')) (c : ScanCtx) (items : List Scanned)
    : vscanCore.go (fuel + 1) p c items
      = match scanItem it c with
        | (.eof, c) => ⟨items, if assigned items = 0 then -1 else assigned items, c, p⟩
        | (.fail, c) => ⟨items, assigned items, c, p⟩
        | (.got a, c) => vscanCore.go fuel p' c (items ++ [a]) := by
  have hgo := vscanCore.go.eq_def (fuel + 1) p c items
  rw [h] at hgo
  exact hgo

theorem round_cases (h : c.At s k) (hclean : Clean it s)
    : (∃ c', scanItem it c = (.eof, c') ∧ (takeItem it s).1 = .eof)
      ∨ (∃ c', scanItem it c = (.fail, c') ∧ (takeItem it s).1 = .fail)
      ∨ ∃ a a' c' s' k', scanItem it c = (.got a', c') ∧ takeItem it s = (.got a, s') ∧ c'.At s' k'
        ∧ a'.text = a.text ∧ (it.counts = false → a' = a) := by
  have hag := scanItem_agrees h hclean
  generalize scanItem it c = r at hag
  generalize takeItem it s = q at hag
  obtain ⟨r, c'⟩ := r
  obtain ⟨q, s'⟩ := q
  cases q with
  | eof =>
    obtain rfl : r = .eof := hag.eof rfl
    exact .inl ⟨c', rfl, rfl⟩
  | fail =>
    obtain rfl : r = .fail := hag.fail rfl
    exact .inr (.inl ⟨c', rfl, rfl⟩)
  | got a =>
    obtain ⟨a', hr, htext, hsame⟩ := hag.got a rfl
    obtain ⟨k', hat⟩ := hag.left a rfl
    obtain rfl : r = .got a' := hr
    exact .inr (.inr ⟨a, a', c', s', k', rfl, rfl, hat, htext, hsame⟩)

theorem go_consecutive (fuel : Nat) (h : c.At s k) (hclean : CleanRun p s)
    : ∃ new, (vscanCore.go fuel p c items).items = items ++ new
      ∧ Consecutive s (new.map (·.text)) := by
  induction fuel generalizing p c s k items with
  | zero => exact ⟨[], by simp [vscanCore.go], .done s⟩
  | succ fuel ih =>
    cases hit : nextItem p with
    | none =>
      rw [go_none _ hit]
      exact ⟨[], (List.append_nil _).symm, .done s⟩
    | some r =>
      obtain ⟨it, p'⟩ := r
      rw [go_some _ hit]
      rcases round_cases h (hclean.now hit) with ⟨c', hr, -⟩ | ⟨c', hr, -⟩
        | ⟨a, a', c', s', k', hr, htake, hat, htext, -⟩
      . rw [hr]
        exact ⟨[], (List.append_nil _).symm, .done s⟩
      . rw [hr]
        exact ⟨[], (List.append_nil _).symm, .done s⟩
      . rw [hr]
        obtain ⟨new, hnew, hcons⟩ :
            ∃ new, (vscanCore.go fuel p' c' (items ++ [a'])).items = items ++ [a'] ++ new
              ∧ Consecutive s' (new.map (·.text)) := ih hat (hclean.next hit htake)
        refine ⟨a' :: new, ?_, ?_⟩
        . rw [hnew, List.append_assoc, List.singleton_append]
        . rw [List.map_cons, htext]
          exact .read (takeItem_from (hclean.now hit) htake) hcons

theorem go_fuel (n m : Nat) (hn : p.length ≤ n) (hm : p.length ≤ m)
    : vscanCore.go n p c items = vscanCore.go m p c items := by
  induction n generalizing p c m items with
  | zero =>
    have hnil : p = [] := List.length_eq_zero_iff.1 (Nat.le_zero.1 hn)
    subst hnil
    rw [go_none _ rfl, go_none _ rfl]
  | succ n ih =>
    cases hit : nextItem p with
    | none => rw [go_none _ hit, go_none _ hit]
    | some r =>
      obtain ⟨it, p'⟩ := r
      have hlt := (nextItem_append hit []).1
      obtain ⟨m, rfl⟩ : ∃ j, m = j + 1 := ⟨m - 1, by omega⟩
      rw [go_some _ hit, go_some _ hit]
      generalize scanItem it c = r
      obtain ⟨r, c'⟩ := r
      cases r with
      | eof => rfl
      | fail => rfl
      | got a => exact ih m (by omega) (by omega)

theorem go_append {f : Bytes} (n m j : Nat) (hn : f.length ≤ n) (hm : (f ++ g).length ≤ m)
    (hj : g.length ≤ j) (h : c.At s k) (hclean : CleanRun (f ++ g) s)
    (hend : (vscanCore.go n f c items).rest = [])
    : (∃ s' k', (vscanCore.go n f c items).ctx.At s' k' ∧ CleanRun g s')
      ∧ vscanCore.go m (f ++ g) c items
        = vscanCore.go j g (vscanCore.go n f c items).ctx (vscanCore.go n f c items).items := by
  induction n generalizing f c s k m items with
  | zero =>
    obtain rfl : f = [] := List.length_eq_zero_iff.1 (Nat.le_zero.1 hn)
    rw [go_none _ rfl]
    exact ⟨⟨s, k, h, hclean⟩, go_fuel m j hm hj⟩
  | succ n ih =>
    cases hit : nextItem f with
    | none =>
      rw [go_none _ hit] at hend ⊢
      obtain rfl : f = [] := hend
      exact ⟨⟨s, k, h, hclean⟩, go_fuel m j hm hj⟩
    | some r =>
      obtain ⟨it, f'⟩ := r
      obtain ⟨hlt, hboth⟩ := nextItem_append hit g
      rw [List.length_append] at hm
      obtain ⟨m, rfl⟩ : ∃ i, m = i + 1 := ⟨m - 1, by omega⟩
      have hne : f ≠ [] := by
        rintro rfl
        cases hit
      rw [go_some _ hit] at hend ⊢
      rw [go_some _ hboth]
      rcases round_cases h (hclean.now hboth) with ⟨c', hr, -⟩ | ⟨c', hr, -⟩ | ⟨a, a', c', s', k', hr, htake, hat, -⟩
      . rw [hr] at hend
        exact absurd hend hne
      . rw [hr] at hend
        exact absurd hend hne
      . rw [hr] at hend ⊢
        exact ih m (by omega) (by rw [List.length_append]; omega) hat (hclean.next hboth htake) hend

theorem takeItem_skip {b : Byte} (hb : isScanSpace b) (hskip : it.skips) (s : Bytes)
    : takeItem it (b :: s) = takeItem it s := by
  have hdrop : (b :: s).dropWhile isScanSpace = s.dropWhile isScanSpace := by
    rw [List.dropWhile_cons, if_pos hb]
  cases it with
  | blank =>
    show (ScanRes.got _, (b :: s).dropWhile isScanSpace) = _
    rw [hdrop]
    rfl
  | lit b => exact absurd hskip (by simp [ScanItem.skips])
  | conv sp =>
    have hmem : sp.conv ∈ ([115, 100, 105, 117, 120, 88, 111, 102, 101, 69, 103, 71, 97, 65] : Bytes) := by
      simpa [ScanItem.skips] using hskip
    have hn : sp.conv ≠ 110 := by
      intro h
      rw [h] at hmem
      exact absurd hmem (by decide)
    have hc : sp.conv ≠ 99 := by
      intro h
      rw [h] at hmem
      exact absurd hmem (by decide)
    show takeConv sp (b :: s) = takeConv sp s
    unfold takeConv
    rw [hdrop]
    dsimp only
    rw [if_neg hn, if_neg hn, if_neg hc, if_neg hc]
    by_cases hs : sp.conv = 115
    . rw [if_pos hs, if_pos hs]
    rw [if_neg hs, if_neg hs]
    by_cases hint : sp.conv ∈ ([100, 105, 117, 120, 88, 111] : Bytes)
    . rw [if_pos hint, if_pos hint]
    rw [if_neg hint, if_neg hint]
    by_cases hfl : sp.conv ∈ ([102, 101, 69, 103, 71, 97, 65] : Bytes)
    . rw [if_pos hfl, if_pos hfl]
    . exfalso
      simp only [List.mem_cons, List.not_mem_nil, or_false] at hmem hint hfl
      tauto

theorem clean_skip {b : Byte} (hb : isScanSpace b) (hclean : Clean it (b :: s)) (hskip : it.skips)
    : Clean it s := by
  have hdrop : (b :: s).dropWhile isScanSpace = s.dropWhile isScanSpace := by
    rw [List.dropWhile_cons, if_pos hb]
  cases it with
  | blank => trivial
  | lit b => trivial
  | conv sp =>
    have hclean : CleanConv sp (b :: s) := hclean
    show CleanConv sp s
    unfold CleanConv at hclean ⊢
    rwa [hdrop] at hclean

/--
The texts are the same for the next round of `g`.
-/
def SameNext (g s₁ s₂ : Bytes) : Prop :=
  s₁ = s₂ ∨ (∃ it ∈ (nextItem g).map (·.1), it.skips) ∧ ∃ b, isScanSpace b ∧ s₁ = b :: s₂

theorem SameNext.take {s₁ s₂ : Bytes} (h : SameNext p s₁ s₂) (hit : nextItem p = some (it, p'))
    (hclean : Clean it s₁)
    : takeItem it s₁ = takeItem it s₂ ∧ Clean it s₂ := by
  rcases h with rfl | ⟨⟨it', hmem, hskip⟩, b, hb, rfl⟩
  . exact ⟨rfl, hclean⟩
  . rw [hit] at hmem
    obtain rfl : it = it' := Option.some.inj hmem
    exact ⟨takeItem_skip hb hskip s₂, clean_skip hb hclean hskip⟩

theorem round_both {c₁ c₂ : ScanCtx} {s₁ s₂ : Bytes} {k₁ k₂ : Int} (h₁ : c₁.At s₁ k₁) (h₂ : c₂.At s₂ k₂)
    (hclean₁ : Clean it s₁) (hclean₂ : Clean it s₂) (htake : takeItem it s₁ = takeItem it s₂)
    (hno : it.counts = false)
    : (∃ c₁' c₂', scanItem it c₁ = (.eof, c₁') ∧ scanItem it c₂ = (.eof, c₂'))
      ∨ (∃ c₁' c₂', scanItem it c₁ = (.fail, c₁') ∧ scanItem it c₂ = (.fail, c₂'))
      ∨ ∃ a c₁' c₂' s' k₁' k₂', scanItem it c₁ = (.got a, c₁') ∧ scanItem it c₂ = (.got a, c₂')
        ∧ takeItem it s₁ = (.got a, s') ∧ c₁'.At s' k₁' ∧ c₂'.At s' k₂' := by
  have hag₁ := scanItem_agrees h₁ hclean₁
  have hag₂ := scanItem_agrees h₂ hclean₂
  rw [← htake] at hag₂
  generalize scanItem it c₁ = r₁ at hag₁
  generalize scanItem it c₂ = r₂ at hag₂
  generalize takeItem it s₁ = q at hag₁ hag₂
  obtain ⟨r₁, c₁'⟩ := r₁
  obtain ⟨r₂, c₂'⟩ := r₂
  obtain ⟨q, s'⟩ := q
  cases q with
  | eof =>
    obtain rfl : r₁ = .eof := hag₁.eof rfl
    obtain rfl : r₂ = .eof := hag₂.eof rfl
    exact .inl ⟨c₁', c₂', rfl, rfl⟩
  | fail =>
    obtain rfl : r₁ = .fail := hag₁.fail rfl
    obtain rfl : r₂ = .fail := hag₂.fail rfl
    exact .inr (.inl ⟨c₁', c₂', rfl, rfl⟩)
  | got a =>
    obtain ⟨a₁, hr₁, -, ha₁⟩ := hag₁.got a rfl
    obtain ⟨a₂, hr₂, -, ha₂⟩ := hag₂.got a rfl
    obtain ⟨k₁', hat₁⟩ := hag₁.left a rfl
    obtain ⟨k₂', hat₂⟩ := hag₂.left a rfl
    rw [ha₁ hno] at hr₁
    rw [ha₂ hno] at hr₂
    obtain rfl : r₁ = .got a := hr₁
    obtain rfl : r₂ = .got a := hr₂
    exact .inr (.inr ⟨a, c₁', c₂', s', k₁', k₂', rfl, rfl, rfl, hat₁, hat₂⟩)

theorem go_same {c₁ c₂ : ScanCtx} {s₁ s₂ : Bytes} {k₁ k₂ : Int} {items₁ items₂ : List Scanned}
    (fuel : Nat) (h₁ : c₁.At s₁ k₁) (h₂ : c₂.At s₂ k₂) (hclean : CleanRun g s₁)
    (hsame : SameNext g s₁ s₂) (hcounts : ∀ it ∈ formatItems.go fuel g, it.counts = false)
    : ∃ new, (vscanCore.go fuel g c₁ items₁).items = items₁ ++ new
      ∧ (vscanCore.go fuel g c₂ items₂).items = items₂ ++ new := by
  induction fuel generalizing g c₁ c₂ s₁ s₂ k₁ k₂ items₁ items₂ with
  | zero => exact ⟨[], by simp [vscanCore.go], by simp [vscanCore.go]⟩
  | succ fuel ih =>
    cases hit : nextItem g with
    | none =>
      rw [go_none _ hit, go_none _ hit]
      exact ⟨[], (List.append_nil _).symm, (List.append_nil _).symm⟩
    | some r =>
      obtain ⟨it, g'⟩ := r
      have hitems : formatItems.go (fuel + 1) g = it :: formatItems.go fuel g' := by
        have hgo := formatItems.go.eq_def (fuel + 1) g
        rw [hit] at hgo
        exact hgo
      rw [hitems] at hcounts
      have hclean₁ := hclean.now hit
      obtain ⟨htake, hclean₂⟩ := hsame.take hit hclean₁
      rw [go_some _ hit, go_some _ hit]
      rcases round_both h₁ h₂ hclean₁ hclean₂ htake (hcounts it (by simp)) with
        ⟨c₁', c₂', hr₁, hr₂⟩ | ⟨c₁', c₂', hr₁, hr₂⟩
        | ⟨a, c₁', c₂', s', k₁', k₂', hr₁, hr₂, hq, hat₁, hat₂⟩
      . rw [hr₁, hr₂]
        exact ⟨[], (List.append_nil _).symm, (List.append_nil _).symm⟩
      . rw [hr₁, hr₂]
        exact ⟨[], (List.append_nil _).symm, (List.append_nil _).symm⟩
      . rw [hr₁, hr₂]
        obtain ⟨new, hnew₁, hnew₂⟩ :
            ∃ new, (vscanCore.go fuel g' c₁' (items₁ ++ [a])).items = items₁ ++ [a] ++ new
              ∧ (vscanCore.go fuel g' c₂' (items₂ ++ [a])).items = items₂ ++ [a] ++ new :=
          ih hat₁ hat₂ (hclean.next hit hq) (.inl rfl) fun it h => hcounts it (by simp [h])
        exact ⟨a :: new, by rw [hnew₁, List.append_assoc, List.singleton_append],
          by rw [hnew₂, List.append_assoc, List.singleton_append]⟩

theorem Consecutive.length_le {texts : List Bytes} (h : Consecutive s texts)
    : (texts.map List.length).sum ≤ s.length := by
  induction h with
  | done s => exact Nat.zero_le _
  | read h _ ih =>
    obtain ⟨ws, ws', -, -, rfl⟩ := h
    rw [List.map_cons, List.sum_cons]
    simp only [List.length_append]
    omega

theorem cleanRun_none (h : nextItem p = none) (s : Bytes) : CleanRun p s := by
  intro p' s' htakes it p'' hit
  cases htakes with
  | refl =>
    rw [h] at hit
    cases hit
  | round hit' _ _ =>
    rw [h] at hit'
    cases hit'

theorem cleanRun_some (hit : nextItem p = some (it, p')) (hclean : Clean it s)
    (hrest : CleanRun p' (takeItem it s).2)
    : CleanRun p s := by
  intro q t htakes it' q' hit'
  cases htakes with
  | refl =>
    rw [hit] at hit'
    cases hit'
    exact hclean
  | round hit₁ htake h =>
    rw [hit] at hit₁
    cases hit₁
    rw [htake] at hrest
    exact hrest _ _ h _ _ hit'

/--
In a clean run the conversions read one part of the input after the other. Two calls store what one
call does where the first gets to the end of its format with nothing in hand, and the second does not
ask for a count.
-/
theorem scanf_once (fmt : CStr) (input : Bytes) (hclean : CleanRun fmt.val input)
    : Consecutive input ((vfscanf input fmt).items.map (·.text))
      ∧ ∀ f g : CStr, fmt.val = f.val ++ g.val → (vfscanf input f).rest = [] →
        NothingInHand (vfscanf input f).ctx g.val → (∀ it ∈ formatItems g.val, it.counts = false) →
        (vfscanf input fmt).stored
          = (vfscanf input f).stored ++ (vfscanf (vfscanf input f).ctx.input g).stored := by
  have hat := ScanCtx.before_at input none 0
  constructor
  . obtain ⟨new, hnew, hcons⟩ := @go_consecutive (.before input none 0) fmt.val input 0 [] fmt.val.length
      hat hclean
    have hitems : (vfscanf input fmt).items = new := hnew
    rw [hitems]
    exact hcons
  . intro f g hfmt hend hhand hcounts
    rw [hfmt] at hclean
    obtain ⟨⟨s', k', hat', hclean'⟩, hgo⟩ := go_append f.val.length (f.val ++ g.val).length g.val.length
      (Nat.le_refl _) (Nat.le_refl _) (Nat.le_refl _) hat hclean hend
    have hone : vfscanf input fmt
        = vscanCore.go g.val.length g.val (vfscanf input f).ctx (vfscanf input f).items := by
      unfold vfscanf vscanCore
      rw [hfmt]
      exact hgo
    have hat' : (vfscanf input f).ctx.At s' k' := hat'
    have hsame : SameNext g.val s' (vfscanf input f).ctx.input := by
      rw [← hat'.pending]
      rcases hhand with hno | ⟨⟨b, hb, hspace⟩, hskip⟩
      . left
        rw [hno]
        rfl
      . by_cases hu : (vfscanf input f).ctx.ungotten
        . right
          refine ⟨hskip, b, hspace, ?_⟩
          rw [if_pos hu, Option.mem_def.1 hb]
          rfl
        . left
          rw [if_neg hu]
          rfl
    obtain ⟨new, hnew₁, hnew₂⟩ := @go_same g.val _ _ _ _ _ _ (vfscanf input f).items [] g.val.length hat'
      (ScanCtx.before_at (vfscanf input f).ctx.input none 0) hclean' hsame hcounts
    have htwo : (vfscanf (vfscanf input f).ctx.input g).items = new := hnew₂
    unfold ScanRun.stored
    rw [hone, hnew₁, htwo, List.filterMap_append]

/--
`%2s`
-/
def shortWord : CStr :=
  ⟨[37, 50, 115], by decide⟩

/--
`%s`
-/
def anyWord : CStr :=
  ⟨[37, 115], by decide⟩

/--
`%2s%s`
-/
def twoWords : CStr :=
  ⟨[37, 50, 115, 37, 115], by decide⟩

/--
`a b`
-/
theorem scanf_once_words
    : Consecutive [97, 32, 98] ((vfscanf [97, 32, 98] twoWords).items.map (·.text))
      ∧ (vfscanf [97, 32, 98] twoWords).stored
        = (vfscanf [97, 32, 98] shortWord).stored
          ++ (vfscanf (vfscanf [97, 32, 98] shortWord).ctx.input anyWord).stored := by
  have hshort : nextItem twoWords.val = some (.conv { width := 2, conv := 115 }, anyWord.val) := by
    decide +kernel
  have hany : nextItem anyWord.val = some (.conv { conv := 115 }, []) := by
    decide +kernel
  have hclean : CleanRun twoWords.val [97, 32, 98] := by
    apply cleanRun_some hshort
    . show CleanConv { width := 2, conv := 115 } [97, 32, 98]
      unfold CleanConv
      dsimp only
      rw [if_pos rfl]
      decide +kernel
    . apply cleanRun_some hany
      . show CleanConv { conv := 115 } (takeItem (.conv { width := 2, conv := 115 }) [97, 32, 98]).2
        unfold CleanConv
        dsimp only
        rw [if_pos rfl]
        decide +kernel
      . exact cleanRun_none rfl _
  have hboth := scanf_once twoWords [97, 32, 98] hclean
  exact ⟨hboth.1, hboth.2 shortWord anyWord rfl (by decide +kernel) (.inl (by decide +kernel))
    (by decide +kernel)⟩

/--
`%d`
-/
def oneInt : CStr :=
  ⟨[37, 100], by decide⟩

/--
`,%d`
-/
def commaInt : CStr :=
  ⟨[44, 37, 100], by decide⟩

/--
`%d,%d`
-/
def twoInts : CStr :=
  ⟨[37, 100, 44, 37, 100], by decide⟩

/--
Of `abcd` the letter `b` is read twice, and of `12,34` the comma is lost between two calls.
-/
theorem scanf_reads_twice
    : ¬Consecutive [97, 98, 99, 100] ((vfscanf [97, 98, 99, 100] twoWords).items.map (·.text))
      ∧ twoInts.val = oneInt.val ++ commaInt.val ∧ (vfscanf [49, 50, 44, 51, 52] oneInt).rest = []
      ∧ (vfscanf [49, 50, 44, 51, 52] twoInts).stored
        ≠ (vfscanf [49, 50, 44, 51, 52] oneInt).stored
          ++ (vfscanf (vfscanf [49, 50, 44, 51, 52] oneInt).ctx.input commaInt).stored := by
  refine ⟨?_, rfl, by decide +kernel, by decide +kernel⟩
  intro h
  have hle := h.length_le
  have htexts : (vfscanf [97, 98, 99, 100] twoWords).items.map (·.text) = [[97, 98], [98, 99, 100]] := by
    decide +kernel
  rw [htexts] at hle
  exact absurd hle (by decide)

end Run

end TanjaOS
