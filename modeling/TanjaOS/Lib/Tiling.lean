import Mathlib

/-!
First fit allocation over a list of blocks that tile a range, each block being a header of `hdr`
bytes followed by its payload. This is the abstract side of an in band allocator: offsets are not
stored but are the sum of what stands before a block.
-/

namespace Lib

structure Block where
  size : Nat
  free : Bool
  deriving DecidableEq, Repr

namespace Tiling

variable (hdr : Nat)

/--
The number of bytes that `bs` covers, headers included.
-/
def span : List Block → Nat
  | [] => 0
  | b :: bs => hdr + b.size + span bs

/--
Payload address and size of every allocated block of `bs`, which starts at `off`.
-/
def live (off : Nat) : List Block → List (Nat × Nat)
  | [] => []
  | b :: bs =>
    if b.free then
      live (off + hdr + b.size) bs
    else
      (off + hdr, b.size) :: live (off + hdr + b.size) bs

/--
Take the first free block that holds `n` bytes and split it if at least `slack` bytes of payload
remain. Returns the offset of the block taken, relative to the start of the list.
-/
def firstFit (slack n : Nat) : List Block → Option (Nat × List Block)
  | [] => none
  | b :: bs =>
    if b.free ∧ n ≤ b.size then
      if hdr + slack ≤ b.size - n then
        some (0, ⟨n, false⟩ :: ⟨b.size - n - hdr, true⟩ :: bs)
      else
        some (0, ⟨b.size, false⟩ :: bs)
    else
      match firstFit slack n bs with
      | none => none
      | some (o, bs') => some (hdr + b.size + o, b :: bs')

/--
Serve a list of requests one after the other.
-/
def firstFits (slack : Nat) : List Nat → List Block → Option (List Block)
  | [], bs => some bs
  | n :: ns, bs =>
    match firstFit hdr slack n bs with
    | none => none
    | some (_, bs') => firstFits slack ns bs'

/--
Mark the block with payload address `p` as free.
-/
def release (p off : Nat) : List Block → List Block
  | [] => []
  | b :: bs =>
    if off + hdr = p then
      ⟨b.size, true⟩ :: bs
    else
      b :: release p (off + hdr + b.size) bs

/--
Merge every maximal run of free blocks of `b :: bs` into one.
-/
def coalesce (b : Block) : List Block → List Block
  | [] => [b]
  | n :: bs =>
    if b.free ∧ n.free then
      coalesce ⟨b.size + (hdr + n.size), true⟩ bs
    else
      b :: coalesce n bs

/--
No two neighbours are both free.
-/
def Separated (bs : List Block) : Prop :=
  bs.IsChain (fun a b => ¬(a.free ∧ b.free))

/--
Every payload is a non empty multiple of `al`.
-/
def Aligned (al : Nat) (bs : List Block) : Prop :=
  ∀ b ∈ bs, al ∣ b.size ∧ 0 < b.size

variable {hdr}

theorem span_release (p off : Nat) (bs : List Block)
    : span hdr (release hdr p off bs) = span hdr bs := by
  fun_induction release hdr p off bs <;> simp_all [span]

theorem firstFit_eq_none_iff (hdr slack : Nat) {n : Nat} (bs : List Block)
    : firstFit hdr slack n bs = none ↔ ∀ b ∈ bs, b.free → b.size < n := by
  induction bs with
  | nil => simp [firstFit]
  | cons b bs ih =>
    simp only [firstFit, List.mem_cons, forall_eq_or_imp]
    split
    . next h =>
      split
      . simp only [reduceCtorEq, false_iff]
        intro hall
        have := hall.1 h.1
        omega
      . simp only [reduceCtorEq, false_iff]
        intro hall
        have := hall.1 h.1
        omega
    . next h =>
      have hb : b.free → b.size < n := by
        intro hfree
        by_contra
        apply h
        exact ⟨hfree, by omega⟩
      split
      . next heq =>
        simp only [true_iff]
        exact ⟨hb, ih.mp heq⟩
      . next heq =>
        simp only [reduceCtorEq, false_iff]
        intro hall
        rw [ih.mpr hall.2] at heq
        cases heq

theorem separated_coalesce (b : Block) (bs : List Block) : Separated (coalesce hdr b bs) := by
  unfold Separated
  fun_induction coalesce hdr b bs with
  | case1 b => simp
  | case2 b n bs h ih => assumption
  | case3 b n bs h ih =>
    -- The head of the coalesced tail is `n` itself or a free block that `n` grew into.
    have hhead : ∀ c ∈ (coalesce hdr n bs).head?, c.free = n.free := by
      clear ih h
      fun_induction coalesce hdr n bs with
      | case1 n => simp
      | case2 n m bs h ih =>
        intro c hc
        rw [ih c hc]
        simp [h.1]
      | case3 n m bs h ih => simp
    rw [List.isChain_cons]
    refine ⟨?_, ih⟩
    intro c hc
    rw [hhead c hc]
    assumption

theorem head_firstFit {slack n o : Nat} {bs bs' : List Block}
    (h : firstFit hdr slack n bs = some (o, bs'))
    : ∀ c ∈ bs'.head?, ∃ b ∈ bs.head?, c.free → b.free := by
  unfold firstFit at h
  split at h
  . cases h
  . split at h
    . split at h <;> (cases h; simp_all)
    . split at h
      . cases h
      . cases h
        simp

theorem separated_firstFit {slack n o : Nat} {bs bs' : List Block}
    (h : firstFit hdr slack n bs = some (o, bs')) (hsep : Separated bs)
    : Separated bs' := by
  unfold Separated at *
  induction bs generalizing o bs' with
  | nil => simp [firstFit] at h
  | cons b bs ih =>
    rw [List.isChain_cons] at hsep
    simp only [firstFit] at h
    split at h
    . next hb =>
      split at h
      . cases h
        rw [List.isChain_cons, List.isChain_cons]
        refine ⟨by simp, ?_, hsep.2⟩
        intro c hc
        have := hsep.1 c hc
        simp_all
      . cases h
        rw [List.isChain_cons]
        exact ⟨by simp, hsep.2⟩
    . split at h
      . cases h
      . next o' bs'' heq =>
        cases h
        rw [List.isChain_cons]
        refine ⟨?_, ih heq hsep.2⟩
        intro c hc hand
        obtain ⟨d, hd, himp⟩ := head_firstFit heq c hc
        exact hsep.1 d hd ⟨hand.1, himp hand.2⟩

theorem aligned_coalesce {al : Nat} {b : Block} {bs : List Block} (hhdr : al ∣ hdr)
    (h : Aligned al (b :: bs))
    : Aligned al (coalesce hdr b bs) := by
  fun_induction coalesce hdr b bs with
  | case1 b => assumption
  | case2 b n bs hfree ih =>
    apply ih
    intro c hc
    rw [List.mem_cons] at hc
    have hb := h b (by simp)
    have hn := h n (by simp)
    cases hc with
    | inl hc =>
      subst hc
      refine ⟨?_, by simp only; omega⟩
      exact Nat.dvd_add hb.1 (Nat.dvd_add hhdr hn.1)
    | inr hc =>
      apply h
      simp [hc]
  | case3 b n bs hfree ih =>
    intro c hc
    rw [List.mem_cons] at hc
    cases hc with
    | inl hc =>
      subst hc
      apply h
      simp
    | inr hc =>
      apply ih _ c hc
      intro d hd
      apply h
      simp [List.mem_cons.mp hd]

theorem aligned_release {al p off : Nat} {bs : List Block} (h : Aligned al bs)
    : Aligned al (release hdr p off bs) := by
  unfold Aligned at *
  fun_induction release hdr p off bs <;> simp_all

theorem aligned_firstFit {al slack n o : Nat} {bs bs' : List Block} (hhdr : al ∣ hdr)
    (hn : al ∣ n) (hpos : 0 < n) (hslack : 0 < slack)
    (h : firstFit hdr slack n bs = some (o, bs')) (hal : Aligned al bs)
    : Aligned al bs' := by
  unfold Aligned at *
  fun_induction firstFit hdr slack n bs generalizing o bs' with
  | case1 => simp at h
  | case2 b bs hb hsplit =>
    cases h
    simp only [List.mem_cons, forall_eq_or_imp] at hal ⊢
    refine ⟨⟨hn, hpos⟩, ⟨?_, by omega⟩, hal.2⟩
    exact Nat.dvd_sub (Nat.dvd_sub hal.1.1 hn) hhdr
  | case3 b bs hb hsplit =>
    cases h
    simpa using hal
  | case4 => simp at h
  | case5 b bs hb o bs' heq ih =>
    cases h
    simp only [List.mem_cons, forall_eq_or_imp] at hal ⊢
    exact ⟨hal.1, ih heq hal.2⟩

theorem live_coalesce (off : Nat) (b : Block) (bs : List Block)
    : live hdr off (coalesce hdr b bs) = live hdr off (b :: bs) := by
  fun_induction coalesce hdr b bs generalizing off with
  | case1 b => rfl
  | case2 b n bs h ih =>
    rw [ih]
    simp only [live, h.1, h.2, ↓reduceIte]
    congr 1
    omega
  | case3 b n bs h ih =>
    simp only [live] at ih ⊢
    rw [ih]

theorem live_pairwise (off : Nat) (bs : List Block)
    : (live hdr off bs).Pairwise (fun x y => x.1 + x.2 + hdr ≤ y.1)
        ∧ ∀ x ∈ live hdr off bs, off + hdr ≤ x.1 ∧ x.1 + x.2 ≤ off + span hdr bs := by
  induction bs generalizing off with
  | nil => simp [live]
  | cons b bs ih =>
    obtain ⟨hpair, hbound⟩ := ih (off + hdr + b.size)
    simp only [live, span]
    split
    . refine ⟨hpair, ?_⟩
      intro x hx
      have := hbound x hx
      omega
    . simp only [List.pairwise_cons, List.mem_cons, forall_eq_or_imp]
      refine ⟨⟨?_, hpair⟩, by omega, ?_⟩
      . intro x hx
        have := hbound x hx
        omega
      . intro x hx
        have := hbound x hx
        omega

theorem mem_live_bounds {off : Nat} {bs : List Block} {x : Nat × Nat} (h : x ∈ live hdr off bs)
    : off + hdr ≤ x.1 ∧ x.1 + x.2 ≤ off + span hdr bs := by
  apply (live_pairwise off bs).2
  assumption

theorem mem_live_disjoint {off : Nat} {bs : List Block} {x y : Nat × Nat}
    (hx : x ∈ live hdr off bs) (hy : y ∈ live hdr off bs)
    : x = y ∨ x.1 + x.2 + hdr ≤ y.1 ∨ y.1 + y.2 + hdr ≤ x.1 := by
  induction bs generalizing off with
  | nil => simp [live] at hx
  | cons b bs ih =>
    simp only [live] at hx hy
    split at hx
    . next hfree =>
      rw [if_pos hfree] at hy
      exact ih hx hy
    . next hfree =>
      rw [if_neg hfree] at hy
      rw [List.mem_cons] at hx hy
      cases hx with
      | inl hx =>
        cases hy with
        | inl hy => left; rw [hx, hy]
        | inr hy =>
          have := mem_live_bounds hy
          subst hx
          simp only
          omega
      | inr hx =>
        cases hy with
        | inl hy =>
          have := mem_live_bounds hx
          subst hy
          simp only
          omega
        | inr hy => exact ih hx hy

theorem mem_live_firstFit {slack n o : Nat} (off : Nat) {bs bs' : List Block} (hhdr : 0 < hdr)
    (h : firstFit hdr slack n bs = some (o, bs'))
    : ∃ size, n ≤ size ∧ (off + o + hdr, size) ∉ live hdr off bs
        ∧ ∀ x, x ∈ live hdr off bs' ↔ x = (off + o + hdr, size) ∨ x ∈ live hdr off bs := by
  fun_induction firstFit hdr slack n bs generalizing o bs' off with
  | case1 => simp at h
  | case2 b bs hb hsplit =>
    cases h
    have hoff : off + hdr + n + hdr + (b.size - n - hdr) = off + hdr + b.size := by omega
    refine ⟨n, Nat.le_refl n, ?_, ?_⟩
    . intro hmem
      simp only [live, hb.1, ↓reduceIte] at hmem
      have := mem_live_bounds hmem
      simp only at this
      omega
    . intro x
      simp [live, hb.1, hoff]
  | case3 b bs hb hsplit =>
    cases h
    refine ⟨b.size, hb.2, ?_, ?_⟩
    . intro hmem
      simp only [live, hb.1, ↓reduceIte] at hmem
      have := mem_live_bounds hmem
      simp only at this
      omega
    . intro x
      simp [live, hb.1]
  | case4 => simp at h
  | case5 b bs hb o bs' heq ih =>
    cases h
    obtain ⟨size, hle, hnot, hiff⟩ := ih (off + hdr + b.size) heq
    have hoff : off + hdr + b.size + o + hdr = off + (hdr + b.size + o) + hdr := by omega
    rw [hoff] at hnot hiff
    refine ⟨size, hle, ?_, ?_⟩
    . simp only [live]
      split
      . assumption
      . rw [List.mem_cons]
        rintro (heq | hmem)
        . simp only [Prod.mk.injEq] at heq
          omega
        . exact hnot hmem
    . intro x
      simp only [live]
      split
      . apply hiff
      . simp only [List.mem_cons, hiff]
        tauto

theorem mem_live_release {p off : Nat} {bs : List Block} (hpos : ∀ b ∈ bs, 0 < b.size)
    : ∀ x, x ∈ live hdr off (release hdr p off bs) ↔ x ∈ live hdr off bs ∧ x.1 ≠ p := by
  intro x
  fun_induction release hdr p off bs with
  | case1 => simp [live]
  | case2 off b bs h =>
    have hb := hpos b (by simp)
    have hne : ∀ y ∈ live hdr (off + hdr + b.size) bs, y.1 ≠ p := by
      intro y hy
      have := mem_live_bounds hy
      omega
    simp only [live, ↓reduceIte]
    split
    . constructor
      . intro hx
        exact ⟨hx, hne x hx⟩
      . intro hx
        exact hx.1
    . rw [List.mem_cons]
      constructor
      . intro hx
        exact ⟨Or.inr hx, hne x hx⟩
      . rintro ⟨hx | hx, hp⟩
        . subst hx
          simp only at hp
          omega
        . assumption
  | case3 off b bs h ih =>
    have := ih (by intro c hc; apply hpos; simp [hc])
    simp only [live]
    split
    . assumption
    . simp only [List.mem_cons, this]
      constructor
      . rintro (hx | hx)
        . subst hx
          exact ⟨Or.inl rfl, h⟩
        . exact ⟨Or.inr hx.1, hx.2⟩
      . rintro ⟨hx | hx, hp⟩
        . exact Or.inl hx
        . exact Or.inr ⟨hx, hp⟩

theorem aligned_live {al off : Nat} {bs : List Block} (hhdr : al ∣ hdr) (hoff : al ∣ off)
    (h : Aligned al bs)
    : ∀ x ∈ live hdr off bs, al ∣ x.1 ∧ al ∣ x.2 ∧ 0 < x.2 := by
  induction bs generalizing off with
  | nil => simp [live]
  | cons b bs ih =>
    have hb := h b (by simp)
    have htail : Aligned al bs := by
      intro c hc
      apply h
      simp [hc]
    have := ih (Nat.dvd_add (Nat.dvd_add hoff hhdr) hb.1) htail
    simp only [live]
    split
    . assumption
    . simp only [List.mem_cons, forall_eq_or_imp]
      exact ⟨⟨Nat.dvd_add hoff hhdr, hb⟩, this⟩

theorem sum_live_le_span (off : Nat) (bs : List Block)
    : ((live hdr off bs).map (fun x => hdr + x.2)).sum ≤ span hdr bs := by
  induction bs generalizing off with
  | nil => simp [live, span]
  | cons b bs ih =>
    have := ih (off + hdr + b.size)
    simp only [live, span]
    split
    . omega
    . simp only [List.map_cons, List.sum_cons]
      omega

theorem sum_owned_le_span {ι : Type} {off : Nat} {bs : List Block} {is : List ι}
    (block : ι → Nat × Nat) (want : ι → Nat) (hnodup : is.Nodup)
    (hmem : ∀ i ∈ is, block i ∈ live hdr off bs)
    (hinj : ∀ i ∈ is, ∀ j ∈ is, block i = block j → i = j)
    (hwant : ∀ i ∈ is, want i ≤ (block i).2)
    : (is.map (fun i => hdr + want i)).sum ≤ span hdr bs := by
  have hsub : (is.map block).Subperm (live hdr off bs) := by
    apply List.Nodup.subperm
    . exact hnodup.map_on hinj
    . intro x hx
      rw [List.mem_map] at hx
      obtain ⟨i, hi, rfl⟩ := hx
      exact hmem i hi
  obtain ⟨l, hperm, hsubl⟩ := hsub
  calc (is.map (fun i => hdr + want i)).sum
      ≤ (is.map (fun i => hdr + (block i).2)).sum := by
        apply List.sum_le_sum
        intro i hi
        have := hwant i hi
        omega
    _ = (l.map (fun x => hdr + x.2)).sum := by
        rw [(hperm.map (fun x => hdr + x.2)).sum_eq, List.map_map]
        rfl
    _ ≤ ((live hdr off bs).map (fun x => hdr + x.2)).sum := by
        apply (hsubl.map (fun x => hdr + x.2)).sum_le_sum
        simp
    _ ≤ span hdr bs := sum_live_le_span off bs

theorem firstFit_append {slack n : Nat} {pre bs : List Block} (hpre : ∀ b ∈ pre, b.free = false)
    : firstFit hdr slack n (pre ++ bs)
        = (firstFit hdr slack n bs).map (fun r => (span hdr pre + r.1, pre ++ r.2)) := by
  induction pre with
  | nil => simp [span]
  | cons b pre ih =>
    have hb := hpre b (by simp)
    have ih := ih (fun b hb => hpre b (by simp [hb]))
    simp only [List.cons_append, firstFit, hb, Bool.false_eq_true, false_and, ↓reduceIte, ih]
    cases firstFit hdr slack n bs with
    | none => rfl
    | some r => simp [span, Nat.add_assoc]

theorem firstFits_eq_none_of_full {slack n : Nat} {ns : List Nat} {bs : List Block}
    (hfull : ∀ b ∈ bs, b.free = false)
    : firstFits hdr slack (n :: ns) bs = none := by
  have : firstFit hdr slack n bs = none := by
    rw [firstFit_eq_none_iff]
    intro b hb hfree
    rw [hfull b hb] at hfree
    contradiction
  simp only [firstFits, this]

theorem firstFits_isSome_iff (hdr slack : Nat) (ns : List Nat) (free : Nat) (pre : List Block)
    (hpre : ∀ b ∈ pre, b.free = false)
    : (firstFits hdr slack ns (pre ++ [⟨free, true⟩])).isSome
        ↔ (ns.map (hdr + ·)).sum ≤ hdr + free
          ∧ (ns.length ≤ 1 ∨ (ns.dropLast.map (hdr + ·)).sum + slack ≤ free) := by
  induction ns generalizing pre free with
  | nil => simp [firstFits]
  | cons n ns ih =>
    rw [firstFits, firstFit_append hpre]
    simp only [firstFit, true_and]
    by_cases hfit : n ≤ free
    . rw [if_pos hfit]
      cases ns with
      | nil =>
        have : ∀ r, (firstFits hdr slack [] r).isSome := fun _ => rfl
        by_cases hsplit : hdr + slack ≤ free - n
        . simp [hsplit, this]
          omega
        . simp [hsplit, this]
          omega
      | cons m ns =>
        by_cases hsplit : hdr + slack ≤ free - n
        . have hpre' : ∀ b ∈ pre ++ [⟨n, false⟩], b.free = false := by
            intro b hb
            rw [List.mem_append, List.mem_singleton] at hb
            cases hb with
            | inl hb => exact hpre b hb
            | inr hb => rw [hb]
          have ih := ih (free - n - hdr) (pre ++ [⟨n, false⟩]) hpre'
          rw [if_pos hsplit]
          simp only [Option.map_some]
          have happ : pre ++ [⟨n, false⟩, ⟨free - n - hdr, true⟩]
              = (pre ++ [⟨n, false⟩]) ++ [⟨free - n - hdr, true⟩] := by simp
          rw [happ, ih]
          cases ns with
          | nil =>
            simp
            omega
          | cons k ns =>
            simp only [List.map_cons, List.sum_cons, List.length_cons, List.dropLast_cons_cons]
            omega
        . rw [if_neg hsplit]
          simp only [Option.map_some]
          rw [firstFits_eq_none_of_full]
          . simp only [Option.isSome_none, Bool.false_eq_true, List.map_cons, List.sum_cons,
              List.length_cons, List.dropLast_cons_cons, false_iff]
            omega
          . intro b hb
            rw [List.mem_append, List.mem_singleton] at hb
            cases hb with
            | inl hb => exact hpre b hb
            | inr hb => rw [hb]
    . rw [if_neg hfit]
      simp only [Option.map_none, Option.isSome_none, Bool.false_eq_true, List.map_cons,
        List.sum_cons, false_iff]
      omega

end Tiling
end Lib
