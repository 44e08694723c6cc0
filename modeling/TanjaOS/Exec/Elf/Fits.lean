import TanjaOS.Lib.Bits
import TanjaOS.Lib.Patch
import TanjaOS.Exec.Elf.Lemmas

/-!
Pass 1 for sections that fit in the region: where they go and what is there afterwards.
-/

open Lib

namespace TanjaOS
namespace Applet

open Checked

section Spec

def alignOf (s : Shdr) : Nat :=
  if s.addralign ≠ 0 then s.addralign else 1

/--
The first address from `cur` on that is aligned for a section, of any size.
-/
def fitAddr (cur : Nat) (s : Shdr) : Nat :=
  (cur + alignOf s - 1) / alignOf s * alignOf s

/--
A section that is used where it is in the image.
-/
def InPlace (s : Shdr) : Prop :=
  isAlloc s ∧ s.type ≠ 8 ∧ 256 * 1024 ≤ s.size

instance (s : Shdr) : Decidable (InPlace s) :=
  inferInstanceAs (Decidable (_ ∧ _ ∧ _))

def Copied (s : Shdr) : Prop :=
  isAlloc s ∧ ¬InPlace s

def fitEnd (cur : Nat) (s : Shdr) : Nat :=
  if isAlloc s then
    if InPlace s then fitAddr cur s else fitAddr cur s + s.size
  else
    cur

variable (e : Applet) (m : Mem)

/--
`n` sections whose headers start at `off` fit in the region from `cur` on.
-/
def Fits : (n off cur : Nat) → Prop
  | 0, _, cur => cur ≤ e.limit
  | n + 1, off, cur => Fits n (off + 40) (fitEnd cur (e.shdr m off))

instance decidableFits : (n off cur : Nat) → Decidable (e.Fits m n off cur)
  | 0, _, cur => inferInstanceAs (Decidable (cur ≤ e.limit))
  | n + 1, off, cur => decidableFits n (off + 40) (fitEnd cur (e.shdr m off))

/--
A section that is allocated is aligned at a power of two and lies in the image.
-/
structure SectionOk (s : Shdr) : Prop where
  aligned : isAlloc s → s.addralign = 0 ∨ ∃ k, s.addralign = 2 ^ k
  contents : isAlloc s → s.type ≠ 8 → s.size ≠ 0 → s.offset + s.size ≤ e.size

/--
What pass 1 makes of a section that goes between `lo` and `hi`. Up to three bytes of a section of
zeros keep what they were.
-/
structure SectionAt (s : Shdr) (addr lo hi : Nat) (m' : Mem) : Prop where
  skipped : ¬isAlloc s → addr = 0
  inPlace : InPlace s → addr = e.img + s.offset
  inside : Copied s → lo ≤ addr ∧ addr + s.size ≤ hi
  aligned : Copied s → alignOf s ∣ addr
  zero : Copied s → s.type = 8 → ∀ k < s.size, m' (addr + k) = if k < zeroExtent s.size then 0 else m (addr + k)
  copied : Copied s → s.type ≠ 8 → ∀ k < s.size, m' (addr + k) = m (e.img + s.offset + k)

end Spec

section Align

variable {s : Shdr} {cur : Nat}

theorem alignOf_pos (s : Shdr) : 0 < alignOf s := by
  unfold alignOf
  split <;> omega

theorem le_fitAddr (cur : Nat) (s : Shdr) : cur ≤ fitAddr cur s := by
  have hpos := alignOf_pos s
  have hmod := Nat.mod_lt (cur + alignOf s - 1) hpos
  have hdiv := Nat.div_add_mod' (cur + alignOf s - 1) (alignOf s)
  unfold fitAddr
  omega

theorem dvd_fitAddr (cur : Nat) (s : Shdr) : alignOf s ∣ fitAddr cur s :=
  Dvd.intro_left _ rfl

theorem le_fitEnd (cur : Nat) (s : Shdr) : cur ≤ fitEnd cur s := by
  have hle := le_fitAddr cur s
  unfold fitEnd
  split
  . split <;> omega
  . exact Nat.le_refl cur

theorem alignUp_fit (hpow : s.addralign = 0 ∨ ∃ k, s.addralign = 2 ^ k) (hcur : 0 < cur)
    (hlt : fitAddr cur s < 2 ^ 32)
    : alignUp cur (alignOf s) = fitAddr cur s := by
  have hle := le_fitAddr cur s
  unfold alignUp
  split
  . next hone =>
    have hpos := alignOf_pos s
    unfold fitAddr
    rw [show alignOf s = 1 by omega]
    simp
  . next hmany =>
    obtain ⟨k, hk⟩ : ∃ k, alignOf s = 2 ^ k := by
      unfold alignOf at hmany ⊢
      split
      . next hne => exact hpow.resolve_left hne
      . next hzero =>
        rw [if_neg hzero] at hmany
        omega
    obtain ⟨q, hq⟩ := dvd_fitAddr cur s
    rw [hk] at hq
    have hpos : 0 < 2 ^ k := Nat.two_pow_pos k
    have hsmall : 2 ^ k ≤ fitAddr cur s := Nat.le_of_dvd (by omega) ⟨q, hq⟩
    have hk32 : k < 32 := (Nat.pow_lt_pow_iff_right (by decide)).mp (hsmall.trans_lt hlt)
    have hsplit : 2 ^ 32 = 2 ^ k * 2 ^ (32 - k) := by
      rw [← Nat.pow_add]
      congr 1
      omega
    -- 4 GiB is a multiple of the alignment, too, so that the next aligned address is no more than that
    have hnext : fitAddr cur s + 2 ^ k ≤ 2 ^ 32 := by
      rw [hq, hsplit] at hlt
      have hq' : q + 1 ≤ 2 ^ (32 - k) := Nat.lt_of_mul_lt_mul_left hlt
      calc fitAddr cur s + 2 ^ k = 2 ^ k * (q + 1) := by rw [hq]; ring
        _ ≤ 2 ^ k * 2 ^ (32 - k) := Nat.mul_le_mul_left _ hq'
        _ = 2 ^ 32 := hsplit.symm
    have hmask : 2 ^ 32 - 2 ^ k = (2 ^ (32 - k) - 1) * 2 ^ k := by
      rw [Nat.sub_mul, one_mul, Nat.mul_comm, ← hsplit]
    have hsum : add32 cur (2 ^ k - 1) = cur + 2 ^ k - 1 := by
      unfold add32
      omega
    rw [hk, hsum, hmask, and_high (by rw [Nat.sub_add_cancel hk32.le]; omega)]
    unfold fitAddr
    rw [hk]

end Align

section Place

variable {e : Applet} {m m' : Mem} {s : Shdr} {cur : Nat}

theorem look_open (off n : Nat) : look .open off n = .ok () := rfl

theorem put_open (m : Mem) (addr : Nat) (bs : Bytes) : put .open m addr bs = .ok (m.writeBytes addr bs) := rfl

theorem lookHeader_open (e : Applet) (m : Mem) (off : Nat) : lookHeader .open e m off = .ok () := by
  unfold lookHeader
  split <;> rfl

theorem fits_le {n off : Nat} (h : e.Fits m n off cur) : cur ≤ e.limit := by
  induction n generalizing off cur with
  | zero => exact h
  | succ n ih => exact (le_fitEnd cur _).trans (ih h)

theorem zeroFill_open {addr n : Nat} (hend : addr + n < 2 ^ 32) (haddr : 4 ≤ addr) (fuel : Nat) {k : Nat} {m : Mem}
    (hk : k % 4 = 0) (hlt : k < n + 4) (hfuel : n + 4 ≤ k + 4 * fuel)
    : (zeroFill .open addr n fuel k m).Yields (fun r => (∀ a, a < addr + k ∨ addr + n ≤ a → r a = m a)
        ∧ ∀ j, k ≤ j → j < n → r (addr + j) = if j < zeroExtent n then 0 else m (addr + j)) := by
  induction fuel generalizing k m with
  | zero => omega
  | succ fuel ih =>
    unfold zeroFill
    apply yields_ite
    . intro hkn
      have hsum : add32 addr k = addr + k := Nat.mod_eq_of_lt (by omega)
      have hnext : add32 k 4 = k + 4 := Nat.mod_eq_of_lt (by omega)
      have hzeros : (if k + 4 ≤ n then [0, 0, 0, 0] else [0] : Bytes)
          = (List.range (if k + 4 ≤ n then 4 else 1)).map (fun _ => 0) := by
        split <;> rfl
      rw [hsum, hnext, hzeros, put_open]
      have hext : zeroExtent n = if n % 4 = 0 then n else n / 4 * 4 + 1 := rfl
      -- the next turn starts at `k + 4`, also behind a single byte
      apply (@ih (k + 4) (m.writeBytes (addr + k) _) (by omega) (by omega) (by omega)).mono
      rintro r ⟨houter, hinner⟩
      constructor
      . intro a ha
        rw [houter a (by omega), Mem.writeBytes_range]
        apply if_neg
        split <;> omega
      . intro j hkj hjn
        by_cases hj : k + 4 ≤ j
        . rw [hinner j hj hjn, Mem.writeBytes_range]
          congr 1
          apply if_neg
          split <;> omega
        . have hiff : addr + k ≤ addr + j ∧ addr + j < addr + k + (if k + 4 ≤ n then 4 else 1) ↔ j < zeroExtent n := by
            rw [hext]
            split <;> split <;> omega
          rw [houter _ (by omega), Mem.writeBytes_range]
          simp only [hiff]
    . intro hnk
      exact yields_pure ⟨fun _ _ => rfl, fun j hkj hjn => absurd (Nat.lt_of_le_of_lt hkj hjn) hnk⟩

theorem slot_fits (hok : e.SectionOk s) (hcur : 0 < cur) (hfit : fitEnd cur s ≤ e.limit)
    : e.slot cur s = (if isAlloc s then
        if InPlace s then .inPlace (e.img + s.offset)
        else if s.type = 8 then .zero (fitAddr cur s) s.size
        else .copy (fitAddr cur s) s.offset s.size
      else .skip) := by
  have := e.limit_lt
  have := e.img_le
  by_cases halloc : isAlloc s = true
  . have hle : fitAddr cur s ≤ fitEnd cur s := by
      unfold fitEnd
      rw [if_pos halloc]
      split <;> omega
    have halign : alignUp cur (if s.addralign ≠ 0 then s.addralign else 1) = fitAddr cur s :=
      alignUp_fit (hok.aligned halloc) hcur (by omega)
    have hin : s.type ≠ 8 → s.size ≠ 0 → add32 s.offset s.size = s.offset + s.size := by
      intro hne hsize
      have hcontents := hok.contents halloc hne hsize
      have := e.size_lt
      exact Nat.mod_eq_of_lt (by omega)
    unfold slot
    rw [if_pos halloc, if_pos halloc, halign]
    dsimp only
    by_cases h8 : s.type = 8
    . rw [if_pos h8, if_neg (fun hplace => hplace.2.1 h8), if_pos h8]
    . rw [if_neg h8]
      by_cases hlarge : 256 * 1024 ≤ s.size
      . have hsum := hin h8 (by omega)
        have hcontents := hok.contents halloc h8 (by omega)
        have haddr : add32 e.img s.offset = e.img + s.offset := Nat.mod_eq_of_lt (by omega)
        rw [if_pos ⟨hlarge, by omega⟩, if_pos ⟨halloc, h8, hlarge⟩, haddr]
      . have hbad : ¬(0 < s.size ∧ e.size < add32 s.offset s.size) := by
          rintro ⟨hpos, hout⟩
          have hsum := hin h8 (by omega)
          have hcontents := hok.contents halloc h8 (by omega)
          omega
        have hplace : ¬InPlace s := fun hplace => hlarge hplace.2.2
        rw [if_neg (fun hplace => hlarge hplace.1), if_neg hbad, if_neg hplace, if_neg h8]
  . unfold slot
    rw [if_neg halloc, if_neg halloc]

theorem fillSlot_fits (hok : e.SectionOk s) (hcur : e.brk ≤ cur) (hfit : fitEnd cur s ≤ e.limit)
    (hsame : ∀ a, a < e.brk ∨ cur ≤ a → m' a = m a)
    : e.slot cur s ≠ .bad ∧ slotEnd cur s (e.slot cur s) = fitEnd cur s
      ∧ (fillSlot .open e m' (e.slot cur s)).Yields (fun r => (∀ a, a < cur ∨ fitEnd cur s ≤ a → r a = m' a)
        ∧ e.SectionAt m s (slotAddr (e.slot cur s)) cur (fitEnd cur s) r) := by
  have hbrk := e.le_brk
  have hlimit := e.limit_lt
  have himg := e.img_le
  have hapart := e.disjoint
  have hle := le_fitAddr cur s
  have hdvd := dvd_fitAddr cur s
  rw [slot_fits hok (by omega) hfit]
  by_cases halloc : isAlloc s = true
  . rw [if_pos halloc]
    by_cases hplace : InPlace s
    . rw [if_pos hplace]
      have halign : alignUp cur (if s.addralign ≠ 0 then s.addralign else 1) = fitAddr cur s := by
        apply alignUp_fit (hok.aligned halloc) (by omega)
        unfold fitEnd at hfit
        rw [if_pos halloc, if_pos hplace] at hfit
        omega
      refine ⟨by simp, ?_, yields_pure ⟨fun _ _ => rfl, ?_⟩⟩
      . unfold fitEnd
        rw [if_pos halloc, if_pos hplace]
        exact halign
      . exact ⟨fun hno => absurd halloc hno, fun _ => rfl, fun hcopied => absurd hplace hcopied.2,
          fun hcopied => absurd hplace hcopied.2, fun hcopied => absurd hplace hcopied.2,
          fun hcopied => absurd hplace hcopied.2⟩
    . have hend : fitEnd cur s = fitAddr cur s + s.size := by
        unfold fitEnd
        rw [if_pos halloc, if_neg hplace]
      have hsum : add32 (fitAddr cur s) s.size = fitAddr cur s + s.size := Nat.mod_eq_of_lt (by omega)
      rw [if_neg hplace, hend]
      by_cases h8 : s.type = 8
      . rw [if_pos h8]
        refine ⟨by simp, hsum, ?_⟩
        apply (zeroFill_open (by omega) (by omega) _ rfl (by omega) (by omega)).mono
        rintro r ⟨houter, hinner⟩
        refine ⟨fun a ha => houter a (by omega), fun hno => absurd halloc hno, fun hin => absurd hin hplace,
          fun _ => ⟨hle, Nat.le_refl _⟩, fun _ => hdvd, ?_, fun _ hne => absurd h8 hne⟩
        intro _ _ k hk
        dsimp only [slotAddr]
        rw [hinner k (Nat.zero_le k) hk, hsame _ (by omega)]
      . rw [if_neg h8]
        refine ⟨by simp, hsum, ?_⟩
        unfold fillSlot
        dsimp only
        by_cases hzero : s.size = 0
        . rw [if_pos hzero]
          refine yields_pure ⟨fun _ _ => rfl, fun hno => absurd halloc hno, fun hin => absurd hin hplace,
            fun _ => ⟨hle, Nat.le_refl _⟩, fun _ => hdvd, fun _ h => absurd h h8, ?_⟩
          intro _ _ k hk
          omega
        . have hcontents := hok.contents halloc h8 hzero
          rw [if_neg hzero, put_open]
          refine ⟨_, rfl, ?_, fun hno => absurd halloc hno, fun hin => absurd hin hplace,
            fun _ => ⟨hle, Nat.le_refl _⟩, fun _ => hdvd, fun _ h => absurd h h8, ?_⟩
          . intro a ha
            rw [Mem.writeBytes_range]
            exact if_neg (by omega)
          . intro _ _ k hk
            dsimp only [slotAddr]
            rw [Mem.writeBytes_range, if_pos (by omega), Nat.add_sub_cancel_left, Nat.mod_eq_of_lt (by omega),
              ← Nat.add_assoc]
            apply hsame
            omega
  . have hskip : ¬Copied s := fun hcopied => halloc hcopied.1
    rw [if_neg halloc]
    refine ⟨by simp, ?_, yields_pure ⟨fun _ _ => rfl, ?_⟩⟩
    . unfold fitEnd
      rw [if_neg halloc]
      rfl
    . exact ⟨fun _ => rfl, fun hplace => absurd hplace.1 halloc, fun hcopied => absurd hcopied hskip,
        fun hcopied => absurd hcopied hskip, fun hcopied => absurd hcopied hskip,
        fun hcopied => absurd hcopied hskip⟩

theorem SectionAt.mono {addr lo lo' hi hi' : Nat} {r : Mem} (h : e.SectionAt m s addr lo hi m') (hlo : lo' ≤ lo)
    (hhi : hi ≤ hi') (hr : ∀ a, a < hi → r a = m' a)
    : e.SectionAt m s addr lo' hi' r where
  skipped := h.skipped
  inPlace := h.inPlace
  inside hcopied := by
    obtain ⟨hle, hend⟩ := h.inside hcopied
    omega
  aligned := h.aligned
  zero hcopied h8 k hk := by
    obtain ⟨_, hend⟩ := h.inside hcopied
    rw [hr _ (by omega), h.zero hcopied h8 k hk]
  copied hcopied h8 k hk := by
    obtain ⟨_, hend⟩ := h.inside hcopied
    rw [hr _ (by omega), h.copied hcopied h8 k hk]

/--
What pass 1 makes of `n` sections whose headers start at `off`.
-/
structure PlacedFrom (e : Applet) (m : Mem) (n i off cur cur' : Nat) (sec sec' : Nat → Nat) (m' r : Mem) : Prop where
  le : cur ≤ cur'
  limit : cur' ≤ e.limit
  others : ∀ a, a < cur ∨ cur' ≤ a → r a = m' a
  before : ∀ j, j < i → sec' j = sec j
  sections : ∀ j < n, e.SectionAt m (e.shdr m (off + 40 * j)) (sec' (i + j)) cur cur' r
  apart : ∀ j k, j < k → k < n → Copied (e.shdr m (off + 40 * j)) → Copied (e.shdr m (off + 40 * k)) →
    sec' (i + j) + (e.shdr m (off + 40 * j)).size ≤ sec' (i + k)

theorem PlacedFrom.cons {n i off cur' : Nat} {sec sec' : Nat → Nat} {r r' : Mem} {slot : Slot}
    (hhead : ∀ a, a < cur ∨ fitEnd cur (e.shdr m off) ≤ a → r a = m' a)
    (hat : e.SectionAt m (e.shdr m off) (slotAddr slot) cur (fitEnd cur (e.shdr m off)) r)
    (h : e.PlacedFrom m n (i + 1) (off + 40) (fitEnd cur (e.shdr m off)) cur'
      (fun j => if j = i then slotAddr slot else sec j) sec' r r')
    : e.PlacedFrom m (n + 1) i off cur cur' sec sec' m' r' := by
  have hle := le_fitEnd cur (e.shdr m off)
  have hnext := h.le
  have hi : sec' i = slotAddr slot := by
    rw [h.before i (by omega)]
    exact if_pos rfl
  have hoff : ∀ j, off + 40 * (j + 1) = off + 40 + 40 * j := fun j => by omega
  have hidx : ∀ j, i + (j + 1) = i + 1 + j := fun j => by omega
  refine ⟨by omega, h.limit, ?_, ?_, ?_, ?_⟩
  . intro a ha
    rw [h.others a (by omega), hhead a (by omega)]
  . intro j hj
    rw [h.before j (by omega)]
    exact if_neg (by omega)
  . intro j hj
    cases j with
    | zero =>
      rw [Nat.mul_zero, Nat.add_zero, Nat.add_zero, hi]
      exact hat.mono (Nat.le_refl cur) hnext (fun a ha => h.others a (.inl ha))
    | succ j =>
      rw [hoff, hidx]
      exact (h.sections j (by omega)).mono hle (Nat.le_refl cur') (fun _ _ => rfl)
  . intro j k hjk hk hj hk'
    obtain ⟨k, rfl⟩ := Nat.exists_eq_succ_of_ne_zero (Nat.ne_of_gt (Nat.lt_of_le_of_lt (Nat.zero_le j) hjk))
    rw [Nat.succ_eq_add_one, hoff] at hk'
    rw [Nat.succ_eq_add_one, hidx]
    cases j with
    | zero =>
      rw [Nat.mul_zero, Nat.add_zero] at hj ⊢
      rw [Nat.add_zero, hi]
      obtain ⟨_, hend⟩ := hat.inside hj
      obtain ⟨hstart, _⟩ := (h.sections k (by omega)).inside hk'
      omega
    | succ j =>
      rw [hoff] at hj ⊢
      rw [hidx]
      exact h.apart j k (by omega) (by omega) hj hk'

theorem placeSections_fits (n : Nat) {i off : Nat} {sec : Nat → Nat} {m' : Mem} (hin : off + 40 * n ≤ e.size)
    (hok : ∀ j < n, e.SectionOk (e.shdr m (off + 40 * j))) (hcur : e.brk ≤ cur) (hfit : e.Fits m n off cur)
    (hsame : ∀ a, a < e.brk ∨ cur ≤ a → m' a = m a)
    : ∃ cur' sec' r, placeSections .open e n i off cur sec m' = .ok (.placed cur' sec' r)
      ∧ e.place m n i off cur sec = some (cur', sec') ∧ e.PlacedFrom m n i off cur cur' sec sec' m' r := by
  induction n generalizing i off cur sec m' with
  | zero =>
    refine ⟨cur, sec, m', rfl, rfl, Nat.le_refl cur, hfit, fun _ _ => rfl, fun _ _ => rfl, ?_, ?_⟩
    . intro j hj
      omega
    . intro j k _ hk
      omega
  | succ n ih =>
    have hsize := e.size_lt
    have hlimit := fits_le hfit
    have hinside : e.Inside (off + 4) 32 := by
      unfold Inside
      omega
    -- the image lies outside of the region, so the headers are still there
    have hsame' : e.Same m m' := fun a ha => hsame a (by omega)
    have hshdr : e.shdr m' off = e.shdr m off := shdr_eq hsame' hinside
    have hnext : e.Fits m n (off + 40) (fitEnd cur (e.shdr m off)) := hfit
    have hend := fits_le hnext
    have hhead : e.SectionOk (e.shdr m off) := hok 0 (by omega)
    obtain ⟨hbad, hslotEnd, r, hfill, houter, hat⟩ := fillSlot_fits hhead hcur hend hsame
    have hle := le_fitEnd cur (e.shdr m off)
    have htail : ∀ j < n, e.SectionOk (e.shdr m (off + 40 + 40 * j)) := by
      intro j hj
      have hj' := hok (j + 1) (by omega)
      rwa [show off + 40 * (j + 1) = off + 40 + 40 * j by omega] at hj'
    have hkept : ∀ a, a < e.brk ∨ fitEnd cur (e.shdr m off) ≤ a → r a = m a := by
      intro a ha
      rw [houter a (by omega), hsame a (by omega)]
    obtain ⟨cur', sec', r', hrest, hplace, hfrom⟩ := @ih (fitEnd cur (e.shdr m off)) (i + 1) (off + 40)
      (fun j => if j = i then slotAddr (e.slot cur (e.shdr m off)) else sec j) r (by omega) htail (by omega) hnext hkept
    refine ⟨cur', sec', r', ?_, ?_, .cons houter hat hfrom⟩
    . unfold placeSections
      rw [lookHeader_open, hshdr]
      show (if e.slot cur (e.shdr m off) = .bad then _ else _) = _
      rw [if_neg hbad, hfill, hslotEnd]
      exact hrest
    . unfold place
      dsimp only
      rw [if_neg hbad, hslotEnd]
      exact hplace

end Place

end Applet
end TanjaOS
