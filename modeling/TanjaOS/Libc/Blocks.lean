import TanjaOS.Libc.Malloc
import TanjaOS.Lib.TilingAt

/-!
The arena of `malloc` refines `Lib.Tiling`: the linked headers are those of a list of blocks, and each
edit of the headers is one of that list.
-/

open Lib
open Lib.Tiling

namespace TanjaOS

section Fields

variable {m m' : Mem} {b c v : Nat}

theorem mblock_congr (h : ∀ i, c ≤ i → i < c + 20 → m' i = m i) : mblock m' c = mblock m c := by
  have hread : ∀ k, k ≤ 16 → m'.read32 (c + k) = m.read32 (c + k) := by
    intro k hk
    apply Mem.read32_congr
    intro i _ _
    apply h <;> omega
  unfold mblock
  rw [hread 4 (by omega), hread 8 (by omega), hread 12 (by omega), hread 16 (by omega)]
  have := hread 0 (by omega)
  rw [Nat.add_zero] at this
  rw [this]

theorem setMagic_other {i : Nat} (h : i < b ∨ b + 20 ≤ i) : setMagic m b v i = m i := by
  obtain h | h := h
  . exact Mem.write32_of_lt (by omega)
  . exact Mem.write32_of_ge (by omega)

theorem setSize_other {i : Nat} (h : i < b ∨ b + 20 ≤ i) : setSize m b v i = m i := by
  obtain h | h := h
  . exact Mem.write32_of_lt (by omega)
  . exact Mem.write32_of_ge (by omega)

theorem setNext_other {i : Nat} (h : i < b ∨ b + 20 ≤ i) : setNext m b v i = m i := by
  obtain h | h := h
  . exact Mem.write32_of_lt (by omega)
  . exact Mem.write32_of_ge (by omega)

theorem setPrev_other {i : Nat} (h : i < b ∨ b + 20 ≤ i) : setPrev m b v i = m i := by
  obtain h | h := h
  . exact Mem.write32_of_lt (by omega)
  . exact Mem.write32_of_ge (by omega)

theorem setFree_other {i : Nat} (h : i < b ∨ b + 20 ≤ i) : setFree m b v i = m i := by
  obtain h | h := h
  . exact Mem.write32_of_lt (by omega)
  . exact Mem.write32_of_ge (by omega)

theorem mblock_setMagic (hv : v < 2 ^ 32)
    : mblock (setMagic m b v) b = { mblock m b with magic := v } := by
  unfold mblock setMagic
  rw [Mem.read32_write32_same _ hv, Mem.read32_write32_disjoint (by omega),
    Mem.read32_write32_disjoint (by omega), Mem.read32_write32_disjoint (by omega),
    Mem.read32_write32_disjoint (by omega)]

theorem mblock_setSize (hv : v < 2 ^ 32)
    : mblock (setSize m b v) b = { mblock m b with size := v } := by
  unfold mblock setSize
  rw [Mem.read32_write32_same _ hv, Mem.read32_write32_disjoint (by omega),
    Mem.read32_write32_disjoint (by omega), Mem.read32_write32_disjoint (by omega),
    Mem.read32_write32_disjoint (by omega)]

theorem mblock_setNext (hv : v < 2 ^ 32)
    : mblock (setNext m b v) b = { mblock m b with next := v } := by
  unfold mblock setNext
  rw [Mem.read32_write32_same _ hv, Mem.read32_write32_disjoint (by omega),
    Mem.read32_write32_disjoint (by omega), Mem.read32_write32_disjoint (by omega),
    Mem.read32_write32_disjoint (by omega)]

theorem mblock_setPrev (hv : v < 2 ^ 32)
    : mblock (setPrev m b v) b = { mblock m b with prev := v } := by
  unfold mblock setPrev
  rw [Mem.read32_write32_same _ hv, Mem.read32_write32_disjoint (by omega),
    Mem.read32_write32_disjoint (by omega), Mem.read32_write32_disjoint (by omega),
    Mem.read32_write32_disjoint (by omega)]

theorem mblock_setFree (hv : v < 2 ^ 32)
    : mblock (setFree m b v) b = { mblock m b with free := v } := by
  unfold mblock setFree
  rw [Mem.read32_write32_same _ hv, Mem.read32_write32_disjoint (by omega),
    Mem.read32_write32_disjoint (by omega), Mem.read32_write32_disjoint (by omega),
    Mem.read32_write32_disjoint (by omega)]

theorem absorb_spec (nb : Nat) (hnb : b + 20 ≤ nb)
    (hnext : (mblock m nb).next = 0 ∨ nb + 20 ≤ (mblock m nb).next)
    (hsize : (mblock m b).size + (mblock m nb).size < 2 ^ 32) (hb : b < 2 ^ 32)
    : mblock (absorb m b nb) b = { mblock m b with
          size := (mblock m b).size + (mblock m nb).size, next := (mblock m nb).next }
        ∧ ((mblock m nb).next ≠ 0 → mblock (absorb m b nb) (mblock m nb).next
          = { mblock m (mblock m nb).next with prev := b })
        ∧ ∀ i, (i < b ∨ b + 20 ≤ i) → ((mblock m nb).next = 0 ∨ i < (mblock m nb).next
            ∨ (mblock m nb).next + 20 ≤ i) →
          absorb m b nb i = m i := by
  have hlt : (mblock m nb).next < 2 ^ 32 := Mem.read32_lt _
  unfold absorb
  dsimp only
  generalize hc : (mblock m nb).next = c at *
  have hself : mblock (setNext (setSize m b ((mblock m b).size + (mblock m nb).size)) b c) b
      = { mblock m b with size := (mblock m b).size + (mblock m nb).size, next := c } := by
    rw [mblock_setNext hlt, mblock_setSize hsize]
  have hframe : ∀ i, (i < b ∨ b + 20 ≤ i) →
      setNext (setSize m b ((mblock m b).size + (mblock m nb).size)) b c i = m i := by
    intro i hi
    rw [setNext_other hi, setSize_other hi]
  split
  . next hne =>
    refine ⟨?_, ?_, ?_⟩
    . rw [← hself]
      apply mblock_congr
      intro i _ _
      apply setPrev_other
      omega
    . intro _
      have : mblock (setNext (setSize m b ((mblock m b).size + (mblock m nb).size)) b c) c
          = mblock m c := by
        apply mblock_congr
        intro i _ _
        apply hframe
        omega
      rw [mblock_setPrev hb, this]
    . intro i hi hi'
      rw [setPrev_other (by omega)]
      exact hframe i hi
  . next heq =>
    exact ⟨hself, fun hne => absurd hne heq, fun i hi _ => hframe i hi⟩

theorem splitBlock_spec (need : Nat) (hneed : 20 ≤ need) (hfit : need + 20 ≤ (mblock m b).size)
    (hnext : (mblock m b).next = 0 ∨ b + (mblock m b).size ≤ (mblock m b).next)
    (hb : b + need < 2 ^ 32)
    : mblock (splitBlock m b need) b = { mblock m b with size := need, next := b + need }
        ∧ mblock (splitBlock m b need) (b + need)
          = ⟨mallocMagic, (mblock m b).size - need, (mblock m b).next, b, 1⟩
        ∧ ((mblock m b).next ≠ 0 → mblock (splitBlock m b need) (mblock m b).next
          = { mblock m (mblock m b).next with prev := b + need })
        ∧ ∀ i, (i < b ∨ b + (mblock m b).size ≤ i) → ((mblock m b).next = 0 ∨ i < (mblock m b).next
            ∨ (mblock m b).next + 20 ≤ i) →
          splitBlock m b need i = m i := by
  have hlt : (mblock m b).next < 2 ^ 32 := Mem.read32_lt _
  have hsize : (mblock m b).size < 2 ^ 32 := Mem.read32_lt _
  unfold splitBlock
  dsimp only
  generalize hc : (mblock m b).next = c at *
  generalize hs : (mblock m b).size = size at *
  -- the new header
  generalize hm : setFree (setPrev (setNext (setSize (setMagic m (b + need) mallocMagic) (b + need)
    (size - need)) (b + need) c) (b + need) b) (b + need) 1 = m₁
  have hnew : mblock m₁ (b + need) = ⟨mallocMagic, size - need, c, b, 1⟩ := by
    rw [← hm, mblock_setFree (by omega), mblock_setPrev (by omega), mblock_setNext hlt,
      mblock_setSize (by omega), mblock_setMagic (by decide)]
  have hframe : ∀ i, (i < b + need ∨ b + need + 20 ≤ i) → m₁ i = m i := by
    intro i hi
    rw [← hm, setFree_other hi, setPrev_other hi, setNext_other hi, setSize_other hi,
      setMagic_other hi]
  -- the link back from the block after it
  generalize hm' : (if c ≠ 0 then setPrev m₁ c (b + need) else m₁) = m₂
  have hback : c ≠ 0 → mblock m₂ c = { mblock m c with prev := b + need } := by
    intro hne
    have : mblock m₁ c = mblock m c := by
      apply mblock_congr
      intro i _ _
      apply hframe
      omega
    rw [← hm', if_pos hne, mblock_setPrev hb, this]
  have hframe' : ∀ i, (c = 0 ∨ i < c ∨ c + 20 ≤ i) → m₂ i = m₁ i := by
    intro i hi
    rw [← hm']
    split
    . exact setPrev_other (by omega)
    . rfl
  have hframe'' : ∀ i, (i < b ∨ b + 20 ≤ i) → setSize (setNext m₂ b (b + need)) b need i = m₂ i := by
    intro i hi
    rw [setSize_other hi, setNext_other hi]
  refine ⟨?_, ?_, ?_, ?_⟩
  . rw [mblock_setSize (by omega), mblock_setNext hb]
    have : mblock m₂ b = mblock m b := by
      apply mblock_congr
      intro i _ _
      rw [hframe' i (by omega), hframe i (by omega)]
    rw [this]
  . rw [← hnew]
    apply mblock_congr
    intro i _ _
    rw [hframe'' i (by omega), hframe' i (by omega)]
  . intro hne
    rw [← hback hne]
    apply mblock_congr
    intro i _ _
    apply hframe''
    omega
  . intro i hi hi'
    rw [hframe'' i (by omega), hframe' i hi', hframe i (by omega)]

end Fields

/--
The blocks `bs` are linked from address `a` on. `prev` is the block before `a`, and the arena ends at
`limit`.
-/
def LinkedFrom (m : Mem) (limit : Nat) : Nat → Nat → List Block → Prop
  | _, _, [] => True
  | prev, a, b :: bs =>
    mblock m a = ⟨mallocMagic, 20 + b.size, if a + 20 + b.size = limit then 0 else a + 20 + b.size, prev,
        b.free.toNat⟩
      ∧ LinkedFrom m limit a (a + 20 + b.size) bs

/--
The address of the last block, `prev` if there is none.
-/
def lastFrom (prev a : Nat) : List Block → Nat
  | [] => prev
  | b :: bs => lastFrom a (a + 20 + b.size) bs

theorem lastFrom_append (prev a : Nat) (xs : List Block) (y : Block)
    : lastFrom prev a (xs ++ [y]) = a + span 20 xs := by
  induction xs generalizing prev a with
  | nil => simp [lastFrom, span]
  | cons x xs ih =>
    simp only [List.cons_append, lastFrom, span, ih]
    omega

namespace LinkedFrom

variable {m m' : Mem} {limit prev a : Nat} {pre post bs : List Block}

theorem append_iff
    : LinkedFrom m limit prev a (pre ++ post)
        ↔ LinkedFrom m limit prev a pre
          ∧ LinkedFrom m limit (lastFrom prev a pre) (a + span 20 pre) post := by
  induction pre generalizing prev a with
  | nil => simp [LinkedFrom, lastFrom, span]
  | cons b pre ih =>
    have hoff : a + 20 + b.size + span 20 pre = a + (20 + b.size + span 20 pre) := by omega
    simp only [List.cons_append, LinkedFrom, lastFrom, span, ih, hoff, and_assoc]

theorem congr (h : LinkedFrom m limit prev a bs)
    (heq : ∀ i, a ≤ i → i < a + span 20 bs → m' i = m i)
    : LinkedFrom m' limit prev a bs := by
  induction bs generalizing prev a with
  | nil => trivial
  | cons b bs ih =>
    simp only [span] at heq
    refine ⟨?_, ih h.2 ?_⟩
    . rw [← h.1]
      apply mblock_congr
      intro i _ _
      apply heq <;> omega
    . intro i _ _
      apply heq <;> omega

theorem header {b : Block} (h : LinkedFrom m limit prev a (pre ++ b :: post))
    : mblock m (a + span 20 pre) = ⟨mallocMagic, 20 + b.size,
        if a + span 20 pre + 20 + b.size = limit then 0 else a + span 20 pre + 20 + b.size,
        lastFrom prev a pre, b.free.toNat⟩ :=
  (append_iff.mp h).2.1

theorem splice (mid mid' : List Block) (h : LinkedFrom m limit prev a (pre ++ (mid ++ post)))
    (hspan : span 20 mid' = span 20 mid)
    (hpre : ∀ i, i < a + span 20 pre → m' i = m i)
    (hmid : LinkedFrom m' limit (lastFrom prev a pre) (a + span 20 pre) mid')
    (hpost : ∀ i, a + span 20 pre + span 20 mid + 20 ≤ i → m' i = m i)
    (hhead : post ≠ [] → mblock m' (a + span 20 pre + span 20 mid)
      = { mblock m (a + span 20 pre + span 20 mid) with
          prev := lastFrom (lastFrom prev a pre) (a + span 20 pre) mid' })
    : LinkedFrom m' limit prev a (pre ++ (mid' ++ post)) := by
  rw [append_iff, append_iff] at h ⊢
  obtain ⟨hbefore, _, hafter⟩ := h
  refine ⟨hbefore.congr (fun i _ hi => hpre i hi), hmid, ?_⟩
  rw [hspan]
  cases post with
  | nil => trivial
  | cons c post =>
    refine ⟨?_, hafter.2.congr ?_⟩
    . rw [hhead (by simp), hafter.1]
    . intro i hi _
      apply hpost
      omega

end LinkedFrom

structure ArenaHolds (m : Mem) (base limit : Nat) (bs : List Block) : Prop where
  linked : LinkedFrom m limit 0 base bs
  span_eq : base + span 20 bs = limit
  big : ∀ b ∈ bs, 16 ≤ b.size

theorem live_header {off i : Nat} {pre post : List Block} {b : Block} {x : Nat × Nat}
    (hx : x ∈ live 20 off (pre ++ b :: post)) (hi : x.1 ≤ i) (hi' : i < x.1 + x.2)
    : i < off + span 20 pre ∨ off + span 20 pre + 20 ≤ i := by
  rw [live_append, List.mem_append] at hx
  obtain hx | hx := hx
  . have := mem_live_bounds hx
    omega
  . have := mem_live_bounds hx
    omega

theorem live_free {off i : Nat} {pre post : List Block} {b : Block} {x : Nat × Nat}
    (hx : x ∈ live 20 off (pre ++ b :: post)) (hfree : b.free = true) (hi : x.1 ≤ i)
    (hi' : i < x.1 + x.2)
    : i < off + span 20 pre ∨ off + span 20 pre + 20 + b.size ≤ i := by
  rw [live_append, List.mem_append] at hx
  obtain hx | hx := hx
  . have := mem_live_bounds hx
    omega
  . rw [live, if_pos hfree] at hx
    have := mem_live_bounds hx
    omega

/--
The payloads of the blocks that `bs` has allocated are the same.
-/
def SamePayloads (base : Nat) (bs : List Block) (m m' : Mem) : Prop :=
  ∀ x ∈ live 20 base bs, ∀ i, x.1 ≤ i → i < x.1 + x.2 → m' i = m i

theorem SamePayloads.trans {base : Nat} {bs bs' : List Block} {m m' m'' : Mem}
    (h : SamePayloads base bs m m') (h' : SamePayloads base bs' m' m'')
    (hlive : live 20 base bs' = live 20 base bs)
    : SamePayloads base bs m m'' := by
  intro x hx i hi hi'
  rw [h' x (by rw [hlive]; exact hx) i hi hi', h x hx i hi hi']

namespace ArenaHolds

variable {m : Mem} {base limit : Nat} {pre post : List Block} {b n : Block}

theorem end_le (h : ArenaHolds m base limit (pre ++ b :: post))
    : base + span 20 pre + 20 + b.size + span 20 post = limit := by
  have := h.span_eq
  simp only [span_append, span] at this
  omega

theorem end_eq (h : ArenaHolds m base limit (pre ++ b :: post))
    : base + span 20 pre + 20 + b.size = limit ↔ post = [] := by
  have hend := h.end_le
  cases post with
  | nil =>
    simp only [span, Nat.add_zero] at hend
    simp [hend]
  | cons c post =>
    simp only [span] at hend
    simp only [reduceCtorEq, iff_false]
    omega

theorem setFree (h : ArenaHolds m base limit (pre ++ b :: post)) (f : Bool)
    : ArenaHolds (setFree m (base + span 20 pre) f.toNat) base limit (pre ++ ⟨b.size, f⟩ :: post)
        ∧ SamePayloads base (pre ++ b :: post) m (TanjaOS.setFree m (base + span 20 pre) f.toNat) := by
  have hend := h.end_le
  have hf : f.toNat < 2 ^ 32 := by
    cases f <;> decide
  refine ⟨⟨?_, ?_, ?_⟩, ?_⟩
  . apply LinkedFrom.splice [b] [⟨b.size, f⟩]
    . exact h.linked
    . rfl
    . intro i hi
      exact setFree_other (by omega)
    . refine ⟨?_, trivial⟩
      rw [mblock_setFree hf, h.linked.header]
    . intro i hi
      simp only [span] at hi
      exact setFree_other (by omega)
    . intro hne
      simp only [span, Nat.add_zero]
      have hsame : mblock (TanjaOS.setFree m (base + span 20 pre) f.toNat)
            (base + span 20 pre + (20 + b.size))
          = mblock m (base + span 20 pre + (20 + b.size)) := by
        apply mblock_congr
        intro i _ _
        exact setFree_other (by omega)
      rw [hsame]
      cases post with
      | nil => exact absurd rfl hne
      | cons c post =>
        have hlink := h.linked
        rw [LinkedFrom.append_iff] at hlink
        have hc := hlink.2.2.1
        rw [Nat.add_assoc (base + span 20 pre)] at hc
        rw [hc]
        rfl
  . rw [← h.span_eq]
    simp [span]
  . intro c hc
    rw [List.mem_append, List.mem_cons] at hc
    obtain hc | rfl | hc := hc
    . exact h.big c (by simp [hc])
    . exact h.big b (by simp)
    . exact h.big c (by simp [hc])
  . intro x hx i hi hi'
    exact setFree_other (live_header hx hi hi')

theorem absorb (h : ArenaHolds m base limit (pre ++ b :: n :: post)) (hbase : 0 < base)
    (hlimit : limit ≤ 2 ^ 32)
    : ArenaHolds (absorb m (base + span 20 pre) (base + span 20 pre + 20 + b.size)) base limit
          (pre ++ ⟨b.size + 20 + n.size, b.free⟩ :: post)
        ∧ SamePayloads base (pre ++ b :: n :: post) m
          (TanjaOS.absorb m (base + span 20 pre) (base + span 20 pre + 20 + b.size)) := by
  have hend := h.end_le
  simp only [span] at hend
  have happ : pre ++ b :: n :: post = (pre ++ [b]) ++ n :: post := by simp
  have hb := h.linked.header
  have hlink := h.linked
  rw [happ] at hlink
  have hn := hlink.header
  have haddr : base + span 20 (pre ++ [b]) = base + span 20 pre + 20 + b.size := by
    simp only [span_append, span]
    omega
  rw [haddr, lastFrom_append] at hn
  have hnext : (mblock m (base + span 20 pre + 20 + b.size)).next
      = if base + span 20 pre + 20 + b.size + 20 + n.size = limit then 0
        else base + span 20 pre + 20 + b.size + 20 + n.size := by rw [hn]
  have hsize : (mblock m (base + span 20 pre)).size
      + (mblock m (base + span 20 pre + 20 + b.size)).size = 20 + b.size + (20 + n.size) := by
    rw [hb, hn]
  obtain ⟨hself, hback, hframe⟩ := absorb_spec (m := m) (b := base + span 20 pre)
    (base + span 20 pre + 20 + b.size) (by omega)
    (by
      rw [hnext]
      split
      . exact .inl rfl
      . exact .inr (by omega))
    (by omega) (by omega)
  have happ' : (pre ++ [b, n]) ++ post = pre ++ b :: n :: post := by simp
  -- away from the header and from the block that follows nothing changes
  have houter : ∀ i, (i < base + span 20 pre ∨ base + span 20 pre + 20 ≤ i) →
      (post = [] ∨ i < base + span 20 pre + 20 + b.size + 20 + n.size
        ∨ base + span 20 pre + 20 + b.size + 20 + n.size + 20 ≤ i) →
      TanjaOS.absorb m (base + span 20 pre) (base + span 20 pre + 20 + b.size) i = m i := by
    intro i hi hi'
    apply hframe i hi
    rw [hnext]
    split
    . exact .inl rfl
    . next hne =>
      obtain rfl | hi' := hi'
      . simp only [span] at hend
        omega
      . exact .inr hi'
  refine ⟨⟨?_, ?_, ?_⟩, ?_⟩
  . apply LinkedFrom.splice [b, n] [⟨b.size + 20 + n.size, b.free⟩]
    . exact h.linked
    . simp only [span]
      omega
    . intro i hi
      apply houter i (.inl hi)
      omega
    . refine ⟨?_, trivial⟩
      rw [hself, hsize, hnext, hb]
      have h₁ : base + span 20 pre + 20 + (b.size + 20 + n.size)
          = base + span 20 pre + 20 + b.size + 20 + n.size := by omega
      have h₂ : 20 + b.size + (20 + n.size) = 20 + (b.size + 20 + n.size) := by omega
      dsimp only
      rw [h₁, h₂]
    . intro i hi
      simp only [span] at hi
      exact houter i (by omega) (.inr (.inr (by omega)))
    . intro hne
      have hpos : base + span 20 pre + 20 + b.size + 20 + n.size ≠ limit := by
        cases post with
        | nil => exact absurd rfl hne
        | cons c post =>
          simp only [span] at hend
          omega
      rw [if_neg hpos] at hnext
      rw [hnext] at hback
      have h₁ : base + span 20 pre + span 20 [b, n]
          = base + span 20 pre + 20 + b.size + 20 + n.size := by
        simp only [span]
        omega
      rw [h₁, hback (by omega)]
      rfl
  . have := h.span_eq
    simp only [span_append, span] at this ⊢
    omega
  . intro c hc
    rw [List.mem_append, List.mem_cons] at hc
    obtain hc | rfl | hc := hc
    . exact h.big c (by simp [hc])
    . have := h.big b (by simp)
      dsimp only
      omega
    . exact h.big c (by simp [hc])
  . intro x hx i hi hi'
    apply houter i (live_header hx hi hi')
    cases post with
    | nil => exact .inl rfl
    | cons c post =>
      right
      rw [← happ'] at hx
      have := live_header hx hi hi'
      simp only [span_append, span] at this
      omega

theorem split {need : Nat} (h : ArenaHolds m base limit (pre ++ b :: post)) (hlimit : limit ≤ 2 ^ 32)
    (hfree : b.free = true) (hneed : 16 ≤ need) (hfit : need + 20 + 16 ≤ b.size)
    : ArenaHolds (splitBlock m (base + span 20 pre) (20 + need)) base limit
          (pre ++ ⟨need, true⟩ :: ⟨b.size - need - 20, true⟩ :: post)
        ∧ SamePayloads base (pre ++ b :: post) m (splitBlock m (base + span 20 pre) (20 + need)) := by
  have hend := h.end_le
  have hb := h.linked.header
  have hnext : (mblock m (base + span 20 pre)).next
      = if base + span 20 pre + 20 + b.size = limit then 0 else base + span 20 pre + 20 + b.size := by
    rw [hb]
  have hsize : (mblock m (base + span 20 pre)).size = 20 + b.size := by rw [hb]
  obtain ⟨hself, hnew, hback, hframe⟩ := splitBlock_spec (m := m) (b := base + span 20 pre)
    (20 + need) (by omega) (by omega)
    (by
      rw [hnext]
      split
      . exact .inl rfl
      . exact .inr (by omega))
    (by omega)
  have houter : ∀ i, (i < base + span 20 pre ∨ base + span 20 pre + 20 + b.size ≤ i) →
      (post = [] ∨ i < base + span 20 pre + 20 + b.size
        ∨ base + span 20 pre + 20 + b.size + 20 ≤ i) →
      splitBlock m (base + span 20 pre) (20 + need) i = m i := by
    intro i hi hi'
    apply hframe i (by omega)
    rw [hnext]
    split
    . exact .inl rfl
    . next hne =>
      obtain rfl | hi' := hi'
      . simp only [span] at hend
        omega
      . exact .inr hi'
  refine ⟨⟨?_, ?_, ?_⟩, ?_⟩
  . apply LinkedFrom.splice [b] [⟨need, true⟩, ⟨b.size - need - 20, true⟩]
    . exact h.linked
    . simp only [span]
      omega
    . intro i hi
      apply houter i (.inl hi)
      omega
    . refine ⟨?_, ?_, trivial⟩
      . rw [hself, hb, hfree]
        dsimp only
        rw [if_neg (by omega), Nat.add_assoc (base + span 20 pre)]
      . have h₁ : base + span 20 pre + 20 + need = base + span 20 pre + (20 + need) := by omega
        have h₂ : base + span 20 pre + (20 + need) + 20 + (b.size - need - 20)
            = base + span 20 pre + 20 + b.size := by omega
        dsimp only
        rw [h₁, hnew, hnext, hsize, h₂]
        have h₃ : 20 + b.size - (20 + need) = 20 + (b.size - need - 20) := by omega
        rw [h₃]
        rfl
    . intro i hi
      simp only [span] at hi
      exact houter i (by omega) (.inr (.inr (by omega)))
    . intro hne
      have hpos : base + span 20 pre + 20 + b.size ≠ limit := fun heq => hne (h.end_eq.mp heq)
      rw [if_neg hpos] at hnext
      rw [hnext] at hback
      have h₁ : base + span 20 pre + span 20 [b] = base + span 20 pre + 20 + b.size := by
        simp only [span]
        omega
      rw [h₁, hback (by omega)]
      have h₂ : base + span 20 pre + (20 + need) = base + span 20 pre + 20 + need := by omega
      simp only [lastFrom, h₂]
  . have := h.span_eq
    simp only [span_append, span] at this ⊢
    omega
  . intro c hc
    rw [List.mem_append, List.mem_cons, List.mem_cons] at hc
    obtain hc | rfl | rfl | hc := hc
    . exact h.big c (by simp [hc])
    . exact hneed
    . dsimp only
      omega
    . exact h.big c (by simp [hc])
  . intro x hx i hi hi'
    apply houter i (live_free hx hfree hi hi')
    cases post with
    | nil => exact .inl rfl
    | cons c post =>
      right
      have happ : pre ++ b :: c :: post = (pre ++ [b]) ++ c :: post := by simp
      rw [happ] at hx
      have := live_header hx hi hi'
      simp only [span_append, span] at this
      omega

end ArenaHolds

theorem firstFree_eq {m : Mem} {limit prev a k fuel : Nat} {bs : List Block}
    (h : LinkedFrom m limit prev a bs) (hend : a + span 20 bs = limit) (ha : 0 < a)
    (hfuel : bs.length < fuel)
    : firstFree m (20 + k) fuel (if a = limit then 0 else a)
        = some ((firstFit 20 16 k bs).map (fun r => a + r.1)) := by
  induction bs generalizing prev a fuel with
  | nil =>
    obtain ⟨fuel, rfl⟩ := Nat.exists_eq_succ_of_ne_zero (Nat.ne_of_gt hfuel)
    simp only [span, Nat.add_zero] at hend
    rw [if_pos hend]
    rfl
  | cons b bs ih =>
    obtain ⟨fuel, rfl⟩ := Nat.exists_eq_succ_of_ne_zero (Nat.ne_of_gt (Nat.zero_lt_of_lt hfuel))
    obtain ⟨hhead, htail⟩ := h
    simp only [span] at hend
    simp only [List.length_cons] at hfuel
    rw [if_neg (by omega), firstFree, if_neg (by omega), hhead]
    dsimp only
    have hcond : (b.free.toNat = 0 ∨ 20 + b.size < 20 + k) ↔ ¬(b.free = true ∧ k ≤ b.size) := by
      cases b.free
      . simp
      . simp
    by_cases hfit : b.free = true ∧ k ≤ b.size
    . rw [if_neg (by rw [hcond]; exact not_not.mpr hfit)]
      rw [firstFit, if_pos hfit]
      split <;> rfl
    . rw [if_pos (hcond.mpr hfit), ih htail (by omega) (by omega) (by omega), firstFit, if_neg hfit]
      cases firstFit 20 16 k bs with
      | none => rfl
      | some r =>
        simp only [Option.map_some]
        congr 2
        omega

theorem length_le_span (bs : List Block) : bs.length ≤ span 20 bs := by
  induction bs with
  | nil => simp [span]
  | cons b bs ih =>
    simp only [List.length_cons, span]
    omega

theorem mallocRound_eq {n : Nat} (h : n + 35 < 2 ^ 32)
    : ∃ k, mallocRound n = 20 + k ∧ n ≤ k ∧ 16 ≤ k := by
  refine ⟨mallocRound n - 20, ?_⟩
  unfold mallocRound mblockBytes mallocAlign
  dsimp only
  split <;> omega

namespace ArenaHolds

variable {m : Mem} {base limit : Nat} {pre post bs : List Block} {b : Block}

theorem takeBlock {k o : Nat} {bs' : List Block} (h : ArenaHolds m base limit bs)
    (hlimit : limit ≤ 2 ^ 32) (hk : 16 ≤ k) (hfit : firstFit 20 16 k bs = some (o, bs'))
    : ArenaHolds (takeBlock m (base + o) (20 + k)) base limit bs'
        ∧ SamePayloads base bs m (TanjaOS.takeBlock m (base + o) (20 + k)) := by
  obtain ⟨pre, b, post, rfl, rfl, hfree, hle, rfl⟩ := firstFit_split hfit
  have hsize : (mblock m (base + span 20 pre)).size = 20 + b.size := by rw [h.linked.header]
  unfold TanjaOS.takeBlock mblockBytes mallocAlign
  dsimp only
  rw [hsize]
  split
  . next hsplit =>
    rw [if_pos (by omega)]
    obtain ⟨hholds, hsame⟩ := h.split hlimit hfree hk (by omega)
    obtain ⟨hholds', hsame'⟩ := hholds.setFree false
    refine ⟨hholds', hsame.trans hsame' ?_⟩
    have hspan : span 20 [⟨k, true⟩, ⟨b.size - k - 20, true⟩] = span 20 [b] := by
      simp only [span]
      omega
    exact live_splice [b] [⟨k, true⟩, ⟨b.size - k - 20, true⟩] hspan (by
      simp [live, hfree])
  . next hwhole =>
    rw [if_neg (by omega)]
    exact h.setFree false

theorem absorbNext (h : ArenaHolds m base limit (pre ++ b :: post)) (hbase : 0 < base)
    (hlimit : limit ≤ 2 ^ 32) (hfree : b.free = true) (hsep : Separated post)
    : ∃ b' post', b'.free = true ∧ ArenaHolds (absorbNext m (base + span 20 pre)) base limit
          (pre ++ b' :: post')
        ∧ Separated (b' :: post')
        ∧ live 20 base (pre ++ b' :: post') = live 20 base (pre ++ b :: post)
        ∧ SamePayloads base (pre ++ b :: post) m (TanjaOS.absorbNext m (base + span 20 pre)) := by
  have hb := h.linked.header
  have hnext : (mblock m (base + span 20 pre)).next
      = if base + span 20 pre + 20 + b.size = limit then 0 else base + span 20 pre + 20 + b.size := by
    rw [hb]
  unfold TanjaOS.absorbNext
  dsimp only
  rw [hnext]
  cases post with
  | nil =>
    rw [if_pos (h.end_eq.mpr rfl), if_neg (by simp)]
    exact ⟨b, [], hfree, h, List.isChain_singleton b, rfl, fun _ _ _ _ _ => rfl⟩
  | cons n post =>
    have hlink := h.linked
    have happ : pre ++ b :: n :: post = (pre ++ [b]) ++ n :: post := by simp
    have haddr : base + span 20 (pre ++ [b]) = base + span 20 pre + 20 + b.size := by
      simp only [span_append, span]
      omega
    rw [happ] at hlink
    have hn := hlink.header
    rw [haddr] at hn
    rw [if_neg (fun heq => List.cons_ne_nil n post (h.end_eq.mp heq)), hn]
    dsimp only
    unfold Separated at hsep
    rw [List.isChain_cons] at hsep
    split
    . next hmerge =>
      have hnfree : n.free = true := by
        cases hf : n.free
        . simp [hf] at hmerge
        . rfl
      obtain ⟨hholds, hsame⟩ := h.absorb hbase hlimit
      refine ⟨⟨b.size + 20 + n.size, b.free⟩, post, hfree, hholds, ?_, ?_, hsame⟩
      . unfold Separated
        rw [List.isChain_cons]
        refine ⟨?_, hsep.2⟩
        intro c hc hand
        exact hsep.1 c hc ⟨hnfree, hand.2⟩
      . refine live_splice [b, n] [⟨b.size + 20 + n.size, b.free⟩] ?_ ?_
        . simp only [span]
          omega
        . simp [live, hfree, hnfree]
    . next hkeep =>
      refine ⟨b, n :: post, hfree, h, ?_, rfl, fun _ _ _ _ _ => rfl⟩
      unfold Separated
      rw [List.isChain_cons, List.isChain_cons]
      refine ⟨?_, hsep⟩
      rintro c hc ⟨_, hcfree⟩
      rw [List.head?_cons, Option.mem_some_iff] at hc
      rw [← hc] at hcfree
      apply hkeep
      rw [hcfree]
      exact ⟨by omega, by decide⟩

theorem absorbIntoPrev (h : ArenaHolds m base limit (pre ++ b :: post)) (hbase : 0 < base)
    (hlimit : limit ≤ 2 ^ 32) (hfree : b.free = true) (hsep : Separated pre)
    (hsep' : Separated (b :: post))
    : ∃ bs, ArenaHolds (absorbIntoPrev m (base + span 20 pre)) base limit bs ∧ Separated bs
        ∧ live 20 base bs = live 20 base (pre ++ b :: post)
        ∧ SamePayloads base (pre ++ b :: post) m (TanjaOS.absorbIntoPrev m (base + span 20 pre)) := by
  have hb := h.linked.header
  unfold TanjaOS.absorbIntoPrev
  dsimp only
  rw [hb]
  dsimp only
  unfold Separated at *
  obtain rfl | ⟨pre, q, rfl⟩ := List.eq_nil_or_concat pre
  . rw [if_neg (by simp [lastFrom])]
    exact ⟨_, h, hsep', rfl, fun _ _ _ _ _ => rfl⟩
  . have happ : (pre ++ [q]) ++ b :: post = pre ++ q :: b :: post := by simp
    have haddr : base + span 20 (pre ++ [q]) = base + span 20 pre + 20 + q.size := by
      simp only [span_append, span]
      omega
    rw [List.concat_eq_append] at *
    rw [happ] at h
    have hq := h.linked.header
    rw [lastFrom_append, hq, haddr, happ]
    dsimp only
    rw [List.isChain_append] at hsep
    rw [List.isChain_cons] at hsep'
    split
    . next hmerge =>
      have hqfree : q.free = true := by
        cases hf : q.free
        . simp [hf] at hmerge
        . rfl
      obtain ⟨hholds, hsame⟩ := h.absorb hbase hlimit
      refine ⟨_, hholds, ?_, ?_, hsame⟩
      . rw [List.isChain_append, List.isChain_cons]
        refine ⟨hsep.1, ⟨?_, hsep'.2⟩, ?_⟩
        . intro c hc hand
          exact hsep'.1 c hc ⟨hfree, hand.2⟩
        . intro c hc d hd hand
          exact hsep.2.2 c hc q rfl ⟨hand.1, hqfree⟩
      . refine live_splice [q, b] [⟨q.size + 20 + b.size, q.free⟩] ?_ ?_
        . simp only [span]
          omega
        . simp [live, hfree, hqfree]
    . next hkeep =>
      refine ⟨_, h, ?_, rfl, fun _ _ _ _ _ => rfl⟩
      rw [List.isChain_append, List.isChain_cons, List.isChain_cons]
      refine ⟨hsep.1, ⟨?_, hsep'⟩, ?_⟩
      . rintro c hc ⟨hqfree, _⟩
        apply hkeep
        rw [hqfree]
        exact ⟨by omega, by decide⟩
      . intro c hc d hd
        rw [List.head?_cons, Option.mem_some_iff] at hd
        rw [← hd]
        exact hsep.2.2 c hc q rfl

end ArenaHolds

end TanjaOS
