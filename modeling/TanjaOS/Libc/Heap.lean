import TanjaOS.Libc.Blocks
import TanjaOS.Lib.Run

/-!
Sequences of `malloc`, `calloc`, `realloc` and `free` calls, between which the program stores bytes
into what it has been given.
-/

open Lib
open Lib.Tiling

namespace TanjaOS

/--
From `malloc_head` on the blocks `bs` tile the arena, no two neighbours are both free.
-/
structure HeapBlocks (st : MallocState) (bs : List Block) : Prop where
  ready : st.mallocReady = 1
  head : st.mallocHead = st.mallocArena
  holds : ArenaHolds st.mem st.mallocArena (st.mallocArena + st.mallocArenaBytes) bs
  separated : Separated bs

structure ArenaFits (st : MallocState) : Prop where
  base : 0 < st.mallocArena
  bytes : 4096 ≤ st.mallocArenaBytes
  limit : st.mallocArena + st.mallocArenaBytes ≤ 2 ^ 32

structure SameArena (st st' : MallocState) : Prop where
  arena : st'.mallocArena = st.mallocArena
  bytes : st'.mallocArenaBytes = st.mallocArenaBytes

/--
The arena has been set up and no free block is as large as `malloc_round(n)`.
-/
def HeapFull (st : MallocState) (n : Nat) : Prop :=
  ∃ bs, HeapBlocks st bs ∧ ∀ b ∈ bs, b.free = true → 20 + b.size < mallocRound n

section Calls

variable {st st' : MallocState} {bs : List Block}

theorem ArenaFits.same (h : ArenaFits st) (hsame : SameArena st st') : ArenaFits st' where
  base := by
    rw [hsame.arena]
    exact h.base
  bytes := by
    rw [hsame.bytes]
    exact h.bytes
  limit := by
    rw [hsame.arena, hsame.bytes]
    exact h.limit

theorem mallocInit_blocks (h : ArenaFits st)
    : HeapBlocks (mallocInit st) [⟨st.mallocArenaBytes - 20, true⟩] ∧ SameArena st (mallocInit st) := by
  have hbase := h.base
  have hbytes := h.bytes
  have hlimit := h.limit
  unfold mallocInit
  rw [if_neg (by omega)]
  refine ⟨⟨rfl, rfl, ⟨⟨?_, trivial⟩, ?_, ?_⟩, List.isChain_singleton _⟩, ⟨rfl, rfl⟩⟩
  . dsimp only
    rw [mblock_setFree (by decide), mblock_setPrev (by decide), mblock_setNext (by decide),
      mblock_setSize (by omega), mblock_setMagic (by decide), if_pos (by omega)]
    dsimp only
    congr 1
    omega
  . simp only [span]
    omega
  . intro b hb
    rw [List.mem_singleton] at hb
    rw [hb]
    dsimp only
    omega

theorem malloc_init (h : ArenaFits st) (hready : st.mallocReady = 0) (n : Nat)
    : malloc st n = malloc (mallocInit st) n := by
  have hone : (mallocInit st).mallocReady = 1 := (mallocInit_blocks h).1.ready
  unfold malloc
  rw [if_pos hready, if_neg (by rw [hone]; decide)]

theorem firstFree_blocks (h : HeapBlocks st bs) (hfits : ArenaFits st) (k : Nat)
    : firstFree st.mem (20 + k) (st.mallocArenaBytes + 1) st.mallocHead
        = some ((firstFit 20 16 k bs).map (fun r => st.mallocArena + r.1)) := by
  have hspan := h.holds.span_eq
  have hlen := length_le_span bs
  have hbytes := hfits.bytes
  have := firstFree_eq (k := k) h.holds.linked hspan hfits.base
    (show bs.length < st.mallocArenaBytes + 1 by omega)
  rw [if_neg (by omega)] at this
  rw [h.head]
  exact this

theorem malloc_spec (h : HeapBlocks st bs) (hfits : ArenaFits st) {n : Nat} (hn : n + 35 < 2 ^ 32)
    : (malloc st n = some (0, st) ∧ HeapFull st n)
        ∨ ∃ p st' bs' size, malloc st n = some (p, st') ∧ p ≠ 0 ∧ n ≤ size ∧ HeapBlocks st' bs'
          ∧ SameArena st st' ∧ (p, size) ∉ live 20 st.mallocArena bs
          ∧ (∀ x, x ∈ live 20 st.mallocArena bs' ↔ x = (p, size) ∨ x ∈ live 20 st.mallocArena bs)
          ∧ SamePayloads st.mallocArena bs st.mem st'.mem := by
  obtain ⟨k, hround, hle, hk⟩ := mallocRound_eq hn
  have hready : ¬st.mallocReady = 0 := by
    rw [h.ready]
    decide
  unfold malloc
  rw [if_neg hready]
  dsimp only
  rw [hround]
  have hfind := firstFree_blocks h hfits k
  cases hfit : firstFit 20 16 k bs with
  | none =>
    left
    rw [hfit] at hfind
    rw [hfind]
    refine ⟨rfl, bs, h, ?_⟩
    intro b hb hfree
    rw [firstFit_eq_none_iff] at hfit
    have := hfit b hb hfree
    rw [hround]
    omega
  | some r =>
    right
    obtain ⟨o, bs'⟩ := r
    rw [hfit] at hfind
    rw [hfind]
    obtain ⟨hholds, hsame⟩ := h.holds.takeBlock hfits.limit hk hfit
    obtain ⟨size, hsize, hnot, hiff⟩ := mem_live_firstFit st.mallocArena (by decide) hfit
    exact ⟨_, _, bs', size, rfl, by simp [mblockBytes], by omega, ⟨h.ready, h.head, hholds,
      separated_firstFit hfit h.separated⟩, ⟨rfl, rfl⟩, hnot, hiff, hsame⟩

theorem free_spec {p size : Nat} (h : HeapBlocks st bs) (hfits : ArenaFits st)
    (hp : (p, size) ∈ live 20 st.mallocArena bs)
    : ∃ bs', HeapBlocks (free st p) bs' ∧ SameArena st (free st p)
        ∧ (∀ x, x ∈ live 20 st.mallocArena bs' ↔ x ∈ live 20 st.mallocArena bs ∧ x.1 ≠ p)
        ∧ ∀ x ∈ live 20 st.mallocArena bs, x.1 ≠ p → ∀ i, x.1 ≤ i → i < x.1 + x.2 →
          (free st p).mem i = st.mem i := by
  have hbase := hfits.base
  obtain ⟨pre, b, post, rfl, hused, hpb⟩ := mem_live_split hp
  rw [Prod.mk.injEq] at hpb
  obtain ⟨rfl, rfl⟩ := hpb
  have hb := h.holds.linked.header
  have hsep := h.separated
  unfold Separated at hsep
  rw [List.isChain_append, List.isChain_cons] at hsep
  obtain ⟨hholds, hsame⟩ := h.holds.setFree true
  rw [Bool.toNat_true] at hholds hsame
  obtain ⟨b', post', hbfree, hholds', hsep', hlive', hsame'⟩ :=
    hholds.absorbNext hbase hfits.limit rfl hsep.2.1.2
  obtain ⟨bs', hholds'', hsep'', hlive'', hsame''⟩ :=
    hholds'.absorbIntoPrev hbase hfits.limit hbfree hsep.1 hsep'
  have haddr : st.mallocArena + span 20 pre + 20 - mblockBytes = st.mallocArena + span 20 pre := by
    unfold mblockBytes
    omega
  have hfree : free st (st.mallocArena + span 20 pre + 20)
      = { st with mem := absorbIntoPrev (absorbNext (setFree st.mem (st.mallocArena + span 20 pre) 1)
            (st.mallocArena + span 20 pre)) (st.mallocArena + span 20 pre) } := by
    unfold free
    dsimp only
    rw [if_neg (by omega), haddr, hb, hused, if_neg (by simp), if_neg (by simp)]
  rw [hfree]
  have hmem : ∀ x, x ∈ live 20 st.mallocArena (pre ++ ⟨b.size, true⟩ :: post)
      ↔ x ∈ live 20 st.mallocArena (pre ++ b :: post) ∧ x.1 ≠ st.mallocArena + span 20 pre + 20 := by
    intro x
    simp only [live_append, List.mem_append, live, ↓reduceIte, hused, Bool.false_eq_true, List.mem_cons]
    constructor
    . rintro (hx | hx)
      . have := mem_live_bounds hx
        have := (live_pairwise st.mallocArena pre).2 x hx
        refine ⟨.inl hx, ?_⟩
        intro heq
        omega
      . have := mem_live_bounds hx
        refine ⟨.inr (.inr hx), ?_⟩
        omega
    . rintro ⟨hx | hx | hx, hne⟩
      . exact .inl hx
      . rw [hx] at hne
        exact absurd rfl hne
      . exact .inr hx
  refine ⟨bs', ⟨h.ready, h.head, hholds'', hsep''⟩, ⟨rfl, rfl⟩, ?_, ?_⟩
  . intro x
    rw [hlive'', hlive']
    exact hmem x
  . intro x hx hne i hi hi'
    have hx' := (hmem x).mpr ⟨hx, hne⟩
    have h₁ := hsame x hx i hi hi'
    have h₂ := hsame' x hx' i hi hi'
    have h₃ := hsame'' x (by rw [hlive']; exact hx') i hi hi'
    dsimp only
    rw [h₃, h₂, h₁]

theorem live_unique {off p size size' : Nat} (h : (p, size) ∈ live 20 off bs)
    (h' : (p, size') ∈ live 20 off bs)
    : size = size' := by
  obtain heq | hlt | hlt := mem_live_disjoint h h'
  . exact (Prod.mk.injEq _ _ _ _ ▸ heq).2
  . dsimp only at hlt
    omega
  . dsimp only at hlt
    omega

theorem linked_store {m m' : Mem} {limit prev a : Nat} {x : Nat × Nat}
    (h : LinkedFrom m limit prev a bs) (hx : x ∈ live 20 a bs)
    (heq : ∀ i, i < x.1 ∨ x.1 + x.2 ≤ i → m' i = m i)
    : LinkedFrom m' limit prev a bs := by
  induction bs generalizing prev a with
  | nil => trivial
  | cons b bs ih =>
    have hbound := mem_live_bounds hx
    refine ⟨?_, ?_⟩
    . rw [← h.1]
      apply mblock_congr
      intro i _ _
      apply heq
      omega
    . simp only [live] at hx
      split at hx
      . exact ih h.2 hx
      . rw [List.mem_cons] at hx
        obtain rfl | hx := hx
        . apply h.2.congr
          intro i _ _
          apply heq
          dsimp only
          omega
        . exact ih h.2 hx

theorem HeapBlocks.store {x : Nat × Nat} (h : HeapBlocks st bs) (a : Nat) (data : Bytes)
    (hx : x ∈ live 20 st.mallocArena bs) (hle : x.1 ≤ a) (hend : a + data.length ≤ x.1 + x.2)
    : HeapBlocks { st with mem := st.mem.writeBytes a data } bs
        ∧ ∀ y ∈ live 20 st.mallocArena bs, y.1 ≠ x.1 → ∀ i, y.1 ≤ i → i < y.1 + y.2 →
          st.mem.writeBytes a data i = st.mem i := by
  have hout : ∀ i, i < x.1 ∨ x.1 + x.2 ≤ i → st.mem.writeBytes a data i = st.mem i := by
    intro i hi
    obtain hi | hi := hi
    . exact Mem.writeBytes_of_lt data (by omega)
    . exact Mem.writeBytes_of_ge data (by omega)
  refine ⟨⟨h.ready, h.head, ⟨linked_store h.holds.linked hx hout, h.holds.span_eq, h.holds.big⟩,
    h.separated⟩, ?_⟩
  intro y hy hne i hi hi'
  apply hout
  obtain heq | hlt | hlt := mem_live_disjoint hy hx
  . exact absurd (congrArg Prod.fst heq) hne
  . omega
  . omega

/--
What `realloc` does with a pointer that is allocated.
-/
inductive Reallocated (st : MallocState) (bs : List Block) (p size n : Nat)
    : Nat → MallocState → Prop where
  | failed (hroom : HeapFull st n) : Reallocated st bs p size n 0 st
  | moved {q : Nat} {st' : MallocState} (bs' : List Block) (size' : Nat) (hq : q ≠ 0)
    (hblocks : HeapBlocks st' bs') (harena : SameArena st st') (hle : n ≤ size')
    (hfresh : q ≠ p → ∀ s, (q, s) ∉ live 20 st.mallocArena bs)
    (hlive : ∀ x, x ∈ live 20 st.mallocArena bs'
      ↔ x = (q, size') ∨ x ∈ live 20 st.mallocArena bs ∧ x.1 ≠ p)
    (hsame : ∀ x ∈ live 20 st.mallocArena bs, x.1 ≠ p → ∀ i, x.1 ≤ i → i < x.1 + x.2 →
      st'.mem i = st.mem i)
    (hbytes : ∀ i, i < min size n → st'.mem (q + i) = st.mem (p + i))
    : Reallocated st bs p size n q st'

theorem mem_live_grow {off : Nat} {pre post : List Block} {b n : Block} (hb : b.free = false)
    (hn : n.free = true) (x : Nat × Nat)
    : x ∈ live 20 off (pre ++ ⟨b.size + 20 + n.size, b.free⟩ :: post)
        ↔ x = (off + span 20 pre + 20, b.size + 20 + n.size)
          ∨ x ∈ live 20 off (pre ++ b :: n :: post) ∧ x.1 ≠ off + span 20 pre + 20 := by
  have hend : off + span 20 pre + 20 + (b.size + 20 + n.size)
      = off + span 20 pre + 20 + b.size + 20 + n.size := by omega
  have hbefore : x ∈ live 20 off pre → x.1 ≠ off + span 20 pre + 20 := by
    intro hx
    have := mem_live_bounds hx
    omega
  have hafter : x ∈ live 20 (off + span 20 pre + 20 + b.size + 20 + n.size) post →
      x.1 ≠ off + span 20 pre + 20 := by
    intro hx
    have := mem_live_bounds hx
    omega
  have hown : x = (off + span 20 pre + 20, b.size) → x.1 = off + span 20 pre + 20 := by
    rintro rfl
    rfl
  simp only [live_append, List.mem_append, live, hb, hn, ↓reduceIte, Bool.false_eq_true,
    List.mem_cons, hend]
  tauto

theorem separated_grow {pre post : List Block} {b n : Block} (size : Nat)
    (h : Separated (pre ++ b :: n :: post)) (hb : b.free = false)
    : Separated (pre ++ ⟨size, b.free⟩ :: post) := by
  unfold Separated at h ⊢
  rw [List.isChain_append, List.isChain_cons, List.isChain_cons] at h
  rw [List.isChain_append, List.isChain_cons]
  refine ⟨h.1, ⟨?_, h.2.1.2.2⟩, ?_⟩
  . rintro d _ ⟨hbad, _⟩
    rw [hb] at hbad
    contradiction
  . intro d _ e he
    rw [List.head?_cons, Option.mem_some_iff] at he
    rw [← he]
    rintro ⟨_, hbad⟩
    rw [hb] at hbad
    contradiction

namespace Reallocated

variable {p q size n : Nat}

theorem kept (h : HeapBlocks st bs) (hp : (p, size) ∈ live 20 st.mallocArena bs) (hpos : p ≠ 0)
    (hle : n ≤ size)
    : Reallocated st bs p size n p st := by
  refine .moved bs size hpos h ⟨rfl, rfl⟩ hle (fun hne => absurd rfl hne) ?_ (fun _ _ _ _ _ _ => rfl)
    (fun _ _ => rfl)
  intro x
  constructor
  . intro hx
    by_cases hne : x.1 = p
    . left
      have : (p, x.2) ∈ live 20 st.mallocArena bs := hne ▸ hx
      rw [live_unique hp this, ← hne]
    . exact .inr ⟨hx, hne⟩
  . rintro (rfl | ⟨hx, _⟩)
    . exact hp
    . exact hx

theorem grown {pre post : List Block} {b c : Block} (h : HeapBlocks st (pre ++ b :: c :: post))
    (hfits : ArenaFits st) (hb : b.free = false) (hc : c.free = true)
    (hp : (st.mallocArena + span 20 pre + 20, b.size)
      ∈ live 20 st.mallocArena (pre ++ b :: c :: post))
    (hle : n ≤ b.size + 20 + c.size)
    : Reallocated st (pre ++ b :: c :: post) (st.mallocArena + span 20 pre + 20) b.size n
        (st.mallocArena + span 20 pre + 20)
        { st with mem := (absorb st.mem (st.mallocArena + span 20 pre)
            (st.mallocArena + span 20 pre + 20 + b.size)) } := by
  obtain ⟨hholds, hsame⟩ := h.holds.absorb hfits.base hfits.limit
  refine .moved _ (b.size + 20 + c.size) (by omega)
    ⟨h.ready, h.head, hholds, separated_grow _ h.separated hb⟩ ⟨rfl, rfl⟩ hle
    (fun hne => absurd rfl hne) (mem_live_grow hb hc) (fun x hx _ => hsame x hx) ?_
  intro i hi
  exact hsame _ hp _ (Nat.le_add_right _ _) (by dsimp only; omega)

theorem copied {size' : Nat} {st₁ : MallocState} {bs₁ : List Block} (hfits : ArenaFits st)
    (hp : (p, size) ∈ live 20 st.mallocArena bs) (hsize : size < n) (hq : q ≠ 0) (hle : n ≤ size')
    (hblocks : HeapBlocks st₁ bs₁) (harena : SameArena st st₁)
    (hnot : (q, size') ∉ live 20 st.mallocArena bs)
    (hiff : ∀ x, x ∈ live 20 st.mallocArena bs₁ ↔ x = (q, size') ∨ x ∈ live 20 st.mallocArena bs)
    (hsame : SamePayloads st.mallocArena bs st.mem st₁.mem)
    : Reallocated st bs p size n q
        (free { st₁ with mem := st₁.mem.writeBytes q (st₁.mem.readBytes p size) } p) := by
  have hqlive := (hiff (q, size')).mpr (.inl rfl)
  have hplive := (hiff (p, size)).mpr (.inr hp)
  rw [← harena.arena] at hqlive hplive
  have hqp : q ≠ p := by
    rintro rfl
    rw [live_unique hqlive hplive] at hnot
    exact hnot hp
  obtain ⟨hblocks₂, hsame₂⟩ := hblocks.store q (st₁.mem.readBytes p size) hqlive
    (Nat.le_refl q) (by rw [Mem.length_readBytes]; dsimp only; omega)
  obtain ⟨bs₃, hblocks₃, harena₃, hiff₃, hsame₃⟩ :=
    free_spec hblocks₂ (hfits.same ⟨harena.arena, harena.bytes⟩) hplive
  dsimp only at hiff₃ hsame₃
  rw [harena.arena] at hiff₃ hsame₂ hqlive
  refine .moved bs₃ size' hq hblocks₃ ⟨harena₃.arena.trans harena.arena,
    harena₃.bytes.trans harena.bytes⟩ hle ?_ ?_ ?_ ?_
  . intro _ s hs
    rw [live_unique hqlive ((hiff (q, s)).mpr (.inr hs))] at hnot
    exact hnot hs
  . intro x
    rw [hiff₃, hiff]
    constructor
    . rintro ⟨rfl | hx, hne⟩
      . exact .inl rfl
      . exact .inr ⟨hx, hne⟩
    . rintro (rfl | ⟨hx, hne⟩)
      . exact ⟨.inl rfl, hqp⟩
      . exact ⟨.inr hx, hne⟩
  . intro x hx hne i hi hi'
    have hx₁ := (hiff x).mpr (.inr hx)
    have hxq : x.1 ≠ q := by
      intro heq
      have hxlive : (q, x.2) ∈ live 20 st.mallocArena bs₁ := heq ▸ hx₁
      rw [← live_unique hxlive hqlive, ← heq] at hnot
      exact hnot hx
    rw [hsame₃ x (by rw [harena.arena]; exact hx₁) hne i hi hi', hsame₂ x hx₁ hxq i hi hi',
      hsame x hx i hi hi']
  . intro i hi
    rw [hsame₃ (q, size') (by rw [harena.arena]; exact hqlive) hqp (q + i) (Nat.le_add_right _ _)
      (by dsimp only; omega)]
    rw [Mem.writeBytes_of_mem _ (by rw [Mem.length_readBytes]; omega)]
    have hget := Mem.getElem?_readBytes (m := st₁.mem) p size i
    rw [if_pos (by omega), List.getElem?_eq_getElem (by rw [Mem.length_readBytes]; omega),
      Option.some.injEq] at hget
    rw [hget]
    exact hsame _ hp _ (Nat.le_add_right _ _) (by dsimp only; omega)

end Reallocated

theorem realloc_spec {p size n : Nat} (h : HeapBlocks st bs) (hfits : ArenaFits st)
    (hp : (p, size) ∈ live 20 st.mallocArena bs) (hpos : n ≠ 0) (hn : n + 35 < 2 ^ 32)
    : ∃ q st', realloc st p n = some (q, st') ∧ Reallocated st bs p size n q st' := by
  obtain ⟨pre, b, post, rfl, hused, hpb⟩ := mem_live_split hp
  rw [Prod.mk.injEq] at hpb
  obtain ⟨rfl, rfl⟩ := hpb
  have hb := h.holds.linked.header
  have haddr : st.mallocArena + span 20 pre + 20 - mblockBytes = st.mallocArena + span 20 pre := by
    unfold mblockBytes
    omega
  have hhave : 20 + b.size - mblockBytes = b.size := by
    unfold mblockBytes
    omega
  unfold realloc
  rw [if_neg (by omega), if_neg hpos]
  dsimp only
  rw [haddr, hb]
  dsimp only
  generalize hnext : (if st.mallocArena + span 20 pre + 20 + b.size
      = st.mallocArena + st.mallocArenaBytes then 0
    else st.mallocArena + span 20 pre + 20 + b.size) = next
  rw [if_neg (by simp), hhave]
  split
  . next hle => exact ⟨_, _, rfl, .kept h hp (by omega) hle⟩
  . next hgrow =>
    split
    . next hmerge =>
      obtain ⟨hne, hfree, hroom⟩ := hmerge
      have hstop : ¬st.mallocArena + span 20 pre + 20 + b.size
          = st.mallocArena + st.mallocArenaBytes := by
        intro heq
        rw [if_pos heq] at hnext
        exact hne hnext.symm
      rw [if_neg hstop] at hnext
      rw [← hnext] at hfree hroom ⊢
      cases post with
      | nil => exact absurd (h.holds.end_eq.mpr rfl) hstop
      | cons c post =>
        have hlink := h.holds.linked
        have happ : pre ++ b :: c :: post = (pre ++ [b]) ++ c :: post := by simp
        rw [happ] at hlink
        have hc := hlink.header
        have hcaddr : st.mallocArena + span 20 (pre ++ [b])
            = st.mallocArena + span 20 pre + 20 + b.size := by
          simp only [span_append, span]
          omega
        rw [hcaddr] at hc
        rw [hc] at hfree hroom
        dsimp only at hfree hroom
        have hcfree : c.free = true := by
          cases hf : c.free
          . simp [hf] at hfree
          . rfl
        obtain ⟨k, hround, hle, _⟩ := mallocRound_eq hn
        have henough : n ≤ b.size + 20 + c.size := by omega
        exact ⟨_, _, rfl, .grown h hfits hused hcfree hp henough⟩
    . obtain ⟨hnull, hroom⟩ | ⟨q, st₁, bs₁, size', hq, hqne, hle, hblocks, harena, hnot, hiff, hsame⟩ :=
        malloc_spec h hfits hn
      . rw [hnull]
        exact ⟨0, st, rfl, .failed hroom⟩
      . rw [hq]
        dsimp only
        rw [if_neg hqne]
        exact ⟨_, _, rfl, .copied hfits hp (by omega) hqne hle hblocks harena hnot hiff hsame⟩

end Calls

/--
The heap, and the pointers that the program has been given and has not given back, with the number
of bytes that it has asked for.
-/
structure LibcHeap where
  st : MallocState
  given : List (Nat × Nat)

inductive HeapCall where
  | malloc (n : Nat)
  | calloc (nmemb size : Nat)
  | realloc (p n : Nat)
  | free (p : Nat)
  /-- The program writes into its own memory. -/
  | store (a : Nat) (data : Bytes)

namespace LibcHeap

def start (mem : Mem) (base bytes : Nat) : LibcHeap :=
  ⟨mallocSetArena mem base bytes, []⟩

/--
Without the pointer `p`.
-/
def without (given : List (Nat × Nat)) (p : Nat) : List (Nat × Nat) :=
  given.filter (fun x => x.1 ≠ p)

def give (given : List (Nat × Nat)) (p n : Nat) : List (Nat × Nat) :=
  if p = 0 then given else (p, n) :: given

/--
One call, `none` if it does not return.
-/
def step (h : LibcHeap) : HeapCall → Option (Nat × LibcHeap)
  | .malloc n => (malloc h.st n).map (fun r => (r.1, ⟨r.2, give h.given r.1 n⟩))
  | .calloc nmemb size =>
    (calloc h.st nmemb size).map (fun r => (r.1, ⟨r.2, give h.given r.1 (nmemb * size)⟩))
  | .realloc p n =>
    (realloc h.st p n).map (fun r =>
      (r.1, ⟨r.2, if r.1 = 0 ∧ n ≠ 0 then h.given else give (without h.given p) r.1 n⟩))
  | .free p => some (0, ⟨TanjaOS.free h.st p, without h.given p⟩)
  | .store a data => some (0, ⟨{ h.st with mem := h.st.mem.writeBytes a data }, h.given⟩)

/--
Requests are not too large, and pointers are null or have been given to the program.
-/
def Proper (h : LibcHeap) : HeapCall → Prop
  | .malloc n => n ≤ 2 ^ 31
  | .calloc nmemb size => nmemb * size ≤ 2 ^ 31
  | .realloc p n => n ≤ 2 ^ 31 ∧ (p = 0 ∨ ∃ size, (p, size) ∈ h.given)
  | .free p => p = 0 ∨ ∃ size, (p, size) ∈ h.given
  | .store a data => ∃ x ∈ h.given, x.1 ≤ a ∧ a + data.length ≤ x.1 + x.2

/--
The same for all requests that `malloc_round` can round up.
-/
def Rounded (h : LibcHeap) : HeapCall → Prop
  | .malloc n => n + 35 < 2 ^ 32
  | .calloc nmemb size => nmemb * size + 35 < 2 ^ 32
  | .realloc p n => n + 35 < 2 ^ 32 ∧ (p = 0 ∨ ∃ size, (p, size) ∈ h.given)
  | .free p => p = 0 ∨ ∃ size, (p, size) ∈ h.given
  | .store a data => ∃ x ∈ h.given, x.1 ≤ a ∧ a + data.length ≤ x.1 + x.2

theorem Proper.rounded {h : LibcHeap} {c : HeapCall} (hproper : h.Proper c) : h.Rounded c := by
  cases c with
  | malloc n =>
    have hn : n ≤ 2 ^ 31 := hproper
    show n + 35 < 2 ^ 32
    omega
  | calloc nmemb size =>
    have hn : nmemb * size ≤ 2 ^ 31 := hproper
    show nmemb * size + 35 < 2 ^ 32
    omega
  | realloc p n =>
    have hn : n ≤ 2 ^ 31 := hproper.1
    exact ⟨by omega, hproper.2⟩
  | free p => exact hproper
  | store a data => exact hproper

end LibcHeap

/--
What the program has been given are payloads of their own that are as large as requested, and no
other block is taken.
-/
structure PayloadsOf (off : Nat) (bs : List Block) (given : List (Nat × Nat)) : Prop where
  nodup : (given.map Prod.fst).Nodup
  payload : ∀ x ∈ given, ∃ size, x.2 ≤ size ∧ (x.1, size) ∈ live 20 off bs
  taken : ∀ x ∈ live 20 off bs, ∃ n, (x.1, n) ∈ given

/--
The blocks are linked, and what the program has been given are payloads of theirs.
-/
def HeapLinked (h : LibcHeap) : Prop :=
  ∃ bs, HeapBlocks h.st bs ∧ PayloadsOf h.st.mallocArena bs h.given

/--
Before the first call that allocates nothing is linked and nothing has been given.
-/
def HeapOk (h : LibcHeap) : Prop :=
  (h.st.mallocReady = 0 ∧ h.st.mallocHead = 0 ∧ h.given = []) ∨ HeapLinked h

def HeapCall.Allocates : HeapCall → Prop
  | .malloc _ | .calloc _ _ | .realloc _ _ => True
  | .free _ | .store _ _ => False

/--
The payloads of all blocks other than that of `p` are the same.
-/
def KeepsOthers (h h' : LibcHeap) (p : Nat) : Prop :=
  ∀ bs, HeapBlocks h.st bs → ∀ x ∈ live 20 h.st.mallocArena bs, x.1 ≠ p →
    ∀ i, x.1 ≤ i → i < x.1 + x.2 → h'.st.mem i = h.st.mem i

/--
What a call that returns `r` guarantees.
-/
def HeapDelivers (h : LibcHeap) (c : HeapCall) (r : Nat) (h' : LibcHeap) : Prop :=
  match c with
  | .malloc n => KeepsOthers h h' 0 ∧ (r = 0 → HeapFull h'.st n)
  | .calloc nmemb size =>
    KeepsOthers h h' 0 ∧ (r = 0 → HeapFull h'.st (nmemb * size))
      ∧ (r ≠ 0 → ∀ i, i < nmemb * size → h'.st.mem (r + i) = 0)
  | .realloc p n =>
    KeepsOthers h h' p ∧ (r = 0 → p ≠ 0 ∧ n = 0 ∨ KeepsOthers h h' 0 ∧ HeapFull h'.st n)
      ∧ (r ≠ 0 → ∀ size, (p, size) ∈ h.given → ∀ i, i < min size n →
        h'.st.mem (r + i) = h.st.mem (p + i))
  | .free p => KeepsOthers h h' p
  | .store _ _ => True

namespace PayloadsOf

variable {off : Nat} {bs bs' : List Block} {given : List (Nat × Nat)} {p q n size : Nat}

theorem without_zero (h : PayloadsOf off bs given) : LibcHeap.without given 0 = given := by
  unfold LibcHeap.without
  rw [List.filter_eq_self]
  intro x hx
  obtain ⟨size, _, hlive⟩ := h.payload x hx
  have := mem_live_bounds hlive
  dsimp only at this
  rw [decide_eq_true_eq]
  omega

theorem without (h : PayloadsOf off bs given)
    (hlive : ∀ x, x ∈ live 20 off bs' ↔ x ∈ live 20 off bs ∧ x.1 ≠ p)
    : PayloadsOf off bs' (LibcHeap.without given p) where
  nodup := by
    unfold LibcHeap.without
    exact h.nodup.sublist ((List.filter_sublist).map Prod.fst)
  payload := by
    intro x hx
    unfold LibcHeap.without at hx
    rw [List.mem_filter, decide_eq_true_eq] at hx
    obtain ⟨size, hle, hmem⟩ := h.payload x hx.1
    exact ⟨size, hle, (hlive _).mpr ⟨hmem, hx.2⟩⟩
  taken := by
    intro x hx
    rw [hlive] at hx
    obtain ⟨m, hm⟩ := h.taken x hx.1
    exact ⟨m, List.mem_filter.mpr ⟨hm, decide_eq_true hx.2⟩⟩

theorem moved (h : PayloadsOf off bs given) (hq : q ≠ 0)
    (hfresh : q ≠ p → ∀ s, (q, s) ∉ live 20 off bs) (hle : n ≤ size)
    (hlive : ∀ x, x ∈ live 20 off bs' ↔ x = (q, size) ∨ x ∈ live 20 off bs ∧ x.1 ≠ p)
    : PayloadsOf off bs' (LibcHeap.give (LibcHeap.without given p) q n) := by
  unfold LibcHeap.give LibcHeap.without
  rw [if_neg hq]
  refine ⟨?_, ?_, ?_⟩
  . rw [List.map_cons, List.nodup_cons]
    refine ⟨?_, h.nodup.sublist ((List.filter_sublist).map Prod.fst)⟩
    intro hin
    rw [List.mem_map] at hin
    obtain ⟨x, hx, hxq⟩ := hin
    rw [List.mem_filter, decide_eq_true_eq, hxq] at hx
    obtain ⟨old, _, hold⟩ := h.payload x hx.1
    rw [hxq] at hold
    exact hfresh hx.2 old hold
  . intro x hx
    rw [List.mem_cons, List.mem_filter, decide_eq_true_eq] at hx
    obtain rfl | ⟨hx, hne⟩ := hx
    . exact ⟨size, hle, (hlive _).mpr (.inl rfl)⟩
    . obtain ⟨old, hold, hmem⟩ := h.payload x hx
      exact ⟨old, hold, (hlive _).mpr (.inr ⟨hmem, hne⟩)⟩
  . intro x hx
    rw [hlive] at hx
    obtain rfl | ⟨hx, hne⟩ := hx
    . exact ⟨n, List.mem_cons_self⟩
    . obtain ⟨m, hm⟩ := h.taken x hx
      exact ⟨m, List.mem_cons_of_mem _ (List.mem_filter.mpr ⟨hm, decide_eq_true hne⟩)⟩

end PayloadsOf

theorem linked_unique {m : Mem} {limit prev prev' a : Nat} {bs bs' : List Block}
    (h : LinkedFrom m limit prev a bs) (h' : LinkedFrom m limit prev' a bs')
    (hend : a + span 20 bs = limit) (hend' : a + span 20 bs' = limit)
    : bs = bs' := by
  induction bs generalizing prev prev' a bs' with
  | nil =>
    cases bs' with
    | nil => rfl
    | cons b' bs' =>
      simp only [span] at hend hend'
      omega
  | cons b bs ih =>
    cases bs' with
    | nil =>
      simp only [span] at hend hend'
      omega
    | cons b' bs' =>
      have hhead := h.1.symm.trans h'.1
      rw [MBlock.mk.injEq] at hhead
      obtain ⟨_, hsize, _, _, hfree⟩ := hhead
      have hb : b = b' := by
        obtain ⟨size, free⟩ := b
        obtain ⟨size', free'⟩ := b'
        dsimp only at hsize hfree
        rw [Block.mk.injEq]
        refine ⟨by omega, ?_⟩
        cases free <;> cases free' <;> simp at hfree ⊢
      subst hb
      simp only [span] at hend hend'
      rw [ih h.2 h'.2 (by omega) (by omega)]

theorem HeapBlocks.unique {st : MallocState} {bs bs' : List Block} (h : HeapBlocks st bs)
    (h' : HeapBlocks st bs')
    : bs = bs' :=
  linked_unique h.holds.linked h'.holds.linked h.holds.span_eq h'.holds.span_eq

section Steps

variable {st : MallocState} {bs : List Block} {given : List (Nat × Nat)}

theorem malloc_blocks (h : HeapBlocks st bs) (hfits : ArenaFits st)
    (hcovers : PayloadsOf st.mallocArena bs given) {n : Nat} (hn : n + 35 < 2 ^ 32)
    : ∃ p st' bs', malloc st n = some (p, st') ∧ SameArena st st' ∧ HeapBlocks st' bs'
        ∧ PayloadsOf st.mallocArena bs' (LibcHeap.give given p n)
        ∧ SamePayloads st.mallocArena bs st.mem st'.mem
        ∧ (p = 0 → HeapFull st' n)
        ∧ (p ≠ 0 → ∃ size, n ≤ size ∧ (p, size) ∈ live 20 st.mallocArena bs'
          ∧ ∀ x ∈ live 20 st.mallocArena bs, x ∈ live 20 st.mallocArena bs' ∧ x.1 ≠ p) := by
  obtain ⟨hnull, hroom⟩ | ⟨p, st', bs', size, hp, hne, hle, hblocks, harena, hnot, hiff, hsame⟩ :=
    malloc_spec h hfits hn
  . refine ⟨0, st, bs, hnull, ⟨rfl, rfl⟩, h, hcovers, fun _ _ _ _ _ => rfl, fun _ => hroom, ?_⟩
    intro hne
    exact absurd rfl hne
  . have hlive := (hiff (p, size)).mpr (.inl rfl)
    have hfresh : ∀ s, (p, s) ∉ live 20 st.mallocArena bs := by
      intro s hs
      rw [live_unique hlive ((hiff (p, s)).mpr (.inr hs))] at hnot
      exact hnot hs
    have hgiven : PayloadsOf st.mallocArena bs' (LibcHeap.give (LibcHeap.without given 0) p n) := by
      apply hcovers.moved hne (fun _ => hfresh) hle
      intro x
      rw [hiff x, and_iff_left_of_imp]
      intro hx
      have := mem_live_bounds hx
      omega
    rw [hcovers.without_zero] at hgiven
    refine ⟨p, st', bs', hp, harena, hblocks, hgiven, hsame, fun heq => absurd heq hne,
      fun _ => ⟨size, hle, hlive, fun x hx => ⟨(hiff x).mpr (.inr hx), ?_⟩⟩⟩
    rintro rfl
    exact hfresh x.2 hx

theorem HeapOk.ready {h : LibcHeap} (hok : HeapOk h) (hfits : ArenaFits h.st)
    : ∃ st bs, (∀ n, malloc h.st n = malloc st n) ∧ SameArena h.st st ∧ HeapBlocks st bs
        ∧ PayloadsOf h.st.mallocArena bs h.given ∧ ∀ bs₀, HeapBlocks h.st bs₀ → st = h.st ∧ bs = bs₀ := by
  obtain ⟨hready, _, hgiven⟩ | ⟨bs, hblocks, hcovers⟩ := hok
  . obtain ⟨hinit, harena⟩ := mallocInit_blocks hfits
    refine ⟨_, _, malloc_init hfits hready, harena, hinit, ?_, ?_⟩
    . rw [hgiven]
      exact ⟨List.nodup_nil, fun x hx => absurd hx List.not_mem_nil,
        fun x hx => absurd hx List.not_mem_nil⟩
    . intro bs₀ h₀
      have := h₀.ready
      omega
  . exact ⟨h.st, bs, fun _ => rfl, ⟨rfl, rfl⟩, hblocks, hcovers, fun bs₀ h₀ => ⟨rfl, hblocks.unique h₀⟩⟩

variable {h : LibcHeap}

theorem malloc_step (hok : HeapOk h) (hfits : ArenaFits h.st) {n : Nat} (hn : n + 35 < 2 ^ 32)
    : ∃ p st', malloc h.st n = some (p, st') ∧ SameArena h.st st'
        ∧ HeapLinked ⟨st', LibcHeap.give h.given p n⟩ ∧ KeepsOthers h ⟨st', LibcHeap.give h.given p n⟩ 0
        ∧ (p = 0 → HeapFull st' n) := by
  obtain ⟨st₁, bs, hsame, harena, hblocks, hcovers, hst⟩ := hok.ready hfits
  rw [← harena.arena] at hcovers
  obtain ⟨p, st', bs', hp, harena', hblocks', hcovers', hkeeps, hroom, _⟩ :=
    malloc_blocks hblocks (hfits.same harena) hcovers hn
  refine ⟨p, st', (hsame n).trans hp, ⟨harena'.arena.trans harena.arena,
    harena'.bytes.trans harena.bytes⟩, ⟨bs', hblocks', ?_⟩, ?_, hroom⟩
  . dsimp only
    rw [harena'.arena]
    exact hcovers'
  . intro bs₀ h₀ x hx _
    obtain ⟨rfl, rfl⟩ := hst bs₀ h₀
    exact hkeeps x hx

theorem calloc_step (hok : HeapOk h) (hfits : ArenaFits h.st) {nmemb size : Nat}
    (hn : nmemb * size + 35 < 2 ^ 32)
    : ∃ p st', calloc h.st nmemb size = some (p, st') ∧ SameArena h.st st'
        ∧ HeapLinked ⟨st', LibcHeap.give h.given p (nmemb * size)⟩
        ∧ HeapDelivers h (.calloc nmemb size) p ⟨st', LibcHeap.give h.given p (nmemb * size)⟩ := by
  have hsmall : ¬(nmemb ≠ 0 ∧ 0xFFFFFFFF / nmemb < size) := by
    rintro ⟨hpos, hlt⟩
    rw [Nat.div_lt_iff_lt_mul (Nat.pos_of_ne_zero hpos), Nat.mul_comm] at hlt
    omega
  obtain ⟨st₁, bs, hsame, harena, hblocks, hcovers, hst⟩ := hok.ready hfits
  rw [← harena.arena] at hcovers
  obtain ⟨p, st', bs', hp, harena', hblocks', hcovers', hkeeps, hroom, hgiven⟩ :=
    malloc_blocks hblocks (hfits.same harena) hcovers hn
  unfold calloc
  rw [if_neg hsmall, hsame, hp]
  dsimp only
  have harena'' : SameArena h.st st' :=
    ⟨harena'.arena.trans harena.arena, harena'.bytes.trans harena.bytes⟩
  split
  . next hne =>
    obtain ⟨total, hle, hlive, hother⟩ := hgiven hne
    rw [← harena'.arena] at hlive
    obtain ⟨hstored, hframe⟩ := hblocks'.store p (List.replicate (nmemb * size) 0) hlive
      (Nat.le_refl p) (by rw [List.length_replicate]; dsimp only; omega)
    refine ⟨_, _, rfl, ⟨harena''.arena, harena''.bytes⟩, ⟨bs', hstored, ?_⟩, ?_,
      fun heq => absurd heq hne, ?_⟩
    . dsimp only
      rw [harena'.arena]
      exact hcovers'
    . intro bs₀ h₀ x hx _ i hi hi'
      obtain ⟨rfl, rfl⟩ := hst bs₀ h₀
      obtain ⟨hx', hxp⟩ := hother x hx
      dsimp only
      rw [hframe x (by rw [harena'.arena]; exact hx') hxp i hi hi']
      exact hkeeps x hx i hi hi'
    . intro _ i hi
      dsimp only
      rw [Mem.writeBytes_of_mem _ (by rw [List.length_replicate]; exact hi), List.getElem_replicate]
  . next hnull =>
    have hzero : p = 0 := by simpa using hnull
    refine ⟨_, _, rfl, harena'', ⟨bs', hblocks', ?_⟩, ?_, hroom, fun hne => absurd hzero hne⟩
    . dsimp only
      rw [harena'.arena]
      exact hcovers'
    . intro bs₀ h₀ x hx _
      obtain ⟨rfl, rfl⟩ := hst bs₀ h₀
      exact hkeeps x hx

theorem HeapOk.owns {p size : Nat} (hok : HeapOk h) (hp : (p, size) ∈ h.given)
    : ∃ bs total, HeapBlocks h.st bs ∧ PayloadsOf h.st.mallocArena bs h.given ∧ size ≤ total
        ∧ (p, total) ∈ live 20 h.st.mallocArena bs := by
  obtain ⟨_, _, hgiven⟩ | ⟨bs, hblocks, hcovers⟩ := hok
  . rw [hgiven] at hp
    contradiction
  . obtain ⟨total, hle, hlive⟩ := hcovers.payload _ hp
    exact ⟨bs, total, hblocks, hcovers, hle, hlive⟩

theorem HeapOk.without_zero (hok : HeapOk h) : LibcHeap.without h.given 0 = h.given := by
  obtain ⟨_, _, hgiven⟩ | ⟨_, _, hcovers⟩ := hok
  . rw [hgiven]
    rfl
  . exact hcovers.without_zero

theorem free_linked {p size : Nat} (hok : HeapOk h) (hfits : ArenaFits h.st) (hp : (p, size) ∈ h.given)
    : SameArena h.st (free h.st p) ∧ HeapLinked ⟨free h.st p, LibcHeap.without h.given p⟩
        ∧ KeepsOthers h ⟨free h.st p, LibcHeap.without h.given p⟩ p := by
  obtain ⟨bs, total, hblocks, hcovers, _, hlive⟩ := hok.owns hp
  obtain ⟨bs', hblocks', harena, hiff, hsame⟩ := free_spec hblocks hfits hlive
  refine ⟨harena, ⟨bs', hblocks', ?_⟩, ?_⟩
  . dsimp only
    rw [harena.arena]
    exact hcovers.without hiff
  . intro bs₀ h₀
    rw [h₀.unique hblocks]
    exact hsame

theorem free_step {p : Nat} (hok : HeapOk h) (hfits : ArenaFits h.st)
    (hp : p = 0 ∨ ∃ size, (p, size) ∈ h.given)
    : SameArena h.st (free h.st p) ∧ HeapOk ⟨free h.st p, LibcHeap.without h.given p⟩
        ∧ (HeapLinked h → HeapLinked ⟨free h.st p, LibcHeap.without h.given p⟩)
        ∧ KeepsOthers h ⟨free h.st p, LibcHeap.without h.given p⟩ p := by
  obtain rfl | ⟨size, hp⟩ := hp
  . have hfree : free h.st 0 = h.st := by
      unfold free
      rw [if_pos rfl]
    rw [hfree, hok.without_zero]
    exact ⟨⟨rfl, rfl⟩, hok, fun hlinked => hlinked, fun _ _ _ _ _ _ _ _ => rfl⟩
  . obtain ⟨harena, hlinked, hkeeps⟩ := free_linked hok hfits hp
    exact ⟨harena, .inr hlinked, fun _ => hlinked, hkeeps⟩

theorem realloc_step {p n : Nat} (hok : HeapOk h) (hfits : ArenaFits h.st) (hn : n + 35 < 2 ^ 32)
    (hp : p = 0 ∨ ∃ size, (p, size) ∈ h.given)
    : ∃ r h', h.step (.realloc p n) = some (r, h') ∧ SameArena h.st h'.st ∧ HeapLinked h'
        ∧ HeapDelivers h (.realloc p n) r h' := by
  by_cases hp₀ : p = 0
  . subst hp₀
    obtain ⟨r, st', hr, harena, hok', hkeeps, hroom⟩ := malloc_step hok hfits hn
    have hnone : ∀ size, (0, size) ∉ h.given := by
      intro size hsize
      obtain ⟨bs, total, _, _, _, hlive⟩ := hok.owns hsize
      have := mem_live_bounds hlive
      omega
    refine ⟨r, ⟨st', LibcHeap.give h.given r n⟩, ?_, harena, hok', hkeeps,
      fun heq => .inr ⟨hkeeps, hroom heq⟩, fun _ size hsize => absurd hsize (hnone size)⟩
    have hre : realloc h.st 0 n = malloc h.st n := by
      unfold realloc
      rw [if_pos rfl]
    unfold LibcHeap.step
    dsimp only
    rw [hre, hr, Option.map_some, hok.without_zero]
    dsimp only
    split
    . next hnull => simp [LibcHeap.give, hnull.1]
    . rfl
  . obtain ⟨size, hsize⟩ := hp.resolve_left hp₀
    by_cases hn₀ : n = 0
    . obtain ⟨harena, hok', hkeeps⟩ := free_linked hok hfits hsize
      refine ⟨0, ⟨free h.st p, LibcHeap.without h.given p⟩, ?_, harena, hok', hkeeps,
        fun _ => .inl ⟨hp₀, hn₀⟩, fun hne => absurd rfl hne⟩
      have hre : realloc h.st p n = some (0, free h.st p) := by
        unfold realloc
        rw [if_neg hp₀, if_pos hn₀]
      unfold LibcHeap.step
      dsimp only
      rw [hre]
      simp [LibcHeap.give, hn₀]
    . obtain ⟨bs, total, hblocks, hcovers, hle, hlive⟩ := hok.owns hsize
      obtain ⟨q, st', hq, hmoved⟩ := realloc_spec hblocks hfits hlive hn₀ hn
      have hstep : h.step (.realloc p n)
          = some (q, ⟨st', if q = 0 ∧ n ≠ 0 then h.given else LibcHeap.give (LibcHeap.without h.given p) q n⟩) := by
        unfold LibcHeap.step
        dsimp only
        rw [hq]
        rfl
      rw [hstep]
      cases hmoved with
      | failed hroom =>
        have hkeep : ∀ p given, KeepsOthers h ⟨h.st, given⟩ p := fun _ _ _ _ _ _ _ _ _ _ => rfl
        refine ⟨_, _, rfl, ⟨rfl, rfl⟩, ⟨bs, hblocks, ?_⟩, hkeep p _,
          fun _ => .inr ⟨hkeep 0 _, hroom⟩, fun hne => absurd rfl hne⟩
        dsimp only
        rw [if_pos ⟨rfl, hn₀⟩]
        exact hcovers
      | moved bs' size' hne hblocks' harena hlarge hfresh hiff hsame hbytes =>
        refine ⟨_, _, rfl, harena, ⟨bs', hblocks', ?_⟩, ?_, fun heq => absurd heq hne, ?_⟩
        . dsimp only
          rw [if_neg (fun hnull => hne hnull.1), harena.arena]
          exact hcovers.moved hne hfresh hlarge hiff
        . intro bs₀ h₀
          rw [h₀.unique hblocks]
          exact hsame
        . intro _ old hold i hi
          obtain ⟨total', hle', hlive'⟩ := hcovers.payload _ hold
          have htotal := live_unique hlive' hlive
          dsimp only at hle'
          exact hbytes i (by omega)

end Steps

theorem rounded_step {h : LibcHeap} {c : HeapCall} (hok : HeapOk h) (hfits : ArenaFits h.st)
    (hproper : h.Rounded c)
    : ∃ r h', h.step c = some (r, h') ∧ SameArena h.st h'.st ∧ HeapOk h'
        ∧ (c.Allocates ∨ HeapLinked h → HeapLinked h') ∧ HeapDelivers h c r h' := by
  cases c with
  | malloc n =>
    obtain ⟨p, st', hp, harena, hlinked, hkeeps, hroom⟩ := malloc_step hok hfits hproper
    refine ⟨p, ⟨st', LibcHeap.give h.given p n⟩, ?_, harena, .inr hlinked, fun _ => hlinked, hkeeps, hroom⟩
    unfold LibcHeap.step
    dsimp only
    rw [hp]
    rfl
  | calloc nmemb size =>
    obtain ⟨p, st', hp, harena, hlinked, hdelivers⟩ := calloc_step hok hfits hproper
    refine ⟨p, ⟨st', LibcHeap.give h.given p (nmemb * size)⟩, ?_, harena, .inr hlinked,
      fun _ => hlinked, hdelivers⟩
    unfold LibcHeap.step
    dsimp only
    rw [hp]
    rfl
  | realloc p n =>
    obtain ⟨r, h', hstep, harena, hlinked, hdelivers⟩ := realloc_step hok hfits hproper.1 hproper.2
    exact ⟨r, h', hstep, harena, .inr hlinked, fun _ => hlinked, hdelivers⟩
  | free p =>
    obtain ⟨harena, hok', hlinked, hkeeps⟩ := free_step hok hfits hproper
    exact ⟨0, _, rfl, harena, hok', fun hor => hlinked (hor.resolve_left not_false), hkeeps⟩
  | store a data =>
    obtain ⟨x, hx, hle, hend⟩ := hproper
    obtain ⟨bs, total, hblocks, hcovers, hsize, hlive⟩ := hok.owns (show (x.1, x.2) ∈ h.given from hx)
    have hstored := (hblocks.store a data hlive hle (show a + data.length ≤ x.1 + total by omega)).1
    have hlinked : HeapLinked ⟨{ h.st with mem := h.st.mem.writeBytes a data }, h.given⟩ :=
      ⟨bs, hstored, hcovers⟩
    exact ⟨0, _, rfl, ⟨rfl, rfl⟩, .inr hlinked, fun _ => hlinked, trivial⟩

theorem heap_step {h : LibcHeap} {c : HeapCall} (hok : HeapOk h) (hfits : ArenaFits h.st)
    (hproper : h.Proper c)
    : ∃ r h', h.step c = some (r, h') ∧ SameArena h.st h'.st ∧ HeapOk h'
        ∧ (c.Allocates ∨ HeapLinked h → HeapLinked h') ∧ HeapDelivers h c r h' :=
  rounded_step hok hfits hproper.rounded

/--
A run of calls on live pointers.
-/
abbrev HeapRun : LibcHeap → LibcHeap → Prop :=
  Run (fun c h h' => ∃ r, h.step c = some (r, h')) LibcHeap.Proper

theorem heap_run {h₀ h : LibcHeap} (hok : HeapOk h₀) (hfits : ArenaFits h₀.st) (hrun : HeapRun h₀ h)
    : HeapOk h ∧ ArenaFits h.st := by
  refine Run.keeps (I := fun h => HeapOk h ∧ ArenaFits h.st) ?_ ⟨hok, hfits⟩ hrun
  rintro h c h' hproper ⟨hok, hfits⟩ ⟨r, hstep⟩
  obtain ⟨r', h'', hstep', harena, hok', _⟩ := heap_step hok hfits hproper
  rw [hstep, Option.some.injEq, Prod.mk.injEq] at hstep'
  obtain ⟨_, rfl⟩ := hstep'
  exact ⟨hok', hfits.same harena⟩

theorem start_fits {mem : Mem} {base bytes : Nat} (hbase : 0 < base) (hbytes : 4096 ≤ bytes)
    (hlimit : base + bytes ≤ 2 ^ 32)
    : ArenaFits (LibcHeap.start mem base bytes).st where
  base := hbase
  bytes := by
    show 4096 ≤ bytes / 16 * 16
    omega
  limit := by
    show base + bytes / 16 * 16 ≤ 2 ^ 32
    omega

/--
From the first call on that allocates the blocks stay linked.
-/
theorem malloc_heap (mem : Mem) (base bytes : Nat) (h : LibcHeap) (hbase : 0 < base)
    (hbytes : 4096 ≤ bytes) (hlimit : base + bytes ≤ 2 ^ 32)
    (hrun : HeapRun (LibcHeap.start mem base bytes) h)
    : HeapOk h
        ∧ (∀ bs, HeapBlocks h.st bs →
          (live 20 h.st.mallocArena bs).Pairwise (fun x y => x.1 + x.2 ≤ y.1))
        ∧ ∀ c, h.Proper c → ∃ r h', h.step c = some (r, h') ∧ HeapOk h'
          ∧ (c.Allocates ∨ HeapLinked h → HeapLinked h') ∧ HeapDelivers h c r h' := by
  obtain ⟨hok, hfits⟩ :=
    heap_run (.inl ⟨rfl, rfl, rfl⟩) (start_fits hbase hbytes hlimit) hrun
  refine ⟨hok, fun bs _ => (live_pairwise _ bs).1.imp (by omega), ?_⟩
  intro c hproper
  obtain ⟨r, h', hstep, _, hok', hlinked, hdelivers⟩ := heap_step hok hfits hproper
  exact ⟨r, h', hstep, hok', hlinked, hdelivers⟩

theorem malloc_heap_start
    : HeapOk (LibcHeap.start (fun _ => 0) 0x100000 4096)
        ∧ ∃ r h', (LibcHeap.start (fun _ => 0) 0x100000 4096).step (.malloc 100) = some (r, h')
          ∧ HeapLinked h' :=
  have hheap := malloc_heap (fun _ => 0) 0x100000 4096 _ (by decide) (by decide) (by decide)
    Relation.ReflTransGen.refl
  ⟨hheap.1, by
    obtain ⟨r, h', hstep, _, hlinked, _⟩ := hheap.2.2 (.malloc 100) (by
      show 100 ≤ 2 ^ 31
      decide)
    exact ⟨r, h', hstep, hlinked (.inl trivial)⟩⟩

end TanjaOS
