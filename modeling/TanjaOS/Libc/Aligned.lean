import TanjaOS.Libc.Sizes

/-!
Where pointers point. The header of a block has five words, so the payload of a block at a multiple of 8 is not at one.
-/

open Lib
open Lib.Tiling

namespace TanjaOS

section Impl

/--
`aligned_alloc`. It also sets `errno` where it refuses the alignment.
-/
def alignedAlloc (st : MallocState) (alignment size : Nat) : Option (Nat × MallocState) :=
  if alignment ≤ 8 then
    malloc st size
  else if 4096 < alignment ∨ alignment &&& (alignment - 1) ≠ 0 then
    some (0, st)
  else
    let extra := alignment + 4
    match malloc st ((size + extra) % 2 ^ 32) with
    | none => none
    | some (raw, st) =>
      if raw = 0 then
        some (0, st)
      else
        let p := (raw + 4 + alignment - 1) % 2 ^ 32 / alignment * alignment
        some (p, { st with mem := st.mem.write32 (p - 4) (p - raw) })

end Impl

section Spec

inductive AlignedCall where
  | heap (c : HeapCall)
  | aligned (alignment size : Nat)

namespace AlignedCall

def step (h : LibcHeap) : AlignedCall → Option (Nat × LibcHeap)
  | .heap c => h.step c
  | .aligned a n => (alignedAlloc h.st a n).map (fun r => (r.1, ⟨r.2, LibcHeap.give h.given r.1 n⟩))

/--
An alignment is a power of two up to a page.
-/
def Asks (h : LibcHeap) : AlignedCall → Prop
  | .heap c => h.Asks c
  | .aligned a n => (∃ k, k ≤ 12 ∧ a = 2 ^ k) ∧ n < 2 ^ 32

def alignment : AlignedCall → Nat
  | .heap _ => 8
  | .aligned a _ => a

def usable : AlignedCall → Nat
  | .heap _ => 0
  | .aligned _ n => n

end AlignedCall

/--
The `n` bytes at `r` are within an allocated block.
-/
def LibcHeap.Usable (h : LibcHeap) (r n : Nat) : Prop :=
  ∃ bs x, HeapBlocks h.st bs ∧ x ∈ live 20 h.st.mallocArena bs ∧ x.1 ≤ r ∧ r < x.1 + x.2 ∧ r + n ≤ x.1 + x.2

/--
After `free(p)` the heap is in order and no allocated block has `p` in it.
-/
def Releases (st : MallocState) (p : Nat) : Prop :=
  ∃ bs, HeapBlocks (free st p) bs ∧
    ∀ x ∈ live 20 (free st p).mallocArena bs, ¬(x.1 ≤ p ∧ p < x.1 + x.2)

namespace AlignedCall

/--
The call returns, a pointer that it returns is aligned and usable, and every pointer can be freed.
-/
def WellAligned (h : LibcHeap) (c : AlignedCall) : Prop :=
  ∃ r h', c.step h = some (r, h') ∧ (r ≠ 0 → c.alignment ∣ r ∧ h'.Usable r c.usable) ∧
    ∀ x ∈ h'.given, Releases h'.st x.1

end AlignedCall

/--
The first free block of `need` bytes.
-/
def nextFit (st : MallocState) (need : Nat) : Option (Option Nat) :=
  firstFree (mallocStarted st).mem need ((mallocStarted st).mallocArenaBytes + 1) (mallocStarted st).mallocHead

/--
If there is a block for `n` bytes, its payload is at a multiple of `al`.
-/
def NextAligned (st : MallocState) (al n : Nat) : Prop :=
  ∀ b, nextFit st (mallocRound n) = some (some b) → al ∣ b + 20

/--
`realloc` does not have to move the block of `p`.
-/
def StaysInPlace (st : MallocState) (p n : Nat) : Prop :=
  let h := mblock st.mem (p - mblockBytes)
  n ≤ h.size - mblockBytes ∨
    h.next ≠ 0 ∧ (mblock st.mem h.next).free ≠ 0 ∧ mallocRound n ≤ h.size + (mblock st.mem h.next).size

namespace AlignedCall

/--
The blocks are where the call needs them.
-/
def Lands (h : LibcHeap) : AlignedCall → Prop
  | .heap (.malloc n) => NextAligned h.st 8 n
  | .heap (.calloc nmemb size) => 2 ^ 32 ≤ nmemb * size ∨ NextAligned h.st 8 (nmemb * size)
  | .heap (.realloc p n) =>
    p = 0 ∧ NextAligned h.st 8 n ∨ p ≠ 0 ∧
      (n = 0 ∨ StaysInPlace h.st p n ∧ 8 ∣ p ∨ ¬StaysInPlace h.st p n ∧ NextAligned h.st 8 n)
  | .heap (.free _) => True
  | .heap (.store _ _) => True
  | .aligned a n =>
    a ≤ 8 ∧ NextAligned h.st a n ∨ 8 < a ∧ nextFit h.st (mallocRound ((n + (a + 4)) % 2 ^ 32)) = some none

/--
`malloc_round` does not wrap around.
-/
def Fits (h : LibcHeap) : AlignedCall → Prop
  | .heap c => h.Fits c
  | .aligned a n => n + (if a ≤ 8 then 0 else a + 4) + 35 < 2 ^ 32 ∨ NoFree h.st

end AlignedCall

abbrev AlignedRun : LibcHeap → LibcHeap → Prop :=
  Run (fun (c : AlignedCall) h h' => ∃ r, c.step h = some (r, h')) (fun h c => c.Asks h ∧ c.Fits h ∧ c.Lands h)

end Spec

section Pointers

variable {st st' : MallocState} {bs : List Block} {n p r size : Nat}

theorem malloc_nextFit (st : MallocState) (n : Nat)
    : malloc st n = (nextFit st (mallocRound n)).map (fun b => match b with
      | none => (0, mallocStarted st)
      | some b => (b + 20, { mallocStarted st with mem := takeBlock (mallocStarted st).mem b (mallocRound n) })) := by
  rw [malloc_eq]
  unfold nextFit
  generalize firstFree (mallocStarted st).mem (mallocRound n) ((mallocStarted st).mallocArenaBytes + 1)
    (mallocStarted st).mallocHead = found
  match found with
  | none => rfl
  | some none => rfl
  | some (some b) => rfl

theorem malloc_next_aligned_iff (al : Nat) (h : malloc st n = some (r, st'))
    : (r ≠ 0 → al ∣ r) ↔ NextAligned st al n := by
  rw [malloc_nextFit, Option.map_eq_some_iff] at h
  obtain ⟨b, hb, hr⟩ := h
  unfold NextAligned
  rw [hb]
  cases b with
  | none =>
    obtain ⟨rfl, rfl⟩ := Prod.mk.inj hr
    constructor
    . rintro _ _ ⟨⟩
    . intro _ hne
      exact absurd rfl hne
  | some b =>
    obtain ⟨rfl, rfl⟩ := Prod.mk.inj hr
    constructor
    . rintro hal _ ⟨⟩
      exact hal (by omega)
    . intro hal _
      exact hal b rfl

theorem releases_of_live (h : HeapBlocks st bs) (hfits : ArenaFits st) (hp : (p, size) ∈ live 20 st.mallocArena bs)
    : Releases st p := by
  obtain ⟨bs', hblocks', harena, hiff, _⟩ := free_spec h hfits hp
  refine ⟨bs', hblocks', ?_⟩
  rw [harena.arena]
  rintro x hx ⟨hle, hlt⟩
  obtain ⟨hlive, hne⟩ := (hiff x).mp hx
  obtain heq | hlow | hhigh := mem_live_disjoint hlive hp
  . exact hne (congrArg Prod.fst heq)
  . dsimp only at hlow
    omega
  . dsimp only at hhigh
    omega

theorem free_slice (hp : 20 ≤ p) (hword : st.mem.read32 (p - 4) ≠ 0) : free st p = st := by
  have hfree : (mblock st.mem (p - mblockBytes)).free ≠ 0 := by
    unfold mblock mblockBytes
    dsimp only
    rw [show p - 20 + 16 = p - 4 by omega]
    exact hword
  unfold free
  dsimp only
  rw [if_neg (by omega), if_pos hfree]
  split <;> rfl

theorem not_releases_slice {x : Nat × Nat} (h : HeapBlocks st bs) (hx : x ∈ live 20 st.mallocArena bs) (hle : x.1 ≤ p)
    (hlt : p < x.1 + x.2) (hword : st.mem.read32 (p - 4) ≠ 0)
    : ¬Releases st p := by
  have hbounds := mem_live_bounds hx
  rintro ⟨bs', h', hout⟩
  rw [free_slice (by omega) hword] at h' hout
  rw [← h.unique h'] at hout
  exact hout x hx ⟨hle, hlt⟩

theorem live_magic (h : HeapBlocks st bs) (hp : (p, size) ∈ live 20 st.mallocArena bs)
    : (mblock st.mem (p - mblockBytes)).magic = mallocMagic := by
  obtain ⟨pre, b, post, rfl, _, hpb⟩ := mem_live_split hp
  rw [Prod.mk.injEq] at hpb
  have haddr : p - mblockBytes = st.mallocArena + span 20 pre := by
    unfold mblockBytes
    omega
  rw [haddr, h.holds.linked.header]

theorem realloc_inPlace (h : HeapBlocks st bs) (hp : (p, size) ∈ live 20 st.mallocArena bs) (hn : n ≠ 0)
    (hin : StaysInPlace st p n)
    : ∃ st', realloc st p n = some (p, st') := by
  have hbounds := mem_live_bounds hp
  have hmagic := live_magic h hp
  unfold StaysInPlace at hin
  unfold realloc
  dsimp only at hbounds hin ⊢
  rw [if_neg (by omega), if_neg hn, if_neg (not_not.mpr hmagic)]
  by_cases hroom : n ≤ (mblock st.mem (p - mblockBytes)).size - mblockBytes
  . rw [if_pos hroom]
    exact ⟨_, rfl⟩
  . rw [if_neg hroom, if_pos (hin.resolve_left hroom)]
    exact ⟨_, rfl⟩

theorem realloc_moves (h : HeapBlocks st bs) (hp : (p, size) ∈ live 20 st.mallocArena bs) (hn : n ≠ 0)
    (hin : ¬StaysInPlace st p n)
    : (realloc st p n).map Prod.fst = (malloc st n).map Prod.fst := by
  have hbounds := mem_live_bounds hp
  have hmagic := live_magic h hp
  unfold StaysInPlace at hin
  unfold realloc
  dsimp only at hbounds hin ⊢
  rw [not_or] at hin
  rw [if_neg (by omega), if_neg hn, if_neg (not_not.mpr hmagic), if_neg hin.1, if_neg hin.2]
  cases malloc st n with
  | none => rfl
  | some x =>
    obtain ⟨q, st'⟩ := x
    dsimp only
    split
    . next hnull =>
      subst hnull
      rfl
    . rfl

end Pointers

section Heap

variable {h h' : LibcHeap} {c : HeapCall} {r n : Nat}

theorem sizedOk_releases (hok : SizedOk h) : ∀ x ∈ h.given, Releases h.st x.1 := by
  intro x hx
  obtain hdead | ⟨hlive, hfits, _⟩ := hok
  . rw [hdead.given] at hx
    cases hx
  . obtain ⟨bs, total, hblocks, _, _, hmem⟩ := hlive.owns (show (x.1, x.2) ∈ h.given from hx)
    exact releases_of_live hblocks hfits hmem

theorem usable_of_given (hok : SizedOk h) (hr : (r, n) ∈ h.given) : h.Usable r n := by
  obtain hdead | ⟨hlive, _, _⟩ := hok
  . rw [hdead.given] at hr
    cases hr
  . obtain ⟨bs, total, hblocks, _, hle, hmem⟩ := hlive.owns hr
    obtain ⟨pre, b, post, rfl, _, hpb⟩ := mem_live_split hmem
    rw [Prod.mk.injEq] at hpb
    have hbig := hblocks.holds.big b (by simp)
    exact ⟨_, _, hblocks, hmem, Nat.le_refl r, by dsimp only; omega, by dsimp only; omega⟩

theorem usable_mono {m : Nat} (hu : h.Usable r n) (hle : m ≤ n) : h.Usable r m := by
  obtain ⟨bs, x, hblocks, hx, hlow, hlt, hend⟩ := hu
  exact ⟨bs, x, hblocks, hx, hlow, hlt, by omega⟩

theorem fits_step (hok : SizedOk h) (hasks : h.Asks c) (hcall : h.Fits c)
    : ∃ r h', h.step c = some (r, h') ∧ SizedOk h' := by
  obtain ⟨r, h', hstep, _⟩ := (sizedOk_honest_iff hok hasks).mpr hcall
  exact ⟨r, h', hstep, sizedOk_step hok hasks hcall hstep⟩

theorem malloc_step_aligned_iff (al : Nat) (hstep : h.step (.malloc n) = some (r, h'))
    : (r ≠ 0 → al ∣ r) ↔ NextAligned h.st al n := by
  unfold LibcHeap.step at hstep
  obtain ⟨x, hx, heq⟩ := Option.map_eq_some_iff.mp hstep
  obtain ⟨rfl, _⟩ := Prod.mk.inj heq
  exact malloc_next_aligned_iff al hx

theorem calloc_step_aligned_iff {nmemb size : Nat} (hstep : h.step (.calloc nmemb size) = some (r, h'))
    : (r ≠ 0 → 8 ∣ r) ↔ 2 ^ 32 ≤ nmemb * size ∨ NextAligned h.st 8 (nmemb * size) := by
  unfold LibcHeap.step at hstep
  obtain ⟨x, hx, heq⟩ := Option.map_eq_some_iff.mp hstep
  obtain ⟨rfl, _⟩ := Prod.mk.inj heq
  unfold calloc at hx
  split at hx
  . next hlarge =>
    cases hx
    have hwraps : 2 ^ 32 ≤ nmemb * size := by
      have hlt := hlarge.2
      rw [Nat.div_lt_iff_lt_mul (Nat.pos_of_ne_zero hlarge.1), Nat.mul_comm] at hlt
      omega
    exact ⟨fun _ => .inl hwraps, fun _ hne => absurd rfl hne⟩
  . next hsmall =>
    have hfits : ¬2 ^ 32 ≤ nmemb * size := by
      intro hwraps
      have hpos : nmemb ≠ 0 := by
        rintro rfl
        omega
      apply hsmall
      rw [Nat.div_lt_iff_lt_mul (Nat.pos_of_ne_zero hpos), Nat.mul_comm]
      exact ⟨hpos, by omega⟩
    rw [or_iff_right hfits]
    cases hm : malloc h.st (nmemb * size) with
    | none =>
      rw [hm] at hx
      cases hx
    | some y =>
      obtain ⟨q, st'⟩ := y
      rw [hm] at hx
      have hq : x.1 = q := by
        dsimp only at hx
        split at hx
        . cases hx
          rfl
        . cases hx
          rfl
      rw [hq]
      exact malloc_next_aligned_iff 8 hm

theorem realloc_step_aligned_iff {p : Nat} (hok : SizedOk h) (hasks : h.Asks (.realloc p n))
    (hstep : h.step (.realloc p n) = some (r, h'))
    : (r ≠ 0 → 8 ∣ r) ↔ AlignedCall.Lands h (.heap (.realloc p n)) := by
  unfold LibcHeap.step at hstep
  obtain ⟨x, hx, heq⟩ := Option.map_eq_some_iff.mp hstep
  obtain ⟨rfl, _⟩ := Prod.mk.inj heq
  show _ ↔ p = 0 ∧ NextAligned h.st 8 n ∨ p ≠ 0 ∧
    (n = 0 ∨ StaysInPlace h.st p n ∧ 8 ∣ p ∨ ¬StaysInPlace h.st p n ∧ NextAligned h.st 8 n)
  by_cases hp₀ : p = 0
  . subst hp₀
    rw [realloc_null] at hx
    rw [malloc_next_aligned_iff 8 hx]
    simp
  . obtain ⟨size, hp⟩ := hasks.2.resolve_left hp₀
    obtain hdead | ⟨hlive, _, _⟩ := hok
    . rw [hdead.given] at hp
      cases hp
    . obtain ⟨bs, total, hblocks, _, _, hmem⟩ := hlive.owns hp
      have hbounds := mem_live_bounds hmem
      dsimp only at hbounds
      by_cases hn : n = 0
      . unfold realloc at hx
        rw [if_neg hp₀, if_pos hn] at hx
        cases hx
        simp [hn, hp₀]
      . by_cases hin : StaysInPlace h.st p n
        . obtain ⟨st', hre⟩ := realloc_inPlace hblocks hmem hn hin
          rw [hx] at hre
          cases hre
          simp [hn, hp₀, hin]
        . have hmoves := realloc_moves hblocks hmem hn hin
          rw [hx, Option.map_some, eq_comm, Option.map_eq_some_iff] at hmoves
          obtain ⟨y, hy, hfst⟩ := hmoves
          have hiff := malloc_next_aligned_iff 8 hy
          rw [hfst] at hiff
          rw [hiff]
          simp [hn, hp₀, hin]

theorem heap_step_aligned_iff (hok : SizedOk h) (hasks : h.Asks c) (hstep : h.step c = some (r, h'))
    : (r ≠ 0 → 8 ∣ r) ↔ AlignedCall.Lands h (.heap c) := by
  have hnull : r = 0 → ((r ≠ 0 → 8 ∣ r) ↔ True) := fun hr => ⟨fun _ => trivial, fun _ hne => absurd hr hne⟩
  cases c with
  | malloc n => exact malloc_step_aligned_iff 8 hstep
  | calloc nmemb size => exact calloc_step_aligned_iff hstep
  | realloc p n => exact realloc_step_aligned_iff hok hasks hstep
  | free p =>
    cases hstep
    exact hnull rfl
  | store a data =>
    cases hstep
    exact hnull rfl

theorem heap_wellAligned_iff (hok : SizedOk h) (hasks : h.Asks c) (hcall : h.Fits c)
    : (AlignedCall.heap c).WellAligned h ↔ AlignedCall.Lands h (.heap c) := by
  obtain ⟨r, h', hstep, hok'⟩ := fits_step hok hasks hcall
  rw [← heap_step_aligned_iff hok hasks hstep]
  constructor
  . rintro ⟨r', h₁, hstep', hal, _⟩ hne
    have heq : some (r, h') = some (r', h₁) := hstep.symm.trans hstep'
    cases heq
    exact (hal hne).1
  . intro hal
    refine ⟨r, h', hstep, ?_, sizedOk_releases hok'⟩
    intro hne
    exact ⟨hal hne, usable_mono (usable_of_given hok' (step_given hstep hne)) (Nat.zero_le _)⟩

end Heap

section Slices

variable {h h' : LibcHeap} {c : AlignedCall} {r n a : Nat}

theorem alignedAlloc_small (ha : a ≤ 8) (st : MallocState) (n : Nat) : alignedAlloc st a n = malloc st n := by
  unfold alignedAlloc
  rw [if_pos ha]

theorem small_step (ha : a ≤ 8) : (AlignedCall.aligned a n).step h = h.step (.malloc n) := by
  show (alignedAlloc h.st a n).map _ = _
  rw [alignedAlloc_small ha]
  rfl

theorem small_fits (ha : a ≤ 8) (hcall : (AlignedCall.aligned a n).Fits h) : h.Fits (.malloc n) := by
  have hfits : n + (if a ≤ 8 then 0 else a + 4) + 35 < 2 ^ 32 ∨ NoFree h.st := hcall
  rw [if_pos ha] at hfits
  obtain hsmall | hfree := hfits
  . exact .inl hsmall
  . exact .inr (.inr hfree)

theorem small_wellAligned_iff (hok : SizedOk h) (ha : a ≤ 8) (hn : n < 2 ^ 32)
    (hcall : (AlignedCall.aligned a n).Fits h)
    : (AlignedCall.aligned a n).WellAligned h ↔ NextAligned h.st a n := by
  obtain ⟨r, h', hstep, hok'⟩ := fits_step hok (c := .malloc n) hn (small_fits ha hcall)
  rw [← malloc_step_aligned_iff a hstep]
  constructor
  . rintro ⟨r', h₁, hstep', hal, _⟩ hne
    rw [small_step ha, hstep] at hstep'
    cases hstep'
    exact (hal hne).1
  . intro hal
    refine ⟨r, h', (small_step ha).trans hstep, ?_, sizedOk_releases hok'⟩
    intro hne
    exact ⟨hal hne, usable_of_given hok' (step_given hstep hne)⟩

theorem two_pow_and_pred (k : Nat) : 2 ^ k &&& (2 ^ k - 1) = 0 := by
  rw [Nat.and_two_pow_sub_one_eq_mod, Nat.mod_self]

theorem slice_bounds (raw : Nat) (ha : 0 < a)
    : raw + 4 ≤ (raw + 4 + a - 1) / a * a ∧ (raw + 4 + a - 1) / a * a + 1 ≤ raw + 4 + a := by
  have hdiv := Nat.div_add_mod (raw + 4 + a - 1) a
  have hmod := Nat.mod_lt (raw + 4 + a - 1) ha
  rw [Nat.mul_comm] at hdiv
  omega

theorem mallocRound_pos (n : Nat) : ∃ k, mallocRound n = 20 + k ∧ 16 ≤ k := by
  refine ⟨mallocRound n - 20, ?_⟩
  unfold mallocRound mblockBytes mallocAlign
  dsimp only
  split <;> omega

theorem nextFit_noFree (hok : SizedOk h) (hfree : NoFree h.st) (n : Nat)
    : nextFit h.st (mallocRound n) = some none := by
  obtain hdead | ⟨hlive, hfits, _⟩ := hok
  . unfold nextFit
    rw [hdead.started_head]
    rfl
  . obtain ⟨bs, hblocks, hused⟩ := blocks_of_noFree hlive hfits hfree
    obtain ⟨k, hround, _⟩ := mallocRound_pos n
    have hnone : firstFit 20 16 k bs = none := by
      rw [firstFit_eq_none_iff]
      intro b hb hbfree
      rw [hused b hb] at hbfree
      cases hbfree
    unfold nextFit
    rw [hblocks.started, hround, firstFree_blocks hblocks hfits, hnone]
    rfl

theorem alignedAlloc_large {k raw m : Nat} {st st₁ : MallocState} (hk : k ≤ 12) (ha : 8 < 2 ^ k)
    (hm : (n + (2 ^ k + 4)) % 2 ^ 32 = m) (hmalloc : malloc st m = some (raw, st₁))
    : alignedAlloc st (2 ^ k) n = if raw = 0 then some (0, st₁) else
        some ((raw + 4 + 2 ^ k - 1) % 2 ^ 32 / 2 ^ k * 2 ^ k, { st₁ with
          mem := st₁.mem.write32 ((raw + 4 + 2 ^ k - 1) % 2 ^ 32 / 2 ^ k * 2 ^ k - 4)
            ((raw + 4 + 2 ^ k - 1) % 2 ^ 32 / 2 ^ k * 2 ^ k - raw) }) := by
  have hpage : 2 ^ k ≤ 2 ^ 12 := Nat.pow_le_pow_right (by decide) hk
  have hvalid : ¬(4096 < 2 ^ k ∨ 2 ^ k &&& (2 ^ k - 1) ≠ 0) := by
    rw [two_pow_and_pred]
    omega
  unfold alignedAlloc
  dsimp only
  rw [if_neg (by omega), if_neg hvalid, hm, hmalloc]

theorem slice_malloc {k m : Nat} (hok : SizedOk h) (ha : 8 < 2 ^ k) (hcall : (AlignedCall.aligned (2 ^ k) n).Fits h)
    (hm : (n + (2 ^ k + 4)) % 2 ^ 32 = m)
    : ∃ raw st₁, malloc h.st m = some (raw, st₁) ∧ SizedOk ⟨st₁, LibcHeap.give h.given raw m⟩ ∧
      (raw ≠ 0 → n + (2 ^ k + 4) + 35 < 2 ^ 32) := by
  have hcall' : n + (if 2 ^ k ≤ 8 then 0 else 2 ^ k + 4) + 35 < 2 ^ 32 ∨ NoFree h.st := hcall
  rw [if_neg (by omega)] at hcall'
  have hfits : h.Fits (.malloc m) := by
    obtain hsmall | hfree := hcall'
    . refine .inl ?_
      show m + 35 < 2 ^ 32
      omega
    . exact .inr (.inr hfree)
  obtain ⟨r₁, h₁, hstep, hok₁⟩ := fits_step hok (c := .malloc m) (show m < 2 ^ 32 by omega) hfits
  obtain ⟨x, hmalloc, hx⟩ := Option.map_eq_some_iff.mp hstep
  obtain ⟨raw, st₁⟩ := x
  cases hx
  refine ⟨raw, st₁, hmalloc, hok₁, ?_⟩
  intro hne
  obtain hsmall | hfree := hcall'
  . exact hsmall
  . rw [malloc_nextFit, nextFit_noFree hok hfree] at hmalloc
    cases hmalloc
    exact absurd rfl hne

theorem large_null (hok : SizedOk h) (ha : 8 < a) (hasks : (AlignedCall.aligned a n).Asks h)
    (hcall : (AlignedCall.aligned a n).Fits h)
    (hnext : nextFit h.st (mallocRound ((n + (a + 4)) % 2 ^ 32)) = some none)
    : (AlignedCall.aligned a n).step h = some (0, ⟨mallocStarted h.st, h.given⟩) ∧
      SizedOk ⟨mallocStarted h.st, h.given⟩ := by
  obtain ⟨⟨k, hk, rfl⟩, hn⟩ := hasks
  obtain ⟨raw, st₁, hmalloc, hok₁, _⟩ := slice_malloc hok ha hcall rfl
  have halloc := alignedAlloc_large hk ha rfl hmalloc
  rw [malloc_nextFit, hnext] at hmalloc
  cases hmalloc
  refine ⟨?_, hok₁⟩
  show (alignedAlloc h.st (2 ^ k) n).map _ = _
  rw [halloc]
  rfl

theorem large_not_wellAligned (hok : SizedOk h) (ha : 8 < a) (hasks : (AlignedCall.aligned a n).Asks h)
    (hcall : (AlignedCall.aligned a n).Fits h)
    (hnext : nextFit h.st (mallocRound ((n + (a + 4)) % 2 ^ 32)) ≠ some none)
    : ¬(AlignedCall.aligned a n).WellAligned h := by
  obtain ⟨⟨k, hk, rfl⟩, hn⟩ := hasks
  generalize hm : (n + (2 ^ k + 4)) % 2 ^ 32 = m at hnext
  obtain ⟨raw, st₁, hmalloc, hok₁, hsmall⟩ := slice_malloc hok ha hcall hm
  have halloc := alignedAlloc_large hk ha hm hmalloc
  have hne : raw ≠ 0 := by
    rw [malloc_nextFit, Option.map_eq_some_iff] at hmalloc
    obtain ⟨b, hb, hfound⟩ := hmalloc
    cases b with
    | none => exact absurd hb hnext
    | some b =>
      cases hfound
      omega
  have hfits := hsmall hne
  rw [if_neg hne] at halloc
  rintro ⟨r, h', hstep, _, hall⟩
  have hstep' : (alignedAlloc h.st (2 ^ k) n).map _ = some (r, h') := hstep
  rw [halloc] at hstep'
  cases hstep'
  have hgiven : (raw, m) ∈ (⟨st₁, LibcHeap.give h.given raw m⟩ : LibcHeap).given := by
    dsimp only
    unfold LibcHeap.give
    rw [if_neg hne]
    exact List.mem_cons_self
  obtain hdead | ⟨hlive, hfits₁, _⟩ := hok₁
  . rw [hdead.given] at hgiven
    cases hgiven
  . obtain ⟨bs, total, hblocks, _, hle, hmem⟩ := hlive.owns hgiven
    have hbounds := mem_live_bounds hmem
    have hspan := hblocks.holds.span_eq
    have hlimit := hfits₁.limit
    have hslice := slice_bounds raw (show 0 < 2 ^ k by omega)
    dsimp only at hbounds hspan hlimit
    have hmod : (raw + 4 + 2 ^ k - 1) % 2 ^ 32 = raw + 4 + 2 ^ k - 1 := Nat.mod_eq_of_lt (by omega)
    rw [hmod] at hall
    generalize (raw + 4 + 2 ^ k - 1) / 2 ^ k * 2 ^ k = p at hall hslice
    have hp : p ≠ 0 := by omega
    obtain ⟨hstored, _⟩ := hblocks.store (p - 4) (le32 (p - raw)) hmem (by dsimp only; omega)
      (by rw [length_le32]; dsimp only; omega)
    have hword : (st₁.mem.write32 (p - 4) (p - raw)).read32 (p - 4) ≠ 0 := by
      rw [Mem.read32_write32_same _ (by omega)]
      omega
    have hnot := not_releases_slice hstored hmem (show raw ≤ p by omega) (show p < raw + total by omega) hword
    apply hnot
    apply hall (p, n)
    unfold LibcHeap.give
    rw [if_neg hp]
    exact List.mem_cons_self

theorem large_wellAligned_iff (hok : SizedOk h) (ha : 8 < a) (hasks : (AlignedCall.aligned a n).Asks h)
    (hcall : (AlignedCall.aligned a n).Fits h)
    : (AlignedCall.aligned a n).WellAligned h ↔
      nextFit h.st (mallocRound ((n + (a + 4)) % 2 ^ 32)) = some none := by
  constructor
  . intro hwell
    by_contra hnext
    exact large_not_wellAligned hok ha hasks hcall hnext hwell
  . intro hnext
    obtain ⟨hstep, hok₁⟩ := large_null hok ha hasks hcall hnext
    exact ⟨0, _, hstep, fun hne => absurd rfl hne, sizedOk_releases hok₁⟩

end Slices

section Run

variable {h h' : LibcHeap} {c : AlignedCall} {r : Nat}

theorem wellAligned_iff (hok : SizedOk h) (hasks : c.Asks h) (hcall : c.Fits h) : c.WellAligned h ↔ c.Lands h := by
  cases c with
  | heap c => exact heap_wellAligned_iff hok hasks hcall
  | aligned a n =>
    show _ ↔ a ≤ 8 ∧ NextAligned h.st a n ∨ 8 < a ∧ nextFit h.st (mallocRound ((n + (a + 4)) % 2 ^ 32)) = some none
    by_cases ha : a ≤ 8
    . rw [small_wellAligned_iff hok ha hasks.2 hcall]
      simp [ha, Nat.not_lt.mpr ha]
    . rw [large_wellAligned_iff hok (by omega) hasks hcall]
      simp [ha, Nat.not_le.mp ha]

theorem aligned_step (hok : SizedOk h) (hasks : c.Asks h) (hcall : c.Fits h) (hlands : c.Lands h)
    (hstep : c.step h = some (r, h'))
    : SizedOk h' := by
  cases c with
  | heap c => exact sizedOk_step hok hasks hcall hstep
  | aligned a n =>
    by_cases ha : a ≤ 8
    . rw [small_step ha] at hstep
      exact sizedOk_step hok (c := .malloc n) hasks.2 (small_fits ha hcall) hstep
    . have hnext := (hlands.resolve_left (fun hsmall => ha hsmall.1)).2
      obtain ⟨hnull, hok₁⟩ := large_null hok (by omega) hasks hcall hnext
      rw [hnull] at hstep
      cases hstep
      exact hok₁

theorem aligned_run {h₀ : LibcHeap} (hok : SizedOk h₀) (hrun : AlignedRun h₀ h) : SizedOk h := by
  refine Run.keeps (I := SizedOk) ?_ hok hrun
  rintro h c h' ⟨hasks, hcall, hlands⟩ hok ⟨r, hstep⟩
  exact aligned_step hok hasks hcall hlands hstep

/--
In any state that calls which land well lead to, a call is as promised exactly if it lands well, too.
-/
theorem malloc_aligned_iff (mem : Mem) (base bytes : Nat) (h : LibcHeap) (c : AlignedCall)
    (hlimit : base + bytes ≤ 2 ^ 32) (hsmall : bytes ≤ 2 ^ 31)
    (hrun : AlignedRun (LibcHeap.start mem base bytes) h) (hasks : c.Asks h) (hcall : c.Fits h)
    : c.WellAligned h ↔ c.Lands h :=
  wellAligned_iff (aligned_run (sizedOk_start hlimit hsmall) hrun) hasks hcall

theorem malloc_aligned_iff_start
    : (AlignedCall.heap (.malloc 100)).WellAligned (LibcHeap.start (fun _ => 0) 0x100000 4096) ↔
      (AlignedCall.heap (.malloc 100)).Lands (LibcHeap.start (fun _ => 0) 0x100000 4096) :=
  malloc_aligned_iff (fun _ => 0) 0x100000 4096 _ (.heap (.malloc 100)) (by decide) (by decide)
    Relation.ReflTransGen.refl (show 100 < 2 ^ 32 by decide) (.inl (by decide))

/--
The first `malloc` returns the address of the arena and 20 more.
-/
theorem malloc_misaligned
    : ¬(AlignedCall.heap (.malloc 100)).WellAligned (LibcHeap.start (fun _ => 0) 0x100000 4096) := by
  have hsized : SizedOk (LibcHeap.start (fun _ => 0) 0x100000 4096) := sizedOk_start (by decide) (by decide)
  rw [wellAligned_iff (c := .heap (.malloc 100)) hsized (show 100 < 2 ^ 32 by decide) (.inl (by decide))]
  intro hlands
  have hnext : nextFit (LibcHeap.start (fun _ => 0) 0x100000 4096).st (mallocRound 100) = some (some 0x100000) := by
    have hfits : ArenaFits (LibcHeap.start (fun _ => 0) 0x100000 4096).st :=
      start_fits (by decide) (by decide) (by decide)
    obtain ⟨hinit, harena⟩ := mallocInit_blocks hfits
    have hround : mallocRound 100 = 20 + 108 := by decide
    have hstarted : mallocStarted (LibcHeap.start (fun _ => 0) 0x100000 4096).st =
        mallocInit (LibcHeap.start (fun _ => 0) 0x100000 4096).st := if_pos rfl
    unfold nextFit
    rw [hround, hstarted, firstFree_blocks hinit (hfits.same harena)]
    rfl
  exact absurd (hlands _ hnext) (by decide)

end Run

end TanjaOS
