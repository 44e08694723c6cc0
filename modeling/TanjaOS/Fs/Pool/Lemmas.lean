import TanjaOS.Fs.Pool.Impl

/-!
The pool refines `Lib.Tiling`: walking its headers yields a list of blocks, and each allocator
function does to that list what the abstract allocator does.
-/

open Lib
open Lib.Tiling

namespace TanjaOS

theorem fsSetPool_toNat (bytes : UInt32)
    : (fsSetPool bytes).toNat = min bytes.toNat fsDataPoolSize / 16 * 16 := by
  have hlt := bytes.toNat_lt
  have hpool : (UInt32.ofNat fsDataPoolSize).toNat = fsDataPoolSize := by decide
  unfold fsSetPool
  dsimp only
  split
  . rw [hpool, Nat.min_eq_right (by omega)]
    decide
  . rw [Nat.min_eq_left (by omega), UInt32.toNat_ofNat_of_lt']
    exact Nat.lt_of_le_of_lt (Nat.div_mul_le_self _ _) hlt

theorem fsSetPool_dvd (bytes : UInt32) : 16 ∣ (fsSetPool bytes).toNat := by
  rw [fsSetPool_toNat]
  apply Nat.dvd_mul_left

/--
The headers found by walking `pool` from an offset are those of a list of blocks, and the last
block ends exactly at `top`.
-/
def Tiles (pool : Mem) (top : Nat) : Nat → List Block → Prop
  | off, [] => off = top
  | off, b :: bs =>
    pool.read32 off = b.size ∧ pool.read32 (off + 4) = b.free.toNat
      ∧ Tiles pool top (off + 8 + b.size) bs

namespace Tiles

variable {pool pool' : Mem} {top off : Nat} {bs : List Block}

theorem top_eq (h : Tiles pool top off bs) : top = off + span 8 bs := by
  induction bs generalizing off with
  | nil => simp_all [Tiles, span]
  | cons b bs ih =>
    have := ih h.2.2
    simp only [span]
    omega

theorem congr (h : Tiles pool top off bs) (heq : ∀ i, off ≤ i → i < top → pool' i = pool i)
    : Tiles pool' top off bs := by
  induction bs generalizing off with
  | nil => assumption
  | cons b bs ih =>
    have htop := h.top_eq
    simp only [span] at htop
    obtain ⟨hsize, hfree, htail⟩ := h
    refine ⟨?_, ?_, ?_⟩
    . rw [← hsize]
      apply Mem.read32_congr
      intro i _ _
      apply heq <;> omega
    . rw [← hfree]
      apply Mem.read32_congr
      intro i _ _
      apply heq <;> omega
    . apply ih htail
      intro i _ _
      apply heq <;> omega

theorem congr_payload {x : Nat × Nat} (h : Tiles pool top off bs) (hx : x ∈ live 8 off bs)
    (heq : ∀ i, (i < x.1 ∨ x.1 + x.2 ≤ i) → pool' i = pool i)
    : Tiles pool' top off bs := by
  induction bs generalizing off with
  | nil => simp [live] at hx
  | cons b bs ih =>
    have hbound := mem_live_bounds hx
    obtain ⟨hsize, hfree, htail⟩ := h
    have hhead : ∀ i, i < off + 8 → pool' i = pool i := by
      intro i hi
      apply heq
      omega
    refine ⟨?_, ?_, ?_⟩
    . rw [← hsize]
      apply Mem.read32_congr
      intro i _ _
      apply hhead
      omega
    . rw [← hfree]
      apply Mem.read32_congr
      intro i _ _
      apply hhead
      omega
    . simp only [live] at hx
      split at hx
      . exact ih htail hx
      . rw [List.mem_cons] at hx
        cases hx with
        | inl hx =>
          subst hx
          apply htail.congr
          intro i _ _
          apply heq
          simp only
          omega
        | inr hx => exact ih htail hx

theorem cons {b : Block} {bs' : List Block} (h : Tiles pool top off (b :: bs))
    (heq : ∀ i, i < off + 8 + b.size → pool' i = pool i)
    (htail : Tiles pool' top (off + 8 + b.size) bs')
    : Tiles pool' top off (b :: bs') := by
  obtain ⟨hsize, hfree, _⟩ := h
  refine ⟨?_, ?_, htail⟩
  . rw [← hsize]
    apply Mem.read32_congr
    intro i _ _
    apply heq
    omega
  . rw [← hfree]
    apply Mem.read32_congr
    intro i _ _
    apply heq
    omega

theorem read_live {x : Nat × Nat} (h : Tiles pool top off bs) (hx : x ∈ live 8 off bs)
    : pool.read32 (x.1 - 8) = x.2 ∧ pool.read32 (x.1 - 4) = 0 := by
  induction bs generalizing off with
  | nil => simp [live] at hx
  | cons b bs ih =>
    obtain ⟨hsize, hfree, htail⟩ := h
    simp only [live] at hx
    split at hx
    . exact ih htail hx
    . next hb =>
      rw [List.mem_cons] at hx
      cases hx with
      | inl hx =>
        subst hx
        simp_all
      | inr hx => exact ih htail hx

theorem init {fpoolBytes : UInt32} (h : 8 < fpoolBytes.toNat)
    : Tiles (fpoolInit fpoolBytes pool) fpoolBytes.toNat 0 [⟨fpoolBytes.toNat - 8, true⟩] := by
  have := fpoolBytes.toNat_lt
  unfold fpoolInit
  rw [if_neg (by omega)]
  refine ⟨?_, ?_, ?_⟩
  . rw [Mem.read32_write32_disjoint (by omega), Mem.read32_write32_same _ (by omega)]
  . rw [Mem.read32_write32_same _ (by omega)]
    rfl
  . simp only [Tiles]
    omega

theorem release {p : Nat} {size : Nat} (h : Tiles pool top off bs) (hp : (p, size) ∈ live 8 off bs)
    : Tiles (pool.write32 (p - 8 + 4) 1) top off (release 8 p off bs) := by
  induction bs generalizing off with
  | nil => simp [live] at hp
  | cons b bs ih =>
    have hbound := mem_live_bounds hp
    obtain ⟨hsize, hfree, htail⟩ := h
    simp only at hbound
    simp only [Tiling.release]
    split
    . next heq =>
      subst heq
      refine ⟨?_, ?_, ?_⟩
      . rw [Mem.read32_write32_disjoint (by omega)]
        assumption
      . have : off + 8 - 8 + 4 = off + 4 := by omega
        rw [this, Mem.read32_write32_same _ (by omega)]
        rfl
      . apply htail.congr
        intro i _ _
        apply Mem.write32_of_ge
        omega
    . next hne =>
      have htl : (p, size) ∈ live 8 (off + 8 + b.size) bs := by
        simp only [live] at hp
        split at hp
        . assumption
        . rw [List.mem_cons] at hp
          cases hp with
          | inl hp =>
            simp only [Prod.mk.injEq] at hp
            omega
          | inr hp => assumption
      have hbound' := mem_live_bounds htl
      simp only at hbound'
      refine ⟨?_, ?_, ih htail htl⟩
      . rw [Mem.read32_write32_disjoint (by omega)]
        assumption
      . rw [Mem.read32_write32_disjoint (by omega)]
        assumption

end Tiles

/--
`pool'` differs from `pool` neither below `off` nor in the payload of an allocated block of `bs`.
-/
def KeepsLive (off : Nat) (bs : List Block) (pool pool' : Mem) : Prop :=
  (∀ i, i < off → pool' i = pool i)
    ∧ ∀ x ∈ live 8 off bs, ∀ i, x.1 ≤ i → i < x.1 + x.2 → pool' i = pool i

theorem KeepsLive.cons {off : Nat} {b : Block} {bs : List Block} {pool pool' : Mem}
    (h : KeepsLive (off + 8 + b.size) bs pool pool')
    : KeepsLive off (b :: bs) pool pool' := by
  refine ⟨?_, ?_⟩
  . intro i hi
    apply h.1
    omega
  . intro x hx i hle hlt
    simp only [live] at hx
    split at hx
    . exact h.2 x hx i hle hlt
    . rw [List.mem_cons] at hx
      cases hx with
      | inl hx =>
        subst hx
        apply h.1
        simp only at hlt
        omega
      | inr hx => exact h.2 x hx i hle hlt

namespace fpoolCoalesce

theorem go_spec {fpoolBytes : UInt32} {pool : Mem} {off : Nat} {b : Block} {bs : List Block}
    (h : Tiles pool fpoolBytes.toNat off (b :: bs))
    : Tiles (go fpoolBytes pool off) fpoolBytes.toNat off (coalesce 8 b bs)
        ∧ KeepsLive off (b :: bs) pool (go fpoolBytes pool off) := by
  have hlt := fpoolBytes.toNat_lt
  induction bs generalizing b pool off with
  | nil =>
    have htop := h.top_eq
    simp only [span] at htop
    obtain ⟨hsize, hfree, htail⟩ := h
    unfold go
    rw [dif_pos (by omega), dif_neg (by omega)]
    simp only [hsize]
    rw [dif_neg (by omega), if_pos (by omega)]
    refine ⟨⟨hsize, hfree, htail⟩, ?_⟩
    simp [KeepsLive]
  | cons n bs ih =>
    have htop := h.top_eq
    simp only [span] at htop
    obtain ⟨hsize, hfree, hnsize, hnfree, htail⟩ := h
    unfold go
    rw [dif_pos (by omega), dif_neg (by omega)]
    simp only [hsize, hfree, hnsize, hnfree]
    simp only [coalesce]
    by_cases hmerge : b.free ∧ n.free
    . rw [dif_pos (by simp only [hmerge, Bool.toNat_true]; omega), if_pos hmerge]
      generalize hpool : pool.write32 off (b.size + (8 + n.size)) = pool'
      have hge : ∀ i, off + 4 ≤ i → pool' i = pool i := by
        intro i hi
        rw [← hpool]
        apply Mem.write32_of_ge
        omega
      have htiles : Tiles pool' fpoolBytes.toNat off (⟨b.size + (8 + n.size), true⟩ :: bs) := by
        refine ⟨?_, ?_, ?_⟩
        . rw [← hpool, Mem.read32_write32_same _ (by omega)]
        . rw [← hpool, Mem.read32_write32_disjoint (by omega), hfree, hmerge.1]
        . have : off + 8 + (b.size + (8 + n.size)) = off + 8 + b.size + 8 + n.size := by omega
          simp only [this]
          apply htail.congr
          intro i _ _
          apply hge
          omega
      obtain ⟨hgo, hkeep⟩ := ih htiles
      refine ⟨hgo, ?_, ?_⟩
      . intro i hi
        rw [hkeep.1 i hi, ← hpool]
        apply Mem.write32_of_lt
        assumption
      . intro x hx i hle hi
        have hlive : live 8 off (b :: n :: bs)
            = live 8 off (⟨b.size + (8 + n.size), true⟩ :: bs) := by
          simp only [live, hmerge.1, hmerge.2, ↓reduceIte]
          congr 1
          omega
        have hbound := mem_live_bounds hx
        rw [hlive] at hx
        rw [hkeep.2 x hx i hle hi]
        apply hge
        omega
    . have hno : ¬(b.free.toNat ≠ 0 ∧ off + 8 + b.size + 8 ≤ fpoolBytes.toNat
          ∧ n.size ≤ fpoolBytes.toNat - (off + 8 + b.size) - 8 ∧ n.free.toNat ≠ 0) := by
        intro hall
        apply hmerge
        simp_all
      rw [dif_neg hno, if_neg (by omega), if_neg hmerge]
      have hnext : Tiles pool fpoolBytes.toNat (off + 8 + b.size) (n :: bs) :=
        ⟨hnsize, hnfree, htail⟩
      obtain ⟨hgo, hkeep⟩ := ih hnext
      have hold : Tiles pool fpoolBytes.toNat off (b :: n :: bs) :=
        ⟨hsize, hfree, hnsize, hnfree, htail⟩
      exact ⟨hold.cons hkeep.1 hgo, hkeep.cons⟩

end fpoolCoalesce

namespace fpoolAlloc

theorem go_eq_none {fpoolBytes : UInt32} {pool : Mem} {off n : Nat} {bs : List Block}
    (h : Tiles pool fpoolBytes.toNat off bs) (hfit : firstFit 8 16 n bs = none)
    : go fpoolBytes n pool off = (none, pool) := by
  induction bs generalizing off with
  | nil =>
    unfold go
    simp only [Tiles] at h
    rw [dif_neg (by omega)]
  | cons b bs ih =>
    have htop := h.top_eq
    simp only [span] at htop
    obtain ⟨hsize, hfree, htail⟩ := h
    simp only [firstFit] at hfit
    split at hfit
    . split at hfit <;> cases hfit
    . next hb =>
      have hno : ¬(b.free.toNat ≠ 0 ∧ n ≤ b.size) := by
        intro hall
        apply hb
        simp_all
      unfold go
      rw [dif_pos (by omega), if_neg (by omega)]
      simp only [hsize, hfree]
      rw [if_neg hno]
      split
      . rfl
      . apply ih htail
        split at hfit
        . assumption
        . cases hfit

theorem go_eq_some {fpoolBytes : UInt32} {pool : Mem} {off n o : Nat} {bs bs' : List Block}
    (h : Tiles pool fpoolBytes.toNat off bs) (hfit : firstFit 8 16 n bs = some (o, bs'))
    : ∃ pool', go fpoolBytes n pool off = (some (off + o + 8), pool')
        ∧ Tiles pool' fpoolBytes.toNat off bs' ∧ KeepsLive off bs pool pool' := by
  have hlt := fpoolBytes.toNat_lt
  induction bs generalizing off o bs' with
  | nil => simp [firstFit] at hfit
  | cons b bs ih =>
    have htop := h.top_eq
    simp only [span] at htop
    obtain ⟨hsize, hfree, htail⟩ := h
    unfold go
    rw [dif_pos (by omega), if_neg (by omega)]
    simp only [hsize, hfree]
    simp only [firstFit] at hfit
    split at hfit
    . next hb =>
      rw [if_pos (by simp [hb])]
      -- the block taken is free, so that no allocated payload starts before its end
      have hlive : ∀ x ∈ live 8 off (b :: bs), off + 8 + b.size + 8 ≤ x.1 := by
        intro x hx
        simp only [live, hb.1, ↓reduceIte] at hx
        exact (mem_live_bounds hx).1
      split at hfit
      . next hsplit =>
        cases hfit
        rw [if_pos (by omega)]
        refine ⟨_, rfl, ⟨?_, ?_, ?_, ?_, ?_⟩, ?_, ?_⟩
        . rw [Mem.read32_write32_disjoint (by omega), Mem.read32_write32_same _ (by omega)]
        . rw [Mem.read32_write32_same _ (by omega)]
          rfl
        . dsimp only
          rw [Mem.read32_write32_disjoint (by omega), Mem.read32_write32_disjoint (by omega),
            Mem.read32_write32_disjoint (by omega), Mem.read32_write32_same _ (by omega)]
        . dsimp only
          rw [Mem.read32_write32_disjoint (by omega), Mem.read32_write32_disjoint (by omega),
            Mem.read32_write32_same _ (by omega)]
          rfl
        . have : off + 8 + n + 8 + (b.size - n - 8) = off + 8 + b.size := by omega
          simp only [this]
          apply htail.congr
          intro i _ _
          rw [Mem.write32_of_ge (by omega), Mem.write32_of_ge (by omega),
            Mem.write32_of_ge (by omega), Mem.write32_of_ge (by omega)]
        . intro i hi
          rw [Mem.write32_of_lt (by omega), Mem.write32_of_lt (by omega),
            Mem.write32_of_lt (by omega), Mem.write32_of_lt (by omega)]
        . intro x hx i hle hi
          have := hlive x hx
          rw [Mem.write32_of_ge (by omega), Mem.write32_of_ge (by omega),
            Mem.write32_of_ge (by omega), Mem.write32_of_ge (by omega)]
      . next hsplit =>
        cases hfit
        rw [if_neg (by omega)]
        refine ⟨_, rfl, ⟨?_, ?_, ?_⟩, ?_, ?_⟩
        . rw [Mem.read32_write32_disjoint (by omega)]
          assumption
        . rw [Mem.read32_write32_same _ (by omega)]
          rfl
        . apply htail.congr
          intro i _ _
          apply Mem.write32_of_ge
          omega
        . intro i hi
          apply Mem.write32_of_lt
          omega
        . intro x hx i hle hi
          have := hlive x hx
          apply Mem.write32_of_ge
          omega
    . next hb =>
      have hno : ¬(b.free.toNat ≠ 0 ∧ n ≤ b.size) := by
        intro hall
        apply hb
        simp_all
      rw [if_neg hno]
      split at hfit
      . cases hfit
      . next o' bs'' heq =>
        cases hfit
        have hcons : bs ≠ [] := by
          rintro rfl
          simp [firstFit] at heq
        obtain ⟨c, cs, rfl⟩ := List.exists_cons_of_ne_nil hcons
        simp only [span] at htop
        rw [if_neg (by omega)]
        obtain ⟨pool', hgo, htiles, hkeep⟩ := ih htail heq
        have hold : Tiles pool fpoolBytes.toNat off (b :: c :: cs) := ⟨hsize, hfree, htail⟩
        refine ⟨pool', ?_, hold.cons hkeep.1 htiles, hkeep.cons⟩
        rw [hgo]
        congr 2
        omega

end fpoolAlloc

/--
What holds of a pool between two calls of the allocator: its headers tile it, no two neighbours are
free and all payloads are non empty multiples of four.
-/
structure PoolInv (fpoolBytes : UInt32) (pool : Mem) (bs : List Block) : Prop where
  tiles : Tiles pool fpoolBytes.toNat 0 bs
  separated : Separated bs
  aligned : Aligned 4 bs

namespace PoolInv

variable {fpoolBytes : UInt32} {pool pool' : Mem} {bs : List Block}

theorem init (h16 : 16 ∣ fpoolBytes.toNat) (h8 : 8 < fpoolBytes.toNat)
    : PoolInv fpoolBytes (fpoolInit fpoolBytes pool) [⟨fpoolBytes.toNat - 8, true⟩] where
  tiles := Tiles.init h8
  separated := by simp [Separated]
  aligned := by
    intro b hb
    rw [List.mem_singleton] at hb
    subst hb
    dsimp only
    omega

theorem alloc_eq_none {n : Nat} (h : PoolInv fpoolBytes pool bs)
    (hfit : firstFit 8 16 ((n + 3) / 4 * 4) bs = none)
    : fpoolAlloc fpoolBytes pool n = (none, pool) := by
  unfold fpoolAlloc
  split
  . rfl
  . exact fpoolAlloc.go_eq_none h.tiles hfit

theorem alloc_eq_some {n o : Nat} {bs' : List Block} (h : PoolInv fpoolBytes pool bs) (hn : 0 < n)
    (hfit : firstFit 8 16 ((n + 3) / 4 * 4) bs = some (o, bs'))
    : ∃ pool', fpoolAlloc fpoolBytes pool n = (some (o + 8), pool')
        ∧ PoolInv fpoolBytes pool' bs' ∧ KeepsLive 0 bs pool pool' := by
  obtain ⟨pool', hgo, htiles, hkeep⟩ := fpoolAlloc.go_eq_some h.tiles hfit
  refine ⟨pool', ?_, ⟨htiles, ?_, ?_⟩, hkeep⟩
  . unfold fpoolAlloc
    rw [if_neg (by omega), hgo, Nat.zero_add]
  . exact separated_firstFit hfit h.separated
  . apply aligned_firstFit (by decide) _ (by omega) (by decide) hfit h.aligned
    omega

theorem coalesced (h : Tiles pool fpoolBytes.toNat 0 bs) (hal : Aligned 4 bs) (hne : bs ≠ [])
    : ∃ bs', PoolInv fpoolBytes (fpoolCoalesce fpoolBytes pool) bs'
        ∧ KeepsLive 0 bs pool (fpoolCoalesce fpoolBytes pool) ∧ live 8 0 bs' = live 8 0 bs := by
  obtain ⟨b, bs, rfl⟩ := List.exists_cons_of_ne_nil hne
  obtain ⟨htiles, hkeep⟩ := fpoolCoalesce.go_spec h
  refine ⟨coalesce 8 b bs, ⟨htiles, ?_, ?_⟩, hkeep, ?_⟩
  . apply separated_coalesce
  . exact aligned_coalesce (by decide) hal
  . apply live_coalesce

theorem free {p size : Nat} (h : PoolInv fpoolBytes pool bs) (hp : (p, size) ∈ live 8 0 bs)
    : ∃ bs', PoolInv fpoolBytes (fpoolFree fpoolBytes pool (some p)) bs'
        ∧ (∀ x, x ∈ live 8 0 bs' ↔ x ∈ live 8 0 bs ∧ x.1 ≠ p)
        ∧ ∀ x ∈ live 8 0 bs, x.1 ≠ p →
            ∀ i, x.1 ≤ i → i < x.1 + x.2 → fpoolFree fpoolBytes pool (some p) i = pool i := by
  have hbound := mem_live_bounds hp
  have htop := h.tiles.top_eq
  have hlive := aligned_live (by decide) (by decide) h.aligned (p, size) hp
  simp only at hbound hlive
  have hpos : ∀ b ∈ bs, 0 < b.size := by
    intro b hb
    exact (h.aligned b hb).2
  have htiles := h.tiles.release hp
  have hne : release 8 p 0 bs ≠ [] := by
    intro hnil
    have : span 8 (release 8 p 0 bs) = span 8 bs := span_release p 0 bs
    rw [hnil] at this
    simp only [span] at this
    omega
  obtain ⟨bs', hinv, hkeep, heq⟩ := coalesced htiles (aligned_release h.aligned) hne
  have hfree : fpoolFree fpoolBytes pool (some p)
      = fpoolCoalesce fpoolBytes (pool.write32 (p - 8 + 4) 1) := by
    unfold fpoolFree
    dsimp only
    rw [if_neg (by omega)]
  rw [hfree]
  refine ⟨bs', hinv, ?_, ?_⟩
  . intro x
    rw [heq]
    apply mem_live_release
    assumption
  . intro x hx hxp i hle hi
    have hmem : x ∈ live 8 0 (release 8 p 0 bs) := by
      rw [mem_live_release hpos]
      exact ⟨hx, hxp⟩
    rw [hkeep.2 x hmem i hle hi]
    -- the flag that is set lies in the header of `p`
    cases mem_live_disjoint hx hp with
    | inl h =>
      subst h
      contradiction
    | inr h =>
      simp only at h
      cases h with
      | inl h => apply Mem.write32_of_lt; omega
      | inr h => apply Mem.write32_of_ge; omega

end PoolInv

/--
The pool memory together with what its users hold: each live pointer with the bytes asked for.
-/
structure Heap where
  mem : Mem
  live : List (Nat × Nat)

/--
A call of the allocator by a user that asks for 1 to `maxFileData` bytes and only frees what it
holds.
-/
inductive PoolStep (fpoolBytes : UInt32) : Heap → Heap → Prop where
  | alloc (h : Heap) (n p : Nat) (mem : Mem) (hpos : 1 ≤ n) (hmax : n ≤ maxFileData)
      (halloc : fpoolAlloc fpoolBytes h.mem n = (some p, mem))
      : PoolStep fpoolBytes h ⟨mem, (p, n) :: h.live⟩
  | null (h : Heap) (n : Nat) (mem : Mem) (hpos : 1 ≤ n) (hmax : n ≤ maxFileData)
      (halloc : fpoolAlloc fpoolBytes h.mem n = (none, mem))
      : PoolStep fpoolBytes h ⟨mem, h.live⟩
  | free (h : Heap) (p n : Nat) (hlive : (p, n) ∈ h.live)
      : PoolStep fpoolBytes h ⟨fpoolFree fpoolBytes h.mem (some p), h.live.erase (p, n)⟩

namespace Heap

def payload (h : Heap) (p : Nat) : Nat :=
  h.mem.read32 (p - 8)

/--
The pool is tiled by `bs`, and the pointers held are those of its allocated blocks.
-/
structure Inv (fpoolBytes : UInt32) (h : Heap) (bs : List Block) : Prop where
  pool : PoolInv fpoolBytes h.mem bs
  nodup : (h.live.map Prod.fst).Nodup
  held : ∀ x ∈ h.live, ∃ size, (x.1, size) ∈ Tiling.live 8 0 bs ∧ x.2 ≤ size
  holder : ∀ x ∈ Tiling.live 8 0 bs, x.1 ∈ h.live.map Prod.fst

/--
The bytes of a payload are the same in `h` and `h'`.
-/
def SamePayload (h h' : Heap) (p : Nat) : Prop :=
  ∀ i, p ≤ i → i < p + h.payload p → h'.mem i = h.mem i

variable {fpoolBytes : UInt32} {h h' : Heap} {bs : List Block}

theorem Inv.payload_eq {p size : Nat} (hinv : Inv fpoolBytes h bs)
    (hp : (p, size) ∈ Tiling.live 8 0 bs)
    : h.payload p = size := by
  exact (hinv.pool.tiles.read_live hp).1

theorem Inv.alloc {n p : Nat} {mem : Mem} (hinv : Inv fpoolBytes h bs) (hpos : 1 ≤ n)
    (halloc : fpoolAlloc fpoolBytes h.mem n = (some p, mem))
    : (∃ bs', Inv fpoolBytes ⟨mem, (p, n) :: h.live⟩ bs')
        ∧ ∀ x ∈ h.live, SamePayload h ⟨mem, (p, n) :: h.live⟩ x.1 := by
  cases hfit : firstFit 8 16 ((n + 3) / 4 * 4) bs with
  | none =>
    rw [hinv.pool.alloc_eq_none hfit] at halloc
    simp at halloc
  | some res =>
    obtain ⟨o, bs'⟩ := res
    obtain ⟨pool', heq, hpool, hkeep⟩ := hinv.pool.alloc_eq_some (by omega) hfit
    rw [heq] at halloc
    cases halloc
    obtain ⟨size, hle, hnew, hiff⟩ := mem_live_firstFit 0 (by decide) hfit
    simp only [Nat.zero_add] at hnew hiff
    refine ⟨⟨bs', hpool, ?_, ?_, ?_⟩, ?_⟩
    . rw [List.map_cons, List.nodup_cons]
      refine ⟨?_, hinv.nodup⟩
      intro hmem
      obtain ⟨x, hx, hfst⟩ := List.mem_map.mp hmem
      obtain ⟨size', hlive, _⟩ := hinv.held x hx
      -- the new payload is another one than all those held so far
      have h1 := (hiff (x.1, size')).mpr (Or.inr hlive)
      have h2 := (hiff (o + 8, size)).mpr (Or.inl rfl)
      cases mem_live_disjoint h1 h2 with
      | inl h =>
        rw [h] at hlive
        contradiction
      | inr h =>
        simp only at h hfst
        omega
    . intro x hx
      rw [List.mem_cons] at hx
      cases hx with
      | inl hx =>
        subst hx
        refine ⟨size, (hiff _).mpr (Or.inl rfl), ?_⟩
        simp only
        omega
      | inr hx =>
        obtain ⟨size', hlive, hle'⟩ := hinv.held x hx
        exact ⟨size', (hiff _).mpr (Or.inr hlive), hle'⟩
    . intro x hx
      rw [hiff] at hx
      cases hx with
      | inl hx => simp [hx]
      | inr hx =>
        have := hinv.holder x hx
        simp only [List.map_cons, List.mem_cons]
        exact Or.inr this
    . intro x hx i hle hi
      obtain ⟨size', hlive, _⟩ := hinv.held x hx
      rw [hinv.payload_eq hlive] at hi
      exact hkeep.2 _ hlive i hle hi

theorem Inv.null {n : Nat} {mem : Mem} (hinv : Inv fpoolBytes h bs) (hpos : 1 ≤ n)
    (halloc : fpoolAlloc fpoolBytes h.mem n = (none, mem))
    : mem = h.mem := by
  cases hfit : firstFit 8 16 ((n + 3) / 4 * 4) bs with
  | none =>
    rw [hinv.pool.alloc_eq_none hfit] at halloc
    simp only [Prod.mk.injEq, true_and] at halloc
    exact halloc.symm
  | some res =>
    obtain ⟨pool', heq, _, _⟩ := hinv.pool.alloc_eq_some (by omega) hfit
    rw [heq] at halloc
    simp at halloc

theorem Inv.free {p n : Nat} (hinv : Inv fpoolBytes h bs) (hlive : (p, n) ∈ h.live)
    : (∃ bs', Inv fpoolBytes ⟨fpoolFree fpoolBytes h.mem (some p), h.live.erase (p, n)⟩ bs')
        ∧ ∀ x ∈ h.live.erase (p, n),
            SamePayload h ⟨fpoolFree fpoolBytes h.mem (some p), h.live.erase (p, n)⟩ x.1 := by
  obtain ⟨size, hp, hle⟩ := hinv.held _ hlive
  obtain ⟨bs', hpool, hiff, hkeep⟩ := hinv.pool.free hp
  have hnodup : h.live.Nodup := List.Nodup.of_map _ hinv.nodup
  -- what remains held are the pointers other than `p`
  have hne : ∀ x ∈ h.live.erase (p, n), x ∈ h.live ∧ x.1 ≠ p := by
    intro x hx
    rw [hnodup.mem_erase_iff] at hx
    refine ⟨hx.2, ?_⟩
    intro hfst
    apply hx.1
    exact List.inj_on_of_nodup_map hinv.nodup hx.2 hlive hfst
  refine ⟨⟨bs', hpool, ?_, ?_, ?_⟩, ?_⟩
  . exact hinv.nodup.sublist (List.erase_sublist.map _)
  . intro x hx
    obtain ⟨hmem, hxp⟩ := hne x hx
    obtain ⟨size', hx', hle'⟩ := hinv.held x hmem
    exact ⟨size', (hiff _).mpr ⟨hx', hxp⟩, hle'⟩
  . intro x hx
    rw [hiff] at hx
    obtain ⟨y, hy, hfst⟩ := List.mem_map.mp (hinv.holder x hx.1)
    apply List.mem_map.mpr
    refine ⟨y, ?_, hfst⟩
    rw [hnodup.mem_erase_iff]
    refine ⟨?_, hy⟩
    rintro rfl
    exact hx.2 hfst.symm
  . intro x hx i hxi hi
    obtain ⟨hmem, hxp⟩ := hne x hx
    obtain ⟨size', hx', _⟩ := hinv.held x hmem
    rw [hinv.payload_eq hx'] at hi
    exact hkeep _ hx' hxp i hxi hi

theorem Inv.step (hinv : Inv fpoolBytes h bs) (hstep : PoolStep fpoolBytes h h')
    : (∃ bs', Inv fpoolBytes h' bs')
        ∧ ∀ x ∈ h.live, x ∈ h'.live → SamePayload h h' x.1 := by
  cases hstep with
  | alloc n p mem hpos hmax halloc =>
    obtain ⟨hinv', hsame⟩ := hinv.alloc hpos halloc
    exact ⟨hinv', fun x hx _ => hsame x hx⟩
  | null n mem hpos hmax halloc =>
    have := hinv.null hpos halloc
    subst this
    exact ⟨⟨bs, hinv⟩, fun x _ _ i _ _ => rfl⟩
  | free p n hlive =>
    obtain ⟨hinv', hsame⟩ := hinv.free hlive
    exact ⟨hinv', fun x _ hx => hsame x hx⟩

theorem Inv.run (h16 : 16 ∣ fpoolBytes.toNat) (h8 : 8 < fpoolBytes.toNat) (m : Mem)
    (hrun : Relation.ReflTransGen (PoolStep fpoolBytes) ⟨fpoolInit fpoolBytes m, []⟩ h)
    : ∃ bs, Inv fpoolBytes h bs := by
  induction hrun with
  | refl =>
    refine ⟨_, PoolInv.init h16 h8, ?_, ?_, ?_⟩
    . simp
    . simp
    . simp [Tiling.live]
  | tail _ hstep ih =>
    obtain ⟨bs, hinv⟩ := ih
    exact (hinv.step hstep).1

/--
The contract of the allocator in the state `h`, with `bs` the blocks its headers describe. What is not
held is free.
-/
structure Ok (fpoolBytes : UInt32) (h : Heap) (bs : List Block) : Prop where
  tiles : Tiles h.mem fpoolBytes.toNat 0 bs
  separated : Separated bs
  allocated : ∀ p, (∃ size, (p, size) ∈ Tiling.live 8 0 bs) ↔ p ∈ h.live.map Prod.fst
  payloads : ∀ x ∈ h.live, 4 ∣ x.1 ∧ 8 ≤ x.1 ∧ x.2 ≤ h.payload x.1
    ∧ x.1 + h.payload x.1 ≤ fpoolBytes.toNat
  disjoint : h.live.Pairwise (fun x y =>
    x.1 + h.payload x.1 ≤ y.1 ∨ y.1 + h.payload y.1 ≤ x.1)
  alloc_null : ∀ n, 1 ≤ n → n ≤ maxFileData →
    ((fpoolAlloc fpoolBytes h.mem n).1 = none ↔ ∀ b ∈ bs, b.free → b.size < (n + 3) / 4 * 4)
  frame : ∀ h', PoolStep fpoolBytes h h' → ∀ x ∈ h.live, x ∈ h'.live → SamePayload h h' x.1

theorem Inv.alloc_null_iff {n : Nat} (hinv : Inv fpoolBytes h bs) (hn : 1 ≤ n)
    : (fpoolAlloc fpoolBytes h.mem n).1 = none
        ↔ ∀ b ∈ bs, b.free → b.size < (n + 3) / 4 * 4 := by
  rw [← firstFit_eq_none_iff 8 16]
  cases hfit : firstFit 8 16 ((n + 3) / 4 * 4) bs with
  | none =>
    rw [hinv.pool.alloc_eq_none hfit]
    simp
  | some res =>
    obtain ⟨pool', heq, _, _⟩ := hinv.pool.alloc_eq_some (by omega) hfit
    rw [heq]
    simp

theorem Inv.ok (hinv : Inv fpoolBytes h bs) : Ok fpoolBytes h bs where
  tiles := hinv.pool.tiles
  separated := hinv.pool.separated
  allocated := by
    intro p
    constructor
    . rintro ⟨size, hp⟩
      exact hinv.holder _ hp
    . intro hp
      obtain ⟨x, hx, rfl⟩ := List.mem_map.mp hp
      obtain ⟨size, hlive, _⟩ := hinv.held x hx
      exact ⟨size, hlive⟩
  payloads := by
    intro x hx
    obtain ⟨size, hlive, hle⟩ := hinv.held x hx
    have hbound := mem_live_bounds hlive
    have htop := hinv.pool.tiles.top_eq
    have halign := aligned_live (by decide) (by decide) hinv.pool.aligned _ hlive
    rw [hinv.payload_eq hlive]
    simp only at hbound
    exact ⟨halign.1, by omega, hle, by omega⟩
  disjoint := by
    have hne : h.live.Pairwise (fun x y => x.1 ≠ y.1) := by
      rw [← List.pairwise_map]
      exact hinv.nodup
    rw [List.pairwise_iff_forall_sublist] at hne ⊢
    intro x y hsub
    have hxy := hne hsub
    obtain ⟨sx, hx, _⟩ := hinv.held x (hsub.subset (by simp))
    obtain ⟨sy, hy, _⟩ := hinv.held y (hsub.subset (by simp))
    rw [hinv.payload_eq hx, hinv.payload_eq hy]
    cases mem_live_disjoint hx hy with
    | inl h =>
      simp only [Prod.mk.injEq] at h
      exact absurd h.1 hxy
    | inr h =>
      simp only at h
      omega
  alloc_null := by
    intro n hn _
    exact hinv.alloc_null_iff hn
  frame := by
    intro h' hstep
    exact (hinv.step hstep).2

end Heap

/--
In every state that users of the pool can bring about the headers tile it and the allocator does
what it promises.
-/
theorem fpool_run_ok (fpoolBytes : UInt32) (h16 : 16 ∣ fpoolBytes.toNat) (h8 : 8 < fpoolBytes.toNat)
    (m : Mem) (h : Heap)
    (hrun : Relation.ReflTransGen (PoolStep fpoolBytes) ⟨fpoolInit fpoolBytes m, []⟩ h)
    : ∃ bs, h.Ok fpoolBytes bs := by
  obtain ⟨bs, hinv⟩ := Heap.Inv.run h16 h8 m hrun
  exact ⟨bs, hinv.ok⟩

theorem fpool_run_ok_sixty_four
    : ∃ h : Heap, h.live = [(8, 5)] ∧ ∃ bs, h.Ok 64 bs := by
  refine ⟨⟨(fpoolAlloc 64 (fpoolInit 64 (fun _ => 0)) 5).2, [(8, 5)]⟩, rfl, ?_⟩
  apply fpool_run_ok 64 (by decide) (by decide) (fun _ => 0)
  apply Relation.ReflTransGen.single
  apply PoolStep.alloc _ 5 8 _ (by decide) (by decide)
  have : (fpoolAlloc 64 (fpoolInit 64 (fun _ => 0)) 5).1 = some 8 := by decide +kernel
  rw [← this]

end TanjaOS
