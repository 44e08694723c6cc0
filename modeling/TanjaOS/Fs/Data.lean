import TanjaOS.Fs.Pool.Lemmas
import TanjaOS.Fs.Ops.Prim

/-!
File contents. The tables and the pool agree on who owns which block, so that what is done to one
file leaves the bytes of all others alone.
-/

open Lib
open Lib.Tiling

namespace TanjaOS

theorem storeAt_eq_writeBytes {fpoolBytes : UInt32} {pool : Mem} {addr : Nat} {data : Bytes}
    (h : addr + data.length ≤ fpoolBytes.toNat)
    : storeAt fpoolBytes pool addr data = pool.writeBytes addr data := by
  have hlt := fpoolBytes.toNat_lt
  funext i
  unfold storeAt Mem.writeBytes
  by_cases hi : i < fpoolBytes.toNat
  . rw [if_pos hi]
    by_cases haddr : addr ≤ i
    . have : (i + 2 ^ 32 - addr % 2 ^ 32) % 2 ^ 32 = i - addr := by omega
      rw [if_pos haddr, this]
    . have : data.length ≤ (i + 2 ^ 32 - addr % 2 ^ 32) % 2 ^ 32 := by omega
      rw [if_neg haddr, List.getElem?_eq_none this]
      rfl
  . rw [if_neg hi]
    split
    . rw [List.getElem?_eq_none (by omega)]
      rfl
    . rfl

def SizeOk (s : FsState) : Prop :=
  ∀ i, s.fsize i < maxFileData ∧ (s.fdata i = none → s.fsize i = 0)

/--
Each file with data owns a block of the pool that has room for its bytes and a NUL.
-/
structure DataInv (s : FsState) (bs : List Block) : Prop where
  pool : PoolInv s.fpoolBytes s.fpool bs
  held : ∀ i p, s.fdata i = some p → ∃ size, (p, size) ∈ live 8 0 bs ∧ s.fsize i < size
  distinct : ∀ i j p, s.fdata i = some p → s.fdata j = some p → i = j

def freshBlocks (fpoolBytes : UInt32) : List Block :=
  if fpoolBytes.toNat = 0 then [] else [⟨fpoolBytes.toNat - 8, true⟩]

/--
File `j` is left alone.
-/
structure SameFile (s s' : FsState) (j : Fin maxF) : Prop where
  fdata : s'.fdata j = s.fdata j
  fsize : s'.fsize j = s.fsize j
  bytes : s'.fileBytes j = s.fileBytes j

namespace SameFile

variable {s s' s'' : FsState} {j : Fin maxF}

theorem refl (s : FsState) (j : Fin maxF) : SameFile s s j :=
  ⟨rfl, rfl, rfl⟩

theorem trans (h : SameFile s s' j) (h' : SameFile s' s'' j) : SameFile s s'' j where
  fdata := by rw [h'.fdata, h.fdata]
  fsize := by rw [h'.fsize, h.fsize]
  bytes := by rw [h'.bytes, h.bytes]

theorem of_pool (hdata : s'.fdata j = s.fdata j) (hsize : s'.fsize j = s.fsize j)
    (hpool : ∀ p, s.fdata j = some p →
      ∀ i, p ≤ i → i < p + s.fsize j → s'.fpool i = s.fpool i)
    : SameFile s s' j := by
  refine ⟨hdata, hsize, ?_⟩
  unfold FsState.fileBytes
  rw [hdata]
  split
  . rfl
  . next p hp =>
    rw [hsize]
    apply Mem.readBytes_congr
    apply hpool
    assumption

end SameFile

namespace DataInv

variable {s : FsState} {bs : List Block}

theorem length_fileBytes {i : Fin maxF} (h : s.fdata i = none → s.fsize i = 0)
    : (s.fileBytes i).length = s.fsize i := by
  unfold FsState.fileBytes
  split
  . next hnone => rw [h hnone]; rfl
  . simp

theorem of_keeps {s' : FsState} {bs' : List Block} (h : DataInv s bs)
    (hpool : PoolInv s'.fpoolBytes s'.fpool bs')
    (hkeep : ∀ j p, s'.fdata j = some p → s.fdata j = some p ∧ s'.fsize j = s.fsize j
      ∧ ∀ size, (p, size) ∈ live 8 0 bs → (p, size) ∈ live 8 0 bs')
    : DataInv s' bs' := by
  refine ⟨hpool, ?_, ?_⟩
  . intro i p hp
    obtain ⟨hdata, hsize, hlive⟩ := hkeep i p hp
    obtain ⟨size, hmem, hlt⟩ := h.held i p hdata
    refine ⟨size, hlive size hmem, ?_⟩
    rwa [hsize]
  . intro i j p hi hj
    exact h.distinct i j p (hkeep i p hi).1 (hkeep j p hj).1

theorem sameFile {s' : FsState} {j : Fin maxF} (h : DataInv s bs) (hdata : s'.fdata j = s.fdata j)
    (hsize : s'.fsize j = s.fsize j)
    (hkeep : ∀ p size, s.fdata j = some p → (p, size) ∈ live 8 0 bs →
      ∀ a, p ≤ a → a < p + size → s'.fpool a = s.fpool a)
    : SameFile s s' j := by
  apply SameFile.of_pool hdata hsize
  intro p hp a hle hlt
  obtain ⟨size, hmem, hsize⟩ := h.held j p hp
  apply hkeep p size hp hmem a hle
  omega

theorem coalesce (h : DataInv s bs)
    : ∃ bs', DataInv { s with fpool := fpoolCoalesce s.fpoolBytes s.fpool } bs'
        ∧ ∀ j, SameFile s { s with fpool := fpoolCoalesce s.fpoolBytes s.fpool } j := by
  by_cases hne : bs = []
  . -- without a pool there is nothing to walk
    subst hne
    have hzero : s.fpoolBytes.toNat = 0 := h.pool.tiles.symm
    have hid : fpoolCoalesce s.fpoolBytes s.fpool = s.fpool := by
      unfold fpoolCoalesce fpoolCoalesce.go
      rw [dif_neg (by omega)]
    rw [hid]
    exact ⟨[], h, SameFile.refl s⟩
  . obtain ⟨bs', hpool, hkeep, hlive⟩ := PoolInv.coalesced h.pool.tiles h.pool.aligned hne
    refine ⟨bs', h.of_keeps hpool ?_, ?_⟩
    . intro j p hp
      rw [hlive]
      exact ⟨hp, rfl, fun _ hmem => hmem⟩
    . intro j
      apply h.sameFile
      . rfl
      . rfl
      . intro p size _ hmem
        exact hkeep.2 (p, size) hmem

theorem freeData (h : DataInv s bs) (i : Fin maxF)
    : ∃ bs', DataInv (s.freeData i) bs'
        ∧ (∀ x ∈ live 8 0 bs, s.fdata i ≠ some x.1 → x ∈ live 8 0 bs')
        ∧ (s.fdata i = none → bs' = bs)
        ∧ ∀ j, j ≠ i → SameFile s (s.freeData i) j := by
  have hne : ∀ j p, (s.freeData i).fdata j = some p → j ≠ i := by
    rintro j p hj rfl
    simp [FsState.freeData] at hj
  have hdata : ∀ j, j ≠ i → (s.freeData i).fdata j = s.fdata j := by
    intro j hij
    simp [FsState.freeData, hij]
  have hsize : ∀ j, j ≠ i → (s.freeData i).fsize j = s.fsize j := by
    intro j hij
    simp [FsState.freeData, hij]
  cases hp : s.fdata i with
  | none =>
    have hpool : (s.freeData i).fpool = s.fpool := by
      simp only [FsState.freeData, hp]
      rfl
    refine ⟨bs, h.of_keeps ?_ ?_, fun x hx _ => hx, fun _ => rfl, ?_⟩
    . rw [hpool]
      exact h.pool
    . intro j p hj
      rw [← hdata j (hne j p hj)]
      exact ⟨hj, hsize j (hne j p hj), fun _ hmem => hmem⟩
    . intro j hij
      apply h.sameFile (hdata j hij) (hsize j hij)
      intro _ _ _ _ _ _ _
      rw [hpool]
  | some p =>
    obtain ⟨size, hmem, _⟩ := h.held i p hp
    obtain ⟨bs', hpool, hlive, hkeep⟩ := h.pool.free hmem
    have hother : ∀ j q, j ≠ i → s.fdata j = some q → q ≠ p := by
      rintro j q hij hq rfl
      exact hij (h.distinct j i q hq hp)
    have hfree : (s.freeData i).fpool = fpoolFree s.fpoolBytes s.fpool (some p) := by
      rw [← hp]
      rfl
    refine ⟨bs', h.of_keeps ?_ ?_, ?_, by simp, ?_⟩
    . rw [hfree]
      exact hpool
    . intro j q hj
      have hij := hne j q hj
      rw [hdata j hij] at hj
      refine ⟨hj, hsize j hij, ?_⟩
      intro size hmem
      rw [hlive]
      exact ⟨hmem, hother j q hij hj⟩
    . intro x hx hxp
      rw [hlive]
      refine ⟨hx, ?_⟩
      rintro rfl
      contradiction
    . intro j hij
      apply h.sameFile (hdata j hij) (hsize j hij)
      intro q size hq hmem
      rw [hfree]
      exact hkeep (q, size) hmem (hother j q hij hq)

theorem write (h : DataInv s bs) (pool : Mem) {q qsize : Nat} (hmem : (q, qsize) ∈ live 8 0 bs)
    (heq : ∀ a, (a < q ∨ q + qsize ≤ a) → pool a = s.fpool a)
    : DataInv { s with fpool := pool } bs
        ∧ ∀ j, s.fdata j ≠ some q → SameFile s { s with fpool := pool } j := by
  refine ⟨h.of_keeps ⟨?_, h.pool.separated, h.pool.aligned⟩ ?_, ?_⟩
  . exact h.pool.tiles.congr_payload hmem heq
  . intro j p hp
    exact ⟨hp, rfl, fun _ hmem => hmem⟩
  . intro j hj
    apply h.sameFile
    . rfl
    . rfl
    . intro p size hp hpmem a hle ha
      apply heq
      cases mem_live_disjoint hpmem hmem with
      | inl hsame =>
        injection hsame with hsame
        subst hsame
        contradiction
      | inr hdisj =>
        simp only at hdisj
        omega

theorem block_bound {q qsize : Nat} (h : DataInv s bs) (hmem : (q, qsize) ∈ live 8 0 bs)
    : q + qsize ≤ s.fpoolBytes.toNat := by
  have hbound := mem_live_bounds hmem
  have htop := h.pool.tiles.top_eq
  simp only at hbound
  omega

theorem storeFile (h : DataInv s bs) (i : Fin maxF) (offset : Nat) (data : Bytes)
    (hfit : offset + data.length ≤ s.fsize i + 1)
    : DataInv (s.storeFile i offset data) bs
        ∧ (∀ j, j ≠ i → SameFile s (s.storeFile i offset data) j)
        ∧ ∀ p, s.fdata i = some p →
            (s.storeFile i offset data).fpool = s.fpool.writeBytes (p + offset) data := by
  unfold FsState.storeFile
  split
  . next hnone =>
    refine ⟨h, fun j _ => SameFile.refl s j, ?_⟩
    intro p hp
    rw [hnone] at hp
    contradiction
  . next p hp =>
    obtain ⟨size, hmem, hlt⟩ := h.held i p hp
    have hbound := h.block_bound hmem
    rw [storeAt_eq_writeBytes (by omega)]
    have hwrite := h.write (s.fpool.writeBytes (p + offset) data) hmem (by
      rintro a (ha | ha)
      . apply Mem.writeBytes_of_lt
        omega
      . apply Mem.writeBytes_of_ge
        omega)
    refine ⟨hwrite.1, ?_, ?_⟩
    . intro j hij
      apply hwrite.2
      intro hj
      exact hij (h.distinct j i p hj hp)
    . intro q hq
      rw [hp] at hq
      injection hq with hq
      rw [hq]

theorem fileBytes_storeFile {i : Fin maxF} {data : Bytes} (h : DataInv s bs)
    (hdata : s.fdata i = none → s.fsize i = 0) (hlen : data.length = s.fsize i)
    : (s.storeFile i 0 data).fileBytes i = data := by
  obtain ⟨_, _, hpool⟩ := h.storeFile i 0 data (by omega)
  unfold FsState.fileBytes
  rw [FsState.fdata_storeFile, FsState.fsize_storeFile]
  split
  . next hnone =>
    rw [hdata hnone] at hlen
    rw [List.length_eq_zero_iff.mp hlen]
  . next p hp =>
    rw [hpool p hp, ← hlen]
    apply Mem.readBytes_writeBytes_same

theorem fileBytes_terminate {i : Fin maxF} {b : Byte} (h : DataInv s bs)
    : (s.storeFile i (s.fsize i) [b]).fileBytes i = s.fileBytes i := by
  obtain ⟨_, _, hpool⟩ := h.storeFile i (s.fsize i) [b] (by simp)
  unfold FsState.fileBytes
  rw [FsState.fdata_storeFile, FsState.fsize_storeFile]
  split
  . rfl
  . next p hp =>
    rw [hpool p hp]
    apply Mem.readBytes_writeBytes_disjoint
    omega

theorem take {i : Fin maxF} {p psize size : Nat} (h : DataInv s bs)
    (hmem : (p, psize) ∈ live 8 0 bs) (hfree : ∀ j, j ≠ i → s.fdata j ≠ some p) (hsize : size < psize)
    : DataInv { s with
        fdata := Function.update s.fdata i (some p)
        fsize := Function.update s.fsize i size } bs := by
  refine ⟨h.pool, ?_, ?_⟩
  . intro j q hq
    by_cases hij : j = i
    . subst hij
      simp only [Function.update_self, Option.some.injEq] at hq ⊢
      subst hq
      exact ⟨psize, hmem, hsize⟩
    . simp only [ne_eq, hij, not_false_eq_true, Function.update_of_ne] at hq ⊢
      exact h.held j q hq
  . have hother : ∀ j q, j ≠ i → Function.update s.fdata i (some p) j = some q →
        s.fdata j = some q ∧ q ≠ p := by
      intro j q hij hq
      rw [Function.update_of_ne hij] at hq
      refine ⟨hq, ?_⟩
      rintro rfl
      exact hfree j hij hq
    intro j k q hj hk
    by_cases hij : j = i
    . by_cases hik : k = i
      . rw [hij, hik]
      . subst hij
        simp only [Function.update_self, Option.some.injEq] at hj
        exact absurd hj.symm (hother k q hik hk).2
    . by_cases hik : k = i
      . subst hik
        simp only [Function.update_self, Option.some.injEq] at hk
        exact absurd hk.symm (hother j q hij hj).2
      . exact h.distinct j k q (hother j q hij hj).1 (hother k q hik hk).1

/--
The block size that `fdata_resize` asks for.
-/
def need (size : Nat) : Nat :=
  (size + 1 + 3) / 4 * 4

theorem resize_full {i : Fin maxF} {size : Nat} (h : DataInv s bs) (hpos : size ≠ 0)
    (hmax : size < maxFileData) (hfit : firstFit 8 16 (need size) bs = none)
    : fdataResize s i size = (-3, s) := by
  unfold fdataResize
  rw [if_neg (by omega), if_neg hpos, h.pool.alloc_eq_none hfit]

theorem moved {size o : Nat} {bs' : List Block} (h : DataInv s bs)
    (hfit : firstFit 8 16 (need size) bs = some (o, bs'))
    : ∃ pool psize, (fpoolAlloc s.fpoolBytes s.fpool (size + 1)) = (some (o + 8), pool)
        ∧ (o + 8, psize) ∈ live 8 0 bs' ∧ size < psize
        ∧ (∀ j, s.fdata j ≠ some (o + 8))
        ∧ ∀ pool', (∀ a, (a < o + 8 ∨ o + 8 + psize ≤ a) → pool' a = pool a) →
            DataInv { s with fpool := pool' } bs' ∧ ∀ j, SameFile s { s with fpool := pool' } j := by
  obtain ⟨pool, halloc, hpool, hkeep⟩ := h.pool.alloc_eq_some (n := size + 1) (by omega) hfit
  obtain ⟨psize, hpsize, hnew, hlive⟩ := mem_live_firstFit 0 (by decide) hfit
  simp only [Nat.zero_add] at hnew hlive
  have hmem : (o + 8, psize) ∈ live 8 0 bs' := (hlive _).mpr (Or.inl rfl)
  have hunheld : ∀ j, s.fdata j ≠ some (o + 8) := by
    intro j hj
    obtain ⟨size, hold, _⟩ := h.held j _ hj
    cases mem_live_disjoint ((hlive _).mpr (Or.inr hold)) hmem with
    | inl heq =>
      rw [heq] at hold
      contradiction
    | inr hdisj =>
      simp only at hdisj
      omega
  have hinv : DataInv { s with fpool := pool } bs' := by
    apply h.of_keeps hpool
    intro j p hp
    exact ⟨hp, rfl, fun size hmem => (hlive _).mpr (Or.inr hmem)⟩
  have hsame : ∀ j, SameFile s { s with fpool := pool } j := by
    intro j
    apply h.sameFile
    . rfl
    . rfl
    . intro p size _ hmem
      exact hkeep.2 (p, size) hmem
  refine ⟨pool, psize, halloc, hmem, ?_, hunheld, ?_⟩
  . unfold need at hpsize
    omega
  . intro pool' heq
    have hwrite := hinv.write pool' hmem heq
    exact ⟨hwrite.1, fun j => (hsame j).trans (hwrite.2 j (hunheld j))⟩

theorem copied_outside {i : Fin maxF} {size p psize : Nat} {pool : Mem}
    (hbound : p + psize ≤ s.fpoolBytes.toNat) (hsize : size < psize)
    : ∀ a, (a < p ∨ p + psize ≤ a) →
        storeAt s.fpoolBytes (s.copyData i size p pool) (p + size) [0] a = pool a := by
  intro a ha
  have hcopy : s.copyData i size p pool a = pool a := by
    unfold FsState.copyData
    cases s.fdata i with
    | none => rfl
    | some old =>
      dsimp only
      rw [storeAt_eq_writeBytes (by simp; omega)]
      cases ha with
      | inl ha => exact Mem.writeBytes_of_lt _ ha
      | inr ha =>
        apply Mem.writeBytes_of_ge
        simp
        omega
  rw [← hcopy, storeAt_eq_writeBytes (by simp; omega)]
  cases ha with
  | inl ha =>
    apply Mem.writeBytes_of_lt
    omega
  | inr ha =>
    apply Mem.writeBytes_of_ge
    simp
    omega

theorem resize_fits {i : Fin maxF} {size o : Nat} {bs' : List Block} (h : DataInv s bs)
    (hpos : size ≠ 0) (hmax : size < maxFileData)
    (hfit : firstFit 8 16 (need size) bs = some (o, bs'))
    : (fdataResize s i size).1 = 0
        ∧ (fdataResize s i size).2.fdata i = some (o + 8)
        ∧ (∃ bs'', DataInv (fdataResize s i size).2 bs'' ∧ (s.fdata i = none → bs'' = bs'))
        ∧ ∀ j, j ≠ i → SameFile s (fdataResize s i size).2 j := by
  obtain ⟨pool, psize, halloc, hmem, hpsize, hunheld, hpool⟩ := h.moved hfit
  have hbound := (hpool pool (fun _ _ => rfl)).1.block_bound hmem
  dsimp only at hbound
  unfold fdataResize
  rw [if_neg (by omega), if_neg hpos, halloc]
  dsimp only
  obtain ⟨hinv, hsame⟩ := hpool _ (copied_outside hbound hpsize)
  obtain ⟨bs'', hfree, hlive, hnone, hother⟩ := hinv.freeData i
  refine ⟨rfl, by simp, ⟨bs'', ?_, hnone⟩, ?_⟩
  . refine hfree.take (i := i) (hlive _ hmem (hunheld i)) ?_ hpsize
    intro j hij
    rw [(hother j hij).fdata]
    exact hunheld j
  . intro j hij
    apply ((hsame j).trans (hother j hij)).trans
    apply SameFile.of_pool
    . simp [hij]
    . simp [hij]
    . intro _ _ _ _ _
      rfl

theorem resize (h : DataInv s bs) (i : Fin maxF) (size : Nat)
    : (∃ bs', DataInv (fdataResize s i size).2 bs')
        ∧ ∀ j, j ≠ i → SameFile s (fdataResize s i size).2 j := by
  by_cases hmax : size < maxFileData
  . by_cases hpos : size = 0
    . obtain ⟨bs', hinv, _, _, hother⟩ := h.freeData i
      unfold fdataResize
      rw [if_neg (by omega), if_pos hpos]
      exact ⟨⟨bs', hinv⟩, hother⟩
    . cases hfit : firstFit 8 16 (need size) bs with
      | none =>
        rw [h.resize_full hpos hmax hfit]
        exact ⟨⟨bs, h⟩, fun j _ => SameFile.refl s j⟩
      | some r =>
        obtain ⟨_, _, ⟨bs'', hinv, _⟩, hother⟩ := h.resize_fits (i := i) hpos hmax hfit
        exact ⟨⟨bs'', hinv⟩, hother⟩
  . have : 0 < maxFileData := by decide
    unfold fdataResize
    rw [if_pos (by omega)]
    exact ⟨⟨bs, h⟩, fun j _ => SameFile.refl s j⟩

theorem init {m : Mem} (h16 : 16 ∣ s.fpoolBytes.toNat) (hpool : s.fpool = fpoolInit s.fpoolBytes m)
    (hnone : ∀ i, s.fdata i = none)
    : DataInv s (freshBlocks s.fpoolBytes) := by
  refine ⟨?_, ?_, ?_⟩
  . unfold freshBlocks
    split
    . next hzero => exact ⟨hzero.symm, by simp [Separated], by simp [Aligned]⟩
    . rw [hpool]
      exact PoolInv.init h16 (by omega)
  . intro i p hp
    rw [hnone i] at hp
    contradiction
  . intro i j p hp
    rw [hnone i] at hp
    contradiction

theorem dropFile (h : DataInv s bs) (i : Fin maxF)
    : DataInv (s.dropFile i) bs ∧ ∀ j, j ≠ i → SameFile s (s.dropFile i) j := by
  refine ⟨⟨h.pool, ?_, h.distinct⟩, ?_⟩
  . intro j p hp
    obtain ⟨size, hmem, hlt⟩ := h.held j p hp
    refine ⟨size, hmem, ?_⟩
    unfold FsState.dropFile
    by_cases hij : j = i
    . subst hij
      simp only [Function.update_self]
      omega
    . simpa [hij] using hlt
  . intro j hij
    apply SameFile.of_pool
    . rfl
    . simp [FsState.dropFile, hij]
    . intro _ _ _ _ _
      rfl

theorem addFile (h : DataInv s bs) (i : Fin maxF) (full : Bytes)
    : DataInv (s.addFile i full) bs ∧ ∀ j, j ≠ i → SameFile s (s.addFile i full) j := by
  refine ⟨h.of_keeps h.pool ?_, ?_⟩
  . intro j p hp
    unfold FsState.addFile at hp ⊢
    by_cases hij : j = i
    . simp [hij] at hp
    . dsimp only at hp ⊢
      rw [Function.update_of_ne hij] at hp ⊢
      exact ⟨hp, rfl, fun _ hmem => hmem⟩
  . intro j hij
    apply SameFile.of_pool
    . simp [FsState.addFile, hij]
    . simp [FsState.addFile, hij]
    . intro _ _ _ _ _
      rfl

theorem prim {g : Grant} {s' : FsState} (hwild : ¬g.wild) (h : DataInv s bs) (hprim : Prim g s s')
    : (∃ bs', DataInv s' bs')
        ∧ ∀ j, ¬g.content j → s.fused j ≠ 0 → s'.fused j ≠ 0 → SameFile s s' j := by
  have htables : ∀ s' : FsState, s'.fpoolBytes = s.fpoolBytes → s'.fpool = s.fpool →
      s'.fdata = s.fdata → s'.fsize = s.fsize →
      (∃ bs', DataInv s' bs')
        ∧ ∀ j, ¬g.content j → s.fused j ≠ 0 → s'.fused j ≠ 0 → SameFile s s' j := by
    intro s' hbytes hpool hdata hsize
    refine ⟨⟨bs, ?_, ?_, ?_⟩, ?_⟩
    . rw [hbytes, hpool]
      exact h.pool
    . rw [hdata, hsize]
      exact h.held
    . rw [hdata]
      exact h.distinct
    . intro j _ _ _
      apply SameFile.of_pool (by rw [hdata]) (by rw [hsize])
      intro _ _ _ _ _
      rw [hpool]
  cases hprim with
  | errno => exact htables _ rfl rfl rfl rfl
  | chdir => exact htables _ rfl rfl rfl rfl
  | addDir => exact htables _ rfl rfl rfl rfl
  | dropDir => exact htables _ rfl rfl rfl rfl
  | addFile path i hfree =>
    obtain ⟨hinv, hother⟩ := h.addFile i (absPath s.cwd.str path)
    refine ⟨⟨bs, hinv⟩, ?_⟩
    intro j _ hused _
    apply hother
    rintro rfl
    contradiction
  | dropFile path i =>
    obtain ⟨hinv, hother⟩ := h.dropFile i
    obtain ⟨bs', hinv, _, _, hother'⟩ := hinv.freeData i
    refine ⟨⟨bs', hinv⟩, ?_⟩
    intro j _ _ hused
    have hij : j ≠ i := by
      rintro rfl
      simp [FsState.freeData, FsState.dropFile] at hused
    exact (hother j hij).trans (hother' j hij)
  | rollBack i =>
    obtain ⟨hinv, hother⟩ := h.dropFile i
    refine ⟨⟨bs, hinv⟩, ?_⟩
    intro j _ _ hused
    apply hother
    rintro rfl
    simp [FsState.dropFile] at hused
  | coalesce =>
    obtain ⟨bs', hinv, hother⟩ := h.coalesce
    exact ⟨⟨bs', hinv⟩, fun j _ _ _ => hother j⟩
  | resize i size _ hgrant =>
    obtain ⟨hinv, hother⟩ := h.resize i size
    refine ⟨hinv, ?_⟩
    intro j hcontent _ _
    apply hother
    rintro rfl
    contradiction
  | store i offset data _ hfit hgrant =>
    have hfit := hfit hwild
    obtain ⟨hinv, hother, _⟩ := h.storeFile i offset data (by omega)
    refine ⟨⟨bs, hinv⟩, ?_⟩
    intro j hcontent _ _
    apply hother
    rintro rfl
    contradiction
  | terminate i =>
    obtain ⟨hinv, hother, _⟩ := h.storeFile i (s.fsize i) [0] (by simp)
    refine ⟨⟨bs, hinv⟩, ?_⟩
    intro j _ _ _
    by_cases hij : j = i
    . subst hij
      refine ⟨?_, ?_, h.fileBytes_terminate⟩
      . rw [FsState.fdata_storeFile]
      . rw [FsState.fsize_storeFile]
    . exact hother j hij
  | chmod => exact htables _ rfl rfl rfl rfl
  | chown => exact htables _ rfl rfl rfl rfl

theorem prims {g : Grant} {s' : FsState} (hwild : ¬g.wild) (h : DataInv s bs) (hprims : Prims g s s')
    : ∃ bs', DataInv s' bs' := by
  induction hprims with
  | refl => exact ⟨bs, h⟩
  | tail _ hprim ih =>
    obtain ⟨bs', ih⟩ := ih
    exact (ih.prim hwild hprim).1

end DataInv

theorem Prim.size_cases {g : Grant} {s s' : FsState} (h : Prim g s s') (j : Fin maxF)
    : (s'.fsize j = s.fsize j ∧ s'.fdata j = s.fdata j)
      ∨ (s'.fsize j < maxFileData ∧ (s'.fdata j = none → s'.fsize j = 0)) := by
  have hmax : 0 < maxFileData := by decide
  have hsame : ∀ s' : FsState, s'.fsize = s.fsize → s'.fdata = s.fdata →
      (s'.fsize j = s.fsize j ∧ s'.fdata j = s.fdata j)
        ∨ (s'.fsize j < maxFileData ∧ (s'.fdata j = none → s'.fsize j = 0)) := by
    intro s' hsize hdata
    rw [hsize, hdata]
    exact Or.inl ⟨rfl, rfl⟩
  cases h with
  | errno => exact hsame _ rfl rfl
  | chdir => exact hsame _ rfl rfl
  | addDir => exact hsame _ rfl rfl
  | dropDir => exact hsame _ rfl rfl
  | addFile path i =>
    unfold FsState.addFile
    by_cases hij : j = i
    . right
      simp [hij, hmax]
    . left
      simp [hij]
  | dropFile path i =>
    unfold FsState.freeData FsState.dropFile
    by_cases hij : j = i
    . right
      simp [hij, hmax]
    . left
      simp [hij]
  | rollBack i _ hsize hdata =>
    unfold FsState.dropFile
    by_cases hij : j = i
    . right
      simp [hij, hmax]
    . left
      simp [hij]
  | coalesce => exact hsame _ rfl rfl
  | resize i size =>
    unfold fdataResize
    split
    . exact hsame _ rfl rfl
    . split
      . unfold FsState.freeData
        by_cases hij : j = i
        . right
          simp [hij, hmax]
        . left
          simp [hij]
      . split
        . exact hsame _ rfl rfl
        . unfold FsState.freeData
          by_cases hij : j = i
          . right
            simp [hij]
            omega
          . left
            simp [hij]
  | store i offset data =>
    exact hsame _ (FsState.fsize_storeFile i offset data) (FsState.fdata_storeFile i offset data)
  | terminate i =>
    exact hsame _ (FsState.fsize_storeFile i _ [0]) (FsState.fdata_storeFile i _ [0])
  | chmod => exact hsame _ rfl rfl
  | chown => exact hsame _ rfl rfl

theorem SizeOk.prim {g : Grant} {s s' : FsState} (h : SizeOk s) (hprim : Prim g s s')
    : SizeOk s' := by
  intro j
  obtain ⟨hsize, hdata⟩ | hfine := hprim.size_cases j
  . rw [hsize, hdata]
    exact h j
  . exact hfine

theorem Prims.fsize_lt {g : Grant} {s s' : FsState} (hprims : Prims g s s')
    (h : ∀ i, s.fsize i < maxFileData) (i : Fin maxF)
    : s'.fsize i < maxFileData := by
  induction hprims with
  | refl => exact h i
  | tail _ hprim ih =>
    obtain ⟨hsize, _⟩ | ⟨hfine, _⟩ := hprim.size_cases i
    . rw [hsize]
      exact ih
    . exact hfine

theorem SizeOk.prims {g : Grant} {s s' : FsState} (h : SizeOk s) (hprims : Prims g s s')
    : SizeOk s' := by
  induction hprims with
  | refl => exact h
  | tail _ hprim ih => exact ih.prim hprim

theorem Prim.fpoolBytes_eq {g : Grant} {s s' : FsState} (h : Prim g s s')
    : s'.fpoolBytes = s.fpoolBytes := by
  cases h with
  | resize i size =>
    unfold fdataResize
    split
    . rfl
    . split
      . rfl
      . split <;> rfl
  | store i offset data =>
    unfold FsState.storeFile
    split <;> rfl
  | terminate i =>
    unfold FsState.storeFile
    split <;> rfl
  | _ => rfl

theorem Prims.fpoolBytes_eq {g : Grant} {s s' : FsState} (h : Prims g s s')
    : s'.fpoolBytes = s.fpoolBytes := by
  induction h with
  | refl => rfl
  | tail _ hprim ih => rw [hprim.fpoolBytes_eq, ih]

theorem Prim.fsCurUid_eq {g : Grant} {s s' : FsState} (h : Prim g s s') : s'.fsCurUid = s.fsCurUid := by
  cases h with
  | resize i size =>
    unfold fdataResize
    split
    . rfl
    . split
      . rfl
      . split <;> rfl
  | store i offset data =>
    unfold FsState.storeFile
    split <;> rfl
  | terminate i =>
    unfold FsState.storeFile
    split <;> rfl
  | _ => rfl

theorem Prims.fsCurUid_eq {g : Grant} {s s' : FsState} (h : Prims g s s') : s'.fsCurUid = s.fsCurUid := by
  induction h with
  | refl => rfl
  | tail _ hprim ih => rw [hprim.fsCurUid_eq, ih]

end TanjaOS
