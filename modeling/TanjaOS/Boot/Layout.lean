import TanjaOS.Fs.Pool.Lemmas
import TanjaOS.Libc.Malloc

/-!
How the memory above the kernel is shared out at boot: the files' pool first, then the malloc arena, and
the rest for programs. A sum or a difference that leaves the 32 bits ends a computation here.
-/

open Lib

namespace TanjaOS

section Words

def addNoWrap (a b : UInt32) : Option UInt32 :=
  if a.toNat + b.toNat < 2 ^ 32 then some (a + b) else none

def subNoWrap (a b : UInt32) : Option UInt32 :=
  if b ≤ a then some (a - b) else none

def subOrZero (a b : UInt32) : Option UInt32 :=
  if b < a then subNoWrap a b else some 0

/--
`a & ~(n - 1)`
-/
def alignDown (a n : UInt32) : UInt32 :=
  a &&& ~~~(n - 1)

def mib (n : UInt32) : UInt32 :=
  n <<< 20

def kib (n : UInt32) : UInt32 :=
  n <<< 10

end Words

structure BootMem where
  next : UInt32
  top : UInt32

def kernelBootMemInit (start top : UInt32) : Option BootMem := do
  let start ← addNoWrap start 0xFFF
  return { next := alignDown start 0x1000, top := alignDown top 0x1000 }

namespace BootMem

def alloc (m : BootMem) (bytes : UInt32) : Option (UInt32 × BootMem) := do
  let p ← addNoWrap m.next 15
  let p := alignDown p 16
  if bytes = 0 then
    return (0, m)
  let last ← addNoWrap p bytes
  if last < p ∨ m.top < last then
    return (0, m)
  return (p, { m with next := last })

def free (m : BootMem) : Option UInt32 :=
  subOrZero m.top m.next

end BootMem

structure FsPool where
  base : UInt32
  bytes : UInt32

def fsPoolMaxBytes : UInt32 :=
  .ofNat fsDataPoolSize

def lxReserveMin : UInt32 := 16 * 1024 * 1024

def lxReserveMax : UInt32 := 48 * 1024 * 1024

def arenaMin : UInt32 := 2 * 1024 * 1024

def arenaMax : UInt32 := 16 * 1024 * 1024

def lxReserve (freeBytes : UInt32) : UInt32 :=
  let reserve := freeBytes / 3
  let reserve := if lxReserveMax < reserve then lxReserveMax else reserve
  if reserve < lxReserveMin then
    let reserve := freeBytes / 2
    if lxReserveMin < reserve then lxReserveMin else reserve
  else
    reserve

def arenaBytes (rest : UInt32) : UInt32 :=
  let arena := rest / 4
  let arena := if arenaMax < arena then arenaMax else arena
  if arena < arenaMin then
    if arenaMin < rest then arenaMin else rest
  else
    arena

def bootSizePools (mem : Mem) (m : BootMem) : Option (FsPool × MallocState × BootMem) := do
  let freeBytes ← m.free
  let freeBytes ← subOrZero freeBytes (mib 1)
  let reserve := lxReserve freeBytes
  let rest ← subOrZero freeBytes reserve
  let arena := arenaBytes rest
  let pool ← subOrZero rest arena
  let pool := if fsPoolMaxBytes < pool then fsPoolMaxBytes else pool
  let (poolBase, m) ← m.alloc pool
  let (arenaBase, m) ← m.alloc arena
  return (⟨poolBase, fsSetPool (if poolBase ≠ 0 then pool else 0)⟩,
    mallocSetArena mem arenaBase.toNat (if arenaBase ≠ 0 then arena else 0).toNat, m)

structure LxLayout where
  ldBase : UInt32
  mmapBase : UInt32
  mmapLimit : UInt32
  exeBase : UInt32
  stackTop : UInt32
  brkLimit : UInt32

def lxWindow (avail : UInt32) : Option UInt32 := do
  let win ← subOrZero avail (mib 4)
  let win := if mib 40 < win then mib 40 else win
  return if win < mib 4 then (if mib 1 < avail then avail / 2 else 0) else win

def linuxSetLayout (kernelEnd ramTop : UInt32) : Option LxLayout := do
  let base ← addNoWrap kernelEnd (mib 2)
  let base ← addNoWrap base 4095
  let base := alignDown base 4096
  let mmapBase ← addNoWrap base (mib 1)
  if kib 512 < ramTop then
    let stackTop ← subNoWrap ramTop (kib 512)
    let stackTop := alignDown stackTop 4096
    let brkLimit ← subNoWrap stackTop (mib 1)
    let avail ← subOrZero stackTop mmapBase
    let win ← lxWindow avail
    let limit ← addNoWrap mmapBase win
    let win ← (if brkLimit < limit then subOrZero brkLimit mmapBase else some win)
    let mmapLimit ← addNoWrap mmapBase win
    return { ldBase := base, mmapBase, mmapLimit, exeBase := mmapLimit, stackTop, brkLimit }
  else
    -- The fields that are not set are 0 since the start.
    return { ldBase := base, mmapBase, mmapLimit := 0, exeBase := 0, stackTop := 0, brkLimit := 0 }

/--
All of it, as `kernel_main` does it.
-/
def bootLayout (mem : Mem) (kernelEnd ramTop : UInt32) : Option (FsPool × MallocState × LxLayout) := do
  let m ← kernelBootMemInit kernelEnd ramTop
  let (pool, arena, m) ← bootSizePools mem m
  let lx ← linuxSetLayout m.next ramTop
  return (pool, arena, lx)

section Spec

abbrev Span := Nat × Nat

def FsPool.span (pool : FsPool) : Span :=
  (pool.base.toNat, pool.base.toNat + pool.bytes.toNat)

def MallocState.span (arena : MallocState) : Span :=
  (arena.mallocArena, arena.mallocArena + arena.mallocArenaBytes)

def LxLayout.spans (lx : LxLayout) : List Span :=
  [(lx.ldBase.toNat, lx.mmapBase.toNat), (lx.mmapBase.toNat, lx.mmapLimit.toNat),
    (lx.exeBase.toNat, lx.brkLimit.toNat), (lx.brkLimit.toNat, lx.stackTop.toNat)]

def Span.Apart (s t : Span) : Prop :=
  s.2 ≤ t.1 ∨ t.2 ≤ s.1

structure LayoutOk (kernelEnd ramTop : UInt32) (pool : FsPool) (arena : MallocState) (lx : LxLayout) : Prop where
  apart : (pool.span :: arena.span :: lx.spans).Pairwise Span.Apart
  inside : ∀ s ∈ pool.span :: arena.span :: lx.spans, kernelEnd.toNat ≤ s.1 ∧ s.1 ≤ s.2 ∧ s.2 ≤ ramTop.toNat
  pool_pos : 0 < pool.bytes.toNat
  arena_pos : 0 < arena.mallocArenaBytes

end Spec

section Proofs

variable {a b n : UInt32}

theorem addNoWrap_some (h : a.toNat + b.toNat < 2 ^ 32)
    : ∃ c, addNoWrap a b = some c ∧ c.toNat = a.toNat + b.toNat := by
  unfold addNoWrap
  rw [if_pos h]
  refine ⟨_, rfl, ?_⟩
  rw [UInt32.toNat_add, Nat.mod_eq_of_lt h]

theorem subNoWrap_some (h : b.toNat ≤ a.toNat) : ∃ c, subNoWrap a b = some c ∧ c.toNat = a.toNat - b.toNat := by
  have hle : b ≤ a := UInt32.le_iff_toNat_le.mpr h
  unfold subNoWrap
  rw [if_pos hle]
  exact ⟨_, rfl, UInt32.toNat_sub_of_le _ _ hle⟩

theorem subOrZero_some (a b : UInt32) : ∃ d, subOrZero a b = some d ∧ d.toNat = a.toNat - b.toNat := by
  unfold subOrZero
  split
  . next h => exact subNoWrap_some (UInt32.lt_iff_toNat_lt.mp h).le
  . next h =>
    refine ⟨0, rfl, ?_⟩
    show 0 = _
    rw [UInt32.lt_iff_toNat_lt] at h
    omega

theorem bind_of_eq {α β : Type} {x : Option α} {y : α} {r : Option β} {f : α → Option β} (h : x = some y)
    (hf : f y = r)
    : (x >>= f) = r := by
  rw [h]
  exact hf

theorem toNat_alignDown {k : Nat} (hn : (n - 1).toNat = 2 ^ k - 1)
    : (alignDown a n).toNat = a.toNat / 2 ^ k * 2 ^ k := by
  apply Nat.eq_of_testBit_eq
  intro i
  rw [Nat.testBit_mul_two_pow, Nat.testBit_div_two_pow]
  unfold alignDown
  have hbit : (n - 1).toBitVec.getLsbD i = decide (i < k) := by
    rw [← BitVec.testBit_toNat, UInt32.toNat_toBitVec, hn, Nat.testBit_two_pow_sub_one]
  rw [← UInt32.toNat_toBitVec, BitVec.testBit_toNat, UInt32.toBitVec_and, UInt32.toBitVec_not, BitVec.getLsbD_and,
    BitVec.getLsbD_not, hbit]
  by_cases hi : k ≤ i
  . have hlt : ¬i < k := by omega
    have hsub : i - k + k = i := by omega
    rw [hsub, ← UInt32.toNat_toBitVec, BitVec.testBit_toNat]
    simp only [hi, hlt, decide_true, decide_false, Bool.not_false, Bool.and_true, Bool.true_and]
    by_cases h32 : i < 32
    . simp [h32]
    . simp [BitVec.getLsbD_of_ge _ _ (Nat.le_of_not_lt h32)]
  . have hlt : i < k := by omega
    simp [hi, hlt]

theorem kernelBootMemInit_some {start top : UInt32} (h : start.toNat + 4095 < 2 ^ 32)
    : ∃ m, kernelBootMemInit start top = some m ∧ m.next.toNat = (start.toNat + 4095) / 4096 * 4096
      ∧ m.top.toNat = top.toNat / 4096 * 4096 := by
  obtain ⟨c, hc, hval⟩ := @addNoWrap_some start 0xFFF h
  unfold kernelBootMemInit
  rw [hc]
  refine ⟨_, rfl, ?_, @toNat_alignDown top 0x1000 12 rfl⟩
  have halign := @toNat_alignDown c 0x1000 12 rfl
  rw [hval] at halign
  exact halign

theorem BootMem.alloc_some {m : BootMem} {bytes : UInt32} (hbytes : 0 < bytes.toNat)
    (hfit : (m.next.toNat + 15) / 16 * 16 + bytes.toNat ≤ m.top.toNat) (htop : m.top.toNat ≤ 0xFFF00000)
    : ∃ p last, m.alloc bytes = some (p, { m with next := last }) ∧ p.toNat = (m.next.toNat + 15) / 16 * 16
      ∧ last.toNat = p.toNat + bytes.toNat := by
  obtain ⟨p, hp, hpval⟩ := @addNoWrap_some m.next 15 (by
    show m.next.toNat + 15 < 2 ^ 32
    omega)
  have halign := @toNat_alignDown p 16 4 rfl
  rw [hpval] at halign
  have hpval' : (alignDown p 16).toNat = (m.next.toNat + 15) / 16 * 16 := halign
  obtain ⟨last, hlast, hlastval⟩ := @addNoWrap_some (alignDown p 16) bytes (by omega)
  have hzero : ¬bytes = 0 := by
    rintro rfl
    exact absurd hbytes (by decide)
  have hroom : ¬(last < alignDown p 16 ∨ m.top < last) := by
    rw [UInt32.lt_iff_toNat_lt, UInt32.lt_iff_toNat_lt]
    omega
  refine ⟨alignDown p 16, last, ?_, hpval', hlastval⟩
  unfold BootMem.alloc
  rw [hp]
  show (if bytes = 0 then _ else _) = _
  rw [if_neg hzero, hlast]
  show (if last < alignDown p 16 ∨ m.top < last then _ else _) = _
  rw [if_neg hroom]
  rfl

section Sizes

variable {v w : UInt32}

theorem toNat_ite_lt : (if a < b then v else w).toNat = if a.toNat < b.toNat then v.toNat else w.toNat := by
  split
  . next h => rw [if_pos (UInt32.lt_iff_toNat_lt.mp h)]
  . next h => rw [if_neg (fun hlt => h (UInt32.lt_iff_toNat_lt.mpr hlt))]

end Sizes

theorem lxReserve_bounds {f : UInt32} (h : 14 * 2 ^ 20 ≤ f.toNat)
    : 7 * 2 ^ 20 ≤ (lxReserve f).toNat ∧ 2 * (lxReserve f).toNat ≤ f.toNat := by
  have hmin : lxReserveMin.toNat = 16 * 2 ^ 20 := rfl
  have hmax : lxReserveMax.toNat = 48 * 2 ^ 20 := rfl
  have hthird : (f / 3).toNat = f.toNat / 3 := UInt32.toNat_div _ _
  have hhalf : (f / 2).toNat = f.toNat / 2 := UInt32.toNat_div _ _
  unfold lxReserve
  dsimp only
  simp only [toNat_ite_lt, hmin, hmax, hthird, hhalf]
  split_ifs
  all_goals omega

theorem arenaBytes_bounds {rest : UInt32} (h : 7 * 2 ^ 20 ≤ rest.toNat)
    : 2 * 2 ^ 20 ≤ (arenaBytes rest).toNat ∧ 2 * (arenaBytes rest).toNat ≤ rest.toNat := by
  have hmin : arenaMin.toNat = 2 * 2 ^ 20 := rfl
  have hmax : arenaMax.toNat = 16 * 2 ^ 20 := rfl
  have hquarter : (rest / 4).toNat = rest.toNat / 4 := UInt32.toNat_div _ _
  unfold arenaBytes
  dsimp only
  simp only [toNat_ite_lt, hmin, hmax, hquarter]
  split_ifs
  all_goals omega

theorem lxWindow_some {avail : UInt32} : ∃ w, lxWindow avail = some w ∧ w.toNat ≤ avail.toNat := by
  have hone : (mib 1).toNat = 2 ^ 20 := rfl
  have hfour : (mib 4).toNat = 4 * 2 ^ 20 := rfl
  have hforty : (mib 40).toNat = 40 * 2 ^ 20 := rfl
  have hhalf : (avail / 2).toNat = avail.toNat / 2 := UInt32.toNat_div _ _
  have hzero : (0 : UInt32).toNat = 0 := rfl
  obtain ⟨d, hd, hval⟩ := subOrZero_some avail (mib 4)
  unfold lxWindow
  rw [hd]
  refine ⟨_, rfl, ?_⟩
  simp only [toNat_ite_lt, hone, hfour, hforty, hhalf, hval, hzero]
  split_ifs
  all_goals omega

theorem linuxSetLayout_some {last top : UInt32} (htop : top.toNat ≤ 0xFFF00000)
    (hroom : last.toNat + 7 * 2 ^ 20 ≤ top.toNat)
    : ∃ lx, linuxSetLayout last top = some lx ∧ last.toNat ≤ lx.ldBase.toNat ∧ lx.ldBase.toNat ≤ lx.mmapBase.toNat
      ∧ lx.mmapBase.toNat ≤ lx.mmapLimit.toNat ∧ lx.exeBase = lx.mmapLimit ∧ lx.mmapLimit.toNat ≤ lx.brkLimit.toNat
      ∧ lx.brkLimit.toNat ≤ lx.stackTop.toNat ∧ lx.stackTop.toNat ≤ top.toNat := by
  have hone : (mib 1).toNat = 2 ^ 20 := rfl
  have htwo : (mib 2).toNat = 2 * 2 ^ 20 := rfl
  have hhalf : (kib 512).toNat = 2 ^ 19 := rfl
  obtain ⟨a₁, ha₁, hval₁⟩ := @addNoWrap_some last (mib 2) (by omega)
  obtain ⟨a₂, ha₂, hval₂⟩ := @addNoWrap_some a₁ 4095 (by
    show a₁.toNat + 4095 < 2 ^ 32
    omega)
  have hbase := @toNat_alignDown a₂ 4096 12 rfl
  have hval₂' : a₂.toNat = a₁.toNat + 4095 := hval₂
  obtain ⟨mmapBase, hmmap, hmmapVal⟩ := @addNoWrap_some (alignDown a₂ 4096) (mib 1) (by omega)
  obtain ⟨s₁, hs₁, hsval⟩ := @subNoWrap_some top (kib 512) (by omega)
  have hstack := @toNat_alignDown s₁ 4096 12 rfl
  obtain ⟨brk, hbrk, hbrkVal⟩ := @subNoWrap_some (alignDown s₁ 4096) (mib 1) (by omega)
  obtain ⟨avail, havail, havailVal⟩ := subOrZero_some (alignDown s₁ 4096) mmapBase
  obtain ⟨win, hwin, hwinVal⟩ := @lxWindow_some avail
  obtain ⟨limit, hlimit, hlimitVal⟩ := @addNoWrap_some mmapBase win (by omega)
  obtain ⟨rest, hrest, hrestVal⟩ := subOrZero_some brk mmapBase
  have hwin' : ∃ w, (if brk < limit then subOrZero brk mmapBase else some win) = some w
      ∧ mmapBase.toNat + w.toNat ≤ brk.toNat := by
    rw [hrest]
    split
    . exact ⟨rest, rfl, by omega⟩
    . next h =>
      rw [UInt32.lt_iff_toNat_lt] at h
      exact ⟨win, rfl, by omega⟩
  obtain ⟨w, hw, hwVal⟩ := hwin'
  obtain ⟨mmapLimit, hmmapLimit, hmmapLimitVal⟩ := @addNoWrap_some mmapBase w (by omega)
  refine ⟨⟨alignDown a₂ 4096, mmapBase, mmapLimit, mmapLimit, alignDown s₁ 4096, brk⟩, ?_, ?_⟩
  . have hlow : kib 512 < top := UInt32.lt_iff_toNat_lt.mpr (by omega)
    rw [linuxSetLayout]
    refine bind_of_eq ha₁ (bind_of_eq ha₂ (bind_of_eq hmmap ?_))
    rw [if_pos hlow]
    exact bind_of_eq hs₁ (bind_of_eq hbrk (bind_of_eq havail (bind_of_eq hwin (bind_of_eq hlimit
      (bind_of_eq hw (bind_of_eq hmmapLimit rfl))))))
  . dsimp only
    exact ⟨by omega, by omega, by omega, rfl, by omega, by omega, by omega⟩

theorem bootSizePools_some {mem : Mem} {m : BootMem} (hnext : 0 < m.next.toNat) (halign : m.next.toNat % 4096 = 0)
    (htop : m.top.toNat ≤ 0xFFF00000) (hroom : m.next.toNat + 15 * 2 ^ 20 ≤ m.top.toNat)
    : ∃ pool arena m', bootSizePools mem m = some (pool, arena, m') ∧ m.next.toNat ≤ pool.base.toNat
      ∧ pool.base.toNat + pool.bytes.toNat ≤ arena.mallocArena
      ∧ arena.mallocArena + arena.mallocArenaBytes ≤ m'.next.toNat ∧ m'.next.toNat + 7 * 2 ^ 20 ≤ m.top.toNat
      ∧ 0 < pool.bytes.toNat ∧ 0 < arena.mallocArenaBytes := by
  have hone : (mib 1).toNat = 2 ^ 20 := rfl
  have hmax : fsPoolMaxBytes.toNat = 48 * 2 ^ 20 := by decide
  obtain ⟨f₁, hf₁, hf₁Val⟩ := subOrZero_some m.top m.next
  obtain ⟨f, hf, hfVal⟩ := subOrZero_some f₁ (mib 1)
  obtain ⟨hreserve, hreserve'⟩ := @lxReserve_bounds f (by omega)
  obtain ⟨rest, hrest, hrestVal⟩ := subOrZero_some f (lxReserve f)
  obtain ⟨harena, harena'⟩ := @arenaBytes_bounds rest (by omega)
  obtain ⟨p, hp, hpVal⟩ := subOrZero_some rest (arenaBytes rest)
  have hpool := @toNat_ite_lt fsPoolMaxBytes p fsPoolMaxBytes p
  generalize hpoolEq : (if fsPoolMaxBytes < p then fsPoolMaxBytes else p) = pool at hpool
  have hpool' : 2 ^ 20 ≤ pool.toNat ∧ pool.toNat ≤ p.toNat ∧ pool.toNat ≤ 48 * 2 ^ 20 := by
    rw [hpool]
    split
    . omega
    . omega
  obtain ⟨poolBase, next₁, halloc₁, hpoolBase, hnext₁⟩ := @BootMem.alloc_some m pool (by omega) (by omega) htop
  obtain ⟨arenaBase, next₂, halloc₂, harenaBase, hnext₂⟩ :=
    @BootMem.alloc_some { m with next := next₁ } (arenaBytes rest) (by omega) (by dsimp only; omega) htop
  dsimp only at harenaBase
  have hne₁ : poolBase ≠ 0 := by
    rintro rfl
    have hzero : (0 : UInt32).toNat = 0 := rfl
    omega
  have hne₂ : arenaBase ≠ 0 := by
    rintro rfl
    have hzero : (0 : UInt32).toNat = 0 := rfl
    omega
  have hpoolBytes := fsSetPool_toNat pool
  have hsize : fsDataPoolSize = 48 * 2 ^ 20 := rfl
  refine ⟨⟨poolBase, fsSetPool pool⟩, mallocSetArena mem arenaBase.toNat (arenaBytes rest).toNat,
    ⟨next₂, m.top⟩, ?_, ?_⟩
  . rw [bootSizePools]
    refine bind_of_eq hf₁ (bind_of_eq hf (bind_of_eq hrest (bind_of_eq hp ?_)))
    rw [hpoolEq]
    refine bind_of_eq halloc₁ (bind_of_eq halloc₂ ?_)
    dsimp only
    rw [if_pos hne₁, if_pos hne₂]
    rfl
  . unfold mallocSetArena mallocAlign
    dsimp only
    exact ⟨by omega, by omega, by omega, by omega, by omega, by omega⟩

end Proofs

/--
If the kernel does not end at address 0, all areas are apart and inside of the memory above it.
-/
theorem bootLayout_ok (mem : Mem) (kernelEnd ramTop : UInt32) (hend : kernelEnd ≠ 0) (htop : ramTop ≤ 0xFFF00000)
    (hroom : kernelEnd.toNat + 16 * 2 ^ 20 ≤ ramTop.toNat)
    : ∃ pool arena lx, bootLayout mem kernelEnd ramTop = some (pool, arena, lx)
      ∧ LayoutOk kernelEnd ramTop pool arena lx := by
  have htop' : ramTop.toNat ≤ 0xFFF00000 := UInt32.le_iff_toNat_le.mp htop
  have hpos : 0 < kernelEnd.toNat := by
    rw [Nat.pos_iff_ne_zero]
    intro hzero
    exact hend (UInt32.toNat_inj.mp hzero)
  obtain ⟨m, hm, hnext, hmtop⟩ := @kernelBootMemInit_some kernelEnd ramTop (by omega)
  obtain ⟨pool, arena, m', hsizes, hpool, harena, hlast, hleft, hpoolPos, harenaPos⟩ :=
    @bootSizePools_some mem m (by omega) (by omega) (by omega) (by omega)
  obtain ⟨lx, hlx, hld, hmmap, hlimit, hexe, hbrk, hstack, hstackTop⟩ :=
    @linuxSetLayout_some m'.next ramTop htop' (by omega)
  refine ⟨pool, arena, lx, ?_, ?_⟩
  . rw [bootLayout]
    exact bind_of_eq hm (bind_of_eq hsizes (bind_of_eq hlx rfl))
  . have hexe' : lx.exeBase.toNat = lx.mmapLimit.toNat := congrArg UInt32.toNat hexe
    constructor
    . unfold LxLayout.spans Span.Apart FsPool.span MallocState.span
      simp only [List.pairwise_cons, List.mem_cons, List.not_mem_nil, or_false, forall_eq_or_imp, forall_eq]
      simp
      omega
    . unfold LxLayout.spans FsPool.span MallocState.span
      simp
      omega
    . exact hpoolPos
    . exact harenaPos

theorem bootLayout_small
    : ∃ pool arena lx, bootLayout (fun _ => 0) 0x400000 0x1800000 = some (pool, arena, lx)
      ∧ LayoutOk 0x400000 0x1800000 pool arena lx :=
  bootLayout_ok (fun _ => 0) 0x400000 0x1800000 (by decide) (by decide) (by decide)

/--
Address 0 counts as no memory, so a pool there stays empty.
-/
theorem bootLayout_zero
    : ¬∀ (mem : Mem) (kernelEnd ramTop : UInt32), ramTop ≤ 0xFFF00000 →
      kernelEnd.toNat + 16 * 2 ^ 20 ≤ ramTop.toNat →
        ∃ pool arena lx, bootLayout mem kernelEnd ramTop = some (pool, arena, lx)
          ∧ LayoutOk kernelEnd ramTop pool arena lx := by
  intro h
  obtain ⟨pool, arena, lx, heq, hok⟩ := h (fun _ => 0) 0 0x1000000 (by decide) (by decide)
  have hbytes : (bootLayout (fun _ => 0) 0 0x1000000).map (fun r => r.1.bytes) = some 0 := by decide
  rw [heq] at hbytes
  have hzero : pool.bytes = 0 := Option.some.inj hbytes
  have hpos := hok.pool_pos
  rw [hzero] at hpos
  exact absurd hpos (by decide)

end TanjaOS
