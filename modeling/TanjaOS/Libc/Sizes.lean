import TanjaOS.Libc.Heap

/-!
Requests of any 32 bit size. `malloc_round` wraps around for the largest ones, they are then taken for requests for
the smallest block.
-/

open Lib
open Lib.Tiling

namespace TanjaOS

section Spec

namespace HeapCall

def wanted : HeapCall → Nat
  | .malloc n => n
  | .calloc nmemb size => nmemb * size
  | .realloc _ n => n
  | .free _ => 0
  | .store _ _ => 0

end HeapCall

namespace LibcHeap

/--
Arguments of 32 bits, pointers are null or have been given to the program.
-/
def Asks (h : LibcHeap) : HeapCall → Prop
  | .malloc n => n < 2 ^ 32
  | .calloc nmemb size => nmemb < 2 ^ 32 ∧ size < 2 ^ 32
  | .realloc p n => n < 2 ^ 32 ∧ (p = 0 ∨ ∃ size, (p, size) ∈ h.given)
  | .free p => p = 0 ∨ ∃ size, (p, size) ∈ h.given
  | .store a data => ∃ x ∈ h.given, x.1 ≤ a ∧ a + data.length ≤ x.1 + x.2

/--
`r` is the payload of an allocated block, of `n` bytes or more.
-/
def HasPayload (h : LibcHeap) (r n : Nat) : Prop :=
  ∃ bs size, HeapBlocks h.st bs ∧ (r, size) ∈ live 20 h.st.mallocArena bs ∧ n ≤ size

/--
A `realloc` leaves the block that it was called with as it was, header and payload.
-/
def LeavesOld (h : LibcHeap) (c : HeapCall) (h' : LibcHeap) : Prop :=
  ∀ p n, c = .realloc p n → ∀ size, (p, size) ∈ h.given →
    (p, size) ∈ h'.given ∧ mblock h'.st.mem (p - 20) = mblock h.st.mem (p - 20) ∧
      ∀ i, i < (mblock h.st.mem (p - 20)).size - 20 → h'.st.mem (p + i) = h.st.mem (p + i)

/--
The call returns, a pointer that it returns has room for the request, and it returns null if the arena has not.
-/
def Honest (h : LibcHeap) (c : HeapCall) : Prop :=
  ∃ r h', h.step c = some (r, h') ∧ (r ≠ 0 → h'.HasPayload r c.wanted) ∧
    (h.st.mallocArenaBytes < c.wanted + 20 → r = 0 ∧ h.LeavesOld c h')

end LibcHeap

/--
The state when `malloc` starts to search.
-/
def mallocStarted (st : MallocState) : MallocState :=
  if st.mallocReady = 0 then mallocInit st else st

def NoFree (st : MallocState) : Prop :=
  firstFree (mallocStarted st).mem (mblockBytes + mallocAlign) ((mallocStarted st).mallocArenaBytes + 1)
    (mallocStarted st).mallocHead = some none

/--
`malloc_round` does not wrap around, or is not called, or there is nothing to be given.
-/
def LibcHeap.Fits (h : LibcHeap) (c : HeapCall) : Prop :=
  c.wanted + 35 < 2 ^ 32 ∨ 2 ^ 32 ≤ c.wanted ∨ NoFree h.st

/--
A run of calls that fit.
-/
abbrev FittingRun : LibcHeap → LibcHeap → Prop :=
  Run (fun c h h' => ∃ r, h.step c = some (r, h')) (fun h c => h.Asks c ∧ h.Fits c)

end Spec

section Arena

variable {st st' : MallocState} {bs : List Block} {n p r : Nat}

theorem mallocRound_wraps (hn : n < 2 ^ 32) (hwraps : 2 ^ 32 ≤ n + 35) : mallocRound n = mblockBytes + mallocAlign := by
  unfold mallocRound mblockBytes mallocAlign
  dsimp only
  split <;> omega

theorem malloc_eq (st : MallocState) (n : Nat)
    : malloc st n = match firstFree (mallocStarted st).mem (mallocRound n) ((mallocStarted st).mallocArenaBytes + 1)
        (mallocStarted st).mallocHead with
      | none => none
      | some none => some (0, mallocStarted st)
      | some (some b) => some (b + mblockBytes, { mallocStarted st with
          mem := takeBlock (mallocStarted st).mem b (mallocRound n) }) :=
  rfl

theorem malloc_noFree (hfree : NoFree st) (hn : n < 2 ^ 32) (hwraps : 2 ^ 32 ≤ n + 35)
    : malloc st n = some (0, mallocStarted st) := by
  unfold NoFree at hfree
  rw [malloc_eq, mallocRound_wraps hn hwraps, hfree]

theorem mallocStarted_same (st : MallocState) : SameArena st (mallocStarted st) := by
  unfold mallocStarted
  unfold mallocInit
  split
  . split
    . exact ⟨rfl, rfl⟩
    . exact ⟨rfl, rfl⟩
  . exact ⟨rfl, rfl⟩

theorem malloc_same (h : malloc st n = some (r, st')) : SameArena st st' := by
  have hstarted := mallocStarted_same st
  rw [malloc_eq] at h
  split at h
  . cases h
  . cases h
    exact hstarted
  . cases h
    exact ⟨hstarted.arena, hstarted.bytes⟩

theorem free_same (st : MallocState) (p : Nat) : SameArena st (free st p) := by
  unfold free
  split
  . exact ⟨rfl, rfl⟩
  . dsimp only
    split
    . exact ⟨rfl, rfl⟩
    . split
      . exact ⟨rfl, rfl⟩
      . exact ⟨rfl, rfl⟩

theorem HeapBlocks.payload_le {x : Nat × Nat} (h : HeapBlocks st bs) (hx : x ∈ live 20 st.mallocArena bs)
    : x.2 + 20 ≤ st.mallocArenaBytes := by
  have hbounds := mem_live_bounds hx
  have hspan := h.holds.span_eq
  omega

theorem HeapBlocks.started (h : HeapBlocks st bs) : mallocStarted st = st := by
  have hready := h.ready
  unfold mallocStarted
  rw [if_neg (by omega)]

theorem mallocStarted_started (st : MallocState) : mallocStarted (mallocStarted st) = mallocStarted st := by
  have hready : (mallocStarted st).mallocReady ≠ 0 := by
    unfold mallocStarted mallocInit
    split
    . split
      . show (-1 : Int) ≠ 0
        decide
      . show (1 : Int) ≠ 0
        decide
    . assumption
  generalize mallocStarted st = st' at hready
  unfold mallocStarted
  rw [if_neg hready]

theorem HeapBlocks.noFree_iff (h : HeapBlocks st bs) (hfits : ArenaFits st)
    : NoFree st ↔ ∀ b ∈ bs, b.free = false := by
  unfold NoFree mblockBytes mallocAlign
  rw [h.started, firstFree_blocks h hfits 16, Option.some_inj, Option.map_eq_none_iff, firstFit_eq_none_iff]
  constructor
  . intro hall b hb
    have hbig := h.holds.big b hb
    cases hfree : b.free with
    | false => rfl
    | true =>
      have hlt := hall b hb hfree
      omega
  . intro hall b hb hfree
    rw [hall b hb] at hfree
    cases hfree

theorem malloc_free (h : HeapBlocks st bs) (hfits : ArenaFits st) (hfree : ¬NoFree st) (hn : n < 2 ^ 32)
    (hwraps : 2 ^ 32 ≤ n + 35)
    : ∃ r st', malloc st n = some (r, st') ∧ r ≠ 0 := by
  have hfind := firstFree_blocks h hfits 16
  have hround : mallocRound n = 20 + 16 := mallocRound_wraps hn hwraps
  unfold NoFree mblockBytes mallocAlign at hfree
  rw [h.started, hfind] at hfree
  rw [malloc_eq, h.started, hround, hfind]
  cases hfit : firstFit 20 16 16 bs with
  | none =>
    rw [hfit] at hfree
    exact absurd rfl hfree
  | some x => exact ⟨_, _, rfl, by simp [mblockBytes]⟩

theorem realloc_large {size : Nat} (h : HeapBlocks st bs) (hp : (p, size) ∈ live 20 st.mallocArena bs) (hlt : size < n)
    : (∃ m, realloc st p n = some (p, { st with mem := m }) ∧ ∃ b ∈ bs, b.free = true) ∨
      realloc st p n = (malloc st n).map (fun r =>
        if r.1 = 0 then (0, r.2)
        else (r.1, free { r.2 with mem := r.2.mem.writeBytes r.1 (r.2.mem.readBytes p size) } p)) := by
  obtain ⟨pre, b, post, rfl, hused, hpb⟩ := mem_live_split hp
  rw [Prod.mk.injEq] at hpb
  obtain ⟨rfl, rfl⟩ := hpb
  have hb := h.holds.linked.header
  have haddr : st.mallocArena + span 20 pre + 20 - mblockBytes = st.mallocArena + span 20 pre := by
    unfold mblockBytes
    omega
  have hhave : 20 + b.size - mblockBytes = b.size := by
    unfold mblockBytes
    omega
  unfold realloc
  rw [if_neg (by omega), if_neg (by omega)]
  dsimp only
  rw [haddr, hb]
  dsimp only
  generalize hnext : (if st.mallocArena + span 20 pre + 20 + b.size
      = st.mallocArena + st.mallocArenaBytes then 0
    else st.mallocArena + span 20 pre + 20 + b.size) = next
  rw [if_neg (by simp), hhave, if_neg (by omega)]
  split
  . next hmerge =>
    obtain ⟨hne, hfree, _⟩ := hmerge
    refine .inl ⟨_, rfl, ?_⟩
    have hstop : ¬st.mallocArena + span 20 pre + 20 + b.size = st.mallocArena + st.mallocArenaBytes := by
      intro heq
      rw [if_pos heq] at hnext
      exact hne hnext.symm
    rw [if_neg hstop] at hnext
    rw [← hnext] at hfree
    cases post with
    | nil => exact absurd (h.holds.end_eq.mpr rfl) hstop
    | cons c post =>
      have hlink := h.holds.linked
      have happ : pre ++ b :: c :: post = (pre ++ [b]) ++ c :: post := by simp
      rw [happ] at hlink
      have hc := hlink.header
      have hcaddr : st.mallocArena + span 20 (pre ++ [b]) = st.mallocArena + span 20 pre + 20 + b.size := by
        simp only [span_append, span]
        omega
      rw [hcaddr] at hc
      rw [hc] at hfree
      refine ⟨c, by simp, ?_⟩
      cases hf : c.free
      . simp [hf] at hfree
      . rfl
  . right
    cases malloc st n with
    | none => rfl
    | some r =>
      obtain ⟨np, st₁⟩ := r
      dsimp only [Option.map_some]
      split
      . rfl
      . rfl

end Arena

section Dead

structure HeapDead (h : LibcHeap) : Prop where
  small : h.st.mallocArena = 0 ∨ h.st.mallocArenaBytes < 4096
  ready : h.st.mallocReady = 0 ∨ h.st.mallocReady = -1
  head : h.st.mallocHead = 0
  given : h.given = []

namespace HeapDead

variable {h h' : LibcHeap} {c : HeapCall} {r : Nat}

theorem started_head (hdead : HeapDead h) : (mallocStarted h.st).mallocHead = 0 := by
  unfold mallocStarted mallocInit
  split
  . rw [if_pos hdead.small]
    exact hdead.head
  . exact hdead.head

theorem noFree (hdead : HeapDead h) : NoFree h.st := by
  unfold NoFree
  rw [hdead.started_head]
  rfl

theorem malloc (hdead : HeapDead h) (n : Nat) : malloc h.st n = some (0, mallocStarted h.st) := by
  rw [malloc_eq, hdead.started_head]
  rfl

theorem started (hdead : HeapDead h) : HeapDead ⟨mallocStarted h.st, []⟩ where
  small := by
    have hsame := mallocStarted_same h.st
    show (mallocStarted h.st).mallocArena = 0 ∨ (mallocStarted h.st).mallocArenaBytes < 4096
    rw [hsame.arena, hsame.bytes]
    exact hdead.small
  ready := by
    show (mallocStarted h.st).mallocReady = 0 ∨ (mallocStarted h.st).mallocReady = -1
    unfold mallocStarted mallocInit
    split
    . rw [if_pos hdead.small]
      exact .inr rfl
    . exact hdead.ready
  head := hdead.started_head
  given := rfl

theorem calloc (hdead : HeapDead h) (nmemb size : Nat)
    : calloc h.st nmemb size = some (0, h.st) ∨ calloc h.st nmemb size = some (0, mallocStarted h.st) := by
  unfold TanjaOS.calloc
  split
  . exact .inl rfl
  . rw [hdead.malloc]
    exact .inr rfl

theorem step (hdead : HeapDead h) (hasks : h.Asks c) : ∃ h', h.step c = some (0, h') ∧ HeapDead h' := by
  have hgiven := hdead.given
  have hsame : HeapDead ⟨h.st, []⟩ := ⟨hdead.small, hdead.ready, hdead.head, rfl⟩
  unfold LibcHeap.step
  cases c with
  | malloc n =>
    dsimp only
    rw [hdead.malloc, hgiven]
    exact ⟨_, rfl, hdead.started⟩
  | calloc nmemb size =>
    dsimp only
    rw [hgiven]
    obtain hnull | hnull := hdead.calloc nmemb size
    . rw [hnull]
      exact ⟨_, rfl, hsame⟩
    . rw [hnull]
      exact ⟨_, rfl, hdead.started⟩
  | realloc p n =>
    obtain ⟨_, rfl | ⟨size, hp⟩⟩ := hasks
    . have hre : TanjaOS.realloc h.st 0 n = TanjaOS.malloc h.st n := by
        unfold TanjaOS.realloc
        rw [if_pos rfl]
      dsimp only
      rw [hre, hdead.malloc, hgiven]
      refine ⟨_, rfl, ?_⟩
      dsimp only
      split
      . exact hdead.started
      . exact hdead.started
    . rw [hgiven] at hp
      cases hp
  | free p =>
    obtain rfl | ⟨size, hp⟩ := hasks
    . have hfree : TanjaOS.free h.st 0 = h.st := by
        unfold TanjaOS.free
        rw [if_pos rfl]
      dsimp only
      rw [hfree, hgiven]
      exact ⟨_, rfl, hsame⟩
    . rw [hgiven] at hp
      cases hp
  | store a data =>
    obtain ⟨x, hx, _⟩ := hasks
    rw [hgiven] at hx
    cases hx

theorem honest (hdead : HeapDead h) (hasks : h.Asks c) : h.Honest c := by
  obtain ⟨h', hstep, _⟩ := hdead.step hasks
  refine ⟨0, h', hstep, fun hne => absurd rfl hne, fun _ => ⟨rfl, ?_⟩⟩
  intro p n _ size hp
  rw [hdead.given] at hp
  cases hp

end HeapDead

end Dead

section Live

variable {h h' : LibcHeap} {c : HeapCall} {r n : Nat}

theorem step_given (hstep : h.step c = some (r, h')) (hne : r ≠ 0) : (r, c.wanted) ∈ h'.given := by
  have hgive : ∀ given n, (r, n) ∈ LibcHeap.give given r n := by
    intro given n
    unfold LibcHeap.give
    rw [if_neg hne]
    exact List.mem_cons_self
  unfold LibcHeap.step at hstep
  cases c with
  | malloc n =>
    obtain ⟨x, _, hx⟩ := Option.map_eq_some_iff.mp hstep
    obtain ⟨rfl, rfl⟩ := Prod.mk.inj hx
    exact hgive _ _
  | calloc nmemb size =>
    obtain ⟨x, _, hx⟩ := Option.map_eq_some_iff.mp hstep
    obtain ⟨rfl, rfl⟩ := Prod.mk.inj hx
    exact hgive _ _
  | realloc p n =>
    obtain ⟨x, _, hx⟩ := Option.map_eq_some_iff.mp hstep
    obtain ⟨rfl, rfl⟩ := Prod.mk.inj hx
    dsimp only
    rw [if_neg (fun hnull => hne hnull.1)]
    exact hgive _ _
  | free p =>
    cases hstep
    exact absurd rfl hne
  | store a data =>
    cases hstep
    exact absurd rfl hne

theorem hasPayload_le (hpayload : h.HasPayload r n) : n + 20 ≤ h.st.mallocArenaBytes := by
  obtain ⟨bs, size, hblocks, hlive, hle⟩ := hpayload
  have hsize := hblocks.payload_le hlive
  dsimp only at hsize
  omega

theorem honest_of_null (hstep : h.step c = some (0, h)) : h.Honest c := by
  refine ⟨0, h, hstep, fun hne => absurd rfl hne, fun _ => ⟨rfl, ?_⟩⟩
  intro p n _ size hp
  exact ⟨hp, rfl, fun _ _ => rfl⟩

theorem honest_of_rounded (hok : HeapOk h) (hfits : ArenaFits h.st) (hround : h.Rounded c) : h.Honest c := by
  obtain ⟨r, h', hstep, harena, hok', _⟩ := rounded_step hok hfits hround
  have hpayload : r ≠ 0 → h'.HasPayload r c.wanted := by
    intro hne
    obtain ⟨bs, total, hblocks, _, hle, hlive⟩ := hok'.owns (step_given hstep hne)
    exact ⟨bs, total, hblocks, hlive, hle⟩
  refine ⟨r, h', hstep, hpayload, ?_⟩
  intro hlarge
  have hnull : r = 0 := by
    by_contra hne
    have hle := hasPayload_le (hpayload hne)
    rw [harena.bytes] at hle
    omega
  refine ⟨hnull, ?_⟩
  rintro p n rfl size hp
  have hbytes := hfits.bytes
  have hlarge' : h.st.mallocArenaBytes < n + 20 := hlarge
  obtain ⟨bs, total, hblocks, _, _, hlive⟩ := hok.owns hp
  obtain ⟨q, st', hq, hmoved⟩ := realloc_spec hblocks hfits hlive (by omega) hround.1
  unfold LibcHeap.step at hstep
  dsimp only at hstep
  rw [hq, Option.map_some, Option.some_inj, Prod.mk.injEq] at hstep
  obtain ⟨rfl, rfl⟩ := hstep
  dsimp only at hnull
  subst hnull
  cases hmoved with
  | failed =>
    refine ⟨?_, rfl, fun _ _ => rfl⟩
    dsimp only
    rw [if_pos ⟨rfl, by omega⟩]
    exact hp
  | moved _ _ hne => exact absurd rfl hne

theorem started_blocks (hok : HeapOk h) (hfits : ArenaFits h.st) : ∃ bs, HeapBlocks (mallocStarted h.st) bs := by
  obtain ⟨hready, _, _⟩ | ⟨bs, hblocks, _⟩ := hok
  . have hstarted : mallocStarted h.st = mallocInit h.st := by
      unfold mallocStarted
      rw [if_pos hready]
    rw [hstarted]
    exact ⟨_, (mallocInit_blocks hfits).1⟩
  . rw [hblocks.started]
    exact ⟨bs, hblocks⟩

theorem noFree_started (st : MallocState) : NoFree (mallocStarted st) ↔ NoFree st := by
  unfold NoFree
  rw [mallocStarted_started]

theorem blocks_of_noFree (hok : HeapOk h) (hfits : ArenaFits h.st) (hfree : NoFree h.st)
    : ∃ bs, HeapBlocks h.st bs ∧ ∀ b ∈ bs, b.free = false := by
  obtain ⟨hready, _, _⟩ | ⟨bs, hblocks, _⟩ := hok
  . obtain ⟨hinit, harena⟩ := mallocInit_blocks hfits
    have hstarted : mallocStarted h.st = mallocInit h.st := by
      unfold mallocStarted
      rw [if_pos hready]
    rw [← noFree_started, hstarted] at hfree
    have hused := (hinit.noFree_iff (hfits.same harena)).mp hfree _ (List.mem_singleton_self _)
    cases hused
  . exact ⟨bs, hblocks, (hblocks.noFree_iff hfits).mp hfree⟩

theorem realloc_null (st : MallocState) (n : Nat) : realloc st 0 n = malloc st n := by
  unfold realloc
  rw [if_pos rfl]

theorem step_noFree (hok : HeapOk h) (hfits : ArenaFits h.st) (hsmall : h.st.mallocArenaBytes ≤ 2 ^ 31)
    (hfree : NoFree h.st) (hasks : h.Asks c) (hlt : c.wanted < 2 ^ 32) (hwraps : 2 ^ 32 ≤ c.wanted + 35)
    : h.step c = some (0, h) := by
  obtain ⟨bs, hblocks, hused⟩ := blocks_of_noFree hok hfits hfree
  have hnull := malloc_noFree hfree hlt hwraps
  rw [hblocks.started] at hnull
  unfold LibcHeap.step
  cases c with
  | malloc n =>
    dsimp only [HeapCall.wanted] at hnull ⊢
    rw [hnull]
    rfl
  | calloc nmemb size =>
    have hcalloc : calloc h.st nmemb size = some (0, h.st) := by
      unfold calloc
      split
      . rfl
      . dsimp only [HeapCall.wanted] at hnull
        rw [hnull]
        rfl
    dsimp only
    rw [hcalloc]
    rfl
  | realloc p n =>
    dsimp only [HeapCall.wanted] at hnull hwraps
    have hre : realloc h.st p n = some (0, h.st) := by
      obtain ⟨_, rfl | ⟨size, hp⟩⟩ := hasks
      . rw [realloc_null, hnull]
      . obtain ⟨bs', total, hblocks', _, _, hlive⟩ := hok.owns hp
        obtain rfl := hblocks.unique hblocks'
        have hle := hblocks.payload_le hlive
        dsimp only at hle
        obtain ⟨_, _, b, hb, hfree⟩ | hmove := realloc_large hblocks hlive (show total < n by omega)
        . rw [hused b hb] at hfree
          cases hfree
        . rw [hmove, hnull]
          rfl
    dsimp only
    rw [hre, Option.map_some, if_pos ⟨rfl, by omega⟩]
  | free p =>
    dsimp only [HeapCall.wanted] at hwraps
    omega
  | store a data =>
    dsimp only [HeapCall.wanted] at hwraps
    omega

theorem step_overflow (hasks : h.Asks c) (hwraps : 2 ^ 32 ≤ c.wanted) : h.step c = some (0, h) := by
  unfold LibcHeap.step
  cases c with
  | malloc n =>
    have hlt : n < 2 ^ 32 := hasks
    have hge : 2 ^ 32 ≤ n := hwraps
    omega
  | calloc nmemb size =>
    have hge : 2 ^ 32 ≤ nmemb * size := hwraps
    have hpos : nmemb ≠ 0 := by
      rintro rfl
      omega
    have hlarge : 0xFFFFFFFF / nmemb < size := by
      rw [Nat.div_lt_iff_lt_mul (Nat.pos_of_ne_zero hpos), Nat.mul_comm]
      omega
    have hcalloc : calloc h.st nmemb size = some (0, h.st) := by
      unfold calloc
      rw [if_pos ⟨hpos, hlarge⟩]
    dsimp only
    rw [hcalloc]
    rfl
  | realloc p n =>
    have hlt : n < 2 ^ 32 := hasks.1
    have hge : 2 ^ 32 ≤ n := hwraps
    omega
  | free p =>
    dsimp only [HeapCall.wanted] at hwraps
    omega
  | store a data =>
    dsimp only [HeapCall.wanted] at hwraps
    omega

theorem step_free (hok : HeapOk h) (hfits : ArenaFits h.st) (hsmall : h.st.mallocArenaBytes ≤ 2 ^ 31)
    (hfree : ¬NoFree h.st) (hasks : h.Asks c) (hlt : c.wanted < 2 ^ 32) (hwraps : 2 ^ 32 ≤ c.wanted + 35)
    : ∃ r h', h.step c = some (r, h') ∧ r ≠ 0 ∧ SameArena h.st h'.st := by
  have hmalloc : ∃ r st', malloc h.st c.wanted = some (r, st') ∧ r ≠ 0 := by
    obtain ⟨bs, hblocks⟩ := started_blocks hok hfits
    obtain ⟨r, st', hr, hne⟩ := malloc_free hblocks (hfits.same (mallocStarted_same h.st))
      (fun hno => hfree ((noFree_started h.st).mp hno)) hlt hwraps
    rw [malloc_eq, mallocStarted_started, ← malloc_eq] at hr
    exact ⟨r, st', hr, hne⟩
  obtain ⟨r, st', hr, hne⟩ := hmalloc
  have harena := malloc_same hr
  unfold LibcHeap.step
  cases c with
  | malloc n =>
    dsimp only [HeapCall.wanted] at hr ⊢
    rw [hr]
    exact ⟨_, _, rfl, hne, harena⟩
  | calloc nmemb size =>
    dsimp only [HeapCall.wanted] at hr hlt
    have hsize : ¬(nmemb ≠ 0 ∧ 0xFFFFFFFF / nmemb < size) := by
      rintro ⟨hpos, hlarge⟩
      rw [Nat.div_lt_iff_lt_mul (Nat.pos_of_ne_zero hpos), Nat.mul_comm] at hlarge
      omega
    have hcalloc : calloc h.st nmemb size
        = some (r, { st' with mem := st'.mem.writeBytes r (List.replicate (nmemb * size) 0) }) := by
      unfold calloc
      rw [if_neg hsize, hr]
      dsimp only
      rw [if_pos hne]
    dsimp only
    rw [hcalloc]
    exact ⟨_, _, rfl, hne, ⟨harena.arena, harena.bytes⟩⟩
  | realloc p n =>
    dsimp only [HeapCall.wanted] at hr hwraps
    have hre : ∃ q st₁, realloc h.st p n = some (q, st₁) ∧ q ≠ 0 ∧ SameArena h.st st₁ := by
      obtain ⟨_, rfl | ⟨size, hp⟩⟩ := hasks
      . rw [realloc_null]
        exact ⟨r, st', hr, hne, harena⟩
      . obtain ⟨bs, total, hblocks, _, _, hlive⟩ := hok.owns hp
        have hle := hblocks.payload_le hlive
        have hbounds := mem_live_bounds hlive
        dsimp only at hle hbounds
        obtain ⟨m, hgrow, _⟩ | hmove := realloc_large hblocks hlive (show total < n by omega)
        . exact ⟨p, _, hgrow, by omega, ⟨rfl, rfl⟩⟩
        . rw [hmove, hr]
          dsimp only [Option.map_some]
          rw [if_neg hne]
          refine ⟨_, _, rfl, hne, ?_⟩
          have hfree := free_same { st' with mem := st'.mem.writeBytes r (st'.mem.readBytes p total) } p
          exact ⟨hfree.arena.trans harena.arena, hfree.bytes.trans harena.bytes⟩
    obtain ⟨q, st₁, hq, hqne, hqarena⟩ := hre
    dsimp only
    rw [hq]
    exact ⟨_, _, rfl, hqne, hqarena⟩
  | free p =>
    dsimp only [HeapCall.wanted] at hwraps
    omega
  | store a data =>
    dsimp only [HeapCall.wanted] at hwraps
    omega

theorem rounded_of_asks (hasks : h.Asks c) (hround : c.wanted + 35 < 2 ^ 32) : h.Rounded c := by
  cases c with
  | malloc n => exact hround
  | calloc nmemb size => exact hround
  | realloc p n => exact ⟨hround, hasks.2⟩
  | free p => exact hasks
  | store a data => exact hasks

end Live

section Run

variable {h h' : LibcHeap} {c : HeapCall} {r : Nat}

def SizedOk (h : LibcHeap) : Prop :=
  HeapDead h ∨ HeapOk h ∧ ArenaFits h.st ∧ h.st.mallocArenaBytes ≤ 2 ^ 31

theorem sizedOk_step (hok : SizedOk h) (hasks : h.Asks c) (hcall : h.Fits c) (hstep : h.step c = some (r, h'))
    : SizedOk h' := by
  obtain hdead | ⟨hlive, hfits, hsmall⟩ := hok
  . obtain ⟨h₁, hstep₁, hdead₁⟩ := hdead.step hasks
    rw [hstep, Option.some_inj, Prod.mk.injEq] at hstep₁
    rw [hstep₁.2]
    exact .inl hdead₁
  . have hnull : h.step c = some (0, h) → SizedOk h' := by
      intro hsame
      rw [hstep, Option.some_inj, Prod.mk.injEq] at hsame
      rw [hsame.2]
      exact .inr ⟨hlive, hfits, hsmall⟩
    by_cases hround : c.wanted + 35 < 2 ^ 32
    . obtain ⟨r₁, h₁, hstep₁, harena, hlive₁, _⟩ := rounded_step hlive hfits (rounded_of_asks hasks hround)
      rw [hstep, Option.some_inj, Prod.mk.injEq] at hstep₁
      rw [hstep₁.2]
      exact .inr ⟨hlive₁, hfits.same harena, by rw [harena.bytes]; exact hsmall⟩
    . by_cases hlarge : 2 ^ 32 ≤ c.wanted
      . exact hnull (step_overflow hasks hlarge)
      . have hfree := (hcall.resolve_left hround).resolve_left hlarge
        exact hnull (step_noFree hlive hfits hsmall hfree hasks (by omega) (by omega))

theorem sizedOk_honest_iff (hok : SizedOk h) (hasks : h.Asks c) : h.Honest c ↔ h.Fits c := by
  obtain hdead | ⟨hlive, hfits, hsmall⟩ := hok
  . exact ⟨fun _ => .inr (.inr hdead.noFree), fun _ => hdead.honest hasks⟩
  . by_cases hround : c.wanted + 35 < 2 ^ 32
    . exact ⟨fun _ => .inl hround, fun _ => honest_of_rounded hlive hfits (rounded_of_asks hasks hround)⟩
    . by_cases hlarge : 2 ^ 32 ≤ c.wanted
      . exact ⟨fun _ => .inr (.inl hlarge), fun _ => honest_of_null (step_overflow hasks hlarge)⟩
      . by_cases hfree : NoFree h.st
        . exact ⟨fun _ => .inr (.inr hfree), fun _ =>
            honest_of_null (step_noFree hlive hfits hsmall hfree hasks (by omega) (by omega))⟩
        . obtain ⟨r, h₁, hstep, hne, harena⟩ :=
            step_free hlive hfits hsmall hfree hasks (by omega) (by omega)
          constructor
          . rintro ⟨r', h', hstep', hpayload, _⟩
            rw [hstep, Option.some_inj, Prod.mk.injEq] at hstep'
            obtain ⟨rfl, rfl⟩ := hstep'
            have hle := hasPayload_le (hpayload hne)
            rw [harena.bytes] at hle
            omega
          . rintro (hbad | hbad | hbad)
            . exact absurd hbad hround
            . exact absurd hbad hlarge
            . exact absurd hbad hfree

theorem sizedOk_start {mem : Mem} {base bytes : Nat} (hlimit : base + bytes ≤ 2 ^ 32) (hsmall : bytes ≤ 2 ^ 31)
    : SizedOk (LibcHeap.start mem base bytes) := by
  by_cases hbase : base = 0
  . exact .inl ⟨.inl hbase, .inl rfl, rfl, rfl⟩
  . by_cases hbytes : bytes < 4096
    . refine .inl ⟨.inr ?_, .inl rfl, rfl, rfl⟩
      show bytes / 16 * 16 < 4096
      omega
    . refine .inr ⟨.inl ⟨rfl, rfl, rfl⟩, start_fits (by omega) (by omega) hlimit, ?_⟩
      show bytes / 16 * 16 ≤ 2 ^ 31
      omega

theorem sizedOk_run {h₀ : LibcHeap} (hok : SizedOk h₀) (hrun : FittingRun h₀ h) : SizedOk h := by
  refine Run.keeps (I := SizedOk) ?_ hok hrun
  rintro h c h' ⟨hasks, hcall⟩ hok ⟨r, hstep⟩
  exact sizedOk_step hok hasks hcall hstep

/--
In any state that calls which fit lead to, a call is honest exactly if it fits.
-/
theorem malloc_honest_iff (mem : Mem) (base bytes : Nat) (h : LibcHeap) (c : HeapCall)
    (hlimit : base + bytes ≤ 2 ^ 32) (hsmall : bytes ≤ 2 ^ 31)
    (hrun : FittingRun (LibcHeap.start mem base bytes) h) (hasks : h.Asks c)
    : h.Honest c ↔ h.Fits c :=
  sizedOk_honest_iff (sizedOk_run (sizedOk_start hlimit hsmall) hrun) hasks

theorem malloc_honest_iff_start
    : (LibcHeap.start (fun _ => 0) 0x100000 4096).Honest (.malloc 100) ↔
      (LibcHeap.start (fun _ => 0) 0x100000 4096).Fits (.malloc 100) :=
  malloc_honest_iff (fun _ => 0) 0x100000 4096 _ (.malloc 100) (by decide) (by decide)
    Relation.ReflTransGen.refl (show 100 < 2 ^ 32 by decide)

/--
`malloc(0xFFFFFFFF)` returns a pointer to 16 bytes.
-/
theorem malloc_dishonest : ¬(LibcHeap.start (fun _ => 0) 0x100000 4096).Honest (.malloc 0xFFFFFFFF) := by
  have hsized : SizedOk (LibcHeap.start (fun _ => 0) 0x100000 4096) := sizedOk_start (by decide) (by decide)
  rw [sizedOk_honest_iff (c := .malloc 0xFFFFFFFF) hsized (show 0xFFFFFFFF < 2 ^ 32 by decide)]
  rintro (hround | hlarge | hfree)
  . exact absurd hround (by decide)
  . exact absurd hlarge (by decide)
  . have hfits : ArenaFits (LibcHeap.start (fun _ => 0) 0x100000 4096).st :=
      start_fits (by decide) (by decide) (by decide)
    obtain ⟨bs, hblocks, _⟩ := blocks_of_noFree (.inl ⟨rfl, rfl, rfl⟩) hfits hfree
    cases hblocks.ready

end Run

end TanjaOS
