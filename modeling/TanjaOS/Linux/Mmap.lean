import TanjaOS.Linux.Slots

/-!
The memory of a program. `mmap` hands out a window of it from the bottom up, `mremap` is a `mmap` and a copy.
-/

open Lib

namespace TanjaOS

section Impl

structure LxProg where
  lx : LxState
  mem : Mem

def mapFixed : UInt32 := 0x10

def mapAnonymous : UInt32 := 0x20

/--
`memset` with zeros. An address has 32 bits.
-/
def zeroMem (m : Mem) (a n : Nat) : Mem :=
  fun i => if (i + (2 ^ 32 - a)) % 2 ^ 32 < n then 0 else m i

namespace LxProg

/--
`sys_mmap` with its flags.
-/
def mmap (p : LxProg) (addr len flags : UInt32) (fd : Int32) (off : UInt32) : Nat × LxProg :=
  let fixed := decide (flags &&& mapFixed ≠ 0)
  let file := if 0 ≤ fd ∧ flags &&& mapAnonymous = 0 then some fd.toInt.toNat else none
  let r := sysMmap p.lx fixed addr.toNat len.toNat file off.toNat
  let size := (len.toNat + 4095) % 2 ^ 32 / 4096 * 4096
  let mem :=
    match mmapPlace p.lx fixed addr.toNat size with
    | .error _ => p.mem
    | .ok (a, _) => if len = 0 then p.mem else (zeroMem p.mem a size).writeBytes a r.1.bytes
  (r.1.ret, { lx := r.2, mem })

/--
`sys_mremap`, with `MAP_PRIVATE|MAP_ANONYMOUS` as its comment calls the flags.
-/
def mremap (p : LxProg) (old oldsz newsz : UInt32) : Nat × LxProg :=
  if newsz = 0 then
    (lxErr EINVAL_L, p)
  else
    let (n, p) := p.mmap 0 newsz 0x32 (-1) 0
    if Int.bmod n (2 ^ 32) < 0 then
      (n, p)
    else
      (n, { p with mem := p.mem.writeBytes n (p.mem.readBytes old.toNat (min oldsz.toNat newsz.toNat)) })

end LxProg

inductive MapCall where
  | mmap (addr len flags : UInt32) (fd : Int32) (off : UInt32)
  | mremap (old oldsz newsz : UInt32)

end Impl

section Spec

/--
An error number in `eax`.
-/
def IsError (r : Nat) : Prop :=
  2 ^ 32 - 4096 ≤ r

instance (r : Nat) : Decidable (IsError r) :=
  inferInstanceAs (Decidable (_ ≤ _))

/--
A program and the places and lengths that it has been given by calls without `MAP_FIXED`.
-/
structure Mapper where
  prog : LxProg
  maps : List (Nat × Nat)

def pages (len : UInt32) : Nat :=
  (len.toNat + 4095) / 4096 * 4096

namespace Mapper

def step (m : Mapper) : MapCall → Nat × Mapper
  | .mmap addr len flags fd off =>
    let (r, p) := m.prog.mmap addr len flags fd off
    (r, ⟨p, if IsError r ∨ flags &&& mapFixed ≠ 0 then m.maps else (r, pages len) :: m.maps⟩)
  | .mremap old oldsz newsz =>
    let (r, p) := m.prog.mremap old oldsz newsz
    (r, ⟨p, if IsError r then m.maps else (r, pages newsz) :: m.maps⟩)

/--
A place of its own in the window, for `len` bytes.
-/
structure Placed (m : Mapper) (r : Nat) (len : UInt32) : Prop where
  above : m.prog.lx.mmapBase ≤ r
  inside : r + pages len ≤ m.prog.lx.mmapLimit
  long : len.toNat ≤ pages len
  disjoint : ∀ x ∈ m.maps, r + pages len ≤ x.1 ∨ x.1 + x.2 ≤ r

/--
What a call promises.
-/
def Sound (m : Mapper) (c : MapCall) : Prop :=
  (IsError (m.step c).1 → (m.step c).2.prog = m.prog) ∧
    match c with
    | .mmap addr len flags _ _ =>
      ¬IsError (m.step c).1 →
        if flags &&& mapFixed ≠ 0 then
          m.prog.lx.mmapBase ≤ addr.toNat ∧ addr.toNat + len.toNat ≤ m.prog.lx.mmapLimit
        else
          m.Placed (m.step c).1 len
    | .mremap old oldsz newsz =>
      (¬IsError (m.step c).1 → m.Placed (m.step c).1 newsz) ∧
        (m.prog.lx.mmapNext + newsz.toNat ≤ m.prog.lx.mmapLimit →
          ¬IsError (m.step c).1 ∧ ∀ i, i < min oldsz.toNat newsz.toNat →
            (m.step c).2.prog.mem ((m.step c).1 + i) = m.prog.mem (old.toNat + i))

/--
The place where `sys_mmap` tries to map, `none` if it refuses the address.
-/
def place (m : Mapper) (addr flags : UInt32) : Option Nat :=
  if flags &&& mapFixed ≠ 0 then
    if addr.toNat < m.prog.lx.mmapBase then none else some addr.toNat
  else
    if addr = 0 then some m.prog.lx.mmapNext else none

def FileOk (m : Mapper) (flags : UInt32) (fd : Int32) : Prop :=
  0 ≤ fd ∧ flags &&& mapAnonymous = 0 →
    ∃ i, fdGet m.prog.lx fd.toInt.toNat = some i ∧ (m.prog.lx.lfd i).isDir = false

/--
The pages end below 4 GiB and the file can be mapped, or nothing is mapped.
-/
def Fine (m : Mapper) : MapCall → Prop
  | .mmap addr len flags fd _ =>
    len = 0 ∨ ∀ a, m.place addr flags = some a →
      m.prog.lx.mmapLimit < (a + pages len) % 2 ^ 32 ∨ a + pages len < 2 ^ 32 ∧ m.FileOk flags fd
  | .mremap _ _ newsz => m.prog.lx.mmapLimit < m.prog.lx.mmapNext + newsz.toNat

abbrev MapRun : Mapper → Mapper → Prop :=
  Run (fun c m m' => (m.step c).2 = m') Fine

end Mapper

/--
What `linux_set_layout` makes of the window.
-/
structure MapWindow (st : LxState) : Prop where
  base : 0 < st.mmapBase
  next : st.mmapBase ≤ st.mmapNext
  limit : st.mmapNext ≤ st.mmapLimit
  top : st.mmapLimit ≤ 2 ^ 32 - 4096

end Spec

section Place

/--
`sys_mmap` rounds up in 32 bits.
-/
def roundPages (len : UInt32) : Nat :=
  (len.toNat + 4095) % 2 ^ 32 / 4096 * 4096

theorem roundPages_mod (a : Nat) (len : UInt32) : (a + roundPages len) % 2 ^ 32 = (a + pages len) % 2 ^ 32 := by
  have hlen := len.toNat_lt
  unfold roundPages pages
  omega

theorem roundPages_eq {len : UInt32} (h : pages len < 2 ^ 32) : roundPages len = pages len := by
  have hlen := len.toNat_lt
  unfold roundPages pages at *
  omega

theorem pages_pos {len : UInt32} (h : len ≠ 0) : 0 < pages len := by
  have hne : len.toNat ≠ 0 := fun hzero => h (UInt32.toNat_inj.mp hzero)
  unfold pages
  omega

theorem le_pages (len : UInt32) : len.toNat ≤ pages len := by
  unfold pages
  omega

variable {m : Mapper} {addr len flags : UInt32} {a : Nat}

theorem mmapPlace_none (h : m.place addr flags = none) (n : Nat)
    : ∃ e, mmapPlace m.prog.lx (decide (flags &&& mapFixed ≠ 0)) addr.toNat n = .error e ∧ e < 4096 := by
  unfold Mapper.place at h
  unfold mmapPlace
  split at h
  . next hfixed =>
    rw [if_pos (decide_eq_true hfixed)]
    split at h
    . next hlow =>
      rw [if_pos (.inl hlow)]
      exact ⟨_, rfl, by decide⟩
    . cases h
  . next hfree =>
    rw [if_neg (by simpa using hfree)]
    split at h
    . cases h
    . next hne =>
      have haddr : addr.toNat ≠ 0 := fun hzero => hne (UInt32.toNat_inj.mp hzero)
      rw [if_pos haddr]
      exact ⟨_, rfl, by decide⟩

theorem mmapPlace_some (h : m.place addr flags = some a) (n : Nat)
    : mmapPlace m.prog.lx (decide (flags &&& mapFixed ≠ 0)) addr.toNat n =
      if m.prog.lx.mmapLimit < (a + n) % 2 ^ 32 then .error ENOMEM_L
      else .ok (a, if flags &&& mapFixed ≠ 0 then m.prog.lx
        else { m.prog.lx with mmapNext := (m.prog.lx.mmapNext + n) % 2 ^ 32 }) := by
  unfold Mapper.place at h
  unfold mmapPlace
  split at h
  . next hfixed =>
    rw [if_pos (decide_eq_true hfixed)]
    split at h
    . cases h
    . next hlow =>
      cases h
      by_cases hlimit : m.prog.lx.mmapLimit < (addr.toNat + n) % 2 ^ 32
      . rw [if_pos (.inr hlimit), if_pos hlimit]
      . rw [if_neg (not_or.mpr ⟨hlow, hlimit⟩), if_neg hlimit, if_pos hfixed]
  . next hfree =>
    rw [if_neg (by simpa using hfree)]
    split at h
    . next haddr =>
      cases h
      have hzero : ¬addr.toNat ≠ 0 := by
        rw [haddr]
        decide
      rw [if_neg hzero, if_neg hfree]
    . cases h

theorem place_fixed (h : m.place addr flags = some a) (hfixed : flags &&& mapFixed ≠ 0)
    : a = addr.toNat ∧ m.prog.lx.mmapBase ≤ addr.toNat := by
  unfold Mapper.place at h
  rw [if_pos hfixed] at h
  split at h
  . cases h
  . next hlow =>
    cases h
    exact ⟨rfl, Nat.not_lt.mp hlow⟩

theorem place_next (h : m.place addr flags = some a) (hfree : ¬flags &&& mapFixed ≠ 0) : a = m.prog.lx.mmapNext := by
  unfold Mapper.place at h
  rw [if_neg hfree] at h
  split at h
  . cases h
    rfl
  . cases h

end Place

section Calls

/--
The window after `sys_mmap` has found a place.
-/
structure MmapMoved (st st' : LxState) (next : Nat) : Prop where
  base : st'.mmapBase = st.mmapBase
  limit : st'.mmapLimit = st.mmapLimit
  next : st'.mmapNext = next

theorem MmapMoved.touch {st st' : LxState} {n : Nat} (h : MmapMoved st st' n) (d : LxData) (off k : Nat)
    : MmapMoved st (st'.touch d off k) n := by
  cases d with
  | null => exact h
  | pool off => exact h
  | slot s => exact ⟨h.base, h.limit, h.next⟩
  | dirList => exact h

theorem sysMmap_error {st : LxState} {fixed : Bool} {addr len off e : Nat} {file : Option Nat} (hlen : len ≠ 0)
    (h : mmapPlace st fixed addr ((len + 4095) % 2 ^ 32 / 4096 * 4096) = .error e)
    : sysMmap st fixed addr len file off = (⟨lxErr e, []⟩, st) := by
  unfold sysMmap
  rw [if_neg hlen]
  dsimp only
  rw [h]

theorem sysMmap_ok {st st' : LxState} {fixed : Bool} {addr len a : Nat} {file : Option Nat} (off : Nat) (hlen : len ≠ 0)
    (h : mmapPlace st fixed addr ((len + 4095) % 2 ^ 32 / 4096 * 4096) = .ok (a, st'))
    (hfile : ∀ fd ∈ file, ∃ i, fdGet st' fd = some i ∧ (st'.lfd i).isDir = false)
    : ∃ bs st'', sysMmap st fixed addr len file off = (⟨a, bs⟩, st'') ∧ MmapMoved st' st'' st'.mmapNext := by
  unfold sysMmap
  rw [if_neg hlen]
  dsimp only
  rw [h]
  dsimp only
  have hfill : ∀ n v, MmapMoved st' (st'.fillAbs a n v) st'.mmapNext := fun _ _ => ⟨rfl, rfl, rfl⟩
  cases file with
  | none => exact ⟨_, _, rfl, hfill _ _⟩
  | some fd =>
    obtain ⟨i, hget, hdir⟩ := hfile fd rfl
    have hget' : fdGet (st'.fillAbs a ((len + 4095) % 2 ^ 32 / 4096 * 4096) (fun _ => 0)) fd = some i := hget
    have hdir' : ¬((st'.fillAbs a ((len + 4095) % 2 ^ 32 / 4096 * 4096) (fun _ => 0)).lfd i).isDir = true := by
      show ¬(st'.lfd i).isDir = true
      rw [hdir]
      decide
    dsimp only
    rw [hget']
    dsimp only
    rw [if_neg hdir']
    have htouch := (hfill ((len + 4095) % 2 ^ 32 / 4096 * 4096) (fun _ => 0)).touch (st'.lfd i).data off
      (min ((st'.lfd i).len - off) ((len + 4095) % 2 ^ 32 / 4096 * 4096))
    exact ⟨_, _, rfl, ⟨htouch.base, htouch.limit, htouch.next⟩⟩

variable {m : Mapper} {addr len flags : UInt32} {fd : Int32} {off : UInt32} {a : Nat}

theorem mmap_refused (hlen : len ≠ 0) {e : Nat}
    (h : mmapPlace m.prog.lx (decide (flags &&& mapFixed ≠ 0)) addr.toNat (roundPages len) = .error e)
    : m.prog.mmap addr len flags fd off = (lxErr e, m.prog) := by
  have hne : len.toNat ≠ 0 := fun hzero => hlen (UInt32.toNat_inj.mp hzero)
  unfold roundPages at h
  unfold LxProg.mmap
  dsimp only
  rw [sysMmap_error hne h, h]

theorem mmap_empty : m.prog.mmap addr 0 flags fd off = (lxErr EINVAL_L, m.prog) := by
  unfold LxProg.mmap sysMmap
  dsimp only
  rw [if_pos (show (0 : UInt32).toNat = 0 from rfl)]
  split
  . rfl
  . rw [if_pos rfl]

theorem mmap_accepted (off : UInt32) (hlen : len ≠ 0) (hplace : m.place addr flags = some a)
    (hlimit : ¬m.prog.lx.mmapLimit < (a + pages len) % 2 ^ 32) (hend : a + pages len < 2 ^ 32)
    (hfile : m.FileOk flags fd)
    : ∃ p, m.prog.mmap addr len flags fd off = (a, p) ∧
      MmapMoved m.prog.lx p.lx
        (if flags &&& mapFixed ≠ 0 then m.prog.lx.mmapNext else m.prog.lx.mmapNext + pages len) := by
  have hne : len.toNat ≠ 0 := fun hzero => hlen (UInt32.toNat_inj.mp hzero)
  have hround : roundPages len = pages len := roundPages_eq (by omega)
  have hok := mmapPlace_some hplace (roundPages len)
  rw [roundPages_mod, if_neg hlimit, hround] at hok
  generalize hst : (if flags &&& mapFixed ≠ 0 then m.prog.lx
    else { m.prog.lx with mmapNext := (m.prog.lx.mmapNext + pages len) % 2 ^ 32 }) = st' at hok
  have hlfd : st'.lfd = m.prog.lx.lfd := by
    rw [← hst]
    split <;> rfl
  have hmoved : MmapMoved m.prog.lx st'
      (if flags &&& mapFixed ≠ 0 then m.prog.lx.mmapNext else m.prog.lx.mmapNext + pages len) := by
    rw [← hst]
    split
    . exact ⟨rfl, rfl, rfl⟩
    . next hfree =>
      rw [place_next hplace hfree] at hend
      exact ⟨rfl, rfl, Nat.mod_eq_of_lt hend⟩
  have hopen : ∀ k ∈ (if 0 ≤ fd ∧ flags &&& mapAnonymous = 0 then some fd.toInt.toNat else none),
      ∃ i, fdGet st' k = some i ∧ (st'.lfd i).isDir = false := by
    intro k hk
    split at hk
    . next hbacked =>
      cases hk
      obtain ⟨i, hget, hdir⟩ := hfile hbacked
      rw [hlfd]
      refine ⟨i, ?_, hdir⟩
      rw [← hget]
      unfold fdGet
      rw [hlfd]
    . cases hk
  obtain ⟨bs, st'', hsys, hkept⟩ := sysMmap_ok off.toNat hne (by rw [← hround] at hok; exact hok) hopen
  have hmmap : ∃ mem, m.prog.mmap addr len flags fd off = (a, ⟨st'', mem⟩) := by
    unfold LxProg.mmap
    dsimp only
    rw [hsys]
    exact ⟨_, rfl⟩
  obtain ⟨mem, hmmap⟩ := hmmap
  exact ⟨_, hmmap, hkept.base.trans hmoved.base, hkept.limit.trans hmoved.limit, hkept.next.trans hmoved.next⟩

theorem mremap_refused {old oldsz newsz : UInt32} (hbase : 0 < m.prog.lx.mmapBase) (hnew : newsz ≠ 0)
    : m.prog.mremap old oldsz newsz = (lxErr ENOMEM_L, m.prog) := by
  have hplace : ∀ n, mmapPlace m.prog.lx (decide ((0x32 : UInt32) &&& mapFixed ≠ 0)) (0 : UInt32).toNat n
      = .error ENOMEM_L := by
    intro n
    unfold mmapPlace
    rw [if_pos (by decide), if_pos (.inl hbase)]
  unfold LxProg.mremap
  rw [if_neg hnew, mmap_refused hnew (hplace _)]
  dsimp only
  rw [if_pos (by decide)]

end Calls

section Run

variable {m m' : Mapper} {c : MapCall}

structure MapperOk (m : Mapper) : Prop where
  window : MapWindow m.prog.lx
  below : ∀ x ∈ m.maps, x.1 + x.2 ≤ m.prog.lx.mmapNext

theorem isError_lxErr {e : Nat} (he : e < 4096) : IsError (lxErr e) := by
  unfold IsError lxErr
  omega

/--
The call changed nothing, or it has mapped its pages at `a`.
-/
inductive Mapped (m : Mapper) (addr len flags : UInt32) (fd : Int32) (off : UInt32) : Nat → LxProg → Prop where
  | refused {e : Nat} : e < 4096 → Mapped m addr len flags fd off (lxErr e) m.prog
  | accepted {a : Nat} {p : LxProg} : len ≠ 0 → m.place addr flags = some a → a + pages len ≤ m.prog.lx.mmapLimit →
    MmapMoved m.prog.lx p.lx
      (if flags &&& mapFixed ≠ 0 then m.prog.lx.mmapNext else m.prog.lx.mmapNext + pages len) →
    Mapped m addr len flags fd off a p

theorem fine_mapped {addr len flags : UInt32} {fd : Int32} {off : UInt32}
    (hfine : m.Fine (.mmap addr len flags fd off))
    : Mapped m addr len flags fd off (m.prog.mmap addr len flags fd off).1 (m.prog.mmap addr len flags fd off).2 := by
  by_cases hlen : len = 0
  . rw [hlen, mmap_empty]
    exact .refused (by decide)
  . have hplaces := hfine.resolve_left hlen
    cases hplace : m.place addr flags with
    | none =>
      obtain ⟨e, herror, he⟩ := mmapPlace_none hplace (roundPages len)
      rw [mmap_refused hlen herror]
      exact .refused he
    | some a =>
      by_cases hlimit : m.prog.lx.mmapLimit < (a + pages len) % 2 ^ 32
      . have herror := mmapPlace_some hplace (roundPages len)
        rw [roundPages_mod, if_pos hlimit] at herror
        rw [mmap_refused hlen herror]
        exact .refused (by decide)
      . obtain ⟨hend, hfile⟩ := (hplaces a hplace).resolve_left hlimit
        obtain ⟨p, hmmap, hmoved⟩ := mmap_accepted off hlen hplace hlimit hend hfile
        rw [hmmap]
        rw [Nat.mod_eq_of_lt hend] at hlimit
        exact .accepted hlen hplace (Nat.not_lt.mp hlimit) hmoved

theorem not_isError {a n limit : Nat} (hend : a + n ≤ limit) (hpos : 0 < n) (htop : limit ≤ 2 ^ 32 - 4096)
    : ¬IsError a := by
  unfold IsError
  omega

theorem fine_sound (hok : MapperOk m) (hfine : m.Fine c) : m.Sound c := by
  have hwin := hok.window
  cases c with
  | mmap addr len flags fd off =>
    have hmapped := fine_mapped hfine
    unfold Mapper.Sound Mapper.step
    dsimp only
    generalize (m.prog.mmap addr len flags fd off).1 = r at hmapped ⊢
    generalize (m.prog.mmap addr len flags fd off).2 = p at hmapped ⊢
    cases hmapped with
    | refused he => exact ⟨fun _ => rfl, fun hno => absurd (isError_lxErr he) hno⟩
    | accepted hlen hplace hend _ =>
      have hno := not_isError hend (pages_pos hlen) hwin.top
      refine ⟨fun herror => absurd herror hno, fun _ => ?_⟩
      have hle := le_pages len
      split
      . next hfixed =>
        obtain ⟨rfl, hbase⟩ := place_fixed hplace hfixed
        exact ⟨hbase, by omega⟩
      . next hfree =>
        obtain rfl := place_next hplace hfree
        exact ⟨hwin.next, hend, hle, fun x hx => .inr (hok.below x hx)⟩
  | mremap old oldsz newsz =>
    have hfull : m.prog.lx.mmapLimit < m.prog.lx.mmapNext + newsz.toNat := hfine
    have hlimit := hwin.limit
    have hnew : newsz ≠ 0 := by
      rintro rfl
      exact absurd hfull (by show ¬_ < m.prog.lx.mmapNext + 0; omega)
    unfold Mapper.Sound Mapper.step
    dsimp only
    rw [mremap_refused hwin.base hnew]
    refine ⟨fun _ => rfl, fun hno => absurd (isError_lxErr (by decide)) hno, fun hroom => ?_⟩
    omega

theorem fine_step (hok : MapperOk m) (hfine : m.Fine c) : MapperOk (m.step c).2 := by
  have hwin := hok.window
  cases c with
  | mmap addr len flags fd off =>
    have hmapped := fine_mapped hfine
    unfold Mapper.step
    dsimp only
    generalize (m.prog.mmap addr len flags fd off).1 = r at hmapped ⊢
    generalize (m.prog.mmap addr len flags fd off).2 = p at hmapped ⊢
    cases hmapped with
    | refused he =>
      rw [if_pos (.inl (isError_lxErr he))]
      exact hok
    | accepted hlen hplace hend hmoved =>
      have hno := not_isError hend (pages_pos hlen) hwin.top
      have hbase := hwin.base
      have hnext := hwin.next
      have hlimit := hwin.limit
      have htop := hwin.top
      by_cases hfixed : flags &&& mapFixed ≠ 0
      . rw [if_pos hfixed] at hmoved
        rw [if_pos (.inr hfixed)]
        refine ⟨⟨?_, ?_, ?_, ?_⟩, ?_⟩
        . rw [hmoved.base]; exact hbase
        . rw [hmoved.base, hmoved.next]; exact hnext
        . rw [hmoved.limit, hmoved.next]; exact hlimit
        . rw [hmoved.limit]; exact htop
        . rw [hmoved.next]; exact hok.below
      . rw [if_neg hfixed] at hmoved
        obtain rfl := place_next hplace hfixed
        rw [if_neg (not_or.mpr ⟨hno, hfixed⟩)]
        refine ⟨⟨?_, ?_, ?_, ?_⟩, ?_⟩
        . rw [hmoved.base]; exact hbase
        . rw [hmoved.base, hmoved.next]; omega
        . rw [hmoved.limit, hmoved.next]; exact hend
        . rw [hmoved.limit]; exact htop
        . rw [hmoved.next]
          intro x hx
          rw [List.mem_cons] at hx
          obtain rfl | hx := hx
          . exact Nat.le_refl _
          . have hbelow := hok.below x hx
            omega
  | mremap old oldsz newsz =>
    have hfull : m.prog.lx.mmapLimit < m.prog.lx.mmapNext + newsz.toNat := hfine
    have hlimit := hwin.limit
    have hnew : newsz ≠ 0 := by
      rintro rfl
      exact absurd hfull (by show ¬_ < m.prog.lx.mmapNext + 0; omega)
    unfold Mapper.step
    dsimp only
    rw [mremap_refused hwin.base hnew, if_pos (isError_lxErr (by decide))]
    exact hok

/--
In a run of calls that are fine, every one is sound.
-/
theorem mmap_sound (p : LxProg) (m : Mapper) (c : MapCall) (hwin : MapWindow p.lx)
    (hrun : Mapper.MapRun ⟨p, []⟩ m) (hfine : m.Fine c)
    : m.Sound c := by
  have hstart : MapperOk ⟨p, []⟩ := ⟨hwin, fun x hx => absurd hx List.not_mem_nil⟩
  have hok : MapperOk m := by
    refine Run.keeps (I := MapperOk) ?_ hstart hrun
    rintro m c _ hfine hok rfl
    exact fine_step hok hfine
  exact fine_sound hok hfine

def linuxProg : LxProg where
  lx := linuxStart
  mem _ := 0

theorem linuxStart_window : MapWindow linuxStart where
  base := by decide
  next := Nat.le_refl _
  limit := by decide
  top := by decide

theorem anonymous_fine : (⟨linuxProg, []⟩ : Mapper).Fine (.mmap 0 8192 0x22 (-1) 0) := by
  refine .inr ?_
  intro a ha
  have hnext : a = linuxStart.mmapNext := place_next ha (by decide)
  subst hnext
  exact .inr ⟨by decide, fun hbacked => absurd hbacked.2 (by decide)⟩

theorem mmap_sound_anonymous : (⟨linuxProg, []⟩ : Mapper).Sound (.mmap 0 8192 0x22 (-1) 0) :=
  mmap_sound linuxProg ⟨linuxProg, []⟩ (.mmap 0 8192 0x22 (-1) 0) linuxStart_window .refl anonymous_fine

/--
4 GiB less a byte are mapped as no page at all.
-/
theorem mmap_unsound : ¬(⟨linuxProg, []⟩ : Mapper).Sound (.mmap 0 0xFFFFFFFF 0x22 (-1) 0) := by
  intro hsound
  have hret : ((⟨linuxProg, []⟩ : Mapper).step (.mmap 0 0xFFFFFFFF 0x22 (-1) 0)).1 = 0x2000000 := rfl
  have hplaced := hsound.2
  dsimp only at hplaced
  rw [hret, if_neg (by decide)] at hplaced
  have hinside := (hplaced (by decide)).inside
  revert hinside
  decide

end Run

end TanjaOS
