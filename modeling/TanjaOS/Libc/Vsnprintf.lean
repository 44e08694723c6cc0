import TanjaOS.Libc.Fmt

/-!
`vprintf` and `vsnprintf`: the same engine with the console and with a string behind it.
-/

open Lib

namespace TanjaOS

/--
`struct strctx`, with the memory that `b` points into.
-/
structure StrCtx where
  mem : Mem
  b : Nat
  n : Int32
  cap : Int32

def strEmit (k : StrCtx) (c : Byte) : StrCtx :=
  if k.n + 1 < k.cap then
    { k with mem := k.mem.writeBytes (k.b + k.n.toInt.toNat) [c], n := k.n + 1 }
  else
    { k with n := k.n + 1 }

def consoleEmit (out : Bytes) (c : Byte) : Bytes :=
  out ++ [c]

/--
What `vprintf` puts on the console, and what it returns.
-/
def vprintf (fmtDouble : FmtDouble) (fmt : Bytes) (ap : List Arg) : Checked (Bytes × Int32) := do
  let (s, _) ← fmtCore consoleEmit fmtDouble ⟨[], 0⟩ fmt ap
  return (s.ctx, s.count)

def vsnprintf (fmtDouble : FmtDouble) (mem : Mem) (str : Nat) (size : UInt32) (fmt : Bytes)
    (ap : List Arg) : Checked (Mem × Int32) := do
  let k : StrCtx := { mem, b := str, n := 0, cap := if size > 0 then size.toInt32 else 0 }
  let (s, _) ← fmtCore strEmit fmtDouble ⟨k, 0⟩ fmt ap
  let k := s.ctx
  if size > 0 then
    let e := if k.n < size.toInt32 - 1 then k.n else size.toInt32 - 1
    return (k.mem.writeBytes (str + e.toInt.toNat) [0], k.n)
  else
    return (k.mem, k.n)

section StrEmit

theorem Int32.toInt_small {n : Nat} (h : n < 2 ^ 31) : (Int32.ofNat n).toInt = n :=
  Int32.toInt_ofNat_of_lt h

theorem Int32.ofNat_succ (n : Nat) : Int32.ofNat n + 1 = Int32.ofNat (n + 1) := by
  rw [Int32.ofNat_add]
  rfl

theorem Int32.ofNat_lt_iff {m n : Nat} (hm : m < 2 ^ 31) (hn : n < 2 ^ 31)
    : Int32.ofNat m < Int32.ofNat n ↔ m < n := by
  rw [Int32.lt_iff_toInt_lt, Int32.toInt_small hm, Int32.toInt_small hn]
  omega

theorem foldl_strEmit (mem : Mem) (b cap : Nat) (hcap : 0 < cap ∧ cap < 2 ^ 31) {out : Bytes}
    (hout : out.length < 2 ^ 31)
    : out.foldl strEmit ⟨mem, b, 0, .ofNat cap⟩
      = ⟨mem.writeBytes b (out.take (cap - 1)), b, .ofNat out.length, .ofNat cap⟩ := by
  induction out using List.reverseRecOn with
  | nil => simp
  | append_singleton out c ih =>
    rw [List.length_append, List.length_singleton] at hout
    rw [List.foldl_append, ih (by omega), List.foldl_cons, List.foldl_nil, List.length_append,
      List.length_singleton]
    unfold strEmit
    simp only [Int32.ofNat_succ]
    by_cases hfit : out.length + 1 < cap
    . rw [if_pos ((Int32.ofNat_lt_iff hout hcap.2).2 hfit), Int32.toInt_small (by omega),
        Int.toNat_natCast, List.take_of_length_le (by omega), List.take_of_length_le (by simp; omega),
        Mem.writeBytes_append]
    . rw [if_neg (fun h => hfit ((Int32.ofNat_lt_iff hout hcap.2).1 h)),
        List.take_append_of_le_length (by omega)]

end StrEmit

theorem strEmit_consoleEmit (k : StrCtx) (a : StrCtx) (out : Bytes) (c : Byte)
    (h : a = out.foldl strEmit k)
    : strEmit a c = (consoleEmit out c).foldl strEmit k := by
  unfold consoleEmit
  rw [List.foldl_append, ← h]
  rfl

section Vsnprintf

variable {fmtDouble : FmtDouble} {fmt : Bytes} {ap : List Arg} {size : UInt32}

theorem cap_eq (hsize : 1 ≤ size.toNat ∧ size.toNat ≤ 0x7FFFFFFF)
    : size > 0 ∧ size.toInt32 = .ofNat size.toNat := by
  constructor
  . rw [gt_iff_lt, UInt32.lt_iff_toNat_lt]
    exact hsize.1
  . apply Int32.toBitVec_inj.1
    apply BitVec.eq_of_toNat_eq
    simp

theorem fmtCore_strEmit (k : StrCtx)
    : RunRel (fun k' out => k' = out.foldl strEmit k) (fmtCore strEmit fmtDouble ⟨k, 0⟩ fmt ap)
        (fmtCore consoleEmit fmtDouble ⟨[], 0⟩ fmt ap) :=
  fmtCore_related (fun a out c h => strEmit_consoleEmit k a out c h) ⟨rfl, rfl⟩ fmt ap

theorem vsnprintf_of_console {t : FmtSink Bytes} {stored : List Int32} {mem : Mem} {str : Nat}
    (hsize : 1 ≤ size.toNat ∧ size.toNat ≤ 0x7FFFFFFF)
    (hrun : fmtCore consoleEmit fmtDouble ⟨[], 0⟩ fmt ap = .ok (t, stored))
    (hlen : t.ctx.length < 2 ^ 31)
    : vsnprintf fmtDouble mem str size fmt ap
      = .ok (mem.writeBytes str (t.ctx.take (size.toNat - 1) ++ [0]), .ofNat t.ctx.length) := by
  obtain ⟨hpos, hcap⟩ := cap_eq hsize
  have hrel := @fmtCore_strEmit fmtDouble fmt ap ⟨mem, str, 0, .ofNat size.toNat⟩
  rw [hrun] at hrel
  unfold vsnprintf
  rw [if_pos hpos, hcap]
  dsimp only
  generalize fmtCore strEmit fmtDouble _ fmt ap = x at hrel
  match x, hrel with
  | .ok (s, _), hrel =>
    obtain ⟨⟨hctx, -⟩, rfl⟩ := hrel
    have hs := hctx.trans (foldl_strEmit mem str size.toNat (by omega) hlen)
    have hend : (if Int32.ofNat t.ctx.length < .ofNat size.toNat - 1 then
        Int32.ofNat t.ctx.length else .ofNat size.toNat - 1).toInt.toNat
        = (t.ctx.take (size.toNat - 1)).length := by
      have hone : Int32.ofNat size.toNat - 1 = .ofNat (size.toNat - 1) := by
        have := Int32.add_sub_cancel (Int32.ofNat (size.toNat - 1)) 1
        rwa [Int32.ofNat_succ, Nat.sub_add_cancel hsize.1] at this
      rw [hone, List.length_take]
      split
      . next h =>
        have := (Int32.ofNat_lt_iff hlen (by omega)).1 h
        rw [Int32.toInt_small hlen]
        omega
      . next h =>
        have := (Int32.ofNat_lt_iff hlen (by omega)).not.1 h
        rw [Int32.toInt_small (by omega)]
        omega
    show (if size > 0 then
        Except.ok (s.ctx.mem.writeBytes (str + (if s.ctx.n < .ofNat size.toNat - 1 then s.ctx.n
          else .ofNat size.toNat - 1).toInt.toNat) [0], s.ctx.n)
      else Except.ok (s.ctx.mem, s.ctx.n)) = _
    rw [if_pos hpos, hs, Mem.writeBytes_append]
    dsimp only
    rw [hend]

theorem vsnprintf_of_console_error {e : Fault} {mem : Mem} {str : Nat}
    (hrun : fmtCore consoleEmit fmtDouble ⟨[], 0⟩ fmt ap = .error e)
    : vsnprintf fmtDouble mem str size fmt ap = .error e := by
  have hrel := @fmtCore_strEmit fmtDouble fmt ap
    ⟨mem, str, 0, if size > 0 then size.toInt32 else 0⟩
  rw [hrun] at hrel
  unfold vsnprintf
  dsimp only
  generalize fmtCore strEmit fmtDouble _ fmt ap = x at hrel ⊢
  match x, hrel with
  | .error e', hrel =>
    obtain rfl : e' = e := hrel
    rfl

/--
Whatever `vprintf` prints, `vsnprintf` stores as much of it as fits, ends it and returns its length.
Where the one call goes wrong so does the other.
-/
theorem vsnprintf_eq_vprintf (fmtDouble : FmtDouble) (fmt : Bytes) (ap : List Arg) (mem : Mem)
    (str : Nat) (size : UInt32) (hsize : 1 ≤ size.toNat ∧ size.toNat ≤ 0x7FFFFFFF)
    : (∀ out r, vprintf fmtDouble fmt ap = .ok (out, r) → out.length < 2 ^ 31 →
        vsnprintf fmtDouble mem str size fmt ap
          = .ok (mem.writeBytes str (out.take (size.toNat - 1) ++ [0]), .ofNat out.length))
      ∧ ∀ e, vprintf fmtDouble fmt ap = .error e →
        vsnprintf fmtDouble mem str size fmt ap = .error e := by
  unfold vprintf
  cases hrun : fmtCore consoleEmit fmtDouble ⟨[], 0⟩ fmt ap with
  | error e =>
    constructor
    . intro out r h
      cases h
    . intro e' h
      cases h
      exact vsnprintf_of_console_error hrun
  | ok r =>
    obtain ⟨t, stored⟩ := r
    constructor
    . intro out r h hlen
      cases h
      exact vsnprintf_of_console hsize hrun hlen
    . intro e h
      cases h

/--
`ab` into a string of two bytes.
-/
theorem vsnprintf_eq_vprintf_cut
    : vsnprintf (fun _ _ _ _ => []) (fun _ => 0) 16 2 [97, 98, 0] []
      = .ok (Mem.writeBytes (fun _ => 0) 16 [97, 0], 2) :=
  (vsnprintf_eq_vprintf (fun _ _ _ _ => []) [97, 98, 0] [] (fun _ => 0) 16 2 (by decide)).1
    [97, 98] 2 rfl (by decide)

end Vsnprintf

end TanjaOS
