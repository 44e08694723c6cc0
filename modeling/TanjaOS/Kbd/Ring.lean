import TanjaOS.Lib.Ring
import TanjaOS.Lib.Run

/-!
The ring between the timer, which takes scancodes from the keyboard while a program runs, and
`get_key`, which reads them later.
-/

open Lib

namespace TanjaOS

def kbRing : Nat := 64

/--
`kb_head` and `kb_tail` never leave the ring.
-/
structure KbRing where
  ring : Mem
  head : Fin kbRing
  tail : Fin kbRing

namespace KbRing

def next (i : Fin kbRing) : Fin kbRing :=
  ⟨(i + 1) % kbRing, Nat.mod_lt _ (by decide)⟩

def empty : KbRing where
  ring _ := 0
  head := ⟨0, by decide⟩
  tail := ⟨0, by decide⟩

def count (r : KbRing) : Nat :=
  (r.head + kbRing - r.tail) % kbRing

/--
A full ring drops the newest scancode. The flag says whether it was accepted.
-/
def push (r : KbRing) (sc : Byte) : Bool × KbRing :=
  if r.count < kbRing then
    (true, { r with ring := r.ring.set r.head sc, head := next r.head })
  else
    (false, r)

def pop (r : KbRing) : Option Byte × KbRing :=
  if r.count = 0 then
    (none, r)
  else
    (some (r.ring r.tail), { r with tail := next r.tail })

def stored (r : KbRing) : Bytes :=
  ringBytes kbRing r.ring r.tail r.count

end KbRing

inductive KbOp where
  | push (sc : Byte)
  | pop

/--
A ring with what happened to it: the pushes that it accepted, the bytes that were popped, and for each
push that it refused how many unread bytes there were.
-/
structure KbLog where
  ring : KbRing
  accepted : Bytes
  popped : Bytes
  refused : List Nat

namespace KbLog

def boot : KbLog where
  ring := .empty
  accepted := []
  popped := []
  refused := []

def unread (s : KbLog) : Nat :=
  s.accepted.length - s.popped.length

def step (s : KbLog) : KbOp → KbLog
  | .push sc =>
    match s.ring.push sc with
    | (true, ring) => { s with ring, accepted := s.accepted ++ [sc] }
    | (false, ring) => { s with ring, refused := s.refused ++ [s.unread] }
  | .pop =>
    match s.ring.pop with
    | (some sc, ring) => { s with ring, popped := s.popped ++ [sc] }
    | (none, ring) => { s with ring }

def run (ops : List KbOp) : KbLog :=
  ops.foldl step boot

/--
A bounded queue: what was accepted is popped in order, what is not popped yet is stored, and only a full
ring refuses.
-/
structure Fifo (s : KbLog) : Prop where
  order : s.popped ++ s.ring.stored = s.accepted
  full : ∀ n ∈ s.refused, n = kbRing

/--
The last place of the ring stays free.
-/
def Spare (s : KbLog) : KbOp → Prop
  | .push _ => s.unread < kbRing - 1
  | .pop => True

end KbLog

namespace KbRing

variable {r : KbRing}

theorem count_lt (r : KbRing) : r.count < kbRing :=
  Nat.mod_lt _ (by decide)

theorem push_eq (r : KbRing) (sc : Byte)
    : r.push sc = (true, { r with ring := r.ring.set r.head sc, head := next r.head }) := by
  unfold push
  rw [if_pos r.count_lt]

theorem head_eq (r : KbRing) : r.head.val = (r.tail.val + r.count) % kbRing := by
  have hhead := r.head.isLt
  have htail := r.tail.isLt
  unfold count kbRing at *
  omega

theorem count_push {sc : Byte} : (r.push sc).2.count = (r.count + 1) % kbRing := by
  have hhead := r.head.isLt
  have htail := r.tail.isLt
  rw [push_eq]
  unfold count next
  dsimp only
  unfold kbRing at *
  omega

theorem stored_push {sc : Byte} (h : r.count + 1 < kbRing) : (r.push sc).2.stored = r.stored ++ [sc] := by
  have hcount : (r.push sc).2.count = (r.count + 1) % kbRing := count_push
  rw [Nat.mod_eq_of_lt h] at hcount
  unfold stored
  rw [hcount, push_eq]
  dsimp only
  rw [head_eq]
  exact ringBytes_put _ _ _ (by omega)

theorem stored_push_full {sc : Byte} (h : r.count + 1 = kbRing) : (r.push sc).2.stored = [] := by
  have hcount : (r.push sc).2.count = (r.count + 1) % kbRing := count_push
  rw [h, Nat.mod_self] at hcount
  unfold stored
  rw [hcount, ringBytes_zero]

theorem length_stored (r : KbRing) : r.stored.length = r.count :=
  length_ringBytes

theorem pop_nil (h : r.stored = []) : r.pop = (none, r) := by
  have hcount : r.count = 0 := by
    rw [← r.length_stored, h]
    rfl
  unfold pop
  rw [if_pos hcount]

theorem pop_cons {sc : Byte} {rest : Bytes} (h : r.stored = sc :: rest)
    : r.pop = (some sc, { r with tail := next r.tail }) ∧ { r with tail := next r.tail }.stored = rest := by
  have hlen := r.length_stored
  rw [h, List.length_cons] at hlen
  have hcount : { r with tail := next r.tail }.count = rest.length := by
    have hhead := r.head.isLt
    have htail := r.tail.isLt
    unfold count at hlen ⊢
    unfold next
    dsimp only
    unfold kbRing at *
    omega
  unfold stored at h
  rw [← hlen, ringBytes_take r.tail.isLt] at h
  obtain ⟨hsc, hrest⟩ := List.cons.inj h
  constructor
  . unfold pop
    rw [if_neg (by omega), hsc]
  . unfold stored
    rw [hcount]
    exact hrest

end KbRing

namespace KbLog

variable {s : KbLog}

theorem Fifo.unread_eq (h : s.Fifo) : s.unread = s.ring.count := by
  unfold unread
  rw [← h.order, List.length_append, s.ring.length_stored]
  omega

theorem fifo_boot : boot.Fifo where
  order := rfl
  full := by simp [boot]

theorem Fifo.step_iff (h : s.Fifo) (op : KbOp) : (s.step op).Fifo ↔ s.Spare op := by
  cases op with
  | push sc =>
    have hcount := s.ring.count_lt
    have hstep : s.step (.push sc) = { s with ring := (s.ring.push sc).2, accepted := s.accepted ++ [sc] } := by
      unfold step
      dsimp only
      rw [KbRing.push_eq]
    rw [hstep]
    unfold Spare
    rw [h.unread_eq]
    constructor
    . intro h'
      by_contra hfull
      have horder := h'.order
      dsimp only at horder
      rw [KbRing.stored_push_full (by omega), List.append_nil] at horder
      have hlen := congrArg List.length horder
      rw [List.length_append, ← h.order, List.length_append] at hlen
      simp at hlen
      omega
    . intro hspare
      refine ⟨?_, h.full⟩
      dsimp only
      rw [KbRing.stored_push (by omega), ← List.append_assoc, h.order]
  | pop =>
    refine ⟨fun _ => trivial, fun _ => ?_⟩
    cases hstored : s.ring.stored with
    | nil =>
      unfold step
      dsimp only
      rw [KbRing.pop_nil hstored]
      exact h
    | cons sc rest =>
      obtain ⟨hpop, hrest⟩ := KbRing.pop_cons hstored
      unfold step
      dsimp only
      rw [hpop]
      refine ⟨?_, h.full⟩
      dsimp only
      rw [hrest, ← h.order, hstored]
      simp

end KbLog

/--
The ring is a queue in all states of a run just if no byte is pushed while all places but one are in use.
-/
theorem kb_fifo_iff (ops : List KbOp)
    : (∀ k, (KbLog.run (ops.take k)).Fifo)
      ↔ ∀ k op, ops[k]? = some op → (KbLog.run (ops.take k)).Spare op := by
  have hstep : ∀ k op, ops[k]? = some op →
      KbLog.run (ops.take (k + 1)) = (KbLog.run (ops.take k)).step op := by
    intro k op hop
    rw [List.take_add_one, hop]
    unfold KbLog.run
    rw [List.foldl_append]
    rfl
  constructor
  . intro h k op hop
    have hnext := h (k + 1)
    rw [hstep k op hop, (h k).step_iff] at hnext
    exact hnext
  . intro h k
    induction k with
    | zero => exact KbLog.fifo_boot
    | succ k ih =>
      cases hop : ops[k]? with
      | none =>
        rw [List.take_add_one, hop, Option.toList_none, List.append_nil]
        exact ih
      | some op =>
        rw [hstep k op hop, ih.step_iff]
        exact h k op hop

/--
After 64 bytes the ring is empty again.
-/
theorem kb_not_fifo : ¬∀ ops, (KbLog.run ops).Fifo := by
  intro h
  have horder := (h (List.replicate 64 (.push 30))).order
  have hlen := congrArg List.length horder
  revert hlen
  decide +kernel

end TanjaOS
