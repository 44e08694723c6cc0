import TanjaOS.Lib.Run
import TanjaOS.Net.Tcp.Conn

/-!
What `tcp_recv` returns is the stream of the peer, for any order, loss, duplication and
re-segmentation of what arrives.
-/

open Lib

namespace TanjaOS

namespace Tc

variable {t : Tc}

theorem ringPut_spec {k : Nat} (bs : Bytes) (hhead : t.rhead = (t.rtail + k) % tRing)
    (hroom : k + bs.length ≤ tRing)
    : ringBytes tRing (t.ringPut bs).ring t.rtail (k + bs.length)
        = ringBytes tRing t.ring t.rtail k ++ bs
      ∧ (t.ringPut bs).rhead = (t.rtail + (k + bs.length)) % tRing := by
  induction bs generalizing t k with
  | nil =>
    rw [Tc.ringPut_nil]
    simp [hhead]
  | cons x bs ih =>
    rw [List.length_cons] at hroom ⊢
    have hstep := @ih { t with ring := t.ring.set t.rhead x, rhead := (t.rhead + 1) % tRing } (k + 1)
      (by simp only [hhead, Nat.mod_add_mod]; congr 1) (by omega)
    rw [Tc.ringPut_cons]
    constructor
    . have hput := ringBytes_put t.ring t.rtail x (show k < tRing by omega)
      rw [← hhead] at hput
      calc
        _ = ringBytes tRing (t.ring.set t.rhead x) t.rtail (k + 1) ++ bs := by
          rw [← hstep.1]
          congr 1
          omega
        _ = _ := by
          rw [hput]
          simp
    . rw [hstep.2]
      congr 2
      omega

theorem RingOk.accept (h : t.RingOk) {bs : Bytes} (hroom : bs.length ≤ t.room)
    : (t.accept bs).RingOk ∧ (t.accept bs).queued = t.queued ++ bs := by
  have hcount := h.count
  unfold Tc.room at hroom
  have hput := ringPut_spec bs h.head (by omega)
  have htail : (t.ringPut bs).rtail = t.rtail := by rw [Tc.ringPut_eq]
  constructor
  . constructor
    . simp only [Tc.accept, htail]
      exact h.tail
    . simp only [Tc.accept]
      omega
    . simp only [Tc.accept, htail]
      exact hput.2
  . simp only [Tc.queued, Tc.accept, htail]
    exact hput.1

@[simp]
theorem length_queued : t.queued.length = t.rcount := by
  simp [Tc.queued]

theorem RingOk.drain (h : t.RingOk) (cap : Nat)
    : ∃ tail count buf, ringDrain cap t = (buf, { t with rtail := tail, rcount := count })
      ∧ { t with rtail := tail, rcount := count }.RingOk
      ∧ buf ++ { t with rtail := tail, rcount := count }.queued = t.queued
      ∧ buf.length = min cap t.rcount := by
  induction cap generalizing t with
  | zero => exact ⟨t.rtail, t.rcount, [], rfl, h, rfl, by simp⟩
  | succ cap ih =>
    have hcount := h.count
    by_cases h0 : t.rcount = 0
    . refine ⟨t.rtail, t.rcount, [], ?_, h, rfl, ?_⟩
      . unfold ringDrain
        rw [if_pos h0]
      . simp [h0]
    . obtain ⟨n, hn⟩ := Nat.exists_eq_succ_of_ne_zero h0
      have hrest : { t with rtail := (t.rtail + 1) % tRing, rcount := t.rcount - 1 }.RingOk := by
        constructor
        . exact Nat.mod_lt _ tRing_pos
        . simp only
          omega
        . simp only [h.head, Nat.mod_add_mod]
          congr 1
          omega
      obtain ⟨tail, count, buf, heq, hok, hq, hlen⟩ := ih hrest
      refine ⟨tail, count, t.ring t.rtail :: buf, ?_, hok, ?_, ?_⟩
      . simp [ringDrain, h0, heq]
      . have htake := ringBytes_take (m := t.ring) (n := n) h.tail
        simp only [Tc.queued, hn, Nat.succ_sub_one] at hq ⊢
        rw [htake, List.cons_append, hq]
      . simp only [List.length_cons, hlen]
        omega

end Tc

def Conn.accepted (s : Conn) : Nat :=
  (Conn.returned s.trace).length + s.tc.rcount

/--
What an arriving segment carries agrees with the stream `w` of the peer: its data are found in `w`
at the position of its sequence number, a FIN stands behind the last byte, and the position is at
most 2^31 away from what is expected next. Nothing is asked of the segment that opens the
connection, nor of one without data and FIN.
-/
def Agrees (w : Bytes) (s : Conn) : ConnEvent → Prop
  | .segment _ p =>
    let g := segAt p 0 p.length
    let next := s.accepted + if s.tc.fin then 1 else 0
    ∀ start, s.peer = some start → g.data ≠ [] ∨ g.flags &&& tFin ≠ 0 →
      ∃ pos, g.seq = seqAt (start + 1) pos ∧ g.data <+: w.drop pos
        ∧ pos + g.data.length ≤ w.length
        ∧ (g.flags &&& tFin ≠ 0 → pos + g.data.length = w.length)
        ∧ next ≤ pos + 2 ^ 31 ∧ pos ≤ next + 2 ^ 31
  | _ => True

/--
What is known about the receiving side of a connection whose peer sends `w`.
-/
structure RecvInv (w : Bytes) (s : Conn) : Prop where
  ring : s.tc.RingOk
  opening : s.peer = none → s.accepted = 0 ∧ s.tc.fin = false
    ∧ (s.tc.state = .synSent ∨ s.tc.state = .closed)
  opened : s.tc.state = .synSent → s.peer = none
  data : Conn.returned s.trace ++ s.tc.queued = w.take s.accepted
  rcvNxt : ∀ start, s.peer = some start →
    s.tc.rcvNxt = seqAt (start + 1) (s.accepted + if s.tc.fin then 1 else 0)
  fin : s.tc.fin = true → s.accepted = w.length
  cap : ∀ cap, s.call = .recv cap → 0 < cap
  eof : ∀ buf, .received 0 buf ∈ s.trace → Conn.returned s.trace = w

variable {w : Bytes} {s s' : Conn}

theorem RecvInv.accepted_le (h : RecvInv w s) : s.accepted ≤ w.length := by
  have := congrArg List.length h.data
  simp only [List.length_append, Tc.length_queued, List.length_take] at this
  unfold Conn.accepted at this ⊢
  omega

/--
The receiving side of a connection is the same after a step, but for what is observed otherwise.
-/
structure SameRecv (s s' : Conn) : Prop where
  ring : s'.tc.ring = s.tc.ring
  rhead : s'.tc.rhead = s.tc.rhead
  rtail : s'.tc.rtail = s.tc.rtail
  rcount : s'.tc.rcount = s.tc.rcount
  rcvNxt : s'.tc.rcvNxt = s.tc.rcvNxt
  fin : s'.tc.fin = s.tc.fin
  state : s'.tc.state = s.tc.state ∨ s'.tc.state = .closed
  peer : s'.peer = s.peer
  trace : ∃ obs, s'.trace = obs ++ s.trace ∧ ∀ o ∈ obs, ∀ ret buf, o ≠ .received ret buf
  cap : ∀ cap, s'.call = .recv cap → 0 < cap

theorem returned_append {obs trace : List Obs} (h : ∀ o ∈ obs, ∀ ret buf, o ≠ .received ret buf)
    : Conn.returned (obs ++ trace) = Conn.returned trace := by
  apply Conn.collect_append
  intro o ho
  cases o with
  | received ret buf => exact absurd rfl (h _ ho ret buf)
  | _ => rfl

theorem RecvInv.congr (h : RecvInv w s) (hs : SameRecv s s') : RecvInv w s' := by
  obtain ⟨obs, htrace, hobs⟩ := hs.trace
  have hret : Conn.returned s'.trace = Conn.returned s.trace := by
    rw [htrace, returned_append hobs]
  have hacc : s'.accepted = s.accepted := by
    unfold Conn.accepted
    rw [hret, hs.rcount]
  have hq : s'.tc.queued = s.tc.queued := by
    unfold Tc.queued
    rw [hs.ring, hs.rtail, hs.rcount]
  constructor
  . constructor
    . rw [hs.rtail]
      exact h.ring.tail
    . rw [hs.rcount]
      exact h.ring.count
    . rw [hs.rhead, hs.rtail, hs.rcount]
      exact h.ring.head
  . intro hp
    rw [hs.peer] at hp
    have := h.opening hp
    rw [hacc, hs.fin]
    refine ⟨this.1, this.2.1, ?_⟩
    cases hs.state with
    | inl hst => rw [hst]; exact this.2.2
    | inr hst => exact .inr hst
  . intro hsyn
    rw [hs.peer]
    apply h.opened
    cases hs.state with
    | inl hst => rwa [← hst]
    | inr hst => rw [hst] at hsyn; cases hsyn
  . rw [hret, hq, hacc]
    exact h.data
  . intro start hp
    rw [hs.peer] at hp
    rw [hs.rcvNxt, hacc, hs.fin]
    exact h.rcvNxt start hp
  . rw [hs.fin, hacc]
    exact h.fin
  . exact hs.cap
  . intro buf hbuf
    rw [htrace, List.mem_append] at hbuf
    rw [hret]
    cases hbuf with
    | inl hbuf => exact absurd rfl (hobs _ hbuf 0 buf)
    | inr hbuf => exact h.eof buf hbuf

/--
The receiving side of an open connection, apart from what has been returned so far.
-/
structure Receiving (w out : Bytes) (start : UInt32) (t : Tc) : Prop where
  ring : t.RingOk
  data : out ++ t.queued = w.take (out.length + t.rcount)
  bound : out.length + t.rcount ≤ w.length
  rcvNxt : t.rcvNxt = seqAt (start + 1) (out.length + t.rcount + if t.fin then 1 else 0)
  fin : t.fin = true → out.length + t.rcount = w.length

section

variable {out : Bytes} {start : UInt32} {t t' : Tc} {g : Seg} {fl : UInt8} {pos : Nat}

theorem Receiving.ack (h : Receiving w out start t) (ack : UInt32) (fl : UInt8)
    : Receiving w out start (tcpInAck t ack fl) := by
  unfold tcpInAck
  split
  . exact ⟨⟨h.ring.tail, h.ring.count, h.ring.head⟩, h.data, h.bound, h.rcvNxt, h.fin⟩
  . exact h

theorem Receiving.accept (h : Receiving w out start t) {bs : Bytes} (hfin : t.fin = false)
    (hroom : bs.length ≤ t.room) (hbs : bs <+: w.drop (out.length + t.rcount))
    : Receiving w out start (t.accept bs) := by
  have hring := h.ring.accept hroom
  have hlen := hbs.length_le
  rw [List.length_drop] at hlen
  have hbound := h.bound
  have hfin' : (t.accept bs).fin = false := by
    rw [← hfin]
    unfold Tc.accept
    rw [Tc.ringPut_eq]
  have hcount : (t.accept bs).rcount = t.rcount + bs.length := rfl
  constructor
  . exact hring.1
  . rw [hring.2, hcount, ← List.append_assoc, h.data, ← Nat.add_assoc,
      List.take_add (i := out.length + t.rcount), ← List.prefix_iff_eq_take.mp hbs]
  . rw [hcount]
    omega
  . have hrcv : (t.accept bs).rcvNxt = t.rcvNxt + .ofNat bs.length := rfl
    rw [hrcv, h.rcvNxt, hfin, hfin', hcount, ← Nat.add_assoc, ← seqAt_add]
    rfl
  . rw [hfin']
    intro h
    cases h

theorem Receiving.dataIn (h : Receiving w out start t) (hin : DataIn t g t' fl)
    (hseq : g.seq = seqAt (start + 1) pos) (hdata : g.data <+: w.drop pos)
    (hend : pos + g.data.length ≤ w.length) (hsize : g.data.length < 2 ^ 16)
    (hlow : out.length + t.rcount + (if t.fin then 1 else 0) ≤ pos + 2 ^ 31)
    (hhigh : pos ≤ out.length + t.rcount + (if t.fin then 1 else 0) + 2 ^ 31)
    : Receiving w out start t' := by
  -- the bytes from `skip` on come next
  have key : ∀ skip, skip < g.data.length → t.rcvNxt = g.seq + .ofNat skip →
      t.fin = false ∧ pos + skip = out.length + t.rcount := by
    intro skip hskip hnext
    rw [h.rcvNxt, hseq, ← seqAt_add, seqAt_inj (by omega) (by omega)] at hnext
    cases hf : t.fin with
    | true =>
      have := h.fin hf
      rw [hf, if_pos rfl] at hnext
      omega
    | false =>
      rw [hf] at hnext
      simp only [Bool.false_eq_true, if_false] at hnext
      exact ⟨rfl, by omega⟩
  have hdrop : ∀ skip, pos + skip = out.length + t.rcount →
      g.data.drop skip <+: w.drop (out.length + t.rcount) := by
    intro skip heq
    rw [← heq, ← List.drop_drop]
    exact hdata.drop skip
  cases hin with
  | none _ => exact h
  | late _ => exact h
  | cut skip hskip hnext hroom =>
    have := key skip hskip hnext
    apply h.accept this.1
    . simp
    . exact (List.take_prefix _ _).trans (hdrop skip this.2)
  | whole skip hskip hnext hroom =>
    have := key skip hskip hnext
    apply h.accept this.1
    . simpa using hroom
    . exact hdrop skip this.2

theorem Receiving.finIn (h : Receiving w out start t) {seq : UInt32} {size : Nat}
    (hseq : seq = seqAt (start + 1) pos) (hend : fl &&& tFin ≠ 0 → pos + size = w.length)
    (hhigh : pos ≤ out.length + t.rcount + 2 ^ 31 + 1) (hsize : size < 2 ^ 16)
    : Receiving w out start (tcpInFin t size seq fl).1 := by
  unfold tcpInFin
  split
  . next hfin =>
    have hend := hend hfin.1
    have hbound := h.bound
    have hnext := hfin.2
    rw [hseq, h.rcvNxt, ← seqAt_add] at hnext
    rw [seqAt_inj (by split <;> omega) (by split <;> omega)] at hnext
    have hnot : t.fin = false := by
      cases hf : t.fin with
      | false => rfl
      | true =>
        have := h.fin hf
        rw [hf, if_pos rfl] at hnext
        omega
    rw [hnot] at hnext
    simp only [Bool.false_eq_true, if_false] at hnext
    constructor
    . exact ⟨h.ring.tail, h.ring.count, h.ring.head⟩
    . exact h.data
    . exact h.bound
    . simp only [if_true]
      rw [h.rcvNxt, hnot, seqAt_succ]
      rfl
    . intro _
      simp only
      omega
  . exact h

theorem Receiving.segment (h : Receiving w out start t)
    (hin : DataIn (tcpInAck t g.ack g.flags) g t' fl)
    (hagree : g.data ≠ [] ∨ g.flags &&& tFin ≠ 0 →
      ∃ pos, g.seq = seqAt (start + 1) pos ∧ g.data <+: w.drop pos
        ∧ pos + g.data.length ≤ w.length
        ∧ (g.flags &&& tFin ≠ 0 → pos + g.data.length = w.length)
        ∧ out.length + t.rcount + (if t.fin then 1 else 0) ≤ pos + 2 ^ 31
        ∧ pos ≤ out.length + t.rcount + (if t.fin then 1 else 0) + 2 ^ 31)
    (hsize : g.data.length < 2 ^ 16)
    : Receiving w out start (tcpInFin t' g.data.length g.seq fl).1 := by
  by_cases hsome : g.data ≠ [] ∨ g.flags &&& tFin ≠ 0
  . obtain ⟨pos, hseq, hdata, hend, hfin, hlow, hhigh⟩ := hagree hsome
    have hack := h.ack g.ack g.flags
    have ht' := hack.dataIn hin hseq hdata hend hsize (by simpa using hlow) (by simpa using hhigh)
    have hcount := hin.rcount_le
    rw [tcpInAck_rcount] at hcount
    apply ht'.finIn hseq
    . intro hfl
      exact hfin (hin.fin hfl)
    . split at hhigh <;> omega
    . exact hsize
  . -- neither data nor FIN
    rw [not_or, not_ne_iff] at hsome
    have ht' : t' = tcpInAck t g.ack g.flags := by
      cases hin with
      | none _ => rfl
      | late _ => rfl
      | cut _ hskip _ _ => simp [hsome.1] at hskip
      | whole _ hskip _ _ => simp [hsome.1] at hskip
    have hnot : ¬(fl &&& tFin ≠ 0 ∧ g.seq + .ofNat g.data.length = t'.rcvNxt) := by
      intro hfl
      exact hsome.2 (hin.fin hfl.1)
    unfold tcpInFin
    rw [if_neg hnot, ht']
    exact h.ack g.ack g.flags

end

theorem length_data_lt {p : Bytes} (h : p.length < 65536) : (segAt p 0 p.length).data.length < 2 ^ 16 := by
  simp only [segAt, List.length_take, List.length_drop]
  omega

theorem RecvInv.receiving (h : RecvInv w s) {start : UInt32} (hpeer : s.peer = some start)
    : Receiving w (Conn.returned s.trace) start s.tc where
  ring := h.ring
  data := h.data
  bound := h.accepted_le
  rcvNxt := h.rcvNxt start hpeer
  fin := h.fin

theorem RecvInv.of_receiving (start : UInt32) (hpeer : s.peer = some start)
    (h : Receiving w (Conn.returned s.trace) start s.tc) (hstate : s.tc.state ≠ .synSent)
    (hcap : ∀ cap, s.call = .recv cap → 0 < cap)
    (heof : ∀ buf, .received 0 buf ∈ s.trace → Conn.returned s.trace = w)
    : RecvInv w s where
  ring := h.ring
  opening hnone := by
    rw [hpeer] at hnone
    cases hnone
  opened hsyn := absurd hsyn hstate
  data := h.data
  rcvNxt start' hpeer' := by
    rw [hpeer] at hpeer'
    cases hpeer'
    exact h.rcvNxt
  fin := h.fin
  cap := hcap
  eof := heof

theorem RecvInv.segment (h : RecvInv w s) {src : UInt32} {p : Bytes}
    (hok : Agrees w s (.segment src p)) (hs : s.segment src p = some s')
    : RecvInv w s' := by
  obtain ⟨hlen, tc, answer, hin, rfl⟩ := Conn.segment_cases hs h.ring.head_lt
  -- nothing is returned by this step
  have hobs : ∃ obs, (if answer then [s.emission tc.sndNxt []] else []) ++
      .arrived (segAt p 0 p.length) s.stream.length :: s.trace = obs ++ s.trace
      ∧ ∀ o ∈ obs, ∀ ret buf, o ≠ .received ret buf := by
    refine ⟨_, List.append_cons _ _ _, ?_⟩
    intro o ho ret buf heq
    rw [heq] at ho
    split at ho <;> simp [Conn.emission] at ho
  generalize (if answer then [s.emission tc.sndNxt []] else []) ++
    .arrived (segAt p 0 p.length) s.stream.length :: s.trace = trace at hobs ⊢
  have hret : Conn.returned trace = Conn.returned s.trace := by
    obtain ⟨obs, rfl, hobs⟩ := hobs
    exact returned_append hobs
  have heof : ∀ buf, .received 0 buf ∈ trace → Conn.returned trace = w := by
    intro buf hbuf
    rw [hret]
    obtain ⟨obs, rfl, hobs⟩ := hobs
    rw [List.mem_append] at hbuf
    cases hbuf with
    | inl hbuf => exact absurd rfl (hobs _ hbuf 0 buf)
    | inr hbuf => exact h.eof buf hbuf
  cases hin with
  | ignored =>
    apply h.congr
    refine ⟨rfl, rfl, rfl, rfl, rfl, rfl, .inl rfl, ?_, hobs, h.cap⟩
    simp only
    rw [if_neg]
    intro hst
    rw [hst.1] at hst
    cases hst.2
  | reset =>
    apply h.congr
    refine ⟨rfl, rfl, rfl, rfl, rfl, rfl, .inr rfl, ?_, hobs, h.cap⟩
    simp
  | opened mss hstate hack =>
    have hopening := h.opening (h.opened hstate)
    apply RecvInv.of_receiving (segAt p 0 p.length).seq
    . simp [hstate]
    . have hacc := hopening.1
      unfold Conn.accepted at hacc
      have hnil : Conn.returned s.trace = [] := List.eq_nil_of_length_eq_zero (by omega)
      have hcount : s.tc.rcount = 0 := by omega
      simp only [hret, hnil]
      constructor
      . exact ⟨h.ring.tail, h.ring.count, h.ring.head⟩
      . simp [Tc.queued, hcount]
      . simp [hcount]
      . simp [hcount, hopening.2.1]
      . intro hfin
        simp only at hfin
        rw [hopening.2.1] at hfin
        cases hfin
    . simp
    . exact h.cap
    . exact heof
  | @taken t' fl hstate hdata =>
    have hopen : s.tc.state ≠ .synSent ∧ s.tc.state ≠ .closed := by
      cases hstate with
      | inl hst => simp [hst]
      | inr hst => simp [hst]
    obtain ⟨start, hpeer⟩ : ∃ start, s.peer = some start := by
      rw [← Option.isSome_iff_exists, Option.isSome_iff_ne_none]
      intro hnone
      have := (h.opening hnone).2.2
      simp [hopen.1, hopen.2] at this
    apply RecvInv.of_receiving start
    . simp [hopen.1, hpeer]
    . simp only [hret]
      exact (h.receiving hpeer).segment hdata (hok start hpeer) (length_data_lt hlen)
    . apply tcpInFin_state_ne
      rw [hdata.state, tcpInAck_state]
      exact hopen.1
    . exact h.cap
    . exact heof

theorem RecvInv.received (h : RecvInv w s) {tail count : Nat} {buf : Bytes} {ret : Int}
    (obs : List Obs) (hring : { s.tc with rtail := tail, rcount := count }.RingOk)
    (hqueued : buf ++ { s.tc with rtail := tail, rcount := count }.queued = s.tc.queued)
    (hobs : ∀ o ∈ obs, ∀ ret buf, o ≠ .received ret buf)
    (hret : ret = 0 → Conn.returned s.trace = w)
    : RecvInv w { s with
        tc := { s.tc with rtail := tail, rcount := count }
        call := .idle
        trace := obs ++ .received ret buf :: s.trace
      } := by
  have hlen := congrArg List.length hqueued
  simp only [List.length_append, Tc.length_queued] at hlen
  have hout : Conn.returned (obs ++ .received ret buf :: s.trace) = Conn.returned s.trace ++ buf :=
    (returned_append hobs).trans (Conn.collect_cons _ _ _)
  have hbound := h.accepted_le
  have hacc : (Conn.returned s.trace ++ buf).length + count = s.accepted := by
    unfold Conn.accepted
    rw [List.length_append]
    omega
  constructor
  . exact hring
  . intro hpeer
    have := h.opening hpeer
    refine ⟨?_, this.2⟩
    unfold Conn.accepted
    rw [hout, hacc]
    exact this.1
  . exact h.opened
  . unfold Conn.accepted
    rw [hout, hacc, List.append_assoc, hqueued]
    exact h.data
  . unfold Conn.accepted
    rw [hout, hacc]
    exact h.rcvNxt
  . unfold Conn.accepted
    rw [hout, hacc]
    exact h.fin
  . intro cap hcap
    cases hcap
  . intro buf' hmem
    simp only at hmem ⊢
    rw [hout]
    -- once all of `w` is out, `buf` is empty
    have hnil : Conn.returned s.trace = w → Conn.returned s.trace ++ buf = w := by
      intro hall
      have hlen' := congrArg List.length hall
      have : buf = [] := by
        apply List.eq_nil_of_length_eq_zero
        rw [← hacc, List.length_append] at hbound
        omega
      rw [this, List.append_nil]
      exact hall
    apply hnil
    rw [List.mem_append, List.mem_cons] at hmem
    rcases hmem with hmem | hmem | hmem
    . exact absurd rfl (hobs _ hmem 0 buf')
    . injection hmem with hzero
      exact hret hzero.symm
    . exact h.eof buf' hmem

theorem RecvInv.recvPoll (h : RecvInv w s) {cap : Nat} (hcap : 0 < cap)
    : RecvInv w (s.recvPoll cap) := by
  unfold Conn.recvPoll
  split
  . next hcount =>
    obtain ⟨tail, count, buf, heq, hring, hqueued, hlen⟩ := h.ring.drain cap
    rw [heq]
    apply h.received _ hring hqueued
    . intro o ho ret buf heq
      rw [heq] at ho
      split at ho <;> simp [Conn.emission] at ho
    . intro hret
      omega
  . next hcount =>
    have hzero : s.tc.rcount = 0 := not_not.mp hcount
    have hqueued : s.tc.queued = [] := List.eq_nil_of_length_eq_zero (by simp [hzero])
    split
    . next hfin =>
      apply h.received [] h.ring rfl (by simp)
      -- the FIN is in, and nothing is left in the ring
      intro _
      have hall := h.data
      rw [hqueued, h.fin hfin] at hall
      simpa using hall
    . split
      . exact h.received [] h.ring rfl (by simp) (fun h => absurd h (by decide))
      . exact h

theorem RecvInv.other (h : RecvInv w s) {nxt : UInt32} {call : Call} {stream : Bytes}
    (obs : List Obs) {state : TcpState} (hobs : ∀ o ∈ obs, ∀ ret buf, o ≠ .received ret buf)
    (hstate : state = s.tc.state ∨ state = .closed) (hcall : ∀ cap, call ≠ .recv cap)
    : RecvInv w { s with
        tc := { s.tc with sndNxt := nxt, state }
        call, stream
        trace := obs ++ s.trace
      } := by
  apply h.congr
  exact ⟨rfl, rfl, rfl, rfl, rfl, rfl, hstate, rfl, ⟨obs, rfl, hobs⟩,
    fun cap hcap => absurd hcap (hcall cap)⟩

theorem RecvInv.sendFail (h : RecvInv w s) (arg : Bytes) : RecvInv w (s.sendFail arg) := by
  apply h.other [.sent arg (-1)]
  . simp
  . exact .inl rfl
  . simp

theorem RecvInv.sendLoop (h : RecvInv w s) (arg data : Bytes) : RecvInv w (s.sendLoop arg data) := by
  unfold Conn.sendLoop
  split
  . apply h.other [.sent arg 0]
    . simp
    . exact .inl rfl
    . simp
  . apply h.other []
    . simp
    . exact .inl rfl
    . simp

theorem RecvInv.tx (h : RecvInv w s) {ok : Bool} (hs : s.tx ok = some s') : RecvInv w s' := by
  unfold Conn.tx at hs
  split at hs
  . split at hs
    . cases hs
      exact h.other [] (by simp) (.inl rfl) (by simp)
    . cases hs
      exact h.other [] (by simp) (.inr rfl) (by simp)
  . next arg data n seq tries _ =>
    have hemit : ∀ call, (∀ cap, call ≠ .recv cap) →
        RecvInv w { s with call, trace := s.emission seq (data.take n) :: s.trace } := by
      intro call hcall
      exact h.other [s.emission seq (data.take n)] (by simp [Conn.emission]) (.inl rfl) hcall
    cases hs
    split
    . exact hemit _ (by simp)
    . apply RecvInv.sendFail
      apply hemit s.call
      simp [*]
  . cases hs

theorem RecvInv.poll (h : RecvInv w s) (hs : s.poll = some s') : RecvInv w s' := by
  unfold Conn.poll at hs
  split at hs
  . split at hs
    . cases hs
      exact h.other [] (by simp) (.inl rfl) (by simp)
    . split at hs
      . cases hs
        exact h.other [] (by simp) (.inl rfl) (by simp)
      . cases hs
        exact h
  . split at hs
    . cases hs
      exact h.sendFail _
    . split at hs
      . cases hs
        exact h.sendLoop _ _
      . cases hs
        exact h
  . next cap hcall =>
    cases hs
    exact h.recvPoll (h.cap cap hcall)
  . split at hs
    . cases hs
      exact h.other [] (by simp) (.inr rfl) (by simp)
    . cases hs
      exact h
  . cases hs

theorem RecvInv.timeout (h : RecvInv w s) (hs : s.timeout = some s') : RecvInv w s' := by
  unfold Conn.timeout at hs
  split at hs
  . split at hs
    . cases hs
      exact h.other [] (by simp) (.inl rfl) (by simp)
    . cases hs
      exact h.other [] (by simp) (.inr rfl) (by simp)
  . split at hs
    . cases hs
      exact h.other [] (by simp) (.inl rfl) (by simp)
    . cases hs
      exact h.sendFail _
  . cases hs
    exact h.received [] h.ring rfl (by simp) (fun h => absurd h (by decide))
  . cases hs
    exact h.other [] (by simp) (.inr rfl) (by simp)
  . cases hs

theorem RecvInv.step {e : ConnEvent} (h : RecvInv w s) (hok : Agrees w s e) (hs : Conn.Step e s s')
    : RecvInv w s' := by
  cases e with
  | segment src p => exact h.segment hok hs
  | tx ok => exact h.tx hs
  | poll => exact h.poll hs
  | timeout => exact h.timeout hs
  | send data =>
    simp only [Conn.Step, Conn.next] at hs
    split at hs
    . split at hs
      . cases hs
      . cases hs
        exact h.sendLoop data data
    . cases hs
  | recv cap =>
    simp only [Conn.Step, Conn.next] at hs
    split at hs
    . split at hs
      . next hcap =>
        cases hs
        apply h.congr
        refine ⟨rfl, rfl, rfl, rfl, rfl, rfl, .inl rfl, rfl, ⟨[], rfl, by simp⟩, ?_⟩
        intro cap' hcap'
        cases hcap'
        exact hcap
      . cases hs
    . cases hs
  | close =>
    simp only [Conn.Step, Conn.next] at hs
    split at hs
    . cases hs
      unfold Conn.close
      split
      . exact h.other [s.emission s.tc.sndNxt []] (by simp [Conn.emission]) (.inl rfl) (by simp)
      . exact h.other [] (by simp) (.inr rfl) (by simp)
    . cases hs

theorem RecvInv.start (w : Bytes) (rip : UInt32) (rport lport : UInt16) (iss : UInt32)
    : RecvInv w (Conn.start rip rport lport iss) where
  ring := ⟨tRing_pos, Nat.zero_le _, rfl⟩
  opening _ := ⟨rfl, rfl, .inl rfl⟩
  opened _ := rfl
  data := rfl
  rcvNxt _ h := by cases h
  fin h := by cases h
  cap _ h := by cases h
  eof _ h := by cases h

/--
However the stream `w` of the peer arrives: what `tcp_recv` has returned and what waits in the ring
are the first bytes of `w`, `rcv_nxt` counts them, and 0 is returned only after all of `w`.
-/
theorem received_stream {rip : UInt32} {rport lport : UInt16} {iss : UInt32}
    (h : Run Conn.Step (Agrees w) (Conn.start rip rport lport iss) s)
    : Conn.returned s.trace <+: w
      ∧ Conn.returned s.trace ++ s.tc.queued <+: w
      ∧ (∀ start, s.peer = some start →
          s.tc.rcvNxt = start + 1 + .ofNat s.accepted + if s.tc.fin then 1 else 0)
      ∧ s.tc.rcount ≤ 1024 * 1024
      ∧ (∀ buf, .received 0 buf ∈ s.trace → Conn.returned s.trace = w) := by
  have hinv := h.keeps (fun _ _ _ hok hinv hs => hinv.step hok hs)
    (RecvInv.start w rip rport lport iss)
  have hpre : Conn.returned s.trace ++ s.tc.queued <+: w := by
    rw [hinv.data]
    exact List.take_prefix _ _
  refine ⟨(List.prefix_append _ _).trans hpre, hpre, ?_, hinv.ring.count, hinv.eof⟩
  intro start hpeer
  rw [hinv.rcvNxt start hpeer]
  split
  . exact seqAt_succ
  . simp [seqAt]

def headerTo (seq ack fl : Byte) : Bytes :=
  [0, 80, 195, 80, 0, 0, 0, seq, 0, 0, 0, ack, 80, fl, 0, 0, 0, 0, 0, 0]

def helloEvents : List ConnEvent :=
  [.tx true, .segment 7 (headerTo 9 101 0x12), .poll,
    .segment 7 (headerTo 10 101 0x11 ++ [104, 105]), .recv 2048, .poll, .recv 2048, .poll]

def helloConn : Conn :=
  helloEvents.foldl (after Conn.next) (Conn.start 7 80 50000 100)

/--
A peer that starts at 9 sends `hi` and a FIN, the second call of `tcp_recv` returns 0.
-/
theorem received_stream_hi
    : .received 0 [] ∈ helloConn.trace ∧ Conn.returned helloConn.trace = [104, 105] := by
  have hmem : Obs.received 0 [] ∈ helloConn.trace := .head _
  have hrun : Run Conn.Step (Agrees [104, 105]) (Conn.start 7 80 50000 100) helloConn := by
    apply Run.of_possible .refl
    refine ⟨rfl, trivial, rfl, ?_, rfl, trivial, rfl, ?_, rfl, trivial, rfl, trivial, rfl, trivial,
      rfl, trivial, trivial⟩
    . intro start hstart
      cases hstart
    . intro start hstart _
      have : start = 9 := (Option.some.inj hstart).symm
      subst this
      exact ⟨0, by decide⟩
  exact ⟨hmem, (received_stream hrun).2.2.2.2 [] hmem⟩

end TanjaOS
