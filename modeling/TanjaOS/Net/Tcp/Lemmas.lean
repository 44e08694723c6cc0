import TanjaOS.Net.Tcp.Impl

/-!
What `tcp_in` makes of a segment: it never faults, and all it can do to a connection is listed in
`TcpIn` and `DataIn`.
-/

open Lib Lib.Checked

namespace TanjaOS

structure Seg where
  seq : UInt32
  ack : UInt32
  flags : UInt8
  data : Bytes

/--
The segment that the `len` bytes at offset `p` hold.
-/
def segAt (b : Bytes) (p len : Nat) : Seg where
  seq := word32 b (p + 4)
  ack := word32 b (p + 8)
  flags := b.getD (p + 13) 0
  data :=
    let hl := (b.getD (p + 12) 0 >>> 4).toNat * 4
    (b.drop (p + hl)).take (len - hl)

namespace Tc

def ringPut (t : Tc) (bs : Bytes) : Tc :=
  bs.foldl (fun t x => { t with ring := t.ring.set t.rhead x, rhead := (t.rhead + 1) % tRing }) t

/--
`bs` is received in order.
-/
def accept (t : Tc) (bs : Bytes) : Tc :=
  { t.ringPut bs with
    rcount := t.rcount + bs.length
    rcvNxt := t.rcvNxt + .ofNat bs.length
  }

def queued (t : Tc) : Bytes :=
  ringBytes tRing t.ring t.rtail t.rcount

structure RingOk (t : Tc) : Prop where
  tail : t.rtail < tRing
  count : t.rcount ≤ tRing
  head : t.rhead = (t.rtail + t.rcount) % tRing

end Tc

/--
What the data of a segment, with the flags `fl`, do to a connection.
-/
inductive DataIn (t : Tc) (s : Seg) : Tc → UInt8 → Prop where
  | none (h : s.data = []) : DataIn t s t s.flags
  | late (h : s.data ≠ []) : DataIn t s t (s.flags &&& ~~~tFin)
  | cut (skip : Nat) (hskip : skip < s.data.length) (hseq : t.rcvNxt = s.seq + .ofNat skip)
      (hroom : t.room < s.data.length - skip)
    : DataIn t s (t.accept ((s.data.drop skip).take t.room)) (s.flags &&& ~~~tFin)
  | whole (skip : Nat) (hskip : skip < s.data.length) (hseq : t.rcvNxt = s.seq + .ofNat skip)
      (hroom : s.data.length - skip ≤ t.room)
    : DataIn t s (t.accept (s.data.drop skip)) s.flags

inductive TcpIn (t : Tc) (s : Seg) : Tc → Bool → Prop where
  | ignored : TcpIn t s t false
  | reset : TcpIn t s { t with rst := true, state := .closed } false
  | opened (mss : UInt16) (hstate : t.state = .synSent) (hack : s.ack = t.sndNxt)
    : TcpIn t s { t with rcvNxt := s.seq + 1, sndUna := s.ack, mss, state := .estab } true
  | taken {t' : Tc} {fl : UInt8} (hstate : t.state = .estab ∨ t.state = .closeWait)
      (h : DataIn (tcpInAck t s.ack s.flags) s t' fl)
    : TcpIn t s (tcpInFin t' s.data.length s.seq fl).1
        (s.data.length ≠ 0 ∨ (tcpInFin t' s.data.length s.seq fl).2)

/--
`tcp_in` answers the segment of `len` bytes at offset `p`: it belongs to the connection, and opens
it, or has data, or a FIN that is in order.
-/
structure TcpAnswers (t : Tc) (src : UInt32) (b : Bytes) (p len : Nat) : Prop where
  long : 20 ≤ len
  isOpen : t.state ≠ .closed
  peer : src = t.rip ∧ word16 b p = t.rport ∧ word16 b (p + 2) = t.lport
  header : 20 ≤ (b.getD (p + 12) 0 >>> 4).toNat * 4 ∧ (b.getD (p + 12) 0 >>> 4).toNat * 4 ≤ len
  noRst : (segAt b p len).flags &&& tRst = 0
  opens : t.state = .synSent →
    (segAt b p len).flags &&& (tSyn ||| tAck) = tSyn ||| tAck ∧ (segAt b p len).ack = t.sndNxt
  carries : t.state ≠ .synSent → (segAt b p len).data ≠ []
    ∨ (segAt b p len).flags &&& tFin ≠ 0 ∧ (segAt b p len).seq = t.rcvNxt

variable {t : Tc} {b : Bytes}

theorem tRing_pos : 0 < tRing := by
  decide

theorem Tc.RingOk.head_lt (h : t.RingOk) : t.rhead < tRing := by
  rw [h.head]
  exact Nat.mod_lt _ tRing_pos

theorem Tc.ringPut_nil : t.ringPut [] = t := rfl

@[simp]
theorem Tc.ringPut_cons (x : Byte) (bs : Bytes)
    : t.ringPut (x :: bs) =
        { t with ring := t.ring.set t.rhead x, rhead := (t.rhead + 1) % tRing }.ringPut bs := rfl

theorem Tc.ringPut_eq (t : Tc) (bs : Bytes)
    : t.ringPut bs = { t with ring := (t.ringPut bs).ring, rhead := (t.ringPut bs).rhead } := by
  induction bs generalizing t with
  | nil => rfl
  | cons x bs ih =>
    rw [Tc.ringPut_cons, ih]

theorem yields_tcpOptions {p hl fuel o : Nat} {mss : UInt16} (hlen : p + hl ≤ b.length)
    (hpos : 0 < fuel) (hfuel : hl < fuel + o)
    : (tcpOptions b p hl fuel o mss).Yields (fun _ => True) := by
  induction fuel generalizing o mss with
  | zero => omega
  | succ fuel ih =>
    unfold tcpOptions
    apply yields_ite
    . intro ho
      apply yields_bind (yields_load8 (by omega))
      intro kind _
      apply yields_ite
      . intro _
        exact yields_pure trivial
      . intro _
        apply yields_ite
        . intro _
          apply ih <;> omega
        . intro _
          apply yields_bind (yields_load8 (by omega))
          intro size _
          apply yields_ite
          . intro _
            exact yields_pure trivial
          . intro hsize
            rw [not_or, UInt8.lt_iff_toNat_lt] at hsize
            have htwo : (2 : UInt8).toNat = 2 := rfl
            apply yields_bind (P := fun _ => True)
            . apply yields_ite
              . intro h
                have hfour : size.toNat = 4 := by rw [h.2]; rfl
                exact (yields_load16 (by omega)).mono (fun _ _ => trivial)
              . intro _
                exact yields_pure trivial
            . intro mss _
              apply ih <;> omega
    . intro _
      exact yields_pure trivial

theorem yields_ringFill {n d : Nat} (hlen : d + n ≤ b.length) (hr : t.rhead < tRing)
    : (ringFill b n d t).Yields (fun t' => t' = t.ringPut ((b.drop d).take n)) := by
  induction n generalizing d t with
  | zero =>
    apply yields_pure
    rw [List.take_zero, Tc.ringPut_nil]
  | succ n ih =>
    unfold ringFill
    apply yields_bind (yields_load8 (by omega))
    intro x hx
    apply yields_bind (yields_store (by omega))
    intro _ _
    have hhead : (t.rhead + 1) % tRing < tRing := Nat.mod_lt _ tRing_pos
    apply (ih (by omega) hhead).mono
    intro t' ht'
    have hcons : b.drop d = x :: b.drop (d + 1) := by
      rw [List.drop_eq_getElem_cons (by omega), hx, List.getD_eq_getElem _ _ (by omega)]
    rw [ht', hcons, List.take_succ_cons, Tc.ringPut_cons]

theorem yields_tcpInData {d size : Nat} {s : Seg} (hlen : d + size ≤ b.length) (hsize : size < 2 ^ 31)
    (hr : t.rhead < tRing) (hdata : s.data = (b.drop d).take size)
    : (tcpInData t b d size s.seq s.flags).Yields (fun r => DataIn t s r.1 r.2) := by
  have hsz : s.data.length = size := by simp [hdata]; omega
  have hof : (UInt32.ofNat size).toNat = size := by
    rw [UInt32.toNat_ofNat']
    omega
  -- what is accepted when the first `skip` bytes are old
  have key : ∀ skip, skip < size → t.rcvNxt = s.seq + .ofNat skip →
      ∀ n, n = min (size - skip) t.room →
      ((do
        let t' ← ringFill b n (d + skip) t
        let fl := if n < size - skip then s.flags &&& ~~~tFin else s.flags
        return ({ t' with rcount := t'.rcount + n, rcvNxt := t'.rcvNxt + .ofNat n }, fl)
        : Checked (Tc × UInt8))).Yields (fun r => DataIn t s r.1 r.2) := by
    intro skip hskip hseq n hn
    apply yields_bind (yields_ringFill (by omega) hr)
    intro t' ht'
    apply yields_pure
    have htake : (b.drop (d + skip)).take n = (s.data.drop skip).take n := by
      rw [hdata, List.drop_take, List.drop_drop, List.take_take]
      congr 1
      omega
    have hl : ((s.data.drop skip).take n).length = n := by simp; omega
    have hacc : { t' with rcount := t'.rcount + n, rcvNxt := t'.rcvNxt + .ofNat n }
        = t.accept ((s.data.drop skip).take n) := by
      rw [ht', htake]
      unfold Tc.accept
      rw [hl, Tc.ringPut_eq]
    rw [hacc]
    by_cases hroom : t.room < size - skip
    . have hnr : n = t.room := by omega
      rw [if_pos (by omega), hnr]
      exact .cut skip (by omega) hseq (by omega)
    . rw [if_neg (by omega), List.take_of_length_le (by simp; omega)]
      exact .whole skip (by omega) hseq (by omega)
  unfold tcpInData
  apply yields_ite
  . intro h0
    apply yields_pure
    exact .none (List.eq_nil_of_length_eq_zero (by omega))
  . intro h0
    have hne : s.data ≠ [] := by
      intro h
      simp [h] at hsz
      omega
    apply yields_ite
    . intro hseq
      have := key 0 (by omega) (by simp [hseq]) _ rfl
      simpa using this
    . intro _
      apply yields_ite
      . intro h
        -- the signed tests bound the overlap
        rw [signed_pos_iff, signed_pos_iff] at h
        have hend := h.2
        have hskip : (t.rcvNxt - s.seq).toNat < size := by
          have hsum : s.seq + UInt32.ofNat size - t.rcvNxt
              = UInt32.ofNat size - (t.rcvNxt - s.seq) := by
            rw [UInt32.sub_eq_add_neg, UInt32.sub_eq_add_neg (UInt32.ofNat size),
              UInt32.neg_sub, UInt32.add_comm s.seq, UInt32.add_assoc, UInt32.sub_eq_add_neg]
          rw [hsum, UInt32.toNat_sub, hof] at hend
          omega
        have hrest : (UInt32.ofNat size - (t.rcvNxt - s.seq)).toNat
            = size - (t.rcvNxt - s.seq).toNat := by
          rw [UInt32.toNat_sub_of_le, hof]
          rw [UInt32.le_iff_toNat_le, hof]
          omega
        have := key (t.rcvNxt - s.seq).toNat hskip (by simp) _ rfl
        simpa only [hrest] using this
      . intro _
        exact yields_pure (.late hne)

theorem tcpInFin_snd (t : Tc) (size : Nat) (seq : UInt32) (fl : UInt8)
    : (tcpInFin t size seq fl).2 = decide (fl &&& tFin ≠ 0 ∧ seq + .ofNat size = t.rcvNxt) := by
  unfold tcpInFin
  split
  . next h => simp [h]
  . next h => simp [h]

@[simp]
theorem tcpInAck_rcvNxt (t : Tc) (ack : UInt32) (fl : UInt8)
    : (tcpInAck t ack fl).rcvNxt = t.rcvNxt := by
  unfold tcpInAck
  split <;> rfl

theorem DataIn.nil {s : Seg} {t' : Tc} {fl : UInt8} (h : DataIn t s t' fl) (hnil : s.data = [])
    : (t', fl) = (t, s.flags) := by
  cases h with
  | none _ => rfl
  | late h => exact absurd hnil h
  | cut skip hskip _ _ => simp [hnil] at hskip
  | whole skip hskip _ _ => simp [hnil] at hskip

/--
`tcp_in` takes the segment for one of the connection.
-/
structure TcpBelongs (t : Tc) (src : UInt32) (b : Bytes) (p len : Nat) : Prop where
  long : 20 ≤ len
  isOpen : t.state ≠ .closed
  peer : src = t.rip ∧ word16 b p = t.rport ∧ word16 b (p + 2) = t.lport
  header : 20 ≤ (b.getD (p + 12) 0 >>> 4).toNat * 4 ∧ (b.getD (p + 12) 0 >>> 4).toNat * 4 ≤ len
  noRst : (segAt b p len).flags &&& tRst = 0

section TcpBelongs

variable {src : UInt32} {p len : Nat}

theorem TcpBelongs.opens_iff (h : TcpBelongs t src b p len) (hstate : t.state = .synSent)
    : TcpAnswers t src b p len ↔ (segAt b p len).flags &&& (tSyn ||| tAck) = tSyn ||| tAck
        ∧ (segAt b p len).ack = t.sndNxt := by
  constructor
  . intro ha
    exact ha.opens hstate
  . intro hopens
    exact ⟨h.long, h.isOpen, h.peer, h.header, h.noRst, fun _ => hopens, fun hno => absurd hstate hno⟩

theorem TcpBelongs.carries_iff (h : TcpBelongs t src b p len) (hstate : t.state ≠ .synSent)
    : TcpAnswers t src b p len ↔ (segAt b p len).data ≠ []
        ∨ (segAt b p len).flags &&& tFin ≠ 0 ∧ (segAt b p len).seq = t.rcvNxt := by
  constructor
  . intro ha
    exact ha.carries hstate
  . intro hcarries
    exact ⟨h.long, h.isOpen, h.peer, h.header, h.noRst, fun hsyn => absurd hsyn hstate,
      fun _ => hcarries⟩

theorem TcpIn.ignored_of_not {s : Seg} (h : ¬TcpAnswers t src b p len)
    : TcpIn t s t false ∧ (false = true ↔ TcpAnswers t src b p len) :=
  ⟨.ignored, by simp [h]⟩

end TcpBelongs

theorem yields_tcpInSyn {p hl : Nat} (s : Seg) (hhl : 20 ≤ hl) (hlen : p + hl ≤ b.length)
    (hstate : t.state = .synSent)
    : (tcpInSyn t b p hl s.seq s.ack s.flags).Yields (fun r =>
        TcpIn t s r.1 r.2
          ∧ (r.2 = true ↔ s.flags &&& (tSyn ||| tAck) = tSyn ||| tAck ∧ s.ack = t.sndNxt)) := by
  unfold tcpInSyn
  apply yields_ite
  . intro hsyn
    apply yields_bind (yields_tcpOptions (by omega) (by omega) (by omega))
    intro mss _
    apply yields_pure
    refine ⟨.opened _ hstate hsyn.2, ?_⟩
    simp only [true_iff]
    exact hsyn
  . intro hsyn
    apply yields_pure
    refine ⟨.ignored, ?_⟩
    simp only [Bool.false_eq_true, false_iff]
    exact hsyn

theorem yields_tcpInOpen {d size : Nat} {s : Seg} (hlen : d + size ≤ b.length)
    (hsize : size < 2 ^ 31) (hr : t.rhead < tRing) (hdata : s.data = (b.drop d).take size)
    (hstate : t.state = .estab ∨ t.state = .closeWait)
    : (do
        let (t', fl) ← tcpInData (tcpInAck t s.ack s.flags) b d size s.seq s.flags
        let (t', fin) := tcpInFin t' size s.seq fl
        return (t', (size ≠ 0 ∨ fin : Bool)) : Checked (Tc × Bool)).Yields (fun r =>
          TcpIn t s r.1 r.2
            ∧ (r.2 = true ↔ s.data ≠ [] ∨ s.flags &&& tFin ≠ 0 ∧ s.seq = t.rcvNxt)) := by
  have hr' : (tcpInAck t s.ack s.flags).rhead < tRing := by
    unfold tcpInAck
    split <;> exact hr
  have hl : s.data.length = size := by
    rw [hdata, List.length_take, List.length_drop]
    omega
  apply yields_bind (yields_tcpInData hlen hsize hr' hdata)
  intro r hin
  apply yields_pure
  have htaken := TcpIn.taken hstate hin
  rw [hl] at htaken
  refine ⟨htaken, ?_⟩
  change decide (size ≠ 0 ∨ (tcpInFin r.1 size s.seq r.2).2 = true) = true ↔ _
  simp only [decide_eq_true_eq, tcpInFin_snd]
  by_cases hnil : s.data = []
  . -- without data the FIN has to be in order
    have hzero : size = 0 := by
      rw [← hl, hnil]
      rfl
    have hr1 := hin.nil hnil
    have hsum : s.seq + UInt32.ofNat 0 = s.seq := UInt32.add_zero s.seq
    rw [hzero, (Prod.mk.inj hr1).1, (Prod.mk.inj hr1).2, hsum, tcpInAck_rcvNxt]
    simp only [ne_eq, not_true_eq_false, false_or, hnil]
  . have hpos : size ≠ 0 := by
      rw [← hl]
      intro h0
      exact hnil (List.eq_nil_of_length_eq_zero h0)
    constructor
    . intro _
      exact .inl hnil
    . intro _
      exact .inl hpos

theorem yields_tcpIn {p len : Nat} (src : UInt32) (hlen : p + len ≤ b.length) (hsize : len < 2 ^ 31)
    (hr : t.rhead < tRing)
    : (tcpIn t src b p len).Yields (fun r =>
        TcpIn t (segAt b p len) r.1 r.2 ∧ (r.2 = true ↔ TcpAnswers t src b p len)) := by
  unfold tcpIn
  apply yields_ite
  . intro h
    apply yields_pure
    apply TcpIn.ignored_of_not
    intro ha
    cases h with
    | inl h => exact absurd ha.long (by omega)
    | inr h => exact ha.isOpen h
  . intro h
    rw [not_or] at h
    apply yields_bind (yields_load16 (by omega))
    rintro _ rfl
    apply yields_bind (yields_load16 (by omega))
    rintro _ rfl
    apply yields_ite
    . intro h
      apply yields_pure
      apply TcpIn.ignored_of_not
      intro ha
      simp [ha.peer] at h
    . intro hports
      simp only [not_or, not_not] at hports
      apply yields_bind (yields_load32 (by omega))
      rintro _ rfl
      apply yields_bind (yields_load32 (by omega))
      rintro _ rfl
      apply yields_bind (yields_load8 (by omega))
      rintro _ rfl
      apply yields_bind (yields_load8 (by omega))
      rintro _ rfl
      apply yields_ite
      . intro hhl
        apply yields_pure
        apply TcpIn.ignored_of_not
        intro ha
        have := ha.header
        omega
      . intro hhl
        apply yields_ite
        . intro hrst
          apply yields_pure
          refine ⟨.reset, ?_⟩
          constructor
          . intro h
            cases h
          . intro ha
            exact absurd ha.noRst hrst
        . intro hrst
          have hbelongs : TcpBelongs t src b p len :=
            ⟨by omega, h.2, hports, by omega, not_not.mp hrst⟩
          apply yields_ite
          . intro hstate
            rw [hbelongs.opens_iff hstate]
            exact yields_tcpInSyn (segAt b p len) (by omega) (by omega) hstate
          . intro hstate
            have hest : t.state = .estab ∨ t.state = .closeWait := by
              cases hs : t.state <;> simp_all
            rw [hbelongs.carries_iff hstate]
            exact yields_tcpInOpen (s := segAt b p len) (by omega) (by omega) hr rfl hest

@[simp]
theorem tcpInAck_state (t : Tc) (ack : UInt32) (fl : UInt8)
    : (tcpInAck t ack fl).state = t.state := by
  unfold tcpInAck
  split <;> rfl

@[simp]
theorem tcpInAck_rcount (t : Tc) (ack : UInt32) (fl : UInt8)
    : (tcpInAck t ack fl).rcount = t.rcount := by
  unfold tcpInAck
  split <;> rfl

@[simp]
theorem tcpInAck_fin (t : Tc) (ack : UInt32) (fl : UInt8) : (tcpInAck t ack fl).fin = t.fin := by
  unfold tcpInAck
  split <;> rfl

theorem DataIn.state {s : Seg} {t' : Tc} {fl : UInt8} (h : DataIn t s t' fl)
    : t'.state = t.state := by
  cases h with
  | none _ => rfl
  | late _ => rfl
  | cut _ _ _ _ =>
    unfold Tc.accept
    rw [Tc.ringPut_eq]
  | whole _ _ _ _ =>
    unfold Tc.accept
    rw [Tc.ringPut_eq]

theorem DataIn.rcount_le {s : Seg} {t' : Tc} {fl : UInt8} (h : DataIn t s t' fl)
    : t.rcount ≤ t'.rcount := by
  cases h with
  | none _ => exact Nat.le_refl _
  | late _ => exact Nat.le_refl _
  | cut _ _ _ _ => exact Nat.le_add_right _ _
  | whole _ _ _ _ => exact Nat.le_add_right _ _

theorem not_fin (fl : UInt8) : (fl &&& ~~~tFin) &&& tFin = 0 := by
  have : ~~~tFin &&& tFin = 0 := by decide
  rw [UInt8.and_assoc, this]
  simp

theorem DataIn.fin {s : Seg} {t' : Tc} {fl : UInt8} (h : DataIn t s t' fl) (hfin : fl &&& tFin ≠ 0)
    : s.flags &&& tFin ≠ 0 := by
  cases h with
  | none _ => exact hfin
  | late _ => exact absurd (not_fin _) hfin
  | cut _ _ _ _ => exact absurd (not_fin _) hfin
  | whole _ _ _ _ => exact hfin

theorem tcpInFin_state_ne {size : Nat} {seq : UInt32} {fl : UInt8} (h : t.state ≠ .synSent)
    : (tcpInFin t size seq fl).1.state ≠ .synSent := by
  unfold tcpInFin
  split
  . simp only
    split
    . simp
    . exact h
  . exact h

end TanjaOS
