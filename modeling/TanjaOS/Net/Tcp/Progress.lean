import TanjaOS.Net.Tcp.Send

/-!
Whether `tcp_send` comes to an end: it takes the size of its segments from an option of the SYN-ACK.
-/

open Lib Lib.Checked

namespace TanjaOS

section Spec

/--
The options of a header up to the first one that is malformed, with the bytes behind their size.
-/
def tcpOpts : Bytes → List (Byte × Bytes)
  | [] => []
  | [_] => []
  | kind :: size :: rest =>
    if kind = 0 then
      []
    else if kind = 1 then
      tcpOpts (size :: rest)
    else if size < 2 ∨ rest.length + 2 < size.toNat then
      []
    else
      (kind, rest.take (size.toNat - 2)) :: tcpOpts (rest.drop (size.toNat - 2))
termination_by bs => bs.length
decreasing_by
  . simp
  . rw [List.length_drop, List.length_cons, List.length_cons]
    omega

def mssOption (o : Byte × Bytes) : Option UInt16 :=
  if o.1 = 2 ∧ o.2.length = 2 then some (word16 o.2 0) else none

def lastMss (opts : Bytes) : Option UInt16 :=
  ((tcpOpts opts).filterMap mssOption).getLast?

def segOptions (p : Bytes) : Bytes :=
  (p.take ((p.getD 12 0 >>> 4).toNat * 4)).drop 20

namespace Call

def Sending : Call → Prop
  | .send .. => True
  | _ => False

/--
More than what a `tcp_send` can still do before it returns, besides waiting.
-/
def rank : Call → Nat
  | .send _ data _ _ tries sent => 12 * data.length - 2 * tries - if sent then 1 else 0
  | _ => 0

end Call

/--
A run within one `tcp_send`, and how often something else than waiting happened in it. The end of the time to
wait counts.
-/
inductive SendRun (s : Conn) : Nat → Conn → Prop where
  | refl : SendRun s 0 s
  | wait {k : Nat} {t u : Conn} {e : ConnEvent} : SendRun s k t → Conn.Step e t u → u.call = t.call → SendRun s k u
  | move {k : Nat} {t u : Conn} {e : ConnEvent} : SendRun s k t → Conn.Step e t u → u.call ≠ t.call → u.call.Sending →
    SendRun s (k + 1) u

/--
A pass of the outer loop in `tcp_send` fails or leaves less to send, and the call comes to an end.
-/
structure Progress (s : Conn) : Prop where
  pass : ∀ arg data n seq tries s', s.call = .send arg data n seq tries true → s.poll = some s' →
    s' = s ∨ s' = s.sendFail arg ∨ s' = s.sendLoop arg (data.drop n) ∧ (data.drop n).length < data.length
  ends : s.call.Sending → ∀ k s', SendRun s k s' → k < s.call.rank

end Spec

section Options

variable {b : Bytes} {p hl fuel o : Nat} {mss : UInt16}

def setMss (mss : UInt16) (o : Byte × Bytes) : UInt16 :=
  (mssOption o).getD mss

theorem foldl_setMss (opts : List (Byte × Bytes)) (mss : UInt16)
    : opts.foldl setMss mss = ((opts.filterMap mssOption).getLast?).getD mss := by
  induction opts generalizing mss with
  | nil => rfl
  | cons o opts ih =>
    rw [List.foldl_cons, ih, List.filterMap_cons]
    unfold setMss
    cases mssOption o with
    | none => rfl
    | some m => rw [List.getLast?_cons]; rfl

theorem take_drop_one {i n : Nat} (h : i < b.length)
    : (b.drop i).take (n + 1) = b.getD i 0 :: (b.drop (i + 1)).take n := by
  rw [List.drop_eq_getElem_cons h, List.take_succ_cons, List.getD_eq_getElem _ _ h]

theorem setMss_yields {kind size : Byte} {rest : Bytes} {i : Nat} (hrest : rest = (b.drop i).take rest.length)
    (hroom : size.toNat ≤ rest.length + 2) (hi : i + rest.length ≤ b.length)
    : (if kind = 2 ∧ size = 4 then load16 b i else pure mss : Checked UInt16).Yields
      (fun m => m = setMss mss (kind, rest.take (size.toNat - 2))) := by
  unfold setMss mssOption
  apply yields_ite
  . rintro ⟨rfl, rfl⟩
    have hfour : (4 : UInt8).toNat = 4 := rfl
    rw [hfour] at hroom ⊢
    have hlen : (rest.take 2).length = 2 := List.length_take_of_le (by omega)
    apply (yields_load16 (by omega)).mono
    rintro m rfl
    rw [if_pos ⟨rfl, hlen⟩]
    have htake : rest.take 2 = [b.getD i 0, b.getD (i + 1) 0] := by
      rw [hrest, List.take_take, Nat.min_eq_left (by omega)]
      rw [take_drop_one (by omega), take_drop_one (by omega)]
      rfl
    dsimp only
    rw [htake]
    rfl
  . intro hno
    apply yields_pure
    have hno' : ¬((kind, rest.take (size.toNat - 2)).1 = 2 ∧ (kind, rest.take (size.toNat - 2)).2.length = 2) := by
      rintro ⟨hkind, hlen⟩
      rw [List.length_take] at hlen
      refine hno ⟨hkind, UInt8.toNat_inj.mp ?_⟩
      have hfour : (4 : UInt8).toNat = 4 := rfl
      omega
    rw [if_neg hno']
    rfl

theorem tcpOptions_yields (hlen : p + hl ≤ b.length) (hpos : 0 < fuel) (hfuel : hl < fuel + o)
    : (tcpOptions b p hl fuel o mss).Yields
        (fun m => m = (tcpOpts ((b.drop (p + o)).take (hl - o))).foldl setMss mss) := by
  induction fuel generalizing o mss with
  | zero => omega
  | succ fuel ih =>
    unfold tcpOptions
    apply yields_ite
    . intro ho
      have hbytes : (b.drop (p + o)).take (hl - o)
          = b.getD (p + o) 0 :: b.getD (p + o + 1) 0 :: (b.drop (p + o + 2)).take (hl - o - 2) := by
        have hsize : hl - o = hl - o - 2 + 1 + 1 := by omega
        rw [hsize, take_drop_one (by omega), take_drop_one (by omega)]
        congr 3
      have hrest : ((b.drop (p + o + 2)).take (hl - o - 2)).length = hl - o - 2 := by
        rw [List.length_take, List.length_drop]
        omega
      apply yields_bind (yields_load8 (by omega))
      rintro kind rfl
      apply yields_ite
      . intro hkind
        apply yields_pure
        rw [hbytes, tcpOpts, if_pos hkind]
        rfl
      . intro hkind
        apply yields_ite
        . intro hnop
          have hnext : (b.drop (p + (o + 1))).take (hl - (o + 1))
              = b.getD (p + o + 1) 0 :: (b.drop (p + o + 2)).take (hl - o - 2) := by
            have hsize : hl - (o + 1) = hl - o - 2 + 1 := by omega
            rw [hsize, take_drop_one (by omega)]
            rfl
          rw [hbytes, tcpOpts, if_neg hkind, if_pos hnop, ← hnext]
          exact ih (by omega) (by omega)
        . intro hnop
          apply yields_bind (yields_load8 (by omega))
          rintro size rfl
          rw [hbytes, tcpOpts, if_neg hkind, if_neg hnop]
          have hcond : (b.getD (p + o + 1) 0 < 2
                ∨ ((b.drop (p + o + 2)).take (hl - o - 2)).length + 2 < (b.getD (p + o + 1) 0).toNat)
              ↔ (b.getD (p + o + 1) 0 < 2 ∨ hl < o + (b.getD (p + o + 1) 0).toNat) :=
            or_congr_right (by rw [hrest]; omega)
          apply yields_ite
          . intro hbad
            apply yields_pure
            rw [if_pos (hcond.mpr hbad)]
            rfl
          . intro hok
            rw [if_neg (fun h => hok (hcond.mp h))]
            rw [not_or, UInt8.lt_iff_toNat_lt] at hok
            have htwo : (2 : UInt8).toNat = 2 := rfl
            refine yields_bind (setMss_yields (by rw [hrest]) (by rw [hrest]; omega) (by rw [hrest]; omega)) ?_
            rintro m rfl
            have hdrop : ((b.drop (p + o + 2)).take (hl - o - 2)).drop ((b.getD (p + o + 1) 0).toNat - 2)
                = (b.drop (p + (o + (b.getD (p + o + 1) 0).toNat))).take (hl - (o + (b.getD (p + o + 1) 0).toNat)) := by
              rw [List.drop_take, List.drop_drop]
              congr 1
              . omega
              . congr 1
                omega
            rw [hdrop, List.foldl_cons]
            exact ih (by omega) (by omega)
    . intro ho
      apply yields_pure
      have hshort : ((b.drop (p + o)).take (hl - o)).length ≤ 1 := by
        rw [List.length_take]
        omega
      generalize (b.drop (p + o)).take (hl - o) = bs at hshort
      cases bs with
      | nil => rw [tcpOpts]; rfl
      | cons kind bs =>
        cases bs with
        | nil => rw [tcpOpts]; rfl
        | cons len bs => simp at hshort

end Options

/--
What the SYN-ACK leaves: everything is acknowledged, and the segment size is 0 only if the peer says so.
-/
structure Opened (t t' : Tc) (p : Bytes) : Prop where
  mss : t'.mss = 0 ↔ lastMss (segOptions p) = some 0
  sndUna : t'.sndUna = t'.sndNxt

section Opened

variable {t t' : Tc} {src : UInt32} {p : Bytes}

theorem mss_cap (m : Option UInt16) : (if m.getD 536 > 1460 then 1460 else m.getD 536) = 0 ↔ m = some 0 := by
  cases m with
  | none => decide
  | some m =>
    rw [Option.getD_some, Option.some.injEq]
    split
    . next h =>
      refine iff_of_false (by decide) ?_
      rintro rfl
      exact absurd h (by decide)
    . rfl

theorem tcpInSyn_opened {hl : Nat} {seq ack : UInt32} {fl : UInt8} (hhl : 20 ≤ hl) (hlen : hl ≤ p.length)
    (hstate : t.state = .synSent) (hopts : segOptions p = (p.drop 20).take (hl - 20))
    : (tcpInSyn t p 0 hl seq ack fl).Yields (fun r => r.1.state = .estab → Opened t r.1 p) := by
  unfold tcpInSyn
  apply yields_ite
  . intro hsyn
    refine yields_bind (tcpOptions_yields (by omega) (by omega) (by omega)) ?_
    rintro mss rfl
    apply yields_pure
    intro _
    constructor
    . rw [foldl_setMss, Nat.zero_add, ← hopts]
      exact mss_cap (lastMss (segOptions p))
    . exact hsyn.2
  . intro _
    apply yields_pure
    intro h
    rw [hstate] at h
    contradiction

theorem tcpIn_opened (hstate : t.state = .synSent)
    : (tcpIn t src p 0 p.length).Yields (fun r => r.1.state = .estab → Opened t r.1 p) := by
  have hkeep : ∀ r : Bool, (t, r).1.state = .estab → Opened t (t, r).1 p := by
    intro r h
    rw [hstate] at h
    contradiction
  unfold tcpIn
  apply yields_ite
  . intro _
    exact yields_pure (hkeep _)
  . intro hlong
    have hlen : 20 ≤ p.length := by omega
    refine yields_bind (yields_load16 (by omega)) (fun sport _ => ?_)
    refine yields_bind (yields_load16 (by omega)) (fun dport _ => ?_)
    apply yields_ite
    . intro _
      exact yields_pure (hkeep _)
    . intro _
      refine yields_bind (yields_load32 (by omega)) (fun seq _ => ?_)
      refine yields_bind (yields_load32 (by omega)) (fun ack _ => ?_)
      refine yields_bind (yields_load8 (by omega)) ?_
      rintro off rfl
      refine yields_bind (yields_load8 (by omega)) (fun fl _ => ?_)
      apply yields_ite
      . intro _
        exact yields_pure (hkeep _)
      . intro hhl
        apply yields_ite
        . intro _
          apply yields_pure
          intro h
          contradiction
        . intro _
          rw [if_pos hstate]
          apply tcpInSyn_opened (by omega) (by omega) hstate
          unfold segOptions
          rw [List.drop_take]

end Opened

section Runs

variable {s s' : Conn} {m : UInt16}

/--
What holds in every state of an open connection with the segment size `m`.
-/
structure SendReady (m : UInt16) (s : Conn) : Prop where
  mss : s.tc.mss = m
  state : s.tc.state ≠ .synSent
  sending : ∀ arg data n seq tries sent, s.call = .send arg data n seq tries sent →
    0 < n ∧ n ≤ data.length ∧ tries < 6

/--
A step of an open connection: outside of `tcp_send` anything, within it waiting, returning, or moving on.
-/
structure SendMove (m : UInt16) (s s' : Conn) : Prop where
  ready : SendReady m s'
  moves : s.call.Sending → s'.call = s.call ∨ ¬s'.call.Sending ∨ s'.call.rank < s.call.rank

theorem DataIn.keeps {t t' : Tc} {g : Seg} {fl : UInt8} (h : DataIn t g t' fl)
    : t'.mss = t.mss ∧ t'.state = t.state := by
  cases h with
  | none | late => exact ⟨rfl, rfl⟩
  | cut skip _ _ _ =>
    unfold Tc.accept
    rw [Tc.ringPut_eq]
    exact ⟨rfl, rfl⟩
  | whole skip _ _ _ =>
    unfold Tc.accept
    rw [Tc.ringPut_eq]
    exact ⟨rfl, rfl⟩

theorem TcpIn.keeps {t t' : Tc} {g : Seg} {answer : Bool} (h : TcpIn t g t' answer) (hstate : t.state ≠ .synSent)
    : t'.mss = t.mss ∧ t'.state ≠ .synSent := by
  cases h with
  | ignored => exact ⟨rfl, hstate⟩
  | reset => exact ⟨rfl, by simp⟩
  | opened mss hsyn _ => exact absurd hsyn hstate
  | @taken t' fl hopen hdata =>
    obtain ⟨hmss, hst⟩ := hdata.keeps
    have hack : (tcpInAck t g.ack g.flags).mss = t.mss ∧ (tcpInAck t g.ack g.flags).state = t.state := by
      unfold tcpInAck
      split
      . exact ⟨rfl, rfl⟩
      . exact ⟨rfl, rfl⟩
    rw [hack.1] at hmss
    rw [hack.2] at hst
    unfold tcpInFin
    split
    . refine ⟨hmss, ?_⟩
      dsimp only
      split
      . simp
      . rw [hst]
        exact hstate
    . refine ⟨hmss, ?_⟩
      rw [hst]
      exact hstate

theorem SendReady.sendLoop (h : SendReady m s) (hm : m ≠ 0) (arg data : Bytes)
    : SendReady m (s.sendLoop arg data)
      ∧ ((s.sendLoop arg data).call.Sending → (s.sendLoop arg data).call.rank = 12 * data.length ∧ data ≠ []) := by
  have hpos : 0 < s.tc.mss.toNat := by
    rw [h.mss, Nat.pos_iff_ne_zero]
    intro hzero
    exact hm (UInt16.toNat_inj.mp hzero)
  unfold Conn.sendLoop
  split
  . next hnil =>
    refine ⟨⟨h.mss, h.state, ?_⟩, fun hsend => hsend.elim⟩
    intro arg' data' n seq tries sent hcall
    contradiction
  . next hne =>
    have hlen := List.length_pos_iff.mpr hne
    refine ⟨⟨h.mss, h.state, ?_⟩, fun _ => ⟨rfl, hne⟩⟩
    intro arg' data' n seq tries sent hcall
    obtain ⟨rfl, rfl, rfl, rfl, rfl, rfl⟩ := Call.send.inj hcall
    split
    . omega
    . omega

theorem SendReady.quiet (h : SendReady m s) {call : Call} {trace : List Obs} {tc : Tc} (hmss : tc.mss = s.tc.mss)
    (hstate : tc.state ≠ .synSent) (hcall : ¬call.Sending)
    : SendMove m s { s with tc, call, trace } := by
  refine ⟨⟨hmss.trans h.mss, hstate, ?_⟩, fun _ => .inr (.inl hcall)⟩
  rintro arg data n seq tries sent rfl
  exact absurd trivial hcall

theorem SendReady.tx (h : SendReady m s) {ok : Bool} (hs : s.tx ok = some s') : SendMove m s s' := by
  unfold Conn.tx at hs
  split at hs
  . next tries hcall =>
    split at hs
    . obtain rfl := Option.some.inj hs
      exact h.quiet rfl h.state id
    . obtain rfl := Option.some.inj hs
      exact h.quiet rfl (by simp) id
  . next arg data n seq tries hcall =>
    obtain ⟨hpos, hle, htries⟩ := h.sending arg data n seq tries false hcall
    dsimp only at hs
    split at hs
    . obtain rfl := Option.some.inj hs
      refine ⟨⟨h.mss, h.state, ?_⟩, fun _ => .inr (.inr ?_)⟩
      . intro arg' data' n' seq' tries' sent' hcall'
        obtain ⟨rfl, rfl, rfl, rfl, rfl, rfl⟩ := Call.send.inj hcall'
        exact ⟨hpos, hle, htries⟩
      . rw [hcall]
        show 12 * data.length - 2 * tries - 1 < 12 * data.length - 2 * tries - 0
        omega
    . obtain rfl := Option.some.inj hs
      exact h.quiet rfl h.state id
  . contradiction

theorem ringDrain_keeps (cap : Nat) (t : Tc)
    : (ringDrain cap t).2.mss = t.mss ∧ (ringDrain cap t).2.state = t.state := by
  induction cap generalizing t with
  | zero => exact ⟨rfl, rfl⟩
  | succ cap ih =>
    unfold ringDrain
    split
    . exact ⟨rfl, rfl⟩
    . exact ih _

theorem SendReady.recvPoll (h : SendReady m s) (cap : Nat)
    : SendMove m s (s.recvPoll cap) := by
  unfold Conn.recvPoll
  split
  . obtain ⟨hmss, hstate⟩ := ringDrain_keeps cap s.tc
    dsimp only
    refine h.quiet hmss ?_ id
    rw [hstate]
    exact h.state
  . split
    . exact h.quiet rfl h.state id
    . split
      . exact h.quiet rfl h.state id
      . exact ⟨h, fun _ => .inl rfl⟩

theorem SendReady.poll (h : SendReady m s) (hm : m ≠ 0) (hs : s.poll = some s') : SendMove m s s' := by
  unfold Conn.poll at hs
  split at hs
  . next tries hcall =>
    split at hs
    . obtain rfl := Option.some.inj hs
      exact h.quiet rfl h.state id
    . split at hs
      . obtain rfl := Option.some.inj hs
        exact h.quiet rfl h.state id
      . obtain rfl := Option.some.inj hs
        exact ⟨h, fun _ => .inl rfl⟩
  . next arg data n seq tries hcall =>
    obtain ⟨hpos, hle, htries⟩ := h.sending arg data n seq tries true hcall
    split at hs
    . obtain rfl := Option.some.inj hs
      exact h.quiet rfl h.state id
    . split at hs
      . obtain rfl := Option.some.inj hs
        obtain ⟨hready, hrank⟩ := h.sendLoop hm arg (data.drop n)
        refine ⟨hready, fun _ => .inr ?_⟩
        by_cases hsend : (s.sendLoop arg (data.drop n)).call.Sending
        . right
          rw [(hrank hsend).1, hcall, List.length_drop]
          show 12 * (data.length - n) < 12 * data.length - 2 * tries - 1
          omega
        . exact .inl hsend
      . obtain rfl := Option.some.inj hs
        exact ⟨h, fun _ => .inl rfl⟩
  . next cap _ =>
    obtain rfl := Option.some.inj hs
    exact h.recvPoll cap
  . split at hs
    . obtain rfl := Option.some.inj hs
      exact h.quiet rfl (by simp) id
    . obtain rfl := Option.some.inj hs
      exact ⟨h, fun _ => .inl rfl⟩
  . contradiction

theorem SendReady.timeout (h : SendReady m s) (hs : s.timeout = some s') : SendMove m s s' := by
  unfold Conn.timeout at hs
  split at hs
  . split at hs
    . obtain rfl := Option.some.inj hs
      exact h.quiet rfl h.state id
    . obtain rfl := Option.some.inj hs
      exact h.quiet rfl (by simp) id
  . next arg data n seq tries hcall =>
    obtain ⟨hpos, hle, htries⟩ := h.sending arg data n seq tries true hcall
    split at hs
    . next hmore =>
      obtain rfl := Option.some.inj hs
      refine ⟨⟨h.mss, h.state, ?_⟩, fun _ => .inr (.inr ?_)⟩
      . intro arg' data' n' seq' tries' sent' hcall'
        obtain ⟨rfl, rfl, rfl, rfl, rfl, rfl⟩ := Call.send.inj hcall'
        exact ⟨hpos, hle, hmore⟩
      . rw [hcall]
        show 12 * data.length - 2 * (tries + 1) - 0 < 12 * data.length - 2 * tries - 1
        omega
    . obtain rfl := Option.some.inj hs
      exact h.quiet rfl h.state id
  . obtain rfl := Option.some.inj hs
    exact h.quiet rfl h.state id
  . obtain rfl := Option.some.inj hs
    exact h.quiet rfl (by simp) id
  . contradiction

theorem SendReady.segment (h : SendReady m s) {src : UInt32} {p : Bytes} (hhead : s.tc.rhead < tRing)
    (hs : s.segment src p = some s')
    : SendMove m s s' := by
  obtain ⟨_, tc, answer, hin, rfl⟩ := Conn.segment_cases hs hhead
  obtain ⟨hmss, hstate⟩ := hin.keeps h.state
  exact ⟨⟨hmss.trans h.mss, hstate, h.sending⟩, fun _ => .inl rfl⟩

theorem SendReady.step (h : SendReady m s) (hm : m ≠ 0) (hhead : s.tc.rhead < tRing) {e : ConnEvent}
    (hs : Conn.Step e s s')
    : SendMove m s s' := by
  unfold Conn.Step at hs
  cases e with
  | segment src p => exact h.segment hhead hs
  | tx ok => exact h.tx hs
  | poll => exact h.poll hm hs
  | timeout => exact h.timeout hs
  | send data =>
    unfold Conn.next at hs
    dsimp only at hs
    split at hs
    . next hcall =>
      split at hs
      . contradiction
      . obtain rfl := Option.some.inj hs
        refine ⟨(h.sendLoop hm data data).1, fun hsend => ?_⟩
        rw [hcall] at hsend
        exact hsend.elim
    . contradiction
  | recv cap =>
    unfold Conn.next at hs
    dsimp only at hs
    split at hs
    . split at hs
      . obtain rfl := Option.some.inj hs
        exact h.quiet rfl h.state id
      . contradiction
    . contradiction
  | close =>
    unfold Conn.next at hs
    dsimp only at hs
    split at hs
    . obtain rfl := Option.some.inj hs
      unfold Conn.close
      split
      . exact h.quiet rfl h.state id
      . exact h.quiet rfl (by simp) id
    . contradiction

theorem SendReady.rank_pos (h : SendReady m s) (hsend : s.call.Sending) : 0 < s.call.rank := by
  cases hcall : s.call with
  | send arg data n seq tries sent =>
    obtain ⟨hpos, hle, htries⟩ := h.sending arg data n seq tries sent hcall
    unfold Call.rank
    dsimp only
    split
    . omega
    . omega
  | _ =>
    rw [hcall] at hsend
    exact hsend.elim

theorem SendReady.sendRun (h : SendReady m s) (hm : m ≠ 0) (hinv : ∃ una nxt, SendInv s.iss una nxt s)
    (hsend : s.call.Sending) {k : Nat} (hrun : SendRun s k s')
    : SendReady m s' ∧ (∃ una nxt, SendInv s'.iss una nxt s') ∧ s'.call.Sending ∧ k + s'.call.rank ≤ s.call.rank := by
  induction hrun with
  | refl => exact ⟨h, hinv, hsend, by omega⟩
  | @wait k t u e _ hstep hsame ih =>
    obtain ⟨hready, ⟨una, nxt, ht⟩, hin, hrank⟩ := ih
    have hu := hready.step hm ht.ring.head_lt hstep
    obtain ⟨una', nxt', hinv'⟩ := ht.step hstep
    refine ⟨hu.ready, ⟨una', nxt', ?_⟩, ?_, ?_⟩
    . rw [hinv'.iss_eq]
      exact hinv'
    . rw [hsame]
      exact hin
    . rw [hsame]
      exact hrank
  | @move k t u e _ hstep hmove hsend' ih =>
    obtain ⟨hready, ⟨una, nxt, ht⟩, hin, hrank⟩ := ih
    have hu := hready.step hm ht.ring.head_lt hstep
    obtain ⟨una', nxt', hinv'⟩ := ht.step hstep
    refine ⟨hu.ready, ⟨una', nxt', ?_⟩, hsend', ?_⟩
    . rw [hinv'.iss_eq]
      exact hinv'
    . rcases hu.moves hin with hsame | hout | hless
      . exact absurd hsame hmove
      . exact absurd hsend' hout
      . omega

theorem SendReady.progress (h : SendReady m s) (hm : m ≠ 0) (hinv : ∃ una nxt, SendInv s.iss una nxt s)
    : Progress s where
  pass arg data n seq tries s' hcall hs := by
    obtain ⟨hpos, hle, _⟩ := h.sending arg data n seq tries true hcall
    unfold Conn.poll at hs
    rw [hcall] at hs
    dsimp only at hs
    split at hs
    . exact .inr (.inl (Option.some.inj hs).symm)
    . split at hs
      . refine .inr (.inr ⟨(Option.some.inj hs).symm, ?_⟩)
        rw [List.length_drop]
        omega
      . exact .inl (Option.some.inj hs).symm
  ends hsend k s' hrun := by
    obtain ⟨hready, _, hsend', hrank⟩ := h.sendRun hm hinv hsend hrun
    have hpos := hready.rank_pos hsend'
    omega

end Runs

section Stuck

variable {s : Conn}

theorem stuck_of_mss_zero (hcall : s.call = .idle) (hmss : s.tc.mss = 0) (hstate : s.tc.state = .estab)
    (hrst : s.tc.rst = false) (hquiet : ¬s.trace.any Obs.failed) (huna : s.tc.sndUna = s.tc.sndNxt) (x : Byte)
    : ∃ s', Run Conn.Step (fun _ _ => True) s s' ∧ ¬Progress s' := by
  have hsend : s.next (.send [x]) = some (s.sendLoop [x] [x]) := by
    unfold Conn.next
    dsimp only
    rw [hcall]
    exact if_neg hquiet
  have hloop : ∀ t : Conn, t.tc.mss = 0 → t.sendLoop [x] [x]
      = { t with
          tc := { t.tc with sndNxt := t.tc.sndNxt + UInt32.ofNat 0 }
          call := .send [x] [x] 0 t.tc.sndNxt 0 false
          stream := t.stream ++ [x].take 0
        } := by
    intro t ht
    unfold Conn.sendLoop
    rw [if_neg (List.cons_ne_nil x []), ht]
    rfl
  rw [hloop s hmss] at hsend
  obtain ⟨u, hu⟩ : ∃ u, u = { s with
      tc := { s.tc with sndNxt := s.tc.sndNxt + UInt32.ofNat 0 }
      call := .send [x] [x] 0 s.tc.sndNxt 0 true
      stream := s.stream ++ [x].take 0
      trace := .emitted s.tc.sndNxt ([x].take 0) (s.stream ++ [x].take 0).length :: s.trace
    } := ⟨_, rfl⟩
  have hrun : Run Conn.Step (fun _ _ => True) s u := by
    apply (Relation.ReflTransGen.refl.tail ⟨.send [x], trivial, hsend⟩).tail
    exact ⟨.tx true, trivial, by rw [hu]; rfl⟩
  have hpoll : u.poll = some (u.sendLoop [x] [x]) := by
    have hcall' : u.call = .send [x] [x] 0 s.tc.sndNxt 0 true := by rw [hu]
    have hopen : ¬(u.tc.rst ∨ u.tc.state = .closed) := by
      rw [hu]
      dsimp only
      rw [hrst, hstate]
      decide
    have hacked : 0 ≤ signed (u.tc.sndUna - u.tc.sndNxt) := by
      rw [hu]
      dsimp only
      have hzero : UInt32.ofNat 0 = 0 := rfl
      rw [huna, hzero, UInt32.add_zero, UInt32.sub_self]
      decide
    unfold Conn.poll
    rw [hcall']
    dsimp only
    rw [if_neg hopen, if_pos hacked]
    rfl
  refine ⟨u, hrun, fun h => ?_⟩
  have hcall' : (u.sendLoop [x] [x]).call = .send [x] [x] 0 u.tc.sndNxt 0 false := by
    rw [hloop u (by rw [hu]; exact hmss)]
  rcases h.pass [x] [x] 0 s.tc.sndNxt 0 (u.sendLoop [x] [x]) (by rw [hu]) hpoll with hsame | hfail | ⟨_, hless⟩
  . have hbad : u.call = .send [x] [x] 0 s.tc.sndNxt 0 true := by rw [hu]
    rw [hsame] at hcall'
    rw [hcall'] at hbad
    simp at hbad
  . rw [hfail] at hcall'
    contradiction
  . exact absurd hless (by simp)

theorem idle_of_connect {tries : Nat} {sent : Bool} (hcall : s.call = .connect tries sent)
    (hstate : s.tc.state = .estab)
    : Run Conn.Step (fun _ _ => True) s { s with call := .idle } := by
  have hsent : Run Conn.Step (fun _ _ => True) s { s with call := .connect tries true } := by
    cases sent with
    | true =>
      rw [← hcall]
    | false =>
      apply Relation.ReflTransGen.single
      refine ⟨.tx true, trivial, ?_⟩
      show s.tx true = _
      unfold Conn.tx
      rw [hcall]
      rfl
  have hpoll : Conn.poll { s with call := .connect tries true } = some { s with call := .idle } := by
    unfold Conn.poll
    dsimp only
    exact if_pos hstate
  exact hsent.tail ⟨.poll, trivial, hpoll⟩

end Stuck

/--
`tcp_send` makes progress with every peer but one whose SYN-ACK says that its maximum segment size is 0. Then
`tcp_send` sends empty segments for ever, each of them is acknowledged before it is sent.
-/
theorem tcp_progress_iff {rip : UInt32} {rport lport : UInt16} {iss : UInt32} (s s₁ : Conn) (src : UInt32) (p : Bytes)
    (h : Run Conn.Step (fun _ _ => True) (Conn.start rip rport lport iss) s) (hsyn : s.tc.state = .synSent)
    (hseg : s.segment src p = some s₁) (hopen : s₁.tc.state = .estab)
    : (∀ s₂, Run Conn.Step (fun _ _ => True) s₁ s₂ → Progress s₂) ↔ lastMss (segOptions p) ≠ some 0 := by
  obtain ⟨una, nxt, hinv⟩ := SendInv.of_run h
  obtain ⟨una₁, nxt₁, hinv₁⟩ := hinv.step (show Conn.Step (.segment src p) s s₁ from hseg)
  obtain ⟨tries, sent, hconnect⟩ := hinv.synSent hsyn
  have hopened : Opened s.tc s₁.tc p ∧ s₁.call = s.call := by
    unfold Conn.segment at hseg
    split at hseg
    . obtain ⟨r, heq, hr⟩ := tcpIn_opened hsyn
      rw [heq] at hseg
      obtain rfl := Option.some.inj hseg
      exact ⟨hr hopen, rfl⟩
    . contradiction
  obtain ⟨hopened, hcall⟩ := hopened
  rw [hconnect] at hcall
  constructor
  . intro hprogress hzero
    obtain ⟨_, _, hnone⟩ := hinv₁.connect tries sent hcall
    have hquiet : ¬s₁.trace.any Obs.failed := by
      rw [List.any_eq_true]
      rintro ⟨o, ho, hfailed⟩
      rw [hnone o ho] at hfailed
      contradiction
    have hrst : s₁.tc.rst = false := by
      cases hrst : s₁.tc.rst with
      | false => rfl
      | true =>
        have hclosed := hinv₁.rst hrst
        rw [hopen] at hclosed
        contradiction
    obtain ⟨s₂, hrun, hstuck⟩ := stuck_of_mss_zero (s := { s₁ with call := .idle }) rfl (hopened.mss.mpr hzero) hopen
      hrst hquiet hopened.sndUna 0
    exact hstuck (hprogress s₂ ((idle_of_connect hcall hopen).trans hrun))
  . intro hnonzero s₂ hrun
    have hm : s₁.tc.mss ≠ 0 := fun hmss => hnonzero (hopened.mss.mp hmss)
    have hready : SendReady s₁.tc.mss s₁ := by
      refine ⟨rfl, by rw [hopen]; decide, ?_⟩
      intro arg data n seq tries sent hsend
      rw [hcall] at hsend
      contradiction
    have hall : SendReady s₁.tc.mss s₂ ∧ ∃ una nxt, SendInv iss una nxt s₂ := by
      apply hrun.keeps (I := fun s => SendReady s₁.tc.mss s ∧ ∃ una nxt, SendInv iss una nxt s)
      . rintro t e t' _ ⟨hready, una, nxt, ht⟩ hs
        exact ⟨(hready.step hm ht.ring.head_lt hs).ready, ht.step hs⟩
      . exact ⟨hready, una₁, nxt₁, hinv₁⟩
    obtain ⟨hready, una, nxt, ht⟩ := hall
    apply hready.progress hm
    rw [ht.iss_eq]
    exact ⟨una, nxt, ht⟩

def synConn : Conn :=
  after Conn.next (Conn.start 7 80 50000 100) (.tx true)

theorem synConn_run : Run Conn.Step (fun _ _ => True) (Conn.start 7 80 50000 100) synConn :=
  Relation.ReflTransGen.single ⟨.tx true, trivial, rfl⟩

/--
A SYN-ACK without options.
-/
theorem tcp_progress_plain : Progress (after Conn.next synConn (.segment 7 (headerTo 9 101 0x12))) := by
  have hopts : segOptions (headerTo 9 101 0x12) = [] := rfl
  have hnonzero : lastMss (segOptions (headerTo 9 101 0x12)) ≠ some 0 := by
    rw [hopts, lastMss, tcpOpts]
    decide
  exact (tcp_progress_iff synConn (after Conn.next synConn (.segment 7 (headerTo 9 101 0x12))) 7 (headerTo 9 101 0x12)
    synConn_run rfl rfl rfl).mpr hnonzero _ .refl

/--
A SYN-ACK of 24 bytes, whose option says that the maximum segment size is 0.
-/
def zeroMss : Bytes :=
  [0, 80, 195, 80, 0, 0, 0, 9, 0, 0, 0, 101, 96, 0x12, 0, 0, 0, 0, 0, 0, 2, 4, 0, 0]

theorem tcp_stuck
    : ¬∀ s s₁ src p, Run Conn.Step (fun _ _ => True) (Conn.start 7 80 50000 100) s → s.tc.state = .synSent →
      s.segment src p = some s₁ → s₁.tc.state = .estab →
      ∀ s₂, Run Conn.Step (fun _ _ => True) s₁ s₂ → Progress s₂ := by
  intro h
  obtain ⟨s₁, hseg⟩ : ∃ s₁, synConn.segment 7 zeroMss = some s₁ := ⟨_, rfl⟩
  obtain rfl := Option.some.inj hseg
  have hidle : Run Conn.Step (fun _ _ => True) (after Conn.next synConn (.segment 7 zeroMss))
      { after Conn.next synConn (.segment 7 zeroMss) with call := .idle } :=
    idle_of_connect rfl rfl
  obtain ⟨s₂, hrun, hstuck⟩ := stuck_of_mss_zero
    (s := { after Conn.next synConn (.segment 7 zeroMss) with call := .idle }) rfl rfl rfl rfl (by decide) rfl 0
  exact hstuck (h synConn _ 7 zeroMss synConn_run rfl rfl rfl s₂ (hidle.trans hrun))

end TanjaOS
