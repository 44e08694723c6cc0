import TanjaOS.Net.Tcp.Receive

/-!
What `tcp_send` sends is the stream of its callers, and it returns 0 only when the peer has
acknowledged all of it, whatever segments arrive.
-/

open Lib

namespace TanjaOS

theorem seqAt_start (start : UInt32) (p : Nat) : seqAt (start + 1) p = seqAt start (p + 1) := by
  unfold seqAt
  rw [UInt32.ofNat_add, UInt32.add_assoc, UInt32.add_comm (UInt32.ofNat p)]
  rfl

/--
The argument of the running `tcp_send`.
-/
def Call.arg : Call → Bytes
  | .send arg _ _ _ _ _ => arg
  | _ => []

def Conn.app (s : Conn) : Bytes :=
  Conn.given s.trace ++ s.call.arg

/--
A segment acknowledges the first `n` bytes of the stream, and arrived when just these `n` had been
given sequence numbers.
-/
def Acknowledged (iss : UInt32) (n : Nat) (trace : List Obs) : Prop :=
  ∃ g, .arrived g n ∈ trace ∧ g.flags &&& tAck ≠ 0 ∧ g.ack = seqAt (iss + 1) n

/--
Each `tcp_send` that returned 0 did so with all bytes acknowledged, its own and those of the calls
before it.
-/
def SendsAcknowledged (iss : UInt32) : List Obs → Prop
  | [] => True
  | .sent arg ret :: trace =>
    (ret = 0 → Conn.given trace ++ arg ≠ [] →
      Acknowledged iss (Conn.given trace ++ arg).length trace) ∧ SendsAcknowledged iss trace
  | _ :: trace => SendsAcknowledged iss trace

/--
`data` are the last of the first `n` bytes of `stream`, sent under their sequence number.
-/
def InPlace (iss : UInt32) (stream : Bytes) (seq : UInt32) (data : Bytes) (n : Nat) : Prop :=
  ∃ before after, stream = before ++ data ++ after ∧ n = before.length + data.length
    ∧ seq = seqAt (iss + 1) before.length

/--
What is known about the sending side: `una` and `nxt` are the positions of `snd_una` and `snd_nxt`,
the SYN has position 0.
-/
structure SendInv (iss : UInt32) (una nxt : Nat) (s : Conn) : Prop where
  iss_eq : s.iss = iss
  ring : s.tc.RingOk
  sndUna : s.tc.sndUna = seqAt s.iss una
  sndNxt : s.tc.sndNxt = seqAt s.iss nxt
  order : una ≤ nxt
  window : s.stream.length + 1 ≤ una + 65535
  numbered : s.stream.length + 1 ≤ nxt ∧ nxt ≤ s.stream.length + 2
  open_ : s.call ≠ .close → s.call ≠ .over → nxt = s.stream.length + 1
  synSent : s.tc.state = .synSent → ∃ tries sent, s.call = .connect tries sent
  connect : ∀ tries sent, s.call = .connect tries sent →
    s.stream = [] ∧ Conn.given s.trace = [] ∧ ∀ o ∈ s.trace, o.failed = false
  estab : s.tc.state = .estab → 1 ≤ una
  rst : s.tc.rst = true → s.tc.state = .closed
  settled : s.call = .idle ∨ (∃ cap, s.call = .recv cap) → (∀ o ∈ s.trace, o.failed = false) →
    una = nxt ∧ s.stream = Conn.given s.trace
  sending : ∀ arg data n seq tries sent, s.call = .send arg data n seq tries sent →
    ∃ done, arg = done ++ data ∧ n ≤ data.length ∧ n ≤ 65535
      ∧ s.stream = Conn.given s.trace ++ done ++ data.take n
      ∧ seq = seqAt (s.iss + 1) (Conn.given s.trace ++ done).length
      ∧ ∀ o ∈ s.trace, o.failed = false
  stream : s.stream <+: s.app
  acked : 2 ≤ una → una ≤ s.stream.length + 1 → ∃ g n, .arrived g n ∈ s.trace
    ∧ g.flags &&& tAck ≠ 0 ∧ g.ack = seqAt s.iss una ∧ una ≤ n + 1 ∧ n ≤ s.stream.length
  emitted : ∀ seq data n, .emitted seq data n ∈ s.trace → data ≠ [] →
    InPlace s.iss s.stream seq data n
  sends : SendsAcknowledged s.iss s.trace

variable {iss : UInt32} {s s' : Conn} {una nxt : Nat}

theorem tcpInAck_spec {t : Tc} (ack : UInt32) (fl : UInt8) (huna : t.sndUna = seqAt iss una)
    (hnxt : t.sndNxt = seqAt iss nxt) (horder : una ≤ nxt) (hwindow : nxt < una + 2 ^ 31)
    : tcpInAck t ack fl = t
      ∨ (tcpInAck t ack fl = { t with sndUna := ack } ∧ fl &&& tAck ≠ 0
        ∧ ∃ una', ack = seqAt iss una' ∧ una < una' ∧ una' ≤ nxt) := by
  unfold tcpInAck
  split
  . next h =>
    refine .inr ⟨rfl, h.1, ?_⟩
    have hack := eq_seqAt_add iss ack una
    rw [← huna] at hack
    have hahead := signed_pos_iff.mp h.2.1
    refine ⟨_, hack, by omega, ?_⟩
    -- further than `snd_nxt` the signed difference is positive
    by_contra hlt
    have hdiff := signed_seqAt_sub iss
      (p := una + (ack - t.sndUna).toNat) (q := nxt) (by omega) (by omega)
    rw [← hack, ← hnxt] at hdiff
    have := h.2.2
    omega
  . exact .inl rfl

theorem InPlace.append {iss seq : UInt32} {stream data : Bytes} {n : Nat}
    (h : InPlace iss stream seq data n) (more : Bytes)
    : InPlace iss (stream ++ more) seq data n := by
  obtain ⟨before, after, rfl, hn, hseq⟩ := h
  exact ⟨before, after ++ more, by simp, hn, hseq⟩

/--
Observations that are no end of a `tcp_send`.
-/
def Quiet (obs : List Obs) : Prop :=
  ∀ o ∈ obs, ∀ arg ret, o ≠ .sent arg ret

section

variable {obs trace : List Obs}

theorem Quiet.given (h : Quiet obs) : Conn.given (obs ++ trace) = Conn.given trace := by
  apply Conn.collect_append
  intro o ho
  cases o with
  | sent arg ret => exact absurd rfl (h _ ho arg ret)
  | _ => rfl

theorem Quiet.not_failed (h : Quiet obs) (htrace : ∀ o ∈ trace, o.failed = false)
    : ∀ o ∈ obs ++ trace, o.failed = false := by
  intro o ho
  rw [List.mem_append] at ho
  cases ho with
  | inl ho =>
    cases o with
    | sent arg ret => exact absurd rfl (h _ ho arg ret)
    | _ => rfl
  | inr ho => exact htrace o ho

theorem Quiet.sends {iss : UInt32} (h : Quiet obs) (htrace : SendsAcknowledged iss trace)
    : SendsAcknowledged iss (obs ++ trace) := by
  induction obs with
  | nil => exact htrace
  | cons o obs ih =>
    have ih := ih (fun o ho => h o (.tail _ ho))
    cases o with
    | sent arg ret => exact absurd rfl (h _ (.head _) arg ret)
    | _ => exact ih

theorem Quiet.emission (s : Conn) (seq : UInt32) (data : Bytes) : Quiet [s.emission seq data] := by
  intro o ho arg ret heq
  rw [heq] at ho
  simp [Conn.emission] at ho

end

theorem SendInv.move (h : SendInv iss una nxt s) (call : Call) {tc : Tc} {obs : List Obs}
    (hring : tc.RingOk) (hnxt : tc.sndNxt = s.tc.sndNxt) {una' : Nat}
    (huna : tc.sndUna = seqAt s.iss una') (hle : una ≤ una') (horder : una' ≤ nxt)
    (hestab : tc.state = .estab → 1 ≤ una') (hrst : tc.rst = true → tc.state = .closed)
    (hacked : 2 ≤ una' → una' ≤ s.stream.length + 1 → ∃ g n, .arrived g n ∈ obs ++ s.trace
      ∧ g.flags &&& tAck ≠ 0 ∧ g.ack = seqAt s.iss una' ∧ una' ≤ n + 1 ∧ n ≤ s.stream.length)
    (hquiet : Quiet obs)
    (hemitted : ∀ seq data n, .emitted seq data n ∈ obs → data ≠ [] →
      InPlace s.iss s.stream seq data n)
    (hopen : call ≠ .close → call ≠ .over → s.call ≠ .close ∧ s.call ≠ .over)
    (hsyn : tc.state = .synSent → ∃ tries sent, call = .connect tries sent)
    (hconnect : ∀ tries sent, call = .connect tries sent →
      ∃ tries sent, s.call = .connect tries sent)
    (hsettled : call = .idle ∨ (∃ cap, call = .recv cap) → (∀ o ∈ s.trace, o.failed = false) →
      una = nxt ∧ s.stream = Conn.given s.trace)
    (hsending : ∀ arg data n seq tries sent, call = .send arg data n seq tries sent →
      ∃ tries sent, s.call = .send arg data n seq tries sent)
    (happ : s.stream <+: Conn.given s.trace ++ call.arg)
    : SendInv iss una' nxt { s with tc, call, trace := obs ++ s.trace } where
  iss_eq := h.iss_eq
  ring := hring
  sndUna := huna
  sndNxt := hnxt.trans h.sndNxt
  order := horder
  window := by
    have := h.window
    simp only
    omega
  numbered := h.numbered
  open_ hclose hover := by
    have := hopen hclose hover
    exact h.open_ this.1 this.2
  synSent := hsyn
  connect tries sent hcall := by
    obtain ⟨tries', sent', hcall'⟩ := hconnect tries sent hcall
    obtain ⟨hstream, hgiven, hfailed⟩ := h.connect _ _ hcall'
    exact ⟨hstream, by rw [hquiet.given, hgiven], hquiet.not_failed hfailed⟩
  estab := hestab
  rst := hrst
  settled hcall hfailed := by
    have := hsettled hcall (fun o ho => hfailed o (List.mem_append_right _ ho))
    refine ⟨by omega, ?_⟩
    rw [hquiet.given]
    exact this.2
  sending arg data n seq tries sent hcall := by
    obtain ⟨tries', sent', hcall'⟩ := hsending _ _ _ _ _ _ hcall
    obtain ⟨done, harg, hn, hmss, hstream, hseq, hfailed⟩ := h.sending _ _ _ _ _ _ hcall'
    refine ⟨done, harg, hn, hmss, ?_, ?_, hquiet.not_failed hfailed⟩
    . rw [hquiet.given]
      exact hstream
    . rw [hquiet.given]
      exact hseq
  stream := by
    unfold Conn.app
    rw [hquiet.given]
    exact happ
  acked := hacked
  emitted seq data n hmem := by
    rw [List.mem_append] at hmem
    cases hmem with
    | inl hmem => exact hemitted seq data n hmem
    | inr hmem => exact h.emitted seq data n hmem
  sends := hquiet.sends h.sends

theorem SendInv.still (h : SendInv iss una nxt s) (tc : Tc) {call : Call} (obs : List Obs)
    (hring : tc.RingOk) (huna : tc.sndUna = s.tc.sndUna) (hnxt : tc.sndNxt = s.tc.sndNxt)
    (hstate : tc.state = s.tc.state ∨ tc.state = .closed) (hrst : tc.rst = s.tc.rst)
    (hquiet : Quiet obs)
    (hemitted : ∀ seq data n, .emitted seq data n ∈ obs → data ≠ [] →
      InPlace s.iss s.stream seq data n)
    (hopen : call ≠ .close → call ≠ .over → s.call ≠ .close ∧ s.call ≠ .over)
    (hsyn : tc.state = .synSent → ∃ tries sent, call = .connect tries sent)
    (hconnect : ∀ tries sent, call = .connect tries sent →
      ∃ tries sent, s.call = .connect tries sent)
    (hsettled : call = .idle ∨ (∃ cap, call = .recv cap) → (∀ o ∈ s.trace, o.failed = false) →
      una = nxt ∧ s.stream = Conn.given s.trace)
    (hsending : ∀ arg data n seq tries sent, call = .send arg data n seq tries sent →
      ∃ tries sent, s.call = .send arg data n seq tries sent)
    (happ : s.stream <+: Conn.given s.trace ++ call.arg)
    : SendInv iss una nxt { s with tc, call, trace := obs ++ s.trace } := by
  apply h.move call hring hnxt (huna.trans h.sndUna) (Nat.le_refl _) h.order _ _ _ hquiet hemitted hopen
    hsyn hconnect hsettled hsending happ
  . intro hest
    cases hstate with
    | inl hstate =>
      rw [hstate] at hest
      exact h.estab hest
    | inr hstate =>
      rw [hstate] at hest
      cases hest
  . intro hset
    cases hstate with
    | inl hstate =>
      rw [hstate]
      rw [hrst] at hset
      exact h.rst hset
    | inr hstate => exact hstate
  . intro htwo hlt
    obtain ⟨g, n, hmem, hg⟩ := h.acked htwo hlt
    exact ⟨g, n, List.mem_append_right _ hmem, hg⟩

theorem SendInv.sendReturn (h : SendInv iss una nxt s) {arg : Bytes} {ret : Int}
    (hopen : s.call ≠ .close ∧ s.call ≠ .over) (hsyn : s.tc.state ≠ .synSent)
    (happ : s.stream <+: Conn.given s.trace ++ arg)
    (hret : ret = 0 → una = nxt ∧ s.stream = Conn.given s.trace ++ arg)
    : SendInv iss una nxt { s with call := .idle, trace := .sent arg ret :: s.trace } where
  iss_eq := h.iss_eq
  ring := h.ring
  sndUna := h.sndUna
  sndNxt := h.sndNxt
  order := h.order
  window := h.window
  numbered := h.numbered
  open_ _ _ := h.open_ hopen.1 hopen.2
  synSent hstate := absurd hstate hsyn
  connect _ _ hcall := by cases hcall
  estab := h.estab
  rst := h.rst
  settled _ hfailed := by
    have hzero := hfailed _ (.head _)
    have hret := hret (by simpa [Obs.failed] using hzero)
    refine ⟨hret.1, ?_⟩
    unfold Conn.given
    rw [Conn.collect_cons]
    exact hret.2
  sending _ _ _ _ _ _ hcall := by cases hcall
  stream := by
    unfold Conn.app Conn.given
    rw [Conn.collect_cons]
    simp only [Call.arg, List.append_nil]
    exact happ
  acked htwo hlt := by
    obtain ⟨g, n, hmem, hg⟩ := h.acked htwo hlt
    exact ⟨g, n, .tail _ hmem, hg⟩
  emitted seq data n hmem hne := by
    cases hmem with
    | tail _ hmem => exact h.emitted seq data n hmem hne
  sends := by
    refine ⟨?_, h.sends⟩
    intro hzero hne
    have hret := hret hzero
    have hnxt := h.open_ hopen.1 hopen.2
    rw [← hret.2] at hne ⊢
    have hpos := List.length_pos_iff.mpr hne
    obtain ⟨g, n, hmem, hfl, hack, hle, hn⟩ := h.acked (by omega) (by omega)
    have : n = s.stream.length := by omega
    subst this
    refine ⟨g, hmem, hfl, ?_⟩
    rw [seqAt_start, hack]
    congr 1
    omega

theorem SendInv.sendLoop (h : SendInv iss una nxt s) {arg data : Bytes} (done : Bytes)
    (hopen : s.call ≠ .close ∧ s.call ≠ .over) (hsyn : s.tc.state ≠ .synSent) (hall : una = nxt)
    (harg : arg = done ++ data) (hstream : s.stream = Conn.given s.trace ++ done)
    (hfailed : ∀ o ∈ s.trace, o.failed = false)
    : ∃ nxt', SendInv iss una nxt' (s.sendLoop arg data) := by
  have hnxt := h.open_ hopen.1 hopen.2
  unfold Conn.sendLoop
  split
  . next hnil =>
    have hdone : s.stream = Conn.given s.trace ++ arg := by
      rw [hstream, harg, hnil, List.append_nil]
    refine ⟨nxt, h.sendReturn hopen hsyn ?_ (fun _ => ⟨hall, hdone⟩)⟩
    rw [← hdone]
  . -- the next bytes get their numbers
    generalize hn : (if data.length < s.tc.mss.toNat then data.length else s.tc.mss.toNat) = n
    have hle : n ≤ data.length := by
      rw [← hn]
      split <;> omega
    have hmss : n ≤ 65535 := by
      have := s.tc.mss.toNat_lt
      rw [← hn]
      split <;> omega
    have hlen : (data.take n).length = n := by simp [hle]
    refine ⟨nxt + n, ?_⟩
    constructor
    . exact h.iss_eq
    . exact ⟨h.ring.tail, h.ring.count, h.ring.head⟩
    . exact h.sndUna
    . simp only
      rw [h.sndNxt, ← seqAt_add]
    . have := h.order
      omega
    . simp only [List.length_append, hlen]
      omega
    . simp only [List.length_append, hlen]
      omega
    . intro _ _
      simp only [List.length_append, hlen]
      omega
    . intro hstate
      exact absurd hstate hsyn
    . intro _ _ hcall
      cases hcall
    . exact h.estab
    . exact h.rst
    . intro hcall
      simp at hcall
    . intro arg' data' n' seq tries sent hcall
      cases hcall
      refine ⟨done, harg, hle, hmss, ?_, ?_, hfailed⟩
      . simp only
        rw [hstream]
      . rw [seqAt_start, h.sndNxt, hnxt, hstream]
    . unfold Conn.app
      simp only [Call.arg]
      rw [hstream, harg, List.append_assoc, List.prefix_append_right_inj,
        List.prefix_append_right_inj]
      exact List.take_prefix _ _
    . intro htwo hlt
      obtain ⟨g, k, hmem, hfl, hack, hk, hks⟩ := h.acked htwo (by omega)
      refine ⟨g, k, hmem, hfl, hack, hk, ?_⟩
      simp only [List.length_append]
      omega
    . intro seq data' n' hmem hne
      exact (h.emitted seq data' n' hmem hne).append _
    . exact h.sends

theorem DataIn.sending {t t' : Tc} {g : Seg} {fl : UInt8} (h : DataIn t g t' fl) (hring : t.RingOk)
    (seq : UInt32)
    : (tcpInFin t' g.data.length seq fl).1.RingOk
      ∧ (tcpInFin t' g.data.length seq fl).1.sndUna = t.sndUna
      ∧ (tcpInFin t' g.data.length seq fl).1.sndNxt = t.sndNxt
      ∧ ((tcpInFin t' g.data.length seq fl).1.state = .estab → t.state = .estab)
      ∧ (tcpInFin t' g.data.length seq fl).1.rst = t.rst := by
  have ht' : t'.RingOk ∧ t'.sndUna = t.sndUna ∧ t'.sndNxt = t.sndNxt ∧ t'.rst = t.rst := by
    cases h with
    | none _ => exact ⟨hring, rfl, rfl, rfl⟩
    | late _ => exact ⟨hring, rfl, rfl, rfl⟩
    | cut skip _ _ _ =>
      refine ⟨(hring.accept (by simp)).1, ?_, ?_, ?_⟩ <;> (unfold Tc.accept; rw [Tc.ringPut_eq])
    | whole skip _ _ hroom =>
      refine ⟨(hring.accept (by simpa using hroom)).1, ?_, ?_, ?_⟩ <;>
        (unfold Tc.accept; rw [Tc.ringPut_eq])
  obtain ⟨hring', huna, hnxt, hrst⟩ := ht'
  have hstate := h.state
  unfold tcpInFin
  split
  . refine ⟨⟨hring'.tail, hring'.count, hring'.head⟩, huna, hnxt, ?_, hrst⟩
    intro hest
    simp only at hest
    split at hest
    . cases hest
    . rwa [← hstate]
  . exact ⟨hring', huna, hnxt, fun hest => hstate ▸ hest, hrst⟩

theorem SendInv.sendFail (h : SendInv iss una nxt s) {arg data : Bytes} {n tries : Nat} {seq : UInt32}
    {sent : Bool} (hcall : s.call = .send arg data n seq tries sent)
    : SendInv iss una nxt (s.sendFail arg) := by
  apply h.sendReturn
  . simp [hcall]
  . intro hstate
    obtain ⟨_, _, hconnect⟩ := h.synSent hstate
    rw [hcall] at hconnect
    cases hconnect
  . have := h.stream
    unfold Conn.app at this
    rwa [hcall] at this
  . intro hzero
    exact absurd hzero (by decide)

theorem SendInv.segment (h : SendInv iss una nxt s) {src : UInt32} {p : Bytes}
    (hs : s.segment src p = some s')
    : ∃ una', SendInv iss una' nxt s' := by
  obtain ⟨_, tc, answer, hin, rfl⟩ := Conn.segment_cases hs h.ring.head_lt
  generalize segAt p 0 p.length = g at hin ⊢
  have hquiet : Quiet ((if answer then [s.emission tc.sndNxt []] else []) ++
      [.arrived g s.stream.length]) := by
    intro o ho arg ret heq
    rw [heq] at ho
    split at ho <;> simp [Conn.emission] at ho
  have hemitted : ∀ seq data n, .emitted seq data n ∈
      (if answer then [s.emission tc.sndNxt []] else []) ++ [.arrived g s.stream.length] →
      data ≠ [] → InPlace s.iss s.stream seq data n := by
    intro seq data n ho hne
    split at ho
    . simp [Conn.emission] at ho
      exact absurd ho.2.1 hne
    . simp at ho
  have harrived : .arrived g s.stream.length ∈
      (if answer then [s.emission tc.sndNxt []] else []) ++ [.arrived g s.stream.length] := by
    simp
  rw [List.append_cons]
  generalize (if answer then [s.emission tc.sndNxt []] else []) ++ [.arrived g s.stream.length] = obs
    at hquiet hemitted harrived ⊢
  -- what holds for every new `snd_una` up to `snd_nxt`
  have key : ∀ una', tc.RingOk → tc.sndNxt = s.tc.sndNxt → tc.sndUna = seqAt s.iss una' →
      una ≤ una' → una' ≤ nxt → (tc.state = .estab → 1 ≤ una') →
      (tc.rst = true → tc.state = .closed) →
      (tc.state = .synSent → s.tc.state = .synSent) →
      (una' = una ∨ g.flags &&& tAck ≠ 0 ∧ g.ack = seqAt s.iss una' ∨ una' = 1) →
      ∃ una', SendInv iss una' nxt { s with
        tc
        peer := if s.tc.state = .synSent ∧ tc.state = .estab then some g.seq else s.peer
        trace := obs ++ s.trace
      } := by
    intro una' hring hnxt huna hle horder hestab hrst hsyn hack
    have := h.move s.call hring hnxt huna hle horder hestab hrst ?_ hquiet hemitted
      (fun hclose hover => ⟨hclose, hover⟩) (fun hstate => h.synSent (hsyn hstate))
      (fun tries sent hcall => ⟨tries, sent, hcall⟩) h.settled
      (fun arg data n seq tries sent hcall => ⟨tries, sent, hcall⟩) h.stream
    . exact ⟨una', { this with }⟩
    . intro htwo hlt
      rcases hack with hsame | hack | hone
      . obtain ⟨g', n, hmem, hg⟩ := h.acked (by omega) (by omega)
        rw [hsame]
        exact ⟨g', n, List.mem_append_right _ hmem, hg⟩
      . exact ⟨g, _, List.mem_append_left _ harrived, hack.1, hack.2, by omega, Nat.le_refl _⟩
      . omega
  have hring := h.ring
  cases hin with
  | ignored => exact key una hring rfl h.sndUna (Nat.le_refl _) h.order h.estab h.rst id (.inl rfl)
  | reset =>
    exact key una ⟨hring.tail, hring.count, hring.head⟩ rfl h.sndUna (Nat.le_refl _) h.order
      (fun hstate => by cases hstate) (fun _ => rfl) (fun hstate => by cases hstate) (.inl rfl)
  | opened mss hstate hack =>
    -- only the SYN is out, and it is acknowledged
    obtain ⟨tries, sent, hcall⟩ := h.synSent hstate
    have hnxt := h.open_ (by simp [hcall]) (by simp [hcall])
    rw [(h.connect _ _ hcall).1] at hnxt
    have hone : nxt = 1 := by simpa using hnxt
    have horder := h.order
    refine key 1 ⟨hring.tail, hring.count, hring.head⟩ rfl ?_ (by omega) (by omega)
      (fun _ => Nat.le_refl _) ?_ (fun hstate => by cases hstate) (.inr (.inr rfl))
    . rw [hack, h.sndNxt, hone]
    . intro hset
      have := h.rst hset
      rw [hstate] at this
      cases this
  | @taken t' fl hstate hdata =>
    have hopen : s.tc.state ≠ .synSent := by
      cases hstate with
      | inl hst => simp [hst]
      | inr hst => simp [hst]
    have hwindow := h.window
    have hnumbered := h.numbered
    have hack := tcpInAck_spec g.ack g.flags h.sndUna h.sndNxt h.order (by omega)
    have hring' : (tcpInAck s.tc g.ack g.flags).RingOk := by
      unfold tcpInAck
      split
      . exact ⟨hring.tail, hring.count, hring.head⟩
      . exact hring
    obtain ⟨hok, huna, hnxt, hest, hrst⟩ := hdata.sending hring' g.seq
    rw [tcpInAck_state] at hest
    have hset : (tcpInAck s.tc g.ack g.flags).rst = s.tc.rst := by
      unfold tcpInAck
      split <;> rfl
    have hclosed : s.tc.rst = false := by
      cases hrst' : s.tc.rst with
      | false => rfl
      | true =>
        have := h.rst hrst'
        cases hstate with
        | inl hst => rw [hst] at this; cases this
        | inr hst => rw [hst] at this; cases this
    rw [hset, hclosed] at hrst
    have hnot : (tcpInFin t' g.data.length g.seq fl).1.rst = true →
        (tcpInFin t' g.data.length g.seq fl).1.state = .closed := by
      intro hset
      rw [hrst] at hset
      cases hset
    have hsyn : ∀ size seq fl, (tcpInFin t' size seq fl).1.state = .synSent → s.tc.state = .synSent := by
      intro size seq fl hst
      apply absurd hst
      apply tcpInFin_state_ne
      rw [hdata.state, tcpInAck_state]
      exact hopen
    rcases hack with hsame | ⟨hnew, hfl, una', hack, hlt, hle⟩
    . rw [hsame] at huna hnxt
      exact key una hok hnxt (huna.trans h.sndUna) (Nat.le_refl _) h.order
        (fun hst => h.estab (hest hst)) hnot (hsyn _ _ _) (.inl rfl)
    . rw [hnew] at huna hnxt
      exact key una' hok hnxt (huna.trans hack) (by omega) hle (fun _ => by omega) hnot (hsyn _ _ _)
        (.inr (.inl ⟨hfl, hack⟩))

theorem SendInv.other (h : SendInv iss una nxt s) (state : TcpState) {call : Call}
    (hstate : state = s.tc.state ∨ state = .closed) (hcall : s.call.arg = [] ∧ call.arg = [])
    (hopen : call ≠ .close → call ≠ .over → s.call ≠ .close ∧ s.call ≠ .over)
    (hsyn : state = .synSent → ∃ tries sent, call = .connect tries sent)
    (hconnect : ∀ tries sent, call = .connect tries sent →
      ∃ tries sent, s.call = .connect tries sent)
    (hsettled : call = .idle ∨ (∃ cap, call = .recv cap) → (∀ o ∈ s.trace, o.failed = false) →
      una = nxt ∧ s.stream = Conn.given s.trace)
    (hsending : ∀ arg data n seq tries sent, call ≠ .send arg data n seq tries sent)
    : SendInv iss una nxt { s with tc := { s.tc with state }, call } := by
  have hring : { s.tc with state }.RingOk := ⟨h.ring.tail, h.ring.count, h.ring.head⟩
  apply h.still _ [] hring rfl rfl hstate rfl (by simp [Quiet]) (by simp) hopen hsyn hconnect
    hsettled
  . intro arg data n seq tries sent hcall
    exact absurd hcall (hsending _ _ _ _ _ _)
  . have := h.stream
    unfold Conn.app at this
    rwa [hcall.1, ← hcall.2] at this

theorem SendInv.sendStep (h : SendInv iss una nxt s) {arg data : Bytes} {n tries : Nat}
    {seq : UInt32} {sent : Bool} (tries' : Nat) (sent' : Bool) (hcall : s.call = .send arg data n seq tries sent)
    (obs : List Obs) (hquiet : Quiet obs)
    (hemitted : ∀ seq data n, .emitted seq data n ∈ obs → data ≠ [] →
      InPlace s.iss s.stream seq data n)
    : SendInv iss una nxt { s with
        call := .send arg data n seq tries' sent'
        trace := obs ++ s.trace
      } := by
  apply h.still s.tc obs h.ring rfl rfl (.inl rfl) rfl hquiet hemitted (by simp [hcall])
  . intro hsyn
    obtain ⟨_, _, hconnect⟩ := h.synSent hsyn
    rw [hcall] at hconnect
    cases hconnect
  . simp
  . simp
  . intro arg' data' n' seq' tries' sent' hcall'
    cases hcall'
    exact ⟨tries, sent, hcall⟩
  . have := h.stream
    unfold Conn.app at this
    rwa [hcall] at this

theorem SendInv.tx (h : SendInv iss una nxt s) {ok : Bool} (hs : s.tx ok = some s')
    : SendInv iss una nxt s' := by
  unfold Conn.tx at hs
  split at hs
  . next tries hcall =>
    split at hs
    . cases hs
      exact h.other s.tc.state (.inl rfl) (by simp [hcall, Call.arg]) (by simp [hcall])
        (fun _ => ⟨_, _, rfl⟩) (fun _ _ _ => ⟨_, _, hcall⟩) (by simp) (by simp)
    . cases hs
      exact h.other .closed (.inr rfl) (by simp [hcall, Call.arg]) (by simp) (by simp) (by simp) (by simp)
        (by simp)
  . next arg data n seq tries hcall =>
    obtain ⟨done, harg, hn, hmss, hstream, hseq, hfailed⟩ := h.sending _ _ _ _ _ _ hcall
    have hplace : InPlace s.iss s.stream seq (data.take n) s.stream.length := by
      refine ⟨Conn.given s.trace ++ done, [], ?_, ?_, hseq⟩
      . rw [hstream, List.append_nil]
      . rw [hstream, List.length_append]
    have hemitted : ∀ seq' data' n', .emitted seq' data' n' ∈ [s.emission seq (data.take n)] →
        data' ≠ [] → InPlace s.iss s.stream seq' data' n' := by
      intro seq' data' n' hmem _
      simp only [Conn.emission, List.mem_singleton, Obs.emitted.injEq] at hmem
      rw [hmem.1, hmem.2.1, hmem.2.2]
      exact hplace
    cases hs
    split
    . exact h.sendStep tries true hcall _ (.emission s seq _) hemitted
    . have := h.sendStep tries false hcall _ (.emission s seq _) hemitted
      rw [← hcall] at this
      exact this.sendFail hcall
  . cases hs

theorem SendInv.recvReturn (h : SendInv iss una nxt s) {cap : Nat} (hcall : s.call = .recv cap) {tc : Tc}
    {call : Call} (obs : List Obs) (htc : ∃ tail count, tc = { s.tc with rtail := tail, rcount := count })
    (hring : tc.RingOk) (hnew : call = .idle ∨ call = .recv cap) (hquiet : Quiet obs)
    (hemitted : ∀ seq data n, .emitted seq data n ∈ obs → data = [])
    : SendInv iss una nxt { s with tc, call, trace := obs ++ s.trace } := by
  obtain ⟨tail, count, rfl⟩ := htc
  have hsyn : s.tc.state ≠ .synSent := by
    intro hsyn
    obtain ⟨_, _, hconnect⟩ := h.synSent hsyn
    rw [hcall] at hconnect
    cases hconnect
  have happ := h.stream
  unfold Conn.app at happ
  rw [hcall] at happ
  have hsettled := h.settled (.inr ⟨cap, hcall⟩)
  apply h.still _ obs hring rfl rfl (.inl rfl) rfl hquiet
  . intro seq data n hmem hne
    exact absurd (hemitted seq data n hmem) hne
  . intro _ _
    simp [hcall]
  . intro hsyn'
    exact absurd hsyn' hsyn
  . intro tries sent hconnect
    cases hnew with
    | inl hnew => rw [hnew] at hconnect; cases hconnect
    | inr hnew => rw [hnew] at hconnect; cases hconnect
  . intro _
    exact hsettled
  . intro arg data n seq tries sent hsend
    cases hnew with
    | inl hnew => rw [hnew] at hsend; cases hsend
    | inr hnew => rw [hnew] at hsend; cases hsend
  . cases hnew with
    | inl hnew => rw [hnew]; exact happ
    | inr hnew => rw [hnew]; exact happ

theorem SendInv.recvPoll (h : SendInv iss una nxt s) {cap : Nat} (hcall : s.call = .recv cap)
    : SendInv iss una nxt (s.recvPoll cap) := by
  unfold Conn.recvPoll
  split
  . obtain ⟨tail, count, buf, heq, hring, _, _⟩ := h.ring.drain cap
    rw [heq]
    simp only
    rw [List.append_cons]
    apply h.recvReturn hcall _ ⟨tail, count, rfl⟩ hring (.inl rfl)
    . intro o ho arg ret heq
      rw [heq] at ho
      split at ho <;> simp [Conn.emission] at ho
    . intro seq data n ho
      split at ho
      . simp [Conn.emission] at ho
        exact ho.2.1
      . simp at ho
  . split
    . exact h.recvReturn hcall [.received 0 []] ⟨_, _, rfl⟩ h.ring (.inl rfl)
        (by simp [Quiet]) (by simp)
    . split
      . exact h.recvReturn hcall [.received (-2) []] ⟨_, _, rfl⟩ h.ring (.inl rfl)
          (by simp [Quiet]) (by simp)
      . exact h

theorem SendInv.poll (h : SendInv iss una nxt s) (hs : s.poll = some s')
    : ∃ nxt', SendInv iss una nxt' s' := by
  unfold Conn.poll at hs
  split at hs
  . next tries hcall =>
    split at hs
    . next hest =>
      cases hs
      obtain ⟨hstream, hgiven, _⟩ := h.connect _ _ hcall
      have hone := h.estab hest
      have horder := h.order
      have hnxt := h.open_ (by simp [hcall]) (by simp [hcall])
      rw [hstream, List.length_nil] at hnxt
      refine ⟨nxt, h.other s.tc.state (.inl rfl) (by simp [hcall, Call.arg])
        (by simp [hcall]) ?_ (by simp) ?_ (by simp)⟩
      . rw [hest]
        simp
      . intro _ _
        exact ⟨by omega, by rw [hstream, hgiven]⟩
    . split at hs
      . cases hs
        refine ⟨nxt, h.other s.tc.state (.inl rfl) (by simp [hcall, Call.arg])
          (by simp) ?_ (by simp) (by simp) (by simp)⟩
        intro hsyn
        next hrst =>
        rw [h.rst hrst] at hsyn
        cases hsyn
      . cases hs
        exact ⟨nxt, h⟩
  . next arg data n seq tries hcall =>
    split at hs
    . cases hs
      exact ⟨nxt, h.sendFail hcall⟩
    . split at hs
      . next hacked =>
        cases hs
        obtain ⟨done, harg, hn, hmss, hstream, hseq, hfailed⟩ := h.sending _ _ _ _ _ _ hcall
        -- `snd_una` has reached `snd_nxt`
        have hwindow := h.window
        have hnumbered := h.numbered
        have horder := h.order
        have hdiff := signed_seqAt_sub s.iss (p := una) (q := nxt) (by omega) (by omega)
        rw [← h.sndUna, ← h.sndNxt] at hdiff
        apply h.sendLoop (done ++ data.take n) (by simp [hcall])
        . intro hsyn
          obtain ⟨_, _, hconnect⟩ := h.synSent hsyn
          rw [hcall] at hconnect
          cases hconnect
        . omega
        . rw [List.append_assoc, List.take_append_drop, harg]
        . rw [hstream, List.append_assoc]
        . exact hfailed
      . cases hs
        exact ⟨nxt, h⟩
  . next cap hcall =>
    cases hs
    exact ⟨nxt, h.recvPoll hcall⟩
  . next hcall =>
    split at hs
    . cases hs
      exact ⟨nxt, h.other .closed (.inr rfl) (by simp [hcall, Call.arg]) (by simp) (by simp) (by simp)
        (by simp) (by simp)⟩
    . cases hs
      exact ⟨nxt, h⟩
  . cases hs

theorem SendInv.timeout (h : SendInv iss una nxt s) (hs : s.timeout = some s')
    : SendInv iss una nxt s' := by
  unfold Conn.timeout at hs
  split at hs
  . next tries hcall =>
    split at hs
    . cases hs
      exact h.other s.tc.state (.inl rfl) (by simp [hcall, Call.arg]) (by simp [hcall])
        (fun _ => ⟨_, _, rfl⟩) (fun _ _ _ => ⟨_, _, hcall⟩) (by simp) (by simp)
    . cases hs
      exact h.other .closed (.inr rfl) (by simp [hcall, Call.arg]) (by simp) (by simp) (by simp) (by simp)
        (by simp)
  . next arg data n seq tries hcall =>
    split at hs
    . cases hs
      exact h.sendStep (tries + 1) false hcall [] (by simp [Quiet]) (by simp)
    . cases hs
      exact h.sendFail hcall
  . next cap hcall =>
    cases hs
    exact h.recvReturn hcall [.received (-1) []] ⟨_, _, rfl⟩ h.ring (.inl rfl)
      (by simp [Quiet]) (by simp)
  . next hcall =>
    cases hs
    exact h.other .closed (.inr rfl) (by simp [hcall, Call.arg]) (by simp) (by simp) (by simp) (by simp)
      (by simp)
  . cases hs

theorem not_failed_of_any {trace : List Obs} (h : ¬trace.any Obs.failed)
    : ∀ o ∈ trace, o.failed = false := by
  intro o ho
  rw [List.any_eq_true, not_exists] at h
  have := h o
  simpa [ho] using this

theorem SendInv.close (h : SendInv iss una nxt s) (hcall : s.call = .idle)
    : ∃ nxt', SendInv iss una nxt' s.close := by
  have hnxt := h.open_ (by simp [hcall]) (by simp [hcall])
  have horder := h.order
  unfold Conn.close
  split
  . next hstate =>
    have hsyn : s.tc.state ≠ .synSent := by
      cases hstate with
      | inl hstate => simp [hstate]
      | inr hstate => simp [hstate]
    have hquiet := Quiet.emission s s.tc.sndNxt []
    have happ := h.stream
    unfold Conn.app at happ
    rw [hcall] at happ
    refine ⟨nxt + 1, ?_⟩
    exact {
      iss_eq := h.iss_eq
      ring := ⟨h.ring.tail, h.ring.count, h.ring.head⟩
      sndUna := h.sndUna
      sndNxt := by rw [seqAt_succ, ← h.sndNxt]
      order := by omega
      window := h.window
      numbered := by simp only; omega
      open_ := fun hclose => absurd rfl hclose
      synSent := fun hstate => absurd hstate hsyn
      connect := fun _ _ hcall => by cases hcall
      estab := h.estab
      rst := h.rst
      settled := fun hcall => by simp at hcall
      sending := fun _ _ _ _ _ _ hcall => by cases hcall
      stream := by
        have hgiven : Conn.given (s.emission s.tc.sndNxt [] :: s.trace) = Conn.given s.trace :=
          hquiet.given
        unfold Conn.app
        simp only [hgiven]
        exact happ
      acked := fun htwo hlt => by
        obtain ⟨g, n, hmem, hg⟩ := h.acked htwo hlt
        exact ⟨g, n, .tail _ hmem, hg⟩
      emitted := fun seq data n hmem hne => by
        simp only [List.mem_cons, Conn.emission, Obs.emitted.injEq] at hmem
        cases hmem with
        | inl hmem => exact absurd hmem.2.1 hne
        | inr hmem => exact h.emitted seq data n hmem hne
      sends := hquiet.sends h.sends
    }
  . exact ⟨nxt, h.other .closed (.inr rfl) (by simp [hcall, Call.arg]) (by simp) (by simp) (by simp)
      (by simp) (by simp)⟩

theorem SendInv.step {e : ConnEvent} (h : SendInv iss una nxt s) (hs : Conn.Step e s s')
    : ∃ una' nxt', SendInv iss una' nxt' s' := by
  cases e with
  | segment src p =>
    obtain ⟨una', h'⟩ := h.segment hs
    exact ⟨una', nxt, h'⟩
  | tx ok => exact ⟨una, nxt, h.tx hs⟩
  | poll => exact ⟨una, h.poll hs⟩
  | timeout => exact ⟨una, nxt, h.timeout hs⟩
  | send data =>
    simp only [Conn.Step, Conn.next] at hs
    split at hs
    . next hcall =>
      split at hs
      . cases hs
      . next hany =>
        cases hs
        have hfailed := not_failed_of_any hany
        have hsettled := h.settled (.inl hcall) hfailed
        refine ⟨una, h.sendLoop [] (by simp [hcall]) ?_ hsettled.1 rfl ?_ hfailed⟩
        . intro hsyn
          obtain ⟨_, _, hconnect⟩ := h.synSent hsyn
          rw [hcall] at hconnect
          cases hconnect
        . rw [hsettled.2, List.append_nil]
    . cases hs
  | recv cap =>
    simp only [Conn.Step, Conn.next] at hs
    split at hs
    . next hcall =>
      split at hs
      . cases hs
        exact ⟨una, nxt, h.other s.tc.state (.inl rfl) (by simp [hcall, Call.arg])
          (by simp [hcall]) (fun hsyn => by
            obtain ⟨_, _, hconnect⟩ := h.synSent hsyn
            rw [hcall] at hconnect
            cases hconnect) (by simp) (fun _ => h.settled (.inl hcall)) (by simp)⟩
      . cases hs
    . cases hs
  | close =>
    simp only [Conn.Step, Conn.next] at hs
    split at hs
    . next hcall =>
      cases hs
      exact ⟨una, h.close hcall⟩
    . cases hs

theorem SendInv.start (rip : UInt32) (rport lport : UInt16) (iss : UInt32)
    : SendInv iss 0 1 (Conn.start rip rport lport iss) where
  iss_eq := rfl
  ring := ⟨tRing_pos, Nat.zero_le _, rfl⟩
  sndUna := seqAt_zero.symm
  sndNxt := rfl
  order := by decide
  window := by simp [Conn.start]
  numbered := ⟨Nat.le_refl _, Nat.le_succ _⟩
  open_ _ _ := rfl
  synSent _ := ⟨_, _, rfl⟩
  connect _ _ _ := ⟨rfl, rfl, by simp [Conn.start]⟩
  estab h := by cases h
  rst h := by cases h
  settled h := by simp [Conn.start] at h
  sending _ _ _ _ _ _ h := by cases h
  stream := List.nil_prefix
  acked h := by omega
  emitted _ _ _ h := by cases h
  sends := trivial

theorem SendInv.of_run {rip : UInt32} {rport lport : UInt16}
    (h : Run Conn.Step (fun _ _ => True) (Conn.start rip rport lport iss) s)
    : ∃ una nxt, SendInv iss una nxt s := by
  apply h.keeps (I := fun s => ∃ una nxt, SendInv iss una nxt s)
  . intro s e s' _ hinv hs
    obtain ⟨una, nxt, hinv⟩ := hinv
    exact hinv.step hs
  . exact ⟨0, 1, .start rip rport lport iss⟩

/--
Whatever segments arrive: `snd_una` stays between the initial number and `snd_nxt`, every data
segment carries the bytes of the application that belong at its sequence number, and each
`tcp_send` that returns 0 does so only when the peer has acknowledged all bytes sent until then.
-/
theorem sent_stream {rip : UInt32} {rport lport : UInt16}
    (h : Run Conn.Step (fun _ _ => True) (Conn.start rip rport lport iss) s)
    : (∃ una nxt, s.tc.sndUna = iss + .ofNat una ∧ s.tc.sndNxt = iss + .ofNat nxt
        ∧ una ≤ nxt ∧ nxt < una + 2 ^ 31
        ∧ s.stream.length + 1 ≤ nxt ∧ nxt ≤ s.stream.length + 2)
      ∧ s.stream <+: s.app
      ∧ (∀ seq data n, .emitted seq data n ∈ s.trace → data ≠ [] → InPlace iss s.app seq data n)
      ∧ SendsAcknowledged iss s.trace := by
  obtain ⟨una, nxt, hinv⟩ := SendInv.of_run h
  obtain ⟨more, happ⟩ := hinv.stream
  have hwindow := hinv.window
  have hnumbered := hinv.numbered
  have hsends := hinv.sends
  have hemitted := hinv.emitted
  have huna := hinv.sndUna
  have hnxt := hinv.sndNxt
  rw [hinv.iss_eq] at hsends hemitted huna hnxt
  refine ⟨⟨una, nxt, huna, hnxt, hinv.order, by omega, hinv.numbered⟩, hinv.stream, ?_, hsends⟩
  intro seq data n hmem hne
  rw [← happ]
  exact (hemitted seq data n hmem hne).append more

def ackEvents : List ConnEvent :=
  [.tx true, .segment 7 (headerTo 9 101 0x12), .poll, .send [104, 105], .tx true,
    .segment 7 (headerTo 10 103 0x10), .poll]

def ackConn : Conn :=
  ackEvents.foldl (after Conn.next) (Conn.start 7 80 50000 100)

/--
`hi` is sent from the number 101 on, the peer acknowledges 103 and `tcp_send` returns 0.
-/
theorem sent_stream_hi
    : (ackConn.trace.any fun o => match o with | .sent arg ret => arg = [104, 105] ∧ ret = 0 | _ => false)
      ∧ SendsAcknowledged 100 ackConn.trace := by
  have hrun : Run Conn.Step (fun _ _ => True) (Conn.start 7 80 50000 100) ackConn := by
    apply Run.of_possible .refl
    exact ⟨rfl, trivial, rfl, trivial, rfl, trivial, rfl, trivial, rfl, trivial, rfl, trivial,
      rfl, trivial, trivial⟩
  exact ⟨rfl, (sent_stream hrun).2.2.2⟩

end TanjaOS
