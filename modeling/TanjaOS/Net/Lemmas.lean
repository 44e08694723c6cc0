import TanjaOS.Net.Stack
import TanjaOS.Net.Tcp.Receive

/-!
What each function of the stack does with a frame: it never faults, and it sends something only for
the frames that are described here.
-/

open Lib Lib.Checked

namespace TanjaOS

namespace Net

/--
The length of the IP header of a frame, and the total length that is in it.
-/
def ihl (b : Bytes) : Nat :=
  (b.getD 14 0 &&& 0x0F).toNat * 4

def tot (b : Bytes) : Nat :=
  (word16 b 16).toNat

/--
The frame holds an IPv4 packet that `ip_in` passes on.
-/
structure Passes (s : Net) (b : Bytes) : Prop where
  long : 34 ≤ b.length
  type : word16 b 12 = 0x0800
  version : b.getD 14 0 >>> 4 = 4
  lengths : 20 ≤ ihl b ∧ ihl b ≤ tot b ∧ tot b ≤ b.length - 14
  whole : word16 b 20 &&& 0x3FFF = 0
  dst : s.cfg.ip ≠ 0 → word32 b 30 = s.cfg.ip ∨ word32 b 30 = 0xFFFFFFFF

/--
The frame holds a segment that `tcp_in` answers.
-/
structure TcpFrame (s : Net) (b : Bytes) : Prop where
  passes : s.Passes b
  proto : b.getD 23 0 = 6
  answers : TcpAnswers s.tc (word32 b 26) b (14 + ihl b) (tot b - ihl b)

/--
The frame holds an echo request that `icmp_in` answers.
-/
structure EchoFrame (s : Net) (b : Bytes) : Prop where
  passes : s.Passes b
  proto : b.getD 23 0 = 1
  length : 8 ≤ tot b - ihl b ∧ tot b - ihl b ≤ 1480
  type : b.getD (14 + ihl b) 0 = 8
  addr : s.cfg.ip ≠ 0

structure Ok (s : Net) : Prop where
  arpNext : s.arpNext < 8
  ring : s.tc.RingOk
  buf : s.us.buf.length ≤ 600

structure Same (s s' : Net) : Prop where
  mac : s'.mac = s.mac
  cfg : s'.cfg = s.cfg
  seg : s'.seg = s.seg
  reply : s'.reply = s.reply
  datagram : s'.datagram = s.datagram

end Net

/--
`ip_send` gets a packet whose own checksum is right for the address `ip` of this host.
-/
structure Out.Ok (ip : UInt32) (o : Out) : Prop where
  len : o.built.length = o.len
  short : o.len ≤ 1480
  tcp : o.proto = 6 → CsumOk (be32 ip ++ be32 o.dst ++ [0, 6] ++ be16 (.ofNat o.len) ++ o.built)
  icmp : o.proto = 1 → CsumOk o.built

/--
What `ip_send` would read is what it has been given.
-/
def Out.Intact (s : Net) (o : Out) : Prop :=
  s.read o.data o.len = .ok o.built

/--
`s'` is `s` after `o` has been built in its buffer.
-/
structure Net.Handed (s s' : Net) (o : Out) : Prop where
  ok : o.Ok s'.cfg.ip
  intact : o.Intact s'
  mac : s'.mac = s.mac
  cfg : s'.cfg = s.cfg
  seg : o.data ≠ .seg → s'.seg = s.seg
  reply : o.data ≠ .reply → s'.reply = s.reply
  datagram : o.data ≠ .datagram → s'.datagram = s.datagram

inductive FrameIn (s : Net) (b : Bytes) (s' : Net) : Action → Prop where
  | none (h : s.Same s') : FrameIn s b s' .none
  | arp (h : s.Same s') (f : Bytes) : FrameIn s b s' (.frame f)
  | echo (hframe : s.EchoFrame b) {o : Out} (hdata : o.data = .reply) (h : s.Handed s' o)
    : FrameIn s b s' (.send o)
  | tcp (hframe : s.TcpFrame b) {o : Out} (hdata : o.data = .seg) (h : s.Handed s' o)
    : FrameIn s b s' (.send o)

variable {s s' : Net} {b : Bytes}

theorem csumAdd_eq (sum : Nat) (bs : Bytes) : csumAdd sum bs = sum + wordSum bs := by
  induction sum, bs using csumAdd.induct with
  | case1 sum => simp [csumAdd, wordSum]
  | case2 sum x => simp [csumAdd, wordSum]
  | case3 sum x y bs ih =>
    rw [csumAdd, ih, wordSum]
    omega

theorem csumFold_spec {fuel sum : Nat} (h : sum ≤ fuel)
    : csumFold fuel sum < 65536 ∧ csumFold fuel sum % 65535 = sum % 65535
      ∧ csumFold fuel sum ≤ sum := by
  induction fuel generalizing sum with
  | zero =>
    have : sum = 0 := by omega
    subst this
    decide
  | succ fuel ih =>
    unfold csumFold
    split
    . next hbig =>
      have := @ih (sum % 65536 + sum / 65536) (by omega)
      omega
    . omega

theorem csumFin_spec (sum : Nat)
    : 0 < sum + (csumFin sum).toNat ∧ 65535 ∣ sum + (csumFin sum).toNat := by
  have hfold := csumFold_spec (Nat.le_refl sum)
  have hfin : (csumFin sum).toNat = 65535 - csumFold sum sum := by
    unfold csumFin
    rw [UInt16.toNat_not, UInt16.toNat_ofNat']
    have : UInt16.size = 65536 := rfl
    omega
  rw [hfin]
  obtain ⟨hlt, hmod, hle⟩ := hfold
  constructor
  . omega
  . omega

theorem csumOk_csumFin (pre bs : Bytes) {i : Nat} (hpre : pre.length % 2 = 0) (heven : i % 2 = 0)
    (h : i + 2 ≤ bs.length)
    : CsumOk (pre ++ put16 bs i (csumFin (csumAdd (csumAdd 0 pre) (put16 bs i 0)))) := by
  have hsum : csumAdd (csumAdd 0 pre) (put16 bs i 0) = wordSum (pre ++ put16 bs i 0) := by
    rw [csumAdd_eq, csumAdd_eq, wordSum_append hpre]
    omega
  rw [hsum]
  have := csumFin_spec (wordSum (pre ++ put16 bs i 0))
  exact csumOk_put16 hpre heven h this.1 this.2

theorem Net.Same.refl (s : Net) : s.Same s :=
  ⟨rfl, rfl, rfl, rfl, rfl⟩

theorem Net.Ok.boot (mac : Octets 6) : (Net.boot mac).Ok :=
  ⟨Nat.zero_lt_succ 7, ⟨tRing_pos, Nat.zero_le _, rfl⟩, Nat.zero_le _⟩

theorem yields_ethSend (dst : Octets 6) (type : UInt16) (payload : Bytes)
    (h : payload.length ≤ 1500)
    : (s.ethSend dst type payload).Yields (fun f =>
        f = some (dst.1 ++ s.mac.1 ++ be16 type ++ payload)) := by
  unfold Net.ethSend
  rw [if_neg (by omega)]
  apply yields_bind (yields_store (by omega))
  intro _ _
  apply yields_bind (yields_store (by omega))
  intro _ _
  exact yields_pure rfl

@[simp]
theorem length_arpPacket (op : UInt16) (tmac : Option (Octets 6)) (tip : UInt32)
    : (s.arpPacket op tmac tip).length = 28 := by
  have hmac := s.mac.2
  have hip := length_be32 s.cfg.ip
  have htip := length_be32 tip
  cases tmac with
  | none => simp [Net.arpPacket, hmac, hip, htip]
  | some mac => simp [Net.arpPacket, hmac, hip, htip, mac.2]

theorem yields_arpSend {op : UInt16} {tmac : Option (Octets 6)} (tip : UInt32)
    (h : op = 1 ∨ tmac.isSome)
    : (s.arpSend op tmac tip).Yields (fun f => f.isSome) := by
  have hlen : (s.arpPacket op tmac tip).length ≤ 1500 := by simp
  unfold Net.arpSend
  apply yields_ite
  . intro _
    exact (yields_ethSend _ _ _ hlen).mono (fun f hf => by simp [hf])
  . intro hop
    cases tmac with
    | none => simp [hop] at h
    | some mac => exact (yields_ethSend _ _ _ hlen).mono (fun f hf => by simp [hf])

theorem yields_arpLearn (hs : s.Ok) (ip : UInt32) (mac : Octets 6)
    : (s.arpLearn ip mac).Yields (fun s' => s'.Ok ∧ s.Same s') := by
  unfold Net.arpLearn
  split
  . exact yields_pure ⟨⟨hs.arpNext, hs.ring, hs.buf⟩, ⟨rfl, rfl, rfl, rfl, rfl⟩⟩
  . have := hs.arpNext
    apply yields_bind (yields_store (by omega))
    intro _ _
    apply yields_pure
    exact ⟨⟨Nat.mod_lt _ (by decide), hs.ring, hs.buf⟩, ⟨rfl, rfl, rfl, rfl, rfl⟩⟩

theorem yields_arpIn {p len : Nat} (hs : s.Ok) (hlen : p + len ≤ b.length)
    : (s.arpIn b p len).Yields (fun r => r.1.Ok ∧ FrameIn s b r.1 r.2) := by
  have quiet : s.Ok ∧ FrameIn s b s .none := ⟨hs, .none (.refl s)⟩
  unfold Net.arpIn
  apply yields_ite
  . intro _
    exact yields_pure quiet
  . intro h
    apply yields_bind (yields_load16 (by omega))
    intro hw _
    apply yields_bind (yields_load16 (by omega))
    intro proto _
    apply yields_ite
    . intro _
      exact yields_pure quiet
    . intro _
      apply yields_bind (yields_load16 (by omega))
      intro op _
      apply yields_bind (yields_load32 (by omega))
      intro sip _
      apply yields_bind (yields_load32 (by omega))
      intro tip _
      apply yields_bind (yields_load (by omega))
      intro smac _
      have hlearn : (if sip ≠ 0 then s.arpLearn sip smac else pure s).Yields
          (fun s' => s'.Ok ∧ s.Same s') := by
        apply yields_ite
        . intro _
          exact yields_arpLearn hs sip smac
        . intro _
          exact yields_pure ⟨hs, .refl s⟩
      apply yields_bind hlearn
      intro s' hs'
      apply yields_ite
      . intro _
        apply yields_bind (yields_arpSend sip (.inr rfl))
        intro f hf
        cases f with
        | none => cases hf
        | some f => exact yields_pure ⟨hs'.1, .arp hs'.2 f⟩
      . intro _
        exact yields_pure ⟨hs'.1, .none hs'.2⟩

theorem read_built (m : Mem) {bs : Bytes} {n : Nat} (hlen : bs.length = n) (hn : n ≤ 1480)
    : (if n ≤ 1480 then return (m.writeBytes 0 bs).readBytes 0 n else throw .load : Checked Bytes)
        = .ok bs := by
  rw [if_pos hn, ← hlen, Mem.readBytes_writeBytes_same]
  rfl

theorem length_echoReply (req : Bytes) (h : 4 ≤ req.length)
    : (Net.echoReply req).length = req.length := by
  have hlen : (put16 (req.set 0 0) 2 0).length = req.length := by
    rw [length_put16]
    . simp
    . simp
      omega
  unfold Net.echoReply
  rw [length_put16, hlen]
  omega

theorem csumOk_echoReply {req : Bytes} (h : 4 ≤ req.length) : CsumOk (Net.echoReply req) := by
  have hlen : 2 + 2 ≤ (put16 (req.set 0 0) 2 0).length := by
    rw [length_put16]
    . simp
      omega
    . simp
      omega
  have := csumOk_csumFin [] (put16 (req.set 0 0) 2 0) (i := 2) rfl rfl hlen
  rw [put16_put16 0 0 (by simp; omega)] at this
  exact this

theorem yields_icmpIn {p len : Nat} (src : UInt32) (hs : s.Ok) (hlen : p + len ≤ b.length)
    (hecho : 8 ≤ len → len ≤ 1480 → b.getD p 0 = 8 → s.cfg.ip ≠ 0 → s.EchoFrame b)
    : (s.icmpIn src b p len).Yields (fun r => r.1.Ok ∧ FrameIn s b r.1 r.2) := by
  have quiet : s.Ok ∧ FrameIn s b s .none := ⟨hs, .none (.refl s)⟩
  unfold Net.icmpIn
  apply yields_ite
  . intro _
    exact yields_pure quiet
  . intro h8
    apply yields_bind (yields_load8 (by omega))
    intro type htype
    apply yields_ite
    . intro hreq
      apply yields_ite
      . intro _
        exact yields_pure quiet
      . intro h1480
        apply yields_bind (yields_load (by omega))
        intro req _
        apply yields_bind (yields_store (by omega))
        intro _ _
        apply yields_pure
        have hlen := length_echoReply req.1 (by rw [req.2]; omega)
        rw [req.2] at hlen
        refine ⟨⟨hs.arpNext, hs.ring, hs.buf⟩, ?_⟩
        apply FrameIn.echo
        . exact hecho (by omega) (by omega) (by rw [← htype]; exact hreq.1) hreq.2
        . rfl
        . constructor
          . constructor
            . exact hlen
            . simp only
              omega
            . intro h
              cases h
            . intro _
              exact csumOk_echoReply (by rw [req.2]; omega)
          . exact read_built _ hlen (show len ≤ 1480 by omega)
          . rfl
          . rfl
          . intro _
            rfl
          . intro h
            exact absurd rfl h
          . intro _
            rfl
    . intro _
      apply yields_ite
      . intro _
        apply yields_bind (yields_load16 (by omega))
        intro id _
        apply yields_bind (yields_load16 (by omega))
        intro seq _
        apply yields_ite
        . intro _
          apply yields_pure
          exact ⟨⟨hs.arpNext, hs.ring, hs.buf⟩, .none ⟨rfl, rfl, rfl, rfl, rfl⟩⟩
        . intro _
          exact yields_pure quiet
      . intro _
        exact yields_pure quiet

theorem yields_udpIn {p len : Nat} (src : UInt32) (hs : s.Ok) (hlen : p + len ≤ b.length)
    : (s.udpIn src b p len).Yields (fun r => r.1.Ok ∧ FrameIn s b r.1 r.2) := by
  have quiet : s.Ok ∧ FrameIn s b s .none := ⟨hs, .none (.refl s)⟩
  unfold Net.udpIn
  apply yields_ite
  . intro _
    exact yields_pure quiet
  . intro h
    rw [not_or] at h
    apply yields_bind (yields_load16 (by omega))
    intro dport _
    apply yields_ite
    . intro _
      exact yields_pure quiet
    . intro _
      apply yields_bind (yields_load16 (by omega))
      intro n _
      apply yields_ite
      . intro _
        exact yields_pure quiet
      . intro hn
        rw [not_or] at hn
        have hcap : (if 600 < n.toNat - 8 then 600 else n.toNat - 8) ≤ 600
            ∧ (if 600 < n.toNat - 8 then 600 else n.toNat - 8) ≤ n.toNat - 8 := by
          split <;> omega
        apply yields_bind (yields_load (by omega))
        intro buf _
        apply yields_bind (yields_store (by omega))
        intro _ _
        apply yields_bind (yields_load16 (by omega))
        intro sport _
        apply yields_pure
        refine ⟨⟨hs.arpNext, hs.ring, ?_⟩, .none ⟨rfl, rfl, rfl, rfl, rfl⟩⟩
        simp only [buf.2]
        exact hcap.1

theorem length_tcpHeader (seq : UInt32) (flags : UInt8) (mssOpt : Bool)
    : (s.tcpHeader seq flags mssOpt).length = if mssOpt then 24 else 20 := by
  cases mssOpt <;> rfl

theorem length_tcpSegment (seq : UInt32) (flags : UInt8) (data : Bytes) (mssOpt : Bool)
    : (s.tcpSegment seq flags data mssOpt).length = (if mssOpt then 24 else 20) + data.length := by
  have := length_tcpHeader (s := s) seq flags mssOpt
  unfold Net.tcpSegment
  rw [length_put16, List.length_append, this]
  rw [List.length_append, this]
  split <;> omega

theorem csumOk_tcpSegment (seq : UInt32) (flags : UInt8) (data : Bytes) (mssOpt : Bool)
    : CsumOk (be32 s.cfg.ip ++ be32 s.tc.rip ++ [0, 6]
        ++ be16 (.ofNat (s.tcpSegment seq flags data mssOpt).length)
        ++ s.tcpSegment seq flags data mssOpt) := by
  have hlen := length_tcpHeader (s := s) seq flags mssOpt
  have hseg : 16 + 2 ≤ (s.tcpHeader seq flags mssOpt ++ data).length := by
    rw [List.length_append, hlen]
    split <;> omega
  have hzero : put16 (s.tcpHeader seq flags mssOpt ++ data) 16 0
      = s.tcpHeader seq flags mssOpt ++ data := by
    cases mssOpt <;> rfl
  have hsame : (s.tcpSegment seq flags data mssOpt).length
      = (s.tcpHeader seq flags mssOpt ++ data).length := by
    unfold Net.tcpSegment
    rw [length_put16 _ hseg]
  rw [hsame]
  have := csumOk_csumFin (be32 s.cfg.ip ++ be32 s.tc.rip ++ [0, 6]
    ++ be16 (.ofNat (s.tcpHeader seq flags mssOpt ++ data).length))
    (s.tcpHeader seq flags mssOpt ++ data) (i := 16) (by simp) rfl hseg
  rw [hzero] at this
  exact this

/--
What one of the functions that build a packet hands to `ip_send`, if the packet is short enough.
-/
def Net.Hands (s : Net) (data : Source → Prop) (r : Net × Action) : Prop :=
  r.1.Ok ∧ r.1.tc = s.tc ∧ (r = (s, .none) ∨ ∃ o, r.2 = .send o ∧ data o.data ∧ s.Handed r.1 o)

theorem yields_tcpTx (hs : s.Ok) (seq : UInt32) (flags : UInt8) (data : Bytes) (mssOpt : Bool)
    : (s.tcpTx seq flags data mssOpt).Yields (s.Hands (· = .seg)) := by
  have hlen := length_tcpSegment (s := s) seq flags data mssOpt
  unfold Net.tcpTx
  apply yields_ite
  . intro _
    exact yields_pure ⟨hs, rfl, .inl rfl⟩
  . intro hshort
    apply yields_bind (yields_store (by omega))
    intro _ _
    apply yields_pure
    refine ⟨⟨hs.arpNext, hs.ring, hs.buf⟩, rfl, .inr ⟨_, rfl, rfl, ?_⟩⟩
    constructor
    . constructor
      . exact hlen
      . simp only
        omega
      . intro _
        simp only
        rw [← hlen]
        exact csumOk_tcpSegment seq flags data mssOpt
      . intro h
        cases h
    . exact read_built _ hlen (Nat.le_of_not_lt hshort)
    . rfl
    . rfl
    . intro h
      exact absurd rfl h
    . intro _
      rfl
    . intro _
      rfl

theorem yields_udpSend (hs : s.Ok) (dst : UInt32) (sport dport : UInt16) (data : Bytes)
    : (s.udpSend dst sport dport data).Yields (s.Hands (· = .datagram)) := by
  unfold Net.udpSend
  apply yields_ite
  . intro _
    exact yields_pure ⟨hs, rfl, .inl rfl⟩
  . intro hshort
    have hlen : (be16 sport ++ be16 dport ++ be16 (.ofNat (8 + data.length)) ++ be16 0
        ++ data).length = 8 + data.length := by
      simp
      omega
    apply yields_bind (yields_store (by omega))
    intro _ _
    apply yields_pure
    refine ⟨⟨hs.arpNext, hs.ring, hs.buf⟩, rfl, .inr ⟨_, rfl, rfl, ?_⟩⟩
    constructor
    . constructor
      . exact hlen
      . simp only
        omega
      . intro h
        cases h
      . intro h
        cases h
    . exact read_built _ hlen (show 8 + data.length ≤ 1480 by omega)
    . rfl
    . rfl
    . intro _
      rfl
    . intro _
      rfl
    . intro h
      exact absurd rfl h

theorem hands_ping (hs : s.Ok) (ip : UInt32)
    : s.Hands (· = .own (Net.echoRequest (s.pingSeq + 1))) (s.ping ip) := by
  have hcsum : CsumOk (Net.echoRequest (s.pingSeq + 1)) := by
    have := csumOk_csumFin [] ([8, 0] ++ be16 0 ++ be16 0x544A ++ be16 (s.pingSeq + 1)
      ++ (List.range 32).map (fun i => UInt8.ofNat (97 + (i + 8) % 23))) (i := 2) rfl rfl (by simp)
    exact this
  refine ⟨⟨hs.arpNext, hs.ring, hs.buf⟩, rfl, .inr ⟨_, rfl, rfl, ?_⟩⟩
  constructor
  . constructor
    . rfl
    . simp only
      omega
    . intro h
      cases h
    . intro _
      exact hcsum
  . rfl
  . rfl
  . rfl
  . intro _
    rfl
  . intro _
    rfl
  . intro _
    rfl

theorem TcpIn.ringOk {t t' : Tc} {g : Seg} {answer : Bool} (h : TcpIn t g t' answer)
    (hring : t.RingOk)
    : t'.RingOk := by
  cases h with
  | ignored => exact hring
  | reset => exact ⟨hring.tail, hring.count, hring.head⟩
  | opened mss _ _ => exact ⟨hring.tail, hring.count, hring.head⟩
  | @taken t'' fl _ hdata =>
    have hack : (tcpInAck t g.ack g.flags).RingOk := by
      unfold tcpInAck
      split
      . exact ⟨hring.tail, hring.count, hring.head⟩
      . exact hring
    have hdata : t''.RingOk := by
      cases hdata with
      | none _ => exact hack
      | late _ => exact hack
      | cut skip hskip _ hroom =>
        apply (hack.accept _).1
        simp
      | whole skip hskip _ hroom =>
        apply (hack.accept _).1
        rw [List.length_drop]
        exact hroom
    unfold tcpInFin
    split
    . exact ⟨hdata.tail, hdata.count, hdata.head⟩
    . exact hdata

theorem yields_ipIn (hs : s.Ok) (hlong : 14 ≤ b.length) (htype : word16 b 12 = 0x0800)
    (hlen : b.length ≤ 2048)
    : (s.ipIn b 14 (b.length - 14)).Yields (fun r => r.1.Ok ∧ FrameIn s b r.1 r.2) := by
  have quiet : s.Ok ∧ FrameIn s b s .none := ⟨hs, .none (.refl s)⟩
  unfold Net.ipIn
  apply yields_ite
  . intro _
    exact yields_pure quiet
  . intro h20
    apply yields_bind (yields_load8 (by omega))
    intro vihl hvihl
    apply yields_ite
    . intro _
      exact yields_pure quiet
    . intro hversion
      apply yields_bind (yields_load16 (by omega))
      intro tot htot
      apply yields_ite
      . intro _
        exact yields_pure quiet
      . intro hlens
        apply yields_bind (yields_load16 (by omega))
        intro frag hfrag
        apply yields_ite
        . intro _
          exact yields_pure quiet
        . intro hwhole
          apply yields_bind (yields_load32 (by omega))
          intro src hsrc
          apply yields_bind (yields_load32 (by omega))
          intro dst hdst
          apply yields_ite
          . intro _
            exact yields_pure quiet
          . intro haddr
            have hihl : Net.ihl b = (vihl &&& 0x0F).toNat * 4 := by rw [hvihl]; rfl
            have htot' : Net.tot b = tot.toNat := by rw [htot]; rfl
            have hpasses : s.Passes b := by
              constructor
              . omega
              . exact htype
              . rw [← hvihl]
                exact not_not.mp hversion
              . rw [hihl, htot']
                omega
              . rw [← hfrag]
                exact not_not.mp hwhole
              . intro hip
                rw [← hdst]
                by_cases hown : dst = s.cfg.ip
                . exact .inl hown
                . exact .inr (not_not.mp (fun hb => haddr ⟨hip, hown, hb⟩))
            have hend : 14 + (vihl &&& 0x0F).toNat * 4 + (tot.toNat - (vihl &&& 0x0F).toNat * 4)
                ≤ b.length := by
              omega
            apply yields_bind (yields_load8 (by omega))
            intro proto hproto
            apply yields_ite
            . intro hicmp
              apply yields_icmpIn src hs hend
              intro h8 h1480 hreq hip
              constructor
              . exact hpasses
              . rw [← hproto]
                exact hicmp
              . rw [hihl, htot']
                exact ⟨h8, h1480⟩
              . rw [hihl]
                exact hreq
              . exact hip
            . intro _
              apply yields_ite
              . intro htcp
                apply yields_bind (yields_tcpIn src hend (by omega) hs.ring.head_lt)
                intro r hr
                have hok : { s with tc := r.1 }.Ok := ⟨hs.arpNext, hr.1.ringOk hs.ring, hs.buf⟩
                apply yields_ite
                . intro hanswer
                  apply (yields_tcpTx hok r.1.sndNxt tAck [] false).mono
                  intro r' hr'
                  refine ⟨hr'.1, ?_⟩
                  obtain heq | ⟨o, hsend, hdata, hhanded⟩ := hr'.2.2
                  . rw [heq]
                    exact .none ⟨rfl, rfl, rfl, rfl, rfl⟩
                  . rw [hsend]
                    apply FrameIn.tcp _ hdata
                    . exact ⟨hhanded.ok, hhanded.intact, hhanded.mac, hhanded.cfg, hhanded.seg,
                        hhanded.reply, hhanded.datagram⟩
                    . refine ⟨hpasses, by rw [← hproto]; exact htcp, ?_⟩
                      rw [hihl, htot', ← hsrc]
                      exact hr.2.mp hanswer
                . intro _
                  exact yields_pure ⟨hok, .none ⟨rfl, rfl, rfl, rfl, rfl⟩⟩
              . intro _
                apply yields_ite
                . intro _
                  exact yields_udpIn src hs hend
                . intro _
                  exact yields_pure quiet

theorem yields_frameIn (hs : s.Ok) (hlen : b.length ≤ 2048)
    : (s.frameIn b).Yields (fun r => r.1.Ok ∧ FrameIn s b r.1 r.2) := by
  have quiet : s.Ok ∧ FrameIn s b s .none := ⟨hs, .none (.refl s)⟩
  unfold Net.frameIn
  apply yields_ite
  . intro _
    exact yields_pure quiet
  . intro h14
    apply yields_bind (yields_load16 (by omega))
    intro type htype
    apply yields_ite
    . intro _
      exact yields_arpIn hs (by omega)
    . intro _
      apply yields_ite
      . intro hip
        exact yields_ipIn hs (by omega) (by rw [← htype]; exact hip) hlen
      . intro _
        exact yields_pure quiet

end TanjaOS
