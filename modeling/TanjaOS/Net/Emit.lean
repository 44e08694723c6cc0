import TanjaOS.Net.Step

/-!
The frames that the stack hands to the card. `ip_send` reads its argument only after `arp_resolve`,
and the argument is a static buffer of the caller: a frame that makes the same caller build another
packet in the meantime changes what is sent. As long as none does, every frame is well formed, and
`net_poll_inner` is not nested deeper than three times.
-/

open Lib Lib.Checked

namespace TanjaOS

/--
The frame `f` is a correct IPv4 packet and carries what `o` was built as. The sums are those that
its receiver computes, over the header, over the pseudo header and the segment, and over the message.
-/
structure IpFrame (f : Bytes) (o : Out) : Prop where
  length : f.length = 34 + o.built.length
  total : (word16 f 16).toNat = 20 + o.built.length
  header : CsumOk ((f.drop 14).take 20)
  proto : f.getD 23 0 = o.proto
  carries : f.drop 34 = o.built
  tcp : o.proto = 6 →
    CsumOk ((f.drop 26).take 8 ++ [0, 6] ++ be16 (.ofNat (f.length - 34)) ++ f.drop 34)
  icmp : o.proto = 1 → CsumOk (f.drop 34)

namespace Stack

/--
A packet that has been built in `data` waits for its next hop.
-/
def Waits (s : Stack) (data : Source) : Prop :=
  ∃ hop tries o, .resolve hop tries o ∈ s.ctl ∧ o.data = data

/--
No segment is answered while another one waits, and no echo request while another reply does.
-/
def Orderly (s : Stack) : StackEvent → Prop
  | .frame b => (s.Waits .seg → ¬s.net.TcpFrame b) ∧ (s.Waits .reply → ¬s.net.EchoFrame b)
  | _ => True

end Stack

/--
How `net_poll_inner` and `ip_send` are nested when no buffer is in use twice: they alternate, and
only the call of `ip_send` at the bottom can be one that no handler has made.
-/
inductive Nest : List Ctl → Prop where
  | nil : Nest []
  | poll {ctl : List Ctl} (budget : Nat) (h : Nest ctl) (htop : ∀ n rest, ctl ≠ .poll n :: rest)
    : Nest (.poll budget :: ctl)
  | resolve {ctl : List Ctl} (hop : UInt32) (tries : Nat) (o : Out) (h : Nest ctl)
      (htop : ∀ hop tries o rest, ctl ≠ .resolve hop tries o :: rest)
      (hhandler : ctl ≠ [] → o.data = .seg ∨ o.data = .reply)
      (hfree : ∀ hop tries o', .resolve hop tries o' ∈ ctl → o'.data ≠ o.data)
    : Nest (.resolve hop tries o :: ctl)

def inUse : List Ctl → List Source
  | [] => []
  | .poll _ :: ctl => inUse ctl
  | .resolve _ _ o :: ctl =>
    if o.data = .seg ∨ o.data = .reply then o.data :: inUse ctl else inUse ctl

def Ctl.isPoll : Ctl → Bool
  | .poll _ => true
  | .resolve _ _ _ => false

/--
All frames so far are well formed, and what waits still is what was built.
-/
structure EmitInv (s : Stack) : Prop where
  ok : s.Ok
  nest : Nest s.ctl
  waits : ∀ hop tries o, .resolve hop tries o ∈ s.ctl → o.Ok s.net.cfg.ip ∧ o.Intact s.net
  sent : ∀ x ∈ s.sent, ∀ o, x.out = some o → IpFrame x.frame o

variable {s s' : Stack} {ctl : List Ctl} {o : Out} {a : Action} {e : StackEvent}

theorem mem_inUse {d : Source} (h : d ∈ inUse ctl)
    : (d = .seg ∨ d = .reply) ∧ ∃ hop tries o, .resolve hop tries o ∈ ctl ∧ o.data = d := by
  induction ctl with
  | nil => cases h
  | cons c ctl ih =>
    have later : d ∈ inUse ctl →
        (d = .seg ∨ d = .reply) ∧ ∃ hop tries o, .resolve hop tries o ∈ c :: ctl ∧ o.data = d := by
      intro hd
      obtain ⟨hdata, hop, tries, o, hmem, ho⟩ := ih hd
      exact ⟨hdata, hop, tries, o, List.mem_cons_of_mem _ hmem, ho⟩
    cases c with
    | poll budget => exact later h
    | resolve hop tries o =>
      unfold inUse at h
      split at h
      . next hdata =>
        rw [List.mem_cons] at h
        cases h with
        | inl h =>
          subst h
          exact ⟨hdata, hop, tries, o, .head _, rfl⟩
        | inr h => exact later h
      . exact later h

theorem Nest.nodup (h : Nest ctl) : (inUse ctl).Nodup := by
  induction h with
  | nil => exact .nil
  | poll _ _ _ ih => exact ih
  | @resolve ctl hop tries o _ _ _ hfree ih =>
    unfold inUse
    split
    . rw [List.nodup_cons]
      refine ⟨?_, ih⟩
      intro hmem
      obtain ⟨_, hop, tries, o', hmem, ho⟩ := mem_inUse hmem
      exact hfree hop tries o' hmem ho
    . exact ih

theorem Nest.length_inUse (h : Nest ctl) : (inUse ctl).length ≤ 2 := by
  have hsub : inUse ctl ⊆ [.seg, .reply] := by
    intro d hd
    simpa using (mem_inUse hd).1
  exact (List.subperm_of_subset h.nodup hsub).length_le

theorem Nest.countP_le (h : Nest ctl)
    : ctl.countP Ctl.isPoll ≤ (inUse ctl).length + 1
      ∧ ((∀ n rest, ctl ≠ .poll n :: rest) → ctl.countP Ctl.isPoll ≤ (inUse ctl).length) := by
  induction h with
  | nil => simp
  | @poll ctl budget _ htop ih =>
    have := ih.2 htop
    rw [List.countP_cons_of_pos rfl]
    refine ⟨?_, fun h => absurd rfl (h budget ctl)⟩
    unfold inUse
    omega
  | @resolve ctl hop tries o _ htop hhandler _ ih =>
    rw [List.countP_cons_of_neg (by simp [Ctl.isPoll])]
    cases ctl with
    | nil => simp
    | cons c ctl =>
      unfold inUse
      rw [if_pos (hhandler (by simp)), List.length_cons]
      have := ih.1
      omega

theorem Nest.depth_le (h : Nest s.ctl) : s.depth ≤ 3 := by
  have hcount := h.countP_le.1
  have huse := h.length_inUse
  have heq : s.depth = s.ctl.countP Ctl.isPoll := by
    unfold Stack.depth
    congr 1
  omega

theorem Nest.tail {c : Ctl} (h : Nest (c :: ctl)) : Nest ctl := by
  cases h with
  | poll _ h _ => exact h
  | resolve _ _ _ h _ _ _ => exact h

theorem word16_be16 (v : UInt16) (x y : Byte) (bs : Bytes)
    : word16 (x :: y :: be16 v ++ bs) 2 = v := by
  have := wordSum_be16 v
  simp only [be16, wordSum] at this
  apply UInt16.toNat_inj.mp
  simp only [word16, be16, List.cons_append, List.nil_append, List.getD_cons_succ,
    List.getD_cons_zero, UInt16.toNat_ofNat']
  have := v.toNat_lt
  omega

theorem csumOk_ipHeader (n : Net) (proto : UInt8) (dst : UInt32) (len : Nat)
    : CsumOk (n.ipHeader proto dst len) := by
  exact csumOk_csumFin [] ([0x45, 0] ++ be16 (.ofNat (20 + len)) ++ be16 n.ipId ++ be16 0x4000
    ++ [64, proto] ++ be16 0 ++ be32 n.cfg.ip ++ be32 dst) (i := 10) rfl rfl (by simp)

theorem IpFrame.of_built {n : Net} (mac : Octets 6) (h : o.Ok n.cfg.ip)
    : IpFrame (mac.1 ++ n.mac.1 ++ be16 0x0800 ++ (n.ipHeader o.proto o.dst o.len ++ o.built)) o := by
  have heth : (mac.1 ++ n.mac.1 ++ be16 0x0800).length = 14 := by
    simp [mac.2, n.mac.2]
  have hhdr : (n.ipHeader o.proto o.dst o.len).length = 20 := rfl
  have hshort := h.short
  have hlen := h.len
  generalize mac.1 ++ n.mac.1 ++ be16 0x0800 = eth at heth ⊢
  have hdrop : (eth ++ (n.ipHeader o.proto o.dst o.len ++ o.built)).drop 14
      = n.ipHeader o.proto o.dst o.len ++ o.built := List.drop_left' heth
  have hbuilt : (eth ++ (n.ipHeader o.proto o.dst o.len ++ o.built)).drop 34 = o.built := by
    rw [← List.append_assoc]
    apply List.drop_left'
    simp [heth, hhdr]
  have haddr : ((eth ++ (n.ipHeader o.proto o.dst o.len ++ o.built)).drop 26).take 8
      = be32 n.cfg.ip ++ be32 o.dst := by
    rw [show 26 = 14 + 12 from rfl, ← List.drop_drop, hdrop]
    rfl
  have hget : ∀ i, (eth ++ (n.ipHeader o.proto o.dst o.len ++ o.built)).getD (14 + i) 0
      = (n.ipHeader o.proto o.dst o.len ++ o.built).getD i 0 := by
    intro i
    rw [List.getD_append_right _ _ _ _ (by omega)]
    congr 1
    omega
  have hsize : (eth ++ (n.ipHeader o.proto o.dst o.len ++ o.built)).length = 34 + o.built.length := by
    simp [heth, hhdr]
    omega
  constructor
  . exact hsize
  . have htotal : word16 (eth ++ (n.ipHeader o.proto o.dst o.len ++ o.built)) 16
        = word16 (n.ipHeader o.proto o.dst o.len ++ o.built) 2 := by
      unfold word16
      rw [hget 2, hget 3]
    have hword : word16 (n.ipHeader o.proto o.dst o.len ++ o.built) 2 = .ofNat (20 + o.len) :=
      word16_be16 (.ofNat (20 + o.len)) _ _ _
    rw [htotal, hword, UInt16.toNat_ofNat']
    omega
  . rw [hdrop, List.take_left' hhdr]
    exact csumOk_ipHeader n o.proto o.dst o.len
  . rw [hget 9]
    rfl
  . exact hbuilt
  . intro htcp
    rw [haddr, hbuilt, hsize, Nat.add_sub_cancel_left, hlen]
    exact h.tcp htcp
  . intro hicmp
    rw [hbuilt]
    exact h.icmp hicmp

theorem Out.Intact.congr {n n' : Net} (h : o.Intact n) (hseg : o.data = .seg → n'.seg = n.seg)
    (hreply : o.data = .reply → n'.reply = n.reply)
    (hdatagram : o.data = .datagram → n'.datagram = n.datagram)
    : o.Intact n' := by
  unfold Out.Intact at h ⊢
  rw [← h]
  cases hdata : o.data with
  | seg => simp only [Net.read, hseg hdata]
  | reply => simp only [Net.read, hreply hdata]
  | datagram => simp only [Net.read, hdatagram hdata]
  | own bs => rfl

theorem Stack.Delivered.emit (h : s.Delivered o s') (hinv : EmitInv s) (hok : o.Ok s.net.cfg.ip)
    (hintact : o.Intact s.net)
    : EmitInv s' := by
  have hok' := h.ok hinv.ok
  cases h with
  | @mk mac data hread =>
    unfold Out.Intact at hintact
    rw [hintact] at hread
    cases hread
    refine ⟨hok', hinv.nest, hinv.waits, ?_⟩
    intro x hx o' ho'
    rw [List.mem_cons] at hx
    cases hx with
    | inl hx =>
      rw [hx] at ho' ⊢
      cases ho'
      exact IpFrame.of_built (n := { s.net with ipId := s.net.ipId + 1 }) mac hok
    | inr hx => exact hinv.sent x hx o' ho'

theorem EmitInv.sent_frame (h : EmitInv s) (f : Bytes)
    : ∀ x ∈ { frame := f, out := none } :: s.sent, ∀ o, x.out = some o → IpFrame x.frame o := by
  intro x hx o ho
  rw [List.mem_cons] at hx
  cases hx with
  | inl hx =>
    rw [hx] at ho
    cases ho
  | inr hx => exact h.sent x hx o ho

theorem Stack.Act.emit (h : s.Act a s') (hinv : EmitInv s)
    (hsend : ∀ o, a = .send o → o.Fits ∧ o.Ok s.net.cfg.ip ∧ o.Intact s.net)
    (hnest : ∀ o, a = .send o → ∀ hop, Nest (.resolve hop 0 o :: s.ctl))
    : EmitInv s' := by
  have hok := h.ok hinv.ok (fun o ho => (hsend o ho).1)
  cases h with
  | none => exact hinv
  | frame f => exact ⟨hok, hinv.nest, hinv.waits, hinv.sent_frame f⟩
  | dropped o => exact hinv
  | delivered h =>
    have := hsend _ rfl
    exact h.emit hinv this.2.1 this.2.2
  | waits o hop f =>
    refine ⟨hok, hnest o rfl hop, ?_, hinv.sent_frame f⟩
    intro hop' tries' o' hmem
    simp only [List.mem_cons, Ctl.resolve.injEq] at hmem
    cases hmem with
    | inl h =>
      rw [h.2.2]
      exact (hsend o rfl).2
    | inr h => exact hinv.waits hop' tries' o' h

theorem FrameIn.intact {n n' : Net} {b : Bytes} (h : FrameIn n b n' a)
    (hseg : o.data = .seg → ¬n.TcpFrame b) (hreply : o.data = .reply → ¬n.EchoFrame b)
    (ho : o.Ok n.cfg.ip ∧ o.Intact n)
    : o.Ok n'.cfg.ip ∧ o.Intact n' := by
  cases h with
  | none h =>
    rw [h.cfg]
    exact ⟨ho.1, ho.2.congr (fun _ => h.seg) (fun _ => h.reply) (fun _ => h.datagram)⟩
  | arp h f =>
    rw [h.cfg]
    exact ⟨ho.1, ho.2.congr (fun _ => h.seg) (fun _ => h.reply) (fun _ => h.datagram)⟩
  | echo hframe hdata h =>
    rw [h.cfg]
    refine ⟨ho.1, ho.2.congr (fun _ => h.seg ?_) ?_ (fun _ => h.datagram ?_)⟩
    . simp [hdata]
    . intro hd
      exact absurd hframe (hreply hd)
    . simp [hdata]
  | tcp hframe hdata h =>
    rw [h.cfg]
    refine ⟨ho.1, ho.2.congr ?_ (fun _ => h.reply ?_) (fun _ => h.datagram ?_)⟩
    . intro hd
      exact absurd hframe (hseg hd)
    . simp [hdata]
    . simp [hdata]

theorem FrameIn.free {b : Bytes} {n' : Net} (h : FrameIn s.net b n' (.send o))
    (horderly : s.Orderly (.frame b))
    : (o.data = .seg ∨ o.data = .reply) ∧ ¬s.Waits o.data ∧ o.Fits ∧ o.Ok n'.cfg.ip ∧ o.Intact n' := by
  cases h with
  | echo hframe hdata h =>
    refine ⟨.inr hdata, ?_, h.fits, h.ok, h.intact⟩
    rw [hdata]
    exact fun hwaits => horderly.2 hwaits hframe
  | tcp hframe hdata h =>
    refine ⟨.inl hdata, ?_, h.fits, h.ok, h.intact⟩
    rw [hdata]
    exact fun hwaits => horderly.1 hwaits hframe

theorem EmitInv.pop {c : Ctl} (h : EmitInv s) (hctl : s.ctl = c :: ctl) : EmitInv { s with ctl } where
  ok := by
    refine ⟨h.ok.net, ?_⟩
    intro hop tries o hmem
    exact h.ok.fits hop tries o (by rw [hctl]; exact List.mem_cons_of_mem _ hmem)
  nest := by
    have := h.nest
    rw [hctl] at this
    exact this.tail
  waits := by
    intro hop tries o hmem
    exact h.waits hop tries o (by rw [hctl]; exact List.mem_cons_of_mem _ hmem)
  sent := h.sent

theorem EmitInv.step (hinv : EmitInv s) (horderly : s.Orderly e) (h : s.Stepped e s') : EmitInv s' := by
  have hok := h.ok hinv.ok
  cases h with
  | @call c net a s' hctl hnet hsend hact =>
    have hempty : EmitInv { s with net } := by
      refine ⟨⟨hnet, hinv.ok.fits⟩, hinv.nest, ?_, hinv.sent⟩
      intro hop tries o hmem
      simp [hctl] at hmem
    apply hact.emit hempty
    . intro o ho
      have := hsend o ho
      exact ⟨this.fits, this.ok, this.intact⟩
    . intro o _ hop
      simp only [hctl]
      apply Nest.resolve hop 0 o .nil
      . simp
      . simp
      . simp
  | poll htop =>
    refine ⟨hok, .poll 32 hinv.nest htop, ?_, hinv.sent⟩
    intro hop tries o hmem
    simp only [List.mem_cons, reduceCtorEq, false_or] at hmem
    exact hinv.waits hop tries o hmem
  | @frame b budget ctl net a s' hctl hnet hframe hact =>
    have hpop := hinv.pop hctl
    have hmem : ∀ hop tries o, .resolve hop tries o ∈ ctl → .resolve hop tries o ∈ s.ctl := by
      intro hop tries o hmem
      rw [hctl]
      exact List.mem_cons_of_mem _ hmem
    have htop : ∀ n rest, ctl ≠ .poll n :: rest := by
      have := hinv.nest
      rw [hctl] at this
      cases this with
      | poll _ _ htop => exact htop
    have hbase : EmitInv { s with net, ctl := .poll budget :: ctl } := by
      refine ⟨⟨hnet, ?_⟩, .poll budget hpop.nest htop, ?_, hinv.sent⟩
      . intro hop tries o hin
        simp only [List.mem_cons, reduceCtorEq, false_or] at hin
        exact hpop.ok.fits hop tries o hin
      . intro hop tries o hin
        simp only [List.mem_cons, reduceCtorEq, false_or] at hin
        apply hframe.intact
        . exact fun hd => horderly.1 ⟨hop, tries, o, hmem hop tries o hin, hd⟩
        . exact fun hd => horderly.2 ⟨hop, tries, o, hmem hop tries o hin, hd⟩
        . exact hpop.waits hop tries o hin
    apply hact.emit hbase
    . intro o ho
      subst ho
      exact (hframe.free horderly).2.2
    . intro o ho hop
      subst ho
      have hfree := hframe.free horderly
      apply Nest.resolve hop 0 o hbase.nest
      . simp
      . exact fun _ => hfree.1
      . intro hop' tries' o' hin heq
        simp only [List.mem_cons, reduceCtorEq, false_or] at hin
        exact hfree.2.1 ⟨hop', tries', o', hmem hop' tries' o' hin, heq⟩
  | endPoll hctl => exact hinv.pop hctl
  | @resolved hop tries o ctl s' hctl h =>
    have := hinv.waits hop tries o (by simp [hctl])
    exact h.emit (hinv.pop hctl) this.1 this.2
  | @again hop tries o ctl f hctl =>
    have hpop := hinv.pop hctl
    refine ⟨hok, ?_, ?_, hinv.sent_frame f⟩
    . have := hinv.nest
      rw [hctl] at this
      cases this with
      | resolve _ _ _ h htop hhandler hfree => exact .resolve hop (tries + 1) o h htop hhandler hfree
    . intro hop' tries' o' hmem
      simp only [List.mem_cons, Ctl.resolve.injEq] at hmem
      cases hmem with
      | inl h =>
        rw [h.2.2]
        exact hinv.waits hop tries o (by simp [hctl])
      | inr h => exact hpop.waits hop' tries' o' h
  | gaveUp hctl => exact hinv.pop hctl

theorem EmitInv.boot (mac : Octets 6) : EmitInv (.boot mac) where
  ok := .boot mac
  nest := .nil
  waits := by
    intro hop tries o hmem
    cases hmem
  sent := by
    intro x hx
    cases hx

/--
As long as no packet is built in a buffer that is in use: every IPv4 frame is well formed and
carries what its caller has built, and `net_poll_inner` is nested at most three times.
-/
theorem frames_wellFormed {mac : Octets 6} (h : Run Stack.Step Stack.Orderly (Stack.boot mac) s)
    : s.depth ≤ 3 ∧ ∀ x ∈ s.sent, ∀ o, x.out = some o → IpFrame x.frame o := by
  have hstep : ∀ s e s', s.Orderly e → EmitInv s → Stack.Step e s s' → EmitInv s' := by
    intro s e s' horderly hinv hs
    exact hinv.step horderly (Stack.Stepped.of_step hinv.ok hs)
  have hinv := h.keeps hstep (.boot mac)
  exact ⟨hinv.nest.depth_le, hinv.sent⟩

def hostCfg : Cfg where
  ip := 0x0A000002
  mask := 0xFFFFFF00
  gw := 0x0A000001
  dns := 0

def hostMac : Octets 6 :=
  ⟨[2, 0, 0, 0, 0, 1], rfl⟩

def etherHeader (type : UInt16) : Bytes :=
  hostMac.1 ++ [2, 0, 0, 0, 0, 9] ++ be16 type

def pingFrame (x : Byte) : Bytes :=
  etherHeader 0x0800 ++ [0x45, 0, 0, 29, 0, 0, 0, 0, 64, 1, 0, 0, 10, 0, 0, 9, 10, 0, 0, 2]
    ++ [8, 0, 0, 0, 0, 1, 0, 1, x]

def arpFrame : Bytes :=
  etherHeader 0x0806 ++ [0, 1, 8, 0, 6, 4, 0, 2, 2, 0, 0, 0, 0, 9, 10, 0, 0, 9]
    ++ hostMac.1 ++ [10, 0, 0, 2]

def pingEvents : List StackEvent :=
  [.call (.configure hostCfg), .poll, .frame (pingFrame 65), .poll, .frame arpFrame, .endPoll,
    .resolved]

def pingStack : Stack :=
  pingEvents.foldl (after Stack.next?) (.boot hostMac)

theorem frames_wellFormed_ping
    : (pingStack.sent.any fun x => match x.out with | some o => o.proto == 1 | none => false)
      ∧ ∀ x ∈ pingStack.sent, ∀ o, x.out = some o → IpFrame x.frame o := by
  have hrun : Run Stack.Step Stack.Orderly (.boot hostMac) pingStack := by
    apply Run.of_possible .refl
    refine ⟨rfl, trivial, rfl, trivial, rfl, ?_, rfl, trivial, rfl, ?_, rfl, trivial, rfl, trivial,
      trivial⟩
    . constructor
      all_goals
        rintro ⟨hop, tries, o, hmem, _⟩
        cases hmem with
        | tail _ hmem => cases hmem
    . constructor
      . intro _ htcp
        exact absurd htcp.passes.type (by decide)
      . intro _ hecho
        exact absurd hecho.passes.type (by decide)
  exact ⟨by decide, (frames_wellFormed hrun).2⟩

def clobberEvents : List StackEvent :=
  [.call (.configure hostCfg), .poll, .frame (pingFrame 65), .poll, .frame (pingFrame 66), .poll,
    .frame arpFrame, .endPoll, .resolved, .endPoll, .resolved]

def clobberStack : Stack :=
  clobberEvents.foldl (after Stack.next?) (.boot hostMac)

theorem waits_frame {k : Nat} {b : Bytes} {net : Net} (hctl : s.ctl = .poll (k + 1) :: ctl)
    (hb : 0 < b.length ∧ b.length ≤ 2048) (hframe : s.net.frameIn b = .ok (net, .send o))
    (hlen : o.len ≤ 1480) (hdst : o.dst ≠ 0xFFFFFFFF) (hhop : net.hop o.dst ≠ 0)
    (hnone : net.arpLookup (net.hop o.dst) = none)
    : ∃ s', Stack.Step (.frame b) s s' ∧ s'.net = net
        ∧ s'.ctl = .resolve (net.hop o.dst) 0 o :: .poll k :: ctl := by
  have hreq := Stack.yields_request
    { s with net, ctl := .resolve (net.hop o.dst) 0 o :: .poll k :: ctl } (net.hop o.dst)
  obtain ⟨s', hreq, f, hs'⟩ := hreq
  refine ⟨s', ?_, by rw [hs'], by rw [hs']⟩
  simp only [Stack.Step, Stack.next?, Stack.next, hctl, if_pos hb, hframe, Stack.act, Stack.ipSend,
    if_neg (show ¬1480 < o.len by omega), if_neg hdst, if_neg hhop, hnone, bind, Except.bind, hreq]
  rfl

theorem poll_waits {hop : UInt32} {tries : Nat} (hctl : s.ctl = .resolve hop tries o :: ctl)
    (hnone : s.net.arpLookup hop = none)
    : Stack.Step .poll s { s with ctl := .poll 32 :: s.ctl } := by
  simp only [Stack.Step, Stack.next?, Stack.next, hctl, hnone]
  rfl

/--
The reply that the stack makes to `pingFrame 65`.
-/
def pingOut : Out where
  proto := 1
  dst := 0x0A000009
  data := .reply
  len := 9
  built := Net.echoReply [8, 0, 0, 0, 0, 1, 0, 1, 65]

theorem frameIn_ping {n : Net} (h : n.cfg = hostCfg)
    : n.frameIn (pingFrame 65)
        = .ok ({ n with reply := n.reply.writeBytes 0 pingOut.built }, .send pingOut) := by
  cases n
  simp only at h
  subst h
  rfl

theorem hop_ping {n : Net} (h : n.cfg = hostCfg) : n.hop pingOut.dst = pingOut.dst := by
  unfold Net.hop
  rw [h]
  decide

theorem deeper (n : Nat)
    : ∃ s, Run Stack.Step (fun _ _ => True) (.boot hostMac) s ∧ s.depth = n + 1
      ∧ (∃ ctl, s.ctl = .poll 32 :: ctl) ∧ s.net.cfg = hostCfg ∧ s.net.arpTab = fun _ => .zero := by
  induction n with
  | zero =>
    have hrun : Run Stack.Step (fun _ _ => True) (.boot hostMac)
        ([.call (.configure hostCfg), .poll].foldl (after Stack.next?) (.boot hostMac)) := by
      apply Run.of_possible .refl
      exact ⟨rfl, trivial, rfl, trivial, trivial⟩
    exact ⟨_, hrun, rfl, ⟨[], rfl⟩, rfl, rfl⟩
  | succ n ih =>
    obtain ⟨s, hrun, hdepth, ⟨ctl, hctl⟩, hcfg, htab⟩ := ih
    have hnone : ∀ ip, { s.net with reply := s.net.reply.writeBytes 0 pingOut.built }.arpLookup ip
        = none := by
      intro ip
      unfold Net.arpLookup Net.arpFind
      rw [htab]
      rfl
    have hhop : { s.net with reply := s.net.reply.writeBytes 0 pingOut.built }.hop pingOut.dst
        = pingOut.dst := hop_ping hcfg
    obtain ⟨s', hstep, hnet, hctl'⟩ := waits_frame hctl (by decide) (frameIn_ping hcfg) (by decide)
      (by decide) (by rw [hhop]; decide) (hnone _)
    have hpoll := poll_waits hctl' (by rw [hnet]; exact hnone _)
    refine ⟨_, (hrun.call hstep trivial).call hpoll trivial, ?_, ⟨_, rfl⟩, by rw [hnet]; exact hcfg,
      by rw [hnet]; exact htab⟩
    simp only [Stack.depth, hctl, hctl'] at hdepth ⊢
    simpa using hdepth

/--
The first reply is sent with the data of the second one, and there is no bound on the nesting.
-/
theorem frames_clobbered
    : (∃ s, Run Stack.Step (fun _ _ => True) (.boot hostMac) s
        ∧ ∃ x ∈ s.sent, ∃ o, x.out = some o ∧ ¬IpFrame x.frame o)
      ∧ ∀ k, ∃ s, Run Stack.Step (fun _ _ => True) (.boot hostMac) s ∧ k < s.depth := by
  constructor
  . have hrun : Run Stack.Step (fun _ _ => True) (.boot hostMac) clobberStack := by
      apply Run.of_possible .refl
      exact ⟨rfl, trivial, rfl, trivial, rfl, trivial, rfl, trivial, rfl, trivial, rfl, trivial,
        rfl, trivial, rfl, trivial, rfl, trivial, rfl, trivial, rfl, trivial, trivial⟩
    have hany : (clobberStack.sent.any fun x =>
        match x.out with | some o => x.frame.drop 34 != o.built | none => false) = true := by
      decide
    rw [List.any_eq_true] at hany
    obtain ⟨x, hx, hne⟩ := hany
    refine ⟨clobberStack, hrun, x, hx, ?_⟩
    split at hne
    . next o ho =>
      refine ⟨o, ho, ?_⟩
      intro hframe
      rw [hframe.carries] at hne
      simp at hne
    . cases hne
  . intro k
    obtain ⟨s, hrun, hdepth, _⟩ := deeper k
    exact ⟨s, hrun, by omega⟩

end TanjaOS
