import TanjaOS.Net.Safe

/-!
The DHCP client. `net_dhcp` waits for an OFFER and then for the ACK of what it has requested, and
`dhcp_parse` puts the options of every message for this client into the same variables.
-/

open Lib Lib.Checked

namespace TanjaOS

/--
An option of a message: its `len` bytes are at offset `pos`.
-/
structure DhcpOpt where
  code : UInt8
  pos : Nat
  len : Nat

def dhcpOptsFrom (b : Bytes) : (fuel i : Nat) → List DhcpOpt
  | 0, _ => []
  | fuel + 1, i =>
    if i < b.length then
      if b.getD i 0 = 255 then
        []
      else if b.getD i 0 = 0 then
        dhcpOptsFrom b fuel (i + 1)
      else if b.length ≤ i + 1 then
        []
      else
        let len := (b.getD (i + 1) 0).toNat
        if b.length < i + 2 + len then
          []
        else
          { code := b.getD i 0, pos := i + 2, len } :: dhcpOptsFrom b fuel (i + 2 + len)
    else
      []

/--
Where the last option of a kind is that has at least `n` bytes.
-/
def lastOpt (opts : List DhcpOpt) (code : UInt8) (n : Nat) : Option Nat :=
  ((opts.filter (fun x => x.code = code ∧ n ≤ x.len)).getLast?).map DhcpOpt.pos

def dhcpOpts (b : Bytes) : List DhcpOpt :=
  dhcpOptsFrom b b.length 240

def optWord (b : Bytes) (code : UInt8) : Option UInt32 :=
  (lastOpt (dhcpOpts b) code 4).map (word32 b)

def dhcpType (b : Bytes) : UInt8 :=
  ((lastOpt (dhcpOpts b) 53 1).map (b.getD · 0)).getD 0

/--
A message is for the client `mac` and answers the transaction `xid`.
-/
structure ForClient (mac : Octets 6) (xid : UInt32) (b : Bytes) : Prop where
  long : 241 ≤ b.length
  op : b.getD 0 0 = 2
  xid : word32 b 4 = xid
  cookie : word32 b 236 = 0x63825363
  mac : (b.drop 28).take 6 = mac.1

/--
What a message puts into the variables of `net_dhcp`.
-/
def Params.fill (o : Params) (b : Bytes) : Params where
  yi := word32 b 16
  srv := (optWord b 54).getD o.srv
  mask := (optWord b 1).getD o.mask
  gw := (optWord b 3).getD o.gw
  dns := (optWord b 6).getD o.dns

/--
Where `net_dhcp` is. It remembers the address and the server that it has requested.
-/
inductive DhcpPhase where
  | idle
  | offer (attempt : Nat)
  | ack (attempt : Nat) (offer osrv : UInt32)
  | done (rc : Int)
  deriving DecidableEq

/--
The configuration of the stack and a call of `net_dhcp`, with a record of the messages that the two
loops end with and of the servers that have sent them.
-/
structure Dhcp (Server : Type) where
  nicOk : Bool
  mac : Octets 6
  cfg : Cfg
  xid : UInt32
  o : Params
  phase : DhcpPhase
  asked : Option (Server × Bytes)
  acked : Option (Server × Bytes)

inductive DhcpEvent (Server : Type) where
  | attach (mac : Octets 6)
  | setStatic (cfg : Cfg)
  | call (xid : UInt32)
  /-- `udp_wait` returns 0 with a datagram that the server has sent. -/
  | msg (server : Server) (b : Bytes)
  | timeout

namespace Dhcp

variable {Server : Type}

def boot : Dhcp Server where
  nicOk := false
  mac := ArpEntry.zero.mac
  cfg := .zero
  xid := 0
  o := .zero
  phase := .idle
  asked := none
  acked := none

def retry (s : Dhcp Server) (attempt : Nat) : Dhcp Server :=
  if attempt + 1 < 3 then
    { s with o := .zero, phase := .offer (attempt + 1) }
  else
    { s with phase := .done (-1) }

def call (s : Dhcp Server) (xid : UInt32) : Dhcp Server :=
  if s.nicOk then
    { s with cfg := .zero, xid, o := .zero, phase := .offer 0, asked := none, acked := none }
  else
    { s with phase := .done (-1) }

def msg (s : Dhcp Server) (server : Server) (b : Bytes) (t : UInt8) (o : Params)
    : Option (Dhcp Server) :=
  match s.phase with
  | .offer attempt =>
    if t = 2 then
      some { s with o, phase := .ack attempt o.yi o.srv, asked := some (server, b) }
    else
      some { s with o }
  | .ack attempt offer _ =>
    if t = 5 then
      some { s with
        o
        cfg :=
          { ip := if o.yi ≠ 0 then o.yi else offer
            mask := if o.mask ≠ 0 then o.mask else 0xFFFFFF00
            gw := o.gw
            dns := o.dns }
        phase := .done 0
        acked := some (server, b)
      }
    else if t = 6 then
      some ({ s with o }.retry attempt)
    else
      some { s with o }
  | _ => none

def next (s : Dhcp Server) : DhcpEvent Server → Option (Dhcp Server)
  | .attach mac =>
    match s.phase with
    | .idle | .done _ => some { s with nicOk := true, mac, cfg := .zero, phase := .idle }
    | _ => none
  | .setStatic cfg =>
    match s.phase with
    | .idle | .done _ => some { s with cfg := if s.nicOk then cfg else s.cfg, phase := .idle }
    | _ => none
  | .call xid =>
    match s.phase with
    | .idle | .done _ => some (s.call xid)
    | _ => none
  | .msg server b =>
    if b.length ≤ 600 then
      match dhcpParse s.mac b s.xid s.o with
      | .ok (t, o) => s.msg server b t o
      | .error _ => none
    else
      none
  | .timeout =>
    match s.phase with
    | .offer attempt => some (s.retry attempt)
    | .ack attempt _ _ => some (s.retry attempt)
    | _ => none

def Step (e : DhcpEvent Server) (s s' : Dhcp Server) : Prop :=
  s.next e = some s'

end Dhcp

/--
What a lease says: the options of the ACK where it has them, else those of the OFFER.
-/
def leaseOf (offer ack : Bytes) : Cfg where
  ip := if word32 ack 16 ≠ 0 then word32 ack 16 else word32 offer 16
  mask :=
    let mask := ((optWord ack 1).or (optWord offer 1)).getD 0
    if mask ≠ 0 then mask else 0xFFFFFF00
  gw := ((optWord ack 3).or (optWord offer 3)).getD 0
  dns := ((optWord ack 6).or (optWord offer 6)).getD 0

def Bare (b : Bytes) : Prop :=
  optWord b 1 = none ∧ optWord b 3 = none ∧ optWord b 6 = none

/--
Of the messages for this client, only an OFFER that is waited for and the ACK of the server whose
OFFER has been requested configure something.
-/
def Dhcp.OneServer {Server : Type} (s : Dhcp Server) : DhcpEvent Server → Prop
  | .msg server b => ForClient s.mac s.xid b →
    match s.phase with
    | .offer _ => dhcpType b = 2 ∨ Bare b
    | .ack _ _ _ =>
      if dhcpType b = 5 then ∃ offer, s.asked = some (server, offer) else dhcpType b = 6 ∨ Bare b
    | _ => True
  | _ => True

variable {b : Bytes}

theorem lastOpt_cons (x : DhcpOpt) (opts : List DhcpOpt) (code : UInt8) (n : Nat)
    : lastOpt (x :: opts) code n
        = (lastOpt opts code n).or (if x.code = code ∧ n ≤ x.len then some x.pos else none) := by
  unfold lastOpt
  by_cases h : x.code = code ∧ n ≤ x.len
  . rw [List.filter_cons_of_pos (by simpa using h), List.getLast?_cons, if_pos h]
    cases (opts.filter (fun x => x.code = code ∧ n ≤ x.len)).getLast? <;> rfl
  . rw [List.filter_cons_of_neg (by simpa using h), if_neg h, Option.or_none]

def fillOpts (b : Bytes) (opts : List DhcpOpt) (o : Params) : Params :=
  { o with
    srv := ((lastOpt opts 54 4).map (word32 b)).getD o.srv
    mask := ((lastOpt opts 1 4).map (word32 b)).getD o.mask
    gw := ((lastOpt opts 3 4).map (word32 b)).getD o.gw
    dns := ((lastOpt opts 6 4).map (word32 b)).getD o.dns }

def typeOpts (b : Bytes) (opts : List DhcpOpt) (type : UInt8) : UInt8 :=
  ((lastOpt opts 53 1).map (b.getD · 0)).getD type

theorem load32_eq {i : Nat} (h : i + 4 ≤ b.length) : load32 b i = .ok (word32 b i) :=
  if_pos h

theorem load8_eq {i : Nat} (h : i < b.length) : load8 b i = .ok (b.getD i 0) := by
  obtain ⟨x, hx, rfl⟩ := yields_load8 h
  exact hx

theorem dhcpOption_eq (x : DhcpOpt) (h : x.pos + x.len ≤ b.length) (type : UInt8) (o : Params)
    : dhcpOption b x.pos x.code x.len type o = .ok (typeOpts b [x] type, fillOpts b [x] o) := by
  have hnil : ∀ code n, lastOpt [] code n = none := fun _ _ => rfl
  unfold dhcpOption typeOpts fillOpts
  simp only [lastOpt_cons, hnil, Option.none_or]
  obtain ⟨code, pos, len⟩ := x
  simp only at h ⊢
  split
  . next hc =>
    obtain ⟨rfl, hl⟩ := hc
    rw [load8_eq (by omega)]
    simp
  . next h53 =>
    split
    . next hc =>
      obtain ⟨rfl, hl⟩ := hc
      rw [load32_eq (by omega)]
      simp [hl]
    . next h54 =>
      split
      . next hc =>
        obtain ⟨rfl, hl⟩ := hc
        rw [load32_eq (by omega)]
        simp [hl]
      . next h1 =>
        split
        . next hc =>
          obtain ⟨rfl, hl⟩ := hc
          rw [load32_eq (by omega)]
          simp [hl]
        . next h3 =>
          split
          . next hc =>
            obtain ⟨rfl, hl⟩ := hc
            rw [load32_eq (by omega)]
            simp
          . next h6 =>
            rfl

theorem fillOpts_cons (x : DhcpOpt) (opts : List DhcpOpt) (o : Params)
    : fillOpts b opts (fillOpts b [x] o) = fillOpts b (x :: opts) o := by
  have hor : ∀ (opts : List DhcpOpt) (code : UInt8) (v : UInt32),
      ((lastOpt opts code 4).map (word32 b)).getD (((lastOpt [x] code 4).map (word32 b)).getD v)
        = ((lastOpt (x :: opts) code 4).map (word32 b)).getD v := by
    intro opts code v
    rw [lastOpt_cons x opts, lastOpt_cons x []]
    cases lastOpt opts code 4 <;> rfl
  unfold fillOpts
  simp only [hor]

theorem typeOpts_cons (x : DhcpOpt) (opts : List DhcpOpt) (type : UInt8)
    : typeOpts b opts (typeOpts b [x] type) = typeOpts b (x :: opts) type := by
  unfold typeOpts
  rw [lastOpt_cons x opts, lastOpt_cons x []]
  cases lastOpt opts 53 1 <;> rfl

theorem dhcpOptions_eq {fuel i : Nat} (hpos : 0 < fuel) (hfuel : b.length < fuel + i) (type : UInt8)
    (o : Params)
    : dhcpOptions b fuel i type o
        = .ok (typeOpts b (dhcpOptsFrom b fuel i) type, fillOpts b (dhcpOptsFrom b fuel i) o) := by
  induction fuel generalizing i type o with
  | zero => omega
  | succ fuel ih =>
    unfold dhcpOptions dhcpOptsFrom
    by_cases hi : i < b.length
    . rw [if_pos hi, if_pos hi, load8_eq hi]
      simp only [bind, Except.bind]
      by_cases hend : b.getD i 0 = 255
      . rw [if_pos hend, if_pos hend]
        rfl
      . rw [if_neg hend, if_neg hend]
        by_cases hpad : b.getD i 0 = 0
        . rw [if_pos hpad, if_pos hpad]
          exact ih (by omega) (by omega) type o
        . rw [if_neg hpad, if_neg hpad]
          by_cases hlast : b.length ≤ i + 1
          . rw [if_pos hlast, if_pos hlast]
            rfl
          . rw [if_neg hlast, if_neg hlast, load8_eq (by omega)]
            simp only
            by_cases hlen : b.length < i + 2 + (b.getD (i + 1) 0).toNat
            . rw [if_pos hlen, if_pos hlen]
              rfl
            . have hopt := dhcpOption_eq (b := b)
                { code := b.getD i 0, pos := i + 2, len := (b.getD (i + 1) 0).toNat }
                (by simp only; omega) type o
              simp only at hopt
              rw [if_neg hlen, if_neg hlen, hopt]
              simp only
              rw [ih (by omega) (by omega), fillOpts_cons, typeOpts_cons]
    . rw [if_neg hi, if_neg hi]
      rfl

theorem dhcpParse_eq (mac : Octets 6) (b : Bytes) (xid : UInt32) (o : Params)
    : ForClient mac xid b ∧ dhcpParse mac b xid o = .ok (dhcpType b, o.fill b)
      ∨ ¬ForClient mac xid b ∧ dhcpParse mac b xid o = .ok (0, o) := by
  unfold dhcpParse
  by_cases hlong : b.length < 241
  . rw [if_pos hlong]
    refine .inr ⟨?_, rfl⟩
    intro h
    have := h.long
    omega
  . rw [if_neg hlong, load8_eq (by omega), load32_eq (by omega), load32_eq (by omega)]
    simp only [bind, Except.bind]
    by_cases hhead : b.getD 0 0 ≠ 2 ∨ word32 b 4 ≠ xid ∨ word32 b 236 ≠ 0x63825363
    . rw [if_pos hhead]
      refine .inr ⟨?_, rfl⟩
      intro h
      rcases hhead with hop | hxid | hcookie
      . exact hop h.op
      . exact hxid h.xid
      . exact hcookie h.cookie
    . rw [if_neg hhead]
      obtain ⟨chaddr, hload, hchaddr⟩ := yields_load (b := b) (i := 28) (n := 6) (by omega)
      rw [hload]
      simp only
      by_cases hmac : chaddr ≠ mac
      . rw [if_pos hmac]
        refine .inr ⟨?_, rfl⟩
        intro h
        exact hmac (Subtype.ext (hchaddr.trans h.mac))
      . rw [if_neg hmac, load32_eq (by omega)]
        simp only
        rw [dhcpOptions_eq (by omega) (by omega)]
        simp only [not_or, not_not] at hhead hmac
        refine .inl ⟨⟨by omega, hhead.1, hhead.2.1, hhead.2.2, ?_⟩, rfl⟩
        rw [← hchaddr, hmac]

inductive DhcpInv {Server : Type} (s : Dhcp Server) : Prop where
  | idle (hphase : s.phase = .idle) (hnic : s.nicOk = false → s.cfg = .zero)
  | offer {attempt : Nat} (hphase : s.phase = .offer attempt) (hnic : s.nicOk = true)
      (hcfg : s.cfg = .zero) (ho : s.o.mask = 0 ∧ s.o.gw = 0 ∧ s.o.dns = 0)
  | ack {attempt : Nat} {server : Server} {m : Bytes} {srv : UInt32}
      (hphase : s.phase = .ack attempt (word32 m 16) srv) (hnic : s.nicOk = true)
      (hcfg : s.cfg = .zero) (hasked : s.asked = some (server, m))
      (hm : ForClient s.mac s.xid m ∧ dhcpType m = 2)
      (ho : s.o.mask = (optWord m 1).getD 0 ∧ s.o.gw = (optWord m 3).getD 0
        ∧ s.o.dns = (optWord m 6).getD 0)
  | leased {server : Server} {m a : Bytes} (hphase : s.phase = .done 0) (hnic : s.nicOk = true)
      (hasked : s.asked = some (server, m)) (hacked : s.acked = some (server, a))
      (hm : ForClient s.mac s.xid m ∧ dhcpType m = 2) (ha : ForClient s.mac s.xid a ∧ dhcpType a = 5)
      (hcfg : s.cfg = leaseOf m a)
  | failed (hphase : s.phase = .done (-1)) (hcfg : s.cfg = .zero)

section Run

variable {Server : Type} {s s' : Dhcp Server}

theorem DhcpInv.retry (hnic : s.nicOk = true) (hcfg : s.cfg = .zero) (attempt : Nat)
    : DhcpInv (s.retry attempt) := by
  unfold Dhcp.retry
  split
  . exact .offer rfl hnic hcfg ⟨rfl, rfl, rfl⟩
  . exact .failed rfl hcfg

theorem DhcpInv.msg (hinv : DhcpInv s) {server : Server} (hok : s.OneServer (.msg server b))
    (hs : s.next (.msg server b) = some s')
    : DhcpInv s' := by
  simp only [Dhcp.next] at hs
  split at hs
  . rcases dhcpParse_eq s.mac b s.xid s.o with ⟨hfor, hparse⟩ | ⟨_, hparse⟩
    . rw [hparse] at hs
      have hok := hok hfor
      simp only [Dhcp.msg] at hs
      cases hinv with
      | idle hphase _ => simp [hphase] at hs
      | @offer attempt hphase hnic hcfg ho =>
        rw [hphase] at hs hok
        simp only at hs hok
        split at hs
        . next htype =>
          cases hs
          exact .ack rfl hnic hcfg rfl ⟨hfor, htype⟩ (by simp [Params.fill, ho])
        . next htype =>
          cases hs
          have hbare : Bare b := hok.resolve_left htype
          have hkept : (s.o.fill b).mask = 0 ∧ (s.o.fill b).gw = 0 ∧ (s.o.fill b).dns = 0 := by
            simp [Params.fill, hbare.1, hbare.2.1, hbare.2.2, ho]
          exact .offer rfl hnic hcfg hkept
      | @ack attempt server' m srv hphase hnic hcfg hasked hm ho =>
        rw [hphase] at hs hok
        simp only at hs hok
        split at hs
        . next htype =>
          cases hs
          rw [if_pos htype, hasked] at hok
          obtain ⟨_, heq⟩ := hok
          cases heq
          have hor : ∀ code, (optWord b code).getD ((optWord m code).getD 0)
              = ((optWord b code).or (optWord m code)).getD 0 := by
            intro code
            cases optWord b code <;> rfl
          refine .leased rfl hnic hasked rfl hm ⟨hfor, htype⟩ ?_
          simp only [leaseOf, Params.fill, ho.1, ho.2.1, ho.2.2, hor]
        . next htype =>
          rw [if_neg htype] at hok
          split at hs
          . cases hs
            apply DhcpInv.retry
            . exact hnic
            . exact hcfg
          . next hnak =>
            cases hs
            have hbare : Bare b := hok.resolve_left hnak
            exact .ack rfl hnic hcfg hasked hm
              (by simp [Params.fill, hbare.1, hbare.2.1, hbare.2.2, ho])
      | leased hphase _ _ _ _ _ _ => simp [hphase] at hs
      | failed hphase _ => simp [hphase] at hs
    . -- the message is for another client
      rw [hparse] at hs
      simp only [Dhcp.msg] at hs
      cases hinv with
      | idle hphase _ => simp [hphase] at hs
      | offer hphase hnic hcfg ho =>
        rw [hphase] at hs
        cases hs
        exact .offer rfl hnic hcfg ho
      | ack hphase hnic hcfg hasked hm ho =>
        rw [hphase] at hs
        cases hs
        exact .ack rfl hnic hcfg hasked hm ho
      | leased hphase _ _ _ _ _ _ => simp [hphase] at hs
      | failed hphase _ => simp [hphase] at hs
  . cases hs

theorem DhcpInv.zero_of_off (hinv : DhcpInv s) (hoff : s.nicOk = false) : s.cfg = .zero := by
  cases hinv with
  | idle _ hnic => exact hnic hoff
  | offer _ _ hcfg _ => exact hcfg
  | ack _ _ hcfg _ _ _ => exact hcfg
  | leased _ hnic _ _ _ _ _ =>
    rw [hoff] at hnic
    cases hnic
  | failed _ hcfg => exact hcfg

theorem DhcpInv.step {e : DhcpEvent Server} (hinv : DhcpInv s) (hok : s.OneServer e)
    (hs : Dhcp.Step e s s')
    : DhcpInv s' := by
  have hzero := hinv.zero_of_off
  unfold Dhcp.Step at hs
  cases e with
  | attach mac =>
    have : s' = { s with nicOk := true, mac, cfg := .zero, phase := .idle } := by
      simp only [Dhcp.next] at hs
      split at hs <;> simp_all
    rw [this]
    exact .idle rfl (fun _ => rfl)
  | setStatic cfg =>
    have : s' = { s with cfg := if s.nicOk then cfg else s.cfg, phase := .idle } := by
      simp only [Dhcp.next] at hs
      split at hs <;> simp_all
    rw [this]
    refine .idle rfl ?_
    intro hoff
    simp only at hoff ⊢
    rw [hoff]
    exact hzero hoff
  | call xid =>
    have : s' = s.call xid := by
      simp only [Dhcp.next] at hs
      split at hs <;> simp_all
    rw [this]
    unfold Dhcp.call
    split
    . next hnic => exact .offer rfl hnic rfl ⟨rfl, rfl, rfl⟩
    . next hnic => exact .failed rfl (hzero (by simpa using hnic))
  | msg server b => exact hinv.msg hok hs
  | timeout =>
    simp only [Dhcp.next] at hs
    cases hinv with
    | idle hphase _ => simp [hphase] at hs
    | offer hphase hnic hcfg _ =>
      rw [hphase] at hs
      cases hs
      exact DhcpInv.retry hnic hcfg _
    | ack hphase hnic hcfg _ _ _ =>
      rw [hphase] at hs
      cases hs
      exact DhcpInv.retry hnic hcfg _
    | leased hphase _ _ _ _ _ _ => simp [hphase] at hs
    | failed hphase _ => simp [hphase] at hs

/--
When `net_dhcp` returns 0, the configuration is that of one server: its OFFER was requested, and it
has sent the ACK. When it returns anything else, there is no configuration.
-/
theorem dhcp_one_server (h : Run Dhcp.Step Dhcp.OneServer (Dhcp.boot : Dhcp Server) s)
    : (s.phase = .done 0 → ∃ server offer ack, s.asked = some (server, offer)
        ∧ s.acked = some (server, ack) ∧ (ForClient s.mac s.xid offer ∧ dhcpType offer = 2)
        ∧ (ForClient s.mac s.xid ack ∧ dhcpType ack = 5) ∧ s.cfg = leaseOf offer ack)
      ∧ (∀ rc, s.phase = .done rc → rc ≠ 0 → s.cfg = .zero) := by
  have hstep : ∀ (s : Dhcp Server) e s', s.OneServer e → DhcpInv s → Dhcp.Step e s s' →
      DhcpInv s' := by
    intro s e s' hok hinv hs
    exact hinv.step hok hs
  have hinv := h.keeps hstep (.idle rfl (fun _ => rfl))
  cases hinv with
  | idle hphase _ => simp [hphase]
  | offer hphase _ _ _ => simp [hphase]
  | ack hphase _ _ _ _ _ => simp [hphase]
  | @leased server m a hphase _ hasked hacked hm ha hcfg =>
    constructor
    . intro _
      exact ⟨server, m, a, hasked, hacked, hm, ha, hcfg⟩
    . intro rc hrc hne
      rw [hphase] at hrc
      cases hrc
      exact absurd rfl hne
  | failed hphase hcfg =>
    constructor
    . intro hdone
      rw [hphase] at hdone
      cases hdone
    . intro _ _ _
      exact hcfg

end Run

theorem length_dhcpMac : ([2, 0, 0, 0, 0, 1] : Bytes).length = 6 := rfl

def dhcpMac : Octets 6 :=
  ⟨[2, 0, 0, 0, 0, 1], length_dhcpMac⟩

/--
A message for `dhcpMac` in the transaction 7, with the address 10.0.0.5.
-/
def dhcpMessage (opts : Bytes) : Bytes :=
  [2, 1, 6, 0] ++ be32 7 ++ List.replicate 8 0 ++ [10, 0, 0, 5] ++ List.replicate 8 0 ++ dhcpMac.1
    ++ List.replicate 202 0 ++ be32 0x63825363 ++ opts ++ [255]

def offerMessage : Bytes :=
  dhcpMessage [53, 1, 2, 1, 4, 255, 255, 255, 0, 3, 4, 10, 0, 0, 1]

def ackMessage : Bytes :=
  dhcpMessage [53, 1, 5, 1, 4, 255, 255, 255, 0]

def lateMessage : Bytes :=
  dhcpMessage [53, 1, 2, 3, 4, 10, 0, 0, 9]

section Lease

set_option maxRecDepth 4096

def leaseEvents : List (DhcpEvent Bool) :=
  [.attach dhcpMac, .call 7, .msg false offerMessage, .msg false ackMessage]

def leaseState : Dhcp Bool :=
  leaseEvents.foldl (after Dhcp.next) .boot

theorem oneServer_ack {Server : Type} {s : Dhcp Server} {server : Server} (attempt : Nat)
    (offer osrv : UInt32) (m : Bytes) (hphase : s.phase = .ack attempt offer osrv)
    (htype : dhcpType b = 5) (hasked : s.asked = some (server, m))
    : s.OneServer (.msg server b) := by
  intro _
  rw [hphase]
  simp only
  rw [if_pos htype]
  exact ⟨m, hasked⟩

theorem dhcp_one_server_lease
    : leaseState.phase = .done 0 ∧ leaseState.cfg.gw = 0x0A000001
      ∧ ∃ server offer ack, leaseState.asked = some (server, offer)
          ∧ leaseState.acked = some (server, ack) ∧ leaseState.cfg = leaseOf offer ack := by
  have hrun : Run Dhcp.Step Dhcp.OneServer (Dhcp.boot : Dhcp Bool) leaseState := by
    apply Run.of_possible .refl
    refine ⟨rfl, trivial, rfl, trivial, by decide +kernel, ?_, by decide +kernel, ?_, trivial⟩
    . intro _
      exact .inl (by decide +kernel)
    . apply oneServer_ack 0 0x0A000005 0 offerMessage
      . decide +kernel
      . decide +kernel
      . decide +kernel
  have hdone : leaseState.phase = .done 0 := by decide +kernel
  obtain ⟨server, offer, ack, hasked, hacked, _, _, hcfg⟩ := (dhcp_one_server hrun).1 hdone
  exact ⟨hdone, by decide +kernel, server, offer, ack, hasked, hacked, hcfg⟩

end Lease

/--
The OFFER of a second server comes between the OFFER and the ACK of the first one.
-/
def mixedEvents : List (DhcpEvent Bool) :=
  [.attach dhcpMac, .call 7, .msg false offerMessage, .msg true lateMessage, .msg false ackMessage]

def mixedState : Dhcp Bool :=
  mixedEvents.foldl (after Dhcp.next) .boot

/--
The gateway of the second server is configured.
-/
theorem dhcp_mixed
    : ∃ s : Dhcp Bool, Run Dhcp.Step (fun _ _ => True) .boot s ∧ s.phase = .done 0
      ∧ ¬∃ server offer ack, s.asked = some (server, offer) ∧ s.acked = some (server, ack)
          ∧ s.cfg = leaseOf offer ack := by
  have hrun : Run Dhcp.Step (fun _ _ => True) (Dhcp.boot : Dhcp Bool) mixedState := by
    apply Run.of_possible .refl
    exact ⟨rfl, trivial, rfl, trivial, by decide +kernel, trivial, by decide +kernel, trivial,
      by decide +kernel, trivial, trivial⟩
  have hgw : mixedState.cfg.gw ≠ (leaseOf offerMessage ackMessage).gw := by decide +kernel
  refine ⟨mixedState, hrun, by decide +kernel, ?_⟩
  rintro ⟨server, offer, ack, hasked, hacked, hcfg⟩
  have hoffer : mixedState.asked = some (false, offerMessage) := by decide +kernel
  have hack : mixedState.acked = some (false, ackMessage) := by decide +kernel
  rw [hoffer] at hasked
  rw [hack] at hacked
  cases hasked
  cases hacked
  exact hgw (congrArg Cfg.gw hcfg)

end TanjaOS
