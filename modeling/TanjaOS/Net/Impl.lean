import TanjaOS.Lib.Csum
import TanjaOS.Net.Tcp.Impl

/-!
The stack between the card and the sockets: what the functions of `net.c` do with a frame, and what
they put into one. A received frame is `b`, a packet within it has `len` bytes from offset `p` on.
-/

open Lib

namespace TanjaOS

/--
`csum_add`. Fewer than 2^16 words are added at a time, the `uint32_t` does not wrap around.
-/
def csumAdd : (sum : Nat) → Bytes → Nat
  | sum, [] => sum
  | sum, [x] => sum + 256 * x.toNat
  | sum, x :: y :: bs => csumAdd (sum + (256 * x.toNat + y.toNat)) bs

def csumFold : (fuel sum : Nat) → Nat
  | 0, sum => sum
  | fuel + 1, sum =>
    if sum / 65536 ≠ 0 then
      csumFold fuel (sum % 65536 + sum / 65536)
    else
      sum

def csumFin (sum : Nat) : UInt16 :=
  ~~~.ofNat (csumFold sum sum)

def bcast : Octets 6 :=
  ⟨[0xFF, 0xFF, 0xFF, 0xFF, 0xFF, 0xFF], rfl⟩

structure Cfg where
  ip : UInt32
  mask : UInt32
  gw : UInt32
  dns : UInt32
  deriving DecidableEq

def Cfg.zero : Cfg where
  ip := 0
  mask := 0
  gw := 0
  dns := 0

structure ArpEntry where
  ip : UInt32
  mac : Octets 6
  ok : Bool

def ArpEntry.zero : ArpEntry where
  ip := 0
  mac := ⟨[0, 0, 0, 0, 0, 0], rfl⟩
  ok := false

/--
`us`. Only the first `us.len` bytes of the buffer are kept, they are all that is ever read.
-/
structure Us where
  port : UInt16
  ready : Bool
  src : UInt32
  sport : UInt16
  buf : Bytes

/--
The static variables of the stack, with the card attached. The last three are the static buffers in
which `tcp_tx`, `icmp_in` and `udp_send` build what they hand to `ip_send`.
-/
structure Net where
  mac : Octets 6
  cfg : Cfg
  arpTab : Nat → ArpEntry
  arpNext : Nat
  ipId : UInt16
  pingGot : Bool
  pingSeq : UInt16
  us : Us
  tc : Tc
  seg : Mem
  reply : Mem
  datagram : Mem

/--
Where the argument `data` of `ip_send` points to: one of the static buffers, or bytes on the stack
of the caller.
-/
inductive Source where
  | seg
  | reply
  | datagram
  | own (bs : Bytes)
  deriving DecidableEq

/--
The arguments of `ip_send`, and for the record what `data` points to when it is called.
-/
structure Out where
  proto : UInt8
  dst : UInt32
  data : Source
  len : Nat
  built : Bytes

/--
All that a handler sends: a frame at once, or what it hands to `ip_send` in the end.
-/
inductive Action where
  | none
  | frame (f : Bytes)
  | send (o : Out)

namespace Net

/--
The state at boot.
-/
def boot (mac : Octets 6) : Net where
  mac := mac
  cfg := .zero
  arpTab _ := .zero
  arpNext := 0
  ipId := 0
  pingGot := false
  pingSeq := 0
  us := { port := 0, ready := false, src := 0, sport := 0, buf := [] }
  tc := .zeroed
  seg _ := 0
  reply _ := 0
  datagram _ := 0

/--
The first entry of the ARP table that is in use for `ip`.
-/
def arpFind (s : Net) (ip : UInt32) : Option Nat :=
  (List.range 8).find? (fun i => (s.arpTab i).ok && (s.arpTab i).ip == ip)

def setArp (s : Net) (i : Nat) (e : ArpEntry) : Net :=
  { s with arpTab := fun j => if j = i then e else s.arpTab j }

def arpLearn (s : Net) (ip : UInt32) (mac : Octets 6) : Checked Net := do
  match s.arpFind ip with
  | some i => return s.setArp i { s.arpTab i with mac }
  | none =>
    store 8 s.arpNext 1
    return { s.setArp s.arpNext { ip, mac, ok := true } with arpNext := (s.arpNext + 1) % 8 }

def arpLookup (s : Net) (ip : UInt32) : Option (Octets 6) :=
  (s.arpFind ip).map (fun i => (s.arpTab i).mac)

/--
The frame that is handed to the card, if it is short enough.
-/
def ethSend (s : Net) (dst : Octets 6) (type : UInt16) (payload : Bytes)
    : Checked (Option Bytes) := do
  if 1500 < payload.length then
    return none
  else
    store 1600 0 14
    store 1600 14 payload.length
    return some (dst.1 ++ s.mac.1 ++ be16 type ++ payload)

def arpPacket (s : Net) (op : UInt16) (tmac : Option (Octets 6)) (tip : UInt32) : Bytes :=
  be16 1 ++ be16 0x0800 ++ [6, 4] ++ be16 op ++ s.mac.1 ++ be32 s.cfg.ip
    ++ (match tmac with | some mac => mac.1 | none => [0, 0, 0, 0, 0, 0]) ++ be32 tip

def arpSend (s : Net) (op : UInt16) (tmac : Option (Octets 6)) (tip : UInt32)
    : Checked (Option Bytes) := do
  let p := s.arpPacket op tmac tip
  if op = 1 then
    s.ethSend bcast 0x0806 p
  else
    match tmac with
    | some mac => s.ethSend mac 0x0806 p
    | none => throw .load

def arpIn (s : Net) (b : Bytes) (p len : Nat) : Checked (Net × Action) := do
  if len < 28 then
    return (s, .none)
  else
    let hw ← load16 b p
    let proto ← load16 b (p + 2)
    if hw ≠ 1 ∨ proto ≠ 0x0800 then
      return (s, .none)
    else
      let op ← load16 b (p + 6)
      let sip ← load32 b (p + 14)
      let tip ← load32 b (p + 24)
      let smac ← load b (p + 8) 6
      let s ← (if sip ≠ 0 then s.arpLearn sip smac else pure s)
      if op = 1 ∧ s.cfg.ip ≠ 0 ∧ tip = s.cfg.ip then
        match ← s.arpSend 2 (some smac) sip with
        | some f => return (s, .frame f)
        | none => return (s, .none)
      else
        return (s, .none)

/--
The echo reply to the request `req`.
-/
def echoReply (req : Bytes) : Bytes :=
  let r := put16 (req.set 0 0) 2 0
  put16 r 2 (csumFin (csumAdd 0 r))

def icmpIn (s : Net) (src : UInt32) (b : Bytes) (p len : Nat) : Checked (Net × Action) := do
  if len < 8 then
    return (s, .none)
  else
    let type ← load8 b p
    if type = 8 ∧ s.cfg.ip ≠ 0 then
      if 1480 < len then
        return (s, .none)
      else
        let req ← load b p len
        store 1480 0 len
        let r := echoReply req.1
        let o := { proto := 1, dst := src, data := .reply, len, built := r }
        return ({ s with reply := s.reply.writeBytes 0 r }, .send o)
    else if type = 0 then
      let id ← load16 b (p + 4)
      let seq ← load16 b (p + 6)
      if id = 0x544A ∧ seq = s.pingSeq then
        return ({ s with pingGot := true }, .none)
      else
        return (s, .none)
    else
      return (s, .none)

def udpIn (s : Net) (src : UInt32) (b : Bytes) (p len : Nat) : Checked (Net × Action) := do
  if len < 8 ∨ s.us.ready then
    return (s, .none)
  else
    let dport ← load16 b (p + 2)
    if dport ≠ s.us.port ∨ s.us.port = 0 then
      return (s, .none)
    else
      let n := (← load16 b (p + 4)).toNat
      if n < 8 ∨ len < n then
        return (s, .none)
      else
        let n := if 600 < n - 8 then 600 else n - 8
        let buf ← load b (p + 8) n
        store 600 0 n
        let sport ← load16 b p
        return ({ s with us := { s.us with ready := true, src, sport, buf := buf.1 } }, .none)

/--
The segment that `tcp_tx` builds, its checksum still zero.
-/
def tcpHeader (s : Net) (seq : UInt32) (flags : UInt8) (mssOpt : Bool) : Bytes :=
  let hl := if mssOpt then 24 else 20
  be16 s.tc.lport ++ be16 s.tc.rport ++ be32 seq
    ++ be32 (if flags &&& tAck ≠ 0 then s.tc.rcvNxt else 0) ++ [.ofNat (hl / 4 * 16), flags]
    ++ be16 (if 65535 < s.tc.room then 65535 else .ofNat s.tc.room) ++ be16 0 ++ be16 0
    ++ (if mssOpt then [2, 4] ++ be16 1460 else [])

def tcpSegment (s : Net) (seq : UInt32) (flags : UInt8) (data : Bytes) (mssOpt : Bool) : Bytes :=
  let seg := s.tcpHeader seq flags mssOpt ++ data
  let ph := be32 s.cfg.ip ++ be32 s.tc.rip ++ [0, 6] ++ be16 (.ofNat seg.length)
  put16 seg 16 (csumFin (csumAdd (csumAdd 0 ph) seg))

/--
`tcp_tx` up to its call of `ip_send`.
-/
def tcpTx (s : Net) (seq : UInt32) (flags : UInt8) (data : Bytes) (mssOpt : Bool)
    : Checked (Net × Action) := do
  let hl := if mssOpt then 24 else 20
  if 1480 < hl + data.length then
    return (s, .none)
  else
    let seg := s.tcpSegment seq flags data mssOpt
    store 1480 0 seg.length
    let o := { proto := 6, dst := s.tc.rip, data := .seg, len := hl + data.length, built := seg }
    return ({ s with seg := s.seg.writeBytes 0 seg }, .send o)

/--
`udp_send` up to its call of `ip_send`.
-/
def udpSend (s : Net) (dst : UInt32) (sport dport : UInt16) (data : Bytes)
    : Checked (Net × Action) := do
  if 1472 < data.length then
    return (s, .none)
  else
    let d := be16 sport ++ be16 dport ++ be16 (.ofNat (8 + data.length)) ++ be16 0 ++ data
    store 1480 0 d.length
    let o := { proto := 17, dst, data := .datagram, len := 8 + data.length, built := d }
    return ({ s with datagram := s.datagram.writeBytes 0 d }, .send o)

/--
The echo request of `net_ping`.
-/
def echoRequest (seq : UInt16) : Bytes :=
  let p := [8, 0] ++ be16 0 ++ be16 0x544A ++ be16 seq
    ++ (List.range 32).map (fun i => .ofNat (97 + (i + 8) % 23))
  put16 p 2 (csumFin (csumAdd 0 p))

/--
`net_ping` up to its call of `ip_send`.
-/
def ping (s : Net) (ip : UInt32) : Net × Action :=
  let p := echoRequest (s.pingSeq + 1)
  ({ s with pingSeq := s.pingSeq + 1, pingGot := false },
    .send { proto := 1, dst := ip, data := .own p, len := 40, built := p })

def ipIn (s : Net) (b : Bytes) (p len : Nat) : Checked (Net × Action) := do
  if len < 20 then
    return (s, .none)
  else
    let vihl ← load8 b p
    if vihl >>> 4 ≠ 4 then
      return (s, .none)
    else
      let ihl := (vihl &&& 0x0F).toNat * 4
      let tot := (← load16 b (p + 2)).toNat
      if ihl < 20 ∨ tot < ihl ∨ len < tot then
        return (s, .none)
      else
        let frag ← load16 b (p + 6)
        if frag &&& 0x3FFF ≠ 0 then
          return (s, .none)
        else
          let src ← load32 b (p + 12)
          let dst ← load32 b (p + 16)
          if s.cfg.ip ≠ 0 ∧ dst ≠ s.cfg.ip ∧ dst ≠ 0xFFFFFFFF then
            return (s, .none)
          else
            let proto ← load8 b (p + 9)
            if proto = 1 then
              s.icmpIn src b (p + ihl) (tot - ihl)
            else if proto = 6 then
              let (tc, answer) ← tcpIn s.tc src b (p + ihl) (tot - ihl)
              let s := { s with tc }
              if answer then
                s.tcpTx tc.sndNxt tAck [] false
              else
                return (s, .none)
            else if proto = 17 then
              s.udpIn src b (p + ihl) (tot - ihl)
            else
              return (s, .none)

/--
What `net_poll_inner` does with a frame.
-/
def frameIn (s : Net) (b : Bytes) : Checked (Net × Action) := do
  if b.length < 14 then
    return (s, .none)
  else
    let type ← load16 b 12
    if type = 0x0806 then
      s.arpIn b 14 (b.length - 14)
    else if type = 0x0800 then
      s.ipIn b 14 (b.length - 14)
    else
      return (s, .none)

/--
What `ip_send` reads from its argument `data`, at the time when it reads it.
-/
def read (s : Net) (data : Source) (len : Nat) : Checked Bytes := do
  match data with
  | .own bs => return (← load bs 0 len).1
  | .seg => if len ≤ 1480 then return s.seg.readBytes 0 len else throw .load
  | .reply => if len ≤ 1480 then return s.reply.readBytes 0 len else throw .load
  | .datagram => if len ≤ 1480 then return s.datagram.readBytes 0 len else throw .load

/--
The header that `ip_send` builds.
-/
def ipHeader (s : Net) (proto : UInt8) (dst : UInt32) (len : Nat) : Bytes :=
  let h := [0x45, 0] ++ be16 (.ofNat (20 + len)) ++ be16 s.ipId ++ be16 0x4000 ++ [64, proto]
    ++ be16 0 ++ be32 s.cfg.ip ++ be32 dst
  put16 h 10 (csumFin (csumAdd 0 h))

/--
`ip_send` after `arp_resolve`.
-/
def ipDeliver (s : Net) (mac : Octets 6) (o : Out) : Checked (Net × Option Bytes) := do
  let s := { s with ipId := s.ipId + 1 }
  store 1500 0 20
  let data ← s.read o.data o.len
  store 1500 20 o.len
  let f ← s.ethSend mac 0x0800 (s.ipHeader o.proto o.dst o.len ++ data)
  return (s, f)

/--
The host that `arp_resolve` looks for.
-/
def hop (s : Net) (ip : UInt32) : UInt32 :=
  if (ip ^^^ s.cfg.ip) &&& s.cfg.mask = 0 then ip else s.cfg.gw

end Net

/--
What `dhcp_parse` fills out.
-/
structure Params where
  yi : UInt32
  srv : UInt32
  mask : UInt32
  gw : UInt32
  dns : UInt32
  deriving DecidableEq

def Params.zero : Params where
  yi := 0
  srv := 0
  mask := 0
  gw := 0
  dns := 0

def dhcpOption (b : Bytes) (v : Nat) (c : UInt8) (l : Nat) (type : UInt8) (o : Params)
    : Checked (UInt8 × Params) := do
  if c = 53 ∧ 1 ≤ l then
    return (← load8 b v, o)
  else if c = 54 ∧ 4 ≤ l then
    return (type, { o with srv := ← load32 b v })
  else if c = 1 ∧ 4 ≤ l then
    return (type, { o with mask := ← load32 b v })
  else if c = 3 ∧ 4 ≤ l then
    return (type, { o with gw := ← load32 b v })
  else if c = 6 ∧ 4 ≤ l then
    return (type, { o with dns := ← load32 b v })
  else
    return (type, o)

def dhcpOptions (b : Bytes) : (fuel i : Nat) → UInt8 → Params → Checked (UInt8 × Params)
  | 0, _, _, _ => .error .loop
  | fuel + 1, i, type, o => do
    if i < b.length then
      let c ← load8 b i
      if c = 255 then
        return (type, o)
      else if c = 0 then
        dhcpOptions b fuel (i + 1) type o
      else if b.length ≤ i + 1 then
        return (type, o)
      else
        let l := (← load8 b (i + 1)).toNat
        if b.length < i + 2 + l then
          return (type, o)
        else
          let (type, o) ← dhcpOption b (i + 2) c l type o
          dhcpOptions b fuel (i + 2 + l) type o
    else
      return (type, o)

/--
Returns the type of the message, 0 if it is none for this client.
-/
def dhcpParse (mac : Octets 6) (b : Bytes) (xid : UInt32) (o : Params)
    : Checked (UInt8 × Params) := do
  if b.length < 241 then
    return (0, o)
  else
    let op ← load8 b 0
    let id ← load32 b 4
    let cookie ← load32 b 236
    if op ≠ 2 ∨ id ≠ xid ∨ cookie ≠ 0x63825363 then
      return (0, o)
    else
      let chaddr ← load b 28 6
      if chaddr ≠ mac then
        return (0, o)
      else
        let yi ← load32 b 16
        dhcpOptions b b.length 240 0 { o with yi }

/--
`none` is the return value -1.
-/
def dnsSkipName (b : Bytes) : (fuel i : Nat) → Checked (Option Nat)
  | 0, _ => .error .loop
  | fuel + 1, i => do
    if i < b.length then
      let x ← load8 b i
      if x = 0 then
        return some (i + 1)
      else if x &&& 0xC0 = 0xC0 then
        return some (i + 2)
      else
        dnsSkipName b fuel (i + x.toNat + 1)
    else
      return none

/--
The loop over `qd` questions.
-/
def dnsQuestions (b : Bytes) : (qd pos : Nat) → Checked (Option Nat)
  | 0, pos => return some pos
  | qd + 1, pos => do
    match ← dnsSkipName b (b.length + 1) pos with
    | some pos => dnsQuestions b qd (pos + 4)
    | none => return none

/--
The loop over `an` answers, up to the first address.
-/
def dnsAnswers (b : Bytes) : (an pos : Nat) → Checked (Option UInt32)
  | 0, _ => return none
  | an + 1, pos => do
    match ← dnsSkipName b (b.length + 1) pos with
    | none => return none
    | some pos =>
      if b.length < pos + 10 then
        return none
      else
        let type ← load16 b pos
        let rdl := (← load16 b (pos + 8)).toNat
        let pos := pos + 10
        if b.length < pos + rdl then
          return none
        else if type = 1 ∧ rdl = 4 then
          return some (← load32 b pos)
        else
          dnsAnswers b an (pos + rdl)

/--
What `net_resolve` makes of a datagram: it waits for another one, it fails, or it has the address.
-/
inductive DnsReply where
  | skip
  | fail
  | addr (ip : UInt32)

def dnsReply (id : UInt16) (b : Bytes) : Checked DnsReply := do
  if b.length < 12 then
    return .skip
  else
    let rid ← load16 b 0
    let qr ← load8 b 2
    if rid ≠ id ∨ qr &&& 0x80 = 0 then
      return .skip
    else
      let rcode ← load8 b 3
      if rcode &&& 0x0F ≠ 0 then
        return .fail
      else
        let qd := (← load16 b 4).toNat
        let an := (← load16 b 6).toNat
        match ← dnsQuestions b qd 12 with
        | none => return .fail
        | some pos =>
          match ← dnsAnswers b an pos with
          | some ip => return .addr ip
          | none => return .fail

end TanjaOS
