import TanjaOS.Lib.Run
import TanjaOS.Net.Impl
import TanjaOS.Net.Tcp.Conn

/-!
The stack as a machine. `ip_send` waits in `arp_resolve` for the hardware address of the next hop,
and polls the card while it does. So `net_poll_inner` can run within a call of `ip_send` that a
handler of another `net_poll_inner` has made: what is running is a stack of these two.
-/

open Lib

namespace TanjaOS

inductive Ctl where
  /-- `net_poll_inner`, at the head of its loop. -/
  | poll (budget : Nat)
  /-- `arp_resolve` within `ip_send`, in the loop that waits for `hop`. -/
  | resolve (hop : UInt32) (tries : Nat) (out : Out)

/--
A frame that is handed to the card, and the call of `ip_send` that it is made by, if any.
-/
structure Sent where
  frame : Bytes
  out : Option Out

/--
`ctl` has what runs on top, `sent` has the newest frame first.
-/
structure Stack where
  net : Net
  ctl : List Ctl
  sent : List Sent

/--
The calls of the kernel, cut at the places where they poll: `select_nic` attaches a card, `net_dhcp`
and `net_set_static` configure the addresses and forget the ARP table, `net_dhcp` and `net_resolve`
listen for and take datagrams, the functions on connections are those of `Conn`.
-/
inductive NetCall where
  | attach (mac : Octets 6)
  | configure (cfg : Cfg)
  | forgetArp
  | listen (port : UInt16)
  | taken
  | udpSend (dst : UInt32) (sport dport : UInt16) (data : Bytes)
  | ping (ip : UInt32)
  | connect (rip : UInt32) (rport lport : UInt16) (iss : UInt32)
  | number (n : UInt32)
  | tcpTx (seq : UInt32) (flags : UInt8) (data : Bytes) (mssOpt : Bool)
  | recv (cap : Nat)
  | hangUp

inductive StackEvent where
  | call (c : NetCall)
  | poll
  /-- `nic.recv` returns the length of the frame `b`. -/
  | frame (b : Bytes)
  | endPoll
  /-- The hop is in the ARP table when `net_poll_inner` returns to `arp_resolve`. -/
  | resolved
  | timeout

namespace Net

/--
A call up to the next poll, with what it hands to `ip_send`.
-/
def call (s : Net) : NetCall → Checked (Net × Action)
  | .attach mac => return ({ s with mac, cfg := .zero, arpTab := fun _ => .zero }, .none)
  | .configure cfg => return ({ s with cfg }, .none)
  | .forgetArp => return ({ s with arpTab := fun _ => .zero }, .none)
  | .listen port => return ({ s with us := { s.us with port, ready := false } }, .none)
  | .taken => return ({ s with us := { s.us with ready := false } }, .none)
  | .udpSend dst sport dport data => s.udpSend dst sport dport data
  | .ping ip => return s.ping ip
  | .connect rip rport lport iss =>
    return ({ s with tc := (Conn.start rip rport lport iss).tc }, .none)
  | .number n => return ({ s with tc := { s.tc with sndNxt := s.tc.sndNxt + n } }, .none)
  | .tcpTx seq flags data mssOpt => s.tcpTx seq flags data mssOpt
  | .recv cap => return ({ s with tc := (ringDrain cap s.tc).2 }, .none)
  | .hangUp => return ({ s with tc := { s.tc with state := .closed } }, .none)

end Net

namespace Stack

def boot (mac : Octets 6) : Stack where
  net := .boot mac
  ctl := []
  sent := []

def put (s : Stack) (f : Option Bytes) (out : Option Out) : Stack :=
  match f with
  | some frame => { s with sent := { frame, out } :: s.sent }
  | none => s

/--
`arp_send(1, 0, hop)`
-/
def request (s : Stack) (hop : UInt32) : Checked Stack := do
  let f ← s.net.arpSend 1 none hop
  return s.put f none

def deliver (s : Stack) (mac : Octets 6) (o : Out) : Checked Stack := do
  let (net, f) ← s.net.ipDeliver mac o
  return { s with net }.put f (some o)

/--
`ip_send` up to the loop in which `arp_resolve` waits, or to its end.
-/
def ipSend (s : Stack) (o : Out) : Checked Stack := do
  if 1480 < o.len then
    return s
  else if o.dst = 0xFFFFFFFF then
    s.deliver bcast o
  else
    let hop := s.net.hop o.dst
    if hop = 0 then
      return s
    else
      match s.net.arpLookup hop with
      | some mac => s.deliver mac o
      | none => request { s with ctl := .resolve hop 0 o :: s.ctl } hop

def act (s : Stack) : Action → Checked Stack
  | .none => return s
  | .frame f => return s.put (some f) none
  | .send o => s.ipSend o

def next (s : Stack) : StackEvent → Checked (Option Stack)
  | .call c =>
    match s.ctl with
    | [] => do
      let (net, a) ← s.net.call c
      return some (← { s with net }.act a)
    | _ => return none
  | .poll =>
    match s.ctl with
    | [] => return some { s with ctl := [.poll 32] }
    | .resolve hop _ _ :: _ =>
      match s.net.arpLookup hop with
      | none => return some { s with ctl := .poll 32 :: s.ctl }
      | some _ => return none
    | .poll _ :: _ => return none
  | .frame b =>
    match s.ctl with
    | .poll (budget + 1) :: ctl => do
      if 0 < b.length ∧ b.length ≤ 2048 then
        let (net, a) ← s.net.frameIn b
        return some (← { s with net, ctl := .poll budget :: ctl }.act a)
      else
        return none
    | _ => return none
  | .endPoll =>
    match s.ctl with
    | .poll _ :: ctl => return some { s with ctl }
    | _ => return none
  | .resolved =>
    match s.ctl with
    | .resolve hop _ o :: ctl =>
      match s.net.arpLookup hop with
      | some mac => return some (← { s with ctl }.deliver mac o)
      | none => return none
    | _ => return none
  | .timeout =>
    match s.ctl with
    | .resolve hop tries o :: ctl =>
      match s.net.arpLookup hop with
      | some _ => return none
      | none =>
        if tries + 1 < 4 then
          return some (← { s with ctl := .resolve hop (tries + 1) o :: ctl }.request hop)
        else
          return some { s with ctl }
    | _ => return none

def next? (s : Stack) (e : StackEvent) : Option Stack :=
  match s.next e with
  | .ok r => r
  | .error _ => none

def Step (e : StackEvent) (s s' : Stack) : Prop :=
  s.next? e = some s'

/--
How deep `net_poll_inner` is nested.
-/
def depth (s : Stack) : Nat :=
  s.ctl.countP (fun | .poll _ => true | .resolve _ _ _ => false)

end Stack

end TanjaOS
