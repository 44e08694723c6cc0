import TanjaOS.Lib.Checked
import TanjaOS.Lib.Ring
import TanjaOS.Lib.Seq

/-!
The TCP connection: what a segment does to it, and the calls that send, receive and close.
-/

open Lib

namespace TanjaOS

def tFin : UInt8 := 0x01

def tSyn : UInt8 := 0x02

def tRst : UInt8 := 0x04

def tAck : UInt8 := 0x10

inductive TcpState where
  | closed
  | synSent
  | estab
  | closeWait
  deriving DecidableEq

def tRing : Nat := 1024 * 1024

/--
`tc`. The head, the tail and the count of the ring are below 2^32 anyway, so they are numbers here.
-/
structure Tc where
  state : TcpState
  rip : UInt32
  rport : UInt16
  lport : UInt16
  sndUna : UInt32
  sndNxt : UInt32
  rcvNxt : UInt32
  mss : UInt16
  fin : Bool
  rst : Bool
  ring : Mem
  rhead : Nat
  rtail : Nat
  rcount : Nat

namespace Tc

def zeroed : Tc where
  state := .closed
  rip := 0
  rport := 0
  lport := 0
  sndUna := 0
  sndNxt := 0
  rcvNxt := 0
  mss := 0
  fin := false
  rst := false
  ring _ := 0
  rhead := 0
  rtail := 0
  rcount := 0

/--
The free bytes of the ring.
-/
def room (t : Tc) : Nat :=
  tRing - t.rcount

end Tc

/--
The walk over the options of a SYN, from offset `o` on. Returns the last maximum segment size.
-/
def tcpOptions (b : Bytes) (p hl : Nat) : (fuel o : Nat) → (mss : UInt16) → Checked UInt16
  | 0, _, _ => .error .loop
  | fuel + 1, o, mss => do
    if o + 1 < hl then
      let kind ← load8 b (p + o)
      if kind = 0 then
        return mss
      else if kind = 1 then
        tcpOptions b p hl fuel (o + 1) mss
      else
        let size ← load8 b (p + o + 1)
        if size < 2 ∨ hl < o + size.toNat then
          return mss
        else
          let mss ← (if kind = 2 ∧ size = 4 then load16 b (p + o + 2) else pure mss)
          tcpOptions b p hl fuel (o + size.toNat) mss
    else
      return mss

/--
Copies `n` bytes from offset `d` on into the ring.
-/
def ringFill (b : Bytes) : (n d : Nat) → (t : Tc) → Checked Tc
  | 0, _, t => return t
  | n + 1, d, t => do
    let x ← load8 b d
    store tRing t.rhead 1
    ringFill b n (d + 1) { t with ring := t.ring.set t.rhead x, rhead := (t.rhead + 1) % tRing }

/--
A segment while the connection is being opened.
-/
def tcpInSyn (t : Tc) (b : Bytes) (p hl : Nat) (seq ack : UInt32) (fl : UInt8)
    : Checked (Tc × Bool) := do
  if fl &&& (tSyn ||| tAck) = tSyn ||| tAck ∧ ack = t.sndNxt then
    let mss ← tcpOptions b p hl hl 20 536
    let mss := if mss > 1460 then 1460 else mss
    return ({ t with rcvNxt := seq + 1, sndUna := ack, mss, state := .estab }, true)
  else
    return (t, false)

def tcpInAck (t : Tc) (ack : UInt32) (fl : UInt8) : Tc :=
  if fl &&& tAck ≠ 0 ∧ 0 < signed (ack - t.sndUna) ∧ signed (ack - t.sndNxt) ≤ 0 then
    { t with sndUna := ack }
  else
    t

/--
The `size` bytes of data at offset `d`. Returns the flags as well, a FIN that is not in order is
taken out of them.
-/
def tcpInData (t : Tc) (b : Bytes) (d size : Nat) (seq : UInt32) (fl : UInt8)
    : Checked (Tc × UInt8) := do
  if size = 0 then
    return (t, fl)
  else if seq = t.rcvNxt then
    let n := min size t.room
    let t ← ringFill b n d t
    let fl := if n < size then fl &&& ~~~tFin else fl
    return ({ t with rcount := t.rcount + n, rcvNxt := t.rcvNxt + .ofNat n }, fl)
  else if 0 < signed (t.rcvNxt - seq) ∧ 0 < signed (seq + .ofNat size - t.rcvNxt) then
    let skip := t.rcvNxt - seq
    let rest := (UInt32.ofNat size - skip).toNat
    let n := min rest t.room
    let t ← ringFill b n (d + skip.toNat) t
    let fl := if n < rest then fl &&& ~~~tFin else fl
    return ({ t with rcount := t.rcount + n, rcvNxt := t.rcvNxt + .ofNat n }, fl)
  else
    return (t, fl &&& ~~~tFin)

def tcpInFin (t : Tc) (size : Nat) (seq : UInt32) (fl : UInt8) : Tc × Bool :=
  if fl &&& tFin ≠ 0 ∧ seq + .ofNat size = t.rcvNxt then
    let state := if t.state = .estab then .closeWait else t.state
    ({ t with rcvNxt := t.rcvNxt + 1, fin := true, state }, true)
  else
    (t, false)

/--
The segment of `len` bytes at offset `p`, coming from `src`. The flag that is returned says whether
it ends with `tcp_tx(tc.snd_nxt, T_ACK, 0, 0, 0)`.
-/
def tcpIn (t : Tc) (src : UInt32) (b : Bytes) (p len : Nat) : Checked (Tc × Bool) := do
  if len < 20 ∨ t.state = .closed then
    return (t, false)
  else
    let sport ← load16 b p
    let dport ← load16 b (p + 2)
    if src ≠ t.rip ∨ sport ≠ t.rport ∨ dport ≠ t.lport then
      return (t, false)
    else
      let seq ← load32 b (p + 4)
      let ack ← load32 b (p + 8)
      let off ← load8 b (p + 12)
      let hl := (off >>> 4).toNat * 4
      let fl ← load8 b (p + 13)
      if hl < 20 ∨ len < hl then
        return (t, false)
      else if fl &&& tRst ≠ 0 then
        return ({ t with rst := true, state := .closed }, false)
      else if t.state = .synSent then
        tcpInSyn t b p hl seq ack fl
      else
        let size := len - hl
        let (t, fl) ← tcpInData (tcpInAck t ack fl) b (p + hl) size seq fl
        let (t, fin) := tcpInFin t size seq fl
        return (t, size ≠ 0 ∨ fin)

end TanjaOS
