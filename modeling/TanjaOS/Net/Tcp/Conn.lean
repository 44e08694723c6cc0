import TanjaOS.Net.Tcp.Lemmas

/-!
A connection and the calls on it, as a machine: `tcp_connect`, `tcp_send`, `tcp_recv` and
`tcp_close` wait for the network in loops, and a segment can arrive between any two steps of them.
A segment that arrives while `tcp_tx` waits for ARP is no exception, since `tcp_tx` is the last
thing that `tcp_in` and `tcp_recv` do with the connection, and `tcp_send` and `tcp_connect` change
it only before.
-/

open Lib

namespace TanjaOS

/--
The call that is running. `sent` is set once `tcp_tx` is done and the loop waits.
-/
inductive Call where
  | idle
  | connect (tries : Nat) (sent : Bool)
  /-- `data` is what is left of the argument `arg`, its first `n` bytes are on their way. -/
  | send (arg data : Bytes) (n : Nat) (seq : UInt32) (tries : Nat) (sent : Bool)
  | recv (cap : Nat)
  | close
  /-- `tcp_close` has returned, the next call is another `tcp_connect`. -/
  | over

/--
What can be seen of a connection. A segment comes with the number of bytes that have been given
sequence numbers when it arrives or is handed to `tcp_tx`.
-/
inductive Obs where
  | arrived (s : Seg) (numbered : Nat)
  | emitted (seq : UInt32) (data : Bytes) (numbered : Nat)
  | sent (arg : Bytes) (ret : Int)
  | received (ret : Int) (buf : Bytes)

/--
A connection with a record of what has happened: the numbers that the two ends started with, the
bytes that have been given sequence numbers, and the observations, newest first.
-/
structure Conn where
  tc : Tc
  call : Call
  iss : UInt32
  peer : Option UInt32
  stream : Bytes
  trace : List Obs

inductive ConnEvent where
  | segment (src : UInt32) (p : Bytes)
  /-- `tcp_tx` returns, with 0 or not. -/
  | tx (ok : Bool)
  /-- The tests that follow `net_poll_inner` in a loop. -/
  | poll
  | timeout
  | send (data : Bytes)
  | recv (cap : Nat)
  | close

/--
`tcp_connect` up to its loop.
-/
def Conn.start (rip : UInt32) (rport lport : UInt16) (iss : UInt32) : Conn where
  tc := { Tc.zeroed with rip, rport, lport, sndUna := iss, sndNxt := iss + 1, state := .synSent }
  call := .connect 0 false
  iss := iss
  peer := none
  stream := []
  trace := []

/--
The loop that empties the ring into a buffer of `cap` bytes.
-/
def ringDrain : (cap : Nat) → Tc → Bytes × Tc
  | 0, t => ([], t)
  | cap + 1, t =>
    if t.rcount = 0 then
      ([], t)
    else
      let r := ringDrain cap { t with rtail := (t.rtail + 1) % tRing, rcount := t.rcount - 1 }
      (t.ring t.rtail :: r.1, r.2)

/--
A call of `tcp_send` has returned something else than 0.
-/
def Obs.failed : Obs → Bool
  | .sent _ ret => ret ≠ 0
  | _ => false

def Obs.buf : Obs → Bytes
  | .received _ buf => buf
  | _ => []

def Obs.arg : Obs → Bytes
  | .sent arg _ => arg
  | _ => []

namespace Conn

def emission (s : Conn) (seq : UInt32) (data : Bytes) : Obs :=
  .emitted seq data s.stream.length

/--
The head of the loop in `tcp_send`, `data` is what is left to send of `arg`.
-/
def sendLoop (s : Conn) (arg data : Bytes) : Conn :=
  if data = [] then
    { s with call := .idle, trace := .sent arg 0 :: s.trace }
  else
    let n := if data.length < s.tc.mss.toNat then data.length else s.tc.mss.toNat
    { s with
      tc := { s.tc with sndNxt := s.tc.sndNxt + .ofNat n }
      call := .send arg data n s.tc.sndNxt 0 false
      stream := s.stream ++ data.take n
    }

def sendFail (s : Conn) (arg : Bytes) : Conn :=
  { s with call := .idle, trace := .sent arg (-1) :: s.trace }

def segment (s : Conn) (src : UInt32) (p : Bytes) : Option Conn :=
  if p.length < 65536 then
    match tcpIn s.tc src p 0 p.length with
    | .error _ => none
    | .ok (tc, answer) =>
      let seg := segAt p 0 p.length
      some { s with
        tc
        peer := if s.tc.state = .synSent ∧ tc.state = .estab then some seg.seq else s.peer
        trace := (if answer then [s.emission tc.sndNxt []] else []) ++
          .arrived seg s.stream.length :: s.trace
      }
  else
    none

def tx (s : Conn) (ok : Bool) : Option Conn :=
  match s.call with
  | .connect tries false =>
    if ok then
      some { s with call := .connect tries true }
    else
      some { s with call := .over, tc := { s.tc with state := .closed } }
  | .send arg data n seq tries false =>
    let s := { s with trace := s.emission seq (data.take n) :: s.trace }
    some (if ok then { s with call := .send arg data n seq tries true } else s.sendFail arg)
  | _ => none

def recvPoll (s : Conn) (cap : Nat) : Conn :=
  if s.tc.rcount ≠ 0 then
    let before := s.tc.room
    let (buf, tc) := ringDrain cap s.tc
    let update := before < 2920 ∧ 2920 ≤ tc.room ∧ tc.state ≠ .closed
    { s with
      tc
      call := .idle
      trace :=
        (if update then [s.emission tc.sndNxt []] else []) ++ .received buf.length buf :: s.trace
    }
  else if s.tc.fin then
    { s with call := .idle, trace := .received 0 [] :: s.trace }
  else if s.tc.rst then
    { s with call := .idle, trace := .received (-2) [] :: s.trace }
  else
    s

def poll (s : Conn) : Option Conn :=
  match s.call with
  | .connect _ true =>
    if s.tc.state = .estab then
      some { s with call := .idle }
    else if s.tc.rst then
      some { s with call := .over }
    else
      some s
  | .send arg data n _ _ true =>
    if s.tc.rst ∨ s.tc.state = .closed then
      some (s.sendFail arg)
    else if 0 ≤ signed (s.tc.sndUna - s.tc.sndNxt) then
      some (s.sendLoop arg (data.drop n))
    else
      some s
  | .recv cap => some (s.recvPoll cap)
  | .close =>
    if 0 ≤ signed (s.tc.sndUna - s.tc.sndNxt) then
      some { s with call := .over, tc := { s.tc with state := .closed } }
    else
      some s
  | _ => none

def timeout (s : Conn) : Option Conn :=
  match s.call with
  | .connect tries true =>
    if tries + 1 < 4 then
      some { s with call := .connect (tries + 1) false }
    else
      some { s with call := .over, tc := { s.tc with state := .closed } }
  | .send arg data n seq tries true =>
    if tries + 1 < 6 then
      some { s with call := .send arg data n seq (tries + 1) false }
    else
      some (s.sendFail arg)
  | .recv _ => some { s with call := .idle, trace := .received (-1) [] :: s.trace }
  | .close => some { s with call := .over, tc := { s.tc with state := .closed } }
  | _ => none

def close (s : Conn) : Conn :=
  if s.tc.state = .estab ∨ s.tc.state = .closeWait then
    { s with
      tc := { s.tc with sndNxt := s.tc.sndNxt + 1 }
      call := .close
      trace := s.emission s.tc.sndNxt [] :: s.trace
    }
  else
    { s with call := .over, tc := { s.tc with state := .closed } }

/--
The next state, if the event is possible. The callers of `tcp_send` close the connection as soon as
it has failed once.
-/
def next (s : Conn) : ConnEvent → Option Conn
  | .segment src p => s.segment src p
  | .tx ok => s.tx ok
  | .poll => s.poll
  | .timeout => s.timeout
  | .send data =>
    match s.call with
    | .idle => if s.trace.any Obs.failed then none else some (s.sendLoop data data)
    | _ => none
  | .recv cap =>
    match s.call with
    | .idle => if 0 < cap then some { s with call := .recv cap } else none
    | _ => none
  | .close =>
    match s.call with
    | .idle => some s.close
    | _ => none

def Step (e : ConnEvent) (s s' : Conn) : Prop :=
  s.next e = some s'

def collect (f : Obs → Bytes) (trace : List Obs) : Bytes :=
  trace.reverse.flatMap f

theorem collect_cons (f : Obs → Bytes) (o : Obs) (trace : List Obs)
    : collect f (o :: trace) = collect f trace ++ f o := by
  simp [collect]

theorem collect_append (f : Obs → Bytes) {obs : List Obs} (trace : List Obs)
    (h : ∀ o ∈ obs, f o = [])
    : collect f (obs ++ trace) = collect f trace := by
  unfold collect
  rw [List.reverse_append, List.flatMap_append]
  have : obs.reverse.flatMap f = [] := by
    rw [List.flatMap_eq_nil_iff]
    intro o ho
    exact h o (List.mem_reverse.mp ho)
  rw [this, List.append_nil]

/--
The bytes that the calls of `tcp_recv` have returned.
-/
def returned (trace : List Obs) : Bytes :=
  collect Obs.buf trace

/--
The bytes that the calls of `tcp_send` were given.
-/
def given (trace : List Obs) : Bytes :=
  collect Obs.arg trace

theorem segment_cases {s s' : Conn} {src : UInt32} {p : Bytes} (h : s.segment src p = some s')
    (hhead : s.tc.rhead < tRing)
    : p.length < 65536 ∧ ∃ tc answer, TcpIn s.tc (segAt p 0 p.length) tc answer
      ∧ s' = { s with
          tc
          peer :=
            if s.tc.state = .synSent ∧ tc.state = .estab then
              some (segAt p 0 p.length).seq
            else
              s.peer
          trace :=
            (if answer then [s.emission tc.sndNxt []] else []) ++
              .arrived (segAt p 0 p.length) s.stream.length :: s.trace
        } := by
  unfold segment at h
  split at h
  . next hlen =>
    have hyields : (tcpIn s.tc src p 0 p.length).Yields _ :=
      yields_tcpIn src (by simp) (by omega) hhead
    obtain ⟨r, heq, hin, _⟩ := hyields
    rw [heq] at h
    injection h with h
    exact ⟨hlen, r.1, r.2, hin, h.symm⟩
  . cases h

end Conn

end TanjaOS
