import TanjaOS.Net.Step

/-!
No frame makes the stack read or write out of bounds or loop forever, and neither does a datagram
that waits for the DHCP client or the resolver.
-/

open Lib Lib.Checked

namespace TanjaOS

variable {b : Bytes}

theorem yields_dhcpOption {v l : Nat} (hv : v + l ≤ b.length) (c type : UInt8) (o : Params)
    : (dhcpOption b v c l type o).Yields (fun _ => True) := by
  have word : ∀ f : UInt32 → UInt8 × Params, 4 ≤ l →
      (do return f (← load32 b v) : Checked (UInt8 × Params)).Yields (fun _ => True) := by
    intro f hl
    apply yields_bind (yields_load32 (by omega))
    intro _ _
    exact yields_pure trivial
  unfold dhcpOption
  apply yields_ite
  . intro h
    apply yields_bind (yields_load8 (by omega))
    intro _ _
    exact yields_pure trivial
  . intro _
    apply yields_ite (fun h => word _ h.2)
    intro _
    apply yields_ite (fun h => word _ h.2)
    intro _
    apply yields_ite (fun h => word _ h.2)
    intro _
    apply yields_ite (fun h => word _ h.2)
    intro _
    exact yields_pure trivial

theorem yields_dhcpOptions {fuel i : Nat} (hpos : 0 < fuel) (hfuel : b.length < fuel + i)
    (type : UInt8) (o : Params)
    : (dhcpOptions b fuel i type o).Yields (fun _ => True) := by
  induction fuel generalizing i type o with
  | zero => omega
  | succ fuel ih =>
    unfold dhcpOptions
    apply yields_ite
    . intro hi
      apply yields_bind (yields_load8 hi)
      intro c _
      apply yields_ite
      . intro _
        exact yields_pure trivial
      . intro _
        apply yields_ite
        . intro _
          exact ih (by omega) (by omega) type o
        . intro _
          apply yields_ite
          . intro _
            exact yields_pure trivial
          . intro hl
            apply yields_bind (yields_load8 (by omega))
            intro l _
            apply yields_ite
            . intro _
              exact yields_pure trivial
            . intro hend
              apply yields_bind (yields_dhcpOption (by omega) c type o)
              intro r _
              exact ih (by omega) (by omega) r.1 r.2
    . intro _
      exact yields_pure trivial

theorem yields_dhcpParse (mac : Octets 6) (b : Bytes) (xid : UInt32) (o : Params)
    : (dhcpParse mac b xid o).Yields (fun _ => True) := by
  unfold dhcpParse
  apply yields_ite
  . intro _
    exact yields_pure trivial
  . intro hlen
    apply yields_bind (yields_load8 (by omega))
    intro op _
    apply yields_bind (yields_load32 (by omega))
    intro id _
    apply yields_bind (yields_load32 (by omega))
    intro cookie _
    apply yields_ite
    . intro _
      exact yields_pure trivial
    . intro _
      apply yields_bind (yields_load (by omega))
      intro chaddr _
      apply yields_ite
      . intro _
        exact yields_pure trivial
      . intro _
        apply yields_bind (yields_load32 (by omega))
        intro yi _
        exact yields_dhcpOptions (by omega) (by omega) 0 _

theorem yields_dnsSkipName {fuel i : Nat} (hpos : 0 < fuel) (hfuel : b.length < fuel + i)
    : (dnsSkipName b fuel i).Yields (fun _ => True) := by
  induction fuel generalizing i with
  | zero => omega
  | succ fuel ih =>
    unfold dnsSkipName
    apply yields_ite
    . intro hi
      apply yields_bind (yields_load8 hi)
      intro x _
      apply yields_ite
      . intro _
        exact yields_pure trivial
      . intro _
        apply yields_ite
        . intro _
          exact yields_pure trivial
        . intro _
          exact ih (by omega) (by omega)
    . intro _
      exact yields_pure trivial

theorem yields_dnsQuestions (qd pos : Nat) : (dnsQuestions b qd pos).Yields (fun _ => True) := by
  induction qd generalizing pos with
  | zero => exact yields_pure trivial
  | succ qd ih =>
    unfold dnsQuestions
    apply yields_bind (yields_dnsSkipName (by omega) (by omega))
    intro r _
    cases r with
    | none => exact yields_pure trivial
    | some pos => exact ih (pos + 4)

theorem yields_dnsAnswers (an pos : Nat) : (dnsAnswers b an pos).Yields (fun _ => True) := by
  induction an generalizing pos with
  | zero => exact yields_pure trivial
  | succ an ih =>
    unfold dnsAnswers
    apply yields_bind (yields_dnsSkipName (by omega) (by omega))
    intro r _
    cases r with
    | none => exact yields_pure trivial
    | some pos =>
      apply yields_ite
      . intro _
        exact yields_pure trivial
      . intro h10
        apply yields_bind (yields_load16 (by omega))
        intro type _
        apply yields_bind (yields_load16 (by omega))
        intro rdl _
        apply yields_ite
        . intro _
          exact yields_pure trivial
        . intro hrdl
          apply yields_ite
          . intro h
            apply yields_bind (yields_load32 (by omega))
            intro _ _
            exact yields_pure trivial
          . intro _
            exact ih _

theorem yields_dnsReply (id : UInt16) (b : Bytes) : (dnsReply id b).Yields (fun _ => True) := by
  unfold dnsReply
  apply yields_ite
  . intro _
    exact yields_pure trivial
  . intro hlen
    apply yields_bind (yields_load16 (by omega))
    intro rid _
    apply yields_bind (yields_load8 (by omega))
    intro qr _
    apply yields_ite
    . intro _
      exact yields_pure trivial
    . intro _
      apply yields_bind (yields_load8 (by omega))
      intro rcode _
      apply yields_ite
      . intro _
        exact yields_pure trivial
      . intro _
        apply yields_bind (yields_load16 (by omega))
        intro qd _
        apply yields_bind (yields_load16 (by omega))
        intro an _
        apply yields_bind (yields_dnsQuestions qd.toNat 12)
        intro r _
        cases r with
        | none => exact yields_pure trivial
        | some pos =>
          apply yields_bind (yields_dnsAnswers an.toNat pos)
          intro r _
          cases r with
          | none => exact yields_pure trivial
          | some ip => exact yields_pure trivial

/--
Whatever has arrived before: no event makes the stack fault, no frame does at any time, and neither
do the parsers of the DHCP client and of the resolver on what is in the buffer for datagrams.
-/
theorem frames_safe {mac : Octets 6} {s : Stack}
    (h : Run Stack.Step (fun _ _ => True) (Stack.boot mac) s)
    : (∀ e, (s.next e).Yields (fun _ => True))
      ∧ (∀ b, b.length ≤ 2048 → (s.net.frameIn b).Yields (fun _ => True))
      ∧ s.net.us.buf.length ≤ 600
      ∧ (∀ xid o, (dhcpParse s.net.mac s.net.us.buf xid o).Yields (fun _ => True))
      ∧ (∀ id, (dnsReply id s.net.us.buf).Yields (fun _ => True)) := by
  have hok := Stack.Ok.of_run h
  refine ⟨?_, ?_, hok.net.buf, yields_dhcpParse _ _, fun id => yields_dnsReply id _⟩
  . intro e
    exact (Stack.yields_next hok e).mono (fun _ _ => trivial)
  . intro b hb
    exact (yields_frameIn hok.net hb).mono (fun _ _ => trivial)

def dhcpFrame : Bytes :=
  bcast.1 ++ [2, 0, 0, 0, 0, 9] ++ be16 0x0800
    ++ [0x45, 0, 0, 31, 0, 0, 0, 0, 64, 17, 0, 0, 10, 0, 0, 1, 255, 255, 255, 255]
    ++ [0, 67, 0, 68, 0, 11, 0, 0, 1, 2, 3]

def dhcpEvents : List StackEvent :=
  [.call (.listen 68), .poll, .frame dhcpFrame]

theorem length_cardMac : ([2, 0, 0, 0, 0, 1] : Bytes).length = 6 := rfl

def dhcpStack : Stack :=
  dhcpEvents.foldl (after Stack.next?) (.boot ⟨[2, 0, 0, 0, 0, 1], length_cardMac⟩)

theorem frames_safe_datagram
    : dhcpStack.net.us.buf = [1, 2, 3]
      ∧ ∀ xid o, (dhcpParse dhcpStack.net.mac dhcpStack.net.us.buf xid o).Yields (fun _ => True) := by
  have hrun : Run Stack.Step (fun _ _ => True) (.boot ⟨[2, 0, 0, 0, 0, 1], rfl⟩) dhcpStack := by
    apply Run.of_possible .refl
    exact ⟨rfl, trivial, rfl, trivial, rfl, trivial, trivial⟩
  exact ⟨by decide, (frames_safe hrun).2.2.2.1⟩

end TanjaOS
