import TanjaOS.Net.Lemmas

/-!
All that a step of the stack can do, and that it never faults.
-/

open Lib Lib.Checked

namespace TanjaOS

/--
`ip_send` has room for the packet, and its argument is as long as it says.
-/
structure Out.Fits (o : Out) : Prop where
  short : o.len ≤ 1480
  long : ∀ bs, o.data = .own bs → o.len ≤ bs.length

theorem Net.Handed.fits {s s' : Net} {o : Out} (h : s.Handed s' o) : o.Fits := by
  constructor
  . exact h.ok.short
  . intro bs hbs
    have := h.intact
    unfold Out.Intact Net.read load at this
    rw [hbs] at this
    simp only at this
    split at this
    . next hlen => omega
    . cases this

theorem FrameIn.fits {s s' : Net} {b : Bytes} {a : Action} {o : Out} (h : FrameIn s b s' a)
    (ho : a = .send o)
    : o.Fits := by
  cases h with
  | none _ => cases ho
  | arp _ _ => cases ho
  | echo _ _ h =>
    cases ho
    exact h.fits
  | tcp _ _ h =>
    cases ho
    exact h.fits

namespace Stack

/--
`ip_send` hands a frame with the packet `data` to the card.
-/
inductive Delivered (s : Stack) (o : Out) : Stack → Prop where
  | mk (mac : Octets 6) {data : Bytes} (hread : s.net.read o.data o.len = .ok data)
    : Delivered s o { s with
        net := { s.net with ipId := s.net.ipId + 1 }
        sent :=
          { frame := mac.1 ++ s.net.mac.1 ++ be16 0x0800 ++
              ({ s.net with ipId := s.net.ipId + 1 }.ipHeader o.proto o.dst o.len ++ data)
            out := some o } :: s.sent
      }

inductive Act (s : Stack) : Action → Stack → Prop where
  | none : Act s .none s
  | frame (f : Bytes) : Act s (.frame f) { s with sent := { frame := f, out := none } :: s.sent }
  | dropped (o : Out) : Act s (.send o) s
  | delivered {o : Out} {s' : Stack} (h : Delivered s o s') : Act s (.send o) s'
  | waits (o : Out) (hop : UInt32) (f : Bytes)
    : Act s (.send o) { s with
        ctl := .resolve hop 0 o :: s.ctl
        sent := { frame := f, out := none } :: s.sent
      }

inductive Stepped (s : Stack) : StackEvent → Stack → Prop where
  | call (c : NetCall) {net : Net} {a : Action} {s' : Stack} (hctl : s.ctl = []) (hok : net.Ok)
      (hsend : ∀ o, a = .send o → s.net.Handed net o) (hact : Act { s with net } a s')
    : Stepped s (.call c) s'
  | poll (htop : ∀ budget ctl, s.ctl ≠ .poll budget :: ctl)
    : Stepped s .poll { s with ctl := .poll 32 :: s.ctl }
  | frame (b : Bytes) {budget : Nat} {ctl : List Ctl} {net : Net} {a : Action} {s' : Stack}
      (hctl : s.ctl = .poll (budget + 1) :: ctl) (hok : net.Ok) (hframe : FrameIn s.net b net a)
      (hact : Act { s with net, ctl := .poll budget :: ctl } a s')
    : Stepped s (.frame b) s'
  | endPoll {budget : Nat} {ctl : List Ctl} (hctl : s.ctl = .poll budget :: ctl)
    : Stepped s .endPoll { s with ctl }
  | resolved {hop : UInt32} {tries : Nat} {o : Out} {ctl : List Ctl} {s' : Stack}
      (hctl : s.ctl = .resolve hop tries o :: ctl) (h : Delivered { s with ctl } o s')
    : Stepped s .resolved s'
  | again {hop : UInt32} {tries : Nat} {o : Out} {ctl : List Ctl} (f : Bytes)
      (hctl : s.ctl = .resolve hop tries o :: ctl)
    : Stepped s .timeout { s with
        ctl := .resolve hop (tries + 1) o :: ctl
        sent := { frame := f, out := none } :: s.sent
      }
  | gaveUp {hop : UInt32} {tries : Nat} {o : Out} {ctl : List Ctl}
      (hctl : s.ctl = .resolve hop tries o :: ctl)
    : Stepped s .timeout { s with ctl }

structure Ok (s : Stack) : Prop where
  net : s.net.Ok
  fits : ∀ hop tries o, .resolve hop tries o ∈ s.ctl → o.Fits

variable {s s' : Stack} {o : Out} {a : Action} {e : StackEvent}

theorem yields_read {n : Net} (h : o.Fits)
    : (n.read o.data o.len).Yields (fun data => data.length = o.len) := by
  have hshort := h.short
  unfold Net.read
  split
  . next bs hbs =>
    apply yields_bind (yields_load (by have := h.long bs hbs; omega))
    intro data _
    exact yields_pure data.2
  all_goals
    rw [if_pos hshort]
    exact yields_pure (by simp)

@[simp]
theorem length_ipHeader (n : Net) (proto : UInt8) (dst : UInt32) (len : Nat)
    : (n.ipHeader proto dst len).length = 20 := by
  rfl

theorem yields_deliver (h : o.Fits) (mac : Octets 6) : (s.deliver mac o).Yields (Delivered s o) := by
  have hshort := h.short
  unfold deliver Net.ipDeliver
  obtain ⟨data, hread, hdata⟩ := yields_read (n := s.net) h
  have hsame : { s.net with ipId := s.net.ipId + 1 }.read o.data o.len = .ok data := hread
  have hstore : store 1500 20 o.len = .ok () := if_pos (by omega)
  simp only [hsame, hstore, bind_pure_comp]
  have hsend := yields_ethSend (s := { s.net with ipId := s.net.ipId + 1 }) mac 0x0800
    ({ s.net with ipId := s.net.ipId + 1 }.ipHeader o.proto o.dst o.len ++ data)
    (by simp; omega)
  obtain ⟨f, hf, hframe⟩ := hsend
  refine ⟨_, ?_, .mk mac hread⟩
  simp only [bind, Except.bind, hf, hframe]
  rfl

theorem yields_request (s : Stack) (hop : UInt32)
    : (s.request hop).Yields (fun s' =>
        ∃ f, s' = { s with sent := { frame := f, out := none } :: s.sent }) := by
  unfold request
  apply yields_bind (yields_arpSend hop (.inl rfl))
  intro f hf
  apply yields_pure
  cases f with
  | none => cases hf
  | some f => exact ⟨f, rfl⟩

theorem yields_act (h : ∀ o, a = .send o → o.Fits) : (s.act a).Yields (Act s a) := by
  unfold act
  cases a with
  | none => exact yields_pure .none
  | frame f => exact yields_pure (.frame f)
  | send o =>
    have hfits := h o rfl
    simp only [ipSend]
    apply yields_ite
    . intro _
      exact yields_pure (.dropped o)
    . intro _
      apply yields_ite
      . intro _
        exact (yields_deliver hfits bcast).mono (fun _ => .delivered)
      . intro _
        apply yields_ite
        . intro _
          exact yields_pure (.dropped o)
        . intro _
          split
          . next mac _ => exact (yields_deliver hfits mac).mono (fun _ => .delivered)
          . apply (yields_request _ _).mono
            intro s' hs'
            obtain ⟨f, rfl⟩ := hs'
            exact .waits o _ f

theorem yields_call {n : Net} (h : n.Ok) (c : NetCall)
    : (n.call c).Yields (fun r => r.1.Ok ∧ ∀ o, r.2 = .send o → n.Handed r.1 o) := by
  -- a call that sends nothing
  have quiet : ∀ n' : Net, n'.Ok → n'.Ok ∧ ∀ o, Action.none = .send o → n.Handed n' o := by
    intro n' hn'
    refine ⟨hn', ?_⟩
    intro o ho
    cases ho
  have hands : ∀ {data r}, n.Hands data r → r.1.Ok ∧ ∀ o, r.2 = .send o → n.Handed r.1 o := by
    intro data r hr
    refine ⟨hr.1, ?_⟩
    intro o ho
    obtain heq | ⟨o', hsend, _, hhanded⟩ := hr.2.2
    . rw [heq] at ho
      cases ho
    . rw [hsend] at ho
      cases ho
      exact hhanded
  cases c with
  | attach mac => exact yields_pure (quiet _ ⟨h.arpNext, h.ring, h.buf⟩)
  | configure cfg => exact yields_pure (quiet _ ⟨h.arpNext, h.ring, h.buf⟩)
  | forgetArp => exact yields_pure (quiet _ ⟨h.arpNext, h.ring, h.buf⟩)
  | listen port => exact yields_pure (quiet _ ⟨h.arpNext, h.ring, h.buf⟩)
  | taken => exact yields_pure (quiet _ ⟨h.arpNext, h.ring, h.buf⟩)
  | udpSend dst sport dport data => exact (yields_udpSend h dst sport dport data).mono (fun _ => hands)
  | ping ip => exact yields_pure (hands (hands_ping h ip))
  | connect rip rport lport iss =>
    exact yields_pure (quiet _ ⟨h.arpNext, ⟨tRing_pos, Nat.zero_le _, rfl⟩, h.buf⟩)
  | number k => exact yields_pure (quiet _ ⟨h.arpNext, ⟨h.ring.tail, h.ring.count, h.ring.head⟩, h.buf⟩)
  | tcpTx seq flags data mssOpt => exact (yields_tcpTx h seq flags data mssOpt).mono (fun _ => hands)
  | recv cap =>
    obtain ⟨tail, count, buf, heq, hring, _, _⟩ := h.ring.drain cap
    apply yields_pure
    rw [heq]
    exact quiet _ ⟨h.arpNext, hring, h.buf⟩
  | hangUp => exact yields_pure (quiet _ ⟨h.arpNext, ⟨h.ring.tail, h.ring.count, h.ring.head⟩, h.buf⟩)

theorem yields_next (h : s.Ok) (e : StackEvent)
    : (s.next e).Yields (fun r => ∀ s', r = some s' → Stepped s e s') := by
  -- an event that is not possible
  have idle : (pure none : Checked (Option Stack)).Yields (fun r => ∀ s', r = some s' → Stepped s e s') :=
    yields_pure (fun _ h => nomatch h)
  have returns : ∀ {x : Checked Stack} {P : Stack → Prop}, x.Yields P → (∀ s', P s' → Stepped s e s') →
      (do return some (← x) : Checked (Option Stack)).Yields
        (fun r => ∀ s', r = some s' → Stepped s e s') := by
    intro x P hx hp
    apply yields_bind hx
    intro s'' hs''
    apply yields_pure
    intro s' hs'
    cases hs'
    exact hp _ hs''
  unfold next
  cases e with
  | call c =>
    simp only
    split
    . next hctl =>
      apply yields_bind (yields_call h.net c)
      intro r hr
      apply returns (yields_act (fun o ho => (hr.2 o ho).fits))
      intro s' hs'
      exact .call c hctl hr.1 hr.2 hs'
    . exact idle
  | poll =>
    simp only
    split
    . next hctl =>
      apply yields_pure
      intro s' hs'
      cases hs'
      have := Stepped.poll (s := s) (by simp [hctl])
      rwa [hctl] at this
    . next hop _ _ ctl hctl =>
      split
      . apply yields_pure
        intro s' hs'
        cases hs'
        exact .poll (by simp [hctl])
      . exact idle
    . exact idle
  | frame b =>
    simp only
    split
    . next budget ctl hctl =>
      apply yields_ite
      . intro hlen
        apply yields_bind (yields_frameIn h.net hlen.2)
        intro r hr
        apply returns (yields_act (fun o ho => hr.2.fits ho))
        intro s' hs'
        exact .frame b hctl hr.1 hr.2 hs'
      . intro _
        exact idle
    . exact idle
  | endPoll =>
    simp only
    split
    . next budget ctl hctl =>
      apply yields_pure
      intro s' hs'
      cases hs'
      exact .endPoll hctl
    . exact idle
  | resolved =>
    simp only
    split
    . next hop tries o ctl hctl =>
      split
      . next mac _ =>
        have hfits := h.fits hop tries o (by simp [hctl])
        apply returns (yields_deliver hfits mac)
        intro s' hs'
        exact .resolved hctl hs'
      . exact idle
    . exact idle
  | timeout =>
    simp only
    split
    . next hop tries o ctl hctl =>
      split
      . exact idle
      . apply yields_ite
        . intro _
          apply returns (yields_request _ _)
          intro s' hs'
          obtain ⟨f, rfl⟩ := hs'
          exact .again f hctl
        . intro _
          apply yields_pure
          intro s' hs'
          cases hs'
          exact .gaveUp hctl
    . exact idle

theorem Stepped.of_step (h : s.Ok) (hs : Step e s s') : Stepped s e s' := by
  unfold Step next? at hs
  obtain ⟨r, hr, hstep⟩ := yields_next h e
  rw [hr] at hs
  exact hstep s' hs

theorem Delivered.ok (h : Delivered s o s') (hs : s.Ok) : s'.Ok := by
  cases h with
  | mk mac _ => exact ⟨⟨hs.net.arpNext, hs.net.ring, hs.net.buf⟩, hs.fits⟩

theorem Act.ok (h : Act s a s') (hs : s.Ok) (hfits : ∀ o, a = .send o → o.Fits) : s'.Ok := by
  cases h with
  | none => exact hs
  | frame f => exact ⟨hs.net, hs.fits⟩
  | dropped o => exact hs
  | delivered h => exact h.ok hs
  | waits o hop f =>
    refine ⟨hs.net, ?_⟩
    intro hop' tries' o' hmem
    simp only [List.mem_cons, Ctl.resolve.injEq] at hmem
    cases hmem with
    | inl h =>
      rw [h.2.2]
      exact hfits o rfl
    | inr h => exact hs.fits hop' tries' o' h

theorem Stepped.ok (h : Stepped s e s') (hs : s.Ok) : s'.Ok := by
  -- what is left of the stack of control after something has been taken from its top
  have tail : ∀ {c ctl}, s.ctl = c :: ctl → ∀ hop tries o, .resolve hop tries o ∈ ctl → o.Fits := by
    intro c ctl hctl hop tries o hmem
    apply hs.fits hop tries o
    rw [hctl]
    exact List.mem_cons_of_mem _ hmem
  cases h with
  | call c hctl hok hsend hact =>
    apply hact.ok ⟨hok, hs.fits⟩
    intro o ho
    exact (hsend o ho).fits
  | poll _ =>
    refine ⟨hs.net, ?_⟩
    intro hop tries o hmem
    simp only [List.mem_cons, reduceCtorEq, false_or] at hmem
    exact hs.fits hop tries o hmem
  | frame b hctl hok hframe hact =>
    apply hact.ok
    . refine ⟨hok, ?_⟩
      intro hop tries o hmem
      simp only [List.mem_cons, reduceCtorEq, false_or] at hmem
      exact tail hctl hop tries o hmem
    . intro o ho
      exact hframe.fits ho
  | endPoll hctl => exact ⟨hs.net, tail hctl⟩
  | resolved hctl h => exact h.ok ⟨hs.net, tail hctl⟩
  | @again hop tries o ctl f hctl =>
    refine ⟨hs.net, ?_⟩
    intro hop' tries' o' hmem
    simp only [List.mem_cons, Ctl.resolve.injEq] at hmem
    cases hmem with
    | inl h =>
      rw [h.2.2]
      exact hs.fits hop tries o (by simp [hctl])
    | inr h => exact tail hctl hop' tries' o' h
  | gaveUp hctl => exact ⟨hs.net, tail hctl⟩

theorem Ok.boot (mac : Octets 6) : (boot mac).Ok :=
  ⟨.boot mac, fun _ _ _ h => nomatch h⟩

theorem Ok.of_run {mac : Octets 6} {ok : Stack → StackEvent → Prop} (h : Run Step ok (Stack.boot mac) s)
    : s.Ok :=
  h.keeps (fun _ _ _ _ hs hstep => (Stepped.of_step hs hstep).ok hs) (.boot mac)

end Stack

end TanjaOS
