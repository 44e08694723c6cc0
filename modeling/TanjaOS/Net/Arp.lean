import TanjaOS.Lib.Fifo
import TanjaOS.Lib.Returns
import TanjaOS.Net.Emit

/-!
The ARP table through all that happens to the stack.
-/

open Lib Lib.Checked

namespace TanjaOS

/--
The address that a frame announces, if `arp_in` learns it.
-/
def arpAnnounced (b : Bytes) : Option (UInt32 × Octets 6) :=
  if h : 42 ≤ b.length then
    if word16 b 12 = 0x0806 ∧ word16 b 14 = 1 ∧ word16 b 16 = 0x0800 ∧ word32 b 28 ≠ 0 then
      some (word32 b 28, ⟨(b.drop 22).take 6, by rw [List.length_take, List.length_drop]; omega⟩)
    else
      none
  else
    none

/--
The addresses that are known after an event. A card that is attached, `net_dhcp` and `net_set_static` start anew.
-/
def heard (l : List (UInt32 × Octets 6)) (e : StackEvent) : List (UInt32 × Octets 6) :=
  match e with
  | .call (.attach _) => []
  | .call .forgetArp => []
  | .frame b =>
    match arpAnnounced b with
    | some (ip, mac) => fifoLearn 8 l ip mac
    | none => l
  | _ => l

def lastHeard (last : UInt32 → Option (Octets 6)) (e : StackEvent) : UInt32 → Option (Octets 6) :=
  match e with
  | .call (.attach _) => fun _ => none
  | .call .forgetArp => fun _ => none
  | .frame b =>
    match arpAnnounced b with
    | some (ip, mac) => fun i => if i = ip then some mac else last i
    | none => last
  | _ => last

def ArpEntry.known (e : ArpEntry) : Option (UInt32 × Octets 6) :=
  if e.ok then some (e.ip, e.mac) else none

namespace Net

structure SameArp (s s' : Net) : Prop where
  tab : s'.arpTab = s.arpTab
  next : s'.arpNext = s.arpNext

def entry (s : Net) (j : Nat) : Option (UInt32 × Octets 6) :=
  (s.arpTab j).known

def Knows (s : Net) (l : List (UInt32 × Octets 6)) : Prop :=
  FifoHolds 8 s.arpNext s.entry l

variable {s s' : Net} {l : List (UInt32 × Octets 6)} {b : Bytes} {ip : UInt32} {mac : Octets 6}

theorem SameArp.refl (s : Net) : s.SameArp s :=
  ⟨rfl, rfl⟩

theorem SameArp.knows (h : s.SameArp s') (hs : s.Knows l) : s'.Knows l := by
  have hentry : s'.entry = s.entry := by
    funext j
    unfold entry
    rw [h.tab]
  unfold Knows
  rw [h.next, hentry]
  exact hs

section Table

theorem entry_setArp (s : Net) (i : Nat) (e : ArpEntry)
    : (s.setArp i e).entry = fun j => if j = i then e.known else s.entry j := by
  funext j
  unfold entry setArp
  dsimp only
  split
  . rfl
  . rfl

theorem known_iff (e : ArpEntry) (ip : UInt32) (mac : Octets 6)
    : e.known = some (ip, mac) ↔ e.ok = true ∧ e.ip = ip ∧ e.mac = mac := by
  unfold ArpEntry.known
  cases e.ok with
  | false => simp
  | true => simp

theorem arpFind_iff (s : Net) (ip : UInt32) (j : Nat)
    : ((s.arpTab j).ok && (s.arpTab j).ip == ip) = true ↔ ∃ mac, s.entry j = some (ip, mac) := by
  unfold entry
  simp [known_iff]

theorem Knows.lookup (h : s.Knows l) (ip : UInt32) : s.arpLookup ip = assoc l ip := by
  obtain ⟨hsome, hnone⟩ := h.find_ent (k := ip) (fun j _ => arpFind_iff s ip j)
  unfold arpLookup arpFind
  cases hfind : (List.range 8).find? (fun j => (s.arpTab j).ok && (s.arpTab j).ip == ip) with
  | none => exact (hnone hfind).symm
  | some j =>
    obtain ⟨_, mac, hentry, hassoc⟩ := hsome j hfind
    rw [hassoc, ← ((known_iff _ _ _).mp hentry).2.2]
    rfl

theorem Knows.learn (h : s.Knows l) (ip : UInt32) (mac : Octets 6)
    : (s.arpLearn ip mac).Returns (fun s' => s'.Knows (fifoLearn 8 l ip mac)) := by
  obtain ⟨hsome, hnone⟩ := h.find_ent (k := ip) (fun j _ => arpFind_iff s ip j)
  unfold arpLearn arpFind
  cases hfind : (List.range 8).find? (fun j => (s.arpTab j).ok && (s.arpTab j).ip == ip) with
  | none =>
    refine returns_bind returns_any fun _ _ => ?_
    apply returns_pure
    have hentry : ({ s.setArp s.arpNext { ip, mac, ok := true } with arpNext := (s.arpNext + 1) % 8 } : Net).entry
        = fun j => if j = s.arpNext then some (ip, mac) else s.entry j :=
      entry_setArp s s.arpNext { ip, mac, ok := true }
    unfold Knows
    rw [hentry]
    exact h.learn_new (hnone hfind)
  | some j =>
    dsimp only
    apply returns_pure
    obtain ⟨hj, old, hold, _⟩ := hsome j hfind
    obtain ⟨hok, hip, _⟩ := (known_iff _ _ _).mp hold
    have hentry : (s.setArp j { s.arpTab j with mac }).entry
        = fun i => if i = j then some (ip, mac) else s.entry i := by
      rw [entry_setArp, (known_iff { s.arpTab j with mac } ip mac).mpr ⟨hok, hip, rfl⟩]
    unfold Knows
    rw [hentry]
    exact h.learn_old hj hold

end Table

section Frames

/--
What the frame announces is learned, and nothing else changes the table.
-/
def Hears (s : Net) (b : Bytes) (s' : Net) : Prop :=
  ∀ l, s.Knows l → s'.Knows (match arpAnnounced b with | some (ip, mac) => fifoLearn 8 l ip mac | none => l)

theorem SameArp.hears (h : s.SameArp s') (hquiet : arpAnnounced b = none) : s.Hears b s' := by
  intro l hs
  rw [hquiet]
  exact h.knows hs

theorem same_icmpIn (s : Net) (src : UInt32) (b : Bytes) (p len : Nat)
    : (s.icmpIn src b p len).Returns (fun r => s.SameArp r.1) := by
  unfold icmpIn
  refine returns_ite (fun _ => returns_pure (.refl s)) fun _ => ?_
  refine returns_bind returns_any fun type _ => ?_
  refine returns_ite (fun _ => ?_) fun _ => ?_
  . refine returns_ite (fun _ => returns_pure (.refl s)) fun _ => ?_
    refine returns_bind returns_any fun _ _ => ?_
    refine returns_bind returns_any fun _ _ => ?_
    exact returns_pure ⟨rfl, rfl⟩
  . refine returns_ite (fun _ => ?_) fun _ => returns_pure (.refl s)
    refine returns_bind returns_any fun _ _ => ?_
    refine returns_bind returns_any fun _ _ => ?_
    exact returns_ite (fun _ => returns_pure ⟨rfl, rfl⟩) fun _ => returns_pure (.refl s)

theorem same_udpIn (s : Net) (src : UInt32) (b : Bytes) (p len : Nat)
    : (s.udpIn src b p len).Returns (fun r => s.SameArp r.1) := by
  unfold udpIn
  refine returns_ite (fun _ => returns_pure (.refl s)) fun _ => ?_
  refine returns_bind returns_any fun _ _ => ?_
  refine returns_ite (fun _ => returns_pure (.refl s)) fun _ => ?_
  refine returns_bind returns_any fun _ _ => ?_
  refine returns_ite (fun _ => returns_pure (.refl s)) fun _ => ?_
  refine returns_bind returns_any fun _ _ => ?_
  refine returns_bind returns_any fun _ _ => ?_
  refine returns_bind returns_any fun _ _ => ?_
  exact returns_pure ⟨rfl, rfl⟩

theorem same_tcpTx (s : Net) (seq : UInt32) (flags : UInt8) (data : Bytes) (mssOpt : Bool)
    : (s.tcpTx seq flags data mssOpt).Returns (fun r => s.SameArp r.1) := by
  unfold tcpTx
  refine returns_ite (fun _ => returns_pure (.refl s)) fun _ => ?_
  refine returns_bind returns_any fun _ _ => ?_
  exact returns_pure ⟨rfl, rfl⟩

theorem same_ipIn (s : Net) (b : Bytes) (p len : Nat) : (s.ipIn b p len).Returns (fun r => s.SameArp r.1) := by
  unfold ipIn
  refine returns_ite (fun _ => returns_pure (.refl s)) fun _ => ?_
  refine returns_bind returns_any fun _ _ => ?_
  refine returns_ite (fun _ => returns_pure (.refl s)) fun _ => ?_
  refine returns_bind returns_any fun _ _ => ?_
  refine returns_ite (fun _ => returns_pure (.refl s)) fun _ => ?_
  refine returns_bind returns_any fun _ _ => ?_
  refine returns_ite (fun _ => returns_pure (.refl s)) fun _ => ?_
  refine returns_bind returns_any fun src _ => ?_
  refine returns_bind returns_any fun _ _ => ?_
  refine returns_ite (fun _ => returns_pure (.refl s)) fun _ => ?_
  refine returns_bind returns_any fun proto _ => ?_
  refine returns_ite (fun _ => same_icmpIn s _ _ _ _) fun _ => ?_
  refine returns_ite (fun _ => ?_) fun _ => ?_
  . refine returns_bind returns_any fun r _ => ?_
    refine returns_ite (fun _ => ?_) fun _ => returns_pure ⟨rfl, rfl⟩
    exact (same_tcpTx { s with tc := r.1 } _ _ _ _).mono fun _ h => ⟨h.tab, h.next⟩
  . exact returns_ite (fun _ => same_udpIn s _ _ _ _) fun _ => returns_pure (.refl s)

theorem hears_arpIn (s : Net) (b : Bytes) (htype : word16 b 12 = 0x0806) (h14 : 14 ≤ b.length)
    : (s.arpIn b 14 (b.length - 14)).Returns (fun r => s.Hears b r.1) := by
  unfold arpIn
  refine returns_ite (fun hshort => ?_) fun hlong => ?_
  . apply returns_pure
    have hquiet : arpAnnounced b = none := dif_neg (by omega)
    exact (SameArp.refl s).hears hquiet
  . have hlen : 42 ≤ b.length := by omega
    refine returns_bind returns_load16 fun hw hhw => ?_
    refine returns_bind returns_load16 fun proto hproto => ?_
    subst hhw hproto
    refine returns_ite (fun hbad => ?_) fun hgood => ?_
    . apply returns_pure
      have hquiet : arpAnnounced b = none := by
        unfold arpAnnounced
        rw [dif_pos hlen, if_neg]
        rintro ⟨_, hone, hip, _⟩
        exact hbad.elim (fun h => h hone) fun h => h hip
      exact (SameArp.refl s).hears hquiet
    . refine returns_bind returns_any fun op _ => ?_
      refine returns_bind returns_load32 fun sip hsip => ?_
      refine returns_bind returns_any fun tip _ => ?_
      refine returns_bind returns_load fun smac hsmac => ?_
      subst hsip
      have hlearn : (if word32 b (14 + 14) ≠ 0 then s.arpLearn (word32 b (14 + 14)) smac else pure s).Returns
          (fun s' => s.Hears b s') := by
        refine returns_ite (fun hip => ?_) fun hip => ?_
        . intro s' hs' l hs
          have hheard : arpAnnounced b = some (word32 b 28, smac) := by
            unfold arpAnnounced
            rw [dif_pos hlen, if_pos ⟨htype, Classical.not_not.mp fun h => hgood (.inl h),
              Classical.not_not.mp fun h => hgood (.inr h), hip⟩]
            congr 2
            exact Subtype.ext hsmac.symm
          rw [hheard]
          exact hs.learn _ smac s' hs'
        . apply returns_pure
          have hquiet : arpAnnounced b = none := by
            unfold arpAnnounced
            rw [dif_pos hlen, if_neg]
            rintro ⟨_, _, _, hsip⟩
            exact hip hsip
          exact (SameArp.refl s).hears hquiet
      refine returns_bind hlearn fun s' hs' => ?_
      refine returns_ite (fun _ => ?_) fun _ => returns_pure hs'
      refine returns_bind returns_any fun f _ => ?_
      cases f with
      | none => exact returns_pure hs'
      | some f => exact returns_pure hs'

theorem hears_frameIn (s : Net) (b : Bytes) : (s.frameIn b).Returns (fun r => s.Hears b r.1) := by
  unfold frameIn
  refine returns_ite (fun hshort => ?_) fun hlong => ?_
  . apply returns_pure
    have hquiet : arpAnnounced b = none := dif_neg (by omega)
    exact (SameArp.refl s).hears hquiet
  . refine returns_bind returns_load16 fun type htype => ?_
    subst htype
    refine returns_ite (fun harp => hears_arpIn s b harp (by omega)) fun harp => ?_
    have hquiet : arpAnnounced b = none := by
      unfold arpAnnounced
      split
      . exact if_neg fun h => harp h.1
      . rfl
    refine returns_ite (fun _ => ?_) fun _ => returns_pure ((SameArp.refl s).hears hquiet)
    exact (same_ipIn s b _ _).mono fun r h => h.hears hquiet

end Frames

end Net

namespace Stack

variable {s : Stack} {l : List (UInt32 × Octets 6)}

section Calls

theorem same_deliver (s : Stack) (mac : Octets 6) (o : Out)
    : (s.deliver mac o).Returns (fun s' => s.net.SameArp s'.net) := by
  unfold deliver Net.ipDeliver
  simp only [bind_assoc]
  refine returns_bind returns_any fun _ _ => ?_
  refine returns_bind returns_any fun _ _ => ?_
  refine returns_bind returns_any fun _ _ => ?_
  refine returns_bind returns_any fun f _ => ?_
  simp only [pure_bind]
  apply returns_pure
  cases f with
  | none => exact ⟨rfl, rfl⟩
  | some f => exact ⟨rfl, rfl⟩

theorem same_request (s : Stack) (hop : UInt32) : (s.request hop).Returns (fun s' => s'.net = s.net) := by
  unfold request
  refine returns_bind returns_any fun f _ => ?_
  apply returns_pure
  cases f with
  | none => rfl
  | some f => rfl

theorem same_act (s : Stack) (a : Action) : (s.act a).Returns (fun s' => s.net.SameArp s'.net) := by
  unfold act
  cases a with
  | none => exact returns_pure (.refl _)
  | frame f => exact returns_pure (.refl _)
  | send o =>
    simp only [ipSend]
    refine returns_ite (fun _ => returns_pure (.refl _)) fun _ => ?_
    refine returns_ite (fun _ => same_deliver s bcast o) fun _ => ?_
    refine returns_ite (fun _ => returns_pure (.refl _)) fun _ => ?_
    split
    . next mac _ => exact same_deliver s mac o
    . refine (same_request _ _).mono fun s' h => ?_
      rw [h]
      exact .refl _

theorem knows_call {n : Net} (h : n.Knows l) (c : NetCall)
    : (n.call c).Returns (fun r => r.1.Knows (heard l (.call c))) := by
  have hclear : ∀ n' : Net, n'.arpTab = (fun _ => .zero) → n'.arpNext = n.arpNext → n'.Knows [] := by
    intro n' htab hnext
    have hentry : n'.entry = fun _ => none := by
      funext j
      unfold Net.entry
      rw [htab]
      rfl
    unfold Net.Knows
    rw [hentry, hnext]
    exact FifoHolds.clear h.next_lt
  have hsame : ∀ n' : Net, n.SameArp n' → n'.Knows l := fun n' hn' => hn'.knows h
  cases c with
  | attach mac => exact returns_pure (hclear _ rfl rfl)
  | configure cfg => exact returns_pure (hsame _ ⟨rfl, rfl⟩)
  | forgetArp => exact returns_pure (hclear _ rfl rfl)
  | listen port => exact returns_pure (hsame _ ⟨rfl, rfl⟩)
  | taken => exact returns_pure (hsame _ ⟨rfl, rfl⟩)
  | udpSend dst sport dport data =>
    show (n.udpSend dst sport dport data).Returns _
    unfold Net.udpSend
    refine returns_ite (fun _ => returns_pure (hsame _ ⟨rfl, rfl⟩)) fun _ => ?_
    exact returns_bind returns_any fun _ _ => returns_pure (hsame _ ⟨rfl, rfl⟩)
  | ping ip => exact returns_pure (hsame _ ⟨rfl, rfl⟩)
  | connect rip rport lport iss => exact returns_pure (hsame _ ⟨rfl, rfl⟩)
  | number k => exact returns_pure (hsame _ ⟨rfl, rfl⟩)
  | tcpTx seq flags data mssOpt => exact (Net.same_tcpTx n seq flags data mssOpt).mono fun r hr => hsame _ hr
  | recv cap => exact returns_pure (hsame _ ⟨rfl, rfl⟩)
  | hangUp => exact returns_pure (hsame _ ⟨rfl, rfl⟩)

end Calls

theorem knows_next (h : s.net.Knows l) (e : StackEvent)
    : (s.next e).Returns (fun r => ∀ s', r = some s' → s'.net.Knows (heard l e)) := by
  have hidle : (pure none : Checked (Option Stack)).Returns
      (fun r => ∀ s', r = some s' → s'.net.Knows (heard l e)) :=
    returns_pure fun _ h => by contradiction
  have hstays : ∀ t : Stack, t.net = s.net → heard l e = l →
      (pure (some t) : Checked (Option Stack)).Returns (fun r => ∀ s', r = some s' → s'.net.Knows (heard l e)) := by
    intro t ht hl
    apply returns_pure
    intro s' hs'
    cases hs'
    rw [ht, hl]
    exact h
  have hends : ∀ {x : Checked Stack} {P : Stack → Prop}, x.Returns P → (∀ s', P s' → s'.net.Knows (heard l e)) →
      (do return some (← x) : Checked (Option Stack)).Returns
        (fun r => ∀ s', r = some s' → s'.net.Knows (heard l e)) := by
    intro x P hx hp
    refine returns_bind hx fun s'' hs'' => ?_
    apply returns_pure
    intro s' hs'
    cases hs'
    exact hp _ hs''
  unfold next
  cases e with
  | call c =>
    simp only
    split
    . refine returns_bind (knows_call h c) fun r hr => ?_
      exact hends (same_act _ _) fun s' hs' => hs'.knows hr
    . exact hidle
  | poll =>
    simp only
    split
    . exact hstays _ rfl rfl
    . split
      . exact hstays _ rfl rfl
      . exact hidle
    . exact hidle
  | frame b =>
    simp only
    split
    . refine returns_ite (fun _ => ?_) fun _ => hidle
      refine returns_bind (Net.hears_frameIn s.net b) fun r hr => ?_
      exact hends (same_act _ _) fun s' hs' => hs'.knows (hr l h)
    . exact hidle
  | endPoll =>
    simp only
    split
    . exact hstays _ rfl rfl
    . exact hidle
  | resolved =>
    simp only
    split
    . split
      . exact hends (same_deliver _ _ _) fun s' hs' => hs'.knows h
      . exact hidle
    . exact hidle
  | timeout =>
    simp only
    split
    . split
      . exact hidle
      . refine returns_ite (fun _ => ?_) fun _ => hstays _ rfl rfl
        refine hends (same_request _ _) fun s' hs' => ?_
        rw [hs']
        exact h
    . exact hidle

end Stack

section Run

/--
The addresses arpAnnounced since the table has been cleared, each one once.
-/
def hosts (l : List UInt32) (e : StackEvent) : List UInt32 :=
  match e with
  | .call (.attach _) => []
  | .call .forgetArp => []
  | .frame b =>
    match arpAnnounced b with
    | some (ip, _) => if ip ∈ l then l else ip :: l
    | none => l
  | _ => l

/--
The list agrees with what has been arpAnnounced last, and has all of it while there is room.
-/
structure Recent (l : List (UInt32 × Octets 6)) (hs : List UInt32) (last : UInt32 → Option (Octets 6)) : Prop where
  keys : (l.map Prod.fst).Nodup
  length : l.length ≤ 8
  newest : ∀ ip mac, (ip, mac) ∈ l → last ip = some mac
  known : ∀ ip, (last ip).isSome → ip ∈ hs
  room : hs.length ≤ 8 → l.map Prod.fst = hs

variable {l : List (UInt32 × Octets 6)} {hs : List UInt32} {last : UInt32 → Option (Octets 6)}

theorem Recent.empty : Recent [] [] (fun _ => none) where
  keys := List.nodup_nil
  length := Nat.zero_le 8
  newest _ _ h := absurd h List.not_mem_nil
  known _ h := absurd h Bool.false_ne_true
  room _ := rfl

theorem Recent.learn (h : Recent l hs last) (ip : UInt32) (mac : Octets 6)
    : Recent (fifoLearn 8 l ip mac) (if ip ∈ hs then hs else ip :: hs)
        (fun i => if i = ip then some mac else last i) where
  keys := keys_fifoLearn h.keys
  length := length_fifoLearn h.length
  newest ip' mac' hmem := by
    obtain heq | ⟨hold, hne⟩ := mem_fifoLearn hmem
    . cases heq
      exact if_pos rfl
    . rw [if_neg hne]
      exact h.newest ip' mac' hold
  known ip' hsome := by
    by_cases heq : ip' = ip
    . subst heq
      split
      . assumption
      . exact List.mem_cons_self
    . rw [if_neg heq] at hsome
      have hold := h.known ip' hsome
      split
      . exact hold
      . exact List.mem_cons_of_mem ip hold
  room hroom := by
    unfold fifoLearn
    by_cases hmem : ip ∈ hs
    . rw [if_pos hmem] at hroom ⊢
      have hkeys := h.room hroom
      rw [hkeys, if_pos hmem, keys_setValue, hkeys]
    . rw [if_neg hmem, List.length_cons] at hroom
      have hkeys := h.room (by omega)
      have hlen : l.length = hs.length := by rw [← hkeys, List.length_map]
      rw [if_neg hmem, hkeys, if_neg hmem, List.take_of_length_le (by rw [List.length_cons]; omega), List.map_cons,
        hkeys]

theorem Recent.next (h : Recent l hs last) (e : StackEvent) : Recent (heard l e) (hosts hs e) (lastHeard last e) := by
  unfold heard hosts lastHeard
  cases e with
  | call c => cases c <;> first | exact .empty | exact h
  | frame b =>
    dsimp only
    cases arpAnnounced b with
    | none => exact h
    | some x => exact h.learn x.1 x.2
  | _ => exact h

theorem Recent.run (h : Recent l hs last) (es : List StackEvent)
    : Recent (es.foldl heard l) (es.foldl hosts hs) (es.foldl lastHeard last) := by
  induction es generalizing l hs last with
  | nil => exact h
  | cons e es ih => exact ih (h.next e)

theorem Recent.assoc (h : Recent l hs last) (hroom : hs.length ≤ 8) (ip : UInt32) : assoc l ip = last ip := by
  cases hlook : Lib.assoc l ip with
  | some mac => exact (h.newest ip mac ((assoc_eq_some_iff h.keys).mp hlook)).symm
  | none =>
    rw [assoc_eq_none_iff, h.room hroom] at hlook
    cases hlast : last ip with
    | none => rfl
    | some mac => exact absurd (h.known ip (by rw [hlast]; rfl)) hlook

theorem knows_boot (mac : Octets 6) : (Net.boot mac).Knows [] :=
  FifoHolds.clear (show 0 < 8 by decide)

theorem knows_run {s : Stack} (h : s.net.Knows l) (es : List StackEvent)
    (hpossible : Possible Stack.next? (fun _ _ => True) es s)
    : (es.foldl (after Stack.next?) s).net.Knows (es.foldl heard l) := by
  induction es generalizing s l with
  | nil => exact h
  | cons e es ih =>
    obtain ⟨hsome, _, hrest⟩ := hpossible
    obtain ⟨s', hs'⟩ := Option.isSome_iff_exists.mp hsome
    have hafter : after Stack.next? s e = s' := by
      unfold after
      rw [hs']
      rfl
    rw [hafter] at hrest
    rw [List.foldl_cons, List.foldl_cons, hafter]
    apply ih _ hrest
    unfold Stack.next? at hs'
    cases hnext : s.next e with
    | error f =>
      rw [hnext] at hs'
      contradiction
    | ok r =>
      rw [hnext] at hs'
      exact Stack.knows_next h e r hnext s' hs'

end Run

/--
The table of eight entries that are overwritten in turn, with a position that outlives every reset, looks up what
a list of the last eight new hosts says.
-/
theorem arpLookup_run (mac : Octets 6) (es : List StackEvent)
    (h : Possible Stack.next? (fun _ _ => True) es (.boot mac)) (ip : UInt32)
    : (es.foldl (after Stack.next?) (.boot mac)).net.arpLookup ip = assoc (es.foldl heard []) ip :=
  (knows_run (knows_boot mac) es h).lookup ip

section Example

def replyEvents : List StackEvent :=
  [.call (.configure hostCfg), .poll, .frame arpFrame]

theorem replyEvents_possible : Possible Stack.next? (fun _ _ => True) replyEvents (.boot hostMac) :=
  ⟨rfl, trivial, rfl, trivial, rfl, trivial, trivial⟩

end Example

theorem arpLookup_run_reply
    : ((replyEvents.foldl (after Stack.next?) (.boot hostMac)).net.arpLookup 0x0A000009).map Subtype.val
        = some [2, 0, 0, 0, 0, 9] := by
  rw [arpLookup_run hostMac replyEvents replyEvents_possible 0x0A000009]
  decide

/--
Only the newest address of a host is ever found, and it is found as long as no more than eight hosts have been heard
of since the last reset.
-/
theorem arpLookup_newest (mac : Octets 6) (es : List StackEvent)
    (h : Possible Stack.next? (fun _ _ => True) es (.boot mac)) (ip : UInt32)
    : (∀ m, (es.foldl (after Stack.next?) (.boot mac)).net.arpLookup ip = some m →
        es.foldl lastHeard (fun _ => none) ip = some m)
      ∧ ((es.foldl hosts []).length ≤ 8 →
        (es.foldl (after Stack.next?) (.boot mac)).net.arpLookup ip = es.foldl lastHeard (fun _ => none) ip) := by
  have hrecent := Recent.empty.run es
  rw [(knows_run (knows_boot mac) es h).lookup ip]
  constructor
  . intro m hm
    exact hrecent.newest ip m ((assoc_eq_some_iff hrecent.keys).mp hm)
  . intro hroom
    exact hrecent.assoc hroom ip

theorem arpLookup_newest_reply
    : (replyEvents.foldl (after Stack.next?) (.boot hostMac)).net.arpLookup 0x0A000009
        = replyEvents.foldl lastHeard (fun _ => none) 0x0A000009 :=
  (arpLookup_newest hostMac replyEvents replyEvents_possible 0x0A000009).2 (by decide)

end TanjaOS
