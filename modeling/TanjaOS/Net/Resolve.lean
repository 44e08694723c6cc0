import TanjaOS.Net.Dhcp
import TanjaOS.Net.Emit
import TanjaOS.Lib.Suffix

/-!
The resolver: the query that `net_resolve` builds for a host name, and what it makes of a reply.
-/

open Lib Lib.Checked

namespace TanjaOS

section Impl

def netENonet : Int := -1

def netEDns : Int := -2

/--
`parse_dotted`. There is no `cur` where the source has -1.
-/
def parseDotted : (s : Bytes) → (v : UInt32) → (parts : Nat) → (cur : Option Nat) → Option UInt32
  | [], v, parts, cur =>
    match cur with
    | none => none
    | some cur => if parts + 1 = 4 then some (v <<< 8 ||| .ofNat cur) else none
  | c :: s, v, parts, cur =>
    if 48 ≤ c ∧ c ≤ 57 then
      let cur := cur.getD 0 * 10 + (c.toNat - 48)
      if 255 < cur then none else parseDotted s v parts (some cur)
    else if c = 46 then
      match cur with
      | none => none
      | some cur => parseDotted s (v <<< 8 ||| .ofNat cur) (parts + 1) none
    else
      none

/--
The loop that appends the labels of the host name `s` to the query `q`.
-/
def dnsLabels (q s : Bytes) : Checked (Option Bytes) :=
  if s = [] then
    return some q
  else do
    let label := s.takeWhile (· ≠ 46)
    if label.length < 1 ∨ 63 < label.length then
      return none
    else
      store 300 q.length (1 + label.length)
      dnsLabels (q ++ .ofNat label.length :: label) (s.drop (label.length + 1))
termination_by s.length
decreasing_by
  rename_i hne _
  have := List.length_pos_iff.mpr hne
  rw [List.length_drop]
  omega

/--
What `udp_send` is called with.
-/
structure Datagram where
  dst : UInt32
  sport : UInt16
  dport : UInt16
  data : Bytes

inductive Resolved where
  | addr (ip : UInt32)
  | error (code : Int)

/--
A call of `net_resolve` with the datagrams that it has sent. While it waits for a reply, `us.port` is the source
port of the query.
-/
inductive Resolve where
  | waiting (id : UInt16) (query : Datagram) (attempt : Nat) (sent : List Datagram)
  | done (ret : Resolved) (sent : List Datagram)

/--
`net_resolve` up to the first call of `udp_send`. The clock is read twice.
-/
def netResolve (nicOk : Bool) (cfg : Cfg) (host : Bytes) (now now' : UInt32) : Checked Resolve := do
  match parseDotted host 0 0 none with
  | some ip => return .done (.addr ip) []
  | none =>
    if nicOk = false ∨ cfg.ip = 0 ∨ cfg.dns = 0 then
      return .done (.error netENonet) []
    else if host.length < 1 ∨ 200 < host.length then
      return .done (.error netEDns) []
    else
      let id := (now ^^^ 0xA5A5).toUInt16
      store 300 0 12
      match ← dnsLabels (be16 id ++ be16 0x0100 ++ be16 1 ++ be16 0 ++ be16 0 ++ be16 0) host with
      | none => return .done (.error netEDns) []
      | some q =>
        store 300 q.length 5
        let query : Datagram :=
          { dst := cfg.dns
            sport := 40000 + (now' % 2000).toUInt16
            dport := 53
            data := q ++ [0] ++ be16 1 ++ be16 1 }
        return .waiting id query 0 [query]

inductive ResolveEvent where
  /-- `udp_wait` returns 0 with a datagram. -/
  | datagram (b : Bytes)
  | timeout

namespace Resolve

def next : Resolve → ResolveEvent → Option Resolve
  | .waiting id query attempt sent, .datagram b =>
    if b.length ≤ 600 then
      match dnsReply id b with
      | .ok .skip => some (.waiting id query attempt sent)
      | .ok .fail => some (.done (.error netEDns) sent)
      | .ok (.addr ip) => some (.done (.addr ip) sent)
      | .error _ => none
    else
      none
  | .waiting id query attempt sent, .timeout =>
    if attempt + 1 < 3 then
      some (.waiting id query (attempt + 1) (query :: sent))
    else
      some (.done (.error netEDns) sent)
  | .done .., _ => none

def Step (e : ResolveEvent) (s s' : Resolve) : Prop :=
  s.next e = some s'

end Resolve

end Impl

section Spec

def dotted : List Bytes → Bytes
  | [] => []
  | [l] => l
  | l :: ls => l ++ 46 :: dotted ls

structure IsLabel (l : Bytes) : Prop where
  pos : 1 ≤ l.length
  short : l.length ≤ 63
  noDot : 46 ∉ l

structure HostName (labels : List Bytes) (host : Bytes) : Prop where
  text : host = dotted labels ∨ host = dotted labels ++ [46]
  label : ∀ l ∈ labels, IsLabel l
  pos : labels ≠ []
  short : host.length ≤ 200

def decimal (s : Bytes) : Nat :=
  s.foldl (fun n c => n * 10 + (c.toNat - 48)) 0

structure IsOctet (s : Bytes) : Prop where
  pos : s ≠ []
  digits : ∀ c ∈ s, 48 ≤ c ∧ c ≤ 57
  small : decimal s ≤ 255

/--
A host that is an address in its decimal form.
-/
def IsAddress (host : Bytes) : Prop :=
  ∃ octets : List Bytes, octets.length = 4 ∧ (∀ s ∈ octets, IsOctet s) ∧ host = dotted octets

def dnsLabel (l : Bytes) : Bytes :=
  .ofNat l.length :: l

def dnsQuery (id : UInt16) (labels : List Bytes) : Bytes :=
  be16 id ++ be16 0x0100 ++ be16 1 ++ be16 0 ++ be16 0 ++ be16 0 ++ labels.flatMap dnsLabel ++ [0] ++ be16 1 ++ be16 1

inductive WireName : Bytes → Prop where
  | root : WireName [0]
  | pointer {x y : Byte} : x &&& 0xC0 = 0xC0 → WireName [x, y]
  | label {l name : Bytes} : 1 ≤ l.length → l.length ≤ 63 → WireName name → WireName (dnsLabel l ++ name)

structure DnsQuestion where
  name : Bytes
  type : UInt16
  cls : UInt16
  wire : WireName name

structure DnsRecord where
  name : Bytes
  type : UInt16
  cls : UInt16
  ttl : UInt32
  data : Bytes
  wire : WireName name
  size : data.length < 65536

structure DnsMessage where
  id : UInt16
  flags : Byte × Byte
  questions : List DnsQuestion
  answers : List DnsRecord
  authority : List DnsRecord
  additional : List DnsRecord
  counts : questions.length < 65536 ∧ answers.length < 65536

def DnsQuestion.bytes (q : DnsQuestion) : Bytes :=
  q.name ++ be16 q.type ++ be16 q.cls

def DnsRecord.bytes (r : DnsRecord) : Bytes :=
  r.name ++ be16 r.type ++ be16 r.cls ++ be32 r.ttl ++ be16 (.ofNat r.data.length) ++ r.data

namespace DnsMessage

def bytes (m : DnsMessage) : Bytes :=
  be16 m.id ++ [m.flags.1, m.flags.2] ++ be16 (.ofNat m.questions.length) ++ be16 (.ofNat m.answers.length)
    ++ be16 (.ofNat m.authority.length) ++ be16 (.ofNat m.additional.length)
    ++ m.questions.flatMap DnsQuestion.bytes ++ m.answers.flatMap DnsRecord.bytes
    ++ m.authority.flatMap DnsRecord.bytes ++ m.additional.flatMap DnsRecord.bytes

structure IsReply (m : DnsMessage) : Prop where
  qr : m.flags.1 &&& 0x80 ≠ 0
  rcode : m.flags.2 &&& 0x0F = 0

end DnsMessage

def DnsRecord.IsA (r : DnsRecord) : Prop :=
  r.type = 1 ∧ r.data.length = 4

instance (r : DnsRecord) : Decidable r.IsA :=
  inferInstanceAs (Decidable (_ ∧ _))

def firstAddr (rs : List DnsRecord) : Option UInt32 :=
  (rs.find? (fun r => r.IsA)).map (fun r => word32 r.data 0)

def DnsMessage.result (m : DnsMessage) : Resolved :=
  match firstAddr m.answers with
  | some ip => .addr ip
  | none => .error netEDns

end Spec

section Reading

variable {b rest xs : Bytes} {i : Nat}

theorem getD_drop (b : Bytes) (i j : Nat) : b.getD (i + j) 0 = (b.drop i).getD j 0 := by
  rw [List.getD_eq_getElem?_getD, List.getD_eq_getElem?_getD, List.getElem?_drop]

theorem word16_drop (b : Bytes) (i j : Nat) : word16 b (i + j) = word16 (b.drop i) j := by
  unfold word16
  rw [Nat.add_assoc, getD_drop, getD_drop]

theorem word32_drop (b : Bytes) (i : Nat) : word32 b i = word32 (b.drop i) 0 := by
  unfold word32
  rw [word16_drop]
  exact congrArg (fun w : UInt16 => UInt32.ofNat (65536 * w.toNat + _)) (word16_drop b i 0)

theorem yields_load16_drop {v : UInt16} (h : b.drop i = be16 v ++ rest) : (load16 b i).Yields (fun w => w = v) := by
  have hi := lt_of_drop h
  have hle := le_of_drop h (by omega)
  apply (yields_load16 hle).mono
  rintro w rfl
  have hw := word16_drop b i 0
  rw [Nat.add_zero] at hw
  rw [hw, h]
  have htwo := word16_drop (0 :: 0 :: be16 v ++ rest) 2 0
  rw [word16_be16] at htwo
  exact htwo.symm

end Reading

section Reply

variable {b rest : Bytes} {i : Nat}

theorem label_byte {n : Nat} (hpos : 1 ≤ n) (hshort : n ≤ 63)
    : UInt8.ofNat n ≠ 0 ∧ UInt8.ofNat n &&& 0xC0 ≠ 0xC0 ∧ (UInt8.ofNat n).toNat = n := by
  have hall : ∀ n < 64, 1 ≤ n →
      UInt8.ofNat n ≠ 0 ∧ UInt8.ofNat n &&& 0xC0 ≠ 0xC0 ∧ (UInt8.ofNat n).toNat = n := by decide
  exact hall n (by omega) hpos

theorem dnsSkipName_name {name : Bytes} {fuel : Nat} (hname : WireName name) (hdrop : b.drop i = name ++ rest)
    (hfuel : name.length ≤ fuel)
    : (dnsSkipName b fuel i).Yields (fun r => r = some (i + name.length)) := by
  induction hname generalizing i fuel with
  | root =>
    obtain ⟨fuel, rfl⟩ := Nat.exists_eq_add_of_lt hfuel
    unfold dnsSkipName
    rw [if_pos (lt_of_drop hdrop)]
    apply yields_bind (yields_load8_drop hdrop)
    rintro x rfl
    exact yields_pure rfl
  | @pointer x y hx =>
    obtain ⟨fuel, rfl⟩ : ∃ k, fuel = k + 1 := Nat.exists_eq_succ_of_ne_zero (by simp at hfuel; omega)
    unfold dnsSkipName
    rw [if_pos (lt_of_drop hdrop)]
    apply yields_bind (yields_load8_drop hdrop)
    rintro z rfl
    have hne : z ≠ 0 := by
      rintro rfl
      exact absurd hx (by decide)
    rw [if_neg hne, if_pos hx]
    exact yields_pure rfl
  | @label l name hpos hshort hname ih =>
    have hlen : (dnsLabel l ++ name).length = 1 + l.length + name.length := by
      rw [List.length_append, dnsLabel, List.length_cons]
      omega
    obtain ⟨fuel, rfl⟩ : ∃ k, fuel = k + 1 := Nat.exists_eq_succ_of_ne_zero (by omega)
    obtain ⟨hzero, hplain, hsize⟩ := label_byte hpos hshort
    rw [List.append_assoc] at hdrop
    unfold dnsSkipName
    rw [if_pos (lt_of_drop hdrop)]
    apply yields_bind (yields_load8_drop hdrop)
    rintro x rfl
    rw [if_neg hzero, if_neg hplain, hsize]
    have hnext := drop_of_drop hdrop
    have hstep : i + (dnsLabel l).length = i + l.length + 1 := rfl
    rw [hstep] at hnext
    apply (ih hnext (by omega)).mono
    rintro r rfl
    rw [hlen]
    congr 1
    omega

theorem name_length_le {name : Bytes} (hdrop : b.drop i = name ++ rest) : name.length ≤ b.length + 1 := by
  have hlen := congrArg List.length hdrop
  rw [List.length_drop, List.length_append] at hlen
  omega

theorem dnsQuestions_all (qs : List DnsQuestion) (hdrop : b.drop i = qs.flatMap DnsQuestion.bytes ++ rest)
    : (dnsQuestions b qs.length i).Yields (fun r => r = some (i + (qs.flatMap DnsQuestion.bytes).length)) := by
  induction qs generalizing i with
  | nil => exact yields_pure rfl
  | cons q qs ih =>
    rw [List.flatMap_cons, List.append_assoc] at hdrop
    have hbytes : q.bytes = q.name ++ (be16 q.type ++ be16 q.cls) := List.append_assoc _ _ _
    have hname := hdrop
    rw [hbytes, List.append_assoc] at hname
    unfold dnsQuestions
    apply yields_bind (dnsSkipName_name q.wire hname (name_length_le hname))
    rintro r rfl
    have hlen : q.bytes.length = q.name.length + 4 := by
      rw [hbytes, List.length_append]
      rfl
    have hnext := drop_of_drop hdrop
    rw [hlen, ← Nat.add_assoc] at hnext
    apply (ih hnext).mono
    rintro r rfl
    rw [List.flatMap_cons, List.length_append, hlen]
    congr 1
    omega

theorem firstAddr_cons (r : DnsRecord) (rs : List DnsRecord)
    : firstAddr (r :: rs) = if r.IsA then some (word32 r.data 0) else firstAddr rs := by
  unfold firstAddr
  by_cases h : r.IsA
  . rw [List.find?_cons_of_pos (by simpa using h), if_pos h]
    rfl
  . rw [List.find?_cons_of_neg (by simpa using h), if_neg h]

theorem word32_of_drop {data : Bytes} (hdrop : b.drop i = data ++ rest) (hlen : data.length = 4)
    : word32 b i = word32 data 0 := by
  rw [word32_drop, hdrop]
  match data, hlen with
  | [x, y, z, w], _ => rfl

theorem dnsAnswers_all (rs : List DnsRecord) (hdrop : b.drop i = rs.flatMap DnsRecord.bytes ++ rest)
    : (dnsAnswers b rs.length i).Yields (fun r => r = firstAddr rs) := by
  induction rs generalizing i with
  | nil => exact yields_pure rfl
  | cons r rs ih =>
    rw [List.flatMap_cons, List.append_assoc] at hdrop
    have hname : b.drop i = r.name ++ (be16 r.type ++ (be16 r.cls ++ be32 r.ttl
        ++ (be16 (.ofNat r.data.length) ++ (r.data ++ (rs.flatMap DnsRecord.bytes ++ rest))))) := by
      rw [hdrop]
      unfold DnsRecord.bytes
      simp only [List.append_assoc]
    have htype := drop_of_drop hname
    have hcls := drop_of_drop htype
    have hsize := drop_of_drop hcls
    have hdata := drop_of_drop hsize
    have hnext := drop_of_drop hdata
    have hpos : i + r.name.length + (be16 r.type).length + (be16 r.cls ++ be32 r.ttl).length
        = i + r.name.length + 8 := rfl
    have hbody : i + r.name.length + 8 + (be16 (.ofNat r.data.length)).length = i + r.name.length + 10 := rfl
    rw [hpos] at hsize hdata hnext
    rw [hbody] at hdata hnext
    have hin : i + r.name.length + 10 ≤ b.length := by
      have hlt := lt_of_drop hsize
      have hle := le_of_drop hsize (by omega)
      exact hle
    unfold dnsAnswers
    apply yields_bind (dnsSkipName_name r.wire hname (name_length_le hname))
    rintro s rfl
    dsimp only
    rw [if_neg (by omega)]
    apply yields_bind (yields_load16_drop htype)
    rintro type rfl
    apply yields_bind (yields_load16_drop hsize)
    rintro size rfl
    have hrdl : (UInt16.ofNat r.data.length).toNat = r.data.length := by
      rw [UInt16.toNat_ofNat']
      exact Nat.mod_eq_of_lt r.size
    rw [hrdl, firstAddr_cons]
    rw [if_neg (by have := le_of_drop hdata hin; omega)]
    apply yields_ite
    . intro ha
      have hisA : r.IsA := ha
      rw [if_pos hisA]
      have hle := le_of_drop hdata hin
      apply yields_bind (yields_load32 (by omega))
      rintro ip rfl
      rw [word32_of_drop hdata ha.2]
      exact yields_pure rfl
    . intro ha
      have hnotA : ¬r.IsA := ha
      rw [if_neg hnotA]
      exact ih hnext

theorem dnsReply_message {m : DnsMessage} (h : m.IsReply)
    : (dnsReply m.id m.bytes).Yields
      (fun r => r = match firstAddr m.answers with | some ip => .addr ip | none => .fail) := by
  obtain ⟨hqd, han⟩ := m.counts
  have hid : m.bytes.drop 0 = be16 m.id ++ ([m.flags.1] ++ ([m.flags.2] ++ (be16 (.ofNat m.questions.length)
      ++ (be16 (.ofNat m.answers.length)
        ++ ((be16 (.ofNat m.authority.length) ++ be16 (.ofNat m.additional.length))
          ++ (m.questions.flatMap DnsQuestion.bytes ++ (m.answers.flatMap DnsRecord.bytes
            ++ (m.authority.flatMap DnsRecord.bytes ++ m.additional.flatMap DnsRecord.bytes)))))))) := by
    rw [List.drop_zero]
    unfold DnsMessage.bytes
    simp only [List.append_assoc, List.cons_append, List.nil_append]
  have hflags := drop_of_drop hid
  have hflags' := drop_of_drop hflags
  have hquestions := drop_of_drop hflags'
  have hanswers := drop_of_drop hquestions
  have hrest := drop_of_drop hanswers
  have hbody := drop_of_drop hrest
  have hlong : 12 ≤ m.bytes.length := le_of_drop hrest (Nat.le_of_lt (lt_of_drop hrest))
  have hfirst := drop_of_drop hbody
  unfold dnsReply
  rw [if_neg (Nat.not_lt.mpr hlong)]
  apply yields_bind (yields_load16_drop hid)
  rintro rid rfl
  apply yields_bind (yields_load8_drop hflags)
  rintro qr rfl
  rw [if_neg (by rintro (hne | hzero); exacts [hne rfl, h.qr hzero])]
  apply yields_bind (yields_load8_drop hflags')
  rintro rcode rfl
  rw [if_neg (not_not.mpr h.rcode)]
  apply yields_bind (yields_load16_drop hquestions)
  rintro qd rfl
  apply yields_bind (yields_load16_drop hanswers)
  rintro an rfl
  rw [UInt16.toNat_ofNat', UInt16.toNat_ofNat', Nat.mod_eq_of_lt hqd, Nat.mod_eq_of_lt han]
  apply yields_bind (dnsQuestions_all m.questions hbody)
  rintro pos rfl
  apply yields_bind (dnsAnswers_all m.answers hfirst)
  rintro ip rfl
  cases firstAddr m.answers with
  | none => exact yields_pure rfl
  | some ip => exact yields_pure rfl

end Reply

section Query

variable {q l s rest : Bytes} {labels ls : List Bytes} {P : Option Bytes → Prop}

theorem dotted_cons (l : Bytes) (h : ls ≠ []) : dotted (l :: ls) = l ++ 46 :: dotted ls := by
  cases ls with
  | nil => contradiction
  | cons l' ls => rfl

theorem dotted_pos (hlabel : ∀ l ∈ labels, IsLabel l) (hne : labels ≠ []) : 1 ≤ (dotted labels).length := by
  cases labels with
  | nil => contradiction
  | cons l ls =>
    have hl := (hlabel l List.mem_cons_self).pos
    by_cases hls : ls = []
    . subst hls
      exact hl
    . rw [dotted_cons l hls, List.length_append]
      omega

theorem takeWhile_label (hl : 46 ∉ l) (hs : s = l ++ 46 :: rest ∨ s = l ∧ rest = [])
    : s.takeWhile (· ≠ 46) = l ∧ s.drop (l.length + 1) = rest := by
  have hall : ∀ c ∈ l, decide (c ≠ 46) = true := by
    intro c hc
    rw [decide_eq_true_eq]
    rintro rfl
    exact hl hc
  rcases hs with rfl | ⟨rfl, rfl⟩
  . constructor
    . rw [List.takeWhile_append_of_pos hall]
      rw [List.takeWhile_cons_of_neg (by simp), List.append_nil]
    . rw [← List.drop_drop, List.drop_left]
      rfl
  . constructor
    . exact List.takeWhile_eq_self_iff.mpr hall
    . exact List.drop_eq_nil_of_le (by omega)

theorem dnsLabels_label (hl : IsLabel l) (hroom : q.length + (dnsLabel l).length ≤ 300)
    (hs : s = l ++ 46 :: rest ∨ s = l ∧ rest = []) (hrest : (dnsLabels (q ++ dnsLabel l) rest).Yields P)
    : (dnsLabels q s).Yields P := by
  obtain ⟨htake, hdrop⟩ := takeWhile_label hl.noDot hs
  have hpos := hl.pos
  have hshort := hl.short
  have hne : s ≠ [] := by
    rintro rfl
    rw [List.takeWhile_nil] at htake
    rw [← htake] at hpos
    contradiction
  unfold dnsLabels
  rw [if_neg hne, htake]
  dsimp only
  rw [if_neg (by omega), hdrop]
  rw [dnsLabel, List.length_cons] at hroom
  exact yields_bind (yields_store (by omega)) (fun _ _ => hrest)

theorem dnsLabels_host {fin : Bytes} (hfin : fin = [] ∨ fin = [46]) (hlabel : ∀ l ∈ labels, IsLabel l)
    (hne : labels ≠ []) (hroom : q.length + (labels.flatMap dnsLabel).length ≤ 300)
    : (dnsLabels q (dotted labels ++ fin)).Yields (fun r => r = some (q ++ labels.flatMap dnsLabel)) := by
  induction labels generalizing q with
  | nil => contradiction
  | cons l ls ih =>
    rw [List.flatMap_cons] at hroom ⊢
    rw [List.length_append] at hroom
    have hl := hlabel l List.mem_cons_self
    by_cases hls : ls = []
    . subst hls
      have hs : l ++ fin = l ++ 46 :: [] ∨ l ++ fin = l ∧ ([] : Bytes) = [] := by
        rcases hfin with rfl | rfl
        . exact .inr ⟨List.append_nil l, rfl⟩
        . exact .inl rfl
      apply dnsLabels_label hl (by omega) hs
      unfold dnsLabels
      rw [if_pos rfl, List.flatMap_nil, List.append_nil]
      exact yields_pure rfl
    . rw [dotted_cons l hls, List.append_assoc]
      apply dnsLabels_label hl (by omega) (.inl rfl)
      rw [← List.append_assoc]
      apply ih (fun l' hl' => hlabel l' (List.mem_cons_of_mem l hl')) hls
      rw [List.length_append]
      omega

theorem length_labels (hne : labels ≠ []) : (labels.flatMap dnsLabel).length = (dotted labels).length + 1 := by
  induction labels with
  | nil => contradiction
  | cons l ls ih =>
    rw [List.flatMap_cons, List.length_append, dnsLabel, List.length_cons]
    by_cases hls : ls = []
    . subst hls
      rfl
    . rw [ih hls, dotted_cons l hls, List.length_append, List.length_cons]
      omega

end Query

section Address

variable {s pre : Bytes} {parts : Nat} {v ip : UInt32} {cur : Option Nat}

/--
What `parse_dotted` has read of the current part.
-/
def Reading (cur : Option Nat) (pre : Bytes) : Prop :=
  match cur with
  | none => pre = []
  | some n => IsOctet pre ∧ decimal pre = n

theorem Reading.digit {c : Byte} (h : Reading cur pre) (hdigit : 48 ≤ c ∧ c ≤ 57)
    (hsmall : ¬255 < cur.getD 0 * 10 + (c.toNat - 48))
    : Reading (some (cur.getD 0 * 10 + (c.toNat - 48))) (pre ++ [c]) := by
  have hvalue : decimal pre = cur.getD 0 ∧ ∀ d ∈ pre, 48 ≤ d ∧ d ≤ 57 := by
    cases cur with
    | none =>
      obtain rfl : pre = [] := h
      exact ⟨rfl, fun d hd => absurd hd List.not_mem_nil⟩
    | some n => exact ⟨h.2, h.1.digits⟩
  have hdecimal : decimal (pre ++ [c]) = cur.getD 0 * 10 + (c.toNat - 48) := by
    rw [← hvalue.1]
    unfold decimal
    rw [List.foldl_append]
    rfl
  refine ⟨⟨by simp, ?_, by omega⟩, hdecimal⟩
  intro d hd
  rcases List.mem_append.mp hd with hd | hd
  . exact hvalue.2 d hd
  . obtain rfl := List.mem_singleton.mp hd
    exact hdigit

theorem parseDotted_octets (hpre : Reading cur pre) (h : parseDotted s v parts cur = some ip)
    : parts < 4 ∧ ∃ octets : List Bytes, octets.length + parts = 4 ∧ (∀ o ∈ octets, IsOctet o)
      ∧ pre ++ s = dotted octets := by
  induction s generalizing v parts cur pre with
  | nil =>
    unfold parseDotted at h
    cases cur with
    | none => contradiction
    | some n =>
      dsimp only at h
      split at h
      . next hparts =>
        refine ⟨by omega, [pre], by simp only [List.length_singleton]; omega, ?_, List.append_nil pre⟩
        intro o ho
        obtain rfl := List.mem_singleton.mp ho
        exact hpre.1
      . contradiction
  | cons c s ih =>
    unfold parseDotted at h
    split at h
    . next hdigit =>
      dsimp only at h
      split at h
      . contradiction
      . next hsmall =>
        obtain ⟨hparts, octets, hlen, hoctets, heq⟩ := ih (hpre.digit hdigit hsmall) h
        rw [List.append_assoc] at heq
        exact ⟨hparts, octets, hlen, hoctets, heq⟩
    . split at h
      . next hdot =>
        cases cur with
        | none => contradiction
        | some n =>
          obtain ⟨hparts, octets, hlen, hoctets, heq⟩ := ih (show Reading none [] from rfl) h
          refine ⟨by omega, pre :: octets, by rw [List.length_cons]; omega, ?_, ?_⟩
          . intro o ho
            rcases List.mem_cons.mp ho with rfl | ho
            . exact hpre.1
            . exact hoctets o ho
          . have hne : octets ≠ [] := by
              rintro rfl
              rw [List.length_nil] at hlen
              omega
            rw [dotted_cons pre hne, ← heq, hdot]
            rfl
      . contradiction

theorem parseDotted_none {host : Bytes} (h : ¬IsAddress host) : parseDotted host 0 0 none = none := by
  cases hp : parseDotted host 0 0 none with
  | none => rfl
  | some ip =>
    obtain ⟨_, octets, hlen, hoctets, heq⟩ := parseDotted_octets (show Reading none [] from rfl) hp
    exact absurd ⟨octets, hlen, hoctets, heq⟩ h

end Address

theorem netResolve_query {cfg : Cfg} {host : Bytes} {labels : List Bytes} (now now' : UInt32)
    (hcfg : cfg.ip ≠ 0 ∧ cfg.dns ≠ 0) (hhost : HostName labels host) (hname : ¬IsAddress host)
    : ∃ query, netResolve true cfg host now now' = .ok (.waiting (now ^^^ 0xA5A5).toUInt16 query 0 [query])
      ∧ query.dst = cfg.dns ∧ query.dport = 53 ∧ query.data = dnsQuery (now ^^^ 0xA5A5).toUInt16 labels
      ∧ query.data.length ≤ 300 := by
  obtain ⟨fin, hfin, rfl⟩ : ∃ fin : Bytes, (fin = [] ∨ fin = [46]) ∧ host = dotted labels ++ fin := by
    rcases hhost.text with h | h
    . exact ⟨[], .inl rfl, by rw [List.append_nil, h]⟩
    . exact ⟨[46], .inr rfl, h⟩
  have hlen := length_labels hhost.pos
  have hshort := hhost.short
  rw [List.length_append] at hshort
  have hpos := dotted_pos hhost.label hhost.pos
  have hdata : (dnsQuery (now ^^^ 0xA5A5).toUInt16 labels).length = 12 + (labels.flatMap dnsLabel).length + 5 := by
    unfold dnsQuery be16
    simp only [List.length_append, List.length_cons, List.length_nil]
  refine ⟨⟨cfg.dns, 40000 + (now' % 2000).toUInt16, 53, dnsQuery (now ^^^ 0xA5A5).toUInt16 labels⟩, ?_, rfl, rfl,
    rfl, ?_⟩
  . apply yields_eq
    unfold netResolve
    rw [parseDotted_none hname]
    dsimp only
    rw [if_neg (by simp [hcfg]), if_neg (by rw [List.length_append]; omega)]
    refine yields_bind (yields_store (by omega)) (fun _ _ => ?_)
    refine yields_bind (dnsLabels_host hfin hhost.label hhost.pos ?_) ?_
    . show 12 + _ ≤ 300
      omega
    . rintro r rfl
      refine yields_bind (yields_store ?_) (fun _ _ => yields_pure rfl)
      rw [List.length_append]
      show 12 + _ + 5 ≤ 300
      omega
  . rw [hdata]
    omega

namespace Resolve

def Asks (id : UInt16) (query : Datagram) : Resolve → Prop
  | .waiting id' query' _ sent => id' = id ∧ query' = query ∧ ∀ q ∈ sent, q = query
  | .done .. => True

theorem waiting_step {id : UInt16} {query : Datagram} {s s' : Resolve} {e : ResolveEvent} (hs : Asks id query s)
    (h : Step e s s')
    : Asks id query s' := by
  unfold Step at h
  cases s with
  | done ret sent => cases e <;> contradiction
  | waiting id' query' attempt sent =>
    cases e with
    | datagram b =>
      unfold next at h
      dsimp only at h
      split at h
      . split at h
        . obtain rfl := Option.some.inj h
          exact hs
        . obtain rfl := Option.some.inj h
          trivial
        . obtain rfl := Option.some.inj h
          trivial
        . contradiction
      . contradiction
    | timeout =>
      unfold next at h
      dsimp only at h
      split at h
      . obtain rfl := Option.some.inj h
        refine ⟨hs.1, hs.2.1, fun q hq => ?_⟩
        rcases List.mem_cons.mp hq with rfl | hq
        . exact hs.2.1
        . exact hs.2.2 q hq
      . obtain rfl := Option.some.inj h
        trivial

theorem waiting_keeps {id id' : UInt16} {query query' : Datagram} {attempt : Nat} {sent : List Datagram}
    (h : Run Step (fun _ _ => True) (.waiting id query 0 [query]) (.waiting id' query' attempt sent))
    : id' = id ∧ ∀ q ∈ sent, q = query := by
  have hkeep : Asks id query (.waiting id' query' attempt sent) := by
    apply h.keeps (I := Asks id query)
    . intro s e s' _ hs hstep
      exact waiting_step hs hstep
    . exact ⟨rfl, rfl, fun q hq => List.mem_singleton.mp hq⟩
  exact ⟨hkeep.1, hkeep.2.2⟩

theorem next_message {m : DnsMessage} (h : m.IsReply) (hlen : m.bytes.length ≤ 600) (query : Datagram) (attempt : Nat)
    (sent : List Datagram)
    : Resolve.next (.waiting m.id query attempt sent) (.datagram m.bytes) = some (.done m.result sent) := by
  unfold next
  dsimp only
  rw [if_pos hlen, yields_eq (dnsReply_message h)]
  unfold DnsMessage.result
  cases firstAddr m.answers with
  | none => rfl
  | some ip => rfl

end Resolve

/--
For a host name that is no address in decimal form: every datagram that `net_resolve` sends asks for exactly its
labels, and the first reply to that makes it return the first address in the answers, whatever it has ignored and
however often it has sent the query until then.
-/
theorem netResolve_lookup {cfg : Cfg} {host : Bytes} {labels : List Bytes} (now now' : UInt32)
    (hcfg : cfg.ip ≠ 0 ∧ cfg.dns ≠ 0) (hhost : HostName labels host) (hname : ¬IsAddress host)
    : ∃ query, netResolve true cfg host now now' = .ok (.waiting (now ^^^ 0xA5A5).toUInt16 query 0 [query])
      ∧ query.dst = cfg.dns ∧ query.dport = 53 ∧ query.data = dnsQuery (now ^^^ 0xA5A5).toUInt16 labels
      ∧ query.data.length ≤ 300
      ∧ ∀ id asked attempt sent,
        Run Resolve.Step (fun _ _ => True) (.waiting (now ^^^ 0xA5A5).toUInt16 query 0 [query])
          (.waiting id asked attempt sent) →
        (∀ q ∈ sent, q = query) ∧ ∀ m : DnsMessage, m.id = (now ^^^ 0xA5A5).toUInt16 → m.IsReply →
          m.bytes.length ≤ 600 →
          Resolve.next (.waiting id asked attempt sent) (.datagram m.bytes) = some (.done m.result sent) := by
  obtain ⟨query, heq, hdst, hport, hdata, hlen⟩ := netResolve_query now now' hcfg hhost hname
  refine ⟨query, heq, hdst, hport, hdata, hlen, ?_⟩
  intro id asked attempt sent hrun
  obtain ⟨rfl, hsent⟩ := Resolve.waiting_keeps hrun
  refine ⟨hsent, fun m hid hm hbytes => ?_⟩
  rw [← hid]
  exact Resolve.next_message hm hbytes asked attempt sent

def lookupCfg : Cfg where
  ip := 0x0A00020F
  mask := 0xFFFFFF00
  gw := 0x0A000202
  dns := 0x0A000203

/--
The host `a.b`.
-/
theorem netResolve_lookup_two
    : ∃ query, netResolve true lookupCfg [97, 46, 98] 0 0 = .ok (.waiting 0xA5A5 query 0 [query])
      ∧ query.data = dnsQuery 0xA5A5 [[97], [98]] := by
  have hhost : HostName [[97], [98]] [97, 46, 98] := by
    refine ⟨.inl rfl, ?_, by decide, by decide⟩
    intro l hl
    rcases List.mem_cons.mp hl with rfl | hl
    . exact ⟨by decide, by decide, by decide⟩
    . obtain rfl := List.mem_singleton.mp hl
      exact ⟨by decide, by decide, by decide⟩
  have hname : ¬IsAddress [97, 46, 98] := by
    rintro ⟨octets, hlen, hoctets, heq⟩
    match octets, hlen with
    | [s, t, u, v], _ =>
      have hsize := congrArg List.length heq
      simp only [dotted, List.length_append, List.length_cons, List.length_nil] at hsize
      have hs := List.length_pos_iff.mpr (hoctets s (by simp)).pos
      omega
  have hcfg : lookupCfg.ip ≠ 0 ∧ lookupCfg.dns ≠ 0 := by decide
  obtain ⟨query, heq, _, _, hdata, _⟩ := netResolve_lookup 0 0 hcfg hhost hname
  exact ⟨query, heq, hdata⟩

/--
No query is sent for `1.1.1.1`, which is a host name with four labels.
-/
theorem netResolve_of_address
    : ¬∀ (cfg : Cfg) (host : Bytes) (labels : List Bytes) (now now' : UInt32), cfg.ip ≠ 0 ∧ cfg.dns ≠ 0 →
      HostName labels host →
      ∃ query, netResolve true cfg host now now' = .ok (.waiting (now ^^^ 0xA5A5).toUInt16 query 0 [query])
        ∧ query.data = dnsQuery (now ^^^ 0xA5A5).toUInt16 labels := by
  intro h
  have hhost : HostName [[49], [49], [49], [49]] [49, 46, 49, 46, 49, 46, 49] := by
    refine ⟨.inl rfl, ?_, by decide, by decide⟩
    intro l hl
    obtain rfl : l = [49] := by simpa using hl
    exact ⟨by decide, by decide, by decide⟩
  obtain ⟨query, heq, _⟩ := h lookupCfg _ _ 0 0 (by decide) hhost
  have hdone : netResolve true lookupCfg [49, 46, 49, 46, 49, 46, 49] 0 0 = .ok (.done (.addr 0x01010101) []) := rfl
  rw [hdone] at heq
  exact absurd (Except.ok.inj heq) (by simp)

end TanjaOS
