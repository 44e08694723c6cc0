import TanjaOS.Fs.Basic
import TanjaOS.Net.Resolve

/-!
`parse_url` takes an address apart. Its port is accumulated in 32 bits and its host and path are copied into buffers of
`hcap` and `pcap` bytes.
-/

open Lib

namespace TanjaOS

section Impl

def tolower (c : Byte) : Byte :=
  if 65 ≤ c ∧ c ≤ 90 then c + 32 else c

/--
The comparison of the first `n` bytes. The byte behind the last one of a list is the NUL.
-/
def strncasecmp : (n : Nat) → (a b : Bytes) → Int
  | 0, _, _ => 0
  | n + 1, a, b =>
    if a.headD 0 ≠ 0 ∧ b.headD 0 ≠ 0 ∧ tolower (a.headD 0) = tolower (b.headD 0) then
      strncasecmp n a.tail b.tail
    else
      (tolower (a.headD 0)).toNat - (tolower (b.headD 0)).toNat

/--
Copy the bytes that meet `p` while there is room. The second part is what remains to be read.
-/
def copyWhile (p : Byte → Bool) : (room : Nat) → Bytes → Bytes × Bytes
  | room + 1, c :: cs =>
    if p c then
      (c :: (copyWhile p room cs).1, (copyWhile p room cs).2)
    else
      ([], c :: cs)
  | _, cs => ([], cs)

def IsDigit (c : Byte) : Bool :=
  48 ≤ c ∧ c ≤ 57

def portDigits (p : Nat) : Bytes → Nat × Bytes
  | [] => (p, [])
  | c :: cs =>
    if IsDigit c then
      portDigits ((p * 10 + (c.toNat - 48)) % 2 ^ 32) cs
    else
      (p, c :: cs)

/--
What `parse_url` stores.
-/
structure Url where
  host : Bytes
  port : UInt16
  path : Bytes
  tls : Bool
  deriving DecidableEq

def defaultPort (tls : Bool) : Nat :=
  if tls then 443 else 80

def parsePort (tls : Bool) (url : Bytes) : Option (UInt16 × Bytes) :=
  match url with
  | 58 :: cs =>
    let (p, rest) := portDigits 0 cs
    if p = 0 ∨ 65535 < p then none else some (.ofNat p, rest)
  | _ => some (.ofNat (defaultPort tls), url)

def parseRest (hcap pcap : Nat) (tls : Bool) (url : Bytes) : Option Url :=
  let (host, rest) := copyWhile (fun c => c ≠ 47 ∧ c ≠ 58) (hcap - 1) url
  if host = [] then
    none
  else
    match parsePort tls rest with
    | none => none
    | some (port, rest) =>
      if rest.headD 47 ≠ 47 then
        none
      else
        let path := if rest = [] then [47] else (copyWhile (fun _ => true) (pcap - 1) rest).1
        some { host, port, path, tls }

/--
`none` stands for `NET_E_URL`.
-/
def parseUrl (hcap pcap : Nat) (url : CStr) : Option Url :=
  if strncasecmp 8 url.val [104, 116, 116, 112, 115, 58, 47, 47] = 0 then
    parseRest hcap pcap true (url.val.drop 8)
  else if strncasecmp 7 url.val [104, 116, 116, 112, 58, 47, 47] = 0 then
    parseRest hcap pcap false (url.val.drop 7)
  else
    none

end Impl

section Spec

def schemeName (tls : Bool) : Bytes :=
  if tls then [104, 116, 116, 112, 115] else [104, 116, 116, 112]

/--
The components of an address. A path starts with a slash or is missing.
-/
structure UrlText where
  tls : Bool
  scheme : Bytes
  host : Bytes
  port : Option Bytes
  path : Bytes
  scheme_name : scheme.map tolower = schemeName tls
  host_some : host ≠ []
  host_chars : ∀ c ∈ host, c ≠ 47 ∧ c ≠ 58
  port_digits : ∀ ds ∈ port, ∀ c ∈ ds, IsDigit c
  path_slash : path.headD 47 = 47

namespace UrlText

def rest (t : UrlText) : Bytes :=
  t.host ++ ((t.port.map (58 :: ·)).getD [] ++ t.path)

def text (t : UrlText) : Bytes :=
  t.scheme ++ ([58, 47, 47] ++ t.rest)

def portValue (t : UrlText) : Nat :=
  (t.port.map decimal).getD (defaultPort t.tls)

def fullPath (t : UrlText) : Bytes :=
  if t.path = [] then [47] else t.path

end UrlText

/--
The grammar: `url` has these components, and they fit.
-/
def IsUrl (hcap pcap : Nat) (url : Bytes) (u : Url) : Prop :=
  ∃ t : UrlText, t.text = url ∧ t.host.length < hcap ∧ 1 ≤ t.portValue ∧ t.portValue ≤ 65535 ∧
    t.fullPath.length < pcap ∧ u = ⟨t.host, .ofNat t.portValue, t.fullPath, t.tls⟩

/--
A port that is only a port modulo 2^32, or a path that does not fit.
-/
def Misread (hcap pcap : Nat) (url : Bytes) : Prop :=
  ∃ t : UrlText, t.text = url ∧ t.host.length < hcap ∧ 1 ≤ t.portValue % 2 ^ 32 ∧ t.portValue % 2 ^ 32 ≤ 65535 ∧
    (65535 < t.portValue ∨ pcap ≤ t.fullPath.length)

end Spec

section Scan

theorem copyWhile_append (p : Byte → Bool) (room : Nat) (cs : Bytes)
    : (copyWhile p room cs).1 ++ (copyWhile p room cs).2 = cs := by
  induction cs generalizing room with
  | nil => cases room <;> rfl
  | cons c cs ih =>
    cases room with
    | zero => rfl
    | succ room =>
      unfold copyWhile
      split
      . rw [List.cons_append, ih]
      . rfl

theorem copyWhile_fst (p : Byte → Bool) (room : Nat) (cs : Bytes)
    : (copyWhile p room cs).1 = (cs.takeWhile p).take room := by
  induction cs generalizing room with
  | nil => cases room <;> rfl
  | cons c cs ih =>
    cases room with
    | zero => rfl
    | succ room =>
      unfold copyWhile
      rw [List.takeWhile_cons]
      split
      . rw [ih, List.take_succ_cons]
      . rfl

theorem decimal_fold (v : Nat) (ds : Bytes)
    : ds.foldl (fun v c => v * 10 + (c.toNat - 48)) (v % 2 ^ 32) % 2 ^ 32 =
      ds.foldl (fun v c => v * 10 + (c.toNat - 48)) v % 2 ^ 32 := by
  induction ds generalizing v with
  | nil => exact Nat.mod_mod v (2 ^ 32)
  | cons c ds ih =>
    have hstep : (v % 2 ^ 32 * 10 + (c.toNat - 48)) % 2 ^ 32 = (v * 10 + (c.toNat - 48)) % 2 ^ 32 := by omega
    rw [List.foldl_cons, List.foldl_cons, ← ih, hstep, ih]

theorem portDigits_append {ds rest : Bytes} (v : Nat) (hds : ∀ c ∈ ds, IsDigit c) (hrest : (rest.headD 47) = 47)
    (hv : v < 2 ^ 32)
    : portDigits v (ds ++ rest) = (ds.foldl (fun v c => v * 10 + (c.toNat - 48)) v % 2 ^ 32, rest) := by
  induction ds generalizing v with
  | nil =>
    rw [List.foldl_nil, Nat.mod_eq_of_lt hv, List.nil_append]
    cases rest with
    | nil => rfl
    | cons c rest =>
      obtain rfl : c = 47 := hrest
      rfl
  | cons c ds ih =>
    rw [List.forall_mem_cons] at hds
    rw [List.cons_append]
    unfold portDigits
    rw [if_pos hds.1, ih _ hds.2 (Nat.mod_lt _ (by decide)), List.foldl_cons, decimal_fold]

theorem portDigits_snd (v : Nat) (cs : Bytes) : (portDigits v cs).2 = cs.dropWhile IsDigit := by
  induction cs generalizing v with
  | nil => rfl
  | cons c cs ih =>
    unfold portDigits
    rw [List.dropWhile_cons]
    split
    . exact ih _
    . rfl

theorem tolower_toNat (c : Byte)
    : (tolower c).toNat = if 65 ≤ c.toNat ∧ c.toNat ≤ 90 then c.toNat + 32 else c.toNat := by
  unfold tolower
  have hiff : (65 ≤ c ∧ c ≤ 90) ↔ (65 ≤ c.toNat ∧ c.toNat ≤ 90) := by
    rw [UInt8.le_iff_toNat_le, UInt8.le_iff_toNat_le]
    rfl
  by_cases h : 65 ≤ c ∧ c ≤ 90
  . rw [if_pos h, if_pos (hiff.mp h), UInt8.toNat_add]
    have hbound := (hiff.mp h).2
    show (c.toNat + 32) % 256 = _
    omega
  . rw [if_neg h, if_neg (fun hn => h (hiff.mpr hn))]

theorem tolower_eq_iff {c x : Byte} (hx : x.toNat < 65) : tolower c = x ↔ c = x := by
  rw [← UInt8.toNat_inj, ← UInt8.toNat_inj, tolower_toNat]
  split <;> omega

theorem strncasecmp_eq_zero {a b : Bytes} (ha : 0 ∉ a) (hb : 0 ∉ b)
    : strncasecmp b.length a b = 0 ↔ (a.take b.length).map tolower = b.map tolower := by
  induction b generalizing a with
  | nil => simp [strncasecmp]
  | cons y b ih =>
    have hy : y ≠ 0 := by
      rintro rfl
      simp at hb
    have hb' : 0 ∉ b := fun h => hb (List.mem_cons_of_mem y h)
    rw [List.length_cons, List.map_cons]
    unfold strncasecmp
    cases a with
    | nil =>
      have hlower : tolower y ≠ 0 := fun h => hy ((tolower_eq_iff (by decide)).mp h)
      rw [← UInt8.toNat_inj.ne] at hlower
      have hzero : ((tolower 0).toNat : Int) = 0 := rfl
      simp only [List.headD_nil, List.headD_cons, hzero]
      simp
      exact fun h => hlower (by rw [h]; rfl)
    | cons x a =>
      have hx : x ≠ 0 := by
        rintro rfl
        simp at ha
      have ha' : 0 ∉ a := fun h => ha (List.mem_cons_of_mem x h)
      rw [List.take_succ_cons, List.map_cons, List.cons_eq_cons, ← ih ha' hb']
      have hloop : ((x :: a).headD 0 ≠ 0 ∧ (y :: b).headD 0 ≠ 0 ∧
          tolower ((x :: a).headD 0) = tolower ((y :: b).headD 0)) ↔ tolower x = tolower y :=
        ⟨fun h => h.2.2, fun h => ⟨hx, hy, h⟩⟩
      by_cases heq : tolower x = tolower y
      . rw [if_pos (hloop.mpr heq)]
        simp [heq]
      . rw [if_neg (fun h => heq (hloop.mp h))]
        have hne : (tolower x).toNat ≠ (tolower y).toNat := fun h => heq (UInt8.toNat_inj.mp h)
        simp [heq]
        omega

end Scan

section Rest

variable {hcap pcap : Nat} {tls : Bool} {url : Bytes}

/--
What `parse_url` stores for an address with these components.
-/
def UrlText.stored (pcap : Nat) (t : UrlText) : Url where
  host := t.host
  port := .ofNat (t.portValue % 2 ^ 32)
  path := if t.path = [] then [47] else t.path.take (pcap - 1)
  tls := t.tls

/--
What `parse_url` asks of an address with these components.
-/
structure UrlText.Accepted (hcap : Nat) (t : UrlText) : Prop where
  host : t.host.length < hcap
  some : 1 ≤ t.portValue % 2 ^ 32
  small : t.portValue % 2 ^ 32 ≤ 65535

theorem parsePort_other {url : Bytes} (h : url.headD 47 = 47)
    : parsePort tls url = some (.ofNat (defaultPort tls), url) := by
  cases url with
  | nil => rfl
  | cons c cs =>
    obtain rfl : c = 47 := h
    rfl

theorem defaultPort_mod (tls : Bool) : defaultPort tls % 2 ^ 32 = defaultPort tls := by
  cases tls <;> rfl

theorem parsePort_some (t : UrlText) (hsome : 1 ≤ t.portValue % 2 ^ 32) (hsmall : t.portValue % 2 ^ 32 ≤ 65535)
    : parsePort t.tls ((t.port.map (58 :: ·)).getD [] ++ t.path) = some (.ofNat (t.portValue % 2 ^ 32), t.path) := by
  unfold UrlText.portValue at *
  cases hport : t.port with
  | none =>
    show parsePort t.tls t.path = some (.ofNat (defaultPort t.tls % 2 ^ 32), t.path)
    rw [parsePort_other t.path_slash, defaultPort_mod]
  | some ds =>
    rw [hport] at hsome hsmall
    have hdigits := portDigits_append 0 (t.port_digits ds hport) t.path_slash (by decide)
    have hvalue : ds.foldl (fun v c => v * 10 + (c.toNat - 48)) 0 = decimal ds := rfl
    rw [hvalue] at hdigits
    show (if (portDigits 0 (ds ++ t.path)).1 = 0 ∨ 65535 < (portDigits 0 (ds ++ t.path)).1 then none else
      some (UInt16.ofNat (portDigits 0 (ds ++ t.path)).1, (portDigits 0 (ds ++ t.path)).2)) = _
    rw [hdigits]
    have hport : ¬(decimal ds % 2 ^ 32 = 0 ∨ 65535 < decimal ds % 2 ^ 32) := by
      rintro (h | h)
      . exact absurd hsome (by show ¬1 ≤ decimal ds % 2 ^ 32; omega)
      . exact absurd hsmall (Nat.not_le.mpr h)
    rw [if_neg hport]
    rfl

theorem takeWhile_afterHost (t : UrlText)
    : ((t.port.map (58 :: ·)).getD [] ++ t.path).takeWhile (fun c => c ≠ 47 ∧ c ≠ 58) = [] := by
  cases t.port with
  | none =>
    have hslash := t.path_slash
    show t.path.takeWhile _ = []
    cases hpath : t.path with
    | nil => rfl
    | cons c cs =>
      rw [hpath] at hslash
      obtain rfl : c = 47 := hslash
      rfl
  | some ds => rfl

theorem copyHost (t : UrlText) (hfits : t.host.length < hcap)
    : copyWhile (fun c => c ≠ 47 ∧ c ≠ 58) (hcap - 1) t.rest =
      (t.host, (t.port.map (58 :: ·)).getD [] ++ t.path) := by
  have hscan : t.rest.takeWhile (fun c => c ≠ 47 ∧ c ≠ 58) = t.host := by
    unfold UrlText.rest
    rw [List.takeWhile_append_of_pos (fun c hc => by simpa using t.host_chars c hc), takeWhile_afterHost,
      List.append_nil]
  have hfst := copyWhile_fst (fun c => c ≠ 47 ∧ c ≠ 58) (hcap - 1) t.rest
  rw [hscan, List.take_of_length_le (by omega)] at hfst
  have hall := copyWhile_append (fun c => c ≠ 47 ∧ c ≠ 58) (hcap - 1) t.rest
  rw [hfst] at hall
  exact Prod.ext hfst (List.append_cancel_left hall)

theorem parseRest_text (t : UrlText) (h : t.Accepted hcap)
    : parseRest hcap pcap t.tls t.rest = some (t.stored pcap) := by
  have hslash : ¬t.path.headD 47 ≠ 47 := fun hne => hne t.path_slash
  unfold parseRest
  rw [copyHost t h.host]
  dsimp only
  rw [if_neg t.host_some, parsePort_some t h.some h.small]
  dsimp only
  rw [if_neg hslash]
  unfold UrlText.stored
  rw [copyWhile_fst, List.takeWhile_eq_self_iff.mpr (fun _ _ => rfl)]

theorem parsePort_parts {rest rest' : Bytes} {port : UInt16} (h : parsePort tls rest = some (port, rest'))
    (hslash : rest'.headD 47 = 47)
    : ∃ ds : Option Bytes, (∀ d ∈ ds, ∀ c ∈ d, IsDigit c) ∧ rest = (ds.map (58 :: ·)).getD [] ++ rest' ∧
      1 ≤ (ds.map decimal).getD (defaultPort tls) % 2 ^ 32 ∧
      (ds.map decimal).getD (defaultPort tls) % 2 ^ 32 ≤ 65535 := by
  unfold parsePort at h
  split at h
  . next cs =>
    have hsnd := portDigits_snd 0 cs
    have hsplit : cs.takeWhile IsDigit ++ (portDigits 0 cs).2 = cs := by
      rw [hsnd, List.takeWhile_append_dropWhile]
    have hall : ∀ c ∈ cs.takeWhile IsDigit, IsDigit c := fun c hc => List.mem_takeWhile_imp hc
    generalize hres : portDigits 0 cs = res at h hsplit
    dsimp only at h
    split at h
    . cases h
    . next hvalue =>
      cases h
      have hdigits := portDigits_append 0 hall hslash (by decide)
      rw [hsplit, hres] at hdigits
      have hdecimal : res.1 = decimal (cs.takeWhile IsDigit) % 2 ^ 32 := by rw [hdigits]; rfl
      rw [hdecimal] at hvalue
      refine ⟨some (cs.takeWhile IsDigit), ?_, congrArg (58 :: ·) hsplit.symm, ?_⟩
      . rintro _ ⟨⟩
        exact hall
      . show 1 ≤ decimal _ % 2 ^ 32 ∧ decimal _ % 2 ^ 32 ≤ 65535
        omega
  . cases h
    refine ⟨none, by simp, rfl, ?_⟩
    show 1 ≤ defaultPort tls % 2 ^ 32 ∧ defaultPort tls % 2 ^ 32 ≤ 65535
    cases tls <;> decide

theorem exists_text {scheme : Bytes} {u : Url} (hscheme : scheme.map tolower = schemeName tls)
    (h : parseRest hcap pcap tls url = some u)
    : ∃ t : UrlText, t.tls = tls ∧ t.scheme = scheme ∧ t.rest = url ∧ t.Accepted hcap := by
  have hall := copyWhile_append (fun c => c ≠ 47 ∧ c ≠ 58) (hcap - 1) url
  have hfst := copyWhile_fst (fun c => c ≠ 47 ∧ c ≠ 58) (hcap - 1) url
  unfold parseRest at h
  generalize copyWhile (fun c => c ≠ 47 ∧ c ≠ 58) (hcap - 1) url = copied at h hall hfst
  obtain ⟨host, rest⟩ := copied
  dsimp only at h hall hfst
  split at h
  . cases h
  . next hhost =>
    split at h
    . cases h
    . next port rest' hport =>
      split at h
      . cases h
      . next hslash =>
        obtain ⟨ds, hdigits, hrest, hsome, hsmall⟩ := parsePort_parts hport (not_not.mp hslash)
        have hchars : ∀ c ∈ host, c ≠ 47 ∧ c ≠ 58 := by
          intro c hc
          rw [hfst] at hc
          have hmem := List.mem_takeWhile_imp (List.mem_of_mem_take hc)
          simpa using hmem
        have hlen : host.length ≤ hcap - 1 := by
          rw [hfst]
          exact List.length_take_le _ _
        have hpos := List.length_pos_of_ne_nil hhost
        refine ⟨⟨tls, scheme, host, ds, rest', hscheme, hhost, hchars, hdigits, not_not.mp hslash⟩, rfl, rfl, ?_, ?_⟩
        . show host ++ ((ds.map (58 :: ·)).getD [] ++ rest') = url
          rw [← hrest, hall]
        . exact ⟨by show host.length < hcap; omega, hsome, hsmall⟩

end Rest

section Parse

variable {hcap pcap : Nat} {url : Bytes}

theorem schemeName_length (t : UrlText) : t.scheme.length = (schemeName t.tls).length := by
  rw [← t.scheme_name, List.length_map]

/--
The scheme comparison of `parse_url`.
-/
def HasScheme (tls : Bool) (url : Bytes) : Prop :=
  (url.take ((schemeName tls).length + 3)).map tolower = schemeName tls ++ [58, 47, 47]

theorem hasScheme_https (url : CStr)
    : strncasecmp 8 url.val [104, 116, 116, 112, 115, 58, 47, 47] = 0 ↔ HasScheme true url.val := by
  have hname : schemeName true ++ [58, 47, 47] = [104, 116, 116, 112, 115, 58, 47, 47] := rfl
  have hzero : (0 : Byte) ∉ schemeName true ++ [58, 47, 47] := by decide
  have hiff := strncasecmp_eq_zero url.2 hzero
  rw [hname] at hiff
  exact hiff

theorem hasScheme_http (url : CStr)
    : strncasecmp 7 url.val [104, 116, 116, 112, 58, 47, 47] = 0 ↔ HasScheme false url.val := by
  have hname : schemeName false ++ [58, 47, 47] = [104, 116, 116, 112, 58, 47, 47] := rfl
  have hzero : (0 : Byte) ∉ schemeName false ++ [58, 47, 47] := by decide
  have hiff := strncasecmp_eq_zero url.2 hzero
  rw [hname] at hiff
  exact hiff

theorem hasScheme_unique (h : HasScheme false url) : ¬HasScheme true url := by
  intro h'
  unfold HasScheme at h h'
  rw [List.map_take] at h h'
  have hcolon := congrArg (fun l => l[4]?) h
  have hletter := congrArg (fun l => l[4]?) h'
  rw [List.getElem?_take_of_lt (by decide)] at hcolon hletter
  rw [hcolon] at hletter
  revert hletter
  decide

theorem hasScheme_text (t : UrlText) : HasScheme t.tls t.text := by
  unfold HasScheme
  unfold UrlText.text
  rw [← List.append_assoc, ← schemeName_length, List.take_left' (by simp), List.map_append, t.scheme_name]
  rfl

theorem drop_scheme (t : UrlText) : t.text.drop ((schemeName t.tls).length + 3) = t.rest := by
  unfold UrlText.text
  rw [← List.append_assoc, ← schemeName_length, List.drop_left' (by simp)]

theorem exists_scheme {tls : Bool} (h : HasScheme tls url)
    : ∃ scheme, scheme.map tolower = schemeName tls ∧
      url = scheme ++ ([58, 47, 47] ++ url.drop ((schemeName tls).length + 3)) := by
  obtain ⟨scheme, sep, htake, hscheme, hsep⟩ := List.map_eq_append_iff.mp h
  obtain ⟨x, y, z, rfl⟩ := List.length_eq_three.mp (by simpa using congrArg List.length hsep)
  simp only [List.map_cons, List.map_nil, List.cons.injEq, and_true] at hsep
  rw [tolower_eq_iff (by decide), tolower_eq_iff (by decide), tolower_eq_iff (by decide)] at hsep
  obtain ⟨rfl, rfl, rfl⟩ := hsep
  refine ⟨scheme, hscheme, ?_⟩
  rw [← List.append_assoc, ← htake, List.take_append_drop]

theorem parseUrl_scheme {url : CStr} {tls : Bool} (h : HasScheme tls url.val)
    : parseUrl hcap pcap url = parseRest hcap pcap tls (url.val.drop ((schemeName tls).length + 3)) := by
  unfold parseUrl
  cases tls with
  | true =>
    rw [if_pos ((hasScheme_https url).mpr h)]
    rfl
  | false =>
    rw [if_neg (fun h' => hasScheme_unique h ((hasScheme_https url).mp h')), if_pos ((hasScheme_http url).mpr h)]
    rfl

theorem exists_hasScheme {url : CStr} {u : Url} (h : parseUrl hcap pcap url = some u)
    : ∃ tls, HasScheme tls url.val := by
  unfold parseUrl at h
  split at h
  . next hmatch => exact ⟨true, (hasScheme_https url).mp hmatch⟩
  . split at h
    . next hmatch => exact ⟨false, (hasScheme_http url).mp hmatch⟩
    . cases h

theorem parseUrl_iff {url : CStr} {u : Url}
    : parseUrl hcap pcap url = some u ↔ ∃ t : UrlText, t.text = url.val ∧ t.Accepted hcap ∧ u = t.stored pcap := by
  constructor
  . intro h
    obtain ⟨tls, hname⟩ := exists_hasScheme h
    obtain ⟨scheme, hscheme, hurl⟩ := exists_scheme hname
    rw [parseUrl_scheme hname] at h
    obtain ⟨t, rfl, rfl, hrest, haccepted⟩ := exists_text hscheme h
    rw [← hrest, parseRest_text t haccepted] at h
    refine ⟨t, ?_, haccepted, (Option.some.inj h).symm⟩
    rw [hurl, ← hrest]
    rfl
  . rintro ⟨t, htext, haccepted, rfl⟩
    have hname := hasScheme_text t
    rw [htext] at hname
    rw [parseUrl_scheme hname, ← htext, drop_scheme, parseRest_text t haccepted]

theorem stored_of_fits {t : UrlText} (hport : t.portValue ≤ 65535) (hpath : t.fullPath.length < pcap)
    : t.stored pcap = ⟨t.host, .ofNat t.portValue, t.fullPath, t.tls⟩ := by
  unfold UrlText.stored
  rw [Nat.mod_eq_of_lt (show t.portValue < 2 ^ 32 by omega)]
  unfold UrlText.fullPath at *
  split
  . rfl
  . next hsome =>
    rw [if_neg hsome] at hpath
    rw [List.take_of_length_le (by omega)]

theorem tls_unique {t t' : UrlText} (h : t.text = t'.text) : t.tls = t'.tls := by
  have hname := hasScheme_text t
  have hname' := hasScheme_text t'
  rw [h] at hname
  generalize t.tls = b at hname ⊢
  generalize t'.tls = b' at hname' ⊢
  cases b <;> cases b'
  . rfl
  . exact absurd hname' (hasScheme_unique hname)
  . exact absurd hname (hasScheme_unique hname')
  . rfl

theorem port_unique {t t' : UrlText}
    (h : (t.port.map (58 :: ·)).getD [] ++ t.path = (t'.port.map (58 :: ·)).getD [] ++ t'.path)
    : t.port = t'.port ∧ t.path = t'.path := by
  have hslash := t.path_slash
  have hslash' := t'.path_slash
  have hdigits := t.port_digits
  have hdigits' := t'.port_digits
  cases hport : t.port with
  | none =>
    rw [hport] at h
    cases hport' : t'.port with
    | none =>
      rw [hport'] at h
      exact ⟨rfl, h⟩
    | some ds' =>
      rw [hport'] at h
      have hpath : t.path = 58 :: (ds' ++ t'.path) := h
      rw [hpath] at hslash
      cases hslash
  | some ds =>
    rw [hport] at h
    cases hport' : t'.port with
    | none =>
      rw [hport'] at h
      have hpath : 58 :: (ds ++ t.path) = t'.path := h
      rw [← hpath] at hslash'
      cases hslash'
    | some ds' =>
      rw [hport'] at h
      have htail : ds ++ t.path = ds' ++ t'.path := List.tail_eq_of_cons_eq h
      have hread := portDigits_append 0 (hdigits ds hport) hslash (by decide)
      have hread' := portDigits_append 0 (hdigits' ds' hport') hslash' (by decide)
      rw [htail, hread'] at hread
      have hpath : t'.path = t.path := congrArg Prod.snd hread
      rw [hpath] at htail
      exact ⟨congrArg some (List.append_cancel_right htail), hpath.symm⟩

theorem text_unique {t t' : UrlText} (hfits : t.host.length < hcap) (hfits' : t'.host.length < hcap)
    (h : t.text = t'.text)
    : t.portValue = t'.portValue ∧ t.fullPath = t'.fullPath := by
  have htls := tls_unique h
  have hrest : t.rest = t'.rest := by rw [← drop_scheme, ← drop_scheme, h, htls]
  have hcopy := copyHost t hfits
  rw [hrest, copyHost t' hfits'] at hcopy
  obtain ⟨hport, hpath⟩ := port_unique (congrArg Prod.snd hcopy)
  unfold UrlText.portValue
  unfold UrlText.fullPath
  rw [htls, hport, hpath]
  exact ⟨rfl, rfl⟩

/--
Every address is read by the grammar, and refused when it has a part that does not fit, exactly when it is not misread.
-/
theorem parseUrl_isUrl_iff (hcap pcap : Nat) (url : CStr)
    : (∀ u, parseUrl hcap pcap url = some u ↔ IsUrl hcap pcap url.val u) ↔ ¬Misread hcap pcap url.val := by
  constructor
  . rintro hall ⟨t, htext, hhost, hsome, hsmall, hbad⟩
    have hparse : parseUrl hcap pcap url = some (t.stored pcap) :=
      parseUrl_iff.mpr ⟨t, htext, ⟨hhost, hsome, hsmall⟩, rfl⟩
    obtain ⟨t', htext', hhost', _, hport', hpath', _⟩ := (hall _).mp hparse
    obtain ⟨hport, hpath⟩ := text_unique hhost hhost' (htext.trans htext'.symm)
    rw [hport, hpath] at hbad
    omega
  . intro hnot u
    rw [parseUrl_iff]
    constructor
    . rintro ⟨t, htext, haccepted, rfl⟩
      have hport : t.portValue ≤ 65535 := by
        by_contra hbig
        exact hnot ⟨t, htext, haccepted.host, haccepted.some, haccepted.small, .inl (by omega)⟩
      have hpath : t.fullPath.length < pcap := by
        by_contra hbig
        exact hnot ⟨t, htext, haccepted.host, haccepted.some, haccepted.small, .inr (by omega)⟩
      have hsome := haccepted.some
      rw [Nat.mod_eq_of_lt (by omega)] at hsome
      exact ⟨t, htext, haccepted.host, hsome, hport, hpath, stored_of_fits hport hpath⟩
    . rintro ⟨t, htext, hhost, hsome, hport, hpath, rfl⟩
      have hmod := Nat.mod_eq_of_lt (show t.portValue < 2 ^ 32 by omega)
      refine ⟨t, htext, ⟨hhost, ?_, ?_⟩, (stored_of_fits hport hpath).symm⟩
      . rw [hmod]
        exact hsome
      . rw [hmod]
        exact hport

/--
`http://h:4294967376/`
-/
def wrappedText : UrlText where
  tls := false
  scheme := [104, 116, 116, 112]
  host := [104]
  port := some [52, 50, 57, 52, 57, 54, 55, 51, 55, 54]
  path := [47]
  scheme_name := rfl
  host_some := by decide
  host_chars := by simp
  port_digits := by simp [IsDigit]
  path_slash := rfl

def wrappedUrl : CStr :=
  ⟨wrappedText.text, by decide⟩

theorem parseUrl_not_isUrl
    : parseUrl 128 384 wrappedUrl = some ⟨[104], 80, [47], false⟩ ∧
      ¬IsUrl 128 384 wrappedUrl.val ⟨[104], 80, [47], false⟩ := by
  constructor
  . decide
  . rintro ⟨t, htext, hhost, _, hport, _, _⟩
    have hvalue := (text_unique hhost (show wrappedText.host.length < 128 by decide) htext).1
    rw [hvalue] at hport
    revert hport
    decide

end Parse

end TanjaOS
