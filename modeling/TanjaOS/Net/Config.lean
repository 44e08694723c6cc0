import TanjaOS.Fs.Effects
import TanjaOS.Fs.Home
import TanjaOS.Fs.ReadFile
import TanjaOS.Libc.Template
import TanjaOS.Net.Http.Url
import TanjaOS.Net.Resolve

/-!
The static configuration: `ifconfig static` sets it and saves it as text, the kernel loads it at boot.

In ASCII the newline is 10, the space is 32, the dot is 46, `/` is 47, the digits are from 48 on.
-/

open Lib

namespace TanjaOS

section Impl

/--
One octet of `ip_str`.
-/
def octetStr (b : UInt32) : Bytes :=
  let hundreds : Bytes := if 100 ≤ b then [48 + (b / 100).toUInt8] else []
  let tens : Bytes := if 10 ≤ b then [48 + (b / 10 % 10).toUInt8] else []
  hundreds ++ tens ++ [48 + (b % 10).toUInt8]

def ipStr (ip : UInt32) : Bytes :=
  dotted [octetStr (ip >>> 24), octetStr ((ip >>> 16) &&& 0xFF), octetStr ((ip >>> 8) &&& 0xFF), octetStr (ip &&& 0xFF)]

/--
The digits behind the slash, to the end. The `int` wraps around.
-/
def parseBits : (s : Bytes) → (p : Int32) → (any : Bool) → Option Int32
  | [], p, any => if any ∧ ¬p > 32 then some p else none
  | c :: s, p, _ => if 48 ≤ c ∧ c ≤ 57 then parseBits s (p * 10 + (c - 48).toUInt32.toInt32) true else none

/--
`parse_ip` of `ifconfig`, with the address and the number of bits, which is -1 where it is not given. There is no
`cur` where the source has -1.
-/
def parseIp (bits : Bool) : (s : Bytes) → (v : UInt32) → (parts : Nat) → (cur : Option Nat) → Option (UInt32 × Int32)
  | [], v, parts, cur =>
    match cur with
    | none => none
    | some cur => if parts + 1 = 4 then some (v <<< 8 ||| .ofNat cur, -1) else none
  | c :: s, v, parts, cur =>
    if 48 ≤ c ∧ c ≤ 57 then
      let cur := cur.getD 0 * 10 + (c.toNat - 48)
      if 255 < cur then none else parseIp bits s v parts (some cur)
    else if c = 46 then
      match cur with
      | none => none
      | some cur => parseIp bits s (v <<< 8 ||| .ofNat cur) (parts + 1) none
    else if c = 47 then
      match cur with
      | none => none
      | some cur =>
        match (if bits then parseBits s 0 false else none) with
        | none => none
        | some p => if parts + 1 = 4 then some (v <<< 8 ||| .ofNat cur, p) else none
    else
      none

/--
The next word of the arguments, of at most 39 bytes, and what follows it. A longer word goes on as the next one.
-/
def ifconfigWord (p : Bytes) : Option Bytes × Bytes :=
  let p := p.dropWhile (· = 32)
  let w := (p.takeWhile (· ≠ 32)).take 39
  (if w = [] then none else some w, p.drop w.length)

inductive StaticError where
  | usage
  | badAddress
  | unknownOption (w : Bytes)
  deriving DecidableEq

def gwWord : Bytes := [103, 119]

def dnsWord : Bytes := [100, 110, 115]

theorem ifconfigWord_shorter {p w rest : Bytes} (h : ifconfigWord p = (some w, rest)) : rest.length < p.length := by
  unfold ifconfigWord at h
  dsimp only at h
  split at h
  . cases congrArg Prod.fst h
  . next hne =>
    cases h
    have hpos : 0 < (((p.dropWhile (· = 32)).takeWhile (· ≠ 32)).take 39).length := List.length_pos_iff.mpr hne
    have hle : (((p.dropWhile (· = 32)).takeWhile (· ≠ 32)).take 39).length ≤ (p.dropWhile (· = 32)).length :=
      ((List.take_sublist _ _).trans (List.takeWhile_sublist _)).length_le
    have hdrop := (List.dropWhile_sublist (fun c : Byte => decide (c = 32)) (l := p)).length_le
    rw [List.length_drop]
    omega

def staticOptions (p : Bytes) (gw dns : UInt32) (haveDns : Bool) : Except StaticError (UInt32 × UInt32 × Bool) :=
  match hw : ifconfigWord p with
  | (none, _) => .ok (gw, dns, haveDns)
  | (some w, p') =>
    match ha : ifconfigWord p' with
    | (none, _) => .error .badAddress
    | (some a, p'') =>
      match parseIp false a 0 0 none with
      | none => .error .badAddress
      | some (t, _) =>
        have : p''.length < p.length :=
          (ifconfigWord_shorter ha).trans (ifconfigWord_shorter hw)
        if w = gwWord then staticOptions p'' t dns haveDns
        else if w = dnsWord then staticOptions p'' gw t true
        else .error (.unknownOption w)
  termination_by p.length

/--
The configuration that the words behind `static` ask for.
-/
def staticArgs (p : Bytes) : Except StaticError Cfg :=
  match ifconfigWord p with
  | (none, _) => .error .usage
  | (some a, p) =>
    match parseIp true a 0 0 none with
    | none => .error .usage
    | some (ip, bits) =>
      let bits := if bits < 0 then 24 else bits
      let mask := if bits ≠ 0 then 0xFFFFFFFF <<< (32 - bits).toUInt32 else 0
      match staticOptions p 0 0 false with
      | .error e => .error e
      | .ok (gw, dns, haveDns) => .ok ⟨ip, mask, gw, if haveDns then dns else gw⟩

/--
`%d.%d.%d.%d`
-/
def quadFormat : Bytes :=
  [37, 100, 46, 37, 100, 46, 37, 100, 46, 37, 100]

def quadArgs (ip : UInt32) : List Arg :=
  [.word (ip >>> 24), .word ((ip >>> 16) &&& 255), .word ((ip >>> 8) &&& 255), .word (ip &&& 255)]

/--
`ip %d.%d.%d.%d\nmask %d.%d.%d.%d\ngw %d.%d.%d.%d\ndns %d.%d.%d.%d\n`
-/
def netConfFormat : Bytes :=
  [105, 112, 32] ++ quadFormat ++ [10, 109, 97, 115, 107, 32] ++ quadFormat ++ [10, 103, 119, 32] ++ quadFormat
    ++ [10, 100, 110, 115, 32] ++ quadFormat ++ [10, 0]

/--
The text in `buf`, of which `snprintf` keeps 199 bytes.
-/
def netConfText (fmtDouble : FmtDouble) (cfg : Cfg) : Checked Bytes := do
  let (text, _) ← vprintf fmtDouble netConfFormat
    (quadArgs cfg.ip ++ quadArgs cfg.mask ++ quadArgs cfg.gw ++ quadArgs cfg.dns)
  return text.take 199

/--
`/etc`
-/
def etcPath : CStr :=
  ⟨[slash, 101, 116, 99], by decide⟩

/--
`/etc/net.conf`
-/
def netConf : CStr :=
  ⟨[slash, 101, 116, 99, slash, 110, 101, 116, 46, 99, 111, 110, 102], by decide⟩

/--
What root's `ifconfig static` does once the configuration is set, and the result of `fs_write_file`.
-/
def saveStatic (fmtDouble : FmtDouble) (s : FsState) (cfg : Cfg) : Checked (Int × FsState) := do
  let s := if fsDirectoryExists s etcPath then s else (fsCreateDirectory s etcPath).2
  let buf ← netConfText fmtDouble cfg
  return fsWriteFile s netConf (buf.takeWhile (· ≠ 0))

inductive StaticResult where
  | failed (e : StaticError)
  | noAdapter
  /-- The configuration is set. Only root saves it. -/
  | applied (cfg : Cfg) (saved : Option Int) (s : FsState)

def ifconfigStatic (fmtDouble : FmtDouble) (nicOk : Bool) (s : FsState) (p : Bytes) : Checked StaticResult := do
  match staticArgs p with
  | .error e => return .failed e
  | .ok cfg =>
    if !nicOk then
      return .noAdapter
    else if s.fsCurUid = 0 then
      let (rc, s) ← saveStatic fmtDouble s cfg
      return .applied cfg (some rc) s
    else
      return .applied cfg none s

/--
The value of a line `key A.B.C.D`.
-/
def confValue (key line : Bytes) : Option UInt32 :=
  if strncasecmp key.length line key = 0 then parseDotted (line.drop key.length) 0 0 none else none

/--
`ip`, `mask`, `gw` and `dns` while the file is read. There is no `ip` before a line for it.
-/
structure ConfLines where
  ip : Option UInt32
  mask : UInt32
  gw : UInt32
  dns : UInt32

def confLine (c : ConfLines) (line : Bytes) : ConfLines :=
  match confValue [105, 112, 32] line with
  | some v => { c with ip := some v }
  | none =>
    match confValue [109, 97, 115, 107, 32] line with
    | some v => { c with mask := v }
    | none =>
      match confValue [103, 119, 32] line with
      | some v => { c with gw := v }
      | none =>
        match confValue [100, 110, 115, 32] line with
        | some v => { c with dns := v }
        | none => c

/--
The lines up to the end of the text, where a newline is not followed by another line.
-/
def confSplit : (cur buf : Bytes) → List Bytes
  | cur, [] => if cur = [] then [] else [cur]
  | cur, c :: buf => if c = 10 then cur :: confSplit [] buf else confSplit (cur ++ [c]) buf

/--
The configuration that `net_init` sets, if there is one.
-/
def loadStaticConf (s : FsState) : Option Cfg :=
  if ¬fsFileExists s netConf then
    none
  else
    let r := fsReadFile s netConf 511
    if r.rc ≠ 0 then
      none
    else
      let text := (r.buffer.take (r.size.getD 0)).takeWhile (· ≠ 0)
      let c := (confSplit [] text).foldl confLine ⟨none, 0xFFFFFF00, 0, 0⟩
      match c.ip with
      | none => none
      | some ip => some ⟨ip, c.mask, c.gw, if c.dns ≠ 0 then c.dns else c.gw⟩

end Impl

section Address

variable {o s : Bytes} {v : UInt32} {parts : Nat}

theorem foldl_decimal_le (s : Bytes) (n : Nat) : n ≤ s.foldl (fun n c => n * 10 + (c.toNat - 48)) n := by
  induction s generalizing n with
  | nil => exact Nat.le_refl n
  | cons c s ih =>
    have hle := ih (n * 10 + (c.toNat - 48))
    rw [List.foldl_cons]
    omega

theorem parseDotted_digits {ds : Bytes} (hdigits : ∀ c ∈ ds, 48 ≤ c ∧ c ≤ 57) (s : Bytes) (v : UInt32) (parts n : Nat)
    (hsmall : ds.foldl (fun n c => n * 10 + (c.toNat - 48)) n ≤ 255)
    : parseDotted (ds ++ s) v parts (some n)
      = parseDotted s v parts (some (ds.foldl (fun n c => n * 10 + (c.toNat - 48)) n)) := by
  induction ds generalizing n with
  | nil => rfl
  | cons c ds ih =>
    have hle := foldl_decimal_le ds (n * 10 + (c.toNat - 48))
    rw [List.foldl_cons] at hsmall
    rw [List.cons_append, parseDotted, if_pos (hdigits c List.mem_cons_self)]
    dsimp only [Option.getD_some]
    rw [if_neg (by omega)]
    exact ih (fun d hd => hdigits d (List.mem_cons_of_mem c hd)) _ hsmall

theorem parseDotted_octet (h : IsOctet o) (s : Bytes) (v : UInt32) (parts : Nat)
    : parseDotted (o ++ s) v parts none = parseDotted s v parts (some (decimal o)) := by
  have hdigits := h.digits
  have hsmall := h.small
  cases o with
  | nil => exact absurd rfl h.pos
  | cons c o =>
    unfold decimal at hsmall ⊢
    rw [List.foldl_cons] at hsmall ⊢
    have hle := foldl_decimal_le o (0 * 10 + (c.toNat - 48))
    rw [List.cons_append, parseDotted, if_pos (hdigits c List.mem_cons_self)]
    dsimp only [Option.getD_none]
    rw [if_neg (by omega)]
    exact parseDotted_digits (fun d hd => hdigits d (List.mem_cons_of_mem c hd)) s v parts _ hsmall

theorem parseDotted_dot (h : IsOctet o) (s : Bytes) (v : UInt32) (parts : Nat)
    : parseDotted (o ++ 46 :: s) v parts none = parseDotted s (v <<< 8 ||| .ofNat (decimal o)) (parts + 1) none := by
  rw [parseDotted_octet h]
  rfl

theorem parseDotted_last (h : IsOctet o) (v : UInt32)
    : parseDotted o v 3 none = some (v <<< 8 ||| .ofNat (decimal o)) := by
  have hlast := parseDotted_octet h [] v 3
  rw [List.append_nil] at hlast
  rw [hlast]
  rfl

theorem toNat_shift_or (v w : UInt32) (hv : v.toNat < 2 ^ 24) (hw : w.toNat < 256)
    : (v <<< 8 ||| w).toNat = v.toNat * 256 + w.toNat := by
  rw [UInt32.toNat_or, UInt32.toNat_shiftLeft]
  show (v.toNat <<< 8) % 2 ^ 32 ||| w.toNat = _
  have hshift : (v.toNat <<< 8) % 2 ^ 32 = v.toNat <<< 8 := by
    rw [Nat.shiftLeft_eq]
    omega
  rw [hshift, ← Nat.shiftLeft_add_eq_or_of_lt hw, Nat.shiftLeft_eq]

theorem octets_eq (ip : UInt32)
    : (ip >>> 24).toNat = ip.toNat / 2 ^ 24 ∧ ((ip >>> 16) &&& 255).toNat = ip.toNat / 2 ^ 16 % 256
      ∧ ((ip >>> 8) &&& 255).toNat = ip.toNat / 2 ^ 8 % 256 ∧ (ip &&& 255).toNat = ip.toNat % 256 := by
  have hmask : ∀ x : UInt32, (x &&& 255).toNat = x.toNat % 256 := by
    intro x
    rw [UInt32.toNat_and]
    exact Nat.and_two_pow_sub_one_eq_mod x.toNat 8
  rw [hmask, hmask, hmask, UInt32.toNat_shiftRight, UInt32.toNat_shiftRight, UInt32.toNat_shiftRight]
  refine ⟨?_, ?_, ?_, rfl⟩
  . exact Nat.shiftRight_eq_div_pow _ _
  . exact congrArg (· % 256) (Nat.shiftRight_eq_div_pow _ _)
  . exact congrArg (· % 256) (Nat.shiftRight_eq_div_pow _ _)

theorem parseDotted_quad {a b c d : Bytes} (ip : UInt32) (ha : IsOctet a ∧ decimal a = (ip >>> 24).toNat)
    (hb : IsOctet b ∧ decimal b = ((ip >>> 16) &&& 255).toNat) (hc : IsOctet c ∧ decimal c = ((ip >>> 8) &&& 255).toNat)
    (hd : IsOctet d ∧ decimal d = (ip &&& 255).toNat)
    : parseDotted (dotted [a, b, c, d]) 0 0 none = some ip := by
  obtain ⟨h24, h16, h8, h0⟩ := octets_eq ip
  have hlt := ip.toNat_lt
  have hofNat : ∀ {o : Bytes} {w : UInt32}, decimal o = w.toNat → UInt32.ofNat (decimal o) = w := by
    intro o w heq
    rw [heq, UInt32.ofNat_toNat]
  simp only [dotted]
  rw [parseDotted_dot ha.1, parseDotted_dot hb.1, parseDotted_dot hc.1, parseDotted_last hd.1, hofNat ha.2, hofNat hb.2,
    hofNat hc.2, hofNat hd.2]
  congr 1
  apply UInt32.toNat_inj.mp
  have hzero : ((0 : UInt32) <<< 8 ||| ip >>> 24).toNat = (ip >>> 24).toNat := by
    rw [toNat_shift_or 0 _ (by decide) (by omega)]
    exact Nat.zero_add _
  rw [toNat_shift_or _ _ _ (by omega), toNat_shift_or _ _ _ (by omega), toNat_shift_or _ _ _ (by omega), hzero]
  . omega
  . omega
  . rw [toNat_shift_or _ _ (by omega) (by omega)]
    omega
  . rw [toNat_shift_or _ _ _ (by omega), toNat_shift_or _ _ (by omega) (by omega)]
    . omega
    . rw [toNat_shift_or _ _ (by omega) (by omega)]
      omega

end Address

section Octet

theorem numVal_ten (ds : Bytes) (hdigits : ∀ c ∈ ds, isDigitOf 10 c)
    : numVal 10 ds = decimal ds ∧ ∀ c ∈ ds, 48 ≤ c ∧ c ≤ 57 := by
  have hrange : ∀ c : Byte, isDigitOf 10 c = true → 48 ≤ c ∧ c ≤ 57 := by
    intro c hc
    unfold isDigitOf digitVal at hc
    split at hc
    . next d hd =>
      split at hd
      . assumption
      . cases hlower : decide (97 ≤ c ∧ c ≤ 122) with
        | true =>
          rw [if_pos (of_decide_eq_true hlower), Option.some.injEq] at hd
          have := of_decide_eq_true hc
          omega
        | false =>
          rw [if_neg (of_decide_eq_false hlower)] at hd
          split at hd
          . rw [Option.some.injEq] at hd
            have := of_decide_eq_true hc
            omega
          . contradiction
    . contradiction
  have hall : ∀ c ∈ ds, 48 ≤ c ∧ c ≤ 57 := fun c hc => hrange c (hdigits c hc)
  refine ⟨?_, hall⟩
  unfold numVal decimal
  apply List.foldl_ext
  intro n c hc
  unfold digitVal
  rw [if_pos (hall c hc)]
  rfl

theorem length_ulltoaRev_go (upper : Bool) (fuel k v : Nat) (h : v < 10 ^ k)
    : (ulltoaRev.go 10 upper fuel v).length ≤ k := by
  induction fuel generalizing k v with
  | zero => exact Nat.zero_le k
  | succ fuel ih =>
    unfold ulltoaRev.go
    split
    . exact Nat.zero_le k
    . next hne =>
      cases k with
      | zero =>
        rw [Nat.pow_zero] at h
        omega
      | succ k =>
        have hlt : v / 10 < 10 ^ k := by
          apply Nat.div_lt_of_lt_mul
          rwa [Nat.pow_succ, Nat.mul_comm] at h
        exact Nat.succ_le_succ (ih k (v / 10) hlt)

theorem intText_octet {w : UInt32} (h : w.toNat < 256)
    : IsOctet (intText w) ∧ decimal (intText w) = w.toNat ∧ (intText w).length ≤ 3 := by
  have hint : w.toInt32.toInt = w.toNat := by
    rw [UInt32.toInt32_toInt]
    split <;> omega
  have htext : intText w = printedDigits (.ofInt w.toNat) 10 false := by
    unfold intText
    simp only [hint]
    rw [if_neg (by omega), if_neg (by omega)]
    rfl
  have hval : (UInt64.ofInt w.toNat).toNat = w.toNat := by
    rw [UInt64.toNat_ofInt]
    omega
  obtain ⟨hnum, hdigits, hne, _⟩ := @printedDigits_spec 10 (by omega) (.ofInt w.toNat) false
  obtain ⟨hdecimal, hrange⟩ := numVal_ten _ hdigits
  rw [htext]
  have hvalue : decimal (printedDigits (.ofInt w.toNat) 10 false) = w.toNat := by rw [← hdecimal, hnum, hval]
  refine ⟨⟨hne, hrange, by omega⟩, hvalue, ?_⟩
  unfold printedDigits ulltoaRev
  rw [List.length_reverse]
  split
  . exact Nat.le_add_left 1 2
  . exact length_ulltoaRev_go false 64 3 _ (by omega)

theorem octetStr_eq {b : UInt32} (h : b.toNat < 256) : octetStr b = intText b := by
  have hall : ∀ n : Fin 256, octetStr (.ofNat n) = intText (.ofNat n) := by decide +kernel
  have hb := hall ⟨b.toNat, h⟩
  dsimp only at hb
  rwa [UInt32.ofNat_toNat] at hb

theorem octetStr_octet {b : UInt32} (h : b.toNat < 256)
    : IsOctet (octetStr b) ∧ decimal (octetStr b) = b.toNat ∧ (octetStr b).length ≤ 3 := by
  rw [octetStr_eq h]
  exact intText_octet h

end Octet

section Parsers

theorem parseIp_eq {bits : Bool} (s : Bytes) (h : bits = false ∨ 47 ∉ s) (v : UInt32) (parts : Nat) (cur : Option Nat)
    : parseIp bits s v parts cur = (parseDotted s v parts cur).map (fun ip => (ip, -1)) := by
  induction s generalizing v parts cur with
  | nil =>
    unfold parseIp parseDotted
    cases cur with
    | none => rfl
    | some n =>
      dsimp only
      split
      . rfl
      . rfl
  | cons c s ih =>
    have hrest := ih (h.imp_right fun hno hmem => hno (List.mem_cons_of_mem c hmem))
    unfold parseIp parseDotted
    split
    . dsimp only
      split
      . rfl
      . exact hrest v parts _
    . split
      . cases cur with
        | none => rfl
        | some n => exact hrest _ (parts + 1) none
      . split
        . next hslash =>
          obtain rfl | hno := h
          . cases cur with
            | none => rfl
            | some n => rfl
          . exact absurd (hslash ▸ List.mem_cons_self) hno
        . rfl

theorem length_dotted_quad (a b c d : Bytes)
    : (dotted [a, b, c, d]).length = a.length + b.length + c.length + d.length + 3 := by
  simp only [dotted, List.length_append, List.length_cons]
  omega

theorem mem_dotted_quad {a b c d : Bytes} {x : Byte} (h : x ∈ dotted [a, b, c, d])
    : x = 46 ∨ x ∈ a ∨ x ∈ b ∨ x ∈ c ∨ x ∈ d := by
  simp only [dotted, List.mem_append, List.mem_cons] at h
  tauto

theorem not_mem_quad {a b c d : Bytes} {x : Byte} (ha : IsOctet a) (hb : IsOctet b) (hc : IsOctet c) (hd : IsOctet d)
    (hdot : x ≠ 46) (hdigit : ¬(48 ≤ x ∧ x ≤ 57))
    : x ∉ dotted [a, b, c, d] := by
  intro hmem
  rcases mem_dotted_quad hmem with rfl | hmem | hmem | hmem | hmem
  . exact hdot rfl
  . exact hdigit (ha.digits x hmem)
  . exact hdigit (hb.digits x hmem)
  . exact hdigit (hc.digits x hmem)
  . exact hdigit (hd.digits x hmem)

end Parsers

/--
`ip_str` writes every address so that it fits and is read back, and the kernel and `ifconfig` read the same texts as
the same addresses.
-/
theorem ipStr_parsed (ip : UInt32)
    : parseDotted (ipStr ip) 0 0 none = some ip ∧ parseIp true (ipStr ip) 0 0 none = some (ip, -1)
      ∧ (ipStr ip).length ≤ 15
      ∧ ∀ s, parseIp false s 0 0 none = (parseDotted s 0 0 none).map (fun ip => (ip, -1)) := by
  obtain ⟨h24, h16, h8, h0⟩ := octets_eq ip
  have hlt := ip.toNat_lt
  obtain ⟨ha, hav, hal⟩ := @octetStr_octet (ip >>> 24) (by omega)
  obtain ⟨hb, hbv, hbl⟩ := @octetStr_octet ((ip >>> 16) &&& 255) (by omega)
  obtain ⟨hc, hcv, hcl⟩ := @octetStr_octet ((ip >>> 8) &&& 255) (by omega)
  obtain ⟨hd, hdv, hdl⟩ := @octetStr_octet (ip &&& 255) (by omega)
  have hparsed : parseDotted (ipStr ip) 0 0 none = some ip :=
    parseDotted_quad ip ⟨ha, hav⟩ ⟨hb, hbv⟩ ⟨hc, hcv⟩ ⟨hd, hdv⟩
  have hslash : 47 ∉ ipStr ip := not_mem_quad ha hb hc hd (by decide) (by decide)
  refine ⟨hparsed, ?_, ?_, fun s => parseIp_eq s (.inl rfl) 0 0 none⟩
  . rw [parseIp_eq _ (.inr hslash), hparsed]
    rfl
  . unfold ipStr
    rw [length_dotted_quad]
    omega

section Text

def quadPieces (ip : UInt32) : List FormatPiece :=
  [.int (ip >>> 24), .char 46, .int ((ip >>> 16) &&& 255), .char 46, .int ((ip >>> 8) &&& 255), .char 46,
    .int (ip &&& 255)]

def linePieces (key : Bytes) (ip : UInt32) : List FormatPiece :=
  key.map .char ++ quadPieces ip ++ [.char 10]

def confKeys : List Bytes :=
  [[105, 112, 32], [109, 97, 115, 107, 32], [103, 119, 32], [100, 110, 115, 32]]

def Cfg.fields (cfg : Cfg) : List UInt32 :=
  [cfg.ip, cfg.mask, cfg.gw, cfg.dns]

def confPieces (cfg : Cfg) : List FormatPiece :=
  (confKeys.zip cfg.fields).flatMap (fun x => linePieces x.1 x.2)

def quadText (ip : UInt32) : Bytes :=
  dotted [intText (ip >>> 24), intText ((ip >>> 16) &&& 255), intText ((ip >>> 8) &&& 255), intText (ip &&& 255)]

def confLines (cfg : Cfg) : List Bytes :=
  (confKeys.zip cfg.fields).map (fun x => x.1 ++ quadText x.2)

theorem quadText_spec (ip : UInt32)
    : parseDotted (quadText ip) 0 0 none = some ip ∧ (quadText ip).length ≤ 15
      ∧ 0 ∉ quadText ip ∧ 10 ∉ quadText ip := by
  obtain ⟨h24, h16, h8, h0⟩ := octets_eq ip
  have hlt := ip.toNat_lt
  obtain ⟨ha, hav, hal⟩ := @intText_octet (ip >>> 24) (by omega)
  obtain ⟨hb, hbv, hbl⟩ := @intText_octet ((ip >>> 16) &&& 255) (by omega)
  obtain ⟨hc, hcv, hcl⟩ := @intText_octet ((ip >>> 8) &&& 255) (by omega)
  obtain ⟨hd, hdv, hdl⟩ := @intText_octet (ip &&& 255) (by omega)
  refine ⟨parseDotted_quad ip ⟨ha, hav⟩ ⟨hb, hbv⟩ ⟨hc, hcv⟩ ⟨hd, hdv⟩, ?_,
    not_mem_quad ha hb hc hd (by decide) (by decide), not_mem_quad ha hb hc hd (by decide) (by decide)⟩
  unfold quadText
  rw [length_dotted_quad]
  omega

theorem linePieces_text (key : Bytes) (ip : UInt32)
    : (linePieces key ip).flatMap FormatPiece.text = key ++ quadText ip ++ [10] := by
  have hkey : (key.map FormatPiece.char).flatMap FormatPiece.text = key := by
    rw [List.flatMap_map]
    exact List.flatMap_singleton' key
  have hquad : (quadPieces ip).flatMap FormatPiece.text = quadText ip := by
    simp [quadPieces, quadText, dotted, FormatPiece.text]
  unfold linePieces
  rw [List.flatMap_append, List.flatMap_append, hkey, hquad]
  rfl

theorem linePieces_plain {key : Bytes} (hkey : ∀ c ∈ key, c ≠ 0 ∧ c ≠ 37) (ip : UInt32)
    : ∀ p ∈ linePieces key ip, p.Plain := by
  intro p hp
  unfold linePieces at hp
  rcases List.mem_append.mp hp with hp | hp
  . rcases List.mem_append.mp hp with hp | hp
    . obtain ⟨c, hc, rfl⟩ := List.mem_map.mp hp
      exact hkey c hc
    . simp only [quadPieces, List.mem_cons, List.not_mem_nil, or_false] at hp
      rcases hp with rfl | rfl | rfl | rfl | rfl | rfl | rfl
      all_goals simp [FormatPiece.Plain]
  . obtain rfl := List.mem_singleton.mp hp
    exact ⟨by decide, by decide⟩

theorem confKeys_plain : ∀ key ∈ confKeys, (∀ c ∈ key, c ≠ 0 ∧ c ≠ 37) ∧ 10 ∉ key ∧ key.length ≤ 5 := by
  unfold confKeys
  simp

theorem length_confLines (cfg : Cfg) : ((confLines cfg).flatMap (· ++ [10])).length ≤ 84 := by
  have hline : ∀ n ∈ (confLines cfg).map (fun l => (l ++ [10]).length), n ≤ 21 := by
    intro n hn
    obtain ⟨l, hl, rfl⟩ := List.mem_map.mp hn
    obtain ⟨x, hx, rfl⟩ := List.mem_map.mp hl
    have hkey := (confKeys_plain x.1 (List.of_mem_zip hx).1).2.2
    have hquad := (quadText_spec x.2).2.1
    rw [List.length_append, List.length_append, List.length_singleton]
    omega
  have hsum := List.sum_le_card_nsmul _ _ hline
  rw [List.length_flatMap]
  exact hsum

theorem netConfText_eq (fmtDouble : FmtDouble) (cfg : Cfg)
    : netConfText fmtDouble cfg = .ok ((confLines cfg).flatMap (· ++ [10])) := by
  have hplain : ∀ p ∈ confPieces cfg, p.Plain := by
    intro p hp
    obtain ⟨x, hx, hp⟩ := List.mem_flatMap.mp hp
    exact linePieces_plain (confKeys_plain x.1 (List.of_mem_zip hx).1).1 x.2 p hp
  obtain ⟨n, hprinted⟩ := vprintf_template fmtDouble (confPieces cfg) hplain
  have htext : (confPieces cfg).flatMap FormatPiece.text = (confLines cfg).flatMap (· ++ [10]) := by
    unfold confPieces confLines
    rw [List.flatMap_assoc, List.flatMap_map]
    simp only [linePieces_text]
  rw [htext] at hprinted
  have hlen := length_confLines cfg
  have hformat : templateFormat (confPieces cfg) = netConfFormat := rfl
  have hargs : (confPieces cfg).flatMap FormatPiece.args
      = quadArgs cfg.ip ++ quadArgs cfg.mask ++ quadArgs cfg.gw ++ quadArgs cfg.dns := rfl
  rw [hformat, hargs] at hprinted
  unfold netConfText
  rw [hprinted]
  show Except.ok _ = _
  rw [List.take_of_length_le (by omega)]

end Text

section Lines

variable {line rest key : Bytes}

theorem confSplit_line (h : 10 ∉ line) (cur rest : Bytes)
    : confSplit cur (line ++ 10 :: rest) = (cur ++ line) :: confSplit [] rest := by
  induction line generalizing cur with
  | nil => rw [List.nil_append, confSplit, if_pos rfl, List.append_nil]
  | cons c line ih =>
    rw [List.mem_cons, not_or] at h
    rw [List.cons_append, confSplit, if_neg (Ne.symm h.1), ih h.2, List.append_assoc]
    rfl

theorem confSplit_lines {ls : List Bytes} (h : ∀ l ∈ ls, 10 ∉ l) : confSplit [] (ls.flatMap (· ++ [10])) = ls := by
  induction ls with
  | nil => rfl
  | cons l ls ih =>
    rw [List.flatMap_cons, List.append_assoc]
    show confSplit [] (l ++ 10 :: ls.flatMap (· ++ [10])) = _
    rw [confSplit_line (h l List.mem_cons_self), ih (fun l' hl' => h l' (List.mem_cons_of_mem l hl'))]
    rfl

theorem confValue_other {a b : Byte} {key' : Bytes} (h : tolower b ≠ tolower a) (v : Bytes)
    : confValue (a :: key) ((b :: key') ++ v) = none := by
  unfold confValue
  rw [if_neg]
  unfold List.length strncasecmp
  rw [if_neg (fun hall => h hall.2.2)]
  intro hzero
  apply h
  apply UInt8.toNat_inj.mp
  simp only [List.cons_append, List.headD_cons] at hzero
  omega

theorem confValue_own (hkey : 0 ∉ key) (ip : UInt32) : confValue key (key ++ quadText ip) = some ip := by
  obtain ⟨hparse, _, hno, _⟩ := quadText_spec ip
  have hline : 0 ∉ key ++ quadText ip := by
    rw [List.mem_append, not_or]
    exact ⟨hkey, hno⟩
  unfold confValue
  rw [if_pos ((strncasecmp_eq_zero hline hkey).mpr (by rw [List.take_left])), List.drop_left]
  exact hparse

theorem confLines_read (cfg : Cfg) (c : ConfLines)
    : (confLines cfg).foldl confLine c = ⟨some cfg.ip, cfg.mask, cfg.gw, cfg.dns⟩ := by
  unfold confLines confKeys Cfg.fields
  simp only [List.zip_cons_cons, List.zip_nil_right, List.map_cons, List.map_nil, List.foldl_cons, List.foldl_nil]
  have hip : ∀ c v, confLine c ([105, 112, 32] ++ quadText v) = { c with ip := some v } := by
    intro c v
    unfold confLine
    rw [confValue_own (by decide)]
  have hmask : ∀ c v, confLine c ([109, 97, 115, 107, 32] ++ quadText v) = { c with mask := v } := by
    intro c v
    unfold confLine
    rw [confValue_other (by decide), confValue_own (by decide)]
  have hgw : ∀ c v, confLine c ([103, 119, 32] ++ quadText v) = { c with gw := v } := by
    intro c v
    unfold confLine
    rw [confValue_other (by decide), confValue_other (by decide),
      confValue_own (by decide)]
  have hdns : ∀ c v, confLine c ([100, 110, 115, 32] ++ quadText v) = { c with dns := v } := by
    intro c v
    unfold confLine
    rw [confValue_other (by decide), confValue_other (by decide),
      confValue_other (by decide), confValue_own (by decide)]
  rw [hip, hmask, hgw, hdns]

end Lines

section Boot

variable {s s' : FsState} {fmtDouble : FmtDouble} {cfg : Cfg}

theorem absPath_netConf (cwd : Bytes) : absPath cwd netConf.val = netConf.val :=
  rfl

theorem confLines_clean (cfg : Cfg) : ∀ l ∈ confLines cfg, 0 ∉ l ∧ 10 ∉ l := by
  intro l hl
  obtain ⟨x, hx, rfl⟩ := List.mem_map.mp hl
  obtain ⟨hkey, hline, _⟩ := confKeys_plain x.1 (List.of_mem_zip hx).1
  obtain ⟨_, _, hno, hnl⟩ := quadText_spec x.2
  rw [List.mem_append, List.mem_append, not_or, not_or]
  exact ⟨⟨fun h0 => (hkey 0 h0).1 rfl, hno⟩, hline, hnl⟩

theorem takeWhile_text (cfg : Cfg)
    : ((confLines cfg).flatMap (· ++ [10])).takeWhile (· ≠ 0) = (confLines cfg).flatMap (· ++ [10]) := by
  rw [List.takeWhile_eq_self_iff]
  intro c hc
  obtain ⟨l, hl, hc⟩ := List.mem_flatMap.mp hc
  rw [decide_eq_true_eq]
  rintro rfl
  rcases List.mem_append.mp hc with hc | hc
  . exact (confLines_clean cfg l hl).1 hc
  . exact absurd (List.mem_singleton.mp hc) (by decide)

theorem saveStatic_replaced (h : ContentInv s) (hsave : saveStatic fmtDouble s cfg = .ok (0, s'))
    : ∃ t, ContentInv t ∧ Replaced t s' netConf.val ((confLines cfg).flatMap (· ++ [10])) := by
  have hcreated : ContentInv (if fsDirectoryExists s etcPath then s else (fsCreateDirectory s etcPath).2) := by
    split
    . exact h
    . exact h.prims (fsCreateDirectory_prims etcPath trivial)
  unfold saveStatic at hsave
  rw [netConfText_eq] at hsave
  have hwrite : fsWriteFile (if fsDirectoryExists s etcPath then s else (fsCreateDirectory s etcPath).2) netConf
      (((confLines cfg).flatMap (· ++ [10])).takeWhile (· ≠ 0)) = (0, s') := Except.ok.inj hsave
  rw [takeWhile_text] at hwrite
  refine ⟨_, hcreated, ?_⟩
  have hreplaced := @fsWriteFile_replaced _ netConf ((confLines cfg).flatMap (· ++ [10])) hcreated (by rw [hwrite])
  rw [hwrite, absPath_netConf] at hreplaced
  exact hreplaced

theorem loadStaticConf_lines {t : FsState} (h : Replaced t s' netConf.val ((confLines cfg).flatMap (· ++ [10])))
    : loadStaticConf { s' with fsCurUid := 0 }
      = some ⟨cfg.ip, cfg.mask, cfg.gw, if cfg.dns ≠ 0 then cfg.dns else cfg.gw⟩ := by
  obtain ⟨i, hi⟩ : ∃ i, fileIndex s' netConf.val = some i := by
    have hcontent := h.content
    unfold FsState.files at hcontent
    cases hidx : fileIndex s' netConf.val with
    | none =>
      rw [hidx] at hcontent
      contradiction
    | some i => exact ⟨i, rfl⟩
  have hlen := length_confLines cfg
  obtain ⟨⟨hrc, hsize, hbuffer⟩, _⟩ := h.delivers 0 i netConf 512 (fileIndex_eq_some hi) (absPath_netConf _) rfl
    (by decide)
  have hexists : fsFileExists { s' with fsCurUid := 0 } netConf = true := by
    unfold fsFileExists
    rw [absPath_netConf]
    have hi' : fileIndex { s' with fsCurUid := 0 } netConf.val = some i := hi
    rw [hi']
    rfl
  have hread : fsReadFile { s' with fsCurUid := 0 } netConf 511
      = fsReadFilePrefix { s' with fsCurUid := 0 } netConf 512 := rfl
  unfold loadStaticConf
  rw [hexists, hread]
  dsimp only
  rw [hrc, hsize, hbuffer, if_neg (by decide), if_neg (by decide), Nat.min_eq_left (by omega), Option.getD_some,
    List.take_of_length_le (by omega : _ ≤ 512 - 1), List.take_left, takeWhile_text,
    confSplit_lines (fun l hl => (confLines_clean cfg l hl).2), confLines_read]

end Boot

/--
The configuration that root sets and saves is the one that the kernel makes of the files it leaves, but for a name
server of 0.0.0.0, which the gateway takes the place of.
-/
theorem ifconfigStatic_loaded_iff (fmtDouble : FmtDouble) (s₀ s s' : FsState) (bytes : UInt32) (p : Bytes) (cfg : Cfg)
    (hpool : s₀.fpoolBytes = fsSetPool bytes) (hrun : FsRun (fun s c => c.NoWrap s) (fsInit s₀) s)
    (hcall : ifconfigStatic fmtDouble true { s with fsCurUid := 0 } p = .ok (.applied cfg (some 0) s'))
    : loadStaticConf { s' with fsCurUid := 0 } = some cfg ↔ (cfg.dns = 0 → cfg.gw = 0) := by
  have hsave : saveStatic fmtDouble { s with fsCurUid := 0 } cfg = .ok (0, s') := by
    unfold ifconfigStatic at hcall
    cases hargs : staticArgs p with
    | error e =>
      rw [hargs] at hcall
      cases hcall
    | ok cfg' =>
      rw [hargs] at hcall
      dsimp only at hcall
      rw [if_neg (by decide), if_pos rfl] at hcall
      cases hres : saveStatic fmtDouble { s with fsCurUid := 0 } cfg' with
      | error f =>
        rw [hres] at hcall
        cases hcall
      | ok r =>
        rw [hres] at hcall
        obtain ⟨rfl, hrc, rfl⟩ := StaticResult.applied.inj (Except.ok.inj hcall)
        rw [hres, ← Option.some.inj hrc]
  obtain ⟨t, _, hreplaced⟩ := saveStatic_replaced (ContentInv.run hpool hrun 0) hsave
  rw [loadStaticConf_lines hreplaced]
  obtain ⟨ip, mask, gw, dns⟩ := cfg
  rw [Option.some.injEq, Cfg.mk.injEq]
  dsimp only
  by_cases hdns : dns = 0
  . rw [if_neg (fun hne => hne hdns), hdns]
    simp
  . rw [if_pos hdns]
    simp [hdns]

section Example

/--
`10.0.2.15/24 gw 10.0.2.2`
-/
def staticWords : Bytes :=
  [49, 48, 46, 48, 46, 50, 46, 49, 53, 47, 50, 52, 32, 103, 119, 32, 49, 48, 46, 48, 46, 50, 46, 50]

def staticCfg : Cfg where
  ip := 0x0A00020F
  mask := 0xFFFFFF00
  gw := 0x0A000202
  dns := 0x0A000202

theorem staticOptions_gw : staticOptions (staticWords.drop 12) 0 0 false = .ok (0x0A000202, 0, false) := by
  have hgw : ifconfigWord (staticWords.drop 12) = (some gwWord, staticWords.drop 15) := by decide
  have haddr : ifconfigWord (staticWords.drop 15) = (some (staticWords.drop 16), []) := by decide
  have hend : ifconfigWord [] = (none, []) := by decide
  have hparse : parseIp false (staticWords.drop 16) 0 0 none = some (0x0A000202, -1) := by decide
  unfold staticOptions
  split
  . next hw =>
    rw [hgw] at hw
    cases hw
  . next w p hw =>
    rw [hgw] at hw
    cases hw
    split
    . next ha =>
      rw [haddr] at ha
      cases ha
    . next a p ha =>
      rw [haddr] at ha
      cases ha
      rw [hparse]
      dsimp only
      rw [if_pos rfl]
      unfold staticOptions
      split
      . rfl
      . next hw =>
        rw [hend] at hw
        cases hw

theorem staticArgs_words : staticArgs staticWords = .ok staticCfg := by
  have hword : ifconfigWord staticWords = (some (staticWords.take 12), staticWords.drop 12) := by decide
  have hparse : parseIp true (staticWords.take 12) 0 0 none = some (0x0A00020F, 24) := by decide
  unfold staticArgs
  rw [hword]
  dsimp only
  rw [hparse]
  dsimp only
  rw [staticOptions_gw]
  rfl

def staticStart : FsState :=
  { fsInit (.zeroed 1024) with fsCurUid := 0 }

def staticSaved : FsState :=
  (fsWriteFile (fsCreateDirectory staticStart etcPath).2 netConf ((confLines staticCfg).flatMap (· ++ [10]))).2

theorem ifconfigStatic_words (fmtDouble : FmtDouble)
    : ifconfigStatic fmtDouble true staticStart staticWords = .ok (.applied staticCfg (some 0) staticSaved) := by
  have hdir : fsDirectoryExists staticStart etcPath = false := by decide
  have hwritten : fsWriteFile (fsCreateDirectory staticStart etcPath).2 netConf
      ((confLines staticCfg).flatMap (· ++ [10])) = (0, staticSaved) := by
    apply Prod.ext
    . decide +kernel
    . rfl
  have hsave : saveStatic fmtDouble staticStart staticCfg = .ok (0, staticSaved) := by
    unfold saveStatic
    rw [netConfText_eq, hdir, ← hwritten, ← takeWhile_text]
    rfl
  unfold ifconfigStatic
  rw [staticArgs_words]
  dsimp only
  rw [if_neg (by decide), if_pos (show staticStart.fsCurUid = 0 from rfl), hsave]
  rfl

end Example

theorem ifconfigStatic_loaded_words : loadStaticConf { staticSaved with fsCurUid := 0 } = some staticCfg :=
  (ifconfigStatic_loaded_iff (fun _ _ _ _ => []) (.zeroed 1024) (fsInit (.zeroed 1024)) staticSaved 1024 staticWords
    staticCfg (by decide) .refl (ifconfigStatic_words _)).mpr fun h => absurd h (by decide)

end TanjaOS
