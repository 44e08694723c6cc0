import TanjaOS.Lib.Suffix

/-!
The chunked transfer coding: `dechunk` decodes a body in place. Its cursors are 32 bit numbers.
-/

open Lib Lib.Checked

namespace TanjaOS

section Impl

def hexDigit (c : Byte) : Option Nat :=
  if 48 ≤ c ∧ c ≤ 57 then
    some (c.toNat - 48)
  else if 97 ≤ c ∧ c ≤ 102 then
    some (c.toNat - 97 + 10)
  else if 65 ≤ c ∧ c ≤ 70 then
    some (c.toNat - 65 + 10)
  else
    none

/--
The loop over the digits of a size. A cursor that is below the length cannot wrap around.
-/
def chunkDigits (b : Bytes) : (fuel i sz : Nat) → (any : Bool) → Checked (Nat × Nat × Bool)
  | 0, _, _, _ => .error .loop
  | fuel + 1, i, sz, any => do
    if i < b.length then
      let c ← load8 b i
      match hexDigit c with
      | some h => chunkDigits b fuel (i + 1) ((sz * 16 + h) % 2 ^ 32) true
      | none => return (i, sz, any)
    else
      return (i, sz, any)

def chunkLine (b : Bytes) : (fuel i : Nat) → Checked Nat
  | 0, _ => .error .loop
  | fuel + 1, i => do
    if i < b.length then
      let c ← load8 b i
      if c ≠ 10 then
        chunkLine b fuel (i + 1)
      else
        return i
    else
      return i

def chunkSkip (b : Bytes) (i : Nat) (c : Byte) : Checked Nat := do
  if i < b.length then
    let x ← load8 b i
    return if x = c then i + 1 else i
  else
    return i

/--
`memmove` within the buffer.
-/
def moveBytes (b : Bytes) (dst src n : Nat) : Checked Bytes := do
  let moved ← load b src n
  store b.length dst n
  return b.take dst ++ moved.1 ++ b.drop (dst + n)

structure Dechunk where
  buf : Bytes
  i : Nat
  out : Nat

inductive DechunkPass where
  | ret (r : Int) (buf : Bytes)
  | next (s : Dechunk)

def Dechunk.pass (s : Dechunk) : Checked DechunkPass := do
  let n := s.buf.length
  let (i, sz, any) ← chunkDigits s.buf (n + 1) s.i 0 false
  if ¬any then
    return .ret (-1) s.buf
  else
    let i ← chunkLine s.buf (n + 1) i
    let i := (i + 1) % 2 ^ 32
    if sz = 0 then
      return .ret (Int.bmod s.out (2 ^ 32)) s.buf
    else if n < (i + sz) % 2 ^ 32 then
      return .ret (-1) s.buf
    else
      let buf ← moveBytes s.buf s.out i sz
      let i := (i + sz) % 2 ^ 32
      let i ← chunkSkip buf i 13
      let i ← chunkSkip buf i 10
      return .next { buf, i, out := (s.out + sz) % 2 ^ 32 }

def dechunkLoop : (fuel : Nat) → Dechunk → Checked (Int × Bytes)
  | 0, _ => .error .loop
  | fuel + 1, s => do
    match ← s.pass with
    | .ret r buf => return (r, buf)
    | .next s => dechunkLoop fuel s

def dechunk (b : Bytes) : Checked (Int × Bytes) :=
  dechunkLoop (b.length + 1) { buf := b, i := 0, out := 0 }

end Impl

section Spec

def IsHex (c : Byte) : Bool :=
  (hexDigit c).isSome

/--
What hexadecimal digits behind the number `v` make of it.
-/
def hexFrom (v : Nat) (ds : Bytes) : Nat :=
  ds.foldl (fun v c => v * 16 + (hexDigit c).getD 0) v

def chunkSize (rest : Bytes) : Nat :=
  hexFrom 0 (rest.takeWhile IsHex)

def chunkHead (rest : Bytes) : Nat :=
  (rest.takeWhile IsHex).length + ((rest.dropWhile IsHex).takeWhile (· ≠ 10)).length + 1

def dropByte (c : Byte) (rest : Bytes) : Bytes :=
  if rest.head? = some c then rest.tail else rest

/--
What follows a chunk with `size` bytes of data.
-/
def afterChunk (rest : Bytes) (size : Nat) : Bytes :=
  dropByte 10 (dropByte 13 (rest.drop (chunkHead rest + size)))

/--
The line with the size of a chunk: hexadecimal digits and an extension.
-/
structure SizeLine (size : Nat) where
  digits : Bytes
  ext : Bytes
  hex : ∀ c ∈ digits, IsHex c
  some : digits ≠ []
  value : hexFrom 0 digits = size
  head : ext.takeWhile IsHex = []
  line : 10 ∉ ext

structure Chunk where
  data : Bytes
  some : data ≠ []
  size : SizeLine data.length

def SizeLine.encode {size : Nat} (l : SizeLine size) : Bytes :=
  l.digits ++ (l.ext ++ [13, 10])

def Chunk.encode (c : Chunk) : Bytes :=
  c.size.encode ++ (c.data ++ [13, 10])

def encodeChunks (cs : List Chunk) (zero : SizeLine 0) (trailers : Bytes) : Bytes :=
  cs.flatMap Chunk.encode ++ (zero.encode ++ trailers)

def chunkBody (cs : List Chunk) : Bytes :=
  cs.flatMap Chunk.data

/--
What `dechunk` cannot handle in a buffer of `n` bytes: a chunk whose end is no 32 bit number, or a body whose length
is no `int`.
-/
inductive Overflows (n : Nat) : (rest : Bytes) → (out : Nat) → Prop where
  | wraps {rest out} : rest.takeWhile IsHex ≠ [] → chunkSize rest % 2 ^ 32 ≠ 0 →
    2 ^ 32 ≤ n - rest.length + chunkHead rest + chunkSize rest % 2 ^ 32 → Overflows n rest out
  | long {rest out} : rest.takeWhile IsHex ≠ [] → chunkSize rest % 2 ^ 32 = 0 → 2 ^ 31 ≤ out → Overflows n rest out
  | chunk {rest out} : rest.takeWhile IsHex ≠ [] → chunkSize rest % 2 ^ 32 ≠ 0 →
    n - rest.length + chunkHead rest + chunkSize rest % 2 ^ 32 ≤ n →
    Overflows n (afterChunk rest (chunkSize rest % 2 ^ 32)) (out + chunkSize rest % 2 ^ 32) → Overflows n rest out

inductive DechunkReach (b : Bytes) : Dechunk → Prop where
  | start : DechunkReach b { buf := b, i := 0, out := 0 }
  | pass {s s' : Dechunk} : DechunkReach b s → s.pass = .ok (.next s') → DechunkReach b s'

/--
No access is outside of the buffer, the write cursor stays behind the read cursor and the result is -1 or a length.
-/
structure DechunkSafe (b : Bytes) : Prop where
  returns : (dechunk b).Yields (fun r => r.1 = -1 ∨ 0 ≤ r.1 ∧ r.1 ≤ b.length)
  order : ∀ s, DechunkReach b s → s.out ≤ s.i

end Spec

section Scan

variable {b rest : Bytes} {i fuel sz : Nat} {any : Bool}

theorem hexFrom_mod (v : Nat) (ds : Bytes) : hexFrom (v % 2 ^ 32) ds % 2 ^ 32 = hexFrom v ds % 2 ^ 32 := by
  induction ds generalizing v with
  | nil => exact Nat.mod_mod v (2 ^ 32)
  | cons c ds ih =>
    have hstep : (v % 2 ^ 32 * 16 + (hexDigit c).getD 0) % 2 ^ 32 = (v * 16 + (hexDigit c).getD 0) % 2 ^ 32 := by omega
    show hexFrom (v % 2 ^ 32 * 16 + (hexDigit c).getD 0) ds % 2 ^ 32
      = hexFrom (v * 16 + (hexDigit c).getD 0) ds % 2 ^ 32
    rw [← ih, hstep, ih]

theorem isHex_of_none {c : Byte} (h : hexDigit c = none) : IsHex c = false := by
  unfold IsHex
  rw [h]
  rfl

theorem isHex_of_some {c : Byte} {v : Nat} (h : hexDigit c = some v) : IsHex c = true := by
  unfold IsHex
  rw [h]
  rfl

theorem hexFrom_cons {c : Byte} {v d : Nat} (ds : Bytes) (h : hexDigit c = some d)
    : hexFrom v (c :: ds) = hexFrom (v * 16 + d) ds := by
  show hexFrom (v * 16 + (hexDigit c).getD 0) ds = _
  rw [h]
  rfl

theorem chunkDigits_drop (hdrop : b.drop i = rest) (hfuel : rest.length < fuel) (hsz : sz < 2 ^ 32)
    : (chunkDigits b fuel i sz any).Yields (fun r => r = (i + (rest.takeWhile IsHex).length,
      hexFrom sz (rest.takeWhile IsHex) % 2 ^ 32, any || decide (rest.takeWhile IsHex ≠ []))) := by
  induction rest generalizing i sz any fuel with
  | nil =>
    obtain ⟨fuel, rfl⟩ : ∃ k, fuel = k + 1 := Nat.exists_eq_succ_of_ne_zero (by omega)
    have hend : ¬i < b.length := Nat.not_lt.mpr (List.drop_eq_nil_iff.mp hdrop)
    unfold chunkDigits
    rw [if_neg hend]
    apply yields_pure
    rw [List.takeWhile_nil, show hexFrom sz [] % 2 ^ 32 = sz from Nat.mod_eq_of_lt hsz]
    simp
  | cons c rest ih =>
    obtain ⟨fuel, rfl⟩ : ∃ k, fuel = k + 1 := Nat.exists_eq_succ_of_ne_zero (by omega)
    unfold chunkDigits
    rw [if_pos (lt_of_drop hdrop)]
    apply yields_bind (yields_load8_drop hdrop)
    rintro x rfl
    have hnext : b.drop (i + 1) = rest := drop_of_drop (show b.drop i = [x] ++ rest from hdrop)
    cases hx : hexDigit x with
    | none =>
      apply yields_pure
      rw [List.takeWhile_cons_of_neg (by simp [isHex_of_none hx]),
        show hexFrom sz [] % 2 ^ 32 = sz from Nat.mod_eq_of_lt hsz]
      simp
    | some h =>
      have hlt : (sz * 16 + h) % 2 ^ 32 < 2 ^ 32 := Nat.mod_lt _ (by decide)
      apply (ih hnext (by rw [List.length_cons] at hfuel; omega) hlt).mono
      rintro r rfl
      rw [List.takeWhile_cons, isHex_of_some hx, if_pos rfl, hexFrom_cons _ hx, hexFrom_mod, List.length_cons]
      simp
      omega

theorem chunkLine_drop (hdrop : b.drop i = rest) (hfuel : rest.length < fuel)
    : (chunkLine b fuel i).Yields (fun r => r = i + (rest.takeWhile (· ≠ 10)).length) := by
  induction rest generalizing i fuel with
  | nil =>
    obtain ⟨fuel, rfl⟩ : ∃ k, fuel = k + 1 := Nat.exists_eq_succ_of_ne_zero (by omega)
    have hend : ¬i < b.length := Nat.not_lt.mpr (List.drop_eq_nil_iff.mp hdrop)
    unfold chunkLine
    rw [if_neg hend]
    exact yields_pure rfl
  | cons c rest ih =>
    obtain ⟨fuel, rfl⟩ : ∃ k, fuel = k + 1 := Nat.exists_eq_succ_of_ne_zero (by omega)
    unfold chunkLine
    rw [if_pos (lt_of_drop hdrop)]
    apply yields_bind (yields_load8_drop hdrop)
    rintro x rfl
    have hnext : b.drop (i + 1) = rest := drop_of_drop (show b.drop i = [x] ++ rest from hdrop)
    rw [List.takeWhile_cons]
    apply yields_ite
    . intro hx
      rw [if_pos (decide_eq_true hx), List.length_cons]
      apply (ih hnext (by rw [List.length_cons] at hfuel; omega)).mono
      rintro r rfl
      omega
    . intro hx
      rw [if_neg (by simpa using hx)]
      exact yields_pure rfl

theorem chunkSkip_drop (c : Byte) (hdrop : b.drop i = rest) (hi : i ≤ b.length)
    : (chunkSkip b i c).Yields (fun j => b.drop j = dropByte c rest ∧ i ≤ j ∧ j ≤ b.length) := by
  unfold chunkSkip
  unfold dropByte
  cases rest with
  | nil =>
    have hend : ¬i < b.length := Nat.not_lt.mpr (List.drop_eq_nil_iff.mp hdrop)
    rw [if_neg hend]
    exact yields_pure ⟨hdrop, Nat.le_refl i, hi⟩
  | cons x rest =>
    have hlt := lt_of_drop hdrop
    rw [if_pos hlt]
    apply yields_bind (yields_load8_drop hdrop)
    rintro y rfl
    apply yields_pure
    have hhead : (y :: rest).head? = some c ↔ y = c := by simp
    by_cases hy : y = c
    . rw [if_pos hy, if_pos (hhead.mpr hy)]
      exact ⟨drop_of_drop (show b.drop i = [y] ++ rest from hdrop), by omega, hlt⟩
    . rw [if_neg hy, if_neg (fun h => hy (hhead.mp h))]
      exact ⟨hdrop, Nat.le_refl i, hi⟩

structure MovedLeft (b b' : Bytes) (dst src n : Nat) : Prop where
  length : b'.length = b.length
  data : b'.take (dst + n) = b.take dst ++ (b.drop src).take n
  rest : ∀ i, dst + n ≤ i → b'.drop i = b.drop i

theorem moveBytes_yields {dst src n : Nat} (hle : dst ≤ src) (hend : src + n ≤ b.length)
    : (moveBytes b dst src n).Yields (fun b' => MovedLeft b b' dst src n) := by
  unfold moveBytes
  apply yields_bind (yields_load hend)
  intro moved hmoved
  refine yields_bind (yields_store (by omega)) (fun _ _ => yields_pure ?_)
  have hdst : (b.take dst).length = dst := List.length_take_of_le (by omega)
  have hlen : (b.take dst ++ moved.1).length = dst + n := by
    rw [List.length_append, hdst, moved.2]
  refine ⟨?_, ?_, ?_⟩
  . rw [List.length_append, hlen, List.length_drop]
    omega
  . rw [← hlen, List.take_left, hmoved]
  . intro i hi
    obtain ⟨k, rfl⟩ := Nat.exists_eq_add_of_le hi
    rw [← List.drop_drop, ← hlen, List.drop_left, hlen, List.drop_drop]

theorem moveBytes_error {dst src n : Nat} (hend : b.length < src + n) : moveBytes b dst src n = .error .load := by
  have hload : load b src n = .error .load := by
    unfold load
    rw [dif_neg (by omega)]
  unfold moveBytes
  rw [hload]
  rfl

end Scan

section Pass

variable {s : Dechunk} {rest : Bytes}

/--
What is known between two passes: `rest` is what is left of the encoding.
-/
structure DechunkOk (s : Dechunk) (rest : Bytes) : Prop where
  rest : s.buf.drop s.i = rest
  inside : s.i ≤ s.buf.length
  order : s.out ≤ s.i
  small : s.buf.length + 1 < 2 ^ 32

/--
The outcome of a pass, with `start` for the place of the data and `size` for its length.
-/
inductive Passed (s : Dechunk) (rest : Bytes) (start size : Nat) : Checked DechunkPass → Prop where
  | noSize : rest.takeWhile IsHex = [] → Passed s rest start size (.ok (.ret (-1) s.buf))
  | last : rest.takeWhile IsHex ≠ [] → size = 0 → Passed s rest start size (.ok (.ret (Int.bmod s.out (2 ^ 32)) s.buf))
  | wraps : rest.takeWhile IsHex ≠ [] → size ≠ 0 → 2 ^ 32 ≤ start + size → Passed s rest start size (.error .load)
  | short : rest.takeWhile IsHex ≠ [] → size ≠ 0 → start + size < 2 ^ 32 → s.buf.length < start + size →
    Passed s rest start size (.ok (.ret (-1) s.buf))
  | chunk (s' : Dechunk) : rest.takeWhile IsHex ≠ [] → size ≠ 0 → start + size ≤ s.buf.length →
    DechunkOk s' (afterChunk rest size) → s'.out = s.out + size → s.i < s'.i →
    MovedLeft s.buf s'.buf s.out start size → Passed s rest start size (.ok (.next s'))

theorem Passed.last_eq {start size : Nat} {res : Checked DechunkPass} (h : Passed s rest start size res)
    (hany : rest.takeWhile IsHex ≠ []) (hsize : size = 0)
    : res = .ok (.ret (Int.bmod s.out (2 ^ 32)) s.buf) := by
  cases h with
  | noSize hnone => exact absurd hnone hany
  | last => rfl
  | wraps _ hsome => exact absurd hsize hsome
  | short _ hsome => exact absurd hsize hsome
  | chunk _ _ hsome => exact absurd hsize hsome

theorem Passed.chunk_eq {start size : Nat} {res : Checked DechunkPass} (h : Passed s rest start size res)
    (hany : rest.takeWhile IsHex ≠ []) (hsize : size ≠ 0) (hend : start + size ≤ s.buf.length)
    (hsmall : s.buf.length < 2 ^ 32)
    : ∃ s', res = .ok (.next s') ∧ DechunkOk s' (afterChunk rest size) ∧ s'.out = s.out + size ∧ s.i < s'.i ∧
      MovedLeft s.buf s'.buf s.out start size := by
  cases h with
  | noSize hnone => exact absurd hnone hany
  | last _ hzero => exact absurd hzero hsize
  | wraps _ _ hwraps => omega
  | short _ _ _ hshort => omega
  | chunk s' _ _ _ hnext hout hlt hmoved => exact ⟨s', rfl, hnext, hout, hlt, hmoved⟩

theorem passed (h : DechunkOk s rest)
    : Passed s rest (s.i + chunkHead rest) (chunkSize rest % 2 ^ 32) s.pass := by
  have hsmall := h.small
  have hinside := h.inside
  have horder := h.order
  have hrest : rest.length = s.buf.length - s.i := by rw [← h.rest, List.length_drop]
  have hscan_digits : (chunkDigits s.buf (s.buf.length + 1) s.i 0 false).Yields _ :=
    chunkDigits_drop h.rest (by omega) (by decide)
  obtain ⟨r, hdigits, rfl⟩ := hscan_digits
  have hline : s.buf.drop (s.i + (rest.takeWhile IsHex).length) = rest.dropWhile IsHex := by
    apply drop_of_drop
    rw [h.rest, List.takeWhile_append_dropWhile]
  have hdrop_le := (List.dropWhile_sublist IsHex (l := rest)).length_le
  have hscan_line : (chunkLine s.buf (s.buf.length + 1) (s.i + (rest.takeWhile IsHex).length)).Yields _ :=
    chunkLine_drop hline (by omega)
  obtain ⟨r, hscan, rfl⟩ := hscan_line
  have hstart : s.i + (rest.takeWhile IsHex).length + ((rest.dropWhile IsHex).takeWhile (· ≠ 10)).length + 1
      = s.i + chunkHead rest := by
    unfold chunkHead
    omega
  have hhead : chunkHead rest ≤ rest.length + 1 := by
    have hsplit := congrArg List.length (List.takeWhile_append_dropWhile (p := IsHex) (l := rest))
    rw [List.length_append] at hsplit
    have htake := (List.takeWhile_sublist (fun c : Byte => decide (c ≠ 10)) (l := rest.dropWhile IsHex)).length_le
    unfold chunkHead
    omega
  have hsize : hexFrom 0 (rest.takeWhile IsHex) % 2 ^ 32 = chunkSize rest % 2 ^ 32 := rfl
  unfold Dechunk.pass
  dsimp only
  rw [hdigits, Checked.ok_bind]
  dsimp only
  rw [hsize]
  by_cases hany : rest.takeWhile IsHex = []
  . rw [hany]
    exact .noSize hany
  . have hstart_lt : s.i + chunkHead rest < 2 ^ 32 := by omega
    rw [if_neg (by simpa using hany), hscan, Checked.ok_bind, hstart, Nat.mod_eq_of_lt hstart_lt]
    have hmod : chunkSize rest % 2 ^ 32 < 2 ^ 32 := Nat.mod_lt _ (by decide)
    generalize chunkSize rest % 2 ^ 32 = size at hmod ⊢
    generalize hst : s.i + chunkHead rest = start
    by_cases hzero : size = 0
    . rw [if_pos hzero]
      exact .last hany hzero
    . rw [if_neg hzero]
      by_cases hwrap : 2 ^ 32 ≤ start + size
      . have hpass : ¬s.buf.length < (start + size) % 2 ^ 32 := by omega
        rw [if_neg hpass, moveBytes_error (by omega)]
        exact .wraps hany hzero hwrap
      . rw [Nat.mod_eq_of_lt (by omega)]
        by_cases hshort : s.buf.length < start + size
        . rw [if_pos hshort]
          exact .short hany hzero (by omega) hshort
        . rw [if_neg hshort]
          have hyields : (moveBytes s.buf s.out start size).Yields _ := moveBytes_yields (by omega) (by omega)
          obtain ⟨buf, hmove, hmoved⟩ := hyields
          have hdata : buf.drop (start + size) = rest.drop (chunkHead rest + size) := by
            rw [hmoved.rest _ (by omega), ← hst, Nat.add_assoc, ← List.drop_drop, h.rest]
          have hbuf := hmoved.length
          obtain ⟨j, hcr, hcr_drop, hcr_le, hcr_end⟩ := chunkSkip_drop 13 hdata (by omega)
          obtain ⟨k, hlf, hlf_drop, hlf_le, hlf_end⟩ := chunkSkip_drop 10 hcr_drop hcr_end
          rw [hmove, Checked.ok_bind, hcr, Checked.ok_bind, hlf, Checked.ok_bind,
            Nat.mod_eq_of_lt (show s.out + size < 2 ^ 32 by omega)]
          have hnext : DechunkOk { buf, i := k, out := s.out + size } (afterChunk rest size) :=
            ⟨hlf_drop, hlf_end, by show s.out + size ≤ k; omega, by show buf.length + 1 < 2 ^ 32; omega⟩
          exact .chunk _ hany hzero (by omega) hnext rfl (by show s.i < k; omega) hmoved

end Pass

section Safe

variable {s : Dechunk} {rest b : Bytes}

theorem dechunkLoop_ret {fuel : Nat} {r : Int} {buf : Bytes} (h : s.pass = .ok (.ret r buf))
    : dechunkLoop (fuel + 1) s = .ok (r, buf) := by
  show (s.pass >>= _) = _
  rw [h]
  rfl

theorem dechunkLoop_next {fuel : Nat} {s' : Dechunk} (h : s.pass = .ok (.next s'))
    : dechunkLoop (fuel + 1) s = dechunkLoop fuel s' := by
  show (s.pass >>= _) = _
  rw [h]
  rfl

theorem dechunkLoop_error {fuel : Nat} {e : Fault} (h : s.pass = .error e)
    : dechunkLoop (fuel + 1) s = .error e := by
  show (s.pass >>= _) = _
  rw [h]
  rfl

theorem yields_ok_iff {α : Type} {P : α → Prop} {a : α} : Yields (.ok a) P ↔ P a := by
  constructor
  . rintro ⟨_, heq, h⟩
    cases heq
    exact h
  . exact yields_pure

theorem not_yields_error {α : Type} {P : α → Prop} {e : Fault} : ¬Yields (.error e) P := by
  rintro ⟨_, heq, _⟩
  cases heq

theorem DechunkOk.cursor (h : DechunkOk s rest) : s.i = s.buf.length - rest.length := by
  have hlen := congrArg List.length h.rest
  rw [List.length_drop] at hlen
  have hinside := h.inside
  omega

theorem dechunkLoop_iff {fuel : Nat} (h : DechunkOk s rest) (hfuel : rest.length < fuel)
    : (dechunkLoop fuel s).Yields (fun r => r.1 = -1 ∨ 0 ≤ r.1 ∧ r.1 ≤ s.buf.length) ↔
      ¬Overflows s.buf.length rest s.out := by
  induction fuel generalizing s rest with
  | zero => omega
  | succ fuel ih =>
    have hpass := passed h
    have horder := h.order
    have hinside := h.inside
    have hsmall := h.small
    generalize hres : s.pass = res at hpass
    cases hpass with
    | noSize hany =>
      rw [dechunkLoop_ret hres, yields_ok_iff]
      refine ⟨fun _ => ?_, fun _ => .inl rfl⟩
      rintro (⟨hsome, _, _⟩ | ⟨hsome, _, _⟩ | ⟨hsome, _, _, _⟩) <;> exact hsome hany
    | last hany hzero =>
      rw [dechunkLoop_ret hres, yields_ok_iff]
      have hlong : Overflows s.buf.length rest s.out ↔ 2 ^ 31 ≤ s.out := by
        constructor
        . rintro (⟨_, hsize, _⟩ | ⟨_, _, hlong⟩ | ⟨_, hsize, _, _⟩)
          . exact absurd hzero hsize
          . exact hlong
          . exact absurd hzero hsize
        . exact .long hany hzero
      rw [hlong]
      dsimp only
      rw [Int.bmod_def]
      split <;> omega
    | wraps hany hsize hwraps =>
      rw [dechunkLoop_error hres]
      rw [h.cursor] at hwraps
      exact ⟨fun hyields => absurd hyields not_yields_error, fun hnot => absurd (.wraps hany hsize hwraps) hnot⟩
    | short hany hsize hfits hshort =>
      rw [dechunkLoop_ret hres, yields_ok_iff]
      rw [h.cursor] at hfits hshort
      refine ⟨fun _ => ?_, fun _ => .inl rfl⟩
      rintro (⟨_, _, hwraps⟩ | ⟨_, hzero, _⟩ | ⟨_, _, hend, _⟩)
      . omega
      . exact hsize hzero
      . omega
    | chunk s' hany hsize hend hnext hout hlt hmoved =>
      have hlen := hmoved.length
      have hcursor := h.cursor
      have hcursor' := hnext.cursor
      have hinside' := hnext.inside
      rw [dechunkLoop_next hres]
      have hiff := ih hnext (by omega)
      rw [hlen] at hiff
      rw [hiff, not_iff_not, hout]
      constructor
      . rw [hcursor] at hend
        exact .chunk hany hsize hend
      . rintro (⟨_, _, hwraps⟩ | ⟨_, hzero, _⟩ | ⟨_, _, _, hover⟩)
        . omega
        . exact absurd hzero hsize
        . exact hover

theorem dechunkReach_ok (hlen : b.length + 1 < 2 ^ 32) (h : DechunkReach b s) : ∃ rest, DechunkOk s rest := by
  induction h with
  | start => exact ⟨b, rfl, Nat.zero_le _, Nat.le_refl 0, hlen⟩
  | pass _ hres ih =>
    obtain ⟨rest, hok⟩ := ih
    have hpass := passed hok
    rw [hres] at hpass
    cases hpass with
    | chunk _ _ _ _ hnext _ _ _ => exact ⟨_, hnext⟩

/--
The range test is safe exactly on the buffers where no sum of it wraps around.
-/
theorem dechunk_safe_iff (hlen : b.length + 1 < 2 ^ 32) : DechunkSafe b ↔ ¬Overflows b.length b 0 := by
  have hstart : DechunkOk { buf := b, i := 0, out := 0 } b := ⟨rfl, Nat.zero_le _, Nat.le_refl 0, hlen⟩
  have hloop := dechunkLoop_iff hstart (Nat.lt_succ_self _)
  constructor
  . intro hsafe
    exact hloop.mp hsafe.returns
  . intro hnot
    refine ⟨hloop.mpr hnot, ?_⟩
    intro s hreach
    obtain ⟨rest, hok⟩ := dechunkReach_ok hlen hreach
    exact hok.order

theorem dechunk_safe_iff_empty : DechunkSafe [48, 13, 10] ↔ ¬Overflows 3 [48, 13, 10] 0 :=
  dechunk_safe_iff (by decide)

/--
The size `FFFFFFFF` passes the test of its end and is then moved.
-/
theorem dechunk_unsafe : ¬DechunkSafe [70, 70, 70, 70, 70, 70, 70, 70, 13, 10] := by
  intro hsafe
  obtain ⟨r, heq, _⟩ := hsafe.returns
  have hfault : dechunk [70, 70, 70, 70, 70, 70, 70, 70, 13, 10] = .error .load := rfl
  rw [hfault] at heq
  cases heq

end Safe

section Decode

variable {s : Dechunk} {rest tail : Bytes} {size : Nat}

theorem takeWhile_append_cons {p : Byte → Bool} {xs : Bytes} {x : Byte} (hxs : ∀ y ∈ xs, p y) (hx : p x = false)
    : (xs ++ x :: tail).takeWhile p = xs := by
  rw [List.takeWhile_append_of_pos hxs, List.takeWhile_cons_of_neg (by simp [hx]), List.append_nil]

theorem SizeLine.ext_takeWhile (l : SizeLine size) : (l.ext ++ 13 :: tail).takeWhile IsHex = [] := by
  have hhead := l.head
  cases hext : l.ext with
  | nil => rfl
  | cons c cs =>
    rw [hext, List.takeWhile_cons] at hhead
    rw [List.cons_append, List.takeWhile_cons]
    split at hhead
    . cases hhead
    . next hc => rw [if_neg hc]

theorem SizeLine.encode_append (l : SizeLine size) (tail : Bytes)
    : l.encode ++ tail = l.digits ++ (l.ext ++ 13 :: 10 :: tail) := by
  unfold SizeLine.encode
  simp

theorem SizeLine.takeWhile (l : SizeLine size) : (l.encode ++ tail).takeWhile IsHex = l.digits := by
  rw [l.encode_append, List.takeWhile_append_of_pos l.hex, l.ext_takeWhile, List.append_nil]

theorem SizeLine.dropWhile (l : SizeLine size) (tail : Bytes)
    : (l.encode ++ tail).dropWhile IsHex = l.ext ++ 13 :: 10 :: tail := by
  have hsplit := List.takeWhile_append_dropWhile (p := IsHex) (l := l.encode ++ tail)
  rw [l.takeWhile] at hsplit
  have hdigits : l.digits ++ (l.encode ++ tail).dropWhile IsHex = l.digits ++ (l.ext ++ 13 :: 10 :: tail) := by
    rw [hsplit, l.encode_append]
  exact List.append_cancel_left hdigits

theorem SizeLine.chunkSize (l : SizeLine size) : chunkSize (l.encode ++ tail) = size := by
  unfold TanjaOS.chunkSize
  rw [l.takeWhile, l.value]

theorem SizeLine.chunkHead (l : SizeLine size) : chunkHead (l.encode ++ tail) = l.encode.length := by
  have hline : ∀ c ∈ l.ext ++ [13], decide (c ≠ 10) = true := by
    intro c hc
    rw [decide_eq_true_iff]
    rintro rfl
    rcases List.mem_append.mp hc with hc | hc
    . exact l.line hc
    . simp at hc
  have hscan : (l.ext ++ 13 :: 10 :: tail).takeWhile (fun c => decide (c ≠ 10)) = l.ext ++ [13] := by
    rw [List.append_cons]
    exact takeWhile_append_cons hline (by decide)
  unfold TanjaOS.chunkHead
  rw [l.takeWhile, l.dropWhile, hscan]
  unfold SizeLine.encode
  simp
  omega

theorem bmod_length {n : Nat} (h : n < 2 ^ 31) : Int.bmod n (2 ^ 32) = n := by
  rw [Int.bmod_def]
  split <;> omega

theorem dropByte_cons (c : Byte) : dropByte c (c :: tail) = tail := by
  unfold dropByte
  simp

theorem Chunk.afterChunk (c : Chunk) (tail : Bytes) : afterChunk (c.encode ++ tail) c.data.length = tail := by
  have hrest : c.encode ++ tail = c.size.encode ++ (c.data ++ 13 :: 10 :: tail) := by
    unfold Chunk.encode
    simp
  unfold TanjaOS.afterChunk
  rw [hrest, c.size.chunkHead, ← List.drop_drop, List.drop_left, List.drop_left, dropByte_cons, dropByte_cons]

theorem dechunkLoop_encode {fuel : Nat} {cs : List Chunk} {zero : SizeLine 0} {trailers : Bytes}
    (h : DechunkOk s (encodeChunks cs zero trailers)) (hsmall : s.buf.length < 2 ^ 31)
    (hfuel : (encodeChunks cs zero trailers).length < fuel)
    : (dechunkLoop fuel s).Yields (fun r => r.1 = s.out + (chunkBody cs).length ∧
      r.2.take (s.out + (chunkBody cs).length) = s.buf.take s.out ++ chunkBody cs) := by
  induction cs generalizing s fuel with
  | nil =>
    obtain ⟨fuel, rfl⟩ : ∃ k, fuel = k + 1 := Nat.exists_eq_succ_of_ne_zero (by omega)
    have hrest : encodeChunks [] zero trailers = zero.encode ++ trailers := rfl
    have hany : (encodeChunks [] zero trailers).takeWhile IsHex ≠ [] := by
      rw [hrest, zero.takeWhile]
      exact zero.some
    have hzero : TanjaOS.chunkSize (encodeChunks [] zero trailers) % 2 ^ 32 = 0 := by
      rw [hrest, zero.chunkSize, Nat.zero_mod]
    have horder := h.order
    have hinside := h.inside
    rw [dechunkLoop_ret ((passed h).last_eq hany hzero), yields_ok_iff]
    have hlength : (chunkBody []).length = 0 := rfl
    have hbody : chunkBody [] = [] := rfl
    rw [hlength, hbody]
    constructor
    . rw [bmod_length (by omega)]
      rfl
    . simp
  | cons c cs ih =>
    obtain ⟨fuel, rfl⟩ : ∃ k, fuel = k + 1 := Nat.exists_eq_succ_of_ne_zero (by omega)
    have hrest : encodeChunks (c :: cs) zero trailers = c.encode ++ encodeChunks cs zero trailers := by
      unfold encodeChunks
      rw [List.flatMap_cons, List.append_assoc]
    have hline : encodeChunks (c :: cs) zero trailers =
        c.size.encode ++ (c.data ++ [13, 10] ++ encodeChunks cs zero trailers) := by
      rw [hrest]
      unfold Chunk.encode
      simp
    have hany : (encodeChunks (c :: cs) zero trailers).takeWhile IsHex ≠ [] := by
      rw [hline, c.size.takeWhile]
      exact c.size.some
    have hlen := congrArg List.length hline
    simp only [List.length_append] at hlen
    have hcursor := h.cursor
    have hinside := h.inside
    have hbuf := congrArg List.length h.rest
    rw [List.length_drop] at hbuf
    have hsize : TanjaOS.chunkSize (encodeChunks (c :: cs) zero trailers) % 2 ^ 32 = c.data.length := by
      rw [hline, c.size.chunkSize]
      exact Nat.mod_eq_of_lt (by omega)
    have hhead : TanjaOS.chunkHead (encodeChunks (c :: cs) zero trailers) = c.size.encode.length := by
      rw [hline, c.size.chunkHead]
    have hpass := passed h
    rw [hsize] at hpass
    obtain ⟨s', hres, hnext, hout, hlt, hmoved⟩ :=
      hpass.chunk_eq hany (by simpa using c.some) (by rw [hhead]; omega) (by omega)
    rw [hrest, c.afterChunk] at hnext
    rw [hhead] at hmoved
    have hlen' := hmoved.length
    have hcursor' := hnext.cursor
    have hinside' := hnext.inside
    have hdata : (s.buf.drop (s.i + c.size.encode.length)).take c.data.length = c.data := by
      rw [← List.drop_drop, h.rest, hline, List.drop_left, List.append_assoc, List.take_left]
    rw [dechunkLoop_next hres]
    apply (ih hnext (by omega) (by omega)).mono
    rintro r ⟨hr, hbody⟩
    have hsum : s'.out + (chunkBody cs).length = s.out + (chunkBody (c :: cs)).length := by
      rw [hout]
      unfold chunkBody
      rw [List.flatMap_cons, List.length_append, Nat.add_assoc]
    rw [hsum] at hbody
    constructor
    . rw [hr]
      omega
    . rw [hbody, hout, hmoved.data, hdata, List.append_assoc]
      rfl

/--
In-place decoding gives back the body, however it is divided.
-/
theorem dechunk_encode (cs : List Chunk) (zero : SizeLine 0) (trailers : Bytes)
    (h : (encodeChunks cs zero trailers).length < 2 ^ 31)
    : (dechunk (encodeChunks cs zero trailers)).Yields (fun r =>
      r.1 = (chunkBody cs).length ∧ r.2.take (chunkBody cs).length = chunkBody cs) := by
  have hstart : DechunkOk { buf := encodeChunks cs zero trailers, i := 0, out := 0 } (encodeChunks cs zero trailers) :=
    ⟨rfl, Nat.zero_le _, Nat.le_refl 0, Nat.lt_trans (Nat.add_lt_add_right h 1) (by decide)⟩
  have hloop := dechunkLoop_encode hstart h (Nat.lt_succ_self _)
  apply hloop.mono
  rintro r ⟨hr, hbody⟩
  dsimp only at hr hbody
  rw [Nat.zero_add] at hbody
  constructor
  . rw [hr]
    exact Int.zero_add _
  . rw [hbody]
    rfl

def hiLine : SizeLine 2 where
  digits := [48, 50]
  ext := [59, 65]
  hex := by decide +kernel
  some := by decide
  value := by decide +kernel
  head := rfl
  line := by simp

def zeroLine : SizeLine 0 where
  digits := [48]
  ext := []
  hex := by decide +kernel
  some := by decide
  value := by decide +kernel
  head := rfl
  line := by simp

theorem dechunk_encode_hi : (dechunk (encodeChunks [⟨[10, 65], by decide, hiLine⟩] zeroLine [13, 10])).Yields (fun r =>
    r.1 = 2 ∧ r.2.take 2 = [10, 65]) :=
  dechunk_encode [⟨[10, 65], by decide, hiLine⟩] zeroLine [13, 10] (by decide)

end Decode

end TanjaOS
