import TanjaOS.Lib.Mem
import TanjaOS.Lib.Split

/-!
How the programs in `/bin` take their arguments apart: `next_arg`, of which `cat`, `grep`, `ls`, `mkdir`,
`rm`, `rmdir` and `touch` have a copy each.

In ASCII the tab is 9, the space is 32, `"` is 34, `'` is 39 and the backslash is 92.
-/

open Lib

namespace TanjaOS

def argBlank (c : Byte) : Bool :=
  c = 32 ∨ c = 9

/--
`if (n < max - 1) out[n++] = c`
-/
def putArg (max : Nat) (out : Bytes) (c : Byte) : Bytes :=
  if out.length < max - 1 then out ++ [c] else out

/--
What is in `out` behind the argument, and where it ends.
-/
def nextArg.copy (max : Nat) (quote : Option Byte) (out p : Bytes) : Bytes × Bytes :=
  match p with
  | [] => (out, [])
  | c :: p =>
    if quote = none ∧ argBlank c then
      (out, c :: p)
    else if (c = 34 ∨ c = 39) ∧ (quote = none ∨ quote = some c) then
      copy max (if quote = none then some c else none) out p
    else if c = 92 then
      match p with
      | [] => (putArg max out c, [])
      | d :: p => copy max quote (putArg max out d) p
    else
      copy max quote (putArg max out c) p

def nextArg (max : Nat) (p : Bytes) : Bool × Bytes × Bytes :=
  let p := p.dropWhile argBlank
  if p = [] then
    (false, [], [])
  else
    let (out, p) := nextArg.copy max none [] p
    (out ≠ [], out, p)

/--
`while (next_arg(&p, arg, sizeof(arg)))`, no line has more arguments than bytes.
-/
def nextArgs (max : Nat) (p : Bytes) : List Bytes :=
  go p.length p
where
  go (n : Nat) (p : Bytes) : List Bytes :=
    match n with
    | 0 => []
    | n + 1 =>
      match nextArg max p with
      | (true, arg, p) => arg :: go n p
      | (false, _, _) => []

inductive ArgChar where
  | raw (c : Byte)
  | escaped (c : Byte)

namespace ArgChar

def text (ch : ArgChar) : Bytes :=
  match ch with
  | raw c => [c]
  | escaped c => [92, c]

def value (ch : ArgChar) : Byte :=
  match ch with
  | raw c => c
  | escaped c => c

def Ok (quote : Option Byte) (ch : ArgChar) : Prop :=
  match ch, quote with
  | escaped _, _ => True
  | raw c, none => argBlank c = false ∧ c ≠ 34 ∧ c ≠ 39 ∧ c ≠ 92
  | raw c, some q => c ≠ q ∧ c ≠ 92

end ArgChar

inductive ArgPiece where
  | plain (ch : ArgChar)
  | quoted (q : Byte) (cs : List ArgChar)

namespace ArgPiece

def text (piece : ArgPiece) : Bytes :=
  match piece with
  | plain ch => ch.text
  | quoted q cs => q :: (cs.flatMap ArgChar.text ++ [q])

def value (piece : ArgPiece) : Bytes :=
  match piece with
  | plain ch => [ch.value]
  | quoted _ cs => cs.map ArgChar.value

def Ok (piece : ArgPiece) : Prop :=
  match piece with
  | plain ch => ch.Ok none
  | quoted q cs => (q = 34 ∨ q = 39) ∧ ∀ ch ∈ cs, ch.Ok (some q)

end ArgPiece

structure SpelledArg where
  gap : Bytes
  pieces : List ArgPiece

namespace SpelledArg

def text (a : SpelledArg) : Bytes :=
  a.gap ++ a.pieces.flatMap ArgPiece.text

def value (a : SpelledArg) : Bytes :=
  a.pieces.flatMap ArgPiece.value

structure Ok (a : SpelledArg) : Prop where
  gap : ∀ c ∈ a.gap, argBlank c
  some : a.pieces ≠ []
  pieces : ∀ piece ∈ a.pieces, piece.Ok

end SpelledArg

/--
A command line: arguments that are apart, and blanks behind the last one.
-/
structure ArgLine where
  args : List SpelledArg
  rest : Bytes

namespace ArgLine

def text (l : ArgLine) : Bytes :=
  l.args.flatMap SpelledArg.text ++ l.rest

structure Ok (l : ArgLine) : Prop where
  args : ∀ a ∈ l.args, a.Ok
  apart : ∀ a ∈ l.args.tail, a.gap ≠ []
  rest : ∀ c ∈ l.rest, argBlank c

end ArgLine

section Copy

variable {max : Nat} {out : Bytes}

theorem foldl_putArg (v : Bytes) (hout : out.length ≤ max - 1)
    : v.foldl (putArg max) out = (out ++ v).take (max - 1) := by
  induction v generalizing out with
  | nil => rw [List.foldl_nil, List.append_nil, List.take_of_length_le hout]
  | cons c v ih =>
    rw [List.foldl_cons, putArg]
    split
    . next hroom =>
      rw [ih (by rw [List.length_append, List.length_singleton]; omega), List.append_assoc]
      rfl
    . next hfull =>
      rw [ih hout, List.take_append_of_le_length (by omega), List.take_append_of_le_length (by omega)]

theorem copy_cons (quote : Option Byte) (c : Byte) (p : Bytes)
    : nextArg.copy max quote out (c :: p)
      = if quote = none ∧ argBlank c then
          (out, c :: p)
        else if (c = 34 ∨ c = 39) ∧ (quote = none ∨ quote = some c) then
          nextArg.copy max (if quote = none then some c else none) out p
        else if c = 92 then
          match p with
          | [] => (putArg max out c, [])
          | d :: p => nextArg.copy max quote (putArg max out d) p
        else
          nextArg.copy max quote (putArg max out c) p := by
  cases p <;> rfl

theorem copy_char {quote : Option Byte} {ch : ArgChar} (h : ch.Ok quote) (p : Bytes)
    : nextArg.copy max quote out (ch.text ++ p) = nextArg.copy max quote (putArg max out ch.value) p := by
  cases ch with
  | escaped c =>
    change nextArg.copy max quote out (92 :: c :: p) = _
    rw [copy_cons, if_neg (by simp [argBlank]), if_neg (by simp), if_pos rfl]
    rfl
  | raw c =>
    change nextArg.copy max quote out (c :: p) = _
    cases quote with
    | none =>
      obtain ⟨hblank, hdouble, hsingle, hback⟩ := h
      rw [copy_cons, if_neg (by simp [hblank]), if_neg (by simp [hdouble, hsingle]), if_neg hback]
      rfl
    | some q =>
      obtain ⟨hq, hback⟩ := h
      rw [copy_cons, if_neg (by simp), if_neg, if_neg hback]
      . rfl
      . rintro ⟨-, hnone | hsame⟩
        . cases hnone
        . exact hq (Option.some.inj hsame).symm

theorem copy_chars {quote : Option Byte} {cs : List ArgChar} (h : ∀ ch ∈ cs, ch.Ok quote) (p : Bytes)
    : nextArg.copy max quote out (cs.flatMap ArgChar.text ++ p)
      = nextArg.copy max quote ((cs.map ArgChar.value).foldl (putArg max) out) p := by
  induction cs generalizing out with
  | nil => rfl
  | cons ch cs ih =>
    rw [List.flatMap_cons, List.append_assoc, copy_char (h ch List.mem_cons_self),
      ih (fun ch' hmem => h ch' (List.mem_cons_of_mem ch hmem))]
    rfl

theorem copy_piece {piece : ArgPiece} (h : piece.Ok) (p : Bytes)
    : nextArg.copy max none out (piece.text ++ p)
      = nextArg.copy max none (piece.value.foldl (putArg max) out) p := by
  cases piece with
  | plain ch => exact copy_char h p
  | quoted q cs =>
    obtain ⟨hq, hcs⟩ := h
    have hblank : argBlank q = false := by
      obtain rfl | rfl := hq <;> rfl
    change nextArg.copy max none out (q :: (cs.flatMap ArgChar.text ++ [q] ++ p)) = _
    rw [copy_cons, if_neg (by simp [hblank]), if_pos ⟨hq, .inl rfl⟩, if_pos rfl, List.append_assoc,
      copy_chars hcs]
    -- the closing quote
    change nextArg.copy max (some q) _ (q :: p) = _
    rw [copy_cons, if_neg (by simp), if_pos ⟨hq, .inr rfl⟩, if_neg (by simp)]
    rfl

theorem copy_pieces {pieces : List ArgPiece} (h : ∀ piece ∈ pieces, piece.Ok) (p : Bytes)
    : nextArg.copy max none out (pieces.flatMap ArgPiece.text ++ p)
      = nextArg.copy max none ((pieces.flatMap ArgPiece.value).foldl (putArg max) out) p := by
  induction pieces generalizing out with
  | nil => rfl
  | cons piece pieces ih =>
    rw [List.flatMap_cons, List.append_assoc, copy_piece (h piece List.mem_cons_self),
      ih (fun piece' hmem => h piece' (List.mem_cons_of_mem piece hmem)), List.flatMap_cons, List.foldl_append]

def EndsArg (p : Bytes) : Prop :=
  ∀ c ∈ p.head?, argBlank c

theorem copy_end {p : Bytes} (h : EndsArg p) : nextArg.copy max none out p = (out, p) := by
  cases p with
  | nil => rfl
  | cons c p =>
    have hblank : argBlank c := h c rfl
    rw [copy_cons, if_pos ⟨rfl, hblank⟩]

end Copy

section Line

variable {max : Nat}

theorem ArgPiece.Ok.head {piece : ArgPiece} (h : piece.Ok) : ∃ c p, piece.text = c :: p ∧ argBlank c = false := by
  cases piece with
  | plain ch =>
    cases ch with
    | raw c => exact ⟨c, [], rfl, h.1⟩
    | escaped c => exact ⟨92, [c], rfl, rfl⟩
  | quoted q cs =>
    refine ⟨q, _, rfl, ?_⟩
    obtain rfl | rfl := h.1 <;> rfl

theorem SpelledArg.Ok.dropBlanks {a : SpelledArg} (h : a.Ok) (p : Bytes)
    : (a.text ++ p).dropWhile argBlank = a.pieces.flatMap ArgPiece.text ++ p
      ∧ a.pieces.flatMap ArgPiece.text ≠ [] := by
  obtain ⟨piece, pieces, hpieces⟩ := List.exists_cons_of_ne_nil h.some
  have hhead := h.pieces piece (hpieces ▸ List.mem_cons_self)
  obtain ⟨c, t, htext, hblank⟩ := hhead.head
  have hcons : a.pieces.flatMap ArgPiece.text = c :: (t ++ pieces.flatMap ArgPiece.text) := by
    rw [hpieces, List.flatMap_cons, htext]
    rfl
  constructor
  . unfold SpelledArg.text
    rw [List.append_assoc, List.dropWhile_append_of_pos h.gap, hcons]
    exact List.dropWhile_cons_of_neg (by rw [hblank]; decide)
  . rw [hcons]
    exact List.cons_ne_nil _ _

theorem nextArg_spelled {a : SpelledArg} (h : a.Ok) {p : Bytes} (hp : EndsArg p)
    : nextArg max (a.text ++ p) = (decide (a.value.take (max - 1) ≠ []), a.value.take (max - 1), p) := by
  obtain ⟨hdrop, hne⟩ := h.dropBlanks p
  have hcopy := @copy_pieces max [] _ h.pieces p
  rw [copy_end hp, foldl_putArg _ (Nat.zero_le _)] at hcopy
  unfold nextArg
  dsimp only
  rw [hdrop, if_neg (List.append_ne_nil_of_left_ne_nil hne p), hcopy]
  rfl

theorem nextArg_blank {p : Bytes} (h : ∀ c ∈ p, argBlank c) : nextArg max p = (false, [], []) := by
  unfold nextArg
  dsimp only
  rw [List.dropWhile_eq_nil_iff.mpr h, if_pos rfl]

theorem nextArgs_go {args : List SpelledArg} {rest : Bytes} (hargs : ∀ a ∈ args, a.Ok)
    (hapart : ∀ a ∈ args.tail, a.gap ≠ []) (hrest : ∀ c ∈ rest, argBlank c) {n : Nat}
    (hn : (args.flatMap SpelledArg.text ++ rest).length ≤ n)
    : nextArgs.go max n (args.flatMap SpelledArg.text ++ rest)
      = (args.map (fun a => a.value.take (max - 1))).takeWhile (fun v => decide (v ≠ [])) := by
  induction args generalizing n with
  | nil =>
    rw [List.flatMap_nil, List.nil_append, List.map_nil, List.takeWhile_nil]
    cases n with
    | zero => rfl
    | succ n => rw [nextArgs.go, nextArg_blank hrest]
  | cons a args ih =>
    have ha := hargs a List.mem_cons_self
    have hnext : EndsArg (args.flatMap SpelledArg.text ++ rest) := by
      intro c hc
      cases args with
      | nil => exact hrest c (List.mem_of_mem_head? hc)
      | cons b args =>
        have hb := hargs b (List.mem_cons_of_mem a List.mem_cons_self)
        obtain ⟨d, gap, hgap⟩ := List.exists_cons_of_ne_nil (hapart b List.mem_cons_self)
        have hd : c = d := by
          rw [List.flatMap_cons, SpelledArg.text, hgap] at hc
          exact (Option.some.inj hc).symm
        rw [hd]
        exact hb.gap d (hgap ▸ List.mem_cons_self)
    rw [List.flatMap_cons, List.append_assoc] at hn ⊢
    have hlen : 0 < a.text.length := by
      have hne := (ha.dropBlanks []).2
      unfold SpelledArg.text
      rw [List.length_append]
      have := List.length_pos_iff.mpr hne
      omega
    obtain ⟨m, rfl⟩ : ∃ m, n = m + 1 := ⟨n - 1, by rw [List.length_append] at hn; omega⟩
    rw [nextArgs.go, nextArg_spelled ha hnext, List.map_cons, List.takeWhile_cons]
    by_cases hempty : a.value.take (max - 1) = []
    . simp only [hempty, ne_eq, not_true_eq_false, decide_false, Bool.false_eq_true, if_false]
    . simp only [hempty, ne_eq, not_false_eq_true, decide_true, if_true]
      congr 1
      apply ih (fun b hb => hargs b (List.mem_cons_of_mem a hb))
      . intro b hb
        exact hapart b (List.mem_of_mem_tail hb)
      . rw [List.length_append] at hn
        omega

/--
The arguments of a line are what is written there, each cut off at the size of the buffer, up to the first
one that stands for no text.
-/
theorem nextArgs_spelled {l : ArgLine} (h : l.Ok) (max : Nat)
    : nextArgs max l.text
      = (l.args.map (fun a => a.value.take (max - 1))).takeWhile (fun v => decide (v ≠ [])) :=
  nextArgs_go h.args h.apart h.rest (le_refl _)

/--
`"a b" c\'d`
-/
def spelledLine : ArgLine where
  args := [⟨[], [.quoted 34 [.raw 97, .raw 32, .raw 98]]⟩,
    ⟨[32], [.plain (.raw 99), .plain (.escaped 39), .plain (.raw 100)]⟩]
  rest := []

theorem nextArgs_spelled_two : nextArgs 256 spelledLine.text = [[97, 32, 98], [99, 39, 100]] := by
  have hok : spelledLine.Ok := by
    constructor
    . intro a ha
      obtain rfl | ha := List.mem_cons.mp ha
      . exact ⟨by simp, by simp, by simp [ArgPiece.Ok, ArgChar.Ok]⟩
      . obtain rfl := List.mem_singleton.mp ha
        exact ⟨by simp [argBlank], by simp, by simp [ArgPiece.Ok, ArgChar.Ok, argBlank]⟩
    . simp [spelledLine]
    . simp [spelledLine]
  exact nextArgs_spelled hok 256

end Line

end TanjaOS
