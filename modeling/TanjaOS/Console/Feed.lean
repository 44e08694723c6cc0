import TanjaOS.Console.Utf8

/-!
The console gets its output byte by byte. It should draw what the decoder finds in the whole text.
-/

open Lib

namespace TanjaOS

def utf8MapAscii (cp : UInt32) : Byte :=
  if cp = 0x2018 ∨ cp = 0x2019 ∨ cp = 0x201A ∨ cp = 0x02BC then
    39
  else if cp = 0x201C ∨ cp = 0x201D then
    34
  else if cp = 0x2013 ∨ cp = 0x2014 then
    45
  else if cp = 0x2026 then
    46
  else
    0

/--
0 for `utf8Invalid`.
-/
def utf8ToCell (cp : UInt32) : Byte :=
  if cp = utf8Invalid then
    0
  else if cp < 0x80 then
    cp.toUInt8
  else
    let m := utf8MapAscii cp
    if m ≠ 0 then m else 63

structure Utf8Feed where
  buf : Bytes
  need : Nat
  deriving DecidableEq

namespace Utf8Feed

def empty : Utf8Feed where
  buf := []
  need := 0

end Utf8Feed

inductive Fed where
  | more
  | code (cp : UInt32)
  | raw
  deriving DecidableEq

def utf8FeedFirst (c : Byte) : Fed × Utf8Feed :=
  if c < 0x80 then
    (.code c.toUInt32, .empty)
  else if c &&& 0xE0 = 0xC0 then
    (.more, ⟨[c], 1⟩)
  else if c &&& 0xF0 = 0xE0 then
    (.more, ⟨[c], 2⟩)
  else if c &&& 0xF8 = 0xF0 then
    (.more, ⟨[c], 3⟩)
  else
    (.raw, .empty)

def utf8Feed (st : Utf8Feed) (c : Byte) : Checked (Fed × Utf8Feed) :=
  if 0 < st.need ∧ c &&& 0xC0 = 0x80 ∧ st.buf.length < 4 then
    let st : Utf8Feed := ⟨st.buf ++ [c], st.need - 1⟩
    if st.need = 0 then do
      let (_, cp) ← utf8Decode st.buf st.buf.length
      return (.code cp, .empty)
    else
      return (.more, st)
  else
    -- A broken sequence is dropped.
    return utf8FeedFirst c

/--
The character for `putc_draw`, if there is one.
-/
def consoleFeed (st : Utf8Feed) (c : Byte) : Checked (Option Byte × Utf8Feed) := do
  let (r, st) ← utf8Feed st c
  match r with
  | .more => return (none, st)
  | .raw => return (some c, st)
  | .code cp =>
    let cell := utf8ToCell cp
    return (some (if cell ≠ 0 then cell else 63), st)

def consoleWrite (st : Utf8Feed) : Bytes → Checked (Bytes × Utf8Feed)
  | [] => pure ([], st)
  | c :: rest => do
    let (drawn, st) ← consoleFeed st c
    let (more, st) ← consoleWrite st rest
    return (drawn.toList ++ more, st)

section Spec

def utf8Walk : Bytes → Checked Bytes
  | [] => pure []
  | b :: t => do
    let (k, cp) ← utf8Decode (b :: t) (t.length + 1)
    let drawn ← utf8Walk (t.drop (k - 1))
    return (if cp = utf8Invalid then b else utf8ToCell cp) :: drawn
termination_by s => s.length
decreasing_by
  rw [List.length_drop, List.length_cons]
  omega

def Stray (b : Byte) : Prop :=
  Cont b ∨ 0xF8 ≤ b.toNat

/--
Text that only has characters and bytes that belong to none.
-/
inductive Drawable : Bytes → Prop where
  | nil : Drawable []
  | char {ch : Char} {t : Bytes} : ch.toNat ≠ 0 → Drawable t → Drawable (String.utf8EncodeChar ch ++ t)
  | raw {b : Byte} {t : Bytes} : Stray b → Drawable t → Drawable (b :: t)

variable {bs s t out : Bytes} {b : Byte} {cp : UInt32} {v : Nat}

theorem Utf8Seq.ne_invalid (h : Utf8Seq bs cp.toNat) : cp ≠ utf8Invalid := by
  rintro rfl
  have hvalid := h.valid
  revert hvalid
  decide

theorem utf8Walk_seq (h : Utf8Seq bs cp.toNat) (ht : utf8Walk t = .ok out)
    : utf8Walk (bs ++ t) = .ok (utf8ToCell cp :: out) := by
  cases bs with
  | nil => cases h
  | cons b tl =>
    obtain ⟨r, heq, hdecoded⟩ := @utf8Decode_decoded (b :: (tl ++ t)) ((tl ++ t).length + 1) (by omega) (by simp)
    rw [List.cons_append, utf8Walk, heq]
    cases hdecoded with
    | invalid hno =>
      have hlen := hno _ _ h ⟨t, rfl⟩
      rw [List.length_cons, List.length_append] at hlen
      omega
    | @seq bs c hseq hpre _ =>
      obtain ⟨rfl, hc⟩ := h.unique hseq ⟨t, rfl⟩ hpre
      obtain rfl := UInt32.toNat_inj.mp hc
      show (do
        let drawn ← utf8Walk ((tl ++ t).drop tl.length)
        return (if cp = utf8Invalid then b else utf8ToCell cp) :: drawn : Checked Bytes) = _
      rw [List.drop_left, ht, if_neg h.ne_invalid]
      rfl

theorem utf8Walk_raw (h : ∀ bs v, Utf8Seq bs v → ¬bs <+: b :: t) (ht : utf8Walk t = .ok out)
    : utf8Walk (b :: t) = .ok (b :: out) := by
  obtain ⟨r, heq, hdecoded⟩ := @utf8Decode_decoded (b :: t) (t.length + 1) (by omega) (by simp)
  rw [utf8Walk, heq]
  cases hdecoded with
  | seq hseq hpre _ => exact absurd hpre (h _ _ hseq)
  | invalid =>
    show (do
      let drawn ← utf8Walk (t.drop 0)
      return b :: drawn : Checked Bytes) = _
    rw [List.drop_zero, ht]
    rfl

theorem Stray.not_seq (h : Stray b) (hseq : Utf8Seq bs v) : ¬bs <+: b :: t := by
  intro hpre
  unfold Stray Cont at h
  cases hseq with
  | one =>
    obtain ⟨rfl, _⟩ := List.cons_prefix_cons.mp hpre
    omega
  | two =>
    obtain ⟨rfl, _⟩ := List.cons_prefix_cons.mp hpre
    omega
  | three =>
    obtain ⟨rfl, _⟩ := List.cons_prefix_cons.mp hpre
    omega
  | four =>
    obtain ⟨rfl, _⟩ := List.cons_prefix_cons.mp hpre
    omega

theorem utf8Walk_conts (h : ∀ b ∈ bs, Cont b) (ht : utf8Walk t = .ok out)
    : utf8Walk (bs ++ t) = .ok (bs ++ out) := by
  induction bs with
  | nil => exact ht
  | cons b bs ih =>
    obtain ⟨hb, hbs⟩ := List.forall_mem_cons.mp h
    exact utf8Walk_raw (fun _ _ hseq => Stray.not_seq (.inl hb) hseq) (ih hbs)

theorem drawable_seq (h : Utf8Seq bs v) : Drawable (bs ++ t) ↔ v ≠ 0 ∧ Drawable t := by
  constructor
  . intro hdraw
    generalize htext : bs ++ t = text at hdraw
    cases hdraw with
    | nil =>
      rw [List.append_eq_nil_iff] at htext
      rw [htext.1] at h
      cases h
    | @char ch t' hch ht' =>
      obtain ⟨rfl, rfl⟩ := h.unique (utf8Seq_encode ch) ⟨t, htext⟩ ⟨t', rfl⟩
      rw [List.append_right_inj] at htext
      rw [htext]
      exact ⟨hch, ht'⟩
    | raw hb ht' => exact absurd ⟨t, htext⟩ (hb.not_seq h)
  . rintro ⟨hv, ht⟩
    rw [← h.encode_eq]
    refine .char ?_ ht
    rw [h.toNat_ofNat]
    exact hv

theorem drawable_stray (h : Stray b) : Drawable (b :: t) ↔ Drawable t := by
  constructor
  . intro hdraw
    generalize htext : b :: t = text at hdraw
    cases hdraw with
    | nil => contradiction
    | @char ch t' hch ht' => exact absurd ⟨t', htext.symm⟩ (h.not_seq (utf8Seq_encode ch))
    | raw hb ht' =>
      obtain ⟨rfl, rfl⟩ := List.cons.inj htext
      exact ht'
  . exact .raw h

theorem not_drawable (h : ∀ bs v, Utf8Seq bs v → ¬bs <+: b :: t) (hb : ¬Stray b) : ¬Drawable (b :: t) := by
  intro hdraw
  generalize htext : b :: t = text at hdraw
  cases hdraw with
  | nil => contradiction
  | @char ch t' hch ht' => exact h _ _ (utf8Seq_encode ch) ⟨t', htext.symm⟩
  | raw hb' ht' =>
    obtain ⟨rfl, rfl⟩ := List.cons.inj htext
    exact hb hb'

end Spec

section Write

variable {bs s t out : Bytes} {b : Byte} {cp : UInt32} {v n : Nat} {st : Utf8Feed}

def drawBefore (drawn : Bytes) (r : Checked (Bytes × Utf8Feed)) : Checked (Bytes × Utf8Feed) := do
  let (more, st) ← r
  return (drawn ++ more, st)

def codeCell (cp : UInt32) : Byte :=
  if utf8ToCell cp ≠ 0 then utf8ToCell cp else 63

theorem consoleWrite_cons {st' : Utf8Feed} {drawn : Option Byte} (h : consoleFeed st b = .ok (drawn, st'))
    : consoleWrite st (b :: t) = drawBefore drawn.toList (consoleWrite st' t) := by
  rw [consoleWrite, h]
  rfl

theorem consoleFeed_cont (hb : Cont b) (hlen : st.buf.length < 4) (hneed : st.need = n + 2)
    : consoleFeed st b = .ok (none, ⟨st.buf ++ [b], n + 1⟩) := by
  unfold consoleFeed utf8Feed
  rw [if_pos ⟨by omega, (and_mask b).2.2.2.mpr hb, hlen⟩, hneed]
  rfl

theorem consoleFeed_last (hb : Cont b) (hlen : st.buf.length < 4) (hneed : st.need = 1)
    {r : Nat × UInt32} (hr : utf8Decode (st.buf ++ [b]) (st.buf ++ [b]).length = .ok r)
    : consoleFeed st b = .ok (some (codeCell r.2), .empty) := by
  unfold consoleFeed utf8Feed
  rw [if_pos ⟨by omega, (and_mask b).2.2.2.mpr hb, hlen⟩, hneed]
  dsimp only
  rw [hr]
  rfl

theorem consoleFeed_broken (hb : ¬Cont b) : consoleFeed st b = consoleFeed .empty b := by
  have hmask : ¬(b &&& 0xC0 = 0x80) := fun h => hb ((and_mask b).2.2.2.mp h)
  unfold consoleFeed utf8Feed
  rw [if_neg (fun h => hmask h.2.1), if_neg (fun h => hmask h.2.1)]

theorem consoleFeed_ascii (hb : b.toNat < 0x80)
    : consoleFeed .empty b = .ok (some (codeCell b.toUInt32), .empty) := by
  have hlow : b < 0x80 := UInt8.lt_iff_toNat_lt.mpr hb
  unfold consoleFeed utf8Feed utf8FeedFirst
  rw [if_neg (by simp [Utf8Feed.empty]), if_pos hlow]
  rfl

theorem consoleFeed_stray (hb : Stray b) : consoleFeed .empty b = .ok (some b, .empty) := by
  obtain ⟨htwo, hthree, hfour, _⟩ := and_mask b
  have hlow : ¬b < 0x80 := by
    rw [UInt8.lt_iff_toNat_lt]
    unfold Stray Cont at hb
    show ¬b.toNat < 128
    omega
  unfold Stray Cont at hb
  unfold consoleFeed utf8Feed utf8FeedFirst
  rw [if_neg (by simp [Utf8Feed.empty]), if_neg hlow, if_neg (by rw [htwo]; omega), if_neg (by rw [hthree]; omega),
    if_neg (by rw [hfour]; omega)]
  rfl

def announced (b : Byte) : Nat :=
  if b.toNat < 0xE0 then 1 else if b.toNat < 0xF0 then 2 else 3

theorem consoleFeed_lead (hlow : ¬b.toNat < 0x80) (hb : ¬Stray b)
    : consoleFeed .empty b = .ok (none, ⟨[b], announced b⟩) := by
  obtain ⟨htwo, hthree, hfour, _⟩ := and_mask b
  have hlow' : ¬b < 0x80 := fun h => hlow (UInt8.lt_iff_toNat_lt.mp h)
  unfold Stray Cont at hb
  unfold consoleFeed utf8Feed utf8FeedFirst announced
  rw [if_neg (by simp [Utf8Feed.empty]), if_neg hlow']
  by_cases h2 : b.toNat < 0xE0
  . rw [if_pos (htwo.mpr (by omega)), if_pos h2]
    rfl
  . rw [if_neg (by rw [htwo]; omega), if_neg h2]
    by_cases h3 : b.toNat < 0xF0
    . rw [if_pos (hthree.mpr (by omega)), if_pos h3]
      rfl
    . rw [if_neg (by rw [hthree]; omega), if_neg h3, if_pos (hfour.mpr (by omega))]
      rfl

@[simp]
theorem drawBefore_nil (r : Checked (Bytes × Utf8Feed)) : drawBefore [] r = r := by
  unfold drawBefore
  cases r with
  | error _ => rfl
  | ok r => rfl

/--
What becomes of a sequence that waits for bytes: it gets them all, or another byte ends it, or the text
ends.
-/
inductive Pending (st : Utf8Feed) (s : Bytes) : Prop where
  | full (bs t : Bytes) : s = bs ++ t → (∀ b ∈ bs, Cont b) → bs.length = st.need →
    (∀ r, utf8Decode (st.buf ++ bs) (st.buf ++ bs).length = .ok r →
      consoleWrite st s = drawBefore [codeCell r.2] (consoleWrite .empty t)) → Pending st s
  | broken (bs t : Bytes) (b : Byte) : s = bs ++ b :: t → (∀ b ∈ bs, Cont b) → bs.length < st.need → ¬Cont b →
    consoleWrite st s = consoleWrite .empty (b :: t) → Pending st s
  | waits (st' : Utf8Feed) : consoleWrite st s = .ok ([], st') → st'.need ≠ 0 → Pending st s

theorem pending_of_need (hlen : st.buf.length + st.need ≤ 4) (hneed : st.need = n + 1) (s : Bytes) : Pending st s := by
  induction s generalizing st n with
  | nil => exact .waits st rfl (by omega)
  | cons b s ih =>
    by_cases hb : Cont b
    . match n, hneed with
      | 0, hneed =>
        refine .full [b] s rfl (by simpa using hb) hneed.symm ?_
        intro r hr
        exact consoleWrite_cons (consoleFeed_last hb (by omega) hneed hr)
      | n + 1, hneed =>
        have hwrite : consoleWrite st (b :: s) = _ := consoleWrite_cons (consoleFeed_cont hb (by omega) hneed)
        rw [Option.toList_none, drawBefore_nil] at hwrite
        have hpending := @ih n ⟨st.buf ++ [b], n + 1⟩ (by simp; omega) rfl
        cases hpending with
        | full bs t hs hbs hlen hfull =>
          refine .full (b :: bs) t (by rw [hs]; rfl) (List.forall_mem_cons.mpr ⟨hb, hbs⟩) ?_ ?_
          . rw [List.length_cons, hlen, hneed]
          . intro r hr
            rw [List.append_cons] at hr
            rw [hwrite]
            exact hfull r hr
        | broken bs t c hs hbs hlen hc heq =>
          refine .broken (b :: bs) t c (by rw [hs]; rfl) (List.forall_mem_cons.mpr ⟨hb, hbs⟩) ?_ hc ?_
          . rw [List.length_cons]
            dsimp only at hlen
            omega
          . rw [hwrite, heq]
        | waits st' heq hst' => exact .waits st' (hwrite.trans heq) hst'
    . refine .broken [] s b rfl (by simp) (by rw [List.length_nil]; omega) hb ?_
      rw [consoleWrite, consoleFeed_broken hb, ← consoleWrite]

theorem Utf8Seq.length_tail (h : Utf8Seq (b :: t) v) (hb : ¬b.toNat < 0x80) : t.length = announced b := by
  unfold announced
  cases h with
  | one ha => exact absurd ha hb
  | two => rw [if_pos (by omega)]; rfl
  | three => rw [if_neg (by omega), if_pos (by omega)]; rfl
  | four => rw [if_neg (by omega), if_neg (by omega)]; rfl

theorem Utf8Seq.tail_cont (h : Utf8Seq (b :: t) v) : ∀ c ∈ t, Cont c := by
  cases h with
  | one => simp
  | two _ _ hb => simpa using hb
  | three _ _ hb hc => simpa using ⟨hb, hc⟩
  | four _ _ hb hc hd => simpa using ⟨hb, hc, hd⟩

theorem utf8ToCell_eq_zero (h : cp ≠ utf8Invalid) : utf8ToCell cp = 0 ↔ cp.toNat = 0 := by
  unfold utf8ToCell
  rw [if_neg h]
  split
  . next hlow =>
    rw [UInt32.lt_iff_toNat_lt] at hlow
    have hlow' : cp.toNat < 128 := hlow
    rw [← UInt8.toNat_inj, UInt32.toNat_toUInt8]
    show cp.toNat % 256 = 0 ↔ _
    omega
  . next hlow =>
    rw [UInt32.lt_iff_toNat_lt] at hlow
    have hlow' : ¬cp.toNat < 128 := hlow
    refine iff_of_false ?_ (by omega)
    dsimp only
    split
    . assumption
    . decide

theorem codeCell_eq (h : Utf8Seq bs cp.toNat) : codeCell cp = utf8ToCell cp ↔ cp.toNat ≠ 0 := by
  have hzero := utf8ToCell_eq_zero h.ne_invalid
  unfold codeCell
  split
  . next hcell => exact iff_of_true rfl (fun h => hcell (hzero.mpr h))
  . next hcell =>
    have hcell' : utf8ToCell cp = 0 := not_not.mp hcell
    rw [hcell']
    exact iff_of_false (by decide) (fun h => h (hzero.mp hcell'))

theorem announced_pos (b : Byte) : 0 < announced b := by
  unfold announced
  split
  . decide
  . split
    . decide
    . decide

theorem pending_lead (b : Byte) (t : Bytes) : Pending ⟨[b], announced b⟩ t := by
  have hpos := announced_pos b
  have hmax : announced b ≤ 3 := by
    unfold announced
    split
    . decide
    . split
      . decide
      . decide
  exact @pending_of_need (announced b - 1) ⟨[b], announced b⟩ (by simp; omega) (by dsimp only; omega) t

def DrawAgrees (s : Bytes) : Prop :=
  ∃ out st, consoleWrite .empty s = .ok (out, st)
    ∧ (st.need = 0 → ∃ w, utf8Walk s = .ok w ∧ out.length ≤ w.length ∧ (out = w ↔ Drawable s))

theorem drawAgrees_draw {c d : Byte} {p : Prop} (ht : DrawAgrees t)
    (hwrite : consoleWrite .empty s = drawBefore [c] (consoleWrite .empty t))
    (hwalk : ∀ w, utf8Walk t = .ok w → utf8Walk s = .ok (d :: w)) (hcell : c = d ↔ p)
    (hdraw : Drawable s ↔ p ∧ Drawable t)
    : DrawAgrees s := by
  obtain ⟨out, st, heq, ht⟩ := ht
  rw [heq] at hwrite
  refine ⟨c :: out, st, hwrite, fun hneed => ?_⟩
  obtain ⟨w, hw, hlen, hiff⟩ := ht hneed
  refine ⟨d :: w, hwalk w hw, Nat.succ_le_succ hlen, ?_⟩
  rw [List.cons.injEq, hcell, hiff, hdraw]

theorem drawAgrees_bad {drawn : Bytes} (ht : DrawAgrees t)
    (hwrite : consoleWrite .empty (b :: (bs ++ t)) = drawBefore drawn (consoleWrite .empty t))
    (hfew : drawn.length < bs.length + 1) (hbs : ∀ b ∈ bs, Cont b) (hb : ¬Stray b)
    (hno : ∀ bs' v, Utf8Seq bs' v → ¬bs' <+: b :: (bs ++ t))
    : DrawAgrees (b :: (bs ++ t)) := by
  obtain ⟨out, st, heq, ht⟩ := ht
  rw [heq] at hwrite
  refine ⟨drawn ++ out, st, hwrite, fun hneed => ?_⟩
  obtain ⟨w, hw, hlen, _⟩ := ht hneed
  refine ⟨b :: (bs ++ w), utf8Walk_raw hno (utf8Walk_conts hbs hw), ?_, ?_⟩
  . rw [List.length_append, List.length_cons, List.length_append]
    omega
  . refine iff_of_false ?_ (not_drawable hno hb)
    intro hsame
    have hlen' := congrArg List.length hsame
    rw [List.length_append, List.length_cons, List.length_append] at hlen'
    omega

theorem drawAgrees (s : Bytes) : DrawAgrees s := by
  induction hn : s.length using Nat.strong_induction_on generalizing s with
  | _ n ih =>
    subst hn
    cases s with
    | nil => exact ⟨[], .empty, rfl, fun _ => ⟨[], by rw [utf8Walk]; rfl, le_rfl, iff_of_true rfl .nil⟩⟩
    | cons b t =>
      by_cases hb : Stray b
      . have hwalk : ∀ w, utf8Walk t = .ok w → utf8Walk (b :: t) = .ok (b :: w) :=
          fun w hw => utf8Walk_raw (fun _ _ hseq => hb.not_seq hseq) hw
        refine drawAgrees_draw (ih t.length (Nat.lt_succ_self _) t rfl) (consoleWrite_cons (consoleFeed_stray hb)) hwalk
          (iff_of_true rfl trivial) ?_
        rw [drawable_stray hb, true_and]
      . by_cases hlow : b.toNat < 0x80
        . have hseq : Utf8Seq [b] b.toUInt32.toNat := .one hlow
          exact drawAgrees_draw (ih t.length (Nat.lt_succ_self _) t rfl) (consoleWrite_cons (consoleFeed_ascii hlow))
            (fun w hw => utf8Walk_seq hseq hw) (codeCell_eq hseq) (drawable_seq hseq)
        . have hwrite : consoleWrite .empty (b :: t) = _ := consoleWrite_cons (consoleFeed_lead hlow hb)
          rw [Option.toList_none, drawBefore_nil] at hwrite
          -- A sequence here would have all its bytes.
          have htail : ∀ bs v, Utf8Seq bs v → bs <+: b :: t →
              ∃ tl, bs = b :: tl ∧ tl <+: t ∧ tl.length = announced b := by
            intro bs v hseq hpre
            cases bs with
            | nil => cases hseq
            | cons a tl =>
              obtain ⟨rfl, htl⟩ := List.cons_prefix_cons.mp hpre
              exact ⟨tl, rfl, htl, hseq.length_tail hlow⟩
          cases pending_lead b t with
          | waits st heq hst => exact ⟨[], st, hwrite.trans heq, fun h => absurd h hst⟩
          | full bs t' ht hbs hlen hfull =>
            subst ht
            dsimp only at hlen
            have hrest := ih t'.length (by simp) t' rfl
            obtain ⟨r, hr, hdecoded⟩ := @utf8Decode_decoded (b :: bs) (b :: bs).length (by simp) le_rfl
            rw [hfull r hr] at hwrite
            cases hdecoded with
            | @seq bs' c hseq hpre _ =>
              obtain ⟨tl, rfl, htl, htlen⟩ := htail bs' _ hseq (hpre.trans ⟨t', rfl⟩)
              have hbs' : tl = bs := (List.cons_prefix_cons.mp hpre).2.eq_of_length (htlen.trans hlen.symm)
              subst hbs'
              exact drawAgrees_draw hrest hwrite (fun w hw => utf8Walk_seq hseq hw) (codeCell_eq hseq)
                (drawable_seq hseq)
            | invalid hno =>
              refine drawAgrees_bad hrest hwrite ?_ hbs hb ?_
              . rw [hlen]
                exact Nat.succ_lt_succ (announced_pos b)
              . intro bs' v hseq hpre
                obtain ⟨tl, rfl, htl, htlen⟩ := htail bs' v hseq hpre
                have hbs' : tl = bs := by
                  rw [List.prefix_iff_eq_take.mp htl, htlen, ← hlen, List.take_left]
                subst hbs'
                exact hno _ v hseq List.prefix_rfl le_rfl
          | broken bs t' c ht hbs hlen hc heq =>
            subst ht
            rw [heq, ← drawBefore_nil (consoleWrite .empty (c :: t'))] at hwrite
            refine drawAgrees_bad (ih (c :: t').length (by simp) (c :: t') rfl) hwrite (by simp) hbs hb ?_
            intro bs' v hseq hpre
            obtain ⟨tl, rfl, htl, htlen⟩ := htail bs' v hseq hpre
            -- The byte that ends the sequence would belong to it.
            have hlead : bs ++ [c] <+: tl := by
              refine List.prefix_of_prefix_length_le ⟨t', ?_⟩ htl ?_
              . rw [List.append_assoc]
                rfl
              . rw [List.length_append, htlen]
                exact hlen
            exact hc (hseq.tail_cont c (hlead.subset (by simp)))

end Write

/--
Text that does not end inside of a sequence is drawn as the decoder finds it in the whole text just if it
has no NUL and no lead byte that starts no sequence.
-/
theorem console_iff (s : Bytes)
    : ∃ out st, consoleWrite .empty s = .ok (out, st)
      ∧ (st.need = 0 → ∃ w, utf8Walk s = .ok w ∧ (out = w ↔ Drawable s)) := by
  obtain ⟨out, st, heq, hwalk⟩ := drawAgrees s
  refine ⟨out, st, heq, fun hneed => ?_⟩
  obtain ⟨w, hw, _, hiff⟩ := hwalk hneed
  exact ⟨w, hw, hiff⟩

/--
The first byte of a sequence that a letter breaks is not drawn.
-/
theorem console_broken
    : ¬∀ s out st, consoleWrite .empty s = .ok (out, st) → st.need = 0 → utf8Walk s = .ok out := by
  intro h
  have hwalk := h [0xC3, 0x41] [0x41] .empty rfl rfl
  have hlast : utf8Walk [0x41] = .ok [0x41] :=
    @utf8Walk_seq [0x41] [] [] 0x41 (.one (by decide)) (by rw [utf8Walk]; rfl)
  rw [utf8Walk] at hwalk
  change (do
    let drawn ← utf8Walk [0x41]
    return 0xC3 :: drawn : Checked Bytes) = _ at hwalk
  rw [hlast] at hwalk
  exact absurd (Except.ok.inj hwalk) (by decide)

end TanjaOS
