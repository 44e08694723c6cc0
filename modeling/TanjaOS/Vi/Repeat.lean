import TanjaOS.Vi.Transfer

/-!
What has been typed is typed again: counts in front of an insertion, and `.` behind it.
-/

open Lib

namespace TanjaOS

def keyByte (key : Int) : Option Byte :=
  if key = 0x84 ∨ key = 10 then some 10
  else if key = 9 then some 9
  else if 32 ≤ key ∧ key ≤ 126 then some (UInt8.ofNat key.toNat)
  else none

namespace ViState

def insertSession (v : ViState) (keys : List Int) : ViState :=
  (keys.foldl insertKey (v.gEnterInsert true)).insertKey 27

def timesTyped (v : ViState) : Nat :=
  (if v.stCount = 0 then 1 else v.stCount).toNat

end ViState

/--
`n` copies of `w`.
-/
def copies (n : Nat) (w : Bytes) : Bytes :=
  (List.replicate n w).flatten

/--
The text typed at `v` is there `n` times, and so it is after `.` wherever that is used.
-/
structure Reproduced (v w : ViState) (s : Bytes) (n : Nat) : Prop where
  typed : w.eb.text = v.eb.text.take v.gPos.toNat ++ copies n s ++ v.eb.text.drop v.gPos.toNat
  again : ∀ u : ViState, GapInv u.eb → u.eb.InText u.gPos → u.lastch = w.lastch →
    u.eb.text.length + n * s.length ≤ maxText - 1 →
    u.replayLast.map (·.eb.text)
      = some (u.eb.text.take u.gPos.toNat ++ copies n s ++ u.eb.text.drop u.gPos.toNat)

section Copies

variable {u s t : Bytes} {n : Nat}

theorem copies_succ (n : Nat) (s : Bytes) : copies (n + 1) s = s ++ copies n s := by
  unfold copies
  rw [List.replicate_succ, List.flatten_cons]

theorem copies_succ' (n : Nat) (s : Bytes) : copies (n + 1) s = copies n s ++ s := by
  unfold copies
  rw [List.replicate_succ', List.flatten_append, List.flatten_singleton]

theorem length_copies (n : Nat) (s : Bytes) : (copies n s).length = n * s.length := by
  unfold copies
  rw [List.length_flatten, List.map_replicate, List.sum_replicate_nat]

theorem copies_inj (hlen : s.length = t.length) : copies n s = copies n t ↔ n = 0 ∨ s = t := by
  cases n with
  | zero => simp [copies]
  | succ n =>
    rw [copies_succ, copies_succ]
    constructor
    . intro h
      exact Or.inr (List.append_inj_left h hlen)
    . rintro (h | rfl)
      . omega
      . rfl

theorem copies_shift (n : Nat) (x : Byte) (s : Bytes)
    : copies n (x :: s) ++ [x] = x :: copies n (s ++ [x]) := by
  induction n with
  | zero => rfl
  | succ n ih =>
    rw [copies_succ, copies_succ, List.append_assoc, ih]
    simp

end Copies

namespace EditorBuffer

variable {eb : EditorBuffer}

theorem insertByte_room (h : GapInv eb) {k : Nat} (hk : k ≤ eb.text.length) (ch : Byte)
    (hroom : eb.text.length < maxText - 1)
    : (eb.insertByte k ch).1 ≠ 0 ∧ GapInv (eb.insertByte k ch).2
        ∧ (eb.insertByte k ch).2.text = eb.text.take k ++ [ch] ++ eb.text.drop k := by
  have hlen := length_text h
  obtain ⟨hinv, htext⟩ := insertByte_text k ch h
  refine ⟨?_, hinv, ?_⟩
  . rw [ne_eq, insertByte_refuses_iff (k : Int) ch h]
    omega
  . rw [htext]
    unfold insertOne insertAt
    have hmin : (min (k : Int) eb.text.length).toNat = k := by omega
    rw [if_neg (by omega), hmin]

theorem cut_insert {l x r : Bytes} {k : Nat} (hk : k ≤ l.length)
    : (l.take k ++ x ++ r).take k = l.take k ∧ (l.take k ++ x ++ r).drop k = x ++ r := by
  have hfront : (l.take k).length = k := by
    rw [List.length_take]
    omega
  rw [List.append_assoc]
  exact ⟨List.take_left' hfront, List.drop_left' hfront⟩

theorem foldl_insertByte (h : GapInv eb) {k : Nat} (hk : k ≤ eb.text.length) {s : Bytes}
    (hroom : eb.text.length + s.length ≤ maxText - 1)
    : GapInv (s.foldl (fun eb ch => (eb.insertByte k ch).2) eb)
        ∧ (s.foldl (fun eb ch => (eb.insertByte k ch).2) eb).text
          = eb.text.take k ++ s.reverse ++ eb.text.drop k := by
  induction s generalizing eb with
  | nil =>
    refine ⟨h, ?_⟩
    rw [List.reverse_nil, List.append_nil, List.take_append_drop]
    rfl
  | cons ch s ih =>
    rw [List.length_cons] at hroom
    obtain ⟨-, hinv, htext⟩ := insertByte_room h hk ch (by omega)
    have hfront : (eb.text.take k).length = k := by
      rw [List.length_take]
      omega
    have hsize := congrArg List.length htext
    rw [List.length_append, List.length_append, hfront, List.length_singleton, List.length_drop] at hsize
    obtain ⟨hinv', htext'⟩ := ih hinv (by omega) (by omega)
    rw [List.foldl_cons]
    refine ⟨hinv', ?_⟩
    rw [htext', htext, (cut_insert hk).1, (cut_insert hk).2]
    simp

theorem insertHere_text (h : GapInv eb) {k : Nat} (hk : k ≤ eb.text.length) {s : Bytes} {n : Nat}
    (hroom : eb.text.length + n * s.length ≤ maxText - 1)
    : (ViState.insertHere eb k s n).text = eb.text.take k ++ copies n s.reverse ++ eb.text.drop k := by
  induction n generalizing eb with
  | zero =>
    unfold copies
    simp [ViState.insertHere]
  | succ n ih =>
    rw [Nat.succ_mul] at hroom
    obtain ⟨hinv, htext⟩ := foldl_insertByte h hk (s := s) (by omega)
    have hfront : (eb.text.take k).length = k := by
      rw [List.length_take]
      omega
    have hsize := congrArg List.length htext
    rw [List.length_append, List.length_append, hfront, List.length_reverse, List.length_drop] at hsize
    unfold ViState.insertHere
    rw [ih hinv (by omega) (by omega), htext, (cut_insert hk).1, (cut_insert hk).2, copies_succ']
    simp

end EditorBuffer

namespace ViState

variable {v : ViState} {w : Bytes}

/--
`w` has been typed since `v`.
-/
structure Typing (v x : ViState) (w : Bytes) : Prop where
  inv : GapInv x.eb
  text : x.eb.text = v.eb.text.take v.gPos.toNat ++ w ++ v.eb.text.drop v.gPos.toNat
  pos : x.gPos = v.gPos + w.length
  sess : x.sessBuf = w
  count : x.sessCount = v.sessCount
  optAi : x.optAi = false

theorem insertKey_typed {key : Int} {b : Byte} (hkey : keyByte key = some b) (hai : v.optAi = false)
    : v.insertKey key = v.typeByte b ∧ b.toNat < 128 := by
  unfold keyByte at hkey
  unfold insertKey
  split at hkey
  . next hnl =>
    obtain rfl := Option.some.inj hkey
    rw [if_neg (by omega), if_neg (by omega), if_neg (by omega), if_pos hnl]
    refine ⟨?_, by decide⟩
    unfold insertEnter
    dsimp only
    rw [if_neg]
    rintro ⟨-, hon⟩
    have hoff : (v.typeByte 10).optAi = false := by
      unfold typeByte
      dsimp only
      split
      . exact hai
      . exact hai
    rw [hoff] at hon
    exact absurd hon (by decide)
  . next hnl =>
    split at hkey
    . next htab =>
      obtain rfl := Option.some.inj hkey
      rw [if_neg (by omega), if_neg (by omega), if_neg (by omega), if_neg hnl, if_pos htab]
      exact ⟨rfl, by decide⟩
    . next htab =>
      split at hkey
      . next hprint =>
        obtain rfl := Option.some.inj hkey
        rw [if_neg (by omega), if_neg (by omega), if_neg (by omega), if_neg hnl, if_neg htab, if_pos hprint]
        refine ⟨rfl, ?_⟩
        rw [UInt8.toNat_ofNat']
        omega
      . exact absurd hkey (by simp)

theorem Typing.step {x : ViState} (h : Typing v x w) (hpos : v.eb.InText v.gPos) (hv : GapInv v.eb) {key : Int}
    {b : Byte} (hkey : keyByte key = some b) (hlen : w.length < 4095)
    (hroom : v.eb.text.length + w.length < maxText - 1)
    : Typing v (x.insertKey key) (w ++ [b]) := by
  have hvlen := EditorBuffer.length_text hv
  have := hpos.nonneg
  have := hpos.le
  have hfront : (v.eb.text.take v.gPos.toNat).length = v.gPos.toNat := by
    rw [List.length_take]
    omega
  have hsize := congrArg List.length h.text
  rw [List.length_append, List.length_append, hfront, List.length_drop] at hsize
  have hat : x.gPos = ((v.gPos.toNat + w.length : Nat) : Int) := by
    rw [h.pos]
    omega
  obtain ⟨hdone, hinv, htext⟩ := EditorBuffer.insertByte_room h.inv (k := v.gPos.toNat + w.length) (by omega) b
    (by omega)
  rw [(insertKey_typed hkey h.optAi).1]
  unfold typeByte
  dsimp only
  rw [hat, if_neg hdone]
  refine ⟨hinv, ?_, ?_, ?_, h.count, h.optAi⟩
  . change (x.eb.insertByte _ b).2.text = _
    have hcut : (v.eb.text.take v.gPos.toNat ++ w).length = v.gPos.toNat + w.length := by
      rw [List.length_append, hfront]
    rw [htext, h.text, ← hcut, List.take_left, List.drop_left]
    simp
  . change ((v.gPos.toNat + w.length : Nat) : Int) + 1 = _
    rw [List.length_append, List.length_singleton]
    omega
  . change (if x.sessBuf.length < 4095 then x.sessBuf ++ [b] else x.sessBuf) = _
    rw [h.sess, if_pos hlen]

theorem Typing.run {keys : List Int} {x : ViState} {done left : Bytes} (h : Typing v x done)
    (hpos : v.eb.InText v.gPos) (hv : GapInv v.eb) (hkeys : keys.map keyByte = left.map some)
    (hlen : (done ++ left).length ≤ 4095) (hroom : v.eb.text.length + (done ++ left).length ≤ maxText - 1)
    : Typing v (keys.foldl insertKey x) (done ++ left) := by
  induction keys generalizing x done left with
  | nil =>
    rw [List.map_nil] at hkeys
    have hnil : left = [] := List.map_eq_nil_iff.mp hkeys.symm
    rw [hnil, List.append_nil]
    exact h
  | cons key keys ih =>
    cases left with
    | nil => exact absurd hkeys (List.cons_ne_nil _ _)
    | cons b left =>
      rw [List.map_cons, List.map_cons, List.cons_eq_cons] at hkeys
      have hcat : done ++ b :: left = (done ++ [b]) ++ left := by simp
      rw [hcat] at hlen hroom ⊢
      rw [List.length_append, List.length_append, List.length_singleton] at hlen hroom
      rw [List.foldl_cons]
      apply ih (h.step hpos hv hkeys.1 (by omega) (by omega)) hkeys.2
      . rw [List.length_append, List.length_append, List.length_singleton]
        omega
      . rw [List.length_append, List.length_append, List.length_singleton]
        omega

section Escape

variable {x : ViState} {u : Bytes} {b : Byte} {n : Nat}

theorem stepBackward_ascii {eb : EditorBuffer} {i : Nat} (hb : b.toNat < 128) (hat : eb.textAt i = b)
    : eb.stepBackward (i + 1 : Nat) = i := by
  have hcont : ¬(eb.textAt i &&& 0xC0 = 0x80) := by
    rw [hat, (and_mask b).2.2.2]
    unfold Cont
    omega
  have hlast : ((i + 1 : Nat) : Int) - 1 = i := by omega
  unfold EditorBuffer.stepBackward
  rw [if_neg (by omega), hlast]
  cases hfuel : (i : Int).toNat with
  | zero => rfl
  | succ fuel =>
    unfold scanDown
    rw [if_neg (by simpa using hcont)]

theorem insertEsc_lastch (h : Typing v x w)
    : x.insertEsc.lastch = { x.lastch with kind := .ins, text := w, count := v.sessCount } := by
  unfold insertEsc endSession
  dsimp only
  split
  . dsimp only
    rw [h.sess, h.count]
  . dsimp only
    rw [h.sess, h.count]

theorem insertEsc_nil (h : Typing v x []) : x.insertEsc.eb = x.eb := by
  unfold insertEsc endSession
  dsimp only
  rw [if_neg (fun hrep => hrep.2 h.sess)]

theorem insertEsc_text (h : Typing v x (u ++ [b])) (hpos : v.eb.InText v.gPos) (hv : GapInv v.eb)
    (hb : b.toNat < 128) (hn : v.sessCount = n) (hone : 1 ≤ n)
    (hroom : v.eb.text.length + n * (u ++ [b]).length ≤ maxText - 1)
    : x.insertEsc.eb.text = v.eb.text.take v.gPos.toNat ++ (u ++ copies (n - 1) (u ++ [b]).reverse ++ [b])
        ++ v.eb.text.drop v.gPos.toNat := by
  have hvlen := EditorBuffer.length_text hv
  have := hpos.nonneg
  have := hpos.le
  have htext := h.text
  obtain ⟨m, rfl⟩ : ∃ m, n = m + 1 := ⟨n - 1, by omega⟩
  rw [Nat.succ_mul] at hroom
  have hfront : (v.eb.text.take v.gPos.toNat ++ u).length = v.gPos.toNat + u.length := by
    rw [List.length_append, List.length_take]
    omega
  have hsplit : x.eb.text = v.eb.text.take v.gPos.toNat ++ u ++ [b] ++ v.eb.text.drop v.gPos.toNat := by
    rw [htext]
    simp
  have hsize := congrArg List.length hsplit
  rw [List.length_append, List.length_append, hfront, List.length_singleton, List.length_drop] at hsize
  have hxlen := EditorBuffer.length_text h.inv
  have hat : x.eb.textAt ((v.gPos.toNat + u.length : Nat) : Int) = b := by
    have hget : x.eb.text[v.gPos.toNat + u.length]? = some b := by
      rw [hsplit, List.append_assoc, ← hfront, List.getElem?_append_right (Nat.le_refl _), Nat.sub_self]
      rfl
    rw [EditorBuffer.getElem?_text, if_pos (by omega), Option.some.injEq] at hget
    exact hget
  have hcur : x.gPos = ((v.gPos.toNat + u.length + 1 : Nat) : Int) := by
    rw [h.pos, List.length_append, List.length_singleton]
    omega
  have htake : x.eb.text.take (v.gPos.toNat + u.length) = v.eb.text.take v.gPos.toNat ++ u := by
    rw [hsplit, List.append_assoc]
    exact List.take_left' hfront
  have hdrop : x.eb.text.drop (v.gPos.toNat + u.length) = [b] ++ v.eb.text.drop v.gPos.toNat := by
    rw [hsplit, List.append_assoc]
    exact List.drop_left' hfront
  unfold insertEsc endSession
  dsimp only
  rw [h.count, hn, h.sess, hcur, stepBackward_ascii hb hat]
  by_cases hrep : 1 < ((m + 1 : Nat) : Int) ∧ u ++ [b] ≠ []
  . rw [if_pos hrep]
    dsimp only
    have hm : (((m + 1 : Nat) : Int) - 1).toNat = m := by omega
    have hx : x.eb.text.length + m * (u ++ [b]).length ≤ maxText - 1 := by
      rw [List.length_append, List.length_singleton] at hroom ⊢
      omega
    rw [hm, Nat.add_sub_cancel, EditorBuffer.insertHere_text h.inv (by omega) hx, htake, hdrop]
    simp
  . have hzero : m = 0 := by
      by_contra hne
      exact hrep ⟨by omega, by simp⟩
    subst hzero
    rw [if_neg hrep]
    dsimp only
    rw [htext]
    unfold copies
    simp

theorem keyByte_lt {key : Int} (h : keyByte key = some b) : b.toNat < 128 := by
  unfold keyByte at h
  split at h
  . obtain rfl := Option.some.inj h
    decide
  . split at h
    . obtain rfl := Option.some.inj h
      decide
    . split at h
      . obtain rfl := Option.some.inj h
        rw [UInt8.toNat_ofNat']
        omega
      . exact absurd h (by simp)

theorem typed_lt {keys : List Int} (h : keys.map keyByte = w.map some) : ∀ c ∈ w, c.toNat < 128 := by
  intro c hc
  have hmem : some c ∈ keys.map keyByte := by
    rw [h]
    exact List.mem_map_of_mem hc
  obtain ⟨key, -, hkey⟩ := List.mem_map.mp hmem
  exact keyByte_lt hkey

end Escape

section Again

variable {x : ViState} {n : Nat}

theorem replayLast_ins (h : GapInv x.eb) (hpos : x.eb.InText x.gPos) (hkind : x.lastch.kind = .ins)
    (htext : x.lastch.text = w) (hn : x.lastch.count = n)
    (hroom : x.eb.text.length + n * w.length ≤ maxText - 1)
    : x.replayLast.map (·.eb.text)
        = some (x.eb.text.take x.gPos.toNat ++ copies n w.reverse ++ x.eb.text.drop x.gPos.toNat) := by
  have hlen := EditorBuffer.length_text h
  have := hpos.le
  have hcur : x.gPos = (x.gPos.toNat : Int) := by
    have := hpos.nonneg
    omega
  have hhere := EditorBuffer.insertHere_text h (k := x.gPos.toNat) (by omega) hroom
  rw [← hcur] at hhere
  unfold replayLast
  rw [hkind]
  change some (insertHere x.eb x.gPos x.lastch.text x.lastch.count.toNat).text = _
  rw [htext, hn, Int.toNat_natCast, hhere]

end Again

theorem esc_copies_iff {u : Bytes} {b : Byte} {n : Nat} (hone : 1 ≤ n)
    : u ++ copies (n - 1) (u ++ [b]).reverse ++ [b] = copies n (u ++ [b]) ↔ n = 1 ∨ u.reverse = u := by
  obtain ⟨m, rfl⟩ : ∃ m, n = m + 1 := ⟨n - 1, by omega⟩
  rw [Nat.add_sub_cancel, copies_succ, List.reverse_append, List.reverse_singleton, List.singleton_append,
    List.append_assoc, copies_shift, List.append_assoc, List.append_right_inj, List.singleton_append,
    List.cons_inj_right, copies_inj (by simp), List.append_left_inj]
  simp

end ViState

/--
Escape puts the further copies in front of the last byte that was typed, and byte after byte at one place,
as `.` does.
-/
theorem insertSession_reproduces_iff (v : ViState) (keys : List Int) (w : Bytes) (h : GapInv v.eb)
    (hpos : v.eb.InText v.gPos) (hai : v.optAi = false) (hcount : 0 ≤ v.stCount)
    (hkeys : keys.map keyByte = w.map some) (hlen : w.length ≤ 4095)
    (hroom : v.eb.text.length + v.timesTyped * w.length ≤ maxText - 1)
    : Reproduced v (v.insertSession keys) w v.timesTyped
        ↔ w.reverse = w ∧ (v.timesTyped = 1 ∨ w.dropLast.reverse = w.dropLast) := by
  have hone : 1 ≤ v.timesTyped := by
    unfold ViState.timesTyped
    split <;> omega
  have hn : (v.gEnterInsert true).sessCount = v.timesTyped := by
    unfold ViState.gEnterInsert ViState.beginInsertSession ViState.timesTyped
    dsimp only
    by_cases hzero : v.stCount = 0
    . rw [if_neg (fun hset => hset.2 hzero), if_pos hzero]
      rfl
    . rw [if_pos ⟨rfl, hzero⟩, if_neg hzero]
      change v.stCount = ((v.stCount.toNat : Nat) : Int)
      omega
  have hstart : ViState.Typing (v.gEnterInsert true) (v.gEnterInsert true) [] := by
    refine ⟨h, ?_, ?_, rfl, rfl, hai⟩
    . rw [List.append_nil, List.take_append_drop]
    . simp
  have hle : w.length ≤ v.timesTyped * w.length := Nat.le_mul_of_pos_left _ hone
  have htyped := hstart.run hpos h hkeys hlen (by rw [List.nil_append]; change v.eb.text.length + _ ≤ _; omega)
  rw [List.nil_append] at htyped
  have hlast : (v.insertSession keys).lastch.kind = .ins ∧ (v.insertSession keys).lastch.text = w
      ∧ (v.insertSession keys).lastch.count = v.timesTyped := by
    have hesc := ViState.insertEsc_lastch htyped
    rw [hn] at hesc
    change (ViState.insertEsc _).lastch.kind = _ ∧ (ViState.insertEsc _).lastch.text = _
      ∧ (ViState.insertEsc _).lastch.count = _
    rw [hesc]
    exact ⟨rfl, rfl, rfl⟩
  obtain ⟨hkind, htext, hagain⟩ := hlast
  have htypedIff : (v.insertSession keys).eb.text
        = v.eb.text.take v.gPos.toNat ++ copies v.timesTyped w ++ v.eb.text.drop v.gPos.toNat
      ↔ v.timesTyped = 1 ∨ w.dropLast.reverse = w.dropLast := by
    change (ViState.insertEsc _).eb.text = _ ↔ _
    obtain rfl | ⟨u, b, rfl⟩ := List.eq_nil_or_concat' w
    . have hnone : copies v.timesTyped [] = [] := by
        unfold copies
        simp
      rw [ViState.insertEsc_nil htyped, htyped.text, hnone]
      exact ⟨fun _ => Or.inr rfl, fun _ => rfl⟩
    . have hb := ViState.typed_lt hkeys b (by simp)
      have hesc := @ViState.insertEsc_text (v.gEnterInsert true) _ u b v.timesTyped htyped hpos h hb hn hone hroom
      rw [hesc]
      change v.eb.text.take v.gPos.toNat ++ _ ++ v.eb.text.drop v.gPos.toNat = _ ↔ _
      rw [List.append_left_inj, List.append_right_inj, ViState.esc_copies_iff hone, List.dropLast_concat]
  constructor
  . rintro ⟨htimes, hdot⟩
    refine ⟨?_, htypedIff.mp htimes⟩
    -- `.` in an empty text
    obtain ⟨hinv, hempty⟩ := @editing_text [] (by decide)
    obtain ⟨x, hx⟩ : ∃ x, x = { editing [] with lastch := (v.insertSession keys).lastch } := ⟨_, rfl⟩
    have hxinv : GapInv x.eb := by
      rw [hx]
      exact hinv
    have hxtext : x.eb.text = [] := by
      rw [hx]
      exact hempty
    have hxpos : x.eb.InText x.gPos := by
      have := EditorBuffer.len_nonneg hxinv
      have hzero : x.gPos = 0 := by
        rw [hx]
        rfl
      rw [hzero]
      exact ⟨Int.le_refl 0, this⟩
    have hxlast : x.lastch = (v.insertSession keys).lastch := by
      rw [hx]
    have hxroom : x.eb.text.length + v.timesTyped * w.length ≤ maxText - 1 := by
      rw [hxtext, List.length_nil]
      omega
    have hgot := hdot x hxinv hxpos hxlast hxroom
    rw [ViState.replayLast_ins hxinv hxpos (hxlast ▸ hkind) (hxlast ▸ htext) (hxlast ▸ hagain) hxroom,
      Option.some.injEq, List.append_left_inj, List.append_right_inj, copies_inj (by simp)] at hgot
    obtain hzero | heq := hgot
    . omega
    . exact heq
  . rintro ⟨hrev, htimes⟩
    refine ⟨htypedIff.mpr htimes, ?_⟩
    intro x hxinv hxpos hxlast hxroom
    rw [ViState.replayLast_ins hxinv hxpos (hxlast ▸ hkind) (hxlast ▸ htext) (hxlast ▸ hagain) hxroom, hrev]

/--
`3iaa` and Escape between `x` and `y`.
-/
theorem insertSession_reproduces_letters
    : Reproduced { editing [120, 121] with stCount := 3, gPos := 1 }
        ({ editing [120, 121] with stCount := 3, gPos := 1 }.insertSession [97, 97]) [97, 97] 3 := by
  obtain ⟨hinv, htext⟩ := @editing_text [120, 121] (by decide)
  have hlen : (editing [120, 121]).eb.len = 2 := by
    have := EditorBuffer.length_text hinv
    rw [htext] at this
    simpa using this.symm
  have hpos : (editing [120, 121]).eb.InText 1 := ⟨by decide, by rw [hlen]; decide⟩
  have hroom : (editing [120, 121]).eb.text.length + 3 * 2 ≤ maxText - 1 := by
    rw [htext]
    decide
  exact (insertSession_reproduces_iff { editing [120, 121] with stCount := 3, gPos := 1 } [97, 97] [97, 97] hinv
    hpos rfl (by decide) (by decide) (by decide) hroom).mpr (by decide)

/--
`2iabc` and Escape leave `abcbac`.
-/
theorem not_insertSession_reproduces
    : ¬∀ (v : ViState) (keys : List Int) (w : Bytes), GapInv v.eb → v.eb.InText v.gPos → v.optAi = false →
        0 ≤ v.stCount → keys.map keyByte = w.map some → w.length ≤ 4095 →
        v.eb.text.length + v.timesTyped * w.length ≤ maxText - 1 →
        Reproduced v (v.insertSession keys) w v.timesTyped := by
  intro hall
  obtain ⟨hinv, htext⟩ := @editing_text [] (by decide)
  have hpos : (editing []).eb.InText 0 := ⟨Int.le_refl 0, EditorBuffer.len_nonneg hinv⟩
  have hroom : (editing []).eb.text.length + 2 * 3 ≤ maxText - 1 := by
    rw [htext]
    decide
  have htyped := (hall { editing [] with stCount := 2 } [97, 98, 99] [97, 98, 99] hinv hpos rfl (by decide)
    (by decide) (by decide) hroom).typed
  revert htyped
  decide +kernel

end TanjaOS
