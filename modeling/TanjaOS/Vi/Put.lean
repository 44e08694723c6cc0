import TanjaOS.Vi.Transfer

/-!
Text that has been deleted or yanked is put back.
-/

open Lib

namespace TanjaOS

/--
The deletions of characters: `d` with a motion, `x`, `X` and `D`.
-/
inductive CharDelete where
  | op (m : ViMotion) (count : Int) (h : m.mode ≠ .line)
  | forward (count : Int)
  | backward (count : Int)
  | toEnd

def CharDelete.exec (k : CharDelete) (v : ViState) (reg : Int) : ViState :=
  match k with
  | op m count _ => v.applyOp .d count m reg
  | forward count => v.deleteForward count reg
  | backward count => v.deleteBackward count reg
  | toEnd => v.deleteToEnd reg

/--
The yanks of lines: `y` with a motion, where only the line matters that it leads to, and `:y`.
-/
inductive LineYank where
  | op (targetLine : Int)
  | ex (a1 a2 : Nat)

namespace ViState

/--
The command `:y`, from the addresses on.
-/
def exYank (v : ViState) (a1 a2 : Int) : ViState :=
  let (lo, hi) := v.eb.lineRange a1 a2
  let v := v.regStoreBoth 34 (v.eb.extractLines lo hi) true
  { v with gPos := v.eb.firstNonblank lo, viMsg := some "yanked lines" }

end ViState

namespace LineYank

def exec (k : LineYank) (v : ViState) (reg : Int) : ViState :=
  match k with
  | op targetLine => v.opLinewise .y targetLine reg
  | ex a1 a2 => v.exYank a1 a2

def reg (k : LineYank) (reg : Int) : Int :=
  match k with
  | op _ => reg
  | ex _ _ => 34

/--
The two lines at the ends, for `y` the cursor's line and the target, which is taken to be in the text.
-/
def ends (k : LineYank) (v : ViState) : Int × Int :=
  match k with
  | op targetLine => (v.eb.lineNumberAt v.gPos, max 0 (min targetLine (v.eb.totalLines - 1)))
  | ex a1 a2 => (a1, a2)

def first (k : LineYank) (v : ViState) : Nat :=
  (min (k.ends v).1 (k.ends v).2).toNat

def last (k : LineYank) (v : ViState) : Nat :=
  (max (k.ends v).1 (k.ends v).2).toNat

def yanked (k : LineYank) (v : ViState) : Bytes :=
  linesText 10 (((linesOf 10 v.eb.text).drop (k.first v)).take (k.last v + 1 - k.first v))

end LineYank

/--
The text with whole lines put behind line `a`.
-/
def putBehind (t : Bytes) (a : Nat) (ls : Bytes) : Bytes :=
  let front := linesText 10 ((linesOf 10 t).take (a + 1))
  if ls = [] then t else front ++ ls ++ t.drop front.length

namespace EditorBuffer

variable {eb : EditorBuffer}

theorem insertCopies_one {pos : Int} (hpos : 0 ≤ pos) (hle : pos < 2 ^ 31) (data : Bytes)
    : eb.insertCopies pos data 0 1 = (eb.insertBytes pos data).2 := by
  unfold insertCopies insertCopies
  rw [Int.zero_mul, int32_eq (x := 0) (by decide) (by decide), Int.add_zero, int32_eq (by omega) (by omega)]

section Cursor

theorem lineStart_of_closed (h : GapInv eb) {i : Nat} (hi : i ≤ eb.text.length) (hclosed : Closed 10 (eb.text.take i))
    : eb.lineStart i = i := by
  have hlen := length_text h
  unfold lineStart
  rw [Int.toNat_natCast]
  cases i with
  | zero => rfl
  | succ i =>
    obtain hnil | hlast := hclosed
    . simp only [List.take_eq_nil_iff, Nat.add_eq_zero_iff, one_ne_zero, and_false, false_or] at hnil
      rw [hnil, List.length_nil] at hi
      omega
    . rw [List.getLast?_eq_getElem?, List.length_take, Nat.min_eq_left hi, Nat.add_sub_cancel,
        List.getElem?_take_of_lt (by omega), getElem?_text, if_pos (by omega), Option.some.injEq] at hlast
      have hbefore : ((i + 1 : Nat) : Int) - 1 = i := by omega
      unfold scanDown
      rw [hbefore, hlast]
      rfl

theorem lineEnd_stops {p : Int} (h : eb.lineEnd p < eb.len) : eb.textAt (eb.lineEnd p) = 10 := by
  have hlow := le_lineEnd eb p
  have hin : scanUp (fun i => eb.textAt i ≠ 10) (eb.len - p).toNat p < p + (eb.len - p).toNat := by
    unfold lineEnd at h hlow
    omega
  have hstop : decide (eb.textAt (eb.lineEnd p) ≠ 10) = false := scanUp_stops hin
  simpa using hstop

theorem lineEnd_congr {p q : Int} (hpq : p ≤ q) (hq : q ≤ eb.len) (hline : ∀ i, p ≤ i → i < q → eb.textAt i ≠ 10)
    : eb.lineEnd q = eb.lineEnd p := by
  have hlow := le_lineEnd eb p
  have hlow' := le_lineEnd eb q
  have hhigh := @scanUp_le (fun i => eb.textAt i ≠ 10) (eb.len - p).toNat p
  have hhigh' := @scanUp_le (fun i => eb.textAt i ≠ 10) (eb.len - q).toNat q
  have hin : ∀ i, p ≤ i → i < eb.lineEnd p → eb.textAt i ≠ 10 := by
    intro i hi hlt
    simpa using scanUp_before hi hlt
  have hin' : ∀ i, q ≤ i → i < eb.lineEnd q → eb.textAt i ≠ 10 := by
    intro i hi hlt
    simpa using scanUp_before hi hlt
  have hle : eb.lineEnd p ≤ eb.len := by
    unfold lineEnd
    omega
  have hle' : eb.lineEnd q ≤ eb.len := by
    unfold lineEnd
    omega
  by_contra hne
  by_cases hlt : eb.lineEnd p < eb.lineEnd q
  . have hnl := lineEnd_stops (by omega : eb.lineEnd p < eb.len)
    by_cases hbefore : eb.lineEnd p < q
    . exact hline _ hlow hbefore hnl
    . exact hin' _ (by omega) hlt hnl
  . exact hin (eb.lineEnd q) (by omega) (by omega) (lineEnd_stops (by omega))

theorem lineEnd_firstNonblank (h : GapInv eb) {i : Nat} (hi : i ≤ eb.text.length)
    (hclosed : Closed 10 (eb.text.take i))
    : eb.lineEnd (eb.firstNonblank i) = eb.lineEnd i := by
  have hlen := length_text h
  unfold firstNonblank
  dsimp only
  rw [lineStart_of_closed h hi hclosed]
  split
  . rfl
  . next hfound =>
    apply lineEnd_congr (le_scanUp _ _) (by omega)
    intro j hj hlt heq
    have hblank := scanUp_before hj hlt
    rw [heq] at hblank
    exact absurd hblank (by decide)

end Cursor

end EditorBuffer

namespace ViState

variable {v w : ViState} {reg reg' : Int}

section Registers

theorem regStore_regs (hreg : 0 ≤ regIndex reg) (data : Bytes) (lines : Bool)
    : (v.regStore reg data lines).regs = Function.update v.regs (regIndex reg) ⟨data.take regCap, lines⟩ := by
  unfold regStore
  dsimp only
  rw [if_neg (by omega)]

theorem regStoreBoth_regs (hreg : 0 ≤ regIndex reg) (hsame : reg' = 34 ∨ reg' = reg) (data : Bytes) (lines : Bool)
    : (v.regStoreBoth reg data lines).regs (regIndex reg') = ⟨data.take regCap, lines⟩ := by
  unfold regStoreBoth
  dsimp only
  split
  . next hne =>
    rw [regStore_regs hreg, regStore_regs (by decide)]
    by_cases hidx : regIndex reg' = regIndex reg
    . rw [hidx, Function.update_self]
    . obtain rfl | rfl := hsame
      . rw [Function.update_of_ne hidx, Function.update_self]
      . exact absurd rfl hidx
  . next heq =>
    have : reg' = 34 := by omega
    rw [this, regStore_regs (by decide), Function.update_self]

end Registers

section Put

theorem doPut_chars (h : GapInv w.eb) (hreg : 0 ≤ regIndex reg) {i : Nat} (hpos : w.gPos = i)
    (hi : i ≤ w.eb.text.length) {data : Bytes} (hr : w.regs (regIndex reg) = ⟨data, false⟩) (hne : data ≠ [])
    (hdata : data.length < 2 ^ 30)
    : (w.doPut false 1 reg).eb.text
        = w.eb.text.take i ++ data.take (maxText - 1 - w.eb.text.length) ++ w.eb.text.drop i := by
  have hlen := EditorBuffer.length_text h
  have hsmall := EditorBuffer.text_lt h
  have hempty : ¬(regIndex reg < 0 ∨ data = []) := by
    rw [not_or]
    exact ⟨by omega, hne⟩
  have hat : ¬(w.eb.len < w.gPos) := by omega
  unfold doPut
  rw [hr]
  dsimp only
  rw [if_neg hempty]
  change (EditorBuffer.insertCopies w.eb (if w.eb.len < w.gPos then w.eb.len else w.gPos) data 0 1).text = _
  rw [if_neg hat, EditorBuffer.insertCopies_one (by omega) (by omega), hpos]
  exact (EditorBuffer.insertBytes_at h hi hdata).2

theorem putLines_eb (h : GapInv w.eb) {k : Nat}
    (hk : (if w.eb.lineEnd w.gPos < w.eb.len then w.eb.lineEnd w.gPos + 1 else w.eb.lineEnd w.gPos) = k)
    (hle : k ≤ w.eb.text.length) (data : Bytes)
    : (doPut.putLines true 1 w data).eb = w.eb.insertLinesAt k data := by
  have hlen := EditorBuffer.length_text h
  have hsmall := EditorBuffer.text_lt h
  have hgrown := EditorBuffer.insertByte_text w.eb.len 10 h
  have := EditorBuffer.text_lt hgrown.1
  have := EditorBuffer.len_nonneg hgrown.1
  unfold doPut.putLines EditorBuffer.insertLinesAt
  dsimp only
  rw [if_pos rfl, hk]
  by_cases hmissing : w.eb.len ≤ k ∧ 0 < w.eb.len ∧ w.eb.textAt (w.eb.len - 1) ≠ 10
  . rw [if_pos hmissing, if_pos hmissing, if_pos hmissing]
    exact EditorBuffer.insertCopies_one (by omega) (by omega) data
  . rw [if_neg hmissing, if_neg hmissing, if_neg hmissing]
    exact EditorBuffer.insertCopies_one (by omega) (by omega) data

theorem doPut_lines (h : GapInv w.eb) (hreg : 0 ≤ regIndex reg) {k : Nat}
    (hk : (if w.eb.lineEnd w.gPos < w.eb.len then w.eb.lineEnd w.gPos + 1 else w.eb.lineEnd w.gPos) = k)
    (hle : k ≤ w.eb.text.length) (hstart : Closed 10 (w.eb.text.take k) ∨ k = w.eb.text.length) {data : Bytes}
    (hr : w.regs (regIndex reg) = ⟨data, true⟩) (hne : data ≠ []) (hdata : data.length < 2 ^ 30)
    : (w.doPut true 1 reg).eb.text
        = (closeText 10 (w.eb.text.take k) ++ data).take (maxText - 1 - (w.eb.text.drop k).length)
          ++ w.eb.text.drop k := by
  have hempty : ¬(regIndex reg < 0 ∨ data = []) := by
    rw [not_or]
    exact ⟨by omega, hne⟩
  have hput : (w.doPut true 1 reg).eb = (doPut.putLines true 1 w.changeBegin data).eb := by
    unfold doPut
    rw [hr]
    dsimp only
    rw [if_neg hempty, if_pos rfl]
  rw [hput, @putLines_eb w.changeBegin h k hk hle data]
  exact (EditorBuffer.insertLinesAt_text h hle hstart hdata).2

theorem doPut_empty {lines after : Bool} (hr : w.regs (regIndex reg) = ⟨[], lines⟩)
    : (w.doPut after 1 reg).eb = w.eb := by
  unfold doPut
  rw [hr]
  dsimp only
  rw [if_pos (Or.inr rfl)]

end Put

section Delete

theorem regStore_gPos (c : Int) (data : Bytes) (lines : Bool) : (v.regStore c data lines).gPos = v.gPos := by
  unfold regStore
  dsimp only
  split <;> rfl

theorem regStoreBoth_gPos (c : Int) (data : Bytes) (lines : Bool)
    : (v.regStoreBoth c data lines).gPos = v.gPos := by
  unfold regStoreBoth
  dsimp only
  split
  . rw [regStore_gPos, regStore_gPos]
  . rw [regStore_gPos]

/--
`w` is what is left when the range has been deleted.
-/
structure Deleted (v w : ViState) (reg start stop : Int) : Prop where
  order : start < stop
  le : stop ≤ v.eb.len
  eb : w.eb = v.eb.deleteRange start (stop - start)
  pos : w.gPos = if w.eb.len < start then w.eb.len else start
  regs : ∀ reg', reg' = 34 ∨ reg' = reg →
    w.regs (regIndex reg') = ⟨(v.eb.extractToOpbuf start stop).take regCap, false⟩

theorem opCharwise_deleted (hreg : 0 ≤ regIndex reg) {start stop : Int} (horder : start < stop)
    (hle : stop ≤ v.eb.len) (hcursor : start ≤ v.gPos)
    : Deleted v (v.opCharwise .d start stop reg) reg start stop := by
  have hpos : (if start < v.gPos then start else v.gPos) = start := by
    split <;> omega
  have heb : (v.opCharwise .d start stop reg).eb = v.eb.deleteRange start (stop - start) := by
    unfold opCharwise
    dsimp only
    rw [if_neg (by decide), if_neg (by decide)]
    dsimp only
    rw [regStoreBoth_eb]
    rfl
  refine ⟨horder, hle, heb, ?_, ?_⟩
  . rw [heb]
    unfold opCharwise
    dsimp only
    rw [if_neg (by decide), if_neg (by decide)]
    dsimp only
    rw [regStoreBoth_eb, regStoreBoth_gPos]
    change (if (v.eb.deleteRange start (stop - start)).len < (if start < v.gPos then start else v.gPos)
      then _ else if start < v.gPos then start else v.gPos) = _
    rw [hpos]
    rfl
  . intro reg' hsame
    unfold opCharwise
    dsimp only
    rw [if_neg (by decide), if_neg (by decide)]
    exact regStoreBoth_regs hreg hsame _ _

theorem charRange_bounds (m : ViMotion) (hm : m.mode ≠ .line)
    : (v.charRange m).2 ≤ v.eb.len ∧ ((v.charRange m).1 < (v.charRange m).2 → (v.charRange m).1 ≤ v.gPos) := by
  unfold charRange
  cases hmode : m.mode with
  | line => exact absurd hmode hm
  | excl =>
    dsimp only
    omega
  | incl =>
    dsimp only
    omega
  | back =>
    dsimp only
    omega
  | eol =>
    dsimp only
    omega

theorem applyOp_deleted (hreg : 0 ≤ regIndex reg) (m : ViMotion) (hm : m.mode ≠ .line) (count : Int)
    : v.applyOp .d count m reg = v ∨ ∃ start stop, Deleted v (v.applyOp .d count m reg) reg start stop := by
  obtain ⟨hle, hcursor⟩ := charRange_bounds (v := v) m hm
  unfold applyOp
  split
  . exact Or.inl rfl
  . generalize v.charRange m = r at *
    obtain ⟨start, stop⟩ := r
    dsimp only at hle hcursor ⊢
    split
    . exact Or.inl rfl
    . next hrange =>
      rw [if_neg (fun h => absurd h.1 (by decide))]
      have hdel := opCharwise_deleted (v := v) hreg (by omega) hle (hcursor (by omega))
      exact Or.inr ⟨start, stop, hdel.order, hdel.le, hdel.eb, hdel.pos, hdel.regs⟩

theorem exec_deleted (hreg : 0 ≤ regIndex reg) (k : CharDelete)
    : k.exec v reg = v ∨ ∃ start stop, Deleted v (k.exec v reg) reg start stop := by
  cases k with
  | op m count hm => exact applyOp_deleted hreg m hm count
  | forward count =>
    unfold CharDelete.exec deleteForward
    dsimp only
    split
    . exact applyOp_deleted hreg _ (by intro h; cases h) _
    . exact Or.inl rfl
  | backward count =>
    unfold CharDelete.exec deleteBackward
    dsimp only
    split
    . exact applyOp_deleted hreg _ (by intro h; cases h) _
    . exact Or.inl rfl
  | toEnd => exact applyOp_deleted hreg ⟨true, v.eb.lineEnd v.gPos, .eol, 36⟩ (by intro h; cases h) 1

theorem put_deleted_iff (h : GapInv v.eb) (hreg : 0 ≤ regIndex reg) (hsame : reg' = 34 ∨ reg' = reg)
    {start stop : Nat} (hdel : Deleted v w reg start stop)
    : (w.doPut false 1 reg').eb.text = v.eb.text ↔ stop - start ≤ regCap := by
  have hlen := EditorBuffer.length_text h
  have hfull := EditorBuffer.length_le h
  have horder := hdel.order
  have hle := hdel.le
  have hcap : 0 < regCap ∧ regCap < 2 ^ 30 := by decide
  obtain ⟨hinv, htext⟩ := EditorBuffer.deleteRange_at h (by omega : start ≤ stop) (by omega)
  rw [← hdel.eb] at hinv htext
  have hlen' := EditorBuffer.length_text hinv
  have hsum := congrArg List.length htext
  rw [List.length_append, List.length_take, List.length_drop] at hsum
  have hpos : w.gPos = start := by
    rw [hdel.pos, if_neg (by omega)]
  have hreg' : 0 ≤ regIndex reg' := by
    obtain rfl | rfl := hsame
    . decide
    . exact hreg
  have hr := hdel.regs reg' hsame
  rw [EditorBuffer.extractToOpbuf_eq h (by omega) (by omega), List.take_take, Nat.min_self] at hr
  have hclip : (((v.eb.text.take stop).drop start).take regCap).length = min (stop - start) regCap := by
    rw [List.length_take, List.length_drop, List.length_take]
    omega
  have hne : ((v.eb.text.take stop).drop start).take regCap ≠ [] := by
    rw [← List.length_pos_iff]
    omega
  have hfront : (v.eb.text.take start).length = start := by
    rw [List.length_take]
    omega
  generalize hc : ((v.eb.text.take stop).drop start).take regCap = c at *
  rw [doPut_chars hinv hreg' hpos (by omega) hr hne (by omega),
    List.take_of_length_le (i := maxText - 1 - w.eb.text.length) (by omega), htext,
    List.take_append_of_le_length (by omega), List.take_of_length_le (l := v.eb.text.take start) (by omega),
    List.drop_append_of_le_length (by omega), @List.drop_eq_nil_of_le _ (v.eb.text.take start) _ (by omega),
    List.nil_append]
  constructor
  . intro hback
    have hsize := congrArg List.length hback
    rw [List.length_append, List.length_append, hfront, hclip, List.length_drop] at hsize
    omega
  . intro hfits
    have hrange : ((v.eb.text.take stop).drop start).take regCap = (v.eb.text.take stop).drop start :=
      List.take_of_length_le (by rw [List.length_drop, List.length_take]; omega)
    have hjoin : v.eb.text.take start ++ (v.eb.text.take stop).drop start = v.eb.text.take stop := by
      have hsplit := List.take_append_drop start (v.eb.text.take stop)
      rwa [List.take_take, Nat.min_eq_left (by omega)] at hsplit
    rw [← hc, hrange, hjoin, List.take_append_drop]

end Delete

section Yank

variable {a b : Nat}

/--
`w` is what is left when the lines from `a` to `b` have been yanked.
-/
structure Yanked (v w : ViState) (reg : Int) (a b : Nat) : Prop where
  eb : w.eb = v.eb
  pos : w.gPos = v.eb.firstNonblank (lineIndex 10 v.eb.text a : Nat)
  regs : ∀ reg', reg' = 34 ∨ reg' = reg →
    w.regs (regIndex reg') = ⟨(closeText 10 (rangeText v.eb.text a b)).take regCap, true⟩

theorem lineRange_ends (h : GapInv v.eb) {x y : Int} (hx : 0 ≤ x) (hy : 0 ≤ y)
    : v.eb.lineRange x y = (((lineIndex 10 v.eb.text (min x y).toNat : Nat) : Int),
        ((lineIndex 10 v.eb.text ((max x y).toNat + 1) : Nat) : Int)) := by
  have hmin : (((min x y).toNat : Nat) : Int) = min x y := by omega
  have hmax : (((max x y).toNat : Nat) : Int) = max x y := by omega
  rw [EditorBuffer.lineRange_swap, ← hmin, ← hmax]
  exact EditorBuffer.lineRange_eq h (by omega)

theorem totalLines_pos (eb : EditorBuffer) : 0 < eb.totalLines := by
  unfold EditorBuffer.totalLines
  split
  . decide
  . split <;> omega

theorem exec_yanked (h : GapInv v.eb) (hreg : 0 ≤ regIndex reg) (k : LineYank)
    : Yanked v (k.exec v reg) (k.reg reg) (k.first v) (k.last v) := by
  have hmono := @lineIndex_mono _ (10 : Byte) _ v.eb.text (k.first v) (k.last v + 1)
    (by unfold LineYank.first LineYank.last; omega)
  have hend := @lineIndex_le _ (10 : Byte) _ v.eb.text (k.last v + 1)
  have hdata := EditorBuffer.extractLines_eq h hmono hend
  have hstore : ∀ u : ViState, u = v → ∀ c, 0 ≤ regIndex c → ∀ reg', reg' = 34 ∨ reg' = c →
      (u.regStoreBoth c ((closeText 10 (rangeText v.eb.text (k.first v) (k.last v))).take regCap) true).regs
        (regIndex reg') = ⟨(closeText 10 (rangeText v.eb.text (k.first v) (k.last v))).take regCap, true⟩ := by
    intro u hu c hc reg' hsame
    rw [regStoreBoth_regs hc hsame, List.take_take, Nat.min_self]
  cases k with
  | op targetLine =>
    have hpos := totalLines_pos v.eb
    have hcur : 0 ≤ v.eb.lineNumberAt v.gPos := by
      unfold EditorBuffer.lineNumberAt
      omega
    have hclip : (if v.eb.totalLines ≤ (if targetLine < 0 then 0 else targetLine) then v.eb.totalLines - 1
        else if targetLine < 0 then 0 else targetLine) = max 0 (min targetLine (v.eb.totalLines - 1)) := by
      split <;> split <;> omega
    have hrange := lineRange_ends h hcur (y := max 0 (min targetLine (v.eb.totalLines - 1))) (by omega)
    unfold LineYank.exec opLinewise
    dsimp only
    rw [hclip, hrange]
    dsimp only
    refine ⟨?_, ?_, ?_⟩
    . exact regStoreBoth_eb _ _ _
    . dsimp only
      rw [regStoreBoth_eb]
      rfl
    . dsimp only
      intro reg' hsame
      exact (congrArg (fun d => (v.regStoreBoth reg d true).regs (regIndex reg')) hdata).trans
        (hstore v rfl reg hreg reg' hsame)
  | ex a1 a2 =>
    have hrange := lineRange_ends h (x := a1) (y := a2) (by omega) (by omega)
    unfold LineYank.exec exYank
    dsimp only
    rw [hrange]
    dsimp only
    refine ⟨?_, ?_, ?_⟩
    . exact regStoreBoth_eb _ _ _
    . dsimp only
      rw [regStoreBoth_eb]
      rfl
    . dsimp only
      intro reg' hsame
      exact (congrArg (fun d => (v.regStoreBoth 34 d true).regs (regIndex reg')) hdata).trans
        (hstore v rfl 34 (by decide) reg' hsame)

theorem drop_front (t : Bytes) (a : Nat)
    : t.drop (closeText 10 (t.take (lineIndex 10 t a))).length = t.drop (lineIndex 10 t a) := by
  have hle := @lineIndex_le _ (10 : Byte) _ t a
  have htake : (t.take (lineIndex 10 t a)).length = lineIndex 10 t a := by
    rw [List.length_take]
    omega
  obtain hclosed | hend := @closed_take_lineIndex _ (10 : Byte) _ t a
  . rw [closeText_of_closed hclosed, htake]
  . have hlong := @length_closeText_le _ (10 : Byte) _ (t.take (lineIndex 10 t a))
    rw [List.drop_eq_nil_of_le (by omega), List.drop_eq_nil_of_le (by omega)]

theorem putBehind_eq (t : Bytes) (a : Nat) (ls : Bytes)
    : putBehind t a ls = if ls = [] then t
        else closeText 10 (t.take (lineIndex 10 t (a + 1))) ++ ls ++ t.drop (lineIndex 10 t (a + 1)) := by
  unfold putBehind
  dsimp only
  rw [← linesOf_take, linesText_linesOf, drop_front]

theorem put_yanked_iff (h : GapInv v.eb) (hreg' : 0 ≤ regIndex reg') (hsame : reg' = 34 ∨ reg' = reg)
    (hyank : Yanked v w reg a b)
    : (w.doPut true 1 reg').eb.text = putBehind v.eb.text a (closeText 10 (rangeText v.eb.text a b))
        ↔ (closeText 10 (rangeText v.eb.text a b)).length ≤ regCap
          ∧ (putBehind v.eb.text a (closeText 10 (rangeText v.eb.text a b))).length ≤ maxText - 1 := by
  have hfull := EditorBuffer.length_le h
  have hcap : 0 < regCap ∧ regCap < 2 ^ 30 := by decide
  have hr := hyank.regs reg' hsame
  have hle := @lineIndex_le _ (10 : Byte) _ v.eb.text a
  have hle' := @lineIndex_le _ (10 : Byte) _ v.eb.text (a + 1)
  rw [putBehind_eq]
  by_cases hnone : closeText 10 (rangeText v.eb.text a b) = []
  . rw [hnone, List.take_nil] at hr
    rw [hnone, if_pos rfl, doPut_empty hr, hyank.eb]
    simp [hfull]
  . rw [if_neg hnone]
    have hstart : Closed 10 (v.eb.text.take (lineIndex 10 v.eb.text a)) := by
      obtain hclosed | hend := @closed_take_lineIndex _ (10 : Byte) _ v.eb.text a
      . exact hclosed
      . -- behind the last line there is nothing to yank
        rw [closeText_eq_nil] at hnone
        refine absurd ?_ hnone
        unfold rangeText
        apply List.drop_eq_nil_of_le
        rw [List.length_take]
        omega
    have hk : (if w.eb.lineEnd w.gPos < w.eb.len then w.eb.lineEnd w.gPos + 1 else w.eb.lineEnd w.gPos)
        = (lineIndex 10 v.eb.text (a + 1) : Nat) := by
      rw [hyank.pos, hyank.eb, EditorBuffer.lineEnd_firstNonblank h hle hstart]
      exact EditorBuffer.lineEnd_succ h rfl
    generalize closeText 10 (rangeText v.eb.text a b) = y at *
    have hdata : (y.take regCap).length = min y.length regCap := by
      rw [List.length_take, Nat.min_comm]
    have hne : y.take regCap ≠ [] := by
      have := List.length_pos_iff.mpr hnone
      rw [← List.length_pos_iff]
      omega
    have hinv : GapInv w.eb := by
      rw [hyank.eb]
      exact h
    have hput := doPut_lines hinv hreg' hk (by rw [hyank.eb]; exact hle')
      (by rw [hyank.eb]; exact closed_take_lineIndex _ _) hr hne (by omega)
    rw [hput, hyank.eb]
    have hrest : (v.eb.text.drop (lineIndex 10 v.eb.text (a + 1))).length ≤ maxText - 1 := by
      rw [List.length_drop]
      omega
    generalize closeText 10 (v.eb.text.take (lineIndex 10 v.eb.text (a + 1))) = front
    generalize v.eb.text.drop (lineIndex 10 v.eb.text (a + 1)) = rest at *
    rw [List.append_left_inj]
    constructor
    . intro heq
      have hsize := congrArg List.length heq
      rw [List.length_take, List.length_append, List.length_append, hdata] at hsize
      rw [List.length_append, List.length_append]
      have := List.length_pos_iff.mpr hnone
      omega
    . rintro ⟨hsize, hroom⟩
      rw [List.length_append, List.length_append] at hroom
      rw [List.take_of_length_le hsize, List.take_of_length_le (by rw [List.length_append]; omega)]

end Yank

end ViState

theorem LineYank.yanked_eq (k : LineYank) (v : ViState)
    : k.yanked v = closeText 10 (rangeText v.eb.text (k.first v) (k.last v)) := by
  unfold LineYank.yanked
  rw [← linesText_linesOf, linesOf_rangeText (by unfold LineYank.first LineYank.last; omega)]

/--
A register holds `regCap` bytes, what is longer is clipped.
-/
theorem put_back_iff (v : ViState) (reg reg' : Int) (h : GapInv v.eb) (hreg : 0 ≤ regIndex reg)
    : (∀ (k : CharDelete) (start stop : Nat), reg' = 34 ∨ reg' = reg →
          start < stop → stop ≤ v.eb.text.length →
          (k.exec v reg).eb.text = v.eb.text.take start ++ v.eb.text.drop stop →
          (((k.exec v reg).doPut false 1 reg').eb.text = v.eb.text ↔ stop - start ≤ regCap))
        ∧ ∀ k : LineYank, reg' = 34 ∨ reg' = k.reg reg →
          (((k.exec v reg).doPut true 1 reg').eb.text = putBehind v.eb.text (k.first v) (k.yanked v)
            ↔ (k.yanked v).length ≤ regCap
              ∧ (putBehind v.eb.text (k.first v) (k.yanked v)).length ≤ maxText - 1) := by
  have hlen := EditorBuffer.length_text h
  constructor
  . intro k start stop hsame horder hle htext
    have hsize := congrArg List.length htext
    rw [List.length_append, List.length_take, List.length_drop] at hsize
    obtain hkept | ⟨x, y, hdel⟩ := ViState.exec_deleted (v := v) hreg k
    . -- something is missing
      rw [hkept] at hsize
      omega
    . have hxy := hdel.order
      have hy := hdel.le
      by_cases hx : x < 0
      . have hkept : (k.exec v reg).eb = v.eb := by
          rw [hdel.eb]
          unfold EditorBuffer.deleteRange
          rw [if_pos (Or.inr (Or.inl hx))]
        rw [hkept] at hsize
        omega
      . obtain ⟨i, rfl⟩ := Int.eq_ofNat_of_zero_le (by omega : 0 ≤ x)
        obtain ⟨j, rfl⟩ := Int.eq_ofNat_of_zero_le (by omega : 0 ≤ y)
        have hcut := (EditorBuffer.deleteRange_at h (by omega : i ≤ j) (by omega)).2
        rw [← hdel.eb] at hcut
        have hsize' := congrArg List.length hcut
        rw [List.length_append, List.length_take, List.length_drop] at hsize'
        have hrange : j - i = stop - start := by omega
        rw [ViState.put_deleted_iff h hreg hsame hdel, hrange]
  . intro k hsame
    rw [k.yanked_eq]
    have hreg' : 0 ≤ regIndex reg' := by
      obtain rfl | rfl := hsame
      . decide
      . cases k with
        | op targetLine => exact hreg
        | ex a1 a2 => exact (by decide : 0 ≤ regIndex 34)
    exact ViState.put_yanked_iff h hreg' hsame (ViState.exec_yanked h hreg k)

/--
`x` on `ab`.
-/
theorem put_back_letter
    : (((CharDelete.forward 1).exec (editing [97, 98]) 34).doPut false 1 34).eb.text = [97, 98] := by
  obtain ⟨hinv, htext⟩ := @editing_text [97, 98] (by decide)
  have hcut : ((CharDelete.forward 1).exec (editing [97, 98]) 34).eb.text
      = (editing [97, 98]).eb.text.take 0 ++ (editing [97, 98]).eb.text.drop 1 := by
    decide +kernel
  have hiff := (put_back_iff (editing [97, 98]) 34 34 hinv (by decide)).1 (.forward 1) 0 1 (Or.inl rfl) (by decide)
    (by rw [htext]; decide) hcut
  rw [htext] at hiff
  exact hiff.mpr (by decide)

section Example

def deleteLetters (n : Nat) : CharDelete :=
  .op ⟨true, n, .excl, 108⟩ n (by intro h; cases h)

theorem deleteLetters_deleted {v : ViState} {n : Nat} (hpos : v.gPos = 0) (hn : 0 < n) (hlen : n ≤ v.eb.len)
    : ViState.Deleted v ((deleteLetters n).exec v 34) 34 (0 : Nat) n := by
  have hrange : v.charRange ⟨true, n, .excl, 108⟩ = (((0 : Nat) : Int), (n : Int)) := by
    unfold ViState.charRange
    dsimp only
    rw [hpos]
    ext
    . dsimp only
      omega
    . dsimp only
      omega
  have hdel := @ViState.opCharwise_deleted v 34 (by decide) (0 : Nat) n (by omega) hlen (by omega)
  change ViState.Deleted v (v.applyOp .d n ⟨true, n, .excl, 108⟩ 34) 34 (0 : Nat) n
  unfold ViState.applyOp
  rw [hrange]
  dsimp only
  rw [if_neg (by simp), if_neg (by simp), if_neg (by omega), if_neg (by simp)]
  exact ⟨hdel.order, hdel.le, hdel.eb, hdel.pos, hdel.regs⟩

theorem deleteLetters_lost {n : Nat} (hn : regCap < n) (hlen : n ≤ maxText - 1)
    : ∃ v : ViState, GapInv v.eb ∧ n ≤ v.eb.text.length
        ∧ ((deleteLetters n).exec v 34).eb.text = v.eb.text.take 0 ++ v.eb.text.drop n
        ∧ (((deleteLetters n).exec v 34).doPut false 1 34).eb.text ≠ v.eb.text := by
  have hsize : (List.replicate n (97 : Byte)).length = n := List.length_replicate
  obtain ⟨hinv, htext⟩ := @editing_text (List.replicate n 97) (by omega)
  have hlen' := EditorBuffer.length_text hinv
  have hdel := @deleteLetters_deleted (editing (List.replicate n 97)) n rfl (by omega) (by rw [← hlen', htext]; omega)
  refine ⟨editing (List.replicate n 97), hinv, by rw [htext]; omega, ?_, ?_⟩
  . rw [hdel.eb]
    exact (EditorBuffer.deleteRange_at hinv (Nat.zero_le n) (by rw [htext]; omega)).2
  . intro hback
    rw [ViState.put_deleted_iff hinv (by decide) (Or.inl rfl) hdel] at hback
    omega

end Example

/--
One byte more than a register holds, it is lost.
-/
theorem not_put_back
    : ¬∀ (v : ViState) (reg reg' : Int) (k : CharDelete) (start stop : Nat), GapInv v.eb → 0 ≤ regIndex reg →
        reg' = 34 ∨ reg' = reg → start < stop → stop ≤ v.eb.text.length →
        (k.exec v reg).eb.text = v.eb.text.take start ++ v.eb.text.drop stop →
        ((k.exec v reg).doPut false 1 reg').eb.text = v.eb.text := by
  intro hall
  obtain ⟨v, hinv, hle, hcut, hlost⟩ := @deleteLetters_lost (regCap + 1) (Nat.lt_succ_self _) (by decide)
  exact hlost (hall v 34 34 _ 0 _ hinv (by decide) (Or.inl rfl) (Nat.succ_pos _) hle hcut)

end TanjaOS
