import TanjaOS.Vi.Match
import TanjaOS.Vi.Transfer

/-!
`:s` on one line, and the text that it is for.

`&` is 38, the digits from `1` to `9` are 49 to 57, `\` is 92.
-/

open Lib

namespace TanjaOS

/--
`for (k = from_; k < to_; k++) out[o++] = line[k]`
-/
def copyRange (line : Bytes) (from_ to_ : Nat) : Bytes :=
  (List.range (to_ - from_)).map fun k => charAt line (from_ + k)

/--
What is written into `out`, the null behind it apart. Of a text that is copied as much is written as
there is room for.
-/
def rxBuildRep (spans : Nat → Int × Int) (rep line : Bytes) (mstart mend cap : Nat) : Bytes :=
  go rep []
where
  /-- `rep` is what comes from `rep[i]` on. -/
  go (rep out : Bytes) : Bytes :=
    match rep with
    | [] => out
    | [c] =>
      if cap - 1 ≤ out.length then out
      else if c = 38 then out ++ (copyRange line mstart mend).take (cap - 1 - out.length)
      else out ++ [c]
    | c :: d :: rest =>
      if cap - 1 ≤ out.length then out
      else if c = 38 then
        go (d :: rest) (out ++ (copyRange line mstart mend).take (cap - 1 - out.length))
      else if c = 92 ∧ 49 ≤ d ∧ d ≤ 57 then
        let (lo, hi) := spans (d.toNat - 48)
        go rest (out ++ (copyRange line lo.toNat hi.toNat).take (cap - 1 - out.length))
      else if c = 92 then
        go rest (out ++ [d])
      else
        go (d :: rest) (out ++ [c])

/--
What the loop of `sub_line` changes, `rx_spans` and `rx_budget` with it. `newbuf` is what has been
written there, so `o` is its length.
-/
structure SubState where
  newbuf : Bytes
  scan : Nat
  subs : Nat
  st : RxState

/--
`sub_line`, on the line from `ls` on. `linebuf` is what the array holds from the line before. With what
is returned come the text and the state of the matcher. In the loop `scan` gets past the end of the
line by no more than the null there.
-/
def subLine (ic glob : Bool) (subPat subRep linebuf : Bytes) (st : RxState) (eb : EditorBuffer) (ls : Int)
    : Nat × EditorBuffer × RxState :=
  let le := eb.lineEnd ls
  let lsz := (le - ls).toNat
  if 32768 < lsz then
    (0, eb, st)
  else
    let line := (List.range lsz).map (fun i : Nat => eb.textAt (ls + i)) ++ 0 :: linebuf.drop (lsz + 1)
    let x := loop line (lsz + 1) { newbuf := [], scan := 0, subs := 0, st }
    if x.subs = 0 then
      (0, eb, x.st)
    else
      let newbuf := x.newbuf ++ (strFrom line x.scan).take (65535 - x.newbuf.length)
      (x.subs, ((eb.deleteRange ls (le - ls)).insertBytes ls newbuf).2, x.st)
where
  loop (line : Bytes) (fuel : Nat) (x : SubState) : SubState :=
    match fuel with
    | 0 => x
    | fuel + 1 =>
      if charAt line x.scan = 0 then
        x
      else
        match rxFind ic subPat line rxSteps x.scan x.st with
        | (none, st) => { x with st }
        | (some (mstart, mlen), st) =>
          let newbuf := x.newbuf ++ (copyRange line x.scan mstart).take (65535 - x.newbuf.length)
          let newbuf :=
            newbuf ++ rxBuildRep st.spans subRep line mstart (mstart + mlen) (65536 - newbuf.length)
          let y : SubState :=
            if 0 < mlen then
              { newbuf, scan := mstart + mlen, subs := x.subs + 1, st }
            else
              { newbuf := newbuf ++ [charAt line x.scan].take (65535 - newbuf.length)
                scan := x.scan + 1
                subs := x.subs + 1
                st }
          if glob then loop line fuel y else y

section Purpose

/-!
What a substitution is for.
-/

inductive RepPiece where
  | whole
  | char (c : Byte)
  deriving DecidableEq

def readRep (rep : Bytes) : Option (List RepPiece) :=
  match rep with
  | [] => some []
  | [c] => some [if c = 38 then .whole else .char c]
  | c :: d :: rest =>
    if c = 92 then
      if 49 ≤ d ∧ d ≤ 57 then none else (readRep rest).map (.char d :: ·)
    else
      (readRep (d :: rest)).map ((if c = 38 then .whole else .char c) :: ·)

def RepPiece.text (m : Bytes) (piece : RepPiece) : Bytes :=
  match piece with
  | whole => m
  | char c => [c]

def expandRep (pieces : List RepPiece) (m : Bytes) : Bytes :=
  pieces.flatMap (RepPiece.text m)

/--
The matches that `rx_find` finds from `scan` on, the position and the length of each. The search goes
on behind a match where all are wanted.
-/
inductive Found (ic glob : Bool) (pat line : Bytes) : Nat → RxState → List (Nat × Nat) → Prop where
  | none {scan : Nat} {st : RxState} (h : (rxFind ic pat line rxSteps scan st).1 = none)
      : Found ic glob pat line scan st []
  | only {scan : Nat} {st : RxState} {i n : Nat} (hglob : glob = false)
      (h : (rxFind ic pat line rxSteps scan st).1 = some (i, n)) : Found ic glob pat line scan st [(i, n)]
  | more {scan : Nat} {st : RxState} {i n : Nat} {ms : List (Nat × Nat)} (hglob : glob = true)
      (h : (rxFind ic pat line rxSteps scan st).1 = some (i, n))
      (hrest : Found ic glob pat line (i + n) (rxFind ic pat line rxSteps scan st).2 ms)
      : Found ic glob pat line scan st ((i, n) :: ms)

/--
The line from `scan` on with the matches replaced.
-/
def replaceMatches (pieces : List RepPiece) (line : Bytes) (scan : Nat) (ms : List (Nat × Nat)) : Bytes :=
  match ms with
  | [] => line.drop scan
  | (i, n) :: ms =>
    (line.take i).drop scan ++ expandRep pieces ((line.drop i).take n)
      ++ replaceMatches pieces line (i + n) ms

end Purpose

section Extent

/-!
Where a match lies, with any `opt_ic`.
-/

variable {ic : Bool} {pat line rest : Bytes} {pi s fuel : Nat} {c : Byte} {items : List RxItem} {eol : Bool}
  {st : RxState} {n : Nat}

theorem rxFold_ne (hc : c ≠ 0) : rxFold ic 0 ≠ rxFold ic c := by
  have hzero : rxFold ic 0 = 0 := by
    cases ic <;> rfl
  rw [hzero]
  unfold rxFold
  dsimp only
  split
  . next h => omega
  . intro h
    have hzero' : (0 : Byte).toInt8.toInt = c.toInt8.toInt := h
    rw [Int8.toInt_inj, toInt8_inj] at hzero'
    exact hc hzero'.symm

theorem rxMembers_length (x : Byte) (rest : Bytes) : (rxMembers ic x rest).2 = (rxMembers false x rest).2 := by
  match rest with
  | [] => rfl
  | [c] =>
    simp only [rxMembers]
    split <;> rfl
  | [c, d] =>
    have hnext := rxMembers_length x [d]
    simp only [rxMembers] at hnext ⊢
    split
    . rfl
    . simp only [hnext]
  | c :: d :: e :: rest =>
    have hrest := rxMembers_length x rest
    have hnext := rxMembers_length x (d :: e :: rest)
    rw [rxMembers, rxMembers]
    split
    . rfl
    . split
      . simp only [hrest]
      . simp only [hnext]

theorem rxAtom_end (h0 : 0 ∉ pat) (hp : pat.drop pi = c :: rest) (x : Byte)
    : (rxAtom ic pat pi x).2 = pi + 1 + (rxReadAtom c rest).2 := by
  have hfalse := congrArg Prod.snd (rxAtom_eq h0 hp x)
  have hsame : (rxAtom ic pat pi x).2 = (rxAtom false pat pi x).2 := by
    unfold rxAtom rxClass
    dsimp only
    rw [@rxMembers_length ic]
    split
    . rfl
    . split
      . split <;> rfl
      . split <;> rfl
  rw [hsame, hfalse]

theorem rxAtom_ne (h0 : 0 ∉ pat) (hpi : pi < pat.length) (x : Byte) (h : (rxAtom ic pat pi x).1 = true) : x ≠ 0 := by
  rintro rfl
  have hmem : ∀ i, i < pat.length → charAt pat i ≠ 0 := by
    intro i hi hz
    unfold charAt at hz
    rw [List.getD_eq_getElem?_getD, List.getElem?_eq_getElem hi] at hz
    have hz : pat[i] = 0 := hz
    exact h0 (hz ▸ List.getElem_mem hi)
  unfold rxAtom at h
  dsimp only at h
  split at h
  . exact absurd rfl (of_decide_eq_true (show decide ((0 : Byte) ≠ 0) = true from h))
  . split at h
    . unfold rxClass at h
      dsimp only at h
      rw [if_pos rfl] at h
      contradiction
    . split at h
      . next hesc => exact rxFold_ne hesc.2 (of_decide_eq_true h)
      . exact rxFold_ne (hmem pi hpi) (of_decide_eq_true h)

theorem rxm_extent_end (hend : pat.drop pi = [] ∨ pat.drop pi = [36]) (hpi : pi ≤ pat.length)
    (h : (rxm ic pat line fuel st pi pat.length s none).1 = some n) : n = 0 := by
  cases fuel with
  | zero => contradiction
  | succ fuel =>
    rw [rxm.eq_def] at h
    dsimp only at h
    by_cases hb : st.budget = 0
    . rw [if_pos hb] at h
      contradiction
    . rw [if_neg hb] at h
      obtain hend | hend := hend
      . have hlen := congrArg List.length hend
        rw [List.length_drop, List.length_nil] at hlen
        rw [if_pos (by omega)] at h
        simpa using h.symm
      . have hlen := congrArg List.length hend
        rw [List.length_drop, List.length_singleton] at hlen
        have hc : charAt pat pi = 36 := by
          rw [charAt_drop, hend]
          rfl
        rw [if_neg (by omega), if_neg (by rw [hc]; simp), if_pos ⟨hc, by omega⟩] at h
        split at h
        . contradiction
        . simpa using h.symm

theorem rxm_extent (h0 : 0 ∉ pat) (hread : rxReadItems (pat.drop pi) = some (items, eol))
    (hpi : pi ≤ pat.length) (hbol : pi = 0 → charAt pat 0 ≠ 94)
    (h : (rxm ic pat line fuel st pi pat.length s none).1 = some n)
    : (n = 0 → RxItems items []) ∧ n ≤ (strFrom line s).length := by
  induction items generalizing pi fuel st s n with
  | nil =>
    have hzero : n = 0 := by
      obtain ⟨hp, _⟩ | ⟨hp, _⟩ | ⟨_, _, _, _, _, _, ⟨_, hcons, _⟩ | ⟨_, hcons, _⟩⟩ := rxReadItems_cases hread
      . exact rxm_extent_end (.inl hp) hpi h
      . exact rxm_extent_end (.inr hp) hpi h
      . contradiction
      . contradiction
    exact ⟨fun _ => .nil, by omega⟩
  | cons item items ih =>
    obtain ⟨_, hcons, _⟩ | ⟨_, hcons, _⟩ | ⟨c, rest, items', hp, heol, hgroup, hcase⟩ := rxReadItems_cases hread
    . contradiction
    . contradiction
    . have hrest := drop_succ_of_drop hp
      have hlen := congrArg List.length hp
      rw [List.length_drop, List.length_cons] at hlen
      have hc : charAt pat pi = c := by
        rw [charAt_drop, hp]
        rfl
      have hnobol : ¬(charAt pat pi = 94 ∧ pi = 0) := by
        rintro ⟨h94, rfl⟩
        exact hbol rfl h94
      have hnoeol : ¬(charAt pat pi = 36 ∧ pi + 1 = pat.length) := by
        rintro ⟨h36, hend⟩
        rw [hc] at h36
        exact heol ⟨h36, List.eq_nil_of_length_eq_zero (by omega)⟩
      have hnogroup : ¬(charAt pat pi = 92 ∧ pi + 1 < pat.length ∧ charAt pat (pi + 1) = 40) := by
        rintro ⟨h92, _, h40⟩
        rw [hc] at h92
        rw [charAt_eq_iff_head (by decide), hrest] at h40
        exact hgroup ⟨h92, h40⟩
      have hstar : charAt pat (pi + (1 + (rxReadAtom c rest).2)) = 42
          ↔ (rest.drop (rxReadAtom c rest).2).head? = some 42 := by
        rw [charAt_eq_iff_head (by decide), ← Nat.add_assoc, ← List.drop_drop, hrest]
      cases fuel with
      | zero => contradiction
      | succ fuel =>
        rw [rxm.eq_def] at h
        dsimp only at h
        by_cases hb : st.budget = 0
        . rw [if_pos hb] at h
          contradiction
        . rw [if_neg hb, if_neg (by omega), if_neg hnobol, if_neg hnoeol, if_neg hnogroup,
            rxAtomExtent_eq h0 hp] at h
          obtain ⟨h42, heq, hread'⟩ | ⟨h42, heq, hread'⟩ := hcase
          . cases heq
            rw [if_pos (hstar.2 h42)] at h
            obtain ⟨i, st', hi, hbody⟩ := rxGreedy_some h
            rw [if_neg (by simp)] at hbody
            obtain ⟨m, hm, hsum⟩ := Option.map_eq_some_iff.1 hbody
            have hi' : i ≤ (strFrom line s).length := by
              have hrun : (line.drop s).takeWhile (fun x => decide (x ≠ 0 ∧ (rxAtom ic pat pi x).1 = true))
                  = (strFrom line s).takeWhile (fun x => (rxAtom ic pat pi x).1) := by
                unfold strFrom
                rw [List.takeWhile_takeWhile]
                congr 1
                funext x
                by_cases hx : x = 0 <;> simp [hx]
              rw [hrun] at hi
              exact Nat.le_trans hi (List.takeWhile_sublist _).length_le
            have hnext : pat.drop (pi + (1 + (rxReadAtom c rest).2) + 1)
                = rest.drop ((rxReadAtom c rest).2 + 1) := by
              rw [← hrest, List.drop_drop]
              congr 1
              omega
            have hle := head?_some_le h42
            obtain ⟨hnil, hwithin⟩ := ih (by rw [hnext]; exact hread') (by omega) (by omega) hm
            rw [strFrom_add hi', List.length_drop] at hwithin
            refine ⟨fun hzero => ?_, by omega⟩
            exact @RxItems.star _ _ [] [] (fun x hx => by contradiction) (hnil (by omega))
          . cases heq
            rw [if_neg (fun h => h42 (hstar.1 h))] at h
            cases hres : rxAtom ic pat pi (charAt line s) with
            | mk r pp =>
              have hend : (rxAtom ic pat pi (charAt line s)).2 = pi + 1 + (rxReadAtom c rest).2 := rxAtom_end h0 hp _
              have hne : (rxAtom ic pat pi (charAt line s)).1 = true → charAt line s ≠ 0 := rxAtom_ne h0 (by omega) _
              rw [hres] at h hend hne
              dsimp only at h hend hne
              split at h
              . contradiction
              . next hr =>
                rw [if_neg (by simp)] at h
                obtain ⟨m, hm, hsum⟩ := Option.map_eq_some_iff.1 h
                have hcons := strFrom_eq_cons (hne (by simpa using hr))
                have hnext : pat.drop pp = rest.drop (rxReadAtom c rest).2 := by
                  rw [hend, ← List.drop_drop, hrest]
                have hle : (rxReadAtom c rest).2 ≤ rest.length := by
                  apply rxReadAtom_le
                  intro h
                  rw [← hrest] at h
                  exact h0 (List.mem_of_mem_drop h)
                obtain ⟨-, hwithin⟩ := ih (by rw [hnext]; exact hread') (by omega) (by omega) hm
                rw [hcons, List.length_cons]
                exact ⟨fun hzero => by omega, by omega⟩

theorem rxRead_cases {p : RxPattern} (h : rxRead pat = some p)
    : (∃ rest, pat = 94 :: rest ∧ p.bol = true ∧ rxReadItems rest = some (p.items, p.eol))
      ∨ (charAt pat 0 ≠ 94 ∧ p.bol = false ∧ rxReadItems pat = some (p.items, p.eol)) := by
  unfold rxRead at h
  split at h
  . next rest =>
    obtain ⟨⟨items, eol⟩, hread, rfl⟩ := Option.map_eq_some_iff.1 h
    exact .inl ⟨rest, rfl, rfl, hread⟩
  . next hbol =>
    obtain ⟨⟨items, eol⟩, hread, rfl⟩ := Option.map_eq_some_iff.1 h
    refine .inr ⟨?_, rfl, hread⟩
    intro h94
    cases pat with
    | nil => exact absurd h94 (by decide)
    | cons c rest =>
      have hc : c = 94 := h94
      exact hbol rest (by rw [hc])

theorem rxRead_extent {p : RxPattern} (h0 : 0 ∉ pat) (hread : rxRead pat = some p)
    (h : (rxm ic pat line fuel st 0 pat.length s none).1 = some n)
    : (n = 0 → RxItems p.items []) ∧ n ≤ (strFrom line s).length := by
  obtain ⟨rest, rfl, _, hitems⟩ | ⟨hbol, _, hitems⟩ := rxRead_cases hread
  . cases fuel with
    | zero => contradiction
    | succ fuel =>
      rw [rxm.eq_def] at h
      dsimp only at h
      by_cases hb : st.budget = 0
      . rw [if_pos hb] at h
        contradiction
      . rw [if_neg hb, if_neg (by simp), if_pos ⟨rfl, rfl⟩] at h
        split at h
        . contradiction
        . have hitems' : rxReadItems ((94 :: rest).drop 1) = some (p.items, p.eol) := hitems
          exact rxm_extent h0 hitems' (by simp) (by simp) h
  . have hitems' : rxReadItems (pat.drop 0) = some (p.items, p.eol) := hitems
    exact rxm_extent h0 hitems' (Nat.zero_le _) (fun _ => hbol) h

theorem rxFind.go_extent {p : RxPattern} (h0 : 0 ∉ pat) (hread : rxRead pat = some p) {i j : Nat} {k : Nat}
    (h : (rxFind.go ic pat line fuel k i st).1 = some (j, n))
    : i ≤ j ∧ j + n ≤ i + (strFrom line i).length ∧ (n = 0 → RxItems p.items []) := by
  induction k generalizing i st with
  | zero => contradiction
  | succ k ih =>
    unfold rxFind.go at h
    by_cases hend : charAt line i = 0
    . rw [if_pos hend] at h
      contradiction
    . rw [if_neg hend] at h
      have hlen := congrArg List.length (strFrom_eq_cons hend)
      rw [List.length_cons] at hlen
      cases hres : rxm ic pat line fuel { st with budget := rxSteps } 0 pat.length i none with
      | mk res st' =>
        rw [hres] at h
        cases res with
        | some mlen =>
          cases h
          obtain ⟨hnil, hle⟩ := rxRead_extent h0 hread (congrArg Prod.fst hres)
          exact ⟨Nat.le_refl _, by omega, hnil⟩
        | none =>
          dsimp only at h
          split at h
          . contradiction
          . obtain ⟨hle, hwithin, hnil⟩ := ih h
            exact ⟨by omega, by omega, hnil⟩

theorem rxFind_end {i : Nat} (h : charAt line i = 0) : (rxFind ic pat line rxSteps i st).1 = none := by
  have htoNat : (i : Int).toNat = i := Int.toNat_natCast i
  unfold rxFind
  rw [htoNat]
  cases line.length - i with
  | zero => rfl
  | succ k =>
    unfold rxFind.go
    rw [if_pos h]

theorem rxFind_extent {p : RxPattern} (h0 : 0 ∉ pat) (hread : rxRead pat = some p)
    (hne : ¬RxItems p.items []) {scan i : Nat} (hscan : scan ≤ (strFrom line 0).length)
    (h : (rxFind ic pat line rxSteps scan st).1 = some (i, n))
    : scan ≤ i ∧ 0 < n ∧ i + n ≤ (strFrom line 0).length := by
  obtain ⟨hle, hwithin, hnil⟩ := rxFind.go_extent h0 hread h
  have hadd := congrArg List.length (strFrom_add hscan)
  rw [Nat.zero_add, List.length_drop] at hadd
  have hpos : n ≠ 0 := fun hzero => hne (hnil hzero)
  have htoNat : (scan : Int).toNat = scan := Int.toNat_natCast scan
  rw [htoNat] at hle hwithin
  exact ⟨hle, by omega, by omega⟩

end Extent

section Pieces

variable {spans : Nat → Int × Int} {rep line : Bytes} {mstart mend cap : Nat} {pieces : List RepPiece}

theorem copyRange_eq {i j : Nat} (hj : j ≤ (strFrom line 0).length)
    : copyRange line i j = ((strFrom line 0).take j).drop i := by
  obtain ⟨rest, hline⟩ : ∃ rest, strFrom line 0 ++ rest = line := List.takeWhile_prefix _
  apply List.ext_getElem?
  intro k
  unfold copyRange
  rw [List.getElem?_map, List.getElem?_drop]
  by_cases hk : k < j - i
  . have hlt : i + k < (strFrom line 0).length := by omega
    have hget : charAt line (i + k) = (strFrom line 0)[i + k] := by
      unfold charAt
      rw [List.getD_eq_getElem?_getD]
      conv_lhs => rw [← hline]
      rw [List.getElem?_append_left hlt, List.getElem?_eq_getElem hlt]
      rfl
    rw [List.getElem?_range hk, List.getElem?_take_of_lt (by omega), List.getElem?_eq_getElem hlt, ← hget]
    rfl
  . rw [List.getElem?_eq_none (by rw [List.length_range]; omega),
      List.getElem?_eq_none (by rw [List.length_take]; omega)]
    rfl

theorem expandRep_cons (piece : RepPiece) (pieces : List RepPiece) (m : Bytes)
    : expandRep (piece :: pieces) m = piece.text m ++ expandRep pieces m :=
  rfl

theorem rxBuildRep.go_eq {m : Bytes} (hm : copyRange line mstart mend = m) (hrep : readRep rep = some pieces)
    {out : Bytes} (hfits : out.length + (expandRep pieces m).length ≤ cap - 1)
    : rxBuildRep.go spans line mstart mend cap rep out = out ++ expandRep pieces m := by
  induction rep using readRep.induct generalizing pieces out with
  | case1 =>
    cases hrep
    rw [rxBuildRep.go]
    exact (List.append_nil out).symm
  | case2 c =>
    cases hrep
    rw [expandRep_cons, List.length_append] at hfits
    rw [rxBuildRep.go, hm, expandRep_cons]
    by_cases hfull : cap - 1 ≤ out.length
    . have hnil : (if c = 38 then RepPiece.whole else .char c).text m = [] :=
        List.eq_nil_of_length_eq_zero (by omega)
      rw [if_pos hfull, hnil]
      exact (List.append_nil out).symm
    . rw [if_neg hfull]
      by_cases hwhole : c = 38
      . rw [if_pos hwhole] at hfits ⊢
        have hroom : m.length ≤ cap - 1 - out.length := by
          have hlen : (RepPiece.whole.text m).length = m.length := rfl
          omega
        rw [if_pos hwhole, List.take_of_length_le hroom]
        exact congrArg (out ++ ·) (List.append_nil m).symm
      . rw [if_neg hwhole, if_neg hwhole]
        rfl
  | case3 d rest hdigit =>
    rw [readRep, if_pos rfl, if_pos hdigit] at hrep
    contradiction
  | case4 d rest hdigit ih =>
    rw [readRep, if_pos rfl, if_neg hdigit] at hrep
    obtain ⟨pieces, hrest, rfl⟩ := Option.map_eq_some_iff.1 hrep
    rw [expandRep_cons, List.length_append] at hfits
    have hone : ((RepPiece.char d).text m).length = 1 := rfl
    rw [rxBuildRep.go, if_neg (by omega), if_neg (by decide), if_neg (fun h => hdigit h.2), if_pos rfl,
      ih hrest (by rw [List.length_append, List.length_singleton]; omega), expandRep_cons, List.append_assoc]
    rfl
  | case5 c d rest hc ih =>
    rw [readRep, if_neg hc] at hrep
    obtain ⟨pieces, hrest, rfl⟩ := Option.map_eq_some_iff.1 hrep
    rw [expandRep_cons, List.length_append] at hfits
    rw [rxBuildRep.go, hm, expandRep_cons]
    by_cases hfull : cap - 1 ≤ out.length
    . have hnil : (if c = 38 then RepPiece.whole else .char c).text m = [] :=
        List.eq_nil_of_length_eq_zero (by omega)
      have hnil' : expandRep pieces m = [] := List.eq_nil_of_length_eq_zero (by omega)
      rw [if_pos hfull, hnil, hnil']
      exact (List.append_nil out).symm
    . rw [if_neg hfull]
      by_cases hwhole : c = 38
      . rw [if_pos hwhole] at hfits ⊢
        have hlen : (RepPiece.whole.text m).length = m.length := rfl
        rw [if_pos hwhole, List.take_of_length_le (by omega),
          ih hrest (by rw [List.length_append]; omega), List.append_assoc]
        rfl
      . rw [if_neg hwhole] at hfits ⊢
        have hone : ((RepPiece.char c).text m).length = 1 := rfl
        rw [if_neg hwhole, if_neg (fun h => hc h.1), if_neg hc,
          ih hrest (by rw [List.length_append, List.length_singleton]; omega), List.append_assoc]
        rfl

end Pieces

section Loop

variable {ic glob : Bool} {pat rep line : Bytes} {p : RxPattern} {pieces : List RepPiece} {st : RxState}
  {scan : Nat} {ms : List (Nat × Nat)}

theorem Found.unique {ms' : List (Nat × Nat)} (h : Found ic glob pat line scan st ms)
    (h' : Found ic glob pat line scan st ms') : ms = ms' := by
  induction h generalizing ms' with
  | none hfind =>
    cases h' with
    | none => rfl
    | only _ hfind' =>
      rw [hfind] at hfind'
      contradiction
    | more _ hfind' =>
      rw [hfind] at hfind'
      contradiction
  | only hglob hfind =>
    cases h' with
    | none hfind' =>
      rw [hfind] at hfind'
      contradiction
    | only _ hfind' =>
      rw [hfind] at hfind'
      cases hfind'
      rfl
    | more hglob' =>
      rw [hglob] at hglob'
      contradiction
  | more hglob hfind _ ih =>
    cases h' with
    | none hfind' =>
      rw [hfind] at hfind'
      contradiction
    | only hglob' =>
      rw [hglob] at hglob'
      contradiction
    | more _ hfind' hrest' =>
      rw [hfind] at hfind'
      cases hfind'
      rw [ih hrest']

theorem Found.replace_append (h0 : 0 ∉ pat) (hread : rxRead pat = some p) (hne : ¬RxItems p.items [])
    (h : Found ic glob pat line scan st ms) (hscan : scan ≤ (strFrom line 0).length) (rest : Bytes)
    : replaceMatches pieces (strFrom line 0 ++ rest) scan ms
        = replaceMatches pieces (strFrom line 0) scan ms ++ rest := by
  have hmatch : ∀ i n, i + n ≤ (strFrom line 0).length →
      (strFrom line 0 ++ rest).take i = (strFrom line 0).take i
        ∧ ((strFrom line 0 ++ rest).drop i).take n = ((strFrom line 0).drop i).take n := by
    intro i n hin
    rw [List.take_append_of_le_length (by omega), List.drop_append_of_le_length (by omega),
      List.take_append_of_le_length (by rw [List.length_drop]; omega)]
    exact ⟨rfl, rfl⟩
  induction h with
  | none => exact List.drop_append_of_le_length hscan
  | only _ hfind =>
    obtain ⟨_, _, hwithin⟩ := rxFind_extent h0 hread hne hscan hfind
    unfold replaceMatches replaceMatches
    rw [(hmatch _ _ hwithin).1, (hmatch _ _ hwithin).2, List.drop_append_of_le_length hwithin]
    simp only [List.append_assoc]
  | more _ hfind _ ih =>
    obtain ⟨_, _, hwithin⟩ := rxFind_extent h0 hread hne hscan hfind
    unfold replaceMatches
    rw [(hmatch _ _ hwithin).1, (hmatch _ _ hwithin).2, ih hwithin]
    simp only [List.append_assoc]

theorem round_newbuf {newbuf : Bytes} {i n : Nat} (hrep : readRep rep = some pieces)
    (hwithin : i + n ≤ (strFrom line 0).length)
    (hfits : newbuf.length + ((((strFrom line 0).take i).drop scan).length
      + (expandRep pieces (((strFrom line 0).drop i).take n)).length) < 65536)
    (spans : Nat → Int × Int)
    : newbuf ++ (copyRange line scan i).take (65535 - newbuf.length)
          ++ rxBuildRep spans rep line i (i + n)
            (65536 - (newbuf ++ (copyRange line scan i).take (65535 - newbuf.length)).length)
        = newbuf ++ (((strFrom line 0).take i).drop scan ++ expandRep pieces (((strFrom line 0).drop i).take n)) := by
  have hmatch : copyRange line i (i + n) = ((strFrom line 0).drop i).take n := by
    rw [copyRange_eq hwithin, List.drop_take, Nat.add_sub_cancel_left]
  rw [copyRange_eq (by omega : i ≤ (strFrom line 0).length), List.take_of_length_le (by omega)]
  unfold rxBuildRep
  rw [rxBuildRep.go_eq hmatch hrep (by rw [List.length_append, List.length_nil]; omega), List.nil_append,
    List.append_assoc]

theorem subLine.loop_spec (h0 : 0 ∉ pat) (hread : rxRead pat = some p) (hne : ¬RxItems p.items [])
    (hrep : readRep rep = some pieces) (fuel : Nat) (x : SubState) (hscan : x.scan ≤ (strFrom line 0).length)
    (hfuel : (strFrom line 0).length < fuel + x.scan)
    : ∃ ms, Found ic glob pat line x.scan x.st ms
        ∧ (x.newbuf.length + (replaceMatches pieces (strFrom line 0) x.scan ms).length < 65536 →
          (subLine.loop ic glob pat rep line fuel x).newbuf
                ++ (strFrom line 0).drop (subLine.loop ic glob pat rep line fuel x).scan
              = x.newbuf ++ replaceMatches pieces (strFrom line 0) x.scan ms
            ∧ (subLine.loop ic glob pat rep line fuel x).scan ≤ (strFrom line 0).length
            ∧ (subLine.loop ic glob pat rep line fuel x).subs = x.subs + ms.length) := by
  induction fuel generalizing x with
  | zero => omega
  | succ fuel ih =>
    unfold subLine.loop
    by_cases hend : charAt line x.scan = 0
    . refine ⟨[], .none (rxFind_end hend), fun _ => ?_⟩
      rw [if_pos hend]
      exact ⟨rfl, hscan, rfl⟩
    . rw [if_neg hend]
      cases hfind : rxFind ic pat line rxSteps x.scan x.st with
      | mk res st =>
        cases res with
        | none => exact ⟨[], .none (congrArg Prod.fst hfind), fun _ => ⟨rfl, hscan, rfl⟩⟩
        | some match_ =>
          obtain ⟨i, n⟩ := match_
          have hsome := congrArg Prod.fst hfind
          have hst : (rxFind ic pat line rxSteps x.scan x.st).2 = st := congrArg Prod.snd hfind
          obtain ⟨hle, hpos, hwithin⟩ := rxFind_extent h0 hread hne hscan hsome
          dsimp only
          rw [if_pos hpos]
          cases hglob : glob with
          | false =>
            refine ⟨[(i, n)], .only rfl hsome, fun hfits => ?_⟩
            unfold replaceMatches replaceMatches at hfits ⊢
            rw [List.length_append, List.length_append] at hfits
            simp only [Bool.false_eq_true, if_false]
            rw [round_newbuf hrep hwithin (by omega) st.spans, List.append_assoc, List.append_assoc]
            exact ⟨rfl, hwithin, rfl⟩
          | true =>
            simp only [if_true]
            obtain ⟨ms, hfound, hrest⟩ := ih
              { newbuf := x.newbuf ++ (copyRange line x.scan i).take (65535 - x.newbuf.length)
                  ++ rxBuildRep st.spans rep line i (i + n)
                    (65536 - (x.newbuf ++ (copyRange line x.scan i).take (65535 - x.newbuf.length)).length)
                scan := i + n
                subs := x.subs + 1
                st } hwithin (by dsimp only; omega)
            rw [hglob] at hfound hrest
            refine ⟨(i, n) :: ms, .more rfl hsome (hst ▸ hfound), fun hfits => ?_⟩
            unfold replaceMatches at hfits ⊢
            rw [List.length_append, List.length_append] at hfits
            rw [round_newbuf hrep hwithin (by omega) st.spans] at hrest ⊢
            obtain ⟨hbuf, hscan', hsubs⟩ := hrest (by
              dsimp only
              rw [List.length_append, List.length_append]
              omega)
            refine ⟨?_, hscan', ?_⟩
            . rw [hbuf]
              simp only [List.append_assoc]
            . rw [hsubs, List.length_cons]
              dsimp only
              omega

end Loop

/--
The line at `ls`, from there on.
-/
def lineAt (t : Bytes) (ls : Nat) : Bytes :=
  (t.drop ls).takeWhile (· ≠ 10)

/--
What `linebuf` holds once the line has been copied.
-/
def filled (line linebuf : Bytes) : Bytes :=
  line ++ 0 :: linebuf.drop (line.length + 1)

/--
The result is short enough for `newbuf` and for the buffer.
-/
def ResultFits (ic glob : Bool) (pat linebuf : Bytes) (pieces : List RepPiece) (st : RxState) (t : Bytes)
    (ls : Nat) : Prop :=
  ∀ ms, Found ic glob pat (filled (lineAt t ls) linebuf) 0 st ms →
    (replaceMatches pieces (lineAt t ls) 0 ms).length < 65536
      ∧ t.length - (lineAt t ls).length + (replaceMatches pieces (lineAt t ls) 0 ms).length ≤ maxText - 1

/--
The matches in the line are replaced, all the rest is as it was, and their number is returned.
-/
def ChangesMatches (ic glob : Bool) (pat rep linebuf : Bytes) (pieces : List RepPiece) (st : RxState)
    (eb : EditorBuffer) (ls : Nat) : Prop :=
  ∃ ms, Found ic glob pat (filled (lineAt eb.text ls) linebuf) 0 st ms
    ∧ (subLine ic glob pat rep linebuf st eb ls).1 = ms.length
    ∧ (subLine ic glob pat rep linebuf st eb ls).2.1.text
      = eb.text.take ls ++ replaceMatches pieces (lineAt eb.text ls) 0 ms
        ++ eb.text.drop (ls + (lineAt eb.text ls).length)

section Main

variable {ic glob : Bool} {pat rep linebuf : Bytes} {p : RxPattern} {pieces : List RepPiece} {st : RxState}
  {eb : EditorBuffer} {ls : Nat}

theorem strFrom_filled (line linebuf : Bytes) : strFrom (filled line linebuf) 0 = line.takeWhile (· ≠ 0) := by
  unfold strFrom filled
  rw [List.drop_zero]
  generalize linebuf.drop (line.length + 1) = rest
  induction line with
  | nil => rfl
  | cons x line ih => rw [List.cons_append, List.takeWhile_cons, List.takeWhile_cons, ih]

theorem EditorBuffer.replaceRange_text (h : GapInv eb) {i j : Nat} (hij : i ≤ j) (hj : j ≤ eb.text.length)
    {s : Bytes} (hfits : eb.text.length - (j - i) + s.length ≤ maxText - 1) (hs : s.length < 2 ^ 30)
    : ((eb.deleteRange i (j - i)).insertBytes i s).2.text = eb.text.take i ++ s ++ eb.text.drop j := by
  obtain ⟨hinv, hdeleted⟩ := EditorBuffer.deleteRange_at h hij hj
  have htake : (eb.text.take i).length = i := List.length_take_of_le (by omega)
  have hback : (eb.text.take i ++ eb.text.drop j).length = eb.text.length - (j - i) := by
    rw [List.length_append, List.length_drop, htake]
    omega
  have hinserted := (EditorBuffer.insertBytes_at hinv (k := i) (by rw [hdeleted, hback]; omega) hs).2
  rw [hdeleted, hback, List.take_left' htake, List.drop_left' htake, List.take_of_length_le (l := s) (by omega)]
    at hinserted
  exact hinserted

theorem subLine_eq (h : GapInv eb) (hls : ls ≤ eb.text.length) (hlen : (lineAt eb.text ls).length ≤ 32768)
    {x : SubState} (hx : x = subLine.loop ic glob pat rep (filled (lineAt eb.text ls) linebuf)
      ((lineAt eb.text ls).length + 1) { newbuf := [], scan := 0, subs := 0, st })
    : subLine ic glob pat rep linebuf st eb ls
        = if x.subs = 0 then (0, eb, x.st)
          else
            (x.subs,
              ((eb.deleteRange ls ((ls + (lineAt eb.text ls).length : Nat) - ls)).insertBytes ls
                (x.newbuf ++ (strFrom (filled (lineAt eb.text ls) linebuf) x.scan).take (65535 - x.newbuf.length))).2,
              x.st) := by
  have htext := EditorBuffer.length_text h
  have hend := EditorBuffer.lineEnd_eq h (show ((ls : Nat) : Int) ≤ eb.len by omega)
  have hle : (lineAt eb.text ls).length ≤ (eb.text.drop ls).length := (List.takeWhile_sublist _).length_le
  rw [List.length_drop] at hle
  have hend' : eb.lineEnd ls = (ls + (lineAt eb.text ls).length : Nat) := by
    rw [hend]
    unfold lineAt
    omega
  have hlsz : (((ls + (lineAt eb.text ls).length : Nat) : Int) - ls).toNat = (lineAt eb.text ls).length := by
    omega
  have hcopy : (List.range (lineAt eb.text ls).length).map (fun i : Nat => eb.textAt (ls + i))
      = lineAt eb.text ls := by
    rw [EditorBuffer.map_textAt h (by omega)]
    exact (List.prefix_iff_eq_take.mp (List.takeWhile_prefix _)).symm
  unfold subLine
  dsimp only
  rw [hend', hlsz, if_neg (by omega), hcopy]
  unfold filled at hx ⊢
  rw [← hx]

theorem changesMatches_iff (h0 : 0 ∉ pat) (hread : rxRead pat = some p) (hne : ¬RxItems p.items [])
    (hrep : readRep rep = some pieces) (h : GapInv eb) (hls : ls ≤ eb.text.length)
    (hlen : (lineAt eb.text ls).length ≤ 32768) (hfits : ResultFits ic glob pat linebuf pieces st eb.text ls)
    : ChangesMatches ic glob pat rep linebuf pieces st eb ls
        ↔ 0 ∉ lineAt eb.text ls
          ∨ (rxFind ic pat (filled (lineAt eb.text ls) linebuf) rxSteps 0 st).1 = none := by
  have hpre : lineAt eb.text ls <+: eb.text.drop ls := List.takeWhile_prefix _
  obtain ⟨tail, htail⟩ := hpre
  have hdrop : eb.text.drop (ls + (lineAt eb.text ls).length) = tail := by
    rw [← List.drop_drop, ← htail, List.drop_left]
  have hlsz : ls + (lineAt eb.text ls).length ≤ eb.text.length := by
    have := congrArg List.length htail
    rw [List.length_append, List.length_drop] at this
    omega
  -- the string in front of the first null, and what is behind it
  obtain ⟨rest, hrest⟩ : ∃ rest, (lineAt eb.text ls).takeWhile (· ≠ 0) ++ rest = lineAt eb.text ls :=
    List.takeWhile_prefix _
  have hstr := strFrom_filled (lineAt eb.text ls) linebuf
  have hnull : rest = [] ↔ 0 ∉ lineAt eb.text ls := by
    constructor
    . intro hnil hmem
      rw [hnil, List.append_nil] at hrest
      simpa using List.takeWhile_eq_self_iff.mp hrest 0 hmem
    . intro hno
      have hself : (lineAt eb.text ls).takeWhile (· ≠ 0) = lineAt eb.text ls := by
        apply List.takeWhile_eq_self_iff.mpr
        intro x hx
        simpa using fun hz : x = 0 => hno (hz ▸ hx)
      rw [hself] at hrest
      simpa using hrest
  obtain ⟨ms, hfound, hloop⟩ := @subLine.loop_spec ic glob pat rep (filled (lineAt eb.text ls) linebuf) p pieces
    h0 hread hne hrep ((lineAt eb.text ls).length + 1) { newbuf := [], scan := 0, subs := 0, st } (Nat.zero_le _)
    (by
      have := (List.takeWhile_sublist (fun c : Byte => decide (c ≠ 0)) (l := lineAt eb.text ls)).length_le
      rw [hstr]
      dsimp only
      omega)
  dsimp only at hfound hloop
  generalize hx : subLine.loop ic glob pat rep (filled (lineAt eb.text ls) linebuf)
    ((lineAt eb.text ls).length + 1) { newbuf := [], scan := 0, subs := 0, st } = x at hloop
  have happend : replaceMatches pieces (lineAt eb.text ls) 0 ms
      = replaceMatches pieces ((lineAt eb.text ls).takeWhile (· ≠ 0)) 0 ms ++ rest := by
    rw [← hstr, ← hfound.replace_append h0 hread hne (Nat.zero_le _) rest, hstr, hrest]
  rw [hstr] at hloop
  obtain ⟨hshort, hroom⟩ := hfits ms hfound
  rw [happend, List.length_append] at hshort hroom
  obtain ⟨hbuf, hscan, hsubs⟩ := hloop (by rw [List.length_nil]; omega)
  rw [List.nil_append] at hbuf
  rw [Nat.zero_add] at hsubs
  have heq := @subLine_eq ic glob pat rep linebuf st eb ls h hls hlen x hx.symm
  have hwritten : x.newbuf ++ (strFrom (filled (lineAt eb.text ls) linebuf) x.scan).take (65535 - x.newbuf.length)
      = replaceMatches pieces ((lineAt eb.text ls).takeWhile (· ≠ 0)) 0 ms := by
    have hadd := @strFrom_add (filled (lineAt eb.text ls) linebuf) 0 x.scan (by rw [hstr]; exact hscan)
    rw [Nat.zero_add, hstr] at hadd
    have hlength := congrArg List.length hbuf
    rw [List.length_append] at hlength
    rw [hadd, List.take_of_length_le (by omega), hbuf]
  rw [hwritten] at heq
  have hreplaced := EditorBuffer.replaceRange_text h (Nat.le_add_right ls (lineAt eb.text ls).length) hlsz
    (show eb.text.length - (ls + (lineAt eb.text ls).length - ls)
      + (replaceMatches pieces ((lineAt eb.text ls).takeWhile (· ≠ 0)) 0 ms).length ≤ maxText - 1 by omega)
    (by omega)
  cases hms : ms with
  | nil =>
    subst hms
    rw [List.length_nil] at hsubs
    have hnone : (rxFind ic pat (filled (lineAt eb.text ls) linebuf) rxSteps 0 st).1 = none := by
      cases hfound with
      | none hfind => exact hfind
    rw [if_pos hsubs] at heq
    refine ⟨fun _ => .inr hnone, fun _ => ⟨[], hfound, ?_, ?_⟩⟩
    . rw [heq]
      rfl
    . rw [heq, hdrop]
      unfold replaceMatches
      rw [List.drop_zero, List.append_assoc, htail, List.take_append_drop]
  | cons m rest_ =>
    have hne' : x.subs ≠ 0 := by
      rw [hsubs, hms]
      exact Nat.succ_ne_zero _
    rw [if_neg hne'] at heq
    constructor
    . rintro ⟨ms', hfound', _, htext⟩
      rw [hfound'.unique hfound, heq, hdrop] at htext
      dsimp only at htext
      rw [hreplaced, hdrop, happend] at htext
      have hlength := congrArg List.length htext
      simp only [List.length_append] at hlength
      exact .inl (hnull.mp (List.eq_nil_of_length_eq_zero (by omega)))
    . rintro (hno | hnone)
      . rw [hnull.mpr hno, List.append_nil] at happend
        refine ⟨ms, hfound, ?_, ?_⟩
        . rw [heq, hsubs]
        . rw [heq, happend]
          exact hreplaced
      . have hnil := hfound.unique (.none hnone)
        rw [hms] at hnil
        contradiction

end Main

/--
`sub_line` reads the line as a string: what is behind a null in it is lost when something is replaced.
-/
theorem subLine_changesMatches_iff (ic glob : Bool) (pat rep : CStr) (linebuf : Bytes) (p : RxPattern)
    (pieces : List RepPiece) (st : RxState) (eb : EditorBuffer) (ls : Nat) (h : GapInv eb)
    (hls : ls ≤ eb.text.length) (hlen : (lineAt eb.text ls).length ≤ 32768) (hread : rxRead pat.val = some p)
    (hne : ¬RxItems p.items []) (hrep : readRep rep.val = some pieces)
    (hfits : ResultFits ic glob pat.val linebuf pieces st eb.text ls)
    : ChangesMatches ic glob pat.val rep.val linebuf pieces st eb ls
        ↔ 0 ∉ lineAt eb.text ls
          ∨ (rxFind ic pat.val (filled (lineAt eb.text ls) linebuf) rxSteps 0 st).1 = none :=
  changesMatches_iff pat.2 hread hne hrep h hls hlen hfits

section Example

theorem letterB_nonempty : ¬RxItems letterB.items [] := by
  intro h
  cases h

theorem resultFits_letter {t : Bytes} {i : Nat}
    (hfind : (rxFind false [98] (filled (lineAt t 0) []) rxSteps 0 rxBoot).1 = some (i, 1))
    (hlen : (replaceMatches [.char 99] (lineAt t 0) 0 [(i, 1)]).length < 65536
      ∧ t.length - (lineAt t 0).length + (replaceMatches [.char 99] (lineAt t 0) 0 [(i, 1)]).length
        ≤ maxText - 1)
    : ResultFits false false [98] [] [.char 99] rxBoot t 0 := by
  intro ms hfound
  rw [hfound.unique (.only rfl hfind)]
  exact hlen

end Example

/--
`:s/b/c/` in `ab`.
-/
theorem subLine_changesMatches_letter
    : ChangesMatches false false [98] [99] [] [.char 99] rxBoot (editing [97, 98]).eb 0 := by
  obtain ⟨hinv, htext⟩ := @editing_text [97, 98] (by decide)
  have hfits : ResultFits false false [98] [] [.char 99] rxBoot (editing [97, 98]).eb.text 0 := by
    rw [htext]
    exact @resultFits_letter [97, 98] 1 (by decide +kernel) (by decide +kernel)
  refine (subLine_changesMatches_iff false false ⟨[98], by decide⟩ ⟨[99], by decide⟩ [] letterB [.char 99] rxBoot
    (editing [97, 98]).eb 0 hinv (Nat.zero_le _) ?_ rxRead_letterB letterB_nonempty rfl hfits).mpr ?_
  . rw [htext]
    decide
  . rw [htext]
    exact .inl (by decide)

/--
In a line of `b`, a null and `x` the `x` is lost with the null.
-/
theorem not_subLine_changesMatches
    : ¬∀ (ic glob : Bool) (pat rep : CStr) (linebuf : Bytes) (p : RxPattern) (pieces : List RepPiece) (st : RxState)
        (eb : EditorBuffer) (ls : Nat), GapInv eb → ls ≤ eb.text.length → (lineAt eb.text ls).length ≤ 32768 →
        rxRead pat.val = some p → ¬RxItems p.items [] → readRep rep.val = some pieces →
        ResultFits ic glob pat.val linebuf pieces st eb.text ls →
        ChangesMatches ic glob pat.val rep.val linebuf pieces st eb ls := by
  intro h
  obtain ⟨hinv, htext⟩ := @editing_text [98, 0, 120] (by decide)
  have hlen : (lineAt (editing [98, 0, 120]).eb.text 0).length ≤ 32768 := by
    rw [htext]
    decide
  have hfits : ResultFits false false [98] [] [.char 99] rxBoot (editing [98, 0, 120]).eb.text 0 := by
    rw [htext]
    exact @resultFits_letter [98, 0, 120] 0 (by decide +kernel) (by decide +kernel)
  have hchanges := h false false ⟨[98], by decide⟩ ⟨[99], by decide⟩ [] letterB [.char 99] rxBoot
    (editing [98, 0, 120]).eb 0 hinv (Nat.zero_le _) hlen rxRead_letterB letterB_nonempty rfl hfits
  obtain hno | hnone := (changesMatches_iff (by decide) rxRead_letterB letterB_nonempty rfl hinv (Nat.zero_le _) hlen
    hfits).mp hchanges
  . rw [htext] at hno
    exact hno (by decide)
  . rw [htext] at hnone
    revert hnone
    decide +kernel

end TanjaOS
