import TanjaOS.Lib.Mem

/-!
The regular expressions of the editor, for `/`, `?` and `:s`. A pattern and a line are the arrays they
are in up to where these have been filled, what comes after that reads as a null.

In ASCII `$` is 36, `&` is 38, `(` and `)` are 40 and 41, `*` is 42, `-` is 45, `.` is 46, `[`, `\` and
`]` are 91 to 93, `^` is 94.
-/

open Lib

namespace TanjaOS

/--
`s[i]`
-/
def charAt (s : Bytes) (i : Nat) : Byte :=
  s.getD i 0

/--
A `char` is signed, and `ic` is `opt_ic`.
-/
def rxFold (ic : Bool) (c : Byte) : Int :=
  let x := c.toInt8.toInt
  if ic ∧ 65 ≤ x ∧ x ≤ 90 then x + 32 else x

/--
`rx_budget` and `rx_spans`.
-/
structure RxState where
  budget : Nat
  spans : Nat → Int × Int

/--
The index of the `\)` that closes the group, `rest` is the pattern from `i` on.
-/
def rxGroupClose (depth : Nat) (i : Nat) (rest : Bytes) : Option Nat :=
  match rest with
  | [] => none
  | [_] => none
  | c :: d :: rest =>
    if c = 92 then
      if d = 40 then rxGroupClose (depth + 1) (i + 2) rest
      else if d = 41 then
        if depth = 1 then some i else rxGroupClose (depth - 1) (i + 2) rest
      else rxGroupClose depth (i + 2) rest
    else
      rxGroupClose depth (i + 1) (d :: rest)

/--
How many groups the pattern opens before the index `pi`.
-/
def rxGroupId.opened (pi i : Nat) (rest : Bytes) : Nat :=
  match rest with
  | [] => 0
  | [_] => 0
  | c :: d :: rest =>
    if pi ≤ i then 0
    else if c = 92 then
      (if d = 40 then 1 else 0) + opened pi (i + 2) rest
    else
      opened pi (i + 1) (d :: rest)

def rxGroupId (pat : Bytes) (pi : Nat) : Nat :=
  rxGroupId.opened pi 0 pat + 1

/--
The loop over the members of a class: is `x` one of them, and how many characters are they.
-/
def rxMembers (ic : Bool) (x : Byte) (rest : Bytes) : Bool × Nat :=
  match rest with
  | c :: d :: e :: rest =>
    if c = 93 then
      (false, 0)
    else if d = 45 ∧ e ≠ 93 then
      let (ok, n) := rxMembers ic x rest
      (decide (rxFold ic c ≤ rxFold ic x ∧ rxFold ic x ≤ rxFold ic e) || ok, n + 3)
    else
      let (ok, n) := rxMembers ic x (d :: e :: rest)
      (decide (rxFold ic x = rxFold ic c) || ok, n + 1)
  | c :: rest =>
    if c = 93 then
      (false, 0)
    else
      let (ok, n) := rxMembers ic x rest
      (decide (rxFold ic x = rxFold ic c) || ok, n + 1)
  | [] => (false, 0)

/--
Does `x` match the class that starts at `pi`, behind the bracket, and where it ends.
-/
def rxClass (ic : Bool) (pat : Bytes) (pi : Nat) (x : Byte) : Bool × Nat :=
  let neg := charAt pat pi = 94
  let i := if neg then pi + 1 else pi
  let first := charAt pat i = 93
  let ok := decide (first ∧ x = 93)
  let i := if first then i + 1 else i
  let (member, n) := rxMembers ic x (pat.drop i)
  let i := i + n
  let i := if charAt pat i = 93 then i + 1 else i
  if x = 0 then (false, i) else ((ok || member) != decide neg, i)

/--
Does `x` match the atom at `pi`, and where it ends.
-/
def rxAtom (ic : Bool) (pat : Bytes) (pi : Nat) (x : Byte) : Bool × Nat :=
  let c := charAt pat pi
  let pi := pi + 1
  if c = 46 then
    (decide (x ≠ 0), pi)
  else if c = 91 then
    rxClass ic pat pi x
  else if c = 92 ∧ charAt pat pi ≠ 0 then
    (decide (rxFold ic x = rxFold ic (charAt pat pi)), pi + 1)
  else
    (decide (rxFold ic x = rxFold ic c), pi)

def rxAtomExtent (pat : Bytes) (pi : Nat) : Nat :=
  if charAt pat pi = 91 then
    let q := pi + 1
    let q := if charAt pat q = 94 then q + 1 else q
    let q := if charAt pat q = 93 then q + 1 else q
    let q := q + ((pat.drop q).takeWhile (fun c => c ≠ 0 ∧ c ≠ 93)).length
    let q := if charAt pat q ≠ 0 then q + 1 else q
    q - pi
  else if charAt pat pi = 92 ∧ charAt pat (pi + 1) ≠ 0 then
    2
  else
    1

/--
`for (i = n; i >= 0; i--)`, until `body` has a result.
-/
def rxGreedy {σ : Type} (body : Nat → σ → Option Nat × σ) (n : Nat) (st : σ) : Option Nat × σ :=
  match n with
  | 0 => body 0 st
  | i + 1 =>
    match body (i + 1) st with
    | (some len, st) => (some len, st)
    | (none, st) => rxGreedy body i st

/--
The result is the length of the match. Where `rxm` does not set `*slen`, that is with a length to be
met, nobody uses it. There are no more nested calls than steps, so `fuel` is as large as the budget.
-/
def rxm (ic : Bool) (pat line : Bytes) (fuel : Nat) (st : RxState) (pi stop s : Nat)
    (exact : Option Nat) : Option Nat × RxState :=
  match fuel with
  | 0 => (none, st)
  | fuel + 1 =>
    if st.budget = 0 then
      (none, st)
    else
      let st := { st with budget := st.budget - 1 }
      if pi = stop then
        (if exact.getD 0 = 0 then some 0 else none, st)
      else if charAt pat pi = 94 ∧ pi = 0 then
        if s ≠ 0 then (none, st) else rxm ic pat line fuel st 1 stop s exact
      else if charAt pat pi = 36 ∧ pi + 1 = stop then
        if charAt line s ≠ 0 then (none, st)
        else if exact.getD 0 ≠ 0 then (none, st)
        else (some 0, st)
      else if charAt pat pi = 92 ∧ pi + 1 < stop ∧ charAt pat (pi + 1) = 40 then
        match rxGroupClose 1 (pi + 2) (pat.drop (pi + 2)) with
        | none => (none, st)
        | some close =>
          let gid := rxGroupId pat pi
          let gid := if gid < 1 ∨ 9 < gid then 0 else gid
          let span (st : RxState) (from_ to_ : Nat) : RxState :=
            if gid = 0 then st
            else { st with spans := fun g => if g = gid then (from_, to_) else st.spans g }
          let after := close + 2
          if after < stop ∧ charAt pat after = 42 then
            let (body, st) := rxm ic pat line fuel st (pi + 2) close s exact
            let (more, st) :=
              match body with
              | none => (none, st)
              | some bl =>
                let st := span st s (s + bl)
                let (rl, st) := rxm ic pat line fuel st pi stop (s + bl) (exact.map (· - bl))
                (rl.map (· + bl), st)
            match more with
            | some len => (some len, st)
            | none =>
              let (rl, st) := rxm ic pat line fuel st (after + 1) stop s exact
              (rl, if rl.isSome then span st s s else st)
          else
            let maxe := ((line.drop s).takeWhile (· ≠ 0)).length
            let maxe := match exact with | some e => min e maxe | none => maxe
            rxGreedy (fun i st =>
              match rxm ic pat line fuel st (pi + 2) close s (some i) with
              | (none, st) => (none, st)
              | (some _, st) =>
                let (rl, st) := rxm ic pat line fuel st after stop (s + i) (exact.map (· - i))
                (rl.map (i + ·), if rl.isSome then span st s (s + i) else st)) maxe st
      else
        let aext := rxAtomExtent pat pi
        if charAt pat (pi + aext) = 42 then
          let kmax := ((line.drop s).takeWhile (fun x => x ≠ 0 ∧ (rxAtom ic pat pi x).1)).length
          rxGreedy (fun i st =>
            if exact.any (· < i) then
              (none, st)
            else
              let (rl, st) :=
                rxm ic pat line fuel st (pi + aext + 1) stop (s + i) (exact.map (· - i))
              (rl.map (i + ·), st)) kmax st
        else
          let (r, pp) := rxAtom ic pat pi (charAt line s)
          if r = false then
            (none, st)
          else if exact = some 0 then
            (none, st)
          else
            let (rl, st) := rxm ic pat line fuel st pp stop (s + 1) (exact.map (· - 1))
            (rl.map (1 + ·), st)

def rxSteps : Nat := 60000

/--
The leftmost match from `from_` on: its position and its length.
-/
def rxFind (ic : Bool) (pat line : Bytes) (fuel : Nat) (from_ : Int) (st : RxState)
    : Option (Nat × Nat) × RxState :=
  go (line.length - from_.toNat) from_.toNat st
where
  /-- From `i` on, `n` is how many characters there are at most. -/
  go (n i : Nat) (st : RxState) : Option (Nat × Nat) × RxState :=
    match n with
    | 0 => (none, st)
    | n + 1 =>
      if charAt line i = 0 then
        (none, st)
      else
        match rxm ic pat line fuel { st with budget := rxSteps } 0 pat.length i none with
        | (some mlen, st) => (some (i, mlen), st)
        | (none, st) => if charAt pat 0 = 94 then (none, st) else go n (i + 1) st

end TanjaOS
