import TanjaOS.Kbd.Ring

/-!
From scancodes to keys. `get_key` reads the ring and then the keyboard itself. While a program runs,
the timer looks at the scancodes first.
-/

open Lib

namespace TanjaOS

/--
`keymap` and `keymap_shift`, the entries behind these are 0.
-/
def keymap : Bytes :=
  [0, 27, 49, 50, 51, 52, 53, 54, 55, 56, 57, 48, 45, 61,
    8, 9, 113, 119, 101, 114, 116, 121, 117, 105, 111, 112, 91, 93, 10,
    0, 97, 115, 100, 102, 103, 104, 106, 107, 108, 59, 39, 96,
    0, 92, 122, 120, 99, 118, 98, 110, 109, 44, 46, 47,
    0, 42, 0, 32]

def keymapShift : Bytes :=
  [0, 27, 33, 64, 35, 36, 37, 94, 38, 42, 40, 41, 95, 43,
    8, 9, 81, 87, 69, 82, 84, 89, 85, 73, 79, 80, 123, 125, 10,
    0, 65, 83, 68, 70, 71, 72, 74, 75, 76, 58, 34, 126,
    0, 124, 90, 88, 67, 86, 66, 78, 77, 60, 62, 63,
    0, 42, 0, 32]

def keyUp : Nat := 0x80

def keyDown : Nat := 0x81

def keyLeft : Nat := 0x82

def keyRight : Nat := 0x83

structure Modifiers where
  shift : Bool
  ctrl : Bool
  capsLock : Bool
  deriving DecidableEq

namespace Modifiers

def take (m : Modifiers) (sc : Byte) : Option Modifiers :=
  if sc = 0x2A ∨ sc = 0x36 then
    some { m with shift := true }
  else if sc = 0x1D then
    some { m with ctrl := true }
  else if sc = 0x9D then
    some { m with ctrl := false }
  else if sc = 0xAA ∨ sc = 0xB6 then
    some { m with shift := false }
  else if sc = 0x3A then
    some { m with capsLock := !m.capsLock }
  else
    none

def translate (m : Modifiers) (sc : Byte) : Option Nat :=
  let base := keymap.getD sc.toNat 0
  let isLetter := 97 ≤ base ∧ base ≤ 122
  let useShiftMap := if isLetter then m.shift != m.capsLock else m.shift
  let res := if useShiftMap then keymapShift.getD sc.toNat 0 else keymap.getD sc.toNat 0
  if res = 0 then
    none
  else if m.ctrl ∧ 97 ≤ res ∧ res ≤ 122 then
    some (res.toNat - 97 + 1)
  else
    some res.toNat

end Modifiers

def arrow (ext : Byte) : Option Nat :=
  if ext = 0x48 then
    some keyUp
  else if ext = 0x50 then
    some keyDown
  else if ext = 0x4B then
    some keyLeft
  else if ext = 0x4D then
    some keyRight
  else
    none

/--
`port` has the scancodes that wait in the keyboard.
-/
structure Keyboard where
  mods : Modifiers
  ring : KbRing
  port : Bytes

namespace Keyboard

def sniff (s : Bool × Modifiers × KbRing) (sc : Byte) : Bool × Modifiers × KbRing :=
  let (gotCc, mods, ring) := s
  match mods.take sc with
  | some mods => (gotCc, mods, ring)
  | none =>
    if sc = 0x2E ∧ mods.ctrl then
      (true, mods, ring)
    else
      (gotCc, mods, (ring.push sc).2)

def ctrlcPoll (k : Keyboard) : Bool × Keyboard :=
  let (gotCc, mods, ring) := k.port.foldl sniff (false, k.mods, k.ring)
  (gotCc, { mods, ring, port := [] })

/--
The next scancode: `none` waits for one.
-/
def nextScancode (k : Keyboard) : Option (Byte × Keyboard) :=
  match k.ring.pop with
  | (some sc, ring) => some (sc, { k with ring })
  | (none, _) =>
    match k.port with
    | [] => none
    | sc :: port => some (sc, { k with port })

/--
What `next_scancode` will return before it waits.
-/
def pending (k : Keyboard) : Bytes :=
  k.ring.stored ++ k.port

theorem nextScancode_none {k : Keyboard} (h : k.pending = []) : k.nextScancode = none := by
  obtain ⟨hstored, hport⟩ := List.append_eq_nil_iff.mp h
  unfold nextScancode
  rw [KbRing.pop_nil hstored]
  dsimp only
  rw [hport]

theorem nextScancode_cons {k : Keyboard} {sc : Byte} {rest : Bytes} (h : k.pending = sc :: rest)
    : ∃ k', k.nextScancode = some (sc, k') ∧ k'.mods = k.mods ∧ k'.pending = rest := by
  unfold pending at h
  unfold nextScancode
  cases hstored : k.ring.stored with
  | nil =>
    rw [hstored, List.nil_append] at h
    rw [KbRing.pop_nil hstored, h]
    refine ⟨_, rfl, rfl, ?_⟩
    unfold pending
    dsimp only
    rw [hstored, List.nil_append]
  | cons c stored =>
    rw [hstored, List.cons_append] at h
    obtain ⟨rfl, hrest⟩ := List.cons.inj h
    obtain ⟨hpop, hleft⟩ := KbRing.pop_cons hstored
    rw [hpop]
    refine ⟨_, rfl, rfl, ?_⟩
    unfold pending
    dsimp only
    rw [hleft, hrest]

theorem nextScancode_some {k k' : Keyboard} {sc : Byte} (h : k.nextScancode = some (sc, k'))
    : k'.mods = k.mods ∧ k.pending = sc :: k'.pending := by
  cases hpending : k.pending with
  | nil =>
    rw [nextScancode_none hpending] at h
    contradiction
  | cons c rest =>
    obtain ⟨k'', heq, hmods, hrest⟩ := nextScancode_cons hpending
    rw [heq] at h
    obtain ⟨rfl, rfl⟩ := Prod.mk.inj (Option.some.inj h)
    exact ⟨hmods, by rw [hrest]⟩

/--
`none` waits for more scancodes.
-/
def getKey (k : Keyboard) : Option (Nat × Keyboard) :=
  match _h : k.nextScancode with
  | none => none
  | some (sc, k₁) =>
    match k₁.mods.take sc with
    | some mods => getKey { k₁ with mods }
    | none =>
      if sc = 0xE0 then
        match _h' : k₁.nextScancode with
        | none => none
        | some (ext, k₂) =>
          match arrow ext with
          | some key => some (key, k₂)
          | none => getKey k₂
      else if sc &&& 0x80 ≠ 0 then
        getKey k₁
      else
        match k₁.mods.translate sc with
        | some key => some (key, k₁)
        | none => getKey k₁
termination_by k.pending.length
decreasing_by
  . rw [(nextScancode_some _h).2]
    exact Nat.lt_succ_self _
  . rw [(nextScancode_some _h).2, (nextScancode_some _h').2]
    exact Nat.lt_succ_of_lt (Nat.lt_succ_self _)
  . rw [(nextScancode_some _h).2]
    exact Nat.lt_succ_self _
  . rw [(nextScancode_some _h).2]
    exact Nat.lt_succ_self _

end Keyboard

section Spec

def keysOf (m : Modifiers) : Bytes → List Nat
  | [] => []
  | sc :: rest =>
    match m.take sc with
    | some m => keysOf m rest
    | none =>
      if sc = 0xE0 then
        match rest with
        | [] => []
        | ext :: rest => (arrow ext).toList ++ keysOf m rest
      else if sc &&& 0x80 ≠ 0 then
        keysOf m rest
      else
        (m.translate sc).toList ++ keysOf m rest

theorem keysOf_cons (m : Modifiers) (sc : Byte) (rest : Bytes)
    : keysOf m (sc :: rest)
      = match m.take sc with
        | some m => keysOf m rest
        | none =>
          if sc = 0xE0 then
            match rest with
            | [] => []
            | ext :: rest => (arrow ext).toList ++ keysOf m rest
          else if sc &&& 0x80 ≠ 0 then
            keysOf m rest
          else
            (m.translate sc).toList ++ keysOf m rest := by
  rw [keysOf.eq_def]
  rfl

end Spec

namespace Keyboard

def FirstKey (k : Keyboard) : Option (Nat × Keyboard) → Prop
  | none => keysOf k.mods k.pending = []
  | some (key, k') => keysOf k.mods k.pending = key :: keysOf k'.mods k'.pending
      ∧ k'.pending.length < k.pending.length

theorem FirstKey.skip {k k' : Keyboard} {r : Option (Nat × Keyboard)} (h : k'.FirstKey r)
    (hkeys : keysOf k.mods k.pending = keysOf k'.mods k'.pending)
    (hlen : k'.pending.length < k.pending.length)
    : k.FirstKey r := by
  cases r with
  | none => exact hkeys.trans h
  | some r => exact ⟨hkeys.trans h.1, h.2.trans hlen⟩

theorem getKey_firstKey (k : Keyboard) : k.FirstKey k.getKey := by
  induction hn : k.pending.length using Nat.strong_induction_on generalizing k with
  | _ n ih =>
    subst hn
    unfold getKey
    split
    . next h =>
      cases hpending : k.pending with
      | nil =>
        unfold FirstKey
        rw [hpending, keysOf]
      | cons sc rest =>
        obtain ⟨k', heq, _⟩ := nextScancode_cons hpending
        rw [heq] at h
        contradiction
    . next sc k₁ h =>
      obtain ⟨hmods, hpending⟩ := nextScancode_some h
      have hlen : k₁.pending.length < k.pending.length := by
        rw [hpending]
        exact Nat.lt_succ_self _
      split
      . next mods hmod =>
        refine (ih { k₁ with mods }.pending.length hlen { k₁ with mods } rfl).skip ?_ hlen
        rw [hpending, keysOf_cons, ← hmods, hmod]
        rfl
      . next hmod =>
        split
        . next hext =>
          split
          . next h' =>
            cases hrest : k₁.pending with
            | nil =>
              unfold FirstKey
              rw [hpending, keysOf_cons, ← hmods, hmod, hrest]
              dsimp only
              rw [if_pos hext]
            | cons ext rest =>
              obtain ⟨k', heq, _⟩ := nextScancode_cons hrest
              rw [heq] at h'
              contradiction
          . next ext k₂ h' =>
            obtain ⟨hmods', hpending'⟩ := nextScancode_some h'
            have hlen' : k₂.pending.length < k.pending.length := by
              rw [hpending'] at hlen
              exact Nat.lt_of_succ_lt hlen
            have hkeys : keysOf k.mods k.pending = (arrow ext).toList ++ keysOf k₂.mods k₂.pending := by
              rw [hpending, keysOf_cons, ← hmods, hmod, hpending', hmods']
              dsimp only
              rw [if_pos hext]
            split
            . next key harrow =>
              rw [harrow] at hkeys
              exact ⟨hkeys, hlen'⟩
            . next harrow =>
              rw [harrow] at hkeys
              exact (ih _ hlen' k₂ rfl).skip hkeys hlen'
        . next hext =>
          split
          . next hbreak =>
            refine (ih _ hlen k₁ rfl).skip ?_ hlen
            rw [hpending, keysOf_cons, ← hmods, hmod]
            dsimp only
            rw [if_neg hext, if_pos hbreak]
          . next hbreak =>
            have hkeys : keysOf k.mods k.pending = (k₁.mods.translate sc).toList ++ keysOf k₁.mods k₁.pending := by
              rw [hpending, keysOf_cons, ← hmods, hmod]
              dsimp only
              rw [if_neg hext, if_neg hbreak]
            split
            . next key htrans =>
              rw [htrans] at hkeys
              exact ⟨hkeys, hlen⟩
            . next htrans =>
              rw [htrans] at hkeys
              exact (ih _ hlen k₁ rfl).skip hkeys hlen

/--
What `get_key` returns, call after call, until it waits.
-/
def typed (k : Keyboard) : List Nat :=
  match _h : k.getKey with
  | none => []
  | some (key, k') => key :: typed k'
termination_by k.pending.length
decreasing_by
  have hfirst := k.getKey_firstKey
  rw [_h] at hfirst
  exact hfirst.2

theorem typed_eq (k : Keyboard) : k.typed = keysOf k.mods k.pending := by
  induction hn : k.pending.length using Nat.strong_induction_on generalizing k with
  | _ n ih =>
    subst hn
    have hfirst := k.getKey_firstKey
    unfold typed
    split
    . next h =>
      rw [h] at hfirst
      exact hfirst.symm
    . next key k' h =>
      rw [h] at hfirst
      rw [hfirst.1, ih _ hfirst.2 k' rfl]

end Keyboard

section Sniff

def Modifiers.after (m : Modifiers) (scs : Bytes) : Modifiers :=
  scs.foldl (fun m sc => (m.take sc).getD m) m

def isModifier (sc : Byte) : Bool :=
  sc = 0x2A ∨ sc = 0x36 ∨ sc = 0x1D ∨ sc = 0x9D ∨ sc = 0xAA ∨ sc = 0xB6 ∨ sc = 0x3A

/--
What `ctrlc_poll` leaves to `get_key`.
-/
def buffered (scs : Bytes) : Bytes :=
  scs.filter (fun sc => !isModifier sc)

/--
No `0xE0` stands before the code of a modifier.
-/
def NoPrefixed : Bytes → Prop
  | [] => True
  | sc :: rest =>
    if sc = 0xE0 then
      match rest with
      | [] => True
      | ext :: rest => ¬isModifier ext ∧ NoPrefixed rest
    else
      NoPrefixed rest

/--
The modifiers `last` give the same keys as the ones that were set when the keys were pressed.
-/
def SameKeys (last m : Modifiers) : Bytes → Prop
  | [] => True
  | sc :: rest =>
    if isModifier sc then
      SameKeys last ((m.take sc).getD m) rest
    else if sc = 0xE0 then
      match rest with
      | [] => True
      | _ :: rest => SameKeys last m rest
    else
      (sc &&& 0x80 = 0 → last.translate sc = m.translate sc) ∧ SameKeys last m rest

variable {m last : Modifiers} {sc : Byte} {scs rest : Bytes}

theorem take_eq_none : m.take sc = none ↔ isModifier sc = false := by
  unfold Modifiers.take isModifier
  grind

theorem take_isSome : isModifier sc = true ↔ ∃ m', m.take sc = some m' := by
  rw [← Option.ne_none_iff_exists', ne_eq, take_eq_none]
  simp

theorem translate_isSome (sc : Byte) (m m' : Modifiers)
    : (m.translate sc).isSome = (m'.translate sc).isSome := by
  have hzero : ∀ i, keymap.getD i 0 = 0 ↔ keymapShift.getD i 0 = 0 := by
    intro i
    by_cases hi : i < 58
    . revert i
      decide
    . have hlen : keymap.length = 58 := rfl
      have hlen' : keymapShift.length = 58 := rfl
      rw [List.getD_eq_default _ _ (by omega), List.getD_eq_default _ _ (by omega)]
  have hsome : ∀ m : Modifiers, (m.translate sc).isSome ↔ keymap.getD sc.toNat 0 ≠ 0 := by
    intro m
    have hres : ∀ b : Bool,
        (if b then keymapShift.getD sc.toNat 0 else keymap.getD sc.toNat 0) = 0 ↔ keymap.getD sc.toNat 0 = 0 := by
      intro b
      cases b with
      | false => rfl
      | true => exact (hzero _).symm
    unfold Modifiers.translate
    dsimp only
    generalize (if 97 ≤ keymap.getD sc.toNat 0 ∧ keymap.getD sc.toNat 0 ≤ 122 then m.shift != m.capsLock
      else m.shift) = b
    have hb := hres b
    generalize (if b = true then keymapShift.getD sc.toNat 0 else keymap.getD sc.toNat 0) = res at hb ⊢
    rw [ne_eq, ← hb]
    split
    . next h => simp only [h, Option.isSome_none, not_true_eq_false, Bool.false_eq_true]
    . next h =>
      split
      . simp only [h, Option.isSome_some, not_false_eq_true]
      . simp only [h, Option.isSome_some, not_false_eq_true]
  rw [Bool.eq_iff_iff, hsome, hsome]

theorem after_cons : m.after (sc :: scs) = ((m.take sc).getD m).after scs := rfl

theorem buffered_modifier (h : isModifier sc) : buffered (sc :: scs) = buffered scs :=
  List.filter_cons_of_neg (by simp [h])

theorem buffered_code (h : isModifier sc = false) : buffered (sc :: scs) = sc :: buffered scs :=
  List.filter_cons_of_pos (by simp [h])

theorem sniff_modifier {cc : Bool} {ring : KbRing} (h : isModifier sc)
    : Keyboard.sniff (cc, m, ring) sc = (cc, (m.take sc).getD m, ring) := by
  obtain ⟨m', htake⟩ := take_isSome.mp h
  unfold Keyboard.sniff
  dsimp only
  rw [htake]
  rfl

theorem sniff_code {cc : Bool} {ring : KbRing} (h : isModifier sc = false)
    (hcc : (Keyboard.sniff (cc, m, ring) sc).1 = false)
    : Keyboard.sniff (cc, m, ring) sc = (cc, m, (ring.push sc).2) := by
  unfold Keyboard.sniff at hcc ⊢
  dsimp only at hcc ⊢
  rw [take_eq_none.mpr h] at hcc ⊢
  dsimp only at hcc ⊢
  split
  . next hc =>
    rw [if_pos hc] at hcc
    contradiction
  . rfl

theorem sniff_gotCc {s : Bool × Modifiers × KbRing} (h : (scs.foldl Keyboard.sniff s).1 = false)
    : s.1 = false := by
  induction scs generalizing s with
  | nil => exact h
  | cons sc scs ih =>
    have hnext := ih h
    unfold Keyboard.sniff at hnext
    dsimp only at hnext
    split at hnext
    . exact hnext
    . split at hnext
      . contradiction
      . exact hnext

theorem sniff_fold {cc : Bool} {ring : KbRing} (hroom : ring.count + (buffered scs).length < kbRing)
    (hcc : (scs.foldl Keyboard.sniff (cc, m, ring)).1 = false)
    : (scs.foldl Keyboard.sniff (cc, m, ring)).2.1 = m.after scs
      ∧ (scs.foldl Keyboard.sniff (cc, m, ring)).2.2.stored = ring.stored ++ buffered scs := by
  induction scs generalizing cc m ring with
  | nil => exact ⟨rfl, (List.append_nil _).symm⟩
  | cons sc scs ih =>
    rw [List.foldl_cons] at hcc ⊢
    cases hmod : isModifier sc with
    | true =>
      rw [buffered_modifier hmod] at hroom ⊢
      rw [sniff_modifier hmod] at hcc ⊢
      exact ih hroom hcc
    | false =>
      rw [buffered_code hmod] at hroom ⊢
      rw [List.length_cons] at hroom
      have hsniff := sniff_code hmod (sniff_gotCc hcc)
      rw [hsniff] at hcc ⊢
      have hcount : (ring.push sc).2.count = ring.count + 1 := by
        rw [KbRing.count_push, Nat.mod_eq_of_lt (by omega)]
      obtain ⟨hmods, hstored⟩ := @ih m cc (ring.push sc).2 (by omega) hcc
      constructor
      . rw [hmods, after_cons, take_eq_none.mpr hmod]
        rfl
      . rw [hstored, KbRing.stored_push (by omega), List.append_assoc]
        rfl

theorem after_extended {ext : Byte} (h : isModifier ext = false)
    : m.after (0xE0 :: ext :: scs) = m.after scs := by
  rw [after_cons, after_cons, take_eq_none.mpr h]
  rfl

theorem keysOf_modifier (h : isModifier sc) : keysOf m (sc :: rest) = keysOf ((m.take sc).getD m) rest := by
  obtain ⟨m', htake⟩ := take_isSome.mp h
  rw [keysOf_cons, htake]
  rfl

theorem keysOf_prefix (ext : Byte)
    : keysOf m (0xE0 :: ext :: rest) = (arrow ext).toList ++ keysOf m rest := by
  rw [keysOf_cons, take_eq_none.mpr (by decide)]
  rfl

theorem keysOf_code (h : isModifier sc = false) (hext : sc ≠ 0xE0)
    : keysOf m (sc :: rest)
      = (if sc &&& 0x80 ≠ 0 then [] else (m.translate sc).toList) ++ keysOf m rest := by
  rw [keysOf_cons, take_eq_none.mpr h]
  dsimp only
  rw [if_neg hext]
  split
  . rfl
  . rfl

theorem toList_append_inj {o o' : Option Nat} {l l' : List Nat} (h : o.isSome = o'.isSome)
    : o.toList ++ l = o'.toList ++ l' ↔ o = o' ∧ l = l' := by
  cases o with
  | none =>
    cases o' with
    | none => simp
    | some _ => simp at h
  | some _ =>
    cases o' with
    | none => simp at h
    | some _ => simp

theorem keysOf_buffered_iff (h : NoPrefixed scs)
    : keysOf (m.after scs) (buffered scs ++ rest) = keysOf m (scs ++ rest) ↔ SameKeys (m.after scs) m scs := by
  generalize hlast : m.after scs = last
  induction scs using NoPrefixed.induct generalizing m with
  | case1 =>
    subst hlast
    simp [SameKeys, buffered, Modifiers.after]
  | case2 =>
    subst hlast
    -- The code after the prefix is still in the keyboard.
    rw [after_cons, take_eq_none.mpr (by decide), SameKeys.eq_def]
    rw [buffered_code (by decide)]
    exact iff_of_true rfl trivial
  | case3 ext scs ih =>
    rw [NoPrefixed.eq_def] at h
    obtain ⟨hext, htail⟩ := h
    rw [Bool.not_eq_true] at hext
    rw [after_extended hext] at hlast
    rw [buffered_code (by decide), buffered_code hext, SameKeys.eq_def]
    rw [List.cons_append, List.cons_append, List.cons_append, List.cons_append, keysOf_prefix, keysOf_prefix]
    rw [List.append_right_inj]
    exact ih htail hlast
  | case4 sc scs hext ih =>
    rw [NoPrefixed.eq_def] at h
    dsimp only at h
    rw [if_neg hext] at h
    rw [SameKeys.eq_def]
    dsimp only
    rw [List.cons_append]
    cases hmod : isModifier sc with
    | true =>
      rw [if_pos rfl, buffered_modifier hmod, keysOf_modifier hmod]
      exact ih h hlast
    | false =>
      rw [if_neg Bool.false_ne_true, if_neg hext, buffered_code hmod, List.cons_append]
      rw [keysOf_code hmod hext, keysOf_code hmod hext]
      rw [after_cons, take_eq_none.mpr hmod] at hlast
      rw [← @ih m h hlast]
      split
      . next hbreak => simp [hbreak]
      . next hbreak =>
        rw [toList_append_inj (translate_isSome sc last m)]
        simp [not_not.mp hbreak]

end Sniff

namespace Keyboard

/--
The timer takes `scs` before `get_key` is called, the other codes come later.
-/
def sniffed (k : Keyboard) (scs rest : Bytes) : Keyboard :=
  { ({ k with port := scs } : Keyboard).ctrlcPoll.2 with port := rest }

/--
`get_key` reads all codes on its own.
-/
def direct (k : Keyboard) (scs rest : Bytes) : Keyboard :=
  { k with port := scs ++ rest }

end Keyboard

/--
If no code of a modifier stands behind a prefix, the timer changes no key just if the modifiers at the end
give each key of `scs` that was typed.
-/
theorem typed_sniffed_iff (k : Keyboard) (scs rest : Bytes) (hempty : k.ring.count = 0)
    (hcc : ({ k with port := scs } : Keyboard).ctrlcPoll.1 = false) (hroom : (buffered scs).length ≤ 63)
    : (k.sniffed scs rest).typed = (k.direct scs rest).typed ∧ NoPrefixed scs
      ↔ SameKeys (k.mods.after scs) k.mods scs ∧ NoPrefixed scs := by
  have hstored : k.ring.stored = [] := List.length_eq_zero_iff.mp (k.ring.length_stored.trans hempty)
  obtain ⟨hmods, hring⟩ := @sniff_fold k.mods scs false k.ring
    (by unfold kbRing; omega) hcc
  rw [Keyboard.typed_eq, Keyboard.typed_eq]
  have hsniffed : (k.sniffed scs rest).pending = buffered scs ++ rest := by
    unfold Keyboard.pending
    show (scs.foldl Keyboard.sniff (false, k.mods, k.ring)).2.2.stored ++ rest = buffered scs ++ rest
    rw [hring, hstored, List.nil_append]
  have hdirect : (k.direct scs rest).pending = scs ++ rest := by
    unfold Keyboard.pending
    show k.ring.stored ++ (scs ++ rest) = scs ++ rest
    rw [hstored, List.nil_append]
  rw [hsniffed, hdirect]
  show keysOf (scs.foldl Keyboard.sniff (false, k.mods, k.ring)).2.1 _ = keysOf k.mods _ ∧ _ ↔ _
  rw [hmods]
  exact and_congr_left (fun h => keysOf_buffered_iff h)

def Keyboard.boot : Keyboard where
  mods := ⟨false, false, false⟩
  ring := .empty
  port := []

theorem typed_sniffed_key
    : (Keyboard.boot.sniffed [0x2A, 0xAA, 0xE0, 0x48, 0x1E] [0x9E]).typed
      = (Keyboard.boot.direct [0x2A, 0xAA, 0xE0, 0x48, 0x1E] [0x9E]).typed :=
  ((typed_sniffed_iff .boot [0x2A, 0xAA, 0xE0, 0x48, 0x1E] [0x9E] rfl (by decide) (by decide)).mpr
    ⟨by simp [SameKeys, isModifier, Modifiers.after, Modifiers.take, Keyboard.boot],
      by simp [NoPrefixed, isModifier]⟩).1

/--
An `A` is typed with shift, but shift is already up when `get_key` looks at the `A`.
-/
theorem typed_sniffed_shift
    : ¬∀ (k : Keyboard) (scs rest : Bytes), k.ring.count = 0 →
      ({ k with port := scs } : Keyboard).ctrlcPoll.1 = false → (buffered scs).length ≤ 63 →
        (k.sniffed scs rest).typed = (k.direct scs rest).typed := by
  intro h
  have hsame := h .boot [0x2A, 0x1E, 0xAA] [] rfl (by decide) (by decide)
  rw [Keyboard.typed_eq, Keyboard.typed_eq] at hsame
  revert hsame
  decide

end TanjaOS
