import TanjaOS.Shell.Expand

/-!
Shell variables: what `get_env` finds after any calls of `set_env`, and what `expand_vars` makes of a
text.
-/

open Lib

namespace TanjaOS

def runSetEnv (calls : List (Bytes × Bytes)) : Env :=
  calls.foldl (fun env c => setEnv env c.1 c.2) []

/--
The value that the last call for `name` has given, empty if there is none.
-/
def lastSet (calls : List (Bytes × Bytes)) (name : Bytes) : Bytes :=
  ((calls.reverse.find? (·.1 = name)).map Prod.snd).getD []

/--
The bytes that `expand_vars` writes to `out`. A `text` of `none` is the null pointer.
-/
def expandVarsInto (env : Env) (text : Option Bytes) (outsize : Int) : Bytes :=
  match text with
  | none => if 0 < outsize then [0] else []
  | some text => expandVarsLoop env text.length text (outsize - 1).toNat ++ [0]

def isIdentStart (b : Byte) : Bool :=
  isAlpha b ∨ b = 95

def isIdent (b : Byte) : Bool :=
  isAlnum b ∨ b = 95

/--
`text` with every `$NAME` and every `${NAME}` replaced by `get NAME`: a name without braces is as long
as possible, and braces without an end are no reference.
-/
def substitute (get : Bytes → Bytes) : Nat → Bytes → Bytes
  | 0, _ => []
  | _ + 1, [] => []
  | fuel + 1, b :: text =>
    if b = 36 ∧ text.head?.any isIdentStart then
      let name := text.takeWhile isIdent
      get name ++ substitute get fuel (text.drop name.length)
    else if b = 36 ∧ text.head? = some 123 ∧ 125 ∈ text.tail then
      let name := text.tail.takeWhile (· ≠ 125)
      get name ++ substitute get fuel (text.tail.drop (name.length + 1))
    else
      b :: substitute get fuel text

def substituteAll (get : Bytes → Bytes) (text : Bytes) : Bytes :=
  substitute get text.length text

/--
The names behind a `$` have at most 31 bytes, and those in braces have an end.
-/
def NamesFit (text : Bytes) : Prop :=
  ∀ front rest, text = front ++ 36 :: rest →
    (rest.head?.any isIdentStart → (rest.takeWhile isIdent).length ≤ envNameLen - 1)
      ∧ (rest.head? = some 123 →
        125 ∈ rest.tail ∧ (rest.tail.takeWhile (· ≠ 125)).length ≤ envNameLen - 1)

section Set

variable {calls : List (Bytes × Bytes)} {env : Env} {name value : Bytes}

theorem lastSet_append (calls : List (Bytes × Bytes)) (name value n : Bytes)
    : lastSet (calls ++ [(name, value)]) n = if name = n then value else lastSet calls n := by
  unfold lastSet
  rw [List.reverse_append, List.reverse_singleton, List.singleton_append, List.find?_cons]
  by_cases h : name = n
  . simp [h]
  . simp [h]

structure EnvInv (env : Env) (calls : List (Bytes × Bytes)) : Prop where
  nodup : (env.map EnvVar.name).Nodup
  names : ∀ n, n ∈ env.map EnvVar.name ↔ n ∈ calls.map Prod.fst
  value : ∀ v ∈ env, v.value = lastSet calls v.name

theorem EnvInv.empty : EnvInv [] [] where
  nodup := List.nodup_nil
  names _ := Iff.rfl
  value _ h := absurd h List.not_mem_nil

theorem EnvInv.set (h : EnvInv env calls) (hne : name ≠ []) (hname : name.length ≤ envNameLen - 1)
    (hvalue : value.length ≤ envValueLen - 1)
    (hroom : ((calls ++ [(name, value)]).map Prod.fst).toFinset.card ≤ maxEnvVars)
    : EnvInv (setEnv env name value) (calls ++ [(name, value)]) := by
  have htakeN : name.take (envNameLen - 1) = name := List.take_of_length_le hname
  have htakeV : value.take (envValueLen - 1) = value := List.take_of_length_le hvalue
  unfold setEnv
  rw [if_neg hne, htakeN, htakeV]
  split
  . next i hi =>
    rw [List.findIdx?_eq_some_iff_getElem] at hi
    obtain ⟨hlt, hat, _⟩ := hi
    rw [decide_eq_true_eq] at hat
    have hmap : (env.modify i ({ · with value := value })).map EnvVar.name = env.map EnvVar.name := by
      apply List.ext_getElem
      . simp
      . intro j hj hj'
        simp only [List.getElem_map, List.getElem_modify]
        split <;> rfl
    have hmem : name ∈ env.map EnvVar.name := List.mem_map.mpr ⟨env[i], List.getElem_mem hlt, hat⟩
    refine ⟨by rw [hmap]; exact h.nodup, fun n => ?_, fun v hv => ?_⟩
    . rw [hmap, h.names, List.map_append, List.mem_append]
      constructor
      . exact Or.inl
      . rintro (hn | hn)
        . exact hn
        . obtain rfl : n = name := by simpa using hn
          exact (h.names n).mp hmem
    . obtain ⟨j, hj, rfl⟩ := List.getElem_of_mem hv
      rw [List.length_modify] at hj
      rw [List.getElem_modify, lastSet_append]
      by_cases hij : i = j
      . subst hij
        simp [hat]
      . rw [if_neg hij]
        have hdiff : ¬name = (env[j]).name := by
          intro heq
          apply hij
          have hi : i < (env.map EnvVar.name).length := by simpa using hlt
          have hj : j < (env.map EnvVar.name).length := by simpa using hj
          have hsame : (env.map EnvVar.name)[i] = (env.map EnvVar.name)[j] := by
            rw [List.getElem_map, List.getElem_map, hat, heq]
          exact h.nodup.getElem_inj_iff.mp hsame
        rw [if_neg hdiff]
        exact h.value _ (List.getElem_mem hj)
  . next hnone =>
    rw [List.findIdx?_eq_none_iff] at hnone
    have hnew : name ∉ env.map EnvVar.name := by
      intro hmem
      obtain ⟨v, hv, heq⟩ := List.mem_map.mp hmem
      simpa [heq] using hnone v hv
    have hlt : env.length < maxEnvVars := by
      have hnod : (env.map EnvVar.name ++ [name]).Nodup := by
        rw [List.nodup_append]
        refine ⟨h.nodup, by simp, fun a ha b hb => ?_⟩
        obtain rfl : b = name := by simpa using hb
        rintro rfl
        exact hnew ha
      have hsub : (env.map EnvVar.name ++ [name]).toFinset
          ⊆ ((calls ++ [(name, value)]).map Prod.fst).toFinset := by
        intro n hn
        rw [List.mem_toFinset, List.mem_append, h.names] at hn
        rw [List.mem_toFinset, List.map_append, List.mem_append]
        exact hn
      have hcard := Finset.card_le_card hsub
      rw [List.toFinset_card_of_nodup hnod, List.length_append, List.length_map, List.length_singleton] at hcard
      omega
    rw [if_pos hlt]
    refine ⟨?_, fun n => ?_, fun v hv => ?_⟩
    . rw [List.map_append, List.nodup_append]
      refine ⟨h.nodup, by simp, fun a ha b hb => ?_⟩
      obtain rfl : b = name := by simpa using hb
      rintro rfl
      exact hnew ha
    . rw [List.map_append, List.map_append, List.mem_append, List.mem_append, h.names]
      rfl
    . rw [lastSet_append]
      rw [List.mem_append, List.mem_singleton] at hv
      obtain hv | rfl := hv
      . have hdiff : ¬name = v.name := by
          intro heq
          exact hnew (List.mem_map.mpr ⟨v, hv, heq.symm⟩)
        rw [if_neg hdiff]
        exact h.value v hv
      . simp

theorem EnvInv.get (h : EnvInv env calls) (hcalls : ∀ c ∈ calls, c.1 ≠ []) (n : Bytes)
    : getEnv env n = lastSet calls n := by
  have habsent : n ∉ calls.map Prod.fst → lastSet calls n = [] := by
    intro hn
    unfold lastSet
    have hnone : calls.reverse.find? (·.1 = n) = none := by
      rw [List.find?_eq_none]
      intro c hc
      rw [decide_eq_true_eq]
      rintro rfl
      exact hn (List.mem_map_of_mem (List.mem_reverse.mp hc))
    rw [hnone]
    rfl
  unfold getEnv
  split
  . next hnil =>
    rw [habsent]
    intro hmem
    obtain ⟨c, hc, heq⟩ := List.mem_map.mp hmem
    exact hcalls c hc (heq.trans hnil)
  . cases hfind : env.find? (·.name = n) with
    | none =>
      rw [List.find?_eq_none] at hfind
      rw [habsent]
      . rfl
      . rw [← h.names]
        intro hmem
        obtain ⟨v, hv, heq⟩ := List.mem_map.mp hmem
        simpa [heq] using hfind v hv
    | some v =>
      have hname := List.find?_some hfind
      rw [decide_eq_true_eq] at hname
      rw [Option.map_some, Option.getD_some, h.value v (List.mem_of_find?_eq_some hfind), hname]

/--
The calls that the variables have room for.
-/
structure CallsFit (calls : List (Bytes × Bytes)) : Prop where
  room : (calls.map Prod.fst).toFinset.card ≤ maxEnvVars
  names : ∀ c ∈ calls, c.1 ≠ []
  values : ∀ c ∈ calls, c.2.length ≤ envValueLen - 1

theorem EnvInv.run (hfit : CallsFit calls) (hshort : ∀ c ∈ calls, c.1.length ≤ envNameLen - 1)
    : EnvInv (runSetEnv calls) calls := by
  induction calls using List.reverseRecOn with
  | nil => exact .empty
  | append_singleton calls c ih =>
    have hsub : calls ⊆ calls ++ [c] := List.subset_append_left _ _
    have hbefore : CallsFit calls := by
      refine ⟨?_, fun d hd => hfit.names d (hsub hd), fun d hd => hfit.values d (hsub hd)⟩
      apply Nat.le_trans (Finset.card_le_card _) hfit.room
      intro n hn
      rw [List.mem_toFinset] at hn ⊢
      rw [List.map_append, List.mem_append]
      exact Or.inl hn
    unfold runSetEnv
    rw [List.foldl_append]
    have hc : c ∈ calls ++ [c] := by simp
    exact (ih hbefore fun d hd => hshort d (hsub hd)).set (hfit.names c hc) (hshort c hc)
      (hfit.values c hc) hfit.room

theorem name_length_setEnv (h : ∀ v ∈ env, v.name.length ≤ envNameLen - 1)
    : ∀ v ∈ setEnv env name value, v.name.length ≤ envNameLen - 1 := by
  intro v hv
  unfold setEnv at hv
  split at hv
  . exact h v hv
  . split at hv
    . obtain ⟨j, hj, rfl⟩ := List.getElem_of_mem hv
      rw [List.getElem_modify]
      rw [List.length_modify] at hj
      have hlen := h _ (List.getElem_mem hj)
      split
      . exact hlen
      . exact hlen
    . split at hv
      . rw [List.mem_append, List.mem_singleton] at hv
        obtain hv | rfl := hv
        . exact h v hv
        . dsimp only
          rw [List.length_take]
          omega
      . exact h v hv

theorem name_length_runSetEnv (calls : List (Bytes × Bytes))
    : ∀ v ∈ runSetEnv calls, v.name.length ≤ envNameLen - 1 := by
  induction calls using List.reverseRecOn with
  | nil => exact fun v hv => absurd hv List.not_mem_nil
  | append_singleton calls c ih =>
    unfold runSetEnv
    rw [List.foldl_append]
    exact name_length_setEnv ih

theorem getEnv_of_long (hname : envNameLen - 1 < name.length) : getEnv (runSetEnv calls) name = [] := by
  have hnone : (runSetEnv calls).find? (·.name = name) = none := by
    rw [List.find?_eq_none]
    intro v hv
    have hle := name_length_runSetEnv calls v hv
    rw [decide_eq_true_eq]
    rintro rfl
    omega
  unfold getEnv
  rw [hnone]
  split <;> rfl

end Set

section Expand

variable {env : Env} {text front : Bytes} {b : Byte}

theorem NamesFit.suffix (h : NamesFit (front ++ text)) : NamesFit text := by
  intro pre rest heq
  apply h (front ++ pre) rest
  rw [heq, List.append_assoc]

theorem NamesFit.drop (h : NamesFit text) (k : Nat) : NamesFit (text.drop k) := by
  rw [← List.take_append_drop k text] at h
  exact h.suffix

theorem expandVarsLoop_cons (fuel room : Nat)
    : expandVarsLoop env (fuel + 1) (b :: text) room =
      if room = 0 then
        []
      else if b = 36 ∧ text.head?.any isIdentStart then
        let name := (text.takeWhile isIdent).take (envNameLen - 1)
        let val := (getEnv env name).take room
        val ++ expandVarsLoop env fuel (text.drop name.length) (room - val.length)
      else if b = 36 ∧ text.head? = some 123 then
        let name := (text.tail.takeWhile (· ≠ 125)).take (envNameLen - 1)
        let rest := text.tail.drop name.length
        let rest := if rest.head? = some 125 then rest.tail else rest
        let val := (getEnv env name).take room
        val ++ expandVarsLoop env fuel rest (room - val.length)
      else
        b :: expandVarsLoop env fuel text (room - 1) := rfl

theorem drop_takeWhile_brace {text : Bytes} (h : 125 ∈ text)
    : (text.drop (text.takeWhile (· ≠ 125)).length).head? = some 125 := by
  induction text with
  | nil => simp at h
  | cons c text ih =>
    by_cases hc : c = 125
    . simp [hc]
    . have hmem : 125 ∈ text := by
        rw [List.mem_cons] at h
        exact h.resolve_left (Ne.symm hc)
      simpa [hc] using ih hmem

theorem expandVarsLoop_eq (h : NamesFit text) (fuel room : Nat)
    : expandVarsLoop env fuel text room = (substitute (getEnv env) fuel text).take room := by
  induction fuel generalizing text room with
  | zero => simp [expandVarsLoop, substitute]
  | succ fuel ih =>
    cases text with
    | nil => simp [expandVarsLoop, substitute]
    | cons b text =>
      have htail : NamesFit text := @NamesFit.suffix text [b] h
      have hval : ∀ (val rest : Bytes), NamesFit rest →
          val.take room ++ expandVarsLoop env fuel rest (room - (val.take room).length)
            = (val ++ substitute (getEnv env) fuel rest).take room := by
        intro val rest hrest
        have hroom : room - (val.take room).length = room - val.length := by
          rw [List.length_take]
          omega
        rw [hroom, ih hrest, List.take_append]
      rw [expandVarsLoop_cons, substitute]
      by_cases hzero : room = 0
      . simp [hzero]
      . rw [if_neg hzero]
        by_cases hident : b = 36 ∧ text.head?.any isIdentStart
        . obtain ⟨rfl, hhead⟩ := id hident
          have htake := List.take_of_length_le ((h [] text rfl).1 hhead)
          rw [if_pos hident, if_pos hident]
          dsimp only
          rw [htake]
          exact hval _ _ (htail.drop _)
        . rw [if_neg hident, if_neg hident]
          by_cases hbrace : b = 36 ∧ text.head? = some 123
          . obtain ⟨rfl, hhead⟩ := id hbrace
            obtain ⟨hend, hlen⟩ := (h [] text rfl).2 hhead
            have htake := List.take_of_length_le hlen
            have hclosed : (36 : Byte) = 36 ∧ text.head? = some 123 ∧ 125 ∈ text.tail :=
              ⟨rfl, hhead, hend⟩
            rw [if_pos hbrace, if_pos hclosed]
            dsimp only
            rw [htake, if_pos (drop_takeWhile_brace hend), List.tail_drop]
            apply hval
            rw [← List.drop_one, List.drop_drop]
            exact htail.drop _
          . have hopen : ¬(b = 36 ∧ text.head? = some 123 ∧ 125 ∈ text.tail) := by
              rintro ⟨hb, hhead, _⟩
              exact hbrace ⟨hb, hhead⟩
            obtain ⟨room, rfl⟩ := Nat.exists_eq_add_one_of_ne_zero hzero
            rw [if_neg hbrace, if_neg hopen, List.take_succ_cons, Nat.add_sub_cancel, ih htail]

theorem takeWhile_brace_append {xs : Bytes} (ys : Bytes) (h : 125 ∈ xs)
    : (xs ++ ys).takeWhile (· ≠ 125) = xs.takeWhile (· ≠ 125) ∧ (xs.takeWhile (· ≠ 125)).length < xs.length := by
  have hlt : (xs.takeWhile (· ≠ 125)).length < xs.length := by
    by_contra hle
    have hend := drop_takeWhile_brace h
    rw [List.drop_eq_nil_of_le (by omega)] at hend
    contradiction
  refine ⟨?_, hlt⟩
  rw [List.takeWhile_append, if_neg (Nat.ne_of_lt hlt)]

theorem takeWhile_append_stop {p : Byte → Bool} {xs ys : Bytes} {c : Byte} (hc : p c = false)
    : (xs ++ c :: ys).takeWhile p = xs.takeWhile p := by
  rw [List.takeWhile_append]
  split
  . next hall => simp [hc, (List.takeWhile_prefix p).eq_of_length hall]
  . rfl

theorem NamesFit.append {w rest : Bytes} {c : Byte} (h : NamesFit w) (hrest : NamesFit rest)
    (hc : isIdent c = false) (hstart : isIdentStart c = false) (hbrace : c ≠ 123) (hdollar : c ≠ 36)
    : NamesFit (w ++ c :: rest) := by
  intro front tail heq
  obtain ⟨xs, rfl, hxs⟩ | ⟨xs, rfl, hxs⟩ := List.append_eq_append_iff.mp heq
  . -- the `$` stands behind `c`
    cases xs with
    | nil => exact absurd (List.cons.inj hxs).1 hdollar
    | cons x xs => exact hrest xs tail (List.cons.inj hxs).2
  . cases xs with
    | nil => exact absurd (List.cons.inj hxs).1.symm hdollar
    | cons x xs =>
      obtain ⟨rfl, rfl⟩ := List.cons.inj hxs
      obtain ⟨hname, hbraces⟩ := h front xs rfl
      cases xs with
      | nil => simp [hstart, hbrace]
      | cons d xs =>
        rw [List.append_eq]
        refine ⟨fun hd => ?_, fun hd => ?_⟩
        . rw [takeWhile_append_stop hc]
          exact hname hd
        . obtain ⟨hmem, hlen⟩ := hbraces hd
          rw [List.tail_cons] at hmem
          rw [List.cons_append, List.tail_cons, (takeWhile_brace_append (c :: rest) hmem).1]
          exact ⟨List.mem_append_left _ hmem, hlen⟩

theorem length_expandVarsLoop (fuel : Nat) (text : Bytes) (room : Nat)
    : (expandVarsLoop env fuel text room).length ≤ room := by
  induction fuel generalizing text room with
  | zero => exact Nat.zero_le _
  | succ fuel ih =>
    cases text with
    | nil => exact Nat.zero_le _
    | cons b text =>
      have hval : ∀ (val rest : Bytes), (val.take room
          ++ expandVarsLoop env fuel rest (room - (val.take room).length)).length ≤ room := by
        intro val rest
        have hrest := ih rest (room - (val.take room).length)
        have hle := List.length_take_le room val
        rw [List.length_append]
        omega
      rw [expandVarsLoop_cons]
      split
      . exact Nat.zero_le _
      . split
        . exact hval _ _
        . split
          . exact hval _ _
          . have := ih text (room - 1)
            rw [List.length_cons]
            omega

end Expand

/--
With names of at most 31 bytes, `get_env` finds what was set last and `expand_vars` replaces the names
by it. A longer name never finds its value.
-/
theorem variables_kept (calls : List (Bytes × Bytes))
    : (CallsFit calls → (∀ c ∈ calls, c.1.length ≤ envNameLen - 1) →
        (∀ n, getEnv (runSetEnv calls) n = lastSet calls n)
          ∧ ∀ text outsize, NamesFit text → 1 ≤ outsize →
            expandVarsInto (runSetEnv calls) (some text) outsize
              = (substituteAll (lastSet calls) text).take (outsize - 1).toNat ++ [0])
      ∧ (∀ text outsize, 1 ≤ outsize →
        ((expandVarsInto (runSetEnv calls) text outsize).length : Int) ≤ outsize)
      ∧ ∀ name value, envNameLen - 1 < name.length → value ≠ [] →
        getEnv (runSetEnv (calls ++ [(name, value)])) name ≠ lastSet (calls ++ [(name, value)]) name := by
  refine ⟨?_, ?_, ?_⟩
  . intro hfit hshort
    have hget : getEnv (runSetEnv calls) = lastSet calls := by
      funext n
      exact (EnvInv.run hfit hshort).get hfit.names n
    refine ⟨fun n => congrFun hget n, fun text outsize hnames _ => ?_⟩
    unfold expandVarsInto substituteAll
    dsimp only
    rw [expandVarsLoop_eq hnames, hget]
  . intro text outsize hsize
    unfold expandVarsInto
    split
    . split
      . simpa using hsize
      . simp
        omega
    . next text =>
      have := @length_expandVarsLoop (runSetEnv calls) text.length text (outsize - 1).toNat
      rw [List.length_append, List.length_singleton]
      omega
  . intro name value hname hvalue
    rw [getEnv_of_long hname, lastSet_append, if_pos rfl]
    exact Ne.symm hvalue

/--
`aaa…`, 32 times, is stored without the last one.
-/
theorem not_variables_kept
    : ¬∀ calls, CallsFit calls → ∀ n, getEnv (runSetEnv calls) n = lastSet calls n := by
  intro h
  have hfit : CallsFit [(List.replicate 32 97, [120])] :=
    ⟨by decide, by decide, by decide⟩
  have := h _ hfit (List.replicate 32 97)
  revert this
  decide

end TanjaOS
