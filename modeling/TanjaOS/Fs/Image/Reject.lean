import TanjaOS.Fs.Run
import TanjaOS.Fs.Image.Lemmas

/-!
Images that are rejected. The tables are overwritten while the image is read, so that only those
images leave them alone that are rejected for their first eight bytes.
-/

open Lib
open Lib.Tiling

namespace TanjaOS

/--
The image is not even looked at behind its header.
-/
def HeaderRefused (b : Bytes) : Prop :=
  b.length < 8 ∨ b.take 4 ≠ fsHeader.take 4 ∨ b.getD 4 0 ≠ storeVersion

instance (b : Bytes) : Decidable (HeaderRefused b) :=
  inferInstanceAs (Decidable (_ ∨ _ ∨ _))

/--
Directories, files, contents, owners, modes and current directory of `t` are those of `s`.
-/
structure Unchanged (s t : FsState) : Prop where
  dirs : ∀ i x, t.IsDir i x ↔ s.IsDir i x
  files : ∀ i x, t.IsFile i x ↔ s.IsFile i x
  sizes : ∀ i x, s.IsFile i x → t.fsize i = s.fsize i
  contents : ∀ i x, s.IsFile i x → t.fileBytes i = s.fileBytes i
  fowner : ∀ i x, s.IsFile i x → t.fowner i = s.fowner i
  fmode : ∀ i x, s.IsFile i x → t.fmode i = s.fmode i
  downer : ∀ i x, s.IsDir i x → t.downer i = s.downer i
  dmode : ∀ i x, s.IsDir i x → t.dmode i = s.dmode i
  cwd : t.cwd.str = s.cwd.str

/--
What `store_init` makes of the factory state when it finds a boot module.
-/
def storeInitModule (s : FsState) (mod : Bytes) : FsState :=
  if 8 ≤ mod.length then (fsDeserialize s mod).2 else s

theorem Unchanged.refl (s : FsState) : Unchanged s s where
  dirs _ _ := Iff.rfl
  files _ _ := Iff.rfl
  sizes _ _ _ := rfl
  contents _ _ _ := rfl
  fowner _ _ _ := rfl
  fmode _ _ _ := rfl
  downer _ _ _ := rfl
  dmode _ _ _ := rfl
  cwd := rfl

theorem length_cwd (cwd : {b : Bytes // b.length = 256}) : cwd.val.length = fsPathCap :=
  cwd.property

def fillBody (c : Bytes) (s : FsState) : Int × Bytes × FsState :=
  match fillDirs fsBufFill c (resetData s) with
  | (false, c, s) => (-1, c, s)
  | (true, c, s) =>
    match fillFileTable fsBufFill c s with
    | (false, c, s) => (-1, c, s)
    | (true, c, s) =>
      match fillFiles fsBufFill (List.finRange maxF) c s with
      | (false, c, s) => (-1, c, s)
      | (true, c, s) =>
        match fsBufFill c 256 with
        | (none, c) => (-1, c, s)
        | (some cwd, c) =>
          (0, fillOwnerTables fsBufFill c { s with cwd := ⟨cwd.val, length_cwd cwd⟩ })

theorem length_take_filled {b : Bytes} {len : Nat} (h : ¬b.length < len) : (b.take len).length = len := by
  rw [List.length_take]
  omega

theorem fsBufFill_of_le {b : Bytes} {len : Nat} (h : ¬b.length < len)
    : fsBufFill b len = (some ⟨b.take len, length_take_filled h⟩, b.drop len) := by
  unfold fsBufFill
  rw [dif_neg h]

theorem fsBufFill_of_lt {b : Bytes} {len : Nat} (h : b.length < len)
    : fsBufFill b len = (none, b) := by
  unfold fsBufFill
  rw [dif_pos h]

theorem getD_take (b : Bytes) : (b.take 8).getD 4 0 = b.getD 4 0 := by
  simp only [List.getD_eq_getElem?_getD, List.getElem?_take]
  rfl

theorem fsDeserialize_refused {b : Bytes} (s : FsState) (h : HeaderRefused b)
    : fsDeserialize s b = (-1, s) := by
  unfold fsDeserialize fsDeserializeFill
  by_cases hlen : b.length < 8
  . rw [fsBufFill_of_lt hlen]
  . have hmin : min 4 8 = 4 := rfl
    rw [fsBufFill_of_le hlen]
    dsimp only
    rw [List.take_take, getD_take, hmin]
    by_cases hmagic : b.take 4 = fsHeader.take 4
    . have hversion := (h.resolve_left hlen).resolve_left (fun hne => hne hmagic)
      rw [if_neg (fun hne => hne hmagic), if_pos hversion]
    . rw [if_pos hmagic]

theorem fsDeserialize_body {b : Bytes} (s : FsState) (h : ¬HeaderRefused b)
    : fsDeserialize s b = ((fillBody (b.drop 8) s).1, (fillBody (b.drop 8) s).2.2) := by
  unfold HeaderRefused at h
  simp only [not_or, Decidable.not_not] at h
  obtain ⟨hlen, hmagic, hversion⟩ := h
  have hmin : min 4 8 = 4 := rfl
  unfold fsDeserialize fsDeserializeFill
  rw [fsBufFill_of_le hlen]
  dsimp only
  rw [List.take_take, getD_take, hmin, if_neg (fun hne => hne hmagic), if_neg (fun hne => hne hversion)]
  unfold fillBody
  generalize fillDirs fsBufFill (b.drop 8) (resetData s) = r
  obtain ⟨ok | ok, c, s⟩ := r
  . rfl
  . dsimp only
    generalize fillFileTable fsBufFill c s = r
    obtain ⟨ok | ok, c, s⟩ := r
    . rfl
    . dsimp only
      generalize fillFiles fsBufFill (List.finRange maxF) c s = r
      obtain ⟨ok | ok, c, s⟩ := r
      . rfl
      . dsimp only
        generalize fsBufFill c 256 = r
        obtain ⟨cwd | cwd, c⟩ := r <;> rfl

section Alike

variable {n : Nat} {len : Nat}
  {put : FsState → Fin n → { b : Bytes // b.length = len } → Option FsState}

theorem fillSlots_rel {R : FsState → FsState → Prop}
    (hput : ∀ s s' i b, R s s' → (put s i b = none ∧ put s' i b = none)
      ∨ ∃ t t', put s i b = some t ∧ put s' i b = some t' ∧ R t t')
    (is : List (Fin n)) (c : Bytes) (s s' : FsState) (h : R s s')
    : (fillSlots fsBufFill len put is c s').1 = (fillSlots fsBufFill len put is c s).1
      ∧ (fillSlots fsBufFill len put is c s').2.1 = (fillSlots fsBufFill len put is c s).2.1
      ∧ R (fillSlots fsBufFill len put is c s).2.2 (fillSlots fsBufFill len put is c s').2.2 := by
  induction is generalizing c s s' with
  | nil => exact ⟨rfl, rfl, h⟩
  | cons i is ih =>
    unfold fillSlots
    by_cases hlen : c.length < len
    . rw [fsBufFill_of_lt hlen]
      exact ⟨rfl, rfl, h⟩
    . rw [fsBufFill_of_le hlen]
      dsimp only
      obtain ⟨hnone, hnone'⟩ | ⟨t, t', hsome, hsome', hrel⟩ :=
        hput s s' i ⟨c.take len, by simp; omega⟩ h
      . rw [hnone, hnone']
        exact ⟨rfl, rfl, h⟩
      . rw [hsome, hsome']
        exact ih (c.drop len) _ _ hrel

/--
The blocks that a resize of an empty file leaves, if there is room for it.
-/
def resized (size : Nat) (bs : List Block) : Option (List Block) :=
  if maxFileData - 1 < size then
    none
  else if size = 0 then
    some bs
  else
    (firstFit 8 16 (DataInv.need size) bs).map Prod.snd

theorem resize_resized {s : FsState} {bs : List Block} {i : Fin maxF} (size : Nat)
    (h : DataInv s bs) (hnone : s.fdata i = none)
    : (resized size bs = none → (fdataResize s i size).1 ≠ 0)
      ∧ ∀ bs', resized size bs = some bs' → (fdataResize s i size).1 = 0
          ∧ DataInv (fdataResize s i size).2 bs'
          ∧ ∀ j, j ≠ i → SameFile s (fdataResize s i size).2 j := by
  unfold resized
  split
  . next hmax =>
    unfold fdataResize
    rw [if_pos hmax]
    simp
  . next hmax =>
    split
    . next hzero =>
      obtain ⟨bs', hinv, _, hbs, hother⟩ := h.freeData i
      unfold fdataResize
      rw [if_neg hmax, if_pos hzero]
      rw [hbs hnone] at hinv
      refine ⟨by simp, ?_⟩
      rintro _ ⟨⟩
      exact ⟨rfl, hinv, hother⟩
    . next hpos =>
      have : 0 < maxFileData := by decide
      cases hfit : firstFit 8 16 (DataInv.need size) bs with
      | none =>
        rw [h.resize_full hpos (by omega) hfit]
        simp
      | some r =>
        obtain ⟨hrc, _, ⟨bs', hinv, hbs⟩, hother⟩ := h.resize_fits (i := i) hpos (by omega) hfit
        rw [hbs hnone] at hinv
        refine ⟨by simp, ?_⟩
        rintro _ ⟨⟩
        exact ⟨hrc, hinv, hother⟩

/--
Two loads that cannot be told apart by what fits: the contents of `is` are still to be read.
-/
structure Alike (t t' : FsState) (is : List (Fin maxF)) (bs : List Block) : Prop where
  data : DataInv t bs
  data' : DataInv t' bs
  fsize : ∀ i ∈ is, t'.fsize i = t.fsize i
  todo : ∀ i ∈ is, t.fdata i = none ∧ t'.fdata i = none

theorem Alike.next {t t' r r' : FsState} {i : Fin maxF} {is : List (Fin maxF)}
    {bs bs' : List Block} (h : Alike t t' (i :: is) bs) (hi : i ∉ is) (hdata : DataInv r bs')
    (hdata' : DataInv r' bs') (hsame : ∀ j, j ≠ i → SameFile t r j)
    (hsame' : ∀ j, j ≠ i → SameFile t' r' j)
    : Alike r r' is bs' := by
  have hne : ∀ j ∈ is, j ≠ i := by
    rintro j hj rfl
    contradiction
  refine ⟨hdata, hdata', ?_, ?_⟩
  . intro j hj
    rw [(hsame j (hne j hj)).fsize, (hsame' j (hne j hj)).fsize]
    exact h.fsize j (by simp [hj])
  . intro j hj
    rw [(hsame j (hne j hj)).fdata, (hsame' j (hne j hj)).fdata]
    exact h.todo j (by simp [hj])

theorem stored_same {r : FsState} {bs : List Block} {i : Fin maxF} {b : Bytes} (h : DataInv r bs)
    (hlen : b.length = r.fsize i)
    : DataInv ((r.storeFile i 0 b).storeFile i (r.fsize i) [0]) bs
      ∧ ((r.storeFile i 0 b).storeFile i (r.fsize i) [0]).fused = r.fused
      ∧ ∀ j, j ≠ i → SameFile r ((r.storeFile i 0 b).storeFile i (r.fsize i) [0]) j := by
  obtain ⟨hinv, hother, _⟩ := h.storeFile i 0 b (by omega)
  obtain ⟨hinv', hother', _⟩ := hinv.storeFile i (r.fsize i) [0]
    (by rw [FsState.fsize_storeFile]; simp)
  refine ⟨hinv', ?_, fun j hj => (hother j hj).trans (hother' j hj)⟩
  have hframe : ((r.storeFile i 0 b).storeFile i (r.fsize i) [0]).frame = r.frame := by
    rw [FsState.frame_storeFile, FsState.frame_storeFile]
  have hfused := congrArg FsState.fused hframe
  exact hfused

theorem fused_fdataResize (s : FsState) (i : Fin maxF) (size : Nat)
    : (fdataResize s i size).2.fused = s.fused := by
  have hfused := congrArg FsState.fused (FsState.frame_fdataResize (s := s) i size)
  exact hfused

theorem Alike.fillFiles {is : List (Fin maxF)} (hnodup : is.Nodup) (c : Bytes) {t t' : FsState}
    {bs : List Block} (h : Alike t t' is bs) (hfused : t'.fused = t.fused)
    : (fillFiles fsBufFill is c t').1 = (fillFiles fsBufFill is c t).1
      ∧ (fillFiles fsBufFill is c t').2.1 = (fillFiles fsBufFill is c t).2.1 := by
  induction is generalizing c t t' bs with
  | nil => exact ⟨rfl, rfl⟩
  | cons i is ih =>
    rw [List.nodup_cons] at hnodup
    obtain ⟨hi, hnodup⟩ := hnodup
    unfold TanjaOS.fillFiles
    by_cases hzero : t.fused i = 0
    . have hzero' : t'.fused i = 0 := by rw [hfused]; exact hzero
      rw [if_pos hzero, if_pos hzero']
      have hset : ∀ (u : FsState), u.fdata i = none → DataInv u bs →
          DataInv { u with fsize := Function.update u.fsize i 0 } bs
            ∧ ∀ j, j ≠ i → SameFile u { u with fsize := Function.update u.fsize i 0 } j := by
        intro u hnone hu
        refine ⟨hu.of_keeps hu.pool ?_, ?_⟩
        . intro j p hp
          have hij : j ≠ i := by
            rintro rfl
            rw [hnone] at hp
            contradiction
          refine ⟨hp, ?_, fun _ hmem => hmem⟩
          simp [hij]
        . intro j hij
          apply SameFile.of_pool
          . rfl
          . simp [hij]
          . intro _ _ _ _ _
            rfl
      obtain ⟨hnone, hnone'⟩ := h.todo i (by simp)
      obtain ⟨hdata, hsame⟩ := hset t hnone h.data
      obtain ⟨hdata', hsame'⟩ := hset t' hnone' h.data'
      exact ih hnodup c (h.next hi hdata hdata' hsame hsame') hfused
    . have hzero' : t'.fused i ≠ 0 := by rw [hfused]; exact hzero
      have hsize := h.fsize i (by simp)
      obtain ⟨hnone, hnone'⟩ := h.todo i (by simp)
      rw [if_neg hzero, if_neg hzero', hsize]
      obtain ⟨hfail, hfit⟩ := resize_resized (t.fsize i) h.data hnone
      obtain ⟨hfail', hfit'⟩ := resize_resized (t.fsize i) h.data' hnone'
      have hused := fused_fdataResize t i (t.fsize i)
      have hused' := fused_fdataResize t' i (t.fsize i)
      have hnew := @FsState.fsize_fdataResize t i (t.fsize i)
      have hnew' := @FsState.fsize_fdataResize t' i (t.fsize i)
      generalize fdataResize t i (t.fsize i) = r at *
      generalize fdataResize t' i (t.fsize i) = r' at *
      obtain ⟨rc, r⟩ := r
      obtain ⟨rc', r'⟩ := r'
      dsimp only at *
      cases hres : resized (t.fsize i) bs with
      | none =>
        rw [if_pos (hfail hres), if_pos (hfail' hres)]
        exact ⟨rfl, rfl⟩
      | some bs' =>
        obtain ⟨hrc, hdata, hsame⟩ := hfit bs' hres
        obtain ⟨hrc', hdata', hsame'⟩ := hfit' bs' hres
        rw [if_neg (fun hne => hne hrc'), if_neg (fun hne => hne hrc)]
        have hnew := hnew hrc
        have hnew' := hnew' hrc'
        by_cases hlen : c.length < t.fsize i
        . rw [fsBufFill_of_lt (by omega), fsBufFill_of_lt (by omega)]
          exact ⟨rfl, rfl⟩
        . have hread : ∀ u : FsState, u.fsize i = t.fsize i →
              (c.take (u.fsize i)).length = u.fsize i := by
            intro u hu
            rw [List.length_take]
            omega
          rw [fsBufFill_of_le (by omega), fsBufFill_of_le (by omega)]
          dsimp only
          rw [FsState.fsize_storeFile, FsState.fsize_storeFile]
          obtain ⟨hdata, hstored, hsame₂⟩ := stored_same hdata (hread r hnew)
          obtain ⟨hdata', hstored', hsame₂'⟩ := stored_same hdata' (hread r' hnew')
          rw [hnew, hnew'] at *
          apply ih hnodup (c.drop (t.fsize i))
          . apply h.next hi hdata hdata'
            . intro j hj
              exact (hsame j hj).trans (hsame₂ j hj)
            . intro j hj
              exact (hsame' j hj).trans (hsame₂' j hj)
          . rw [hstored, hstored', hused, hused', hfused]

theorem resetData_fsize (t : FsState) (i : Fin maxF) : (resetData t).fsize i = 0 := by
  have hfold : ∀ (is : List (Fin maxF)) (t : FsState), i ∈ is ∨ t.fsize i = 0 →
      (is.foldl FsState.freeData t).fsize i = 0 := by
    intro is
    induction is with
    | nil =>
      intro t
      simp
    | cons j is ih =>
      intro t hi
      apply ih
      by_cases hij : i = j
      . right
        simp [FsState.freeData, hij]
      . simpa [FsState.freeData, hij] using hi
  exact hfold (List.finRange maxF) t (by simp)

theorem Alike.reset {s s' : FsState} (h16 : 16 ∣ s.fpoolBytes.toNat)
    (hbytes : s'.fpoolBytes = s.fpoolBytes)
    : Alike (resetData s) (resetData s') (List.finRange maxF) (freshBlocks s.fpoolBytes) := by
  have hinit : ∀ t : FsState, t.fpoolBytes = s.fpoolBytes →
      DataInv (resetData t) (freshBlocks s.fpoolBytes) := by
    intro t ht
    obtain ⟨hnone, hpool, m, hfresh⟩ := resetData_spec t
    rw [← ht] at h16 ⊢
    rw [← hpool] at h16 hfresh ⊢
    exact DataInv.init h16 hfresh hnone
  refine ⟨hinit s rfl, hinit s' hbytes, ?_, ?_⟩
  . intro i _
    rw [resetData_fsize, resetData_fsize]
  . intro i _
    exact ⟨(resetData_spec s).1 i, (resetData_spec s').1 i⟩

theorem Alike.fillDirs {t t' : FsState} {is : List (Fin maxF)} {bs : List Block} (c : Bytes)
    (h : Alike t t' is bs)
    : (fillDirs fsBufFill c t').1 = (fillDirs fsBufFill c t).1
      ∧ (fillDirs fsBufFill c t').2.1 = (fillDirs fsBufFill c t).2.1
      ∧ Alike (fillDirs fsBufFill c t).2.2 (fillDirs fsBufFill c t').2.2 is bs := by
  unfold TanjaOS.fillDirs
  by_cases hlen : c.length < maxD
  . rw [fsBufFill_of_lt hlen]
    exact ⟨rfl, rfl, h⟩
  . rw [fsBufFill_of_le hlen]
    refine fillSlots_rel (R := fun t t' => Alike t t' is bs) ?_ _ _ _ _
      ⟨⟨h.data.pool, h.data.held, h.data.distinct⟩, ⟨h.data'.pool, h.data'.held, h.data'.distinct⟩,
        h.fsize, h.todo⟩
    intro s s' i b hrel
    exact Or.inr ⟨_, _, rfl, rfl, ⟨hrel.data.pool, hrel.data.held, hrel.data.distinct⟩,
      ⟨hrel.data'.pool, hrel.data'.held, hrel.data'.distinct⟩, hrel.fsize, hrel.todo⟩

theorem Alike.fillFileTable {t t' : FsState} {bs : List Block} (c : Bytes)
    (h : Alike t t' (List.finRange maxF) bs)
    : (fillFileTable fsBufFill c t').1 = (fillFileTable fsBufFill c t).1
      ∧ (fillFileTable fsBufFill c t').2.1 = (fillFileTable fsBufFill c t).2.1
      ∧ ((fillFileTable fsBufFill c t).1 = true →
          Alike (fillFileTable fsBufFill c t).2.2 (fillFileTable fsBufFill c t').2.2
            (List.finRange maxF) bs
          ∧ (fillFileTable fsBufFill c t').2.2.fused = (fillFileTable fsBufFill c t).2.2.fused) := by
  let R := fun t t' : FsState => Alike t t' (List.finRange maxF) bs ∧ t'.fused = t.fused
  have hsizes : ∀ s s' i b, R s s' → (putFsize s i b = none ∧ putFsize s' i b = none)
      ∨ ∃ t t', putFsize s i b = some t ∧ putFsize s' i b = some t' ∧ R t t' := by
    rintro s s' i b ⟨hrel, hfused⟩
    unfold putFsize
    split
    . exact Or.inl ⟨rfl, rfl⟩
    . refine Or.inr ⟨_, _, rfl, rfl, ⟨?_, ?_, ?_, hrel.todo⟩, hfused⟩
      . refine hrel.data.of_keeps hrel.data.pool ?_
        intro j p hp
        rw [(hrel.todo j (List.mem_finRange j)).1] at hp
        contradiction
      . refine hrel.data'.of_keeps hrel.data'.pool ?_
        intro j p hp
        rw [(hrel.todo j (List.mem_finRange j)).2] at hp
        contradiction
      . intro j hj
        by_cases hij : j = i
        . simp [hij]
        . simp [hij, hrel.fsize j hj]
  have hnames : ∀ s s' i b, R s s' → (putFname s i b = none ∧ putFname s' i b = none)
      ∨ ∃ t t', putFname s i b = some t ∧ putFname s' i b = some t' ∧ R t t' := by
    rintro s s' i b ⟨hrel, hfused⟩
    exact Or.inr ⟨_, _, rfl, rfl, ⟨⟨hrel.data.pool, hrel.data.held, hrel.data.distinct⟩,
      ⟨hrel.data'.pool, hrel.data'.held, hrel.data'.distinct⟩, hrel.fsize, hrel.todo⟩, hfused⟩
  unfold TanjaOS.fillFileTable
  by_cases hlen : c.length < maxF
  . rw [fsBufFill_of_lt hlen]
    exact ⟨rfl, rfl, by simp⟩
  . rw [fsBufFill_of_le hlen]
    dsimp only
    have hread := fun used : Fin maxF → UInt8 => fillSlots_rel (R := R) hsizes (List.finRange maxF)
      (c.drop maxF) { t with fused := used } { t' with fused := used }
      ⟨⟨⟨h.data.pool, h.data.held, h.data.distinct⟩,
        ⟨h.data'.pool, h.data'.held, h.data'.distinct⟩, h.fsize, h.todo⟩, rfl⟩
    specialize hread (fun i => (c.take maxF).getD i.val 0)
    generalize fillSlots fsBufFill 4 putFsize (List.finRange maxF) (c.drop maxF)
      { t with fused := fun i => (c.take maxF).getD i.val 0 } = r at *
    generalize fillSlots fsBufFill 4 putFsize (List.finRange maxF) (c.drop maxF)
      { t' with fused := fun i => (c.take maxF).getD i.val 0 } = r' at *
    obtain ⟨ok, c, r⟩ := r
    obtain ⟨ok', c', r'⟩ := r'
    obtain ⟨hok, hc, hrel⟩ := hread
    dsimp only at hok hc hrel
    subst hok hc
    cases ok' with
    | false => exact ⟨rfl, rfl, by simp⟩
    | true =>
      dsimp only
      obtain ⟨hok, hc, hrel⟩ := fillSlots_rel (R := R) hnames (List.finRange maxF) c' _ _ hrel
      exact ⟨hok, hc, fun _ => hrel⟩

theorem fillBody_rc {s s' : FsState} (c : Bytes) (h16 : 16 ∣ s.fpoolBytes.toNat)
    (hbytes : s'.fpoolBytes = s.fpoolBytes)
    : (fillBody c s').1 = (fillBody c s).1 := by
  have hdirs := (Alike.reset h16 hbytes).fillDirs c
  unfold fillBody
  generalize fillDirs fsBufFill c (resetData s) = r at *
  generalize fillDirs fsBufFill c (resetData s') = r' at *
  obtain ⟨ok, c, r⟩ := r
  obtain ⟨ok', c', r'⟩ := r'
  obtain ⟨hok, hc, hrel⟩ := hdirs
  dsimp only at hok hc hrel
  subst hok hc
  cases ok' with
  | false => rfl
  | true =>
    dsimp only
    have htable := hrel.fillFileTable c'
    generalize fillFileTable fsBufFill c' r = t at *
    generalize fillFileTable fsBufFill c' r' = t' at *
    obtain ⟨ok, c, t⟩ := t
    obtain ⟨ok', c', t'⟩ := t'
    obtain ⟨hok, hc, hrel⟩ := htable
    dsimp only at hok hc hrel
    subst hok hc
    cases ok' with
    | false => rfl
    | true =>
      dsimp only
      obtain ⟨hrel, hfused⟩ := hrel rfl
      have hfiles := hrel.fillFiles (List.nodup_finRange maxF) c' hfused
      generalize fillFiles fsBufFill (List.finRange maxF) c' t = u at *
      generalize fillFiles fsBufFill (List.finRange maxF) c' t' = u' at *
      obtain ⟨ok, c, u⟩ := u
      obtain ⟨ok', c', u'⟩ := u'
      obtain ⟨hok, hc⟩ := hfiles
      dsimp only at hok hc
      subst hok hc
      cases ok' with
      | false => rfl
      | true =>
        dsimp only
        generalize fsBufFill c' 256 = r
        obtain ⟨cwd | cwd, c⟩ := r <;> rfl

end Alike

section Sizes

/-!
The first file's size after a load is 0 or the one in the image.
-/

def firstSlot : Fin maxF :=
  ⟨0, by decide⟩

theorem fillSlots_inv {σ : Type} {fill : Fill σ} {n len : Nat} {R : FsState → Prop}
    {put : FsState → Fin n → { b : Bytes // b.length = len } → Option FsState} {is : List (Fin n)}
    (hput : ∀ s i b t, i ∈ is → R s → put s i b = some t → R t) (c : σ) {s : FsState} (h : R s)
    : R (fillSlots fill len put is c s).2.2 := by
  induction is generalizing c s with
  | nil => exact h
  | cons i is ih =>
    unfold fillSlots
    split
    . exact h
    . split
      . exact h
      . next t ht =>
        exact ih (fun s i b t hi => hput s i b t (by simp [hi])) _ (hput _ _ _ _ (by simp) h ht)

theorem fillSlots_keeps {σ : Type} {fill : Fill σ} {n len : Nat} {α : Type}
    {put : FsState → Fin n → { b : Bytes // b.length = len } → Option FsState} (get : FsState → α)
    {is : List (Fin n)} (hput : ∀ s i b t, i ∈ is → put s i b = some t → get t = get s) (c : σ)
    (s : FsState)
    : get (fillSlots fill len put is c s).2.2 = get s := by
  apply fillSlots_inv (R := fun t => get t = get s)
  . intro r i b t hi hr hmade
    rw [hput r i b t hi hmade, hr]
  . rfl

theorem fsize_fdataResize_same (s : FsState) (i : Fin maxF)
    : (fdataResize s i (s.fsize i)).2.fsize = s.fsize := by
  unfold fdataResize
  split
  . rfl
  . split
    . next hzero =>
      unfold FsState.freeData
      dsimp only
      rw [← hzero, Function.update_eq_self]
    . split
      . rfl
      . simp [FsState.freeData, Function.update_eq_self]

theorem fillFiles_fsize (j : Fin maxF) (is : List (Fin maxF)) (c : Bytes) (s : FsState)
    : (fillFiles fsBufFill is c s).2.2.fsize j = s.fsize j
      ∨ (fillFiles fsBufFill is c s).2.2.fsize j = 0 := by
  induction is generalizing c s with
  | nil => exact Or.inl rfl
  | cons i is ih =>
    unfold fillFiles
    split
    . obtain heq | heq := ih c { s with fsize := Function.update s.fsize i 0 }
      . rw [heq]
        by_cases hij : j = i
        . simp [hij]
        . simp [hij]
      . exact Or.inr heq
    . have hsize := fsize_fdataResize_same s i
      generalize fdataResize s i (s.fsize i) = r at *
      obtain ⟨rc, r⟩ := r
      dsimp only at hsize ⊢
      rw [← hsize]
      split
      . exact Or.inl rfl
      . split
        . exact Or.inl rfl
        . next b c _ =>
          obtain heq | heq := ih c ((r.storeFile i 0 b.val).storeFile i
            ((r.storeFile i 0 b.val).fsize i) [0])
          . left
            rw [heq, FsState.fsize_storeFile, FsState.fsize_storeFile]
          . exact Or.inr heq

theorem fillFileTable_fsize (c : Bytes) {s : FsState} (h : s.fsize firstSlot = 0)
    : (fillFileTable fsBufFill c s).2.2.fsize firstSlot = 0
      ∨ (fillFileTable fsBufFill c s).2.2.fsize firstSlot = ofLe32 ((c.drop maxF).take 4) := by
  have hslots : List.finRange maxF = firstSlot :: (List.finRange maxF).tail := rfl
  have htail : ∀ (c : Bytes) (s : FsState),
      (fillSlots fsBufFill 4 putFsize (List.finRange maxF).tail c s).2.2.fsize firstSlot
        = s.fsize firstSlot := by
    apply fillSlots_keeps (fun s : FsState => s.fsize firstSlot)
    intro s i b t hi hput
    have hne : firstSlot ≠ i := by
      have hnodup := List.nodup_finRange maxF
      rw [hslots, List.nodup_cons] at hnodup
      rintro rfl
      exact hnodup.1 hi
    unfold putFsize at hput
    split at hput
    . contradiction
    . rw [← Option.some.inj hput]
      simp [hne]
  have hread : ∀ (c : Bytes) (s : FsState), s.fsize firstSlot = 0 →
      (fillSlots fsBufFill 4 putFsize (List.finRange maxF) c s).2.2.fsize firstSlot = 0
        ∨ (fillSlots fsBufFill 4 putFsize (List.finRange maxF) c s).2.2.fsize firstSlot
            = ofLe32 (c.take 4) := by
    intro c s hs
    rw [hslots]
    unfold fillSlots
    by_cases hlen : c.length < 4
    . rw [fsBufFill_of_lt hlen]
      exact Or.inl hs
    . rw [fsBufFill_of_le hlen]
      dsimp only
      split
      . exact Or.inl hs
      . next t ht =>
        rw [htail]
        unfold putFsize at ht
        split at ht
        . contradiction
        . rw [← Option.some.inj ht]
          simp
  have hnames : ∀ (c : Bytes) (s : FsState),
      (fillSlots fsBufFill fsPathCap putFname (List.finRange maxF) c s).2.2.fsize = s.fsize := by
    apply fillSlots_keeps (fun s : FsState => s.fsize)
    intro s i b t _ hput
    rw [← Option.some.inj hput]
  unfold fillFileTable
  by_cases hlen : c.length < maxF
  . rw [fsBufFill_of_lt hlen]
    exact Or.inl h
  . rw [fsBufFill_of_le hlen]
    dsimp only
    have hsize := hread (c.drop maxF) { s with fused := fun i => (c.take maxF).getD i.val 0 } h
    generalize fillSlots fsBufFill 4 putFsize (List.finRange maxF) (c.drop maxF)
      { s with fused := fun i => (c.take maxF).getD i.val 0 } = r at *
    obtain ⟨ok | ok, c', r⟩ := r
    . exact hsize
    . dsimp only at hsize ⊢
      rw [hnames]
      exact hsize

theorem fillBody_fsize (s₁ : FsState) (c : Bytes) (h16 : 16 ∣ s₁.fpoolBytes.toNat)
    : ∃ size, ∀ s : FsState, s.fpoolBytes = s₁.fpoolBytes → (fillBody c s).1 = -1 →
        (fillBody c s).2.2.fsize firstSlot = 0 ∨ (fillBody c s).2.2.fsize firstSlot = size := by
  refine ⟨ofLe32 (((fillDirs fsBufFill c (resetData s₁)).2.1.drop maxF).take 4), ?_⟩
  intro s hbytes hrc
  have hzero := resetData_fsize s firstSlot
  obtain ⟨_, hcursor, _⟩ := (Alike.reset h16 hbytes).fillDirs c
  have hdirs : (fillDirs fsBufFill c (resetData s)).2.2.fsize = (resetData s).fsize := by
    unfold fillDirs
    split
    . rfl
    . rw [fillSlots_keeps (fun s : FsState => s.fsize)]
      intro s i b t _ hput
      rw [← Option.some.inj hput]
  rw [← hcursor]
  unfold fillBody at hrc ⊢
  generalize fillDirs fsBufFill c (resetData s) = r at *
  obtain ⟨ok | ok, c₁, r⟩ := r
  . left
    dsimp only at hdirs ⊢
    rw [hdirs, hzero]
  . dsimp only at hdirs hrc ⊢
    rw [← hdirs] at hzero
    have htable := fillFileTable_fsize c₁ hzero
    generalize fillFileTable fsBufFill c₁ r = t at *
    obtain ⟨ok | ok, c₂, t⟩ := t
    . exact htable
    . dsimp only at htable hrc ⊢
      have hfiles := fillFiles_fsize firstSlot (List.finRange maxF) c₂ t
      generalize fillFiles fsBufFill (List.finRange maxF) c₂ t = u at *
      obtain ⟨ok | ok, c₃, u⟩ := u
      . dsimp only at hfiles ⊢
        cases hfiles with
        | inl heq => rwa [heq]
        | inr heq => exact Or.inl heq
      . dsimp only at hfiles hrc ⊢
        generalize fsBufFill c₃ 256 = r at *
        obtain ⟨cwd | cwd, c⟩ := r
        . dsimp only
          cases hfiles with
          | inl heq => rwa [heq]
          | inr heq => exact Or.inl heq
        . simp at hrc

end Sizes

section Probe

/-!
A file of one or two bytes in the first slot.
-/

def probePath : CStr :=
  ⟨[slash, 120], by decide⟩

def probe (fpoolBytes : UInt32) (data : Data) : FsState :=
  (fsWriteFile { fsInit (.zeroed fpoolBytes) with fsCurUid := 0 } probePath data).2

theorem probe_run (fpoolBytes : UInt32) (data : Data)
    : AnyRun (fsInit (.zeroed fpoolBytes)) (probe fpoolBytes data) := by
  have hwrite : FsCall.Step ⟨0, .writeFile probePath data⟩ (fsInit (.zeroed fpoolBytes))
      (probe fpoolBytes data) := FsCall.step 0 rfl
  exact Run.call .refl hwrite trivial

theorem probe_eq (fpoolBytes : UInt32) (data : Data)
    : probe fpoolBytes data
        = (fsWriteFile.write data
            ({ fsInit (.zeroed fpoolBytes) with fsErrno := 0 }.addFile firstSlot probePath.val)
            firstSlot).2 := rfl

theorem probe_file {fpoolBytes : UInt32} {data : Data} (h16 : 16 ∣ fpoolBytes.toNat)
    (hpos : fpoolBytes.toNat ≠ 0) (hlen : data.val.length = 1 ∨ data.val.length = 2)
    : (probe fpoolBytes data).IsFile firstSlot probePath.val
      ∧ (probe fpoolBytes data).fsize firstSlot = data.val.length := by
  have hinit := DataInv.init (s := fsInit (.zeroed fpoolBytes)) (m := (FsState.zeroed fpoolBytes).fpool)
    h16 rfl (fun _ => rfl)
  have hinv : DataInv { fsInit (.zeroed fpoolBytes) with fsErrno := 0 } (freshBlocks fpoolBytes) :=
    ⟨hinit.pool, hinit.held, hinit.distinct⟩
  have hmade := (hinv.addFile firstSlot probePath.val).1
  have hfile : ({ fsInit (.zeroed fpoolBytes) with fsErrno := 0 }.addFile firstSlot
      probePath.val).IsFile firstSlot probePath.val := by
    rw [FsState.isFile_addFile (by decide) (by decide)]
    exact Or.inl ⟨rfl, rfl⟩
  rw [probe_eq]
  generalize { fsInit (.zeroed fpoolBytes) with fsErrno := 0 }.addFile firstSlot probePath.val = t at *
  have hneed : DataInv.need data.val.length = 4 := by
    unfold DataInv.need
    cases hlen with
    | inl hlen => rw [hlen]
    | inr hlen => rw [hlen]
  have hmax : data.val.length < maxFileData := by
    unfold maxFileData
    omega
  have hfit : ∃ r, firstFit 8 16 (DataInv.need data.val.length) (freshBlocks fpoolBytes) = some r := by
    rw [hneed]
    unfold freshBlocks
    rw [if_neg hpos]
    unfold firstFit
    have : 4 ≤ fpoolBytes.toNat - 8 := by omega
    simp only [this, and_self, ↓reduceIte]
    split
    . exact ⟨_, rfl⟩
    . exact ⟨_, rfl⟩
  obtain ⟨⟨o, bs'⟩, hfit⟩ := hfit
  obtain ⟨hrc, _, _, _⟩ := hmade.resize_fits (i := firstSlot) (by omega) hmax hfit
  have hsize := FsState.fsize_fdataResize hrc
  unfold fsWriteFile.write
  rw [if_neg (by omega)]
  dsimp only
  rw [if_neg (fun hne => hne hrc)]
  dsimp only
  refine ⟨?_, ?_⟩
  . rw [(FsState.sameNames_storeFile _ _ _).isFile, (FsState.sameNames_storeFile _ _ _).isFile,
      (FsState.sameNames_fdataResize _ _).isFile]
    exact hfile
  . rw [FsState.fsize_storeFile, FsState.fsize_storeFile, hsize]

end Probe

/--
The image `b` is safe to try on any state with this pool: if it is rejected, nothing has happened.
-/
def KeptOnReject (fpoolBytes : UInt32) (b : Bytes) : Prop :=
  ∀ s₀ s, s₀.fpoolBytes = fpoolBytes → AnyRun (fsInit s₀) s → (fsDeserialize s b).1 = -1 →
    Unchanged s (fsDeserialize s b).2 ∧ Unchanged s (storeInitModule s b)

theorem rejected_image_iff (s₁ : FsState) (b : Bytes) (bytes : UInt32) (hbytes : 16 ≤ bytes.toNat)
    (hpool : s₁.fpoolBytes = fsSetPool bytes) (hreject : (fsDeserialize s₁ b).1 = -1)
    : KeptOnReject (fsSetPool bytes) b ↔ HeaderRefused b := by
  constructor
  . intro hkept
    by_contra hheader
    have h16 := fsSetPool_dvd bytes
    have hpos : (fsSetPool bytes).toNat ≠ 0 := by
      rw [fsSetPool_toNat]
      unfold fsDataPoolSize
      omega
    rw [fsDeserialize_body s₁ hheader] at hreject
    obtain ⟨size, hsize⟩ := fillBody_fsize s₁ (b.drop 8) (by rw [hpool]; exact h16)
    -- a file of another size than the image has, if it gets that far
    obtain ⟨data, hlen, hne⟩ : ∃ data : Data, (data.val.length = 1 ∨ data.val.length = 2)
        ∧ data.val.length ≠ size := by
      by_cases hone : size = 1
      . exact ⟨⟨[0, 0], by decide⟩, Or.inr rfl, by simp [hone]⟩
      . exact ⟨⟨[0], by decide⟩, Or.inl rfl, fun heq => hone heq.symm⟩
    obtain ⟨hfile, hold⟩ := probe_file h16 hpos hlen
    have hrun := probe_run (fsSetPool bytes) data
    have hprobe : (probe (fsSetPool bytes) data).fpoolBytes = s₁.fpoolBytes := by
      rw [fpoolBytes_run hrun, hpool]
      rfl
    have hrc : (fillBody (b.drop 8) (probe (fsSetPool bytes) data)).1 = -1 := by
      rw [fillBody_rc (b.drop 8) (by rw [hpool]; exact h16) hprobe]
      exact hreject
    have hsame := (hkept (.zeroed (fsSetPool bytes)) (probe (fsSetPool bytes) data) rfl hrun
      (by rw [fsDeserialize_body _ hheader]; exact hrc)).1.sizes firstSlot probePath.val hfile
    rw [fsDeserialize_body _ hheader, hold] at hsame
    obtain hnew | hnew := hsize (probe (fsSetPool bytes) data) hprobe hrc
    . dsimp only at hsame
      omega
    . dsimp only at hsame
      omega
  . intro hheader s₀ s _ _ _
    unfold storeInitModule
    rw [fsDeserialize_refused s hheader]
    refine ⟨Unchanged.refl s, ?_⟩
    split
    . exact Unchanged.refl s
    . exact Unchanged.refl s

/--
An image that ends behind its header is rejected, and not without consequences.
-/
theorem rejected_image_header
    : (fsDeserialize (.zeroed 64) fsHeader).1 = -1 ∧ ¬KeptOnReject (fsSetPool 64) fsHeader := by
  have hreject : (fsDeserialize (.zeroed 64) fsHeader).1 = -1 := by decide +kernel
  refine ⟨hreject, ?_⟩
  rw [rejected_image_iff (.zeroed 64) fsHeader 64 (by decide) (by decide) hreject]
  decide +kernel

/--
It leaves the files in place but empties them.
-/
theorem rejected_image_empties
    : ¬∀ s₀ s b bytes, s₀.fpoolBytes = fsSetPool bytes → AnyRun (fsInit s₀) s →
        (fsDeserialize s b).1 = -1 → Unchanged s (fsDeserialize s b).2 := by
  intro h
  have hkept := h (.zeroed 64) (probe 64 ⟨[0], by decide⟩) fsHeader 64 (by decide) (probe_run _ _)
    (by decide +kernel)
  have hsize := hkept.sizes firstSlot probePath.val (by decide +kernel)
  have hzero : (fsDeserialize (probe 64 ⟨[0], by decide⟩) fsHeader).2.fsize firstSlot = 0 :=
    resetData_fsize (probe 64 ⟨[0], by decide⟩) firstSlot
  rw [hzero] at hsize
  revert hsize
  decide +kernel

end TanjaOS
