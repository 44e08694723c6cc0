import TanjaOS.Fs.Access
import TanjaOS.Fs.Image.Reject

/-!
Where a load touches the contents of files, and that nothing does so outside of a file's block
unless one of three mistakes is provoked: a file of no bytes, or a sum that wraps around.
-/

open Lib
open Lib.Tiling

namespace TanjaOS

section Log

variable {σ : Type} (fill : Fill σ)

/--
`fill` may have stored some bytes when it fails.
-/
def fillFilesLog : List (Fin maxF) → σ → FsState → (Bool × σ × FsState) × List Access
  | [], c, s => ((true, c, s), [])
  | i :: is, c, s =>
    if s.fused i = 0 then
      fillFilesLog is c { s with fsize := Function.update s.fsize i 0 }
    else
      let ((rc, s), log) := fdataResizeLog s i (s.fsize i)
      if rc ≠ 0 then
        ((false, c, s), log)
      else
        let log := log ++ s.accesses i 0 (s.fsize i)
        match fill c (s.fsize i) with
        | (none, c) => ((false, c, s), log)
        | (some b, c) =>
          let t := s.storeFile i 0 b.val
          let r := fillFilesLog is c (t.storeFile i (t.fsize i) [0])
          (r.1, log ++ t.accesses i (t.fsize i) 1 ++ r.2)

def fsDeserializeFillLog (c : σ) (s : FsState) : (Int × σ × FsState) × List Access :=
  match fill c 8 with
  | (none, c) => ((-1, c, s), [])
  | (some hdr, c) =>
    if hdr.val.take 4 ≠ fsHeader.take 4 then
      ((-1, c, s), [])
    else if hdr.val.getD 4 0 ≠ storeVersion then
      ((-1, c, s), [])
    else
      match fillDirs fill c (resetData s) with
      | (false, c, s) => ((-1, c, s), [])
      | (true, c, s) =>
        match fillFileTable fill c s with
        | (false, c, s) => ((-1, c, s), [])
        | (true, c, s) =>
          match fillFilesLog fill (List.finRange maxF) c s with
          | ((false, c, s), log) => ((-1, c, s), log)
          | ((true, c, s), log) =>
            match fill c 256 with
            | (none, c) => ((-1, c, s), log)
            | (some cwd, c) =>
              ((0, fillOwnerTables fill c { s with cwd := ⟨cwd.val, length_cwd cwd⟩ }), log)

variable {fill}

theorem fillFilesLog_fst {is : List (Fin maxF)} {c : σ} {s : FsState}
    : (fillFilesLog fill is c s).1 = fillFiles fill is c s := by
  induction is generalizing c s with
  | nil => rfl
  | cons i is ih =>
    unfold fillFilesLog fillFiles fdataResizeLog
    split
    . exact ih
    . dsimp only
      split
      . rfl
      . generalize fill c ((fdataResize s i (s.fsize i)).2.fsize i) = r
        obtain ⟨b | b, c⟩ := r
        . rfl
        . exact ih

theorem fsDeserializeFillLog_fst {c : σ} {s : FsState}
    : (fsDeserializeFillLog fill c s).1 = fsDeserializeFill fill c s := by
  unfold fsDeserializeFillLog fsDeserializeFill
  generalize fill c 8 = r
  obtain ⟨hdr | hdr, c⟩ := r
  . rfl
  . dsimp only
    rw [apply_ite Prod.fst, apply_ite Prod.fst]
    generalize fillDirs fill c (resetData s) = r
    obtain ⟨ok | ok, c, s⟩ := r
    . rfl
    . dsimp only
      generalize fillFileTable fill c s = r
      obtain ⟨ok | ok, c, s⟩ := r
      . rfl
      . dsimp only
        rw [← fillFilesLog_fst]
        generalize fillFilesLog fill (List.finRange maxF) c s = r
        obtain ⟨⟨ok | ok, c, s⟩, log⟩ := r
        . rfl
        . dsimp only
          generalize fill c 256 = r
          obtain ⟨cwd | cwd, c⟩ := r <;> rfl

end Log

section Slots

variable {σ : Type} (fill : Fill σ)

/--
What `fill` delivers to requests of these lengths, if it refuses none of them.
-/
def requests : List Nat → σ → Option (List Bytes × σ)
  | [], c => some ([], c)
  | len :: lens, c =>
    match fill c len with
    | (none, _) => none
    | (some b, c) => (requests lens c).map (fun r => (b.val :: r.1, r.2))

/--
The used flags and the sizes of the files in an image and where their contents begin, unless the load
is refused before it gets there: for the header, a size out of range or a request.
-/
def fileTables (c : σ) : Option (Bytes × List Bytes × σ) := do
  let (hdr, c) ← requests fill [8] c
  guard (hdr.flatten.take 4 = fsHeader.take 4 ∧ hdr.flatten.getD 4 0 = storeVersion)
  let (_, c) ← requests fill [maxD] c
  let (_, c) ← requests fill (List.replicate maxD fsPathCap) c
  let (used, c) ← requests fill [maxF] c
  let (sizes, c) ← requests fill (List.replicate maxF 4) c
  guard (∀ b ∈ sizes, ofLe32 b < maxFileData)
  let (_, c) ← requests fill (List.replicate maxF fsPathCap) c
  some (used.flatten, sizes, c)

def usedSizes (used : Bytes) (sizes : List Bytes) : List Nat :=
  ((List.finRange maxF).filter (fun i => used.getD i.val 0 ≠ 0)).map (fun i => ofLe32 (sizes.getD i.val []))

/--
Files of these sizes are to be read, and one of them is empty: those before it find room in the pool
and are delivered.
-/
def MeetsEmpty : List Nat → σ → List Block → Prop
  | [], _, _ => False
  | size :: sizes, c, bs =>
    ∃ bs' b c', resized size bs = some bs' ∧ fill c size = (some b, c') ∧ (size = 0 ∨ MeetsEmpty sizes c' bs')

/--
The load does not come to an empty file.
-/
def NoEmptyFile (pool : UInt32) (c : σ) : Prop :=
  ∀ used sizes c', fileTables fill c = some (used, sizes, c') →
    ¬MeetsEmpty fill (usedSizes used sizes) c' (freshBlocks pool)

variable {fill}

theorem requests_none {len : Nat} {c c' : σ} (h : fill c len = (none, c')) : requests fill [len] c = none := by
  rw [requests, h]

theorem requests_one {len : Nat} {c c' : σ} {b : { b : Bytes // b.length = len }}
    (h : fill c len = (some b, c'))
    : requests fill [len] c = some ([b.val], c') := by
  rw [requests, h]
  rfl

theorem fillSlots_requests {n len : Nat} {bad : Bytes → Prop}
    {put : FsState → Fin n → { b : Bytes // b.length = len } → Option FsState}
    (hput : ∀ s i b, put s i b = none ↔ bad b.val) (is : List (Fin n)) (c : σ) (s : FsState)
    : (fillSlots fill len put is c s).1 = true
        ∧ (∃ bs, requests fill (List.replicate is.length len) c = some (bs, (fillSlots fill len put is c s).2.1)
          ∧ ∀ b ∈ bs, ¬bad b)
      ∨ (fillSlots fill len put is c s).1 = false
        ∧ ∀ bs c', requests fill (List.replicate is.length len) c = some (bs, c') → ∃ b ∈ bs, bad b := by
  induction is generalizing c s with
  | nil => exact Or.inl ⟨rfl, [], rfl, by simp⟩
  | cons i is ih =>
    rw [List.length_cons, List.replicate_succ]
    unfold fillSlots requests
    generalize fill c len = r
    obtain ⟨b | b, c'⟩ := r
    . refine Or.inr ⟨rfl, ?_⟩
      intro bs c'' heq
      contradiction
    . dsimp only
      cases hres : put s i b with
      | none =>
        refine Or.inr ⟨rfl, ?_⟩
        rintro bs c'' heq
        obtain ⟨r, _, hr⟩ := Option.map_eq_some_iff.mp heq
        rw [Prod.mk.injEq] at hr
        exact ⟨b.val, by rw [← hr.1]; simp, (hput s i b).mp hres⟩
      | some t =>
        have hgood : ¬bad b.val := by
          rw [← hput s i b, hres]
          simp
        obtain ⟨hok, bs, hbs, hall⟩ | ⟨hno, hbad⟩ := ih c' t
        . refine Or.inl ⟨hok, b.val :: bs, by rw [hbs]; rfl, ?_⟩
          rw [List.forall_mem_cons]
          exact ⟨hgood, hall⟩
        . refine Or.inr ⟨hno, ?_⟩
          rintro bs c'' heq
          obtain ⟨r, hr, hrs⟩ := Option.map_eq_some_iff.mp heq
          rw [Prod.mk.injEq] at hrs
          obtain ⟨x, hx, hxbad⟩ := hbad r.1 r.2 hr
          exact ⟨x, by rw [← hrs.1]; exact List.mem_cons_of_mem _ hx, hxbad⟩

theorem fillSlots_all {n len : Nat}
    {put : FsState → Fin n → { b : Bytes // b.length = len } → Option FsState}
    (hput : ∀ s i b, put s i b ≠ none) (c : σ) (s : FsState)
    : (fillSlots fill len put (List.finRange n) c s).1 = true
        ∧ (∃ bs, requests fill (List.replicate n len) c
          = some (bs, (fillSlots fill len put (List.finRange n) c s).2.1))
      ∨ (fillSlots fill len put (List.finRange n) c s).1 = false
        ∧ requests fill (List.replicate n len) c = none := by
  have hread := @fillSlots_requests σ fill n len (fun _ => False) put
    (fun s i b => iff_of_false (hput s i b) not_false) (List.finRange n) c s
  rw [List.length_finRange] at hread
  obtain ⟨hok, bs, hbs, _⟩ | ⟨hno, hbad⟩ := hread
  . exact Or.inl ⟨hok, bs, hbs⟩
  . refine Or.inr ⟨hno, Option.eq_none_iff_forall_ne_some.mpr ?_⟩
    intro r hr
    obtain ⟨_, _, hfalse⟩ := hbad r.1 r.2 hr
    exact hfalse

theorem putFsize_none (s : FsState) (i : Fin maxF) (b : { b : Bytes // b.length = 4 })
    : putFsize s i b = none ↔ maxFileData ≤ ofLe32 b.val := by
  unfold putFsize
  split <;> simp_all

theorem fsize_fillSizes {is : List (Fin maxF)} (hnodup : is.Nodup) {c c' : σ} {s : FsState} {bs : List Bytes}
    (hok : (fillSlots fill 4 putFsize is c s).1 = true)
    (hbs : requests fill (List.replicate is.length 4) c = some (bs, c'))
    : (∀ k i, is[k]? = some i →
          (fillSlots fill 4 putFsize is c s).2.2.fsize i = ofLe32 (bs.getD k []))
        ∧ ∀ j, j ∉ is → (fillSlots fill 4 putFsize is c s).2.2.fsize j = s.fsize j := by
  induction is generalizing c c' s bs with
  | nil => exact ⟨by simp, fun _ _ => rfl⟩
  | cons i is ih =>
    rw [List.nodup_cons] at hnodup
    obtain ⟨hi, hnodup⟩ := hnodup
    rw [List.length_cons, List.replicate_succ] at hbs
    unfold fillSlots at hok ⊢
    unfold requests at hbs
    generalize fill c 4 = r at *
    obtain ⟨b | b, c₁⟩ := r
    . contradiction
    . dsimp only at hok hbs ⊢
      cases hput : putFsize s i b with
      | none =>
        rw [hput] at hok
        contradiction
      | some t =>
        rw [hput] at hok
        dsimp only at hok ⊢
        obtain ⟨⟨bs', c₂⟩, hr, hrs⟩ := Option.map_eq_some_iff.mp hbs
        rw [Prod.mk.injEq] at hrs
        obtain ⟨hsizes, hother⟩ := ih hnodup hok hr
        have ht : t.fsize = Function.update s.fsize i (ofLe32 b.val) := by
          unfold putFsize at hput
          split at hput
          . contradiction
          . rw [← Option.some.inj hput]
        rw [← hrs.1]
        constructor
        . intro k j hk
          cases k with
          | zero =>
            simp only [List.getElem?_cons_zero, Option.some.injEq] at hk
            subst hk
            rw [hother i hi, ht]
            simp
          | succ k => exact hsizes k j hk
        . intro j hj
          rw [List.mem_cons, not_or] at hj
          rw [hother j hj.2, ht]
          simp [hj.1]

theorem fillDirs_requests (c : σ) (s : FsState)
    : (fillDirs fill c s).1 = true
        ∧ (∃ used names c₁, requests fill [maxD] c = some (used, c₁)
          ∧ requests fill (List.replicate maxD fsPathCap) c₁ = some (names, (fillDirs fill c s).2.1))
      ∨ (fillDirs fill c s).1 = false
        ∧ ∀ used c₁, requests fill [maxD] c = some (used, c₁) →
          requests fill (List.replicate maxD fsPathCap) c₁ = none := by
  unfold fillDirs
  cases hflags : fill c maxD with
  | mk used c₁ =>
    cases used with
    | none =>
      refine Or.inr ⟨rfl, ?_⟩
      intro used c₂ hread
      rw [requests_none hflags] at hread
      contradiction
    | some used =>
      have hnames := @fillSlots_all σ fill maxD fsPathCap putDname (fun _ _ _ => by simp [putDname]) c₁
        { s with dused := fun i => used.val.getD i.val 0 }
      dsimp only
      obtain ⟨hok, names, hread⟩ | ⟨hno, hbad⟩ := hnames
      . exact Or.inl ⟨hok, [used.val], names, c₁, requests_one hflags, hread⟩
      . refine Or.inr ⟨hno, ?_⟩
        intro used' c₂ hread
        rw [requests_one hflags] at hread
        obtain ⟨_, rfl⟩ := Prod.mk.inj (Option.some.inj hread)
        exact hbad

theorem fused_fillSizes (c : σ) (s : FsState)
    : (fillSlots fill 4 putFsize (List.finRange maxF) c s).2.2.fused = s.fused := by
  apply fillSlots_keeps (fun s : FsState => s.fused)
  intro s i b t _ hput
  unfold putFsize at hput
  split at hput
  . contradiction
  . rw [← Option.some.inj hput]

theorem fillFileTable_requests (c : σ) (s : FsState)
    : (fillFileTable fill c s).1 = true
        ∧ (∃ used sizes names c₁ c₂, requests fill [maxF] c = some (used, c₁)
          ∧ requests fill (List.replicate maxF 4) c₁ = some (sizes, c₂)
          ∧ (∀ b ∈ sizes, ofLe32 b < maxFileData)
          ∧ requests fill (List.replicate maxF fsPathCap) c₂ = some (names, (fillFileTable fill c s).2.1)
          ∧ ∀ i, (fillFileTable fill c s).2.2.fused i = used.flatten.getD i.val 0
            ∧ (fillFileTable fill c s).2.2.fsize i = ofLe32 (sizes.getD i.val []))
      ∨ (fillFileTable fill c s).1 = false
        ∧ ∀ used sizes c₁ c₂, requests fill [maxF] c = some (used, c₁) →
          requests fill (List.replicate maxF 4) c₁ = some (sizes, c₂) →
          (∀ b ∈ sizes, ofLe32 b < maxFileData) →
          requests fill (List.replicate maxF fsPathCap) c₂ = none := by
  unfold fillFileTable
  cases hflags : fill c maxF with
  | mk used c₁ =>
    cases used with
    | none =>
      refine Or.inr ⟨rfl, ?_⟩
      intro used sizes c₂ _ hread
      rw [requests_none hflags] at hread
      contradiction
    | some used =>
      have hsizes := @fillSlots_requests σ fill maxF 4 (fun b => maxFileData ≤ ofLe32 b) putFsize
        putFsize_none (List.finRange maxF) c₁ { s with fused := fun i => used.val.getD i.val 0 }
      have hfsize := @fsize_fillSizes σ fill (List.finRange maxF) (List.nodup_finRange maxF) c₁
      have hfused := @fused_fillSizes σ fill c₁ { s with fused := fun i => used.val.getD i.val 0 }
      rw [List.length_finRange] at hsizes hfsize
      replace hfsize := fun c' bs => @hfsize c' { s with fused := fun i => used.val.getD i.val 0 } bs
      dsimp only
      generalize fillSlots fill 4 putFsize (List.finRange maxF) c₁
        { s with fused := fun i => used.val.getD i.val 0 } = r at *
      obtain ⟨ok | ok, c₂, t⟩ := r
      . obtain ⟨hok, _⟩ | ⟨_, hbad⟩ := hsizes
        . contradiction
        . refine Or.inr ⟨rfl, ?_⟩
          intro used' sizes c₁' c₂' hread hsizes hgood
          rw [requests_one hflags] at hread
          obtain ⟨_, rfl⟩ := Prod.mk.inj (Option.some.inj hread)
          obtain ⟨b, hb, hlarge⟩ := hbad sizes c₂' hsizes
          exact absurd (hgood b hb) (by omega)
      . obtain ⟨_, sizes, hread, hgood⟩ | ⟨hno, _⟩ := hsizes
        case inr => contradiction
        dsimp only at hread hfused hfsize ⊢
        obtain ⟨hok, names, hnames⟩ | ⟨hno, hbad⟩ :=
          @fillSlots_all σ fill maxF fsPathCap putFname (fun _ _ _ => by simp [putFname]) c₂ t
        . refine Or.inl ⟨hok, [used.val], sizes, names, c₁, c₂, requests_one hflags, hread, ?_, hnames, ?_⟩
          . intro b hb
            have := hgood b hb
            omega
          . intro i
            have hkeptUsed : (fillSlots fill fsPathCap putFname (List.finRange maxF) c₂ t).2.2.fused = t.fused := by
              apply fillSlots_keeps (fun s : FsState => s.fused)
              intro s i b t _ hput
              rw [← Option.some.inj hput]
            have hkeptSize : (fillSlots fill fsPathCap putFname (List.finRange maxF) c₂ t).2.2.fsize = t.fsize := by
              apply fillSlots_keeps (fun s : FsState => s.fsize)
              intro s i b t _ hput
              rw [← Option.some.inj hput]
            rw [hkeptUsed, hkeptSize, hfused]
            refine ⟨by simp, (hfsize c₂ sizes rfl hread).1 i.val i ?_⟩
            simp
        . refine Or.inr ⟨hno, ?_⟩
          intro used' sizes' c₁' c₂' hused hsizes _
          rw [requests_one hflags] at hused
          obtain ⟨_, rfl⟩ := Prod.mk.inj (Option.some.inj hused)
          rw [hread] at hsizes
          obtain ⟨_, rfl⟩ := Prod.mk.inj (Option.some.inj hsizes)
          exact hbad

theorem fileTables_eq_some {used : Bytes} {sizes : List Bytes} {c c' : σ}
    : fileTables fill c = some (used, sizes, c')
      ↔ ∃ hdr c₁ dused c₂ dnames c₃ fused c₄ c₅ fnames,
          requests fill [8] c = some (hdr, c₁)
          ∧ (hdr.flatten.take 4 = fsHeader.take 4 ∧ hdr.flatten.getD 4 0 = storeVersion)
          ∧ requests fill [maxD] c₁ = some (dused, c₂)
          ∧ requests fill (List.replicate maxD fsPathCap) c₂ = some (dnames, c₃)
          ∧ requests fill [maxF] c₃ = some (fused, c₄)
          ∧ requests fill (List.replicate maxF 4) c₄ = some (sizes, c₅)
          ∧ (∀ b ∈ sizes, ofLe32 b < maxFileData)
          ∧ requests fill (List.replicate maxF fsPathCap) c₅ = some (fnames, c')
          ∧ fused.flatten = used := by
  unfold fileTables
  simp only [Option.bind_eq_bind, Option.bind_eq_some_iff, Option.guard_eq_some']
  constructor
  . rintro ⟨⟨hdr, c₁⟩, hhdr, _, hmagic, ⟨dused, c₂⟩, hdused, ⟨dnames, c₃⟩, hdnames, ⟨fused, c₄⟩, hfused,
      ⟨sizes', c₅⟩, hsizes, _, hgood, ⟨fnames, c₆⟩, hfnames, hlast⟩
    obtain ⟨hflags, hlast⟩ := Prod.mk.inj (Option.some.inj hlast)
    obtain ⟨rfl, rfl⟩ := Prod.mk.inj hlast
    exact ⟨hdr, c₁, dused, c₂, dnames, c₃, fused, c₄, c₅, fnames, hhdr, hmagic, hdused, hdnames, hfused,
      hsizes, hgood, hfnames, hflags⟩
  . rintro ⟨hdr, c₁, dused, c₂, dnames, c₃, fused, c₄, c₅, fnames, hhdr, hmagic, hdused, hdnames, hfused,
      hsizes, hgood, hfnames, rfl⟩
    exact ⟨(hdr, c₁), hhdr, (), hmagic, (dused, c₂), hdused, (dnames, c₃), hdnames, (fused, c₄), hfused,
      (sizes, c₅), hsizes, (), hgood, (fnames, c'), hfnames, rfl⟩

end Slots

/--
What the accesses rely on: the pool's blocks, and sizes in range. A load that has been rejected may
have left sizes of files that have no data.
-/
structure AccessInv (s : FsState) : Prop where
  aligned : 16 ∣ s.fpoolBytes.toNat
  blocks : ∃ bs, DataInv s bs
  sizes : ∀ i, s.fsize i < maxFileData

theorem DataInv.setSize {s : FsState} {bs : List Block} {i : Fin maxF} {size : Nat} (h : DataInv s bs)
    (hnone : s.fdata i = none)
    : DataInv { s with fsize := Function.update s.fsize i size } bs := by
  refine h.of_keeps h.pool ?_
  intro j p hp
  have hij : j ≠ i := by
    rintro rfl
    rw [hnone] at hp
    contradiction
  refine ⟨hp, ?_, fun _ hmem => hmem⟩
  simp [hij]

theorem DataInv.congr {s t : FsState} {bs : List Block} (h : DataInv s bs)
    (hbytes : t.fpoolBytes = s.fpoolBytes) (hpool : t.fpool = s.fpool) (hdata : t.fdata = s.fdata)
    (hsize : t.fsize = s.fsize)
    : DataInv t bs := by
  refine ⟨?_, ?_, ?_⟩
  . rw [hbytes, hpool]
    exact h.pool
  . rw [hdata, hsize]
    exact h.held
  . rw [hdata]
    exact h.distinct

namespace AccessInv

variable {σ : Type} {fill : Fill σ} {s t : FsState}

theorem congr (h : AccessInv s) (hbytes : t.fpoolBytes = s.fpoolBytes) (hpool : t.fpool = s.fpool)
    (hdata : t.fdata = s.fdata) (hsize : t.fsize = s.fsize)
    : AccessInv t := by
  obtain ⟨bs, hinv⟩ := h.blocks
  refine ⟨?_, ⟨bs, hinv.congr hbytes hpool hdata hsize⟩, ?_⟩
  . rw [hbytes]
    exact h.aligned
  . rw [hsize]
    exact h.sizes

theorem setSize {i : Fin maxF} {size : Nat} (h : AccessInv s) (hnone : s.fdata i = none)
    (hsize : size < maxFileData)
    : AccessInv { s with fsize := Function.update s.fsize i size } := by
  obtain ⟨bs, hinv⟩ := h.blocks
  refine ⟨h.aligned, ⟨bs, hinv.setSize hnone⟩, ?_⟩
  intro j
  by_cases hij : j = i
  . simp [hij, hsize]
  . simpa [hij] using h.sizes j

theorem resize (i : Fin maxF) (h : AccessInv s)
    : AccessInv (fdataResize s i (s.fsize i)).2 := by
  obtain ⟨bs, hinv⟩ := h.blocks
  have hbytes := congrArg FsState.fpoolBytes (FsState.frame_fdataResize (s := s) i (s.fsize i))
  refine ⟨?_, (hinv.resize i (s.fsize i)).1, ?_⟩
  . have hsame : (fdataResize s i (s.fsize i)).2.fpoolBytes = s.fpoolBytes := hbytes
    rw [hsame]
    exact h.aligned
  . rw [fsize_fdataResize_same]
    exact h.sizes

theorem store {i : Fin maxF} {b : Bytes} (h : AccessInv s) (hlen : b.length = s.fsize i)
    : AccessInv ((s.storeFile i 0 b).storeFile i (s.fsize i) [0]) := by
  obtain ⟨bs, hinv⟩ := h.blocks
  have hframe : ((s.storeFile i 0 b).storeFile i (s.fsize i) [0]).frame = s.frame := by
    rw [FsState.frame_storeFile, FsState.frame_storeFile]
  have hbytes := congrArg FsState.fpoolBytes hframe
  refine ⟨?_, ⟨bs, (stored_same hinv hlen).1⟩, ?_⟩
  . have hsame : ((s.storeFile i 0 b).storeFile i (s.fsize i) [0]).fpoolBytes = s.fpoolBytes :=
      hbytes
    rw [hsame]
    exact h.aligned
  . rw [FsState.fsize_storeFile, FsState.fsize_storeFile]
    exact h.sizes

theorem fillFiles_iff (fill : Fill σ) {is : List (Fin maxF)} (hnodup : is.Nodup) (c : σ) (h : AccessInv s)
    {bs : List Block} (hdata : DataInv s bs) (hnone : ∀ i ∈ is, s.fdata i = none)
    : (AllInside (fillFilesLog fill is c s).2
          ↔ ¬MeetsEmpty fill ((is.filter (fun i => s.fused i ≠ 0)).map s.fsize) c bs)
        ∧ (AllInside (fillFilesLog fill is c s).2 → AccessInv (fillFilesLog fill is c s).1.2.2) := by
  induction is generalizing c s bs with
  | nil => exact ⟨⟨fun _ hmeets => hmeets, fun _ => allInside_nil⟩, fun _ => h⟩
  | cons i is ih =>
    rw [List.nodup_cons] at hnodup
    obtain ⟨hi, hnodup⟩ := hnodup
    have hne : ∀ j ∈ is, j ≠ i := by
      rintro j hj rfl
      contradiction
    unfold fillFilesLog
    by_cases hused : s.fused i = 0
    . have hsame : (is.filter (fun j => s.fused j ≠ 0)).map (Function.update s.fsize i 0)
          = (is.filter (fun j => s.fused j ≠ 0)).map s.fsize := by
        apply List.map_congr_left
        intro j hj
        exact Function.update_of_ne (hne j (List.mem_of_mem_filter hj)) _ _
      rw [if_pos hused, List.filter_cons_of_neg (by simp [hused]), ← hsame]
      exact ih hnodup c (h.setSize (hnone i (by simp)) (by decide)) (hdata.setSize (hnone i (by simp)))
        (fun j hj => hnone j (by simp [hj]))
    . rw [if_neg hused, List.filter_cons_of_pos (by simp [hused]), List.map_cons, MeetsEmpty]
      have hinv := h.resize i
      have hreads := hdata.reads_inside i (s.fsize i)
      obtain ⟨hfull, hfits⟩ := @resize_resized s bs i (s.fsize i) hdata (hnone i (by simp))
      have hgot := @Target.fdataResize_fdata s i (s.fsize i)
      have hsizes := fsize_fdataResize_same s i
      have hflags := fused_fdataResize s i (s.fsize i)
      have hfree : s.fsize i = 0 → (fdataResize s i (s.fsize i)).2.fdata i = none := by
        intro hempty
        rw [hempty, resize_zero]
        simp [FsState.freeData]
      have hres : (fdataResizeLog s i (s.fsize i)).1 = fdataResize s i (s.fsize i) := rfl
      generalize fdataResizeLog s i (s.fsize i) = r at *
      rw [← hres] at hinv hfull hfits hgot hsizes hflags hfree
      obtain ⟨⟨rc, t⟩, log⟩ := r
      dsimp only at hinv hfull hfits hgot hsizes hflags hreads hfree ⊢
      rw [← hsizes] at hfull hfits hgot hfree ⊢
      cases hroom : resized (t.fsize i) bs with
      | none =>
        rw [if_pos (hfull hroom)]
        exact ⟨⟨fun _ => by simp, fun _ => hreads⟩, fun _ => hinv⟩
      | some bs' =>
        obtain ⟨hrc, hblocks, hother⟩ := hfits bs' hroom
        rw [if_neg (not_not_intro hrc)]
        have hbytes : AllInside (t.accesses i 0 (t.fsize i)) := by
          by_cases hempty : t.fsize i = 0
          . rw [hempty]
            exact allInside_nil
          . obtain ⟨p, hp⟩ := Option.ne_none_iff_exists'.mp (hgot hempty hrc)
            exact hblocks.accesses_held hp (by omega)
        have hbefore : AllInside (log ++ t.accesses i 0 (t.fsize i)) := allInside_append.mpr ⟨hreads, hbytes⟩
        cases hfill : fill c (t.fsize i) with
        | mk b c' =>
          cases b with
          | none => exact ⟨⟨fun _ => by simp, fun _ => hbefore⟩, fun _ => hinv⟩
          | some b =>
            obtain ⟨hstored, hused', hsame⟩ := stored_same hblocks b.property
            have hnext := ih hnodup c' (hinv.store b.property) hstored (by
              intro j hj
              rw [(hsame j (hne j hj)).fdata, (hother j (hne j hj)).fdata]
              exact hnone j (by simp [hj]))
            rw [hused', hflags, FsState.fsize_storeFile, FsState.fsize_storeFile] at hnext
            dsimp only
            rw [allInside_append, allInside_append, FsState.fsize_storeFile]
            by_cases hempty : t.fsize i = 0
            . have hout : ¬AllInside ((t.storeFile i 0 b.val).accesses i (t.fsize i) 1) := by
                refine not_allInside (j := 0) (by decide) (Or.inl ?_)
                rw [FsState.fdata_storeFile]
                exact hfree hempty
              refine ⟨⟨fun hall => absurd hall.1.2 hout, fun hmeets => ?_⟩, fun hall => absurd hall.1.2 hout⟩
              exact absurd ⟨bs', b, c', rfl, rfl, Or.inl hempty⟩ hmeets
            . have hnul : AllInside ((t.storeFile i 0 b.val).accesses i (t.fsize i) 1) := by
                obtain ⟨p, hp⟩ := Option.ne_none_iff_exists'.mp (hgot hempty hrc)
                have hfirst := (hblocks.storeFile i 0 b.val (by have := b.property; omega)).1
                refine hfirst.accesses_held (p := p) ?_ ?_
                . rw [FsState.fdata_storeFile]
                  exact hp
                . rewrite [FsState.fsize_storeFile]
                  omega
              refine ⟨⟨?_, ?_⟩, fun hall => hnext.2 hall.2⟩
              . rintro hall ⟨bs₁, b₁, c₁, hbs, hgiven, hmeets⟩
                obtain ⟨rfl⟩ := Option.some.inj hbs
                obtain ⟨_, rfl⟩ := Prod.mk.inj hgiven
                exact (hnext.1.mp hall.2) (hmeets.resolve_left hempty)
              . intro hmeets
                refine ⟨⟨hbefore, hnul⟩, hnext.1.mpr ?_⟩
                exact fun hrest => hmeets ⟨bs', b, c', rfl, rfl, Or.inr hrest⟩

theorem owners {n : Nat} {put : FsState → Fin n → Int32 → FsState}
    {putMode : FsState → Fin n → UInt16 → FsState} {is : List (Fin n)}
    (hput : ∀ s i owner, AccessInv s → AccessInv (put s i owner))
    (hmode : ∀ s i mode, AccessInv s → AccessInv (putMode s i mode)) (c : σ) (h : AccessInv s)
    : AccessInv (fillOwners fill put putMode is c s).2.2 := by
  induction is generalizing c s with
  | nil => exact h
  | cons i is ih =>
    unfold fillOwners
    split
    . exact h
    . split
      . exact hput _ _ _ h
      . exact ih _ (hmode _ _ _ (hput _ _ _ h))

theorem ownerTables (c : σ) (h : AccessInv s) : AccessInv (fillOwnerTables fill c s).2 := by
  have hdefault : AccessInv (defaultOwners s) := h.congr rfl rfl rfl rfl
  have hdirs := @owners σ fill (defaultOwners s) maxD putDowner putDmode (List.finRange maxD)
    (fun _ _ _ h => h.congr rfl rfl rfl rfl) (fun _ _ _ h => h.congr rfl rfl rfl rfl) c hdefault
  unfold fillOwnerTables
  generalize fillOwners fill putDowner putDmode (List.finRange maxD) c (defaultOwners s) = r at *
  obtain ⟨ok | ok, c, t⟩ := r
  . exact hdirs
  . exact @owners σ fill t maxF putFowner putFmode (List.finRange maxF)
      (fun _ _ _ h => h.congr rfl rfl rfl rfl) (fun _ _ _ h => h.congr rfl rfl rfl rfl) c hdirs

end AccessInv

structure Emptied (pool : UInt32) (s : FsState) : Prop where
  inv : AccessInv s
  blocks : DataInv s (freshBlocks pool)
  none : ∀ i, s.fdata i = none

namespace Emptied

variable {σ : Type} {fill : Fill σ} {pool : UInt32} {s t : FsState}

theorem congr (h : Emptied pool s) (hbytes : t.fpoolBytes = s.fpoolBytes) (hpool : t.fpool = s.fpool)
    (hdata : t.fdata = s.fdata) (hsize : t.fsize = s.fsize)
    : Emptied pool t := by
  refine ⟨h.inv.congr hbytes hpool hdata hsize, h.blocks.congr hbytes hpool hdata hsize, ?_⟩
  rw [hdata]
  exact h.none

theorem reset (h16 : 16 ∣ s.fpoolBytes.toNat) : Emptied s.fpoolBytes (resetData s) := by
  obtain ⟨hnone, hbytes, m, hfresh⟩ := resetData_spec s
  have hblocks : DataInv (resetData s) (freshBlocks s.fpoolBytes) := by
    rw [← hbytes] at h16 hfresh ⊢
    exact DataInv.init h16 hfresh hnone
  refine ⟨⟨by rwa [hbytes], ⟨_, hblocks⟩, ?_⟩, hblocks, hnone⟩
  intro i
  rw [resetData_fsize]
  decide

theorem fillDirs (c : σ) (h : Emptied pool s) : Emptied pool (fillDirs fill c s).2.2 := by
  unfold TanjaOS.fillDirs
  split
  . exact h
  . apply fillSlots_inv (R := Emptied pool)
    . intro s i b t _ h hput
      rw [← Option.some.inj hput]
      exact h.congr rfl rfl rfl rfl
    . exact h.congr rfl rfl rfl rfl

theorem fillSizes {is : List (Fin maxF)} (c : σ) (h : Emptied pool s)
    : Emptied pool (fillSlots fill 4 putFsize is c s).2.2 := by
  apply fillSlots_inv (R := Emptied pool) _ c h
  intro s i b t _ h hput
  unfold putFsize at hput
  split at hput
  . contradiction
  . next hmax =>
    rw [← Option.some.inj hput]
    exact ⟨h.inv.setSize (h.none i) (by omega), h.blocks.setSize (h.none i), h.none⟩

theorem fillFileTable (c : σ) (h : Emptied pool s) : Emptied pool (fillFileTable fill c s).2.2 := by
  unfold TanjaOS.fillFileTable
  split
  . exact h
  . next used c₁ _ =>
    have hread : Emptied pool (fillSlots fill 4 putFsize (List.finRange maxF) c₁
        { s with fused := fun i => used.val.getD i.val 0 }).2.2 :=
      fillSizes c₁ (h.congr rfl rfl rfl rfl)
    generalize fillSlots fill 4 putFsize (List.finRange maxF) c₁
      { s with fused := fun i => used.val.getD i.val 0 } = r at *
    obtain ⟨ok | ok, c, t⟩ := r
    . exact hread
    . apply fillSlots_inv (R := Emptied pool) _ c hread
      intro s i b t _ h hput
      rw [← Option.some.inj hput]
      exact h.congr rfl rfl rfl rfl

end Emptied

namespace AccessInv

variable {σ : Type} {fill : Fill σ} {s t : FsState}

theorem refused {pool : UInt32} {c : σ} (h : AccessInv t) (hnone : fileTables fill c = none)
    : (AllInside [] ↔ NoEmptyFile fill pool c) ∧ (AllInside [] → AccessInv t) := by
  refine ⟨⟨fun _ => ?_, fun _ => allInside_nil⟩, fun _ => h⟩
  unfold NoEmptyFile
  rw [hnone]
  intro used sizes c' heq
  contradiction

theorem load (c : σ) (h : AccessInv s)
    : (AllInside (fsDeserializeFillLog fill c s).2 ↔ NoEmptyFile fill s.fpoolBytes c)
        ∧ (AllInside (fsDeserializeFillLog fill c s).2 → AccessInv (fsDeserializeFillLog fill c s).1.2.2) := by
  have hreset := Emptied.reset h.aligned
  unfold fsDeserializeFillLog
  cases hhdr : fill c 8 with
  | mk hdr c₁ =>
    cases hdr with
    | none =>
      refine h.refused ?_
      unfold fileTables
      rw [requests_none hhdr]
      rfl
    | some hdr =>
      have hheader := requests_one hhdr
      dsimp only
      split
      . next hmagic =>
        refine h.refused (Option.eq_none_iff_forall_ne_some.mpr ?_)
        rintro ⟨used, sizes, c'⟩ htables
        obtain ⟨hdr', c₁', _, _, _, _, _, _, _, _, hread, ⟨hgood, _⟩, _⟩ := fileTables_eq_some.mp htables
        rw [hheader] at hread
        obtain ⟨rfl, _⟩ := Prod.mk.inj (Option.some.inj hread)
        exact hmagic (by simpa using hgood)
      . next hmagic =>
        split
        . next hversion =>
          refine h.refused (Option.eq_none_iff_forall_ne_some.mpr ?_)
          rintro ⟨used, sizes, c'⟩ htables
          obtain ⟨hdr', c₁', _, _, _, _, _, _, _, _, hread, ⟨_, hgood⟩, _⟩ := fileTables_eq_some.mp htables
          rw [hheader] at hread
          obtain ⟨rfl, _⟩ := Prod.mk.inj (Option.some.inj hread)
          exact hversion (by simpa using hgood)
        . next hversion =>
          have hdata := @Emptied.fillDirs σ fill _ _ c₁ hreset
          have hdirs := @fillDirs_requests σ fill c₁ (resetData s)
          generalize TanjaOS.fillDirs fill c₁ (resetData s) = r at *
          obtain ⟨ok | ok, c₂, s₂⟩ := r
          . refine hdata.inv.refused (Option.eq_none_iff_forall_ne_some.mpr ?_)
            obtain ⟨hok, _⟩ | ⟨_, hbad⟩ := hdirs
            . contradiction
            . rintro ⟨used, sizes, c'⟩ htables
              obtain ⟨hdr', c₁', dused, c₂', dnames, _, _, _, _, _, hread, _, hdused, hdnames, _⟩ :=
                fileTables_eq_some.mp htables
              rw [hheader] at hread
              obtain ⟨_, rfl⟩ := Prod.mk.inj (Option.some.inj hread)
              rw [hbad dused c₂' hdused] at hdnames
              contradiction
          . obtain ⟨_, dused, dnames, c₁', hdused, hdnames⟩ | ⟨hno, _⟩ := hdirs
            case inr => contradiction
            have hdata := @Emptied.fillFileTable σ fill _ _ c₂ hdata
            have htable := @fillFileTable_requests σ fill c₂ s₂
            dsimp only at hdnames hdata htable ⊢
            generalize TanjaOS.fillFileTable fill c₂ s₂ = r at *
            obtain ⟨ok | ok, c₃, s₃⟩ := r
            . refine hdata.inv.refused (Option.eq_none_iff_forall_ne_some.mpr ?_)
              obtain ⟨hok, _⟩ | ⟨_, hbad⟩ := htable
              . contradiction
              . rintro ⟨used, sizes, c'⟩ htables
                obtain ⟨hdr', a₁, dused', a₂, dnames', a₃, fused, a₄, a₅, fnames, hread, _, hdused', hdnames',
                  hfused, hsizes, hgood, hfnames, _⟩ := fileTables_eq_some.mp htables
                rw [hheader] at hread
                obtain ⟨_, rfl⟩ := Prod.mk.inj (Option.some.inj hread)
                rw [hdused] at hdused'
                obtain ⟨_, rfl⟩ := Prod.mk.inj (Option.some.inj hdused')
                rw [hdnames] at hdnames'
                obtain ⟨_, rfl⟩ := Prod.mk.inj (Option.some.inj hdnames')
                rw [hbad fused sizes a₄ a₅ hfused hsizes hgood] at hfnames
                contradiction
            . obtain ⟨_, fused, sizes, fnames, a₄, a₅, hfused, hsizes, hgood, hfnames, hread⟩ | ⟨hno, _⟩ := htable
              case inr => contradiction
              dsimp only at hfnames hread
              have htables : fileTables fill c = some (fused.flatten, sizes, c₃) := by
                refine fileTables_eq_some.mpr ⟨[hdr.val], c₁, dused, c₁', dnames, c₂, fused, a₄, a₅, fnames,
                  hheader, ?_, hdused, hdnames, hfused, hsizes, hgood, hfnames, rfl⟩
                simp only [List.flatten_cons, List.flatten_nil, List.append_nil]
                exact ⟨not_not.mp hmagic, not_not.mp hversion⟩
              have hclear : NoEmptyFile fill s.fpoolBytes c
                  ↔ ¬MeetsEmpty fill (usedSizes fused.flatten sizes) c₃ (freshBlocks s.fpoolBytes) := by
                unfold NoEmptyFile
                rw [htables]
                constructor
                . exact fun hall => hall _ _ _ rfl
                . rintro hmeets used' sizes' c' heq
                  obtain ⟨rfl, hrest⟩ := Prod.mk.inj (Option.some.inj heq)
                  obtain ⟨rfl, rfl⟩ := Prod.mk.inj hrest
                  exact hmeets
              have hused : usedSizes fused.flatten sizes
                  = ((List.finRange maxF).filter (fun i => s₃.fused i ≠ 0)).map s₃.fsize := by
                have hsize : s₃.fsize = fun i => ofLe32 (sizes.getD i.val []) := funext fun i => (hread i).2
                unfold usedSizes
                simp only [hsize, (hread _).1]
              have hfiles := hdata.inv.fillFiles_iff fill (List.nodup_finRange maxF) c₃ hdata.blocks
                (fun i _ => hdata.none i)
              rw [← hused, ← hclear] at hfiles
              dsimp only
              generalize fillFilesLog fill (List.finRange maxF) c₃ s₃ = r at *
              obtain ⟨⟨ok | ok, c₄, s₄⟩, log⟩ := r
              . exact hfiles
              . dsimp only at hfiles ⊢
                split
                . exact hfiles
                . exact ⟨hfiles.1, fun hall => ownerTables _ ((hfiles.2 hall).congr rfl rfl rfl rfl)⟩

end AccessInv

def FsOp.Clear (op : FsOp) (s : FsState) : Prop :=
  match op with
  | .writeFile path data => ¬Cleared s path data
  | .appendFile path data => ¬SizeWraps s path data
  | .writeAt path offset data => ¬EndWraps s path offset.toNat data
  | _ => True

inductive ClearStep (s : FsState) : FsState → Prop where
  | call (c : FsCall) (s' : FsState) (hclear : c.op.Clear { s with fsCurUid := c.uid })
      (hcall : c.Step s s') : ClearStep s s'
  | load {σ : Type} (fill : Fill σ) (c : σ) (hclear : NoEmptyFile fill s.fpoolBytes c)
      : ClearStep s (fsDeserializeFill fill c s).2.2

abbrev ClearRun : FsState → FsState → Prop :=
  Relation.ReflTransGen ClearStep

/--
Which calls of the current user stay inside the files' blocks, and which loads.
-/
structure AccessesInside (s : FsState) : Prop where
  write : ∀ (path : CStr) (data : Data),
    AllInside (fsWriteFileLog s path data).2 ↔ ¬Cleared s path data
  append : ∀ (path : CStr) (data : Data),
    AllInside (fsAppendFileLog s path data).2 ↔ ¬SizeWraps s path data
  writeAt : ∀ (path : CStr) (offset : UInt32) (data : Data),
    AllInside (fsWriteAtLog s path offset.toNat data).2 ↔ ¬EndWraps s path offset.toNat data
  load : ∀ {σ : Type} (fill : Fill σ) (c : σ),
    AllInside (fsDeserializeFillLog fill c s).2 ↔ NoEmptyFile fill s.fpoolBytes c

structure NeverOutside (s : FsState) : Prop where
  write : ∀ (path : CStr) (data : Data), AllInside (fsWriteFileLog s path data).2
  append : ∀ (path : CStr) (data : Data), AllInside (fsAppendFileLog s path data).2
  writeAt : ∀ (path : CStr) (offset : UInt32) (data : Data),
    AllInside (fsWriteAtLog s path offset.toNat data).2
  load : ∀ {σ : Type} (fill : Fill σ) (c : σ), AllInside (fsDeserializeFillLog fill c s).2

section Runs

variable {s : FsState} {bs : List Block}

theorem DataInv.append_keeps {i : Fin maxF} {data : Bytes} {oldsz : Nat} (h : DataInv s bs)
    (hclear : 2 ^ 32 ≤ oldsz + data.length → NoRoom s ((oldsz + data.length) % 2 ^ 32))
    : ∃ bs', DataInv (fsAppendFile.append data s i oldsz).2 bs' := by
  by_cases hrc : (fsAppendFile.append data s i oldsz).1 = 0
  case neg =>
    rw [h.append_failed hrc]
    exact ⟨bs, h⟩
  unfold fsAppendFile.append at hrc ⊢
  dsimp only at hrc ⊢
  split
  . exact ⟨bs, h⟩
  . next hmax =>
    rw [if_neg hmax] at hrc
    obtain ⟨⟨bs', hinv⟩, _⟩ := h.resize i ((oldsz + data.length) % 2 ^ 32)
    split
    . exact ⟨bs', hinv⟩
    . next hres =>
      have hroom := hres
      rw [fdataResize_ne_zero_iff] at hroom
      have hsum : (oldsz + data.length) % 2 ^ 32 = oldsz + data.length := by
        apply Nat.mod_eq_of_lt
        by_contra hwrap
        exact hroom (hclear (by omega))
      have hsize := FsState.fsize_fdataResize (not_not.mp hres)
      rw [hsum] at hsize hinv ⊢
      obtain ⟨hinv, _, _⟩ := hinv.storeFile i oldsz data (by omega)
      obtain ⟨hinv, _, _⟩ := hinv.storeFile i (oldsz + data.length) [0]
        (by rw [FsState.fsize_storeFile]; simp; omega)
      exact ⟨bs', hinv⟩

theorem DataInv.fsAppendFile_keeps {path : CStr} {data : Data} (h : DataInv s bs)
    (hclear : ¬SizeWraps s path data)
    : ∃ bs', DataInv (fsAppendFile s path data).2 bs' := by
  have herr : ∀ e, DataInv { s with fsErrno := e } bs := fun _ => ⟨h.pool, h.held, h.distinct⟩
  unfold fsAppendFile
  dsimp only
  split
  . exact ⟨bs, herr 0⟩
  . next hargs =>
    rw [not_or] at hargs
    cases hidx : fileIndex s (absPath s.cwd.str path) with
    | some i =>
      have hidx' : fileIndex { s with fsErrno := 0 } (absPath s.cwd.str path) = some i := hidx
      rw [hidx']
      dsimp only
      split
      . next hperm =>
        apply (herr 0).append_keeps
        intro hwrap
        by_contra hroom
        exact hclear ⟨hargs.1, i, hidx, hperm, hwrap, hroom⟩
      . exact ⟨bs, herr 13⟩
    | none =>
      have hidx' : fileIndex { s with fsErrno := 0 } (absPath s.cwd.str path) = none := hidx
      have hmade : fsCreateFile { s with fsErrno := 0 } path = fsCreateFile s path := rfl
      obtain ⟨bs', hinv⟩ := h.created path
      rw [hidx', hmade]
      dsimp only
      split
      . exact ⟨bs', hinv⟩
      . split
        . exact ⟨bs', hinv⟩
        . apply hinv.append_keeps
          intro hwrap
          have := data.property
          omega

theorem DataInv.fsWriteAt_keeps {path : CStr} {offset : Nat} {data : Data} (h : DataInv s bs)
    (hclear : ¬EndWraps s path offset data)
    : ∃ bs', DataInv (fsWriteAt s path offset data).2 bs' := by
  unfold fsWriteAt
  dsimp only
  split
  . exact ⟨bs, h⟩
  . next hne =>
    split
    . exact ⟨bs, h⟩
    . next i hidx =>
      split
      . exact ⟨bs, h⟩
      . next hdata =>
        split
        . exact ⟨bs, h⟩
        . next hfit =>
          have hsum : ¬2 ^ 32 ≤ offset + data.val.length := by
            intro hwrap
            have hnil : data.val ≠ [] := fun hnil => hne (by rw [hnil]; rfl)
            exact hclear ⟨hnil, i, hidx, hdata, hwrap, by omega⟩
          exact ⟨bs, (h.storeFile i offset data (by omega)).1⟩

theorem AccessInv.call {c : FsCall} {s' : FsState} (h : AccessInv s)
    (hclear : c.op.Clear { s with fsCurUid := c.uid }) (hcall : c.Step s s')
    : AccessInv s' := by
  obtain ⟨bs, hinv⟩ := h.blocks
  have hprims := FsCall.prims_any hcall
  refine ⟨?_, ?_, hprims.fsize_lt h.sizes⟩
  . rw [hprims.fpoolBytes_eq]
    exact h.aligned
  . obtain ⟨uid, op⟩ := c
    have hinv' := hinv.setUid uid
    cases op with
    | appendFile path data =>
      obtain ⟨_, _, hexec⟩ := hcall
      obtain ⟨bs', hkept⟩ := hinv'.fsAppendFile_keeps hclear
      have hres : (fsAppendFile { s with fsCurUid := uid } path data).2 = s' :=
        congrArg Prod.snd (Option.some.inj hexec)
      rw [← hres]
      exact ⟨bs', hkept⟩
    | writeAt path offset data =>
      obtain ⟨_, _, hexec⟩ := hcall
      obtain ⟨bs', hkept⟩ := hinv'.fsWriteAt_keeps hclear
      have hres : (fsWriteAt { s with fsCurUid := uid } path offset.toNat data).2 = s' :=
        congrArg Prod.snd (Option.some.inj hexec)
      rw [← hres]
      exact ⟨bs', hkept⟩
    | _ => exact hinv.call (by exact trivial) hcall

theorem AccessInv.step {s' : FsState} (h : AccessInv s) (hstep : ClearStep s s') : AccessInv s' := by
  cases hstep with
  | call c _ hclear hcall => exact h.call hclear hcall
  | load fill c hclear =>
    have hload := (h.load c).2 ((h.load c).1.mpr hclear)
    rwa [fsDeserializeFillLog_fst] at hload

theorem AccessInv.init {s₀ : FsState} (h16 : 16 ∣ s₀.fpoolBytes.toNat) : AccessInv (fsInit s₀) :=
  ⟨h16, DataInv.init_run h16, fun i => (SizeOk.init s₀ i).1⟩

theorem AccessInv.run {s₀ : FsState} (h16 : 16 ∣ s₀.fpoolBytes.toNat) (hrun : ClearRun (fsInit s₀) s)
    : AccessInv s := by
  induction hrun with
  | refl => exact AccessInv.init h16
  | tail _ hstep ih => exact ih.step hstep

end Runs

/--
After any run without the three mistakes, only these mistakes reach outside.
-/
theorem accesses_inside (s₀ s : FsState) (bytes : UInt32) (uid : Int32)
    (hpool : s₀.fpoolBytes = fsSetPool bytes) (hrun : ClearRun (fsInit s₀) s)
    : AccessesInside { s with fsCurUid := uid } := by
  have h16 : 16 ∣ s₀.fpoolBytes.toNat := by
    rw [hpool]
    exact fsSetPool_dvd bytes
  have hinv : AccessInv { s with fsCurUid := uid } := (AccessInv.run h16 hrun).congr rfl rfl rfl rfl
  obtain ⟨bs, hblocks⟩ := hinv.blocks
  refine ⟨?_, ?_, ?_, ?_⟩
  . intro path data
    exact hblocks.fsWriteFile_inside_iff
  . intro path data
    exact hblocks.fsAppendFile_inside_iff data hinv.sizes
  . intro path offset data
    exact hblocks.fsWriteAt_inside_iff data hinv.sizes offset.toNat_lt
  . intro σ fill c
    exact (hinv.load c).1

section Example

/-!
Writes to `/a` and `/c`, with something and with nothing.
-/

def noBytes : Data :=
  ⟨[], by decide⟩

theorem noted_clear : ClearRun (fsInit (.zeroed 64)) noted := by
  have hwrite : FsCall.Step ⟨0, .writeFile notePath noteByte⟩ (fsInit (.zeroed 64)) noted :=
    FsCall.step 0 rfl
  apply Relation.ReflTransGen.single
  refine ClearStep.call ⟨0, .writeFile notePath noteByte⟩ noted ?_ hwrite
  rintro ⟨hnil, _⟩
  contradiction

end Example

theorem accesses_inside_noted
    : AllInside (fsWriteFileLog { noted with fsCurUid := 0 } copyPath copyByte).2
      ∧ ¬AllInside (fsWriteFileLog { noted with fsCurUid := 0 } notePath noBytes).2 := by
  have h := accesses_inside (.zeroed 64) noted 64 0 (by decide) noted_clear
  constructor
  . rw [h.write]
    rintro ⟨hnil, _⟩
    contradiction
  . rw [h.write, not_not]
    refine ⟨rfl, Or.inl ⟨firstSlot, ?_, ?_⟩⟩
    . decide +kernel
    . decide +kernel

/--
Already the first call can do it: a new file without bytes.
-/
theorem accesses_outside
    : ¬∀ s₀ s bytes uid, s₀.fpoolBytes = fsSetPool bytes → AnyRun (fsInit s₀) s →
        NeverOutside { s with fsCurUid := uid } := by
  intro h
  have hinside := (h (.zeroed 64) (fsInit (.zeroed 64)) 64 0 (by decide) .refl).write notePath noBytes
  have hstart : AccessInv (fsInit (.zeroed 64)) := AccessInv.init (by decide)
  obtain ⟨bs, hblocks⟩ := hstart.blocks
  have hnone : fileIndex { fsInit (.zeroed 64) with fsCurUid := 0 }
      (absPath (fsInit (.zeroed 64)).cwd.str notePath) = none := by decide +kernel
  rw [(hblocks.setUid 0).fsWriteFile_inside_iff] at hinside
  apply hinside
  refine ⟨rfl, Or.inr ?_⟩
  have hcan := fsCreateFile_eq_zero_iff hnone
  rw [← hcan]
  decide +kernel

end TanjaOS
