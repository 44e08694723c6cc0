import TanjaOS.Fs.Data
import TanjaOS.Fs.Image.Impl

/-!
Reading back a saved image. Up to the files' contents every section has a fixed size, so that the
decoder follows the encoder, the only question is whether the contents fit into the pool.
-/

open Lib
open Lib.Tiling

namespace TanjaOS

theorem ofLe16_le16 (v : UInt16) : ofLe16 (le16 v) = v := by
  have hlt := v.toNat_lt
  unfold ofLe16 le16
  simp only [List.getD_cons_zero, List.getD_cons_succ]
  apply UInt16.toNat_inj.mp
  simp only [UInt16.toNat_or, UInt8.toNat_toUInt16, UInt16.toNat_toUInt8, UInt16.toNat_shiftLeft,
    UInt16.toNat_shiftRight, UInt16.reduceToNat, Nat.reducePow, Nat.reduceMod]
  rw [Nat.shiftRight_eq_div_pow, Nat.shiftLeft_eq]
  have hhigh : v.toNat / 2 ^ 8 % 256 * 2 ^ 8 % 65536 = 2 ^ 8 * (v.toNat / 2 ^ 8) := by omega
  rw [hhigh, Nat.or_comm, ← Nat.two_pow_add_eq_or_of_lt (by omega)]
  omega

@[simp]
theorem length_le16 (v : UInt16) : (le16 v).length = 2 := rfl

theorem ofLe32_le32_toInt32 (v : Int32) : (UInt32.ofNat (ofLe32 (le32 v.toUInt32.toNat))).toInt32 = v := by
  have := ofLe32_le32 v.toUInt32.toNat [] v.toUInt32.toNat_lt
  rw [List.append_nil] at this
  rw [this]
  simp

theorem fsBufFill_append {xs : Bytes} {len : Nat} (rest : Bytes) (h : xs.length = len)
    : fsBufFill (xs ++ rest) len = (some ⟨xs, h⟩, rest) := by
  unfold fsBufFill
  rw [dif_neg (by simp; omega)]
  subst h
  simp

section Slots

variable {n len : Nat} (put : FsState → Fin n → { b : Bytes // b.length = len } → Option FsState)
  {upd : FsState → Fin n → FsState} (enc : Fin n → { b : Bytes // b.length = len })

theorem fillSlots_eq (hput : ∀ s i, put s i (enc i) = some (upd s i)) (is : List (Fin n))
    (rest : Bytes) (s : FsState)
    : fillSlots fsBufFill len put is ((is.map (fun i => (enc i).val)).flatten ++ rest) s
        = (true, rest, is.foldl upd s) := by
  induction is generalizing s with
  | nil => rfl
  | cons i is ih =>
    rw [List.map_cons, List.flatten_cons, List.append_assoc]
    unfold fillSlots
    rw [fsBufFill_append _ (enc i).property]
    dsimp only
    rw [hput]
    dsimp only
    rw [ih]
    rfl

end Slots

theorem foldl_set {σ α : Type} {n : Nat} (get : σ → Fin n → α) (set : σ → (Fin n → α) → σ)
    (hget : ∀ s f, get (set s f) = f) (hset : ∀ s f f', set (set s f) f' = set s f')
    (hid : ∀ s, set s (get s) = s) (g : Fin n → α) (s : σ)
    : (List.finRange n).foldl (fun s i => set s (Function.update (get s) i (g i))) s = set s g := by
  have hlist : ∀ (is : List (Fin n)) (s : σ),
      is.foldl (fun s i => set s (Function.update (get s) i (g i))) s
        = set s (fun i => if i ∈ is then g i else get s i) := by
    intro is
    induction is with
    | nil =>
      intro s
      simpa using (hid s).symm
    | cons j is ih =>
      intro s
      rw [List.foldl_cons, ih, hset, hget]
      congr 1
      funext i
      by_cases hij : i = j
      . simp [hij]
      . simp [hij]
  rw [hlist]
  simp

section Tables

variable (s t : FsState)

def usedBytes {n : Nat} (used : Fin n → UInt8) : Bytes :=
  (List.finRange n).map used

theorem getD_usedBytes {n : Nat} (used : Fin n → UInt8) (i : Fin n)
    : (usedBytes used).getD i.val 0 = used i := by
  simp [usedBytes]

@[simp]
theorem length_usedBytes {n : Nat} (used : Fin n → UInt8) : (usedBytes used).length = n := by
  simp [usedBytes]

def nameBytes {n : Nat} (name : Fin n → Buf fsPathCap) : Bytes :=
  ((List.finRange n).map (fun i => (name i).bytes)).flatten

def sizeBytes : Bytes :=
  ((List.finRange maxF).map (fun i => le32 (s.fsize i))).flatten

theorem fillDirs_eq (rest : Bytes)
    : fillDirs fsBufFill (usedBytes s.dused ++ (nameBytes s.dname ++ rest)) t
        = (true, rest, { t with dused := s.dused, dname := s.dname }) := by
  unfold fillDirs
  rw [fsBufFill_append _ (length_usedBytes s.dused)]
  dsimp only
  have hnames := fillSlots_eq putDname (fun i => ⟨(s.dname i).bytes, (s.dname i).size⟩)
    (fun _ _ => rfl) (List.finRange maxD) rest { t with dused := s.dused }
  rw [foldl_set FsState.dname (fun t f => { t with dname := f }) (fun _ _ => rfl)
    (fun _ _ _ => rfl) (fun _ => rfl) s.dname] at hnames
  simp only [getD_usedBytes]
  exact hnames

theorem fillFileTable_eq (hsize : ∀ i, s.fsize i < maxFileData) (rest : Bytes)
    : fillFileTable fsBufFill (usedBytes s.fused ++ (sizeBytes s ++ (nameBytes s.fname ++ rest))) t
        = (true, rest, { t with fused := s.fused, fsize := s.fsize, fname := s.fname }) := by
  unfold fillFileTable
  rw [fsBufFill_append _ (length_usedBytes s.fused)]
  dsimp only
  simp only [getD_usedBytes]
  have hput : ∀ (t : FsState) i, putFsize t i ⟨le32 (s.fsize i), rfl⟩
      = some { t with fsize := Function.update t.fsize i (s.fsize i) } := by
    intro t i
    have hlt := hsize i
    have hval : ofLe32 (le32 (s.fsize i)) = s.fsize i := by
      simpa using ofLe32_le32 (s.fsize i) [] (by unfold maxFileData at hlt; omega)
    unfold putFsize
    rw [hval, if_neg (by omega)]
  have hsizes := fillSlots_eq putFsize (fun i => ⟨le32 (s.fsize i), rfl⟩) hput
    (List.finRange maxF) (nameBytes s.fname ++ rest) { t with fused := s.fused }
  rw [foldl_set FsState.fsize (fun t f => { t with fsize := f }) (fun _ _ => rfl)
    (fun _ _ _ => rfl) (fun _ => rfl) s.fsize] at hsizes
  unfold sizeBytes
  rw [hsizes]
  dsimp only
  have hnames := fillSlots_eq putFname (fun i => ⟨(s.fname i).bytes, (s.fname i).size⟩)
    (fun _ _ => rfl) (List.finRange maxF) rest { t with fused := s.fused, fsize := s.fsize }
  rw [foldl_set FsState.fname (fun t f => { t with fname := f }) (fun _ _ => rfl)
    (fun _ _ _ => rfl) (fun _ => rfl) s.fname] at hnames
  exact hnames

def ownerBytes {n : Nat} (owner : Fin n → Int32) (mode : Fin n → UInt16) (is : List (Fin n)) : Bytes :=
  (is.map (fun i => le32 (owner i).toUInt32.toNat ++ le16 (mode i))).flatten

theorem fillOwners_eq {n : Nat} (put : FsState → Fin n → Int32 → FsState)
    (putMode : FsState → Fin n → UInt16 → FsState) (owner : Fin n → Int32) (mode : Fin n → UInt16)
    (is : List (Fin n)) (rest : Bytes)
    : fillOwners fsBufFill put putMode is (ownerBytes owner mode is ++ rest) t
        = (true, rest, is.foldl (fun t i => putMode (put t i (owner i)) i (mode i)) t) := by
  induction is generalizing t with
  | nil => rfl
  | cons i is ih =>
    have hbytes : ownerBytes owner mode (i :: is) ++ rest
        = le32 (owner i).toUInt32.toNat ++ (le16 (mode i) ++ (ownerBytes owner mode is ++ rest)) := by
      simp [ownerBytes]
    rw [hbytes]
    unfold fillOwners
    rw [fsBufFill_append _ (length_le32 _)]
    dsimp only
    rw [fsBufFill_append _ (length_le16 _)]
    dsimp only
    rw [ofLe32_le32_toInt32, ofLe16_le16, ih]
    rfl

theorem update_pair {n : Nat} {α β : Type} (f : Fin n → α) (g : Fin n → β) (i : Fin n) (a : α) (b : β)
    : (fun j => (Function.update (fun j => (f j, g j)) i (a, b) j).1) = Function.update f i a
        ∧ (fun j => (Function.update (fun j => (f j, g j)) i (a, b) j).2) = Function.update g i b := by
  refine ⟨?_, ?_⟩
  . funext j
    by_cases hij : j = i
    . simp [hij]
    . simp [hij]
  . funext j
    by_cases hij : j = i
    . simp [hij]
    . simp [hij]

theorem foldl_putDowner
    : (List.finRange maxD).foldl (fun t i => putDmode (putDowner t i (s.downer i)) i (s.dmode i)) t
        = { t with downer := s.downer, dmode := s.dmode } := by
  have h := foldl_set (fun t i => (t.downer i, t.dmode i))
    (fun t f => { t with downer := fun i => (f i).1, dmode := fun i => (f i).2 }) (fun _ _ => rfl)
    (fun _ _ _ => rfl) (fun _ => rfl) (fun i => (s.downer i, s.dmode i)) t
  simp only [update_pair] at h
  exact h

theorem foldl_putFowner
    : (List.finRange maxF).foldl (fun t i => putFmode (putFowner t i (s.fowner i)) i (s.fmode i)) t
        = { t with fowner := s.fowner, fmode := s.fmode } := by
  have h := foldl_set (fun t i => (t.fowner i, t.fmode i))
    (fun t f => { t with fowner := fun i => (f i).1, fmode := fun i => (f i).2 }) (fun _ _ => rfl)
    (fun _ _ _ => rfl) (fun _ => rfl) (fun i => (s.fowner i, s.fmode i)) t
  simp only [update_pair] at h
  exact h

theorem fillOwnerTables_eq (rest : Bytes)
    : fillOwnerTables fsBufFill (ownerBytes s.downer s.dmode (List.finRange maxD)
          ++ (ownerBytes s.fowner s.fmode (List.finRange maxF) ++ rest)) t
        = (rest, { t with
            downer := s.downer
            dmode := s.dmode
            fowner := s.fowner
            fmode := s.fmode }) := by
  unfold fillOwnerTables
  rw [fillOwners_eq]
  dsimp only
  rw [fillOwners_eq, foldl_putDowner, foldl_putFowner]
  rfl

end Tables

section Files

variable {s t : FsState}

def hasContent (s : FsState) (i : Fin maxF) : Bool :=
  s.fused i ≠ 0 ∧ 0 < s.fsize i

/--
The block sizes that loading the slots `is` asks for.
-/
def wanted (s : FsState) (is : List (Fin maxF)) : List Nat :=
  (is.filter (hasContent s)).map (fun i => DataInv.need (s.fsize i))

def contentBytes (s : FsState) (is : List (Fin maxF)) : Bytes :=
  ((is.filter (hasContent s)).map s.fileBytes).flatten

/--
What a load leaves in slot `i`.
-/
structure Loaded (s t : FsState) (i : Fin maxF) : Prop where
  fsize : t.fsize i = if s.fused i = 0 then 0 else s.fsize i
  bytes : s.fused i ≠ 0 → t.fileBytes i = s.fileBytes i

theorem Loaded.congr {t' : FsState} {i : Fin maxF} (h : Loaded s t i) (hsame : SameFile t t' i)
    : Loaded s t' i where
  fsize := by rw [hsame.fsize, h.fsize]
  bytes := by rw [hsame.bytes]; exact h.bytes

/--
A state on the way: the tables have been read, the contents of `is` have not.
-/
structure Loading (s t : FsState) (is : List (Fin maxF)) (bs : List Block) : Prop where
  data : DataInv t bs
  fused : t.fused = s.fused
  todo : ∀ i ∈ is, t.fdata i = none ∧ t.fsize i = s.fsize i

theorem Loading.next {t' : FsState} {i : Fin maxF} {is : List (Fin maxF)} {bs bs' : List Block}
    (h : Loading s t (i :: is) bs) (hi : i ∉ is) (hdata : DataInv t' bs') (hframe : t'.frame = t.frame)
    (hsame : ∀ j, j ≠ i → SameFile t t' j)
    : Loading s t' is bs' := by
  refine ⟨hdata, ?_, ?_⟩
  . have hfused := congrArg FsState.fused hframe
    rw [← h.fused]
    exact hfused
  . intro j hj
    have hij : j ≠ i := by
      rintro rfl
      contradiction
    rw [(hsame j hij).fdata, (hsame j hij).fsize]
    exact h.todo j (by simp [hj])

theorem Loading.file {i : Fin maxF} {is : List (Fin maxF)} {bs bs' : List Block} {o : Nat}
    (h : Loading s t (i :: is) bs) (hok : SizeOk s) (hused : s.fused i ≠ 0) (hpos : 0 < s.fsize i)
    (hfit : firstFit 8 16 (DataInv.need (s.fsize i)) bs = some (o, bs'))
    : ∃ t', (fdataResize t i (t.fsize i)).1 = 0
        ∧ (fdataResize t i (t.fsize i)).2.fsize i = s.fsize i
        ∧ ((fdataResize t i (t.fsize i)).2.storeFile i 0 (s.fileBytes i)).storeFile i
            (s.fsize i) [0] = t'
        ∧ DataInv t' bs' ∧ t'.frame = t.frame ∧ (∀ j, j ≠ i → SameFile t t' j) ∧ Loaded s t' i := by
  obtain ⟨hnone, hsize⟩ := h.todo i (by simp)
  rw [hsize]
  obtain ⟨hrc, hptr, ⟨bs'', hdata, hbs⟩, hother⟩ :=
    h.data.resize_fits (i := i) (by omega) (hok i).1 hfit
  rw [hbs hnone] at hdata
  have hframe := FsState.frame_fdataResize (s := t) i (s.fsize i)
  have hnew := FsState.fsize_fdataResize hrc
  generalize (fdataResize t i (s.fsize i)).2 = t₁ at *
  have hlen : (s.fileBytes i).length = s.fsize i := DataInv.length_fileBytes (hok i).2
  obtain ⟨hdata₂, hother₂, _⟩ := hdata.storeFile i 0 (s.fileBytes i) (by omega)
  have hbytes₂ := hdata.fileBytes_storeFile (by simp [hptr]) (hlen.trans hnew.symm)
  have hnew₂ : (t₁.storeFile i 0 (s.fileBytes i)).fsize i = s.fsize i := by
    rw [FsState.fsize_storeFile, hnew]
  have hframe₂ := FsState.frame_storeFile (s := t₁) i 0 (s.fileBytes i)
  generalize t₁.storeFile i 0 (s.fileBytes i) = t₂ at *
  obtain ⟨hdata₃, hother₃, _⟩ := hdata₂.storeFile i (s.fsize i) [0] (by simp [hnew₂])
  refine ⟨_, hrc, hnew, rfl, hdata₃, ?_, ?_, ?_, ?_⟩
  . rw [FsState.frame_storeFile, hframe₂, hframe]
  . intro j hij
    exact ((hother j hij).trans (hother₂ j hij)).trans (hother₃ j hij)
  . rw [FsState.fsize_storeFile, hnew₂, if_neg hused]
  . intro _
    rw [← hnew₂, hdata₂.fileBytes_terminate, hbytes₂]

theorem Loading.skip {i : Fin maxF} {is : List (Fin maxF)} {bs : List Block}
    (h : Loading s t (i :: is) bs) (hused : s.fused i = 0)
    : DataInv { t with fsize := Function.update t.fsize i 0 } bs
        ∧ (∀ j, j ≠ i → SameFile t { t with fsize := Function.update t.fsize i 0 } j)
        ∧ Loaded s { t with fsize := Function.update t.fsize i 0 } i := by
  obtain ⟨hnone, _⟩ := h.todo i (by simp)
  refine ⟨h.data.of_keeps ?_ ?_, ?_, ?_⟩
  . exact h.data.pool
  . intro j p hp
    have hij : j ≠ i := by
      rintro rfl
      rw [hnone] at hp
      contradiction
    refine ⟨hp, ?_, fun _ hmem => hmem⟩
    simp [hij]
  . intro j hij
    apply SameFile.of_pool
    . rfl
    . simp [hij]
    . intro _ _ _ _ _
      rfl
  . refine ⟨by simp [hused], ?_⟩
    intro hne
    contradiction

theorem Loading.empty {i : Fin maxF} {is : List (Fin maxF)} {bs : List Block}
    (h : Loading s t (i :: is) bs) (hsize : s.fsize i = 0)
    : DataInv (t.freeData i) bs ∧ (∀ j, j ≠ i → SameFile t (t.freeData i) j)
        ∧ Loaded s (t.freeData i) i := by
  obtain ⟨hnone, _⟩ := h.todo i (by simp)
  obtain ⟨bs', hdata, _, hbs, hother⟩ := h.data.freeData i
  rw [hbs hnone] at hdata
  refine ⟨hdata, hother, ?_, ?_⟩
  . simp [FsState.freeData, hsize]
  . intro _
    have hbytes : s.fileBytes i = [] := by
      unfold FsState.fileBytes
      split
      . rfl
      . rw [hsize]
        rfl
    rw [hbytes]
    simp [FsState.fileBytes, FsState.freeData]

theorem Loading.fillFiles {is : List (Fin maxF)} {bs : List Block} (hok : SizeOk s)
    (h : Loading s t is bs) (hnodup : is.Nodup) (rest : Bytes)
    : match firstFits 8 16 (wanted s is) bs with
      | none => (fillFiles fsBufFill is (contentBytes s is ++ rest) t).1 = false
      | some _ => ∃ t', fillFiles fsBufFill is (contentBytes s is ++ rest) t = (true, rest, t')
          ∧ t'.frame = t.frame ∧ (∀ i ∈ is, Loaded s t' i) ∧ ∀ i, i ∉ is → SameFile t t' i := by
  induction is generalizing t bs with
  | nil => exact ⟨t, rfl, rfl, by simp, fun i _ => SameFile.refl t i⟩
  | cons i is ih =>
    rw [List.nodup_cons] at hnodup
    obtain ⟨hi, hnodup⟩ := hnodup
    -- one slot is done, the others follow
    have hnext : ∀ {t' : FsState} {bs' : List Block}, DataInv t' bs' → t'.frame = t.frame →
        (∀ j, j ≠ i → SameFile t t' j) → Loaded s t' i →
        match firstFits 8 16 (wanted s is) bs' with
        | none => (TanjaOS.fillFiles fsBufFill is (contentBytes s is ++ rest) t').1 = false
        | some _ => ∃ t'', TanjaOS.fillFiles fsBufFill is (contentBytes s is ++ rest) t'
              = (true, rest, t'')
            ∧ t''.frame = t.frame ∧ (∀ j ∈ i :: is, Loaded s t'' j)
            ∧ ∀ j, j ∉ i :: is → SameFile t t'' j := by
      intro t' bs' hdata hframe hsame hloaded
      have ih := ih (h.next hi hdata hframe hsame) hnodup
      split
      . next hnone => rwa [hnone] at ih
      . next hsome =>
        rw [hsome] at ih
        obtain ⟨t'', heq, hframe', hall, hrest⟩ := ih
        refine ⟨t'', heq, by rw [hframe', hframe], ?_, ?_⟩
        . intro j hj
          rw [List.mem_cons] at hj
          cases hj with
          | inl hj =>
            subst hj
            exact hloaded.congr (hrest j hi)
          | inr hj => exact hall j hj
        . intro j hj
          rw [List.mem_cons, not_or] at hj
          exact (hsame j hj.1).trans (hrest j hj.2)
    obtain ⟨hnone, hsize⟩ := h.todo i (by simp)
    rw [TanjaOS.fillFiles]
    by_cases hused : s.fused i = 0
    . have hskip : hasContent s i = false := by simp [hasContent, hused]
      have hwanted : wanted s (i :: is) = wanted s is := by simp [wanted, hskip]
      have hcontent : contentBytes s (i :: is) = contentBytes s is := by simp [contentBytes, hskip]
      rw [hwanted, hcontent, if_pos (by rw [h.fused, hused])]
      obtain ⟨hdata, hother, hloaded⟩ := h.skip hused
      exact hnext hdata rfl hother hloaded
    . rw [if_neg (by rw [h.fused]; exact hused)]
      by_cases hpos : 0 < s.fsize i
      . have htake : hasContent s i = true := by simp [hasContent, hused, hpos]
        have hwanted : wanted s (i :: is) = DataInv.need (s.fsize i) :: wanted s is := by
          simp [wanted, htake]
        have hcontent : contentBytes s (i :: is) ++ rest
            = s.fileBytes i ++ (contentBytes s is ++ rest) := by
          simp [contentBytes, htake]
        rw [hwanted, hcontent, firstFits]
        cases hfit : firstFit 8 16 (DataInv.need (s.fsize i)) bs with
        | none =>
          rw [hsize, h.data.resize_full (by omega) (hok i).1 hfit]
          rfl
        | some r =>
          obtain ⟨t', hrc, hnew, heq, hdata, hframe, hother, hloaded⟩ := h.file hok hused hpos hfit
          dsimp only
          rw [if_neg (by simp [hrc]),
            fsBufFill_append _ ((DataInv.length_fileBytes (hok i).2).trans hnew.symm)]
          dsimp only
          rw [FsState.fsize_storeFile, hnew, heq]
          exact hnext hdata hframe hother hloaded
      . have hzero : s.fsize i = 0 := by omega
        have hskip : hasContent s i = false := by simp [hasContent, hpos]
        have hwanted : wanted s (i :: is) = wanted s is := by simp [wanted, hskip]
        have hcontent : contentBytes s (i :: is) = contentBytes s is := by
          simp [contentBytes, hskip]
        have hresize : fdataResize t i (t.fsize i) = (0, t.freeData i) := by
          unfold fdataResize
          rw [hsize, hzero, if_neg (by omega), if_pos rfl]
        have hlen : ([] : Bytes).length = (t.freeData i).fsize i := by simp [FsState.freeData]
        have hstore : ∀ offset data, (t.freeData i).storeFile i offset data = t.freeData i := by
          intro offset data
          unfold FsState.storeFile
          simp [FsState.freeData]
        rw [hwanted, hcontent, hresize]
        dsimp only
        rw [if_neg (by simp), ← List.nil_append (contentBytes s is ++ rest),
          fsBufFill_append _ hlen]
        dsimp only
        rw [hstore, hstore]
        obtain ⟨hdata, hother, hloaded⟩ := h.empty hzero
        exact hnext hdata rfl hother hloaded

end Files

section Image

variable {s t : FsState}

def fsImage (s : FsState) : Bytes :=
  (fsPieces s).flatten

theorem fsSerializeSink_append (s : FsState) (buf : Bytes)
    : fsSerializeSink s (fun buf piece => buf ++ piece) buf = buf ++ fsImage s := by
  have : ∀ (pieces : List Bytes) (buf : Bytes),
      pieces.foldl (fun buf piece => buf ++ piece) buf = buf ++ pieces.flatten := by
    intro pieces
    induction pieces with
    | nil => simp
    | cons piece pieces ih =>
      intro buf
      rw [List.foldl_cons, ih]
      simp
  apply this

theorem fsImage_eq (s : FsState)
    : fsImage s = fsHeader ++ (usedBytes s.dused ++ (nameBytes s.dname ++ (usedBytes s.fused
        ++ (sizeBytes s ++ (nameBytes s.fname ++ (contentBytes s (List.finRange maxF)
        ++ (s.cwd.bytes ++ (ownerBytes s.downer s.dmode (List.finRange maxD)
        ++ ownerBytes s.fowner s.fmode (List.finRange maxF))))))))) := by
  have hused : ∀ {n : Nat} (used : Fin n → UInt8),
      ((List.finRange n).map (fun i => [used i])).flatten = usedBytes used := by
    intro n used
    rw [← List.flatMap_def, ← List.map_eq_flatMap]
    rfl
  have howner : ∀ {n : Nat} (owner : Fin n → Int32) (mode : Fin n → UInt16) (is : List (Fin n)),
      (is.flatMap (fun i => [le32 (owner i).toUInt32.toNat, le16 (mode i)])).flatten
        = ownerBytes owner mode is := by
    intro n owner mode is
    induction is with
    | nil => rfl
    | cons i is ih =>
      simp only [List.flatMap_cons, List.flatten_append, ih]
      simp [ownerBytes]
  unfold fsImage fsPieces
  simp only [List.flatten_append, List.append_assoc, hused, howner, List.flatten_singleton]
  rfl

theorem resetData_spec (t : FsState)
    : (∀ i, (resetData t).fdata i = none) ∧ (resetData t).fpoolBytes = t.fpoolBytes
        ∧ ∃ m, (resetData t).fpool = fpoolInit t.fpoolBytes m := by
  have hfold : ∀ (is : List (Fin maxF)) (t : FsState),
      (is.foldl FsState.freeData t).fpoolBytes = t.fpoolBytes
        ∧ ∀ i, i ∈ is ∨ t.fdata i = none → (is.foldl FsState.freeData t).fdata i = none := by
    intro is
    induction is with
    | nil =>
      intro t
      simp
    | cons j is ih =>
      intro t
      refine ⟨(ih (t.freeData j)).1, ?_⟩
      intro i hi
      apply (ih (t.freeData j)).2
      by_cases hij : i = j
      . right
        simp [FsState.freeData, hij]
      . simpa [FsState.freeData, hij] using hi
  obtain ⟨hbytes, hnone⟩ := hfold (List.finRange maxF) t
  refine ⟨?_, hbytes, ?_⟩
  . intro i
    apply hnone
    simp
  . unfold resetData
    dsimp only
    rw [hbytes]
    exact ⟨_, rfl⟩

/--
Files, directories and current directory of `t` are those of `s`.
-/
structure Restored (s t : FsState) : Prop where
  dused : t.dused = s.dused
  dname : t.dname = s.dname
  fused : t.fused = s.fused
  fname : t.fname = s.fname
  files : ∀ i, Loaded s t i
  cwd : t.cwd = s.cwd
  downer : t.downer = s.downer
  dmode : t.dmode = s.dmode
  fowner : t.fowner = s.fowner
  fmode : t.fmode = s.fmode

def tablesRead (s t : FsState) : FsState :=
  { resetData t with
    dused := s.dused
    dname := s.dname
    fused := s.fused
    fsize := s.fsize
    fname := s.fname }

theorem tablesRead_loading (h16 : 16 ∣ t.fpoolBytes.toNat)
    : Loading s (tablesRead s t) (List.finRange maxF) (freshBlocks t.fpoolBytes) := by
  obtain ⟨hnone, hbytes, m, hpool⟩ := resetData_spec t
  refine ⟨?_, rfl, ?_⟩
  . rw [← hbytes] at h16 hpool
    have hinit := DataInv.init (s := tablesRead s t) h16 hpool hnone
    rwa [show freshBlocks t.fpoolBytes = freshBlocks (tablesRead s t).fpoolBytes by
      rw [← hbytes]; rfl]
  . intro i _
    exact ⟨hnone i, rfl⟩

@[simp]
theorem length_fsHeader : fsHeader.length = 8 := rfl

theorem fsDeserializeFill_image (hok : SizeOk s) (h16 : 16 ∣ t.fpoolBytes.toNat) (rest : Bytes)
    : match firstFits 8 16 (wanted s (List.finRange maxF)) (freshBlocks t.fpoolBytes) with
      | none => (fsDeserializeFill fsBufFill (fsImage s ++ rest) t).1 = -1
      | some _ => ∃ t', fsDeserializeFill fsBufFill (fsImage s ++ rest) t = (0, rest, t')
          ∧ Restored s t' := by
  have hfiles := (tablesRead_loading (s := s) h16).fillFiles hok (List.nodup_finRange maxF)
    (s.cwd.bytes ++ (ownerBytes s.downer s.dmode (List.finRange maxD)
      ++ (ownerBytes s.fowner s.fmode (List.finRange maxF) ++ rest)))
  rw [fsImage_eq]
  simp only [List.append_assoc]
  unfold fsDeserializeFill
  rw [fsBufFill_append _ length_fsHeader]
  dsimp only
  rw [if_neg (by simp), if_neg (by simp [fsHeader]), fillDirs_eq]
  dsimp only
  rw [fillFileTable_eq s _ (fun i => (hok i).1)]
  dsimp only
  unfold tablesRead at hfiles
  split
  . next hnone =>
    rw [hnone] at hfiles
    dsimp only at hfiles
    split
    . rfl
    . next heq =>
      rw [heq] at hfiles
      contradiction
  . next hsome =>
    rw [hsome] at hfiles
    obtain ⟨t', heq, hframe, hall, _⟩ := hfiles
    rw [heq]
    dsimp only
    have hcwd : s.cwd.bytes.length = 256 := s.cwd.size
    rw [fsBufFill_append _ hcwd]
    dsimp only
    rw [fillOwnerTables_eq]
    refine ⟨_, rfl, ?_⟩
    have hdused := congrArg FsState.dused hframe
    have hdname := congrArg FsState.dname hframe
    have hfused := congrArg FsState.fused hframe
    have hfname := congrArg FsState.fname hframe
    exact ⟨hdused, hdname, hfused, hfname, fun i => ⟨(hall i (by simp)).fsize, (hall i (by simp)).bytes⟩,
      rfl, rfl, rfl, rfl, rfl⟩

/--
Blocks of sizes `ns` can be allocated one after the other in an empty pool of `pool` bytes: they and
their headers fit, and before the last one a free block is left, which is never smaller than 16
bytes.
-/
def Packs (pool : Nat) (ns : List Nat) : Prop :=
  (ns.map (8 + ·)).sum ≤ pool ∧ (ns.length ≤ 1 ∨ (ns.dropLast.map (8 + ·)).sum + 24 ≤ pool)

instance (pool : Nat) (ns : List Nat) : Decidable (Packs pool ns) :=
  inferInstanceAs (Decidable (_ ∧ _))

theorem firstFits_fresh {fpoolBytes : UInt32} (h16 : 16 ∣ fpoolBytes.toNat) (ns : List Nat)
    : (firstFits 8 16 ns (freshBlocks fpoolBytes)).isSome ↔ Packs fpoolBytes.toNat ns := by
  unfold freshBlocks Packs
  split
  . next hzero =>
    cases ns with
    | nil => simp [firstFits]
    | cons n ns =>
      rw [firstFits_eq_none_of_full (by simp)]
      simp [hzero]
  . have h := firstFits_isSome_iff 8 16 ns (fpoolBytes.toNat - 8) [] (by simp)
    rw [List.nil_append] at h
    rw [h]
    omega

end Image

end TanjaOS
