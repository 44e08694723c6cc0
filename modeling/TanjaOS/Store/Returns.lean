import TanjaOS.Store.Stream
import TanjaOS.Fs.Image.Lemmas

/-!
`store_autosave` comes back if enough of its transfers succeed, and only then: the loop of
`store_wr_sink` goes on with a full buffer until a flush succeeds.
-/

open Lib

namespace TanjaOS

section Length

variable (s : FsState)

theorem length_fileBytes_le (i : Fin maxF) : (s.fileBytes i).length ≤ s.fsize i := by
  unfold FsState.fileBytes
  split <;> simp

theorem length_flatten_finRange {n k : Nat} {f : Fin n → Bytes} (h : ∀ i, (f i).length = k)
    : ((List.finRange n).map f).flatten.length = n * k := by
  rw [List.length_flatten, List.map_map]
  have hconst : List.length ∘ f = fun _ => k := funext h
  rw [hconst]
  simp

theorem length_contentBytes_le (is : List (Fin maxF))
    : (contentBytes s is).length
        ≤ ((is.filter (fun i => s.fused i ≠ 0 ∧ 0 < s.fsize i)).map s.fsize).sum := by
  have hsame : hasContent s = fun i => decide (s.fused i ≠ 0 ∧ 0 < s.fsize i) := rfl
  unfold contentBytes
  rw [hsame]
  generalize is.filter _ = js
  induction js with
  | nil => exact Nat.le_refl 0
  | cons j js ih =>
    have := length_fileBytes_le s j
    simp only [List.map_cons, List.flatten_cons, List.length_append, List.sum_cons]
    omega

def fsTablesSize : Nat :=
  8 + maxD + maxD * fsPathCap + maxF + maxF * 4 + maxF * fsPathCap + 256 + maxD * 6 + maxF * 6

theorem length_fsImage
    : (fsImage s).length = fsTablesSize + (contentBytes s (List.finRange maxF)).length := by
  have hheader : fsHeader.length = 8 := rfl
  have hdnames : (nameBytes s.dname).length = maxD * fsPathCap :=
    length_flatten_finRange (fun i => (s.dname i).size)
  have hfnames : (nameBytes s.fname).length = maxF * fsPathCap :=
    length_flatten_finRange (fun i => (s.fname i).size)
  have hsizes : (sizeBytes s).length = maxF * 4 := length_flatten_finRange (fun _ => length_le32 _)
  have hdowners : (ownerBytes s.downer s.dmode (List.finRange maxD)).length = maxD * 6 :=
    length_flatten_finRange (fun _ => rfl)
  have hfowners : (ownerBytes s.fowner s.fmode (List.finRange maxF)).length = maxF * 6 :=
    length_flatten_finRange (fun _ => rfl)
  have hcwd : s.cwd.bytes.length = 256 := s.cwd.size
  rw [fsImage_eq]
  simp only [List.length_append, length_usedBytes, hheader, hdnames, hfnames, hsizes, hdowners,
    hfowners, hcwd]
  unfold fsTablesSize
  omega

theorem length_fsImage_le : (fsImage s).length ≤ fsSerializedSize s := by
  have hcontent := length_contentBytes_le s (List.finRange maxF)
  rw [length_fsImage]
  unfold fsTablesSize fsSerializedSize
  omega

end Length

section Autosave

variable {dev : StoreBackend} {st : StoreState} {s : FsState} {acc : Accounts}

/--
What `config_serialize` leaves in its buffer of the image.
-/
def StoreState.configBytes (st : StoreState) (acc : Accounts) : Bytes :=
  (configSerialize acc st.storeCfgbuf).2.take configStoreSize

/--
The pieces given to `store_wr_sink`.
-/
def storePieces (st : StoreState) (s : FsState) (acc : Accounts) : List Bytes :=
  storeHeader st.region (fsSerializedSize s + configStoreSize)
    :: (fsPieces s ++ [st.configBytes acc])

def storeImage (st : StoreState) (s : FsState) (acc : Accounts) : Bytes :=
  storeHeader st.region (fsSerializedSize s + configStoreSize) ++ fsImage s ++ st.configBytes acc

theorem storeImage_head : (storeImage st s acc)[0]? = some 84 := by
  unfold storeImage
  have hheader : 0 < (storeHeader st.region (fsSerializedSize s + configStoreSize)).length :=
    Nat.succ_pos _
  rw [List.append_assoc, List.getElem?_append_left hheader]
  rfl

theorem flatten_storePieces : (storePieces st s acc).flatten = storeImage st s acc := by
  unfold storePieces storeImage fsImage
  simp

theorem configSerialize_rc (hcfg : configStoreSize ≤ st.storeCfgbuf.length)
    : (configSerialize acc st.storeCfgbuf).1 = 0 := by
  unfold configSerialize
  rw [if_neg (by omega)]

theorem length_configBytes (hcfg : configStoreSize ≤ st.storeCfgbuf.length)
    : (st.configBytes acc).length = configStoreSize := by
  unfold StoreState.configBytes configSerialize
  rw [if_neg (by omega), List.length_take, List.length_append, List.length_drop]
  omega

theorem length_storeImage (hcfg : configStoreSize ≤ st.storeCfgbuf.length)
    : (storeImage st s acc).length = storeHeaderBytes + (fsImage s).length + configStoreSize := by
  unfold storeImage
  rw [List.length_append, List.length_append, length_configBytes hcfg]
  rfl

def StoreState.finish (dev : StoreBackend) (st : StoreState) (payload : Nat) (c : StoreWr)
    : StoreState :=
  let r := storeWrFlush dev st.region c
  if ¬r.1 ∨ r.2.failed then
    st.afterWr r.2
  else
    { st.afterWr r.2 with
      storeSectors := bytesToSectors (storeHeaderBytes + payload)
      storeEnabled := storeVerify dev (st.afterWr r.2) payload }

theorem storeAutosave_pieces (hon : st.storeEnabled = true) (hfit : storeTooBig st s = false)
    (hcfg : configStoreSize ≤ st.storeCfgbuf.length) {fuel : Nat} {r : Bool × StoreWr}
    (hr : sinkAll dev st.region fuel (true, st.wrStart) (storePieces st s acc) = r)
    : (storeAutosave dev fuel st s acc).1 = r.1
        ∧ (r.1 = false → (storeAutosave dev fuel st s acc).2.spilled = r.2.spilled
          ∧ (storeAutosave dev fuel st s acc).2.disk = r.2.disk)
        ∧ (r.1 = true → (storeAutosave dev fuel st s acc).2
            = StoreState.finish dev { st with storeCfgbuf := (configSerialize acc st.storeCfgbuf).2 }
              (fsSerializedSize s + configStoreSize) r.2) := by
  have hsplit : sinkAll dev st.region fuel (true, st.wrStart) (storePieces st s acc)
      = sinkAll dev st.region fuel (sinkAll dev st.region fuel (true, st.wrStart)
          (storeHeader st.region (fsSerializedSize s + configStoreSize) :: fsPieces s))
          [st.configBytes acc] := by
    unfold storePieces sinkAll
    rw [← List.cons_append, List.foldl_append]
  rw [hsplit] at hr
  have hrc := @configSerialize_rc st acc hcfg
  unfold storeAutosave
  rw [if_neg (by rw [hon]; decide), if_neg (by rw [hfit]; decide)]
  have hfs : ∀ x, fsSerializeSink s (fun (r : Bool × StoreWr) bs =>
        if r.1 then storeWrSink dev st.region fuel r.2 bs else r) x
      = sinkAll dev st.region fuel x (fsPieces s) := fun _ => rfl
  rw [sinkAll_cons] at hr
  dsimp only
  simp only [↓reduceIte]
  rw [hfs]
  generalize sinkAll dev st.region fuel (storeWrSink dev st.region fuel st.wrStart _) _ = r₁ at *
  obtain ⟨ended, c⟩ := r₁
  cases ended with
  | false =>
    rw [sinkAll_stopped rfl] at hr
    subst hr
    exact ⟨rfl, fun _ => ⟨rfl, rfl⟩, fun hbad => absurd hbad Bool.false_ne_true⟩
  | true =>
    have hlast : storeWrSink dev st.region fuel c (st.configBytes acc) = r := hr
    simp only [not_true_eq_false, ↓reduceIte, hrc, ne_eq]
    rw [show (configSerialize acc st.storeCfgbuf).2.take configStoreSize = st.configBytes acc from rfl,
      hlast]
    obtain ⟨ended, c'⟩ := r
    cases ended with
    | false => exact ⟨rfl, fun _ => ⟨rfl, rfl⟩, fun hbad => absurd hbad Bool.false_ne_true⟩
    | true =>
      unfold StoreState.finish
      simp only [not_true_eq_false, ↓reduceIte]
      refine ⟨?_, fun hbad => absurd hbad.symm Bool.false_ne_true, fun _ => ?_⟩
      . split <;> rfl
      . split <;> rfl

theorem wrStart_inv : WrInv dev st.region st.wrStart [] st.wrStart :=
  .refl rfl rfl

/--
`store_init` has made room for the Storefile.
-/
def StoreRegion.OnDisk (reg : StoreRegion) : Prop :=
  reg.storeLba.toNat + reg.storeCapacitySectors ≤ reg.storeDiskSectors

theorem holds_of_fits (hdisk : st.region.OnDisk) (hcfg : configStoreSize ≤ st.storeCfgbuf.length)
    (hfit : storeTooBig st s = false) : st.region.Holds (storeImage st s acc).length := by
  have himage := length_fsImage_le s
  unfold storeTooBig bytesToSectors at hfit
  simp only [decide_eq_false_iff_not, not_or, Nat.not_lt] at hfit
  unfold StoreRegion.OnDisk at hdisk
  have hroom : storeHeaderBytes + fsStoreSize + configStoreSize < 2 ^ 32 := by
    decide
  rw [length_storeImage hcfg]
  exact ⟨by omega, by omega⟩

theorem length_storeImage_pos (hcfg : configStoreSize ≤ st.storeCfgbuf.length)
    : 0 < (storeImage st s acc).length := by
  rw [length_storeImage hcfg]
  unfold storeHeaderBytes
  omega

theorem storePieces_inv (hdisk : st.region.OnDisk) (hcfg : configStoreSize ≤ st.storeCfgbuf.length)
    (hfit : storeTooBig st s = false) (fuel : Nat)
    : ∃ w, WrInv dev st.region st.wrStart w
          (sinkAll dev st.region fuel (true, st.wrStart) (storePieces st s acc)).2
        ∧ w <+: storeImage st s acc
        ∧ ((sinkAll dev st.region fuel (true, st.wrStart) (storePieces st s acc)).1 →
          w = storeImage st s acc) := by
  have hin : st.region.Holds ([] ++ (storePieces st s acc).flatten).length := by
    rw [List.nil_append, flatten_storePieces]
    exact holds_of_fits hdisk hcfg hfit
  obtain ⟨w, hinv, hpre, hw⟩ := sinkAll_inv wrStart_inv hin fuel
  rw [List.nil_append, flatten_storePieces] at hpre hw
  exact ⟨w, hinv, hpre, hw⟩

variable (dev st s acc)

/--
`store_autosave` comes back.
-/
def AutosaveReturns : Prop :=
  ∃ fuel, (storeAutosave dev fuel st s acc).1 = true

def earlierBatches : Nat :=
  ((storeImage st s acc).length - 1) / storeStageBytes

variable {dev st s acc}

theorem earlierBatches_pos (hcfg : configStoreSize ≤ st.storeCfgbuf.length)
    (hcontent : 32768 ≤ (contentBytes s (List.finRange maxF)).length)
    : 0 < earlierBatches st s acc := by
  have hsize : storeStageBytes < storeHeaderBytes + (fsTablesSize + 32768) + configStoreSize := by
    decide
  have hlen := @length_storeImage st s acc hcfg
  rw [length_fsImage] at hlen
  apply Nat.div_pos
  . omega
  . decide

theorem earlierBatches_of_empty (hcfg : configStoreSize ≤ st.storeCfgbuf.length)
    (hcontent : contentBytes s (List.finRange maxF) = [])
    : earlierBatches st s acc = 0 := by
  have hsize : storeHeaderBytes + fsTablesSize + configStoreSize ≤ storeStageBytes := by
    decide
  have hpos : 0 < storeStageBytes := by
    decide
  have hlen := @length_storeImage st s acc hcfg
  rw [length_fsImage, hcontent, List.length_nil] at hlen
  apply Nat.div_eq_of_lt
  omega

theorem autosaveReturns_iff (hdisk : st.region.OnDisk)
    (hcfg : configStoreSize ≤ st.storeCfgbuf.length)
    : AutosaveReturns dev st s acc ↔ st.storeEnabled = false ∨ storeTooBig st s = true
        ∨ Enough dev.ok st.transfers (earlierBatches st s acc) := by
  by_cases hon : st.storeEnabled = false
  . refine ⟨fun _ => .inl hon, fun _ => ⟨0, ?_⟩⟩
    rw [storeAutosave, if_pos hon]
  by_cases hbig : storeTooBig st s = true
  . refine ⟨fun _ => .inr (.inl hbig), fun _ => ⟨0, ?_⟩⟩
    rw [storeAutosave, if_neg hon, if_pos hbig]
  rw [Bool.not_eq_false] at hon
  rw [Bool.not_eq_true] at hbig
  constructor
  . rintro ⟨fuel, hended⟩
    obtain ⟨hsame, _⟩ := @storeAutosave_pieces dev st s acc hon hbig hcfg fuel _ rfl
    obtain ⟨w, hinv, _, hw⟩ := storePieces_inv hdisk hcfg hbig fuel
    rw [hsame] at hended
    have henough := hinv.enough
    rw [hw hended] at henough
    exact .inr (.inr henough)
  . rintro (hoff | htoo | henough)
    . rw [hon] at hoff
      contradiction
    . rw [hbig] at htoo
      contradiction
    . have hin : st.region.Holds ([] ++ (storePieces st s acc).flatten).length := by
        rw [List.nil_append, flatten_storePieces]
        exact holds_of_fits hdisk hcfg hbig
      have hneed : Enough dev.ok st.wrStart.transfers
          ((([] ++ (storePieces st s acc).flatten).length - 1) / storeStageBytes) := by
        rw [List.nil_append, flatten_storePieces]
        exact henough
      obtain ⟨fuel, hfuel⟩ := sinkAll_ends wrStart_inv hin hneed
      refine ⟨fuel, ?_⟩
      obtain ⟨hsame, _⟩ := @storeAutosave_pieces dev st s acc hon hbig hcfg fuel _ rfl
      rw [hsame]
      exact hfuel fuel (Nat.le_refl _)

theorem finish_spilled (payload : Nat) (c : StoreWr)
    : (st.finish dev payload c).spilled = (storeWrFlush dev st.region c).2.spilled := by
  unfold StoreState.finish
  dsimp only
  split <;> rfl

theorem storeAutosave_spilled (hdisk : st.region.OnDisk)
    (hcfg : configStoreSize ≤ st.storeCfgbuf.length) (fuel : Nat)
    : (storeAutosave dev fuel st s acc).2.spilled = st.spilled := by
  by_cases hon : st.storeEnabled = false
  . rw [storeAutosave, if_pos hon]
  by_cases hbig : storeTooBig st s = true
  . rw [storeAutosave, if_neg hon, if_pos hbig]
  rw [Bool.not_eq_false] at hon
  rw [Bool.not_eq_true] at hbig
  obtain ⟨w, hinv, _, hw⟩ := @storePieces_inv dev st s acc hdisk hcfg hbig fuel
  obtain ⟨_, hstopped, hfinished⟩ := @storeAutosave_pieces dev st s acc hon hbig hcfg fuel _ rfl
  cases hended : (sinkAll dev st.region fuel (true, st.wrStart) (storePieces st s acc)).1 with
  | false =>
    rw [(hstopped hended).1, hinv.spilled]
    rfl
  | true =>
    rw [hfinished hended, finish_spilled]
    have hlast := (hinv.flush_notes (by rw [hw hended]; exact holds_of_fits hdisk hcfg hbig)).1
    rw [hlast]
    rfl

/--
`store_autosave` comes back exactly if enough of the transfers succeed, or there is nothing to write.
It never stores past the end of the staging buffer.
-/
theorem autosave_returns (hdisk : st.region.OnDisk) (hcfg : configStoreSize ≤ st.storeCfgbuf.length)
    : (AutosaveReturns dev st s acc ↔ st.storeEnabled = false ∨ storeTooBig st s = true
          ∨ Enough dev.ok st.transfers (earlierBatches st s acc))
        ∧ ∀ fuel, (storeAutosave dev fuel st s acc).2.spilled = st.spilled :=
  ⟨autosaveReturns_iff hdisk hcfg, storeAutosave_spilled hdisk hcfg⟩

section Example

/-!
A disk that takes all transfers, one that takes none, and a file of 32 KiB to save.
-/

def soundDisk : StoreBackend where
  ok _ := true
  torn _ _ := 0

def deadDisk : StoreBackend where
  ok _ := false
  torn _ _ := 0

def storeReady : StoreState where
  region := ⟨4096, 131072, 262144, 1, 0⟩
  storeEnabled := true
  storeSectors := 0
  storeCfgbuf := List.replicate (16 * 1024) 0
  storeStage _ := 0
  disk _ := 0
  transfers := 0
  spilled := false

def largeFs : FsState :=
  (fdataResize (fsCreateFile { fsInit (.zeroed 65536) with fsCurUid := 0 } [slash, 97]).2
    ⟨0, maxF_pos⟩ 32768).2

theorem storeReady_onDisk : storeReady.region.OnDisk := by
  unfold StoreRegion.OnDisk
  decide

theorem storeReady_cfgbuf : configStoreSize ≤ storeReady.storeCfgbuf.length := by
  unfold storeReady
  rw [List.length_replicate]
  decide

theorem storeReady_reach (hfits : storeTooBig storeReady s = false)
    : (storeImage storeReady s acc).length ≤ storeReady.region.reach := by
  have hends := (@holds_of_fits _ s acc storeReady_onDisk storeReady_cfgbuf hfits).ends
  have hdisk : storeReady.region.storeDiskSectors = 262144 := rfl
  exact StoreRegion.le_reach (by omega)

theorem largeFs_fits : storeTooBig storeReady largeFs = false := by
  decide +kernel

theorem largeFs_content : 32768 ≤ (contentBytes largeFs (List.finRange maxF)).length := by
  have hmem : largeFs.fileBytes ⟨0, by decide⟩
      ∈ ((List.finRange maxF).filter (hasContent largeFs)).map largeFs.fileBytes := by
    apply List.mem_map_of_mem
    exact List.mem_filter.mpr ⟨List.mem_finRange _, by decide +kernel⟩
  have hsize : (largeFs.fileBytes ⟨0, by decide⟩).length = largeFs.fsize ⟨0, by decide⟩ :=
    DataInv.length_fileBytes (by decide +kernel)
  have hvalue : largeFs.fsize ⟨0, by decide⟩ = 32768 := by
    decide +kernel
  rw [← hvalue, ← hsize]
  exact (List.sublist_flatten_of_mem hmem).length_le

theorem successes_dead (t n : Nat) : successes deadDisk.ok t n = 0 := by
  unfold successes deadDisk
  simp

theorem largeFs_waits : 0 < earlierBatches storeReady largeFs bootAccounts :=
  earlierBatches_pos storeReady_cfgbuf largeFs_content

end Example

theorem autosave_returns_sound
    : AutosaveReturns soundDisk storeReady largeFs bootAccounts := by
  apply (autosave_returns storeReady_onDisk storeReady_cfgbuf).1.mpr
  exact .inr (.inr (enough_of_all (fun _ => rfl) _ _))

/--
With a disk that takes no transfer the loop never ends.
-/
theorem not_autosave_returns
    : ¬∀ (dev : StoreBackend) (st : StoreState) (s : FsState) (acc : Accounts), st.region.OnDisk →
        configStoreSize ≤ st.storeCfgbuf.length → AutosaveReturns dev st s acc
          ∧ ∀ fuel, (storeAutosave dev fuel st s acc).2.spilled = st.spilled := by
  intro hall
  obtain ⟨hreturns, _⟩ := hall deadDisk storeReady largeFs bootAccounts storeReady_onDisk
    storeReady_cfgbuf
  rcases (autosaveReturns_iff storeReady_onDisk storeReady_cfgbuf).mp hreturns with hoff | hbig | ⟨n, hn⟩
  . contradiction
  . rw [largeFs_fits] at hbig
    contradiction
  . have hwaits := largeFs_waits
    rw [successes_dead] at hn
    omega

end Autosave

end TanjaOS
