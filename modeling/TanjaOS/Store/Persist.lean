import TanjaOS.Store.Returns

/-!
What `store_enabled` says after a save. The flag stays set when a transfer fails, so it is only right
if the last batch of the image reaches the disk all the same.
-/

open Lib

namespace TanjaOS

section LastWrite

/--
The batch behind `q` others is first tried after `m` transfers.
-/
def FirstTry (ok : Nat → Bool) (t q m : Nat) : Prop :=
  successes ok t m = q ∧ ∀ j, j < m → successes ok t j < q

/--
The transfer of the last batch of an image of `n` bytes. One that fills the buffer is tried once more.
-/
def LastWrite (ok : Nat → Bool) (t n k : Nat) : Prop :=
  ∃ m, FirstTry ok t ((n - 1) / storeStageBytes) m
    ∧ k = t + m + if storeStageBytes ∣ n ∧ ok (t + m) = false then 1 else 0

variable {ok : Nat → Bool} {t q m m' n k k' : Nat}

theorem FirstTry.le (h : FirstTry ok t q m) (h' : FirstTry ok t q m') : m ≤ m' := by
  by_contra hlt
  have := h.2 m' (by omega)
  have := h'.1
  omega

theorem FirstTry.unique (h : FirstTry ok t q m) (h' : FirstTry ok t q m') : m = m' :=
  Nat.le_antisymm (h.le h') (h'.le h)

theorem LastWrite.unique (h : LastWrite ok t n k) (h' : LastWrite ok t n k') : k = k' := by
  obtain ⟨m, hm, rfl⟩ := h
  obtain ⟨m', hm', rfl⟩ := h'
  rw [hm.unique hm']

theorem LastWrite.enough (h : LastWrite ok t n k) : Enough ok t ((n - 1) / storeStageBytes) := by
  obtain ⟨m, hm, _⟩ := h
  exact ⟨m, Nat.le_of_eq hm.1.symm⟩

end LastWrite

/--
The stream has taken all of an image of `n` bytes: a full buffer has been tried, and only the last
flush happened when there was nothing left.
-/
structure Settled (dev : StoreBackend) (c₀ c : StoreWr) (n : Nat) : Prop where
  full : c.staged = storeStageBytes →
    ∃ k, c₀.transfers ≤ k ∧ c.transfers = k + 1 ∧ dev.ok k = false
  tried : ∀ k, k + 1 < c.transfers - c₀.transfers →
    storeStageBytes * (successes dev.ok c₀.transfers k + 1) < n

namespace WrInv

variable {dev : StoreBackend} {reg : StoreRegion} {c₀ c : StoreWr} {w : Bytes}

theorem turn_settled {data : Bytes} (h : WrInv dev reg c₀ w c) (hin : reg.Holds (w ++ data).length)
    (hne : data ≠ [])
    : Settled dev c₀ (storeWrTurn dev reg c data) (w.length + data.length) := by
  have hpos : 0 < data.length := List.length_pos_iff.mpr hne
  have hlater := h.later
  have hturn := (h.turn hin).2
  have hbefore : ∀ k, k < c.transfers - c₀.transfers →
      storeStageBytes * (successes dev.ok c₀.transfers k + 1) < w.length + data.length := by
    intro k hk
    have := h.tried k hk
    omega
  split at hturn
  . obtain ⟨htransfers, hstaged⟩ := hturn
    refine ⟨fun hfull => ⟨c.transfers, hlater, htransfers, ?_⟩, fun k hk => hbefore k (by omega)⟩
    cases hok : dev.ok c.transfers with
    | false => rfl
    | true =>
      rw [hstaged, hok] at hfull
      contradiction
  . next hroom =>
    obtain ⟨htransfers, hstaged⟩ := hturn
    refine ⟨fun hfull => ?_, fun k hk => hbefore k (by omega)⟩
    rw [hstaged] at hfull
    contradiction

theorem sink_settled {data : Bytes} (h : WrInv dev reg c₀ w c) (hin : reg.Holds (w ++ data).length)
    (hne : data ≠ []) {fuel : Nat} (hended : (storeWrSink dev reg fuel c data).1 = true)
    : Settled dev c₀ (storeWrSink dev reg fuel c data).2 (w.length + data.length) := by
  induction fuel generalizing w c data with
  | zero => contradiction
  | succ fuel ih =>
    rw [storeWrSink, if_neg hne] at hended ⊢
    by_cases hrest : data.drop (c.take data) = []
    . rw [hrest] at hended ⊢
      cases fuel with
      | zero => contradiction
      | succ fuel =>
        rw [storeWrSink, if_pos rfl]
        exact h.turn_settled hin hne
    . have happ : w ++ data.take (c.take data) ++ data.drop (c.take data) = w ++ data := by
        rw [List.append_assoc, List.take_append_drop]
      have hlen : (w ++ data.take (c.take data)).length + (data.drop (c.take data)).length
          = w.length + data.length := by
        rw [← List.length_append, happ, List.length_append]
      have hnext := ih (h.turn hin).1 (by rw [happ]; exact hin) hrest hended
      rw [hlen] at hnext
      exact hnext

theorem flush_done (h : WrInv dev reg c₀ w c) (hin : reg.Holds w.length) (hpos : 0 < c.staged)
    : (storeWrFlush dev reg c).1 = dev.ok c.transfers := by
  have hsize : storeStageBytes = 65536 := rfl
  have hreceived := h.received
  have hstart := h.start hpos
  obtain ⟨q, hq⟩ := h.batches
  have hends := hin.ends
  rw [hsize] at hq
  exact (flush_spec hpos h.fits (by omega)).1

theorem lastWrite (h : WrInv dev reg c₀ w c) (hs : Settled dev c₀ c w.length) (hpos : 0 < w.length)
    : (c.staged = 0 → ∃ k, LastWrite dev.ok c₀.transfers w.length k ∧ dev.ok k = true
            ∧ c.transfers = k + 1)
        ∧ (0 < c.staged → LastWrite dev.ok c₀.transfers w.length c.transfers
          ∧ w.length - c.staged = storeStageBytes * ((w.length - 1) / storeStageBytes)) := by
  have hsize : storeStageBytes = 65536 := rfl
  have hfits := h.fits
  have hlater := h.later
  have hflushed := h.flushed
  have htried := h.tried
  have hearlier := hs.tried
  have hfull := hs.full
  unfold LastWrite
  rw [hsize] at *
  obtain ⟨m, hm⟩ : ∃ m, c.transfers = c₀.transfers + m := Nat.exists_eq_add_of_le hlater
  rw [hm, Nat.add_sub_cancel_left] at hflushed htried hearlier
  constructor
  . intro hzero
    obtain ⟨j, rfl⟩ : ∃ j, m = j + 1 := by
      apply Nat.exists_eq_succ_of_ne_zero
      rintro rfl
      rw [successes_zero] at hflushed
      omega
    have hlast := htried j (Nat.lt_succ_self j)
    rw [successes_add, successes_one] at hflushed
    have hok : dev.ok (c₀.transfers + j) = true := by
      by_contra hbad
      rw [if_neg hbad] at hflushed
      omega
    rw [hok, if_pos rfl] at hflushed
    refine ⟨c₀.transfers + j, ⟨j, ⟨by omega, fun i hi => ?_⟩, ?_⟩, hok, hm⟩
    . have := hearlier i (by omega)
      omega
    . rw [hok]
      simp
  . intro hstaged
    refine ⟨?_, by omega⟩
    by_cases hwhole : c.staged = 65536
    . obtain ⟨k, hk, hk', hbad⟩ := hfull hwhole
      obtain ⟨j, rfl⟩ : ∃ j, m = j + 1 := ⟨k - c₀.transfers, by omega⟩
      have hkj : k = c₀.transfers + j := by omega
      rw [hkj] at hbad
      rw [successes_add, successes_one, hbad] at hflushed
      simp only [Bool.false_eq_true, ↓reduceIte, Nat.add_zero] at hflushed
      have hdvd : 65536 ∣ w.length := ⟨1 + successes dev.ok c₀.transfers j, by omega⟩
      refine ⟨j, ⟨by omega, fun i hi => ?_⟩, ?_⟩
      . have := hearlier i (by omega)
        omega
      . rw [if_pos ⟨hdvd, hbad⟩, hm]
        rfl
    . have hdvd : ¬65536 ∣ w.length := by
        rintro ⟨d, hd⟩
        omega
      refine ⟨m, ⟨by omega, fun i hi => ?_⟩, ?_⟩
      . have := htried i hi
        omega
      . rw [if_neg (fun hbad => hdvd hbad.1), hm]
        rfl

end WrInv

section Autosave

variable {dev : StoreBackend} {st : StoreState} {s : FsState} {acc : Accounts}

theorem storePieces_settled (hdisk : st.region.OnDisk) (hcfg : configStoreSize ≤ st.storeCfgbuf.length)
    (hfit : storeTooBig st s = false) {fuel : Nat}
    (hended : (sinkAll dev st.region fuel (true, st.wrStart) (storePieces st s acc)).1 = true)
    : Settled dev st.wrStart
        (sinkAll dev st.region fuel (true, st.wrStart) (storePieces st s acc)).2
        (storeImage st s acc).length := by
  let first := storeHeader st.region (fsSerializedSize s + configStoreSize) :: fsPieces s
  have hsplit : sinkAll dev st.region fuel (true, st.wrStart) (storePieces st s acc)
      = sinkAll dev st.region fuel (sinkAll dev st.region fuel (true, st.wrStart) first)
          [st.configBytes acc] := by
    unfold storePieces sinkAll
    rw [← List.cons_append, List.foldl_append]
  have happ : first.flatten ++ st.configBytes acc = storeImage st s acc := by
    unfold first storeImage fsImage
    simp
  have hin := @holds_of_fits st s acc hdisk hcfg hfit
  rw [← happ] at hin ⊢
  have hfirst : st.region.Holds ([] ++ first.flatten).length := by
    apply hin.mono
    rw [List.nil_append, List.length_append]
    exact Nat.le_add_right _ _
  obtain ⟨w, hinv, _, hw⟩ := sinkAll_inv (@wrStart_inv dev st) hfirst fuel
  rw [hsplit] at hended ⊢
  generalize sinkAll dev st.region fuel (true, st.wrStart) first = r at *
  obtain ⟨ended, c⟩ := r
  cases ended with
  | false =>
    rw [sinkAll_stopped rfl] at hended
    contradiction
  | true =>
    have hne : st.configBytes acc ≠ [] := by
      apply List.ne_nil_of_length_pos
      rw [length_configBytes hcfg]
      decide
    rw [hw rfl, List.nil_append] at hinv
    rw [List.length_append]
    exact hinv.sink_settled hin hne hended

variable (dev st s acc)

/--
The image is on the disk.
-/
def StoreState.Saved (st : StoreState) (image : Bytes) : Prop :=
  st.disk.readBytes (st.region.storeLba.toNat * 512) image.length = image

/--
What `store_lba` does not reach of the image has been on the disk before.
-/
def StoreState.RestOnDisk (st : StoreState) (image : Bytes) : Prop :=
  st.disk.readBytes (st.region.storeLba.toNat * 512 + st.region.reach)
    (image.length - st.region.reach) = image.drop st.region.reach

/--
A save that comes back and leaves `store_enabled` set has left the image on the disk.
-/
def AutosaveHonest : Prop :=
  ∀ fuel st', storeAutosave dev fuel st s acc = (true, st') → st'.storeEnabled = true →
    st'.Saved (storeImage st s acc)

/--
The `k`th transfer leaves the last batch of the image on the disk, if only by accident.
-/
def LandsLast (k : Nat) : Prop :=
  dev.ok k = true
    ∨ (dev.torn k).readBytes
        (st.region.storeLba.toNat * 512 + storeStageBytes * earlierBatches st s acc)
        ((storeImage st s acc).length - storeStageBytes * earlierBatches st s acc)
      = (storeImage st s acc).drop (storeStageBytes * earlierBatches st s acc)

variable {dev st s acc}

theorem finish_disk (payload : Nat) (c : StoreWr)
    : (st.finish dev payload c).disk = (storeWrFlush dev st.region c).2.disk
        ∧ (st.finish dev payload c).region = st.region := by
  unfold StoreState.finish
  dsimp only
  split <;> exact ⟨rfl, rfl⟩

theorem finish_enabled {payload : Nat} {c : StoreWr}
    : (st.finish dev payload c).storeEnabled
        = if (storeWrFlush dev st.region c).1 = false ∨ (storeWrFlush dev st.region c).2.failed then
            st.storeEnabled
          else
            storeVerify dev (st.afterWr (storeWrFlush dev st.region c).2) payload := by
  unfold StoreState.finish
  dsimp only
  simp only [Bool.not_eq_true]
  split <;> rfl

theorem finish_saved {image : Bytes} {c : StoreWr} (h : WrInv dev st.region st.wrStart image c)
    (hin : st.region.Holds image.length) (hreach : image.length ≤ st.region.reach) (payload : Nat)
    : (st.finish dev payload c).Saved image
        ↔ c.staged = 0 ∨ dev.ok c.transfers = true
          ∨ (dev.torn c.transfers).readBytes
              (st.region.storeLba.toNat * 512 + (image.length - c.staged)) c.staged
            = image.drop (image.length - c.staged) := by
  obtain ⟨hdisk, hregion⟩ := @finish_disk dev st payload c
  have hlast := (h.last hin hreach).1
  unfold StoreState.Saved
  rw [hdisk, hregion, hlast]
  cases hok : dev.ok c.transfers with
  | true => simp
  | false =>
    rw [if_neg Bool.false_ne_true]
    conv => lhs; rhs; rw [← List.take_append_drop (image.length - c.staged) image]
    rw [List.append_cancel_left_eq]
    constructor
    . intro htorn
      exact .inr (.inr htorn)
    . rintro (hzero | hbad | htorn)
      . rw [hzero, Nat.sub_zero, List.drop_length]
        rfl
      . contradiction
      . exact htorn

theorem finish_rest {image : Bytes} {c : StoreWr} (h : WrInv dev st.region st.wrStart image c)
    (hin : st.region.Holds image.length) (hwrap : st.region.reach < image.length) (payload : Nat)
    : (st.finish dev payload c).Saved image ↔ st.RestOnDisk image := by
  obtain ⟨hdisk, hregion⟩ := @finish_disk dev st payload c
  obtain ⟨hfront, hrest⟩ := h.last_wrapped hin hwrap
  unfold StoreState.Saved StoreState.RestOnDisk
  rw [hdisk, hregion]
  have hsplit : image.length = st.region.reach + (image.length - st.region.reach) := by omega
  have hsame : (storeWrFlush dev st.region c).2.disk.readBytes
        (st.region.storeLba.toNat * 512 + st.region.reach) (image.length - st.region.reach)
      = st.disk.readBytes (st.region.storeLba.toNat * 512 + st.region.reach)
        (image.length - st.region.reach) :=
    Mem.readBytes_congr (fun a ha _ => hrest a ha)
  conv => lhs; lhs; rw [hsplit, Mem.readBytes_add, hfront, hsame]
  conv => lhs; rhs; rw [← List.take_append_drop st.region.reach image]
  rw [List.append_cancel_left_eq]

theorem verify_written {payload : Nat} {rest : Bytes} (hpayload : payload < 2 ^ 32)
    (hends : st.region.storeLba.toNat + 1 ≤ st.region.storeDiskSectors)
    (hdisk : st.disk.readBytes (st.region.storeLba.toNat * 512) 512
      = storeHeader st.region payload ++ rest)
    : storeVerify dev st payload = dev.ok st.transfers := by
  have hvalid : storeHeaderValidAt (storeHeader st.region payload ++ rest) = true := rfl
  have hsize : ofLe32 ((storeHeader st.region payload ++ rest).drop 4) = payload := by
    unfold storeHeader
    simp only [List.append_assoc]
    exact ofLe32_le32 payload _ hpayload
  unfold storeVerify
  dsimp only
  rw [hdisk, hvalid, hsize]
  simp [hends]

theorem finish_flag {c : StoreWr} (h : WrInv dev st.region st.wrStart (storeImage st s acc) c)
    (hin : st.region.Holds (storeImage st s acc).length)
    (hwrap : st.region.reach < (storeImage st s acc).length) (hon : st.storeEnabled = true) {k : Nat}
    (hk : (storeWrFlush dev st.region c).2.transfers = k + 1)
    (hpayload : fsSerializedSize s + configStoreSize < 2 ^ 32)
    : (st.finish dev (fsSerializedSize s + configStoreSize) c).storeEnabled = false
        ↔ AllOk dev.ok st.transfers (k + 1) ∧ dev.ok (k + 1) = false := by
  obtain ⟨_, _, hfailed, hdone⟩ := h.flush_notes hin
  have hfront := (h.last_wrapped hin hwrap).1
  rw [hk] at hfailed
  have hall : (storeWrFlush dev st.region c).2.failed = false ↔ AllOk dev.ok st.transfers (k + 1) := by
    rw [hfailed]
    exact and_iff_right rfl
  have hsector : 512 ≤ st.region.reach := by
    have hlba := st.region.storeLba.toNat_lt
    unfold StoreRegion.reach storeStageBytes
    omega
  have hhead : (storeWrFlush dev st.region c).2.disk.readBytes (st.region.storeLba.toNat * 512) 512
      = storeHeader st.region (fsSerializedSize s + configStoreSize)
        ++ (fsImage s ++ st.configBytes acc).take (512 - storeHeaderBytes) := by
    rw [← Mem.take_readBytes hsector, hfront, List.take_take, Nat.min_eq_left hsector]
    unfold storeImage
    rw [List.append_assoc, List.take_append]
    rfl
  have hends := hin.ends
  have hverify := @verify_written dev (st.afterWr (storeWrFlush dev st.region c).2) _ _ hpayload
    (by
      change st.region.storeLba.toNat + 1 ≤ st.region.storeDiskSectors
      omega)
    hhead
  rw [finish_enabled, hverify, hon, ← hall]
  have htransfers : (st.afterWr (storeWrFlush dev st.region c).2).transfers = k + 1 := hk
  rw [htransfers]
  cases hflag : (storeWrFlush dev st.region c).2.failed with
  | true => simp
  | false =>
    have hok : (storeWrFlush dev st.region c).1 = true := by
      by_contra hbad
      exact Bool.false_ne_true (hflag.symm.trans (hdone (by simpa using hbad)))
    simp [hok]

/--
The `k`th transfer is the last one of the save, and what is behind it is right all the same. Of an image
that goes on behind what `store_lba` reaches the flag is only taken back when the header cannot be read.
-/
def LastGood (dev : StoreBackend) (st : StoreState) (s : FsState) (acc : Accounts) (k : Nat) : Prop :=
  if (storeImage st s acc).length ≤ st.region.reach then
    LandsLast dev st s acc k
  else
    st.RestOnDisk (storeImage st s acc)
      ∨ (AllOk dev.ok st.transfers (k + 1) ∧ dev.ok (k + 1) = false)

theorem settled_last {c : StoreWr} (hinv : WrInv dev st.region st.wrStart (storeImage st s acc) c)
    (hin : st.region.Holds (storeImage st s acc).length)
    (hsettled : Settled dev st.wrStart c (storeImage st s acc).length)
    (hcfg : configStoreSize ≤ st.storeCfgbuf.length)
    : ∃ k, LastWrite dev.ok st.transfers (storeImage st s acc).length k
        ∧ (storeWrFlush dev st.region c).2.transfers = k + 1
        ∧ (LandsLast dev st s acc k ↔ c.staged = 0 ∨ dev.ok c.transfers = true
          ∨ (dev.torn c.transfers).readBytes (st.region.storeLba.toNat * 512
              + ((storeImage st s acc).length - c.staged)) c.staged
            = (storeImage st s acc).drop ((storeImage st s acc).length - c.staged))
        ∧ (dev.ok k = false → (storeWrFlush dev st.region c).1 = false) := by
  obtain ⟨hzero, hpos⟩ := hinv.lastWrite hsettled (length_storeImage_pos hcfg)
  obtain ⟨_, htransfers, _⟩ := hinv.flush_notes hin
  by_cases hstaged : c.staged = 0
  . obtain ⟨k, hk, hok, hlast⟩ := hzero hstaged
    rw [if_pos hstaged] at htransfers
    refine ⟨k, hk, htransfers.trans hlast, ⟨fun _ => .inl hstaged, fun _ => .inl hok⟩, fun hbad => ?_⟩
    exact absurd (hbad.symm.trans hok) Bool.false_ne_true
  . obtain ⟨hk, hrest⟩ := hpos (by omega)
    have hlast : c.staged = (storeImage st s acc).length
        - storeStageBytes * earlierBatches st s acc := by
      unfold earlierBatches
      rw [← hrest, Nat.sub_sub_self hinv.received]
    rw [if_neg hstaged] at htransfers
    refine ⟨c.transfers, hk, htransfers, ?_, fun hbad => ?_⟩
    . unfold LandsLast
      rw [← hlast, hrest]
      exact (or_iff_right hstaged).symm
    . rw [← hbad]
      exact hinv.flush_done hin (by omega)

theorem returned_good (hdisk : st.region.OnDisk) (hcfg : configStoreSize ≤ st.storeCfgbuf.length)
    (hon : st.storeEnabled = true) (hbig : storeTooBig st s = false) {fuel : Nat}
    (hended : (storeAutosave dev fuel st s acc).1 = true)
    : ∃ k, LastWrite dev.ok st.transfers (storeImage st s acc).length k
        ∧ (((storeAutosave dev fuel st s acc).2.storeEnabled = true →
            (storeAutosave dev fuel st s acc).2.Saved (storeImage st s acc))
          ↔ LastGood dev st s acc k) := by
  obtain ⟨hsame, _, hfinished⟩ := @storeAutosave_pieces dev st s acc hon hbig hcfg fuel _ rfl
  obtain ⟨w, hinv, _, hw⟩ := @storePieces_inv dev st s acc hdisk hcfg hbig fuel
  rw [hsame] at hended
  have hsettled := storePieces_settled hdisk hcfg hbig hended
  have hin := @holds_of_fits st s acc hdisk hcfg hbig
  rw [hw hended] at hinv
  rw [hfinished hended]
  generalize (sinkAll dev st.region fuel (true, st.wrStart) (storePieces st s acc)).2 = c at *
  obtain ⟨k, hk, htransfers, hlands, hfail⟩ := settled_last hinv hin hsettled hcfg
  refine ⟨k, hk, ?_⟩
  unfold LastGood
  split
  . next hreach =>
    have hsaved := @finish_saved dev { st with storeCfgbuf := (configSerialize acc st.storeCfgbuf).2 } _ _
      hinv hin hreach (fsSerializedSize s + configStoreSize)
    rw [hsaved, ← hlands]
    constructor
    . intro hgood
      cases hok : dev.ok k with
      | true => exact .inl hok
      | false =>
        apply hgood
        rw [finish_enabled, if_pos (.inl (hfail hok))]
        exact hon
    . intro hgood _
      exact hgood
  . next hwrap =>
    have hpayload : fsSerializedSize s + configStoreSize < 2 ^ 32 := by
      have hroom : fsStoreSize + configStoreSize < 2 ^ 32 := by
        decide
      unfold storeTooBig at hbig
      simp only [decide_eq_false_iff_not, not_or, Nat.not_lt] at hbig
      omega
    have hsaved := @finish_rest dev { st with storeCfgbuf := (configSerialize acc st.storeCfgbuf).2 } _ _
      hinv hin (Nat.not_le.mp hwrap) (fsSerializedSize s + configStoreSize)
    have hflag := finish_flag hinv hin (Nat.not_le.mp hwrap) hon htransfers hpayload
    have hbuf : (StoreState.finish dev
          { st with storeCfgbuf := (configSerialize acc st.storeCfgbuf).2 }
          (fsSerializedSize s + configStoreSize) c).storeEnabled
        = (st.finish dev (fsSerializedSize s + configStoreSize) c).storeEnabled := by
      rw [finish_enabled, finish_enabled]
      rfl
    rw [hsaved, hbuf, ← hflag, ← Bool.not_eq_true]
    change (_ → st.RestOnDisk _) ↔ _
    rw [or_comm, imp_iff_not_or]

theorem autosaveHonest_iff (hdisk : st.region.OnDisk) (hcfg : configStoreSize ≤ st.storeCfgbuf.length)
    : AutosaveHonest dev st s acc ↔ st.storeEnabled = false
        ∨ (storeTooBig st s = true ∧ st.Saved (storeImage st s acc))
        ∨ (storeTooBig st s = false
          ∧ ∀ k, LastWrite dev.ok st.transfers (storeImage st s acc).length k →
            LastGood dev st s acc k) := by
  by_cases hon : st.storeEnabled = false
  . refine ⟨fun _ => .inl hon, fun _ fuel st' h hset => ?_⟩
    rw [storeAutosave, if_pos hon] at h
    cases h
    rw [hon] at hset
    contradiction
  cases hbig : storeTooBig st s with
  | true =>
    have hskip : ∀ fuel, storeAutosave dev fuel st s acc = (true, st) := by
      intro fuel
      rw [storeAutosave, if_neg hon, if_pos hbig]
    constructor
    . intro h
      exact .inr (.inl ⟨rfl, h 0 st (hskip 0) (by rwa [Bool.not_eq_false] at hon)⟩)
    . rintro (hoff | ⟨_, hsaved⟩ | ⟨hfits, _⟩)
      . contradiction
      . intro fuel st' h _
        rw [hskip fuel] at h
        cases h
        exact hsaved
      . contradiction
  | false =>
    rw [Bool.not_eq_false] at hon
    constructor
    . intro h
      refine .inr (.inr ⟨rfl, fun k hk => ?_⟩)
      obtain ⟨fuel, hended⟩ : AutosaveReturns dev st s acc :=
        (autosaveReturns_iff hdisk hcfg).mpr (.inr (.inr hk.enough))
      obtain ⟨k', hk', hgood⟩ := returned_good hdisk hcfg hon hbig hended
      rw [hk.unique hk']
      exact hgood.mp (h fuel _ (Prod.ext hended rfl))
    . rintro (hoff | ⟨hbad, _⟩ | ⟨_, hlast⟩)
      . rw [hon] at hoff
        contradiction
      . contradiction
      . intro fuel st' h hset
        have hended : (storeAutosave dev fuel st s acc).1 = true := by rw [h]
        obtain ⟨k, hk, hgood⟩ := returned_good hdisk hcfg hon hbig hended
        rw [h] at hgood
        exact hgood.mpr (hlast k hk) hset

theorem LandsLast.head {k : Nat} (h : LandsLast dev st s acc k) (hfail : dev.ok k = false)
    (hcfg : configStoreSize ≤ st.storeCfgbuf.length) (hearlier : earlierBatches st s acc = 0)
    : dev.torn k (st.region.storeLba.toNat * 512) = 84 := by
  obtain hok | htorn := h
  . rw [hfail] at hok
    contradiction
  . rw [hearlier, Nat.mul_zero, List.drop_zero, Nat.sub_zero, Nat.add_zero] at htorn
    have hhead := congrArg (fun bs : Bytes => bs[0]?) htorn
    rw [Mem.getElem?_readBytes, if_pos (length_storeImage_pos hcfg), storeImage_head,
      Nat.add_zero] at hhead
    exact Option.some.inj hhead

theorem not_honest_of_dead (hdisk : st.region.OnDisk) (hcfg : configStoreSize ≤ st.storeCfgbuf.length)
    (hon : st.storeEnabled = true) (hfits : storeTooBig st s = false)
    (hreach : (storeImage st s acc).length ≤ st.region.reach) (hearlier : earlierBatches st s acc = 0)
    (hfail : ∀ k, dev.ok k = false) (hhead : ∀ k, dev.torn k (st.region.storeLba.toNat * 512) ≠ 84)
    : ¬AutosaveHonest dev st s acc := by
  rw [autosaveHonest_iff hdisk hcfg]
  rintro (hoff | ⟨hbig, _⟩ | ⟨_, hlast⟩)
  . exact Bool.false_ne_true (hoff.symm.trans hon)
  . exact Bool.false_ne_true (hfits.symm.trans hbig)
  . have hfirst : FirstTry dev.ok st.transfers (earlierBatches st s acc) 0 :=
      ⟨hearlier.symm, fun j hj => absurd hj (Nat.not_lt_zero j)⟩
    have hgood := hlast _ ⟨0, hfirst, rfl⟩
    unfold LastGood at hgood
    rw [if_pos hreach] at hgood
    exact hhead _ (hgood.head (hfail _) hcfg hearlier)

/--
A save leaves `store_enabled` set with something else on the disk exactly if it gives up before the
first write while the disk holds another image, if the transfer of the last batch fails, or if a batch
begins behind sector `2 ^ 32`.
-/
theorem autosave_honest (hdisk : st.region.OnDisk) (hcfg : configStoreSize ≤ st.storeCfgbuf.length)
    : AutosaveHonest dev st s acc ↔ st.storeEnabled = false
        ∨ (storeTooBig st s = true ∧ st.Saved (storeImage st s acc))
        ∨ (storeTooBig st s = false
          ∧ ∀ k, LastWrite dev.ok st.transfers (storeImage st s acc).length k →
            LastGood dev st s acc k) :=
  autosaveHonest_iff hdisk hcfg

theorem autosave_honest_sound : AutosaveHonest soundDisk storeReady largeFs bootAccounts := by
  refine (autosave_honest storeReady_onDisk storeReady_cfgbuf).mpr
    (.inr (.inr ⟨largeFs_fits, fun _ _ => ?_⟩))
  unfold LastGood
  rw [if_pos (storeReady_reach largeFs_fits)]
  exact .inl rfl

section Example

/-!
A filesystem without files. Its image goes to the disk in one transfer.
-/

def bareFs : FsState :=
  fsInit (.zeroed 64)

theorem bareFs_fits : storeTooBig storeReady bareFs = false := by
  decide +kernel

theorem bareFs_content : contentBytes bareFs (List.finRange maxF) = [] := by
  unfold contentBytes
  have hnone : (List.finRange maxF).filter (hasContent bareFs) = [] := by
    decide +kernel
  rw [hnone]
  rfl

theorem bareFs_earlier : earlierBatches storeReady bareFs bootAccounts = 0 :=
  earlierBatches_of_empty storeReady_cfgbuf bareFs_content

end Example

/--
A disk that takes nothing and stays as it is: the save comes back with the flag set.
-/
theorem not_autosave_honest
    : ¬∀ (dev : StoreBackend) (st : StoreState) (s : FsState) (acc : Accounts), st.region.OnDisk →
        configStoreSize ≤ st.storeCfgbuf.length → AutosaveHonest dev st s acc := by
  intro hall
  have hhonest := hall deadDisk storeReady bareFs bootAccounts storeReady_onDisk storeReady_cfgbuf
  refine not_honest_of_dead storeReady_onDisk storeReady_cfgbuf rfl bareFs_fits
    (storeReady_reach bareFs_fits) bareFs_earlier (fun _ => rfl) (fun _ => ?_) hhonest
  change (0 : Byte) ≠ 84
  decide

end Autosave

end TanjaOS
