import TanjaOS.Store.Persist

/-!
Where `store_init` puts the Storefile: at the end of the disk, but not on top of the boot image at
its front.
-/

open Lib

namespace TanjaOS

def storeReservedTailSectors : Nat := 16

def storeFrontReserveSectors : Nat := 16384

def storeCapacity : Nat :=
  bytesToSectors (storeHeaderBytes + fsStoreSize + configStoreSize)

/--
What `store_init` finds out about the machine: the sector counts of the legacy ATA drives that are
there, the one of the AHCI drive, and whether this is a live session.
-/
structure StoreProbe where
  ata : Fin 2 → Fin 2 → Option UInt32
  ahci : Option UInt64
  livecd : Bool

def ataSlots : List (Fin 2 × Fin 2) :=
  [(0, 0), (0, 1), (1, 0), (1, 1)]

def diskSectors (p : StoreProbe) : Option UInt64 :=
  match ataSlots.findSome? (fun slot => p.ata slot.1 slot.2) with
  | some sectors => some sectors.toUInt64
  | none => p.ahci

inductive StoreStart where
  /-- The session runs from RAM, `store_enabled` is 0. -/
  | ram
  /-- `kernel_panic_storage` -/
  | panicked
  /-- The Storefile is on the disk. -/
  | located (region : StoreRegion)

/--
`store_init` up to the point where it reads the header of the saved image.
-/
def storeLocate (p : StoreProbe) (buildIdLo buildIdHi : UInt32) : StoreStart :=
  match diskSectors p with
  | none => .ram
  | some disk =>
    if p.livecd then
      .ram
    else if storeCapacity + storeReservedTailSectors + 32 < disk.toNat then
      -- 64 bits are cut down to 32 here
      let lba := UInt32.ofNat (disk.toNat - storeCapacity - storeReservedTailSectors)
      if lba.toNat < storeFrontReserveSectors then
        .panicked
      else
        .located ⟨lba, storeCapacity, disk.toNat, buildIdLo, buildIdHi⟩
    else
      .panicked

/--
How `store_init` ends: with the saved state, if there is one that can be loaded, or with the first
save of a fresh one. The state `st` is that of the store once the region has been set.
-/
def storeInitEnd (dev : StoreBackend) (fuel : Nat) (loaded : Bool) (st : StoreState) (s : FsState)
    (acc : Accounts) : Bool × StoreState :=
  if loaded then
    (true, { st with storeEnabled := true })
  else
    storeAutosave dev fuel { st with storeEnabled := true } s acc

/--
The Storefile keeps clear of the boot image and ends where the reserved tail begins.
-/
structure WellPlaced (p : StoreProbe) (reg : StoreRegion) : Prop where
  front : storeFrontReserveSectors ≤ reg.storeLba.toNat
  tail : ∀ disk, diskSectors p = some disk →
    reg.storeLba.toNat + reg.storeCapacitySectors + storeReservedTailSectors = disk.toNat

section Locate

variable {p : StoreProbe} {buildIdLo buildIdHi : UInt32} {reg : StoreRegion}

theorem storeLocate_located (h : storeLocate p buildIdLo buildIdHi = .located reg)
    : ∃ disk, diskSectors p = some disk ∧ p.livecd = false
        ∧ storeCapacity + storeReservedTailSectors + 32 < disk.toNat
        ∧ reg.storeLba.toNat = (disk.toNat - storeCapacity - storeReservedTailSectors) % 2 ^ 32
        ∧ reg.storeCapacitySectors = storeCapacity ∧ reg.storeDiskSectors = disk.toNat
        ∧ storeFrontReserveSectors ≤ reg.storeLba.toNat := by
  unfold storeLocate at h
  split at h
  . contradiction
  . next disk hdisk =>
    split at h
    . contradiction
    . next hlive =>
      split at h
      . next hlarge =>
        dsimp only at h
        split at h
        . injection h
        . next hfront =>
          injection h with h
          rw [← h]
          exact ⟨disk, hdisk, by simpa using hlive, hlarge, UInt32.toNat_ofNat', rfl, rfl,
            Nat.not_lt.mp hfront⟩
      . contradiction

theorem located_onDisk (h : storeLocate p buildIdLo buildIdHi = .located reg) : reg.OnDisk := by
  obtain ⟨disk, _, _, hlarge, hlba, hcap, hsectors, _⟩ := storeLocate_located h
  have hcut := Nat.mod_le (disk.toNat - storeCapacity - storeReservedTailSectors) (2 ^ 32)
  unfold StoreRegion.OnDisk
  omega

theorem located_wellPlaced (h : storeLocate p buildIdLo buildIdHi = .located reg)
    : WellPlaced p reg ↔ ∀ disk, diskSectors p = some disk →
        disk.toNat - storeCapacity - storeReservedTailSectors < 2 ^ 32 := by
  obtain ⟨disk, hdisk, _, hlarge, hlba, hcap, _, hfront⟩ := storeLocate_located h
  constructor
  . intro hplaced disk' hdisk'
    have htail := hplaced.tail disk' hdisk'
    rw [hdisk] at hdisk'
    cases hdisk'
    have hlt := Nat.mod_lt (disk.toNat - storeCapacity - storeReservedTailSectors)
      (Nat.two_pow_pos 32)
    omega
  . intro hsmall
    refine ⟨hfront, fun disk' hdisk' => ?_⟩
    have hlt := hsmall disk hdisk
    rw [hdisk] at hdisk'
    cases hdisk'
    rw [Nat.mod_eq_of_lt hlt] at hlba
    omega

end Locate

section Clear

variable {dev : StoreBackend} {st : StoreState} {s : FsState} {acc : Accounts}

theorem storeTooBig_of_le {st : StoreState} (hcap : st.region.storeCapacitySectors = storeCapacity)
    (hle : fsSerializedSize s ≤ fsStoreSize) : storeTooBig st s = false := by
  unfold storeTooBig
  rw [hcap]
  unfold storeCapacity bytesToSectors
  simp only [decide_eq_false_iff_not, not_or, Nat.not_lt]
  generalize fsStoreSize = room at *
  refine ⟨hle, ?_, ?_⟩
  . omega
  . omega

theorem storeAutosave_frame (hdisk : st.region.OnDisk)
    (hcfg : configStoreSize ≤ st.storeCfgbuf.length)
    (hreach : storeTooBig st s = false → (storeImage st s acc).length ≤ st.region.reach) (fuel : Nat)
    : ∀ a, a < st.region.storeLba.toNat * 512
          ∨ st.region.storeLba.toNat * 512 + st.region.storeCapacitySectors * 512 ≤ a →
        (storeAutosave dev fuel st s acc).2.disk a = st.disk a := by
  intro a ha
  by_cases hon : st.storeEnabled = false
  . rw [storeAutosave, if_pos hon]
  by_cases hbig : storeTooBig st s = true
  . rw [storeAutosave, if_neg hon, if_pos hbig]
  rw [Bool.not_eq_false] at hon
  rw [Bool.not_eq_true] at hbig
  have hall := hreach hbig
  obtain ⟨w, hinv, hpre, hw⟩ := @storePieces_inv dev st s acc hdisk hcfg hbig fuel
  obtain ⟨_, hstopped, hfinished⟩ := @storeAutosave_pieces dev st s acc hon hbig hcfg fuel _ rfl
  have hsize : ((storeImage st s acc).length + 511) / 512 ≤ st.region.storeCapacitySectors := by
    have himage := length_fsImage_le s
    unfold storeTooBig bytesToSectors at hbig
    simp only [decide_eq_false_iff_not, not_or, Nat.not_lt] at hbig
    rw [length_storeImage hcfg]
    omega
  cases hended : (sinkAll dev st.region fuel (true, st.wrStart) (storePieces st s acc)).1 with
  | false =>
    have hlen := hpre.length_le
    rw [(hstopped hended).2]
    exact hinv.frame a (by omega)
  | true =>
    rw [hw hended] at hinv
    have hlast := (hinv.last (holds_of_fits hdisk hcfg hbig) hall).2 a (ha.imp_right (by omega))
    rw [hfinished hended]
    generalize (sinkAll dev st.region fuel (true, st.wrStart) (storePieces st s acc)).2 = c at *
    have hsame := (@finish_disk dev { st with storeCfgbuf := (configSerialize acc st.storeCfgbuf).2 }
      (fsSerializedSize s + configStoreSize) c).1
    rw [hsame]
    exact hlast

end Clear

theorem storeAutosave_region (dev : StoreBackend) (fuel : Nat) (st : StoreState) (s : FsState)
    (acc : Accounts) : (storeAutosave dev fuel st s acc).2.region = st.region := by
  unfold storeAutosave
  by_cases hon : st.storeEnabled = false
  . rw [if_pos hon]
  by_cases hbig : storeTooBig st s = true
  . rw [if_neg hon, if_pos hbig]
  rw [if_neg hon, if_neg hbig]
  dsimp only
  generalize fsSerializeSink s _ _ = r
  generalize configSerialize acc st.storeCfgbuf = q
  split
  . rfl
  . split
    . rfl
    . generalize storeWrSink dev st.region fuel r.2 _ = r'
      split
      . rfl
      . generalize storeWrFlush dev st.region r'.2 = r''
        split <;> rfl

section Place

variable (p : StoreProbe)

/--
Whenever `store_init` ends with the Storefile in use, it is in its place.
-/
def InitWellPlaced : Prop :=
  ∀ dev fuel loaded buildIdLo buildIdHi st st' s acc,
    storeLocate p buildIdLo buildIdHi = .located st.region →
    storeInitEnd dev fuel loaded st s acc = (true, st') → st'.storeEnabled = true →
    WellPlaced p st'.region

/--
A save never touches the boot image nor the last sectors of the disk, whatever its transfers do.
-/
def SavesClear : Prop :=
  ∀ dev fuel buildIdLo buildIdHi st s acc disk,
    storeLocate p buildIdLo buildIdHi = .located st.region →
    configStoreSize ≤ st.storeCfgbuf.length → diskSectors p = some disk →
    ∀ a, a < storeFrontReserveSectors * 512 ∨ (disk.toNat - storeReservedTailSectors) * 512 ≤ a →
      (storeAutosave dev fuel st s acc).2.disk a = st.disk a

/--
The address of the Storefile fits into 32 bits, or what is left of it is refused.
-/
def AddressFits : Prop :=
  ∀ disk, diskSectors p = some disk → p.livecd = false →
    disk.toNat - storeCapacity - storeReservedTailSectors < 2 ^ 32
      ∨ (disk.toNat - storeCapacity - storeReservedTailSectors) % 2 ^ 32 < storeFrontReserveSectors

def lastBatch : Nat :=
  (storeHeaderBytes + fsStoreSize + configStoreSize - 1) / storeStageBytes

/--
Even the last batch of the largest image begins below sector `2 ^ 32`, or `store_init` gives up.
-/
def BatchesFit : Prop :=
  ∀ disk, diskSectors p = some disk → p.livecd = false →
    disk.toNat - storeCapacity - storeReservedTailSectors + 128 * lastBatch < 2 ^ 32
      ∨ (disk.toNat - storeCapacity - storeReservedTailSectors) % 2 ^ 32 < storeFrontReserveSectors

variable {p}

theorem located_of_probe {disk : UInt64} (hdisk : diskSectors p = some disk) (hlive : p.livecd = false)
    (hfront : ¬(disk.toNat - storeCapacity - storeReservedTailSectors) % 2 ^ 32
      < storeFrontReserveSectors)
    : storeLocate p 1 0 = .located
        ⟨UInt32.ofNat (disk.toNat - storeCapacity - storeReservedTailSectors), storeCapacity, disk.toNat,
          1, 0⟩ := by
  have hlarge : storeCapacity + storeReservedTailSectors + 32 < disk.toNat := by
    have hle := Nat.mod_le (disk.toNat - storeCapacity - storeReservedTailSectors) (2 ^ 32)
    unfold storeFrontReserveSectors at hfront
    unfold storeReservedTailSectors at *
    omega
  unfold storeLocate
  rw [hdisk]
  dsimp only
  rw [if_neg (by rw [hlive]; decide), if_pos hlarge, if_neg (by rw [UInt32.toNat_ofNat']; exact hfront)]

theorem initWellPlaced_iff : InitWellPlaced p ↔ AddressFits p := by
  constructor
  . intro hplaced disk hdisk hlive
    by_contra hbad
    obtain ⟨hwide, hfront⟩ := not_or.mp hbad
    have hlocate := located_of_probe hdisk hlive hfront
    have hend := hplaced soundDisk 0 true 1 0 { storeReady with region := _ } _ bareFs bootAccounts
      hlocate rfl rfl
    exact hwide ((located_wellPlaced hlocate).mp hend disk hdisk)
  . intro hfits dev fuel loaded buildIdLo buildIdHi st st' s acc hlocate hend _
    have hregion : st'.region = st.region := by
      unfold storeInitEnd at hend
      split at hend
      . cases hend
        rfl
      . have hsame := storeAutosave_region dev fuel { st with storeEnabled := true } s acc
        rw [hend] at hsame
        exact hsame
    rw [hregion]
    apply (located_wellPlaced hlocate).mpr
    intro disk hdisk
    obtain ⟨disk', hdisk', hlive, _, hlba, _, _, hfront⟩ := storeLocate_located hlocate
    rw [hdisk] at hdisk'
    cases hdisk'
    rcases hfits disk hdisk hlive with hsmall | hcut
    . exact hsmall
    . rw [hlba] at hfront
      exact absurd hcut (Nat.not_lt.mpr hfront)

theorem savesClear_of_fits (hfits : BatchesFit p) : SavesClear p := by
  intro dev fuel buildIdLo buildIdHi st s acc disk hlocate hcfg hdisk a ha
  obtain ⟨disk', hdisk', hlive, hlarge, hlba, hcap, _, hfront⟩ := storeLocate_located hlocate
  rw [hdisk] at hdisk'
  cases hdisk'
  have hbatches : disk.toNat - storeCapacity - storeReservedTailSectors + 128 * lastBatch < 2 ^ 32 := by
    rcases hfits disk hdisk hlive with hbatches | hcut
    . exact hbatches
    . rw [hlba] at hfront
      exact absurd hcut (Nat.not_lt.mpr hfront)
  rw [Nat.mod_eq_of_lt (by omega)] at hlba
  have hreach : storeTooBig st s = false → (storeImage st s acc).length ≤ st.region.reach := by
    intro hbig
    have himage := length_fsImage_le s
    unfold storeTooBig at hbig
    simp only [decide_eq_false_iff_not, not_or, Nat.not_lt] at hbig
    rw [length_storeImage hcfg]
    unfold lastBatch storeStageBytes at hbatches
    unfold StoreRegion.reach storeStageBytes
    omega
  apply storeAutosave_frame (located_onDisk hlocate) hcfg hreach
  rcases ha with ha | ha
  . left
    exact Nat.lt_of_lt_of_le ha (Nat.mul_le_mul_right 512 hfront)
  . right
    rw [← Nat.add_mul]
    exact Nat.le_trans (Nat.mul_le_mul_right 512 (by omega)) ha

section Example

/-!
An image of any size: a filesystem with one file.
-/

def filledFs (size : Nat) : FsState :=
  { bareFs with
    fsize := fun _ => size
    fused := fun i => if i = ⟨0, maxF_pos⟩ then 1 else 0
    fdata := fun _ => some 0 }

variable {size : Nat}

theorem filledFs_content (hpos : 0 < size)
    : (List.finRange maxF).filter (fun i => (filledFs size).fused i ≠ 0 ∧ 0 < (filledFs size).fsize i)
        = [⟨0, maxF_pos⟩] := by
  have hsame : (fun i => decide ((filledFs size).fused i ≠ 0 ∧ 0 < (filledFs size).fsize i))
      = fun i => decide (i = (⟨0, maxF_pos⟩ : Fin maxF)) := by
    funext i
    unfold filledFs
    dsimp only
    by_cases h : i = ⟨0, maxF_pos⟩ <;> simp [h, hpos]
  rw [hsame]
  decide

theorem filledFs_serialized (hpos : 0 < size) : fsSerializedSize (filledFs size) = fsTablesSize + size := by
  unfold fsSerializedSize
  rw [filledFs_content hpos]
  rfl

theorem length_filledFs (hpos : 0 < size) : (fsImage (filledFs size)).length = fsTablesSize + size := by
  have hsame : hasContent (filledFs size)
      = fun i => decide ((filledFs size).fused i ≠ 0 ∧ 0 < (filledFs size).fsize i) := rfl
  rw [length_fsImage]
  unfold contentBytes
  rw [hsame, filledFs_content hpos]
  simp [FsState.fileBytes, filledFs]

end Example

theorem save_wraps {reg : StoreRegion} (hdisk : reg.OnDisk)
    (hcap : reg.storeCapacitySectors = storeCapacity)
    (hfar : reg.reach < storeHeaderBytes + fsStoreSize + configStoreSize)
    : ∃ (fuel : Nat) (st : StoreState) (s : FsState), st.region = reg
        ∧ configStoreSize ≤ st.storeCfgbuf.length ∧ ∃ a, a < 128 * 512
        ∧ (storeAutosave soundDisk fuel st s bootAccounts).2.disk a ≠ st.disk a := by
  have hroom : storeHeaderBytes + fsTablesSize + configStoreSize < storeStageBytes := by
    decide
  have hstore : fsStoreSize = fsTablesSize + fsDataPoolSize := by
    decide
  have hreach : storeStageBytes ≤ reg.reach := by
    have hlba := reg.storeLba.toNat_lt
    unfold StoreRegion.reach
    exact Nat.le_mul_of_pos_left _ (by omega)
  obtain ⟨size, hsize⟩ : ∃ size, reg.reach = storeHeaderBytes + fsTablesSize + configStoreSize + size :=
    Nat.exists_eq_add_of_le (by omega)
  let st (b : Byte) : StoreState := { storeReady with region := reg, disk := fun _ => b }
  let s := filledFs (size + 1)
  have hcfg (b : Byte) : configStoreSize ≤ (st b).storeCfgbuf.length := storeReady_cfgbuf
  have hlen : (storeImage (st 0) s bootAccounts).length = reg.reach + 1 := by
    rw [length_storeImage (hcfg 0), length_filledFs (Nat.succ_pos size)]
    omega
  obtain ⟨x, hx⟩ : ∃ x, (storeImage (st 0) s bootAccounts).drop reg.reach = [x] := by
    apply List.length_eq_one_iff.mp
    rw [List.length_drop, hlen, Nat.add_sub_cancel_left]
  let b : Byte := if x = 0 then 1 else 0
  have hfits : storeTooBig (st b) s = false := by
    apply storeTooBig_of_le hcap
    rw [filledFs_serialized (Nat.succ_pos size)]
    omega
  obtain ⟨fuel, hended⟩ : AutosaveReturns soundDisk (st b) s bootAccounts :=
    (autosaveReturns_iff hdisk (hcfg b)).mpr (.inr (.inr (enough_of_all (fun _ => rfl) _ _)))
  refine ⟨fuel, st b, s, rfl, hcfg b, reg.sector reg.reach * 512, ?_, ?_⟩
  . exact Nat.mul_lt_mul_of_pos_right reg.sector_reach_lt (by decide)
  . obtain ⟨hsame, _, hfinished⟩ :=
      @storeAutosave_pieces soundDisk (st b) s bootAccounts rfl hfits (hcfg b) fuel _ rfl
    obtain ⟨w, hinv, _, hw⟩ := @storePieces_inv soundDisk (st b) s bootAccounts hdisk (hcfg b) hfits fuel
    rw [hsame] at hended
    rw [hw hended] at hinv
    have hfront := hinv.last_far (holds_of_fits hdisk (hcfg b) hfits) hlen rfl
    have hdone := (@finish_disk soundDisk
      { st b with storeCfgbuf := (configSerialize bootAccounts (st b).storeCfgbuf).2 }
      (fsSerializedSize s + configStoreSize)
      (sinkAll soundDisk (st b).region fuel (true, (st b).wrStart) (storePieces (st b) s bootAccounts)).2).1
    rw [hfinished hended, hdone]
    have hbyte := congrArg (fun bs : Bytes => bs[0]?) (hfront.trans hx)
    rw [Mem.getElem?_readBytes, if_pos Nat.one_pos, Nat.add_zero] at hbyte
    rw [Option.some.inj hbyte]
    change x ≠ b
    unfold b
    split
    . next hzero =>
      rw [hzero]
      decide
    . next hzero => exact hzero

theorem fits_of_savesClear (hclear : SavesClear p) (haddr : AddressFits p) : BatchesFit p := by
  intro disk hdisk hlive
  by_contra hbad
  obtain ⟨hfar, hfront⟩ := not_or.mp hbad
  have hbase := (haddr disk hdisk hlive).resolve_right hfront
  have hlocate := located_of_probe hdisk hlive hfront
  obtain ⟨disk', hdisk', _, _, hlba, hcap, _⟩ := storeLocate_located hlocate
  rw [hdisk] at hdisk'
  cases hdisk'
  rw [Nat.mod_eq_of_lt hbase] at hlba
  have hdone := located_onDisk hlocate
  generalize StoreRegion.mk _ _ _ _ _ = reg at *
  have hreach : reg.reach < storeHeaderBytes + fsStoreSize + configStoreSize := by
    have hroom : 0 < storeHeaderBytes := Nat.succ_pos _
    unfold lastBatch storeStageBytes at hfar
    unfold StoreRegion.reach storeStageBytes
    omega
  obtain ⟨fuel, st, s, hst, hcfg, a, ha, hne⟩ := save_wraps hdone hcap hreach
  apply hne
  apply hclear soundDisk fuel 1 0 st s bootAccounts disk (by rw [hst]; exact hlocate) hcfg hdisk
  left
  unfold storeFrontReserveSectors
  omega

end Place

/--
The Storefile is in its place and every save keeps clear of the boot image and of the end of the disk
exactly if all batches of the largest image begin below sector `2 ^ 32`.
-/
theorem store_well_placed (p : StoreProbe) : InitWellPlaced p ∧ SavesClear p ↔ BatchesFit p := by
  constructor
  . rintro ⟨hplaced, hclear⟩
    exact fits_of_savesClear hclear (initWellPlaced_iff.mp hplaced)
  . intro hfits
    refine ⟨initWellPlaced_iff.mpr (fun disk hdisk hlive => ?_), savesClear_of_fits hfits⟩
    exact (hfits disk hdisk hlive).imp_left (by omega)

def largeDrive : StoreProbe where
  ata _ _ := none
  ahci := some 8589934592
  livecd := false

theorem not_store_well_placed : ¬∀ p, InitWellPlaced p ∧ SavesClear p := by
  intro hall
  have hdisk : diskSectors largeDrive = some 8589934592 := rfl
  rcases initWellPlaced_iff.mp (hall largeDrive).1 8589934592 hdisk rfl with hsmall | hcut
  . revert hsmall
    decide
  . revert hcut
    decide

end TanjaOS
