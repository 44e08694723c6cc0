import TanjaOS.Store.Impl

/-!
The stream of image bytes through the staging buffer: what one flush, one turn of the loop and one
piece of the image do.
-/

open Lib

namespace TanjaOS

/--
The number of transfers among the `n` ones from `t` on that succeed.
-/
def successes (ok : Nat → Bool) (t n : Nat) : Nat :=
  ((List.range n).filter (fun k => ok (t + k))).length

/--
At least `k` of the transfers from `t` on succeed.
-/
def Enough (ok : Nat → Bool) (t k : Nat) : Prop :=
  ∃ n, k ≤ successes ok t n

/--
The transfers from `t` to before `n` all succeed.
-/
def AllOk (ok : Nat → Bool) (t n : Nat) : Prop :=
  ∀ i, t ≤ i → i < n → ok i = true

section Successes

variable {ok : Nat → Bool} {t k n n' : Nat}

theorem allOk_self : AllOk ok t t :=
  fun _ hle hlt => absurd hlt (Nat.not_lt.mpr hle)

theorem allOk_succ (hle : t ≤ n) : AllOk ok t (n + 1) ↔ AllOk ok t n ∧ ok n = true := by
  constructor
  . intro h
    exact ⟨fun i hi hlt => h i hi (Nat.lt_succ_of_lt hlt), h n hle (Nat.lt_succ_self n)⟩
  . rintro ⟨h, hn⟩ i hi hlt
    rcases Nat.lt_succ_iff_lt_or_eq.mp hlt with hlt | rfl
    . exact h i hi hlt
    . exact hn

theorem successes_add : successes ok t (n + n') = successes ok t n + successes ok (t + n) n' := by
  unfold successes
  rw [List.range_add, List.filter_append, List.length_append, List.filter_map, List.length_map]
  congr 2
  apply List.filter_congr
  intro i _
  simp only [Function.comp_apply, Nat.add_assoc]

@[simp]
theorem successes_zero : successes ok t 0 = 0 := rfl

theorem successes_one : successes ok t 1 = if ok t then 1 else 0 := by
  unfold successes
  simp only [List.range_one, List.filter_cons, Nat.add_zero, List.filter_nil]
  split <;> rfl

theorem successes_mono (h : n ≤ n') : successes ok t n ≤ successes ok t n' := by
  obtain ⟨d, rfl⟩ := Nat.exists_eq_add_of_le h
  rw [successes_add]
  omega

theorem Enough.mono (h : Enough ok t n) (hle : k ≤ n) : Enough ok t k := by
  obtain ⟨m, hm⟩ := h
  exact ⟨m, by omega⟩

theorem enough_of_all (hok : ∀ k, ok k = true) (t k : Nat) : Enough ok t k := by
  refine ⟨k, ?_⟩
  unfold successes
  simp [hok]

theorem Enough.after (h : Enough ok t k) (n : Nat) : Enough ok (t + n) (k - successes ok t n) := by
  obtain ⟨m, hm⟩ := h
  refine ⟨m, ?_⟩
  have hle : successes ok t m ≤ successes ok t (n + m) := successes_mono (by omega)
  rw [successes_add] at hle
  omega

end Successes

section Flush

theorem writeBytes_of_outside {m : Mem} {addr a : Nat} {bs : Bytes}
    (h : a < addr ∨ addr + bs.length ≤ a) : m.writeBytes addr bs a = m a := by
  rcases h with h | h
  . exact Mem.writeBytes_of_lt bs h
  . exact Mem.writeBytes_of_ge bs h

theorem readBytes_writeBytes_take {m : Mem} {addr n : Nat} {bs : Bytes} (h : n ≤ bs.length)
    : (m.writeBytes addr bs).readBytes addr n = bs.take n := by
  have hsub := @Mem.readBytes_writeBytes_sub m addr 0 n bs (by omega)
  exact hsub

variable {dev : StoreBackend} {reg : StoreRegion} {c : StoreWr}

theorem storeTransfers_batch {lba count : Nat} {buf : Mem} (hpos : 0 < count) (hle : count ≤ 255)
    : storeTransfers dev count lba count buf 0 c
        = if dev.ok c.transfers then
            (true, { c with
              disk := c.disk.writeBytes (lba * 512) (buf.readBytes 0 (count * 512))
              transfers := c.transfers + 1 })
          else
            (false, { c with
              disk := c.disk.writeBytes (lba * 512)
                ((dev.torn c.transfers).readBytes (lba * 512) (count * 512))
              transfers := c.transfers + 1 }) := by
  obtain ⟨n, rfl⟩ := Nat.exists_eq_succ_of_ne_zero (Nat.ne_of_gt hpos)
  have hchunk : min (n + 1) 255 = n + 1 := by omega
  rw [Nat.succ_eq_add_one, storeTransfers, if_neg (by omega), hchunk]
  dsimp only
  split
  . rw [Nat.sub_self]
    cases n with
    | zero => rfl
    | succ n => rw [storeTransfers, if_pos rfl]
  . rfl

/--
The buffer as it is written out, filled up with zeros to whole sectors.
-/
def StoreWr.padded (c : StoreWr) : Mem :=
  c.stage.writeBytes c.staged (List.replicate ((c.staged + 511) / 512 * 512 - c.staged) 0)

theorem StoreRegion.sector_le (off : Nat) : reg.sector off ≤ reg.storeLba.toNat + off / 512 :=
  Nat.mod_le _ _

theorem flush_spec (hpos : 0 < c.staged) (hle : c.staged ≤ storeStageBytes)
    (hin : reg.storeLba.toNat + c.startOff / 512 + (c.staged + 511) / 512 ≤ reg.storeDiskSectors)
    : (storeWrFlush dev reg c).1 = dev.ok c.transfers
        ∧ ∃ disk, (storeWrFlush dev reg c).2 = { c with
              stage := c.padded, disk := disk, transfers := c.transfers + 1
              staged := if dev.ok c.transfers then 0 else c.staged
              failed := c.failed || !dev.ok c.transfers }
          ∧ (dev.ok c.transfers → disk = c.disk.writeBytes (reg.sector c.startOff * 512)
            (c.padded.readBytes 0 ((c.staged + 511) / 512 * 512)))
          ∧ (dev.ok c.transfers = false →
            disk = c.disk.writeBytes (reg.sector c.startOff * 512)
              ((dev.torn c.transfers).readBytes (reg.sector c.startOff * 512)
                ((c.staged + 511) / 512 * 512)))
          ∧ ∀ a, a < reg.sector c.startOff * 512
              ∨ reg.sector c.startOff * 512 + (c.staged + 511) / 512 * 512 ≤ a →
            disk a = c.disk a := by
  have hstage : storeStageBytes = 65536 := rfl
  have hspill : ¬(0 < (c.staged + 511) / 512 * 512 - c.staged
      ∧ storeStageBytes < c.staged + ((c.staged + 511) / 512 * 512 - c.staged)) := by
    omega
  have hstaged : c.stageBytes c.staged (List.replicate ((c.staged + 511) / 512 * 512 - c.staged) 0)
      = { c with stage := c.padded } := by
    unfold StoreWr.stageBytes StoreWr.padded
    rw [List.length_replicate, decide_eq_false hspill, Bool.or_false]
  unfold storeWrFlush
  rw [if_neg (by omega)]
  dsimp only
  rw [hstaged]
  unfold storeBackendWrite
  dsimp only
  have hcount : ¬(c.staged + 511) / 512 = 0 := by omega
  have hend : ¬reg.storeDiskSectors < reg.sector c.startOff + (c.staged + 511) / 512 := by
    have := reg.sector_le c.startOff
    omega
  rw [if_neg hcount, if_neg hend, storeTransfers_batch (by omega) (by omega)]
  dsimp only
  cases hok : dev.ok c.transfers with
  | true =>
    refine ⟨rfl, _, by simp, fun _ => rfl, fun hbad => absurd hbad (by decide), fun a ha => ?_⟩
    apply writeBytes_of_outside
    simpa using ha
  | false =>
    refine ⟨rfl, c.disk.writeBytes (reg.sector c.startOff * 512)
      ((dev.torn c.transfers).readBytes (reg.sector c.startOff * 512)
        ((c.staged + 511) / 512 * 512)), by simp, fun hbad => absurd hbad (by decide), fun _ => rfl,
      fun a ha => ?_⟩
    apply writeBytes_of_outside
    simpa using ha

end Flush

section Reach

variable {reg : StoreRegion} {off n : Nat}

/--
How much of an image goes to batches that begin below sector `2 ^ 32`. The ones behind them go to
the front of the disk.
-/
def StoreRegion.reach (reg : StoreRegion) : Nat :=
  (2 ^ 32 - reg.storeLba.toNat + 127) / 128 * storeStageBytes

theorem StoreRegion.sector_of_lt (hdvd : storeStageBytes ∣ off) (h : off < reg.reach)
    : reg.sector off * 512 = reg.storeLba.toNat * 512 + off := by
  have hsize : storeStageBytes = 65536 := rfl
  obtain ⟨q, rfl⟩ := hdvd
  have hlba := reg.storeLba.toNat_lt
  unfold reach at h
  unfold sector
  rw [hsize] at *
  omega

theorem StoreRegion.sector_of_le (hdvd : storeStageBytes ∣ off) (h : reg.reach ≤ off)
    (hlt : off < 2 ^ 32) : reg.sector off * 512 + storeStageBytes ≤ reg.storeLba.toNat * 512 := by
  have hsize : storeStageBytes = 65536 := rfl
  obtain ⟨q, rfl⟩ := hdvd
  have hlba := reg.storeLba.toNat_lt
  unfold reach at h
  unfold sector
  rw [hsize] at *
  have hbatch : q < 65536 := by omega
  have hwrap : 2 ^ 32 ≤ reg.storeLba.toNat + 128 * q := by omega
  have hsec : 65536 * q / 512 = 128 * q := by omega
  have hfront : reg.storeLba.toNat + 128 * q - 2 ^ 32 + 128 ≤ reg.storeLba.toNat := by omega
  rw [hsec, Nat.mod_eq_sub_mod hwrap, Nat.mod_eq_of_lt (by omega)]
  exact Nat.le_trans (Nat.le_of_eq (Nat.add_mul _ 128 512).symm) (Nat.mul_le_mul_right 512 hfront)

theorem StoreRegion.le_reach (h : reg.storeLba.toNat + (n + 511) / 512 ≤ 2 ^ 32) : n ≤ reg.reach := by
  have hsize : storeStageBytes = 65536 := rfl
  unfold reach
  rw [hsize]
  omega

theorem StoreRegion.reach_dvd (reg : StoreRegion) : storeStageBytes ∣ reg.reach :=
  Nat.dvd_mul_left _ _

theorem StoreRegion.sector_reach_lt (reg : StoreRegion) : reg.sector reg.reach < 128 := by
  have hsize : storeStageBytes = 65536 := rfl
  have hlba := reg.storeLba.toNat_lt
  unfold sector reach
  rw [hsize]
  generalize hq : (2 ^ 32 - reg.storeLba.toNat + 127) / 128 = q
  have hsec : q * 65536 / 512 = 128 * q := by omega
  have hwrap : 2 ^ 32 ≤ reg.storeLba.toNat + 128 * q := by omega
  rw [hsec, Nat.mod_eq_sub_mod hwrap]
  exact Nat.lt_of_le_of_lt (Nat.mod_le _ _) (by omega)

theorem StoreRegion.sector_cases (hdvd : storeStageBytes ∣ off) (hlt : off < 2 ^ 32)
    : (off + storeStageBytes ≤ reg.reach ∧ reg.sector off * 512 = reg.storeLba.toNat * 512 + off)
        ∨ (reg.reach ≤ off ∧ reg.sector off * 512 + storeStageBytes ≤ reg.storeLba.toNat * 512) := by
  have hreach := reg.reach_dvd
  by_cases h : off < reg.reach
  . left
    refine ⟨?_, StoreRegion.sector_of_lt hdvd h⟩
    obtain ⟨q, rfl⟩ := hdvd
    obtain ⟨m, hm⟩ := hreach
    rw [hm] at h ⊢
    rw [← Nat.mul_succ]
    exact Nat.mul_le_mul_left _ (Nat.lt_of_mul_lt_mul_left h)
  . right
    exact ⟨Nat.not_lt.mp h, StoreRegion.sector_of_le hdvd (Nat.not_lt.mp h) hlt⟩

end Reach

/--
The stream that started in `c₀` has received the bytes `w`: all but the staged ones have been written,
in whole batches, and what `store_lba` reaches of them is in its place. A flush that has failed has
been tried again.
-/
structure WrInv (dev : StoreBackend) (reg : StoreRegion) (c₀ : StoreWr) (w : Bytes) (c : StoreWr)
    : Prop where
  fits : c.staged ≤ storeStageBytes
  imgOff : c.imgOff = w.length
  received : c.staged ≤ w.length
  batches : storeStageBytes ∣ w.length - c.staged
  start : 0 < c.staged → c.startOff = w.length - c.staged
  stage : c.stage.readBytes 0 c.staged = w.drop (w.length - c.staged)
  spilled : c.spilled = c₀.spilled
  failed : c.failed = false ↔ c₀.failed = false ∧ AllOk dev.ok c₀.transfers c.transfers
  later : c₀.transfers ≤ c.transfers
  flushed : c.staged + storeStageBytes * successes dev.ok c₀.transfers (c.transfers - c₀.transfers)
    = w.length
  tried : ∀ k, k < c.transfers - c₀.transfers →
    storeStageBytes * (successes dev.ok c₀.transfers k + 1) ≤ w.length
  saved : c.disk.readBytes (reg.storeLba.toNat * 512) (min (w.length - c.staged) reg.reach)
    = w.take (min (w.length - c.staged) reg.reach)
  frame : ∀ a, (a < reg.storeLba.toNat * 512 ∧ w.length ≤ reg.reach)
      ∨ reg.storeLba.toNat * 512 + min w.length reg.reach ≤ a →
    c.disk a = c₀.disk a

/--
The image of `n` bytes ends on the disk. Its offsets fit into 32 bits.
-/
structure StoreRegion.Holds (reg : StoreRegion) (n : Nat) : Prop where
  ends : reg.storeLba.toNat + (n + 511) / 512 ≤ reg.storeDiskSectors
  small : n < 2 ^ 32

theorem StoreRegion.Holds.mono {reg : StoreRegion} {n n' : Nat} (h : reg.Holds n) (hle : n' ≤ n)
    : reg.Holds n' := by
  have := h.ends
  exact ⟨by omega, Nat.lt_of_le_of_lt hle h.small⟩

namespace WrInv

variable {dev : StoreBackend} {reg : StoreRegion} {c₀ c : StoreWr} {w : Bytes}

theorem refl (himgOff : c₀.imgOff = 0) (hstaged : c₀.staged = 0) : WrInv dev reg c₀ [] c₀ where
  fits := by
    rw [hstaged]
    exact Nat.zero_le _
  imgOff := himgOff
  received := Nat.le_of_eq hstaged
  batches := ⟨0, by rw [hstaged]; rfl⟩
  start hpos := absurd hstaged (Nat.ne_of_gt hpos)
  stage := by
    rw [hstaged]
    rfl
  spilled := rfl
  failed := by
    simp only [allOk_self, and_true]
  later := Nat.le_refl _
  flushed := by
    rw [Nat.sub_self, hstaged]
    rfl
  tried k hk := by
    rw [Nat.sub_self] at hk
    contradiction
  saved := by
    rw [hstaged, List.length_nil, Nat.sub_zero, Nat.zero_min]
    rfl
  frame _ _ := rfl

theorem flush (h : WrInv dev reg c₀ w c) (hfull : c.staged = storeStageBytes)
    (hin : reg.Holds w.length)
    : WrInv dev reg c₀ w (storeWrFlush dev reg c).2
        ∧ (storeWrFlush dev reg c).2.transfers = c.transfers + 1
        ∧ (storeWrFlush dev reg c).2.staged = if dev.ok c.transfers then 0 else storeStageBytes := by
  have hsize : storeStageBytes = 65536 := rfl
  have hreceived := h.received
  have hlater := h.later
  have hflushed := h.flushed
  have hstart := h.start (by omega)
  have hends := hin.ends
  have hsmall := hin.small
  have hbatches := h.batches
  rw [← hstart] at hbatches
  have hplace := reg.sector_cases hbatches (by omega)
  obtain ⟨q, hq⟩ := hbatches
  rw [hsize] at hq
  have hsecs : (c.staged + 511) / 512 * 512 = c.staged := by
    rw [hfull, hsize]
  obtain ⟨_, disk, heq, hdisk, _, hframe⟩ := @flush_spec dev reg c (by omega) h.fits
    (by omega)
  have hpad : c.padded = c.stage := by
    unfold StoreWr.padded
    rw [hfull]
    exact Mem.writeBytes_nil _
  have hcount : c.transfers + 1 - c₀.transfers = c.transfers - c₀.transfers + 1 := by omega
  have hlast : c₀.transfers + (c.transfers - c₀.transfers) = c.transfers := by omega
  -- the batches before this one are not touched
  have hbefore : disk.readBytes (reg.storeLba.toNat * 512) (min (w.length - c.staged) reg.reach)
      = w.take (min (w.length - c.staged) reg.reach) := by
    rw [← h.saved]
    apply Mem.readBytes_congr
    intro a ha hend
    apply hframe
    omega
  have houtside : ∀ a, (a < reg.storeLba.toNat * 512 ∧ w.length ≤ reg.reach)
      ∨ reg.storeLba.toNat * 512 + min w.length reg.reach ≤ a → disk a = c₀.disk a := by
    intro a ha
    rw [hframe a (by omega), h.frame a ha]
  have htried : ∀ k, k < c.transfers + 1 - c₀.transfers →
      storeStageBytes * (successes dev.ok c₀.transfers k + 1) ≤ w.length := by
    intro k hk
    by_cases hnew : k = c.transfers - c₀.transfers
    . rw [hnew, ← hflushed, hfull, hsize]
      omega
    . exact h.tried k (by omega)
  have hfailed : (c.failed || !dev.ok c.transfers) = false
      ↔ c₀.failed = false ∧ AllOk dev.ok c₀.transfers (c.transfers + 1) := by
    rw [allOk_succ hlater, ← and_assoc, ← h.failed, Bool.or_eq_false_iff, Bool.not_eq_false']
  rw [heq]
  cases hok : dev.ok c.transfers with
  | true =>
    rw [hok] at hdisk hfailed
    have hdone : storeStageBytes ∣ w.length - 0 := by
      refine ⟨q + 1, ?_⟩
      rw [hsize]
      omega
    refine ⟨⟨by simp, h.imgOff, by simp, hdone, by simp, by simp, h.spilled, hfailed, ?_, ?_, htried,
      ?_, houtside⟩, rfl, rfl⟩
    . dsimp only
      omega
    . dsimp only
      rw [hcount, successes_add, successes_one, hlast, hok]
      rw [hsize] at hflushed ⊢
      simp only [↓reduceIte]
      omega
    . dsimp only
      simp only [↓reduceIte, Nat.sub_zero]
      obtain ⟨hnear, haddr⟩ | ⟨hfar, _⟩ := hplace
      . have hbatch : disk.readBytes (reg.storeLba.toNat * 512 + c.startOff) c.staged
            = w.drop (w.length - c.staged) := by
          rw [hdisk rfl, hpad, hsecs, h.stage, haddr]
          have hdrop : (w.drop (w.length - c.staged)).length = c.staged := by
            rw [List.length_drop]
            omega
          have hsame := Mem.readBytes_writeBytes_same (m := c.disk)
            (reg.storeLba.toNat * 512 + c.startOff) (w.drop (w.length - c.staged))
          rw [hdrop] at hsame
          exact hsame
        have hall : w.length = w.length - c.staged + c.staged := by omega
        have hwhole : min w.length reg.reach = w.length := by omega
        have hpart : min (w.length - c.staged) reg.reach = w.length - c.staged := by omega
        rw [hpart] at hbefore
        rw [hwhole, List.take_length, hall, Mem.readBytes_add, hbefore, ← hstart, hbatch, hstart,
          List.take_append_drop]
      . have hsame : min w.length reg.reach = min (w.length - c.staged) reg.reach := by omega
        rw [hsame]
        exact hbefore
  | false =>
    rw [hok] at hfailed
    refine ⟨⟨?_, h.imgOff, ?_, ?_, ?_, ?_, h.spilled, hfailed, ?_, ?_, htried, ?_, houtside⟩, rfl,
      hfull⟩
    . exact h.fits
    . exact h.received
    . exact h.batches
    . exact h.start
    . dsimp only
      rw [hpad]
      exact h.stage
    . dsimp only
      omega
    . dsimp only
      rw [hcount, successes_add, successes_one, hlast, hok]
      simpa using hflushed
    . exact hbefore

theorem flush_notes (h : WrInv dev reg c₀ w c) (hin : reg.Holds w.length)
    : (storeWrFlush dev reg c).2.spilled = c₀.spilled
        ∧ (storeWrFlush dev reg c).2.transfers = c.transfers + (if c.staged = 0 then 0 else 1)
        ∧ ((storeWrFlush dev reg c).2.failed = false
          ↔ c₀.failed = false ∧ AllOk dev.ok c₀.transfers (storeWrFlush dev reg c).2.transfers)
        ∧ ((storeWrFlush dev reg c).1 = false → (storeWrFlush dev reg c).2.failed = true) := by
  by_cases hzero : c.staged = 0
  . rw [storeWrFlush, if_pos hzero, if_pos hzero]
    exact ⟨h.spilled, rfl, h.failed, fun hbad => absurd hbad.symm Bool.false_ne_true⟩
  . have hsize : storeStageBytes = 65536 := rfl
    have hstart := h.start (by omega)
    obtain ⟨q, hq⟩ := h.batches
    have hreceived := h.received
    have hends := hin.ends
    rw [hsize] at hq
    obtain ⟨hdone, _, heq, _⟩ := @flush_spec dev reg c (by omega) h.fits (by omega)
    rw [heq, hdone, if_neg hzero]
    refine ⟨h.spilled, rfl, ?_, fun hbad => ?_⟩
    . dsimp only
      rw [allOk_succ h.later, ← and_assoc, ← h.failed, Bool.or_eq_false_iff, Bool.not_eq_false']
    . dsimp only
      rw [hbad]
      exact Bool.or_true _

theorem last (h : WrInv dev reg c₀ w c) (hin : reg.Holds w.length) (hreach : w.length ≤ reg.reach)
    : (storeWrFlush dev reg c).2.disk.readBytes (reg.storeLba.toNat * 512) w.length
          = w.take (w.length - c.staged)
            ++ (if dev.ok c.transfers then w.drop (w.length - c.staged) else
              (dev.torn c.transfers).readBytes (reg.storeLba.toNat * 512 + (w.length - c.staged))
                c.staged)
        ∧ ∀ a, a < reg.storeLba.toNat * 512
              ∨ reg.storeLba.toNat * 512 + (w.length + 511) / 512 * 512 ≤ a →
          (storeWrFlush dev reg c).2.disk a = c₀.disk a := by
  have hreceived := h.received
  have hframe₀ := h.frame
  have hsaved := h.saved
  rw [Nat.min_eq_left (by omega)] at hsaved
  by_cases hzero : c.staged = 0
  . unfold storeWrFlush
    rw [if_pos hzero]
    rw [hzero, Nat.sub_zero] at hsaved ⊢
    refine ⟨?_, ?_⟩
    . rw [hsaved]
      split <;> simp
    . intro a ha
      exact hframe₀ a (by omega)
  . have hstart := h.start (by omega)
    have hbatches := h.batches
    rw [← hstart] at hbatches
    have haddr : reg.sector c.startOff * 512 = reg.storeLba.toNat * 512 + c.startOff :=
      StoreRegion.sector_of_lt hbatches (by omega)
    have hend : c.startOff + (c.staged + 511) / 512 * 512 = (w.length + 511) / 512 * 512 := by
      have hsize : storeStageBytes = 65536 := rfl
      obtain ⟨q, hq⟩ := hbatches
      rw [hsize] at hq
      omega
    have hfits := h.fits
    have hends := hin.ends
    obtain ⟨_, disk, heq, hdisk, htorn, hframe⟩ := @flush_spec dev reg c (by omega) hfits (by omega)
    have hpad : c.staged ≤ (c.staged + 511) / 512 * 512 := by omega
    have hbefore : disk.readBytes (reg.storeLba.toNat * 512) (w.length - c.staged)
        = w.take (w.length - c.staged) := by
      rw [← hsaved]
      apply Mem.readBytes_congr
      intro a ha hend
      apply hframe
      rw [haddr]
      omega
    rw [heq]
    refine ⟨?_, ?_⟩
    . dsimp only
      have hall : w.length = w.length - c.staged + c.staged := (Nat.sub_add_cancel hreceived).symm
      have hread : disk.readBytes (reg.storeLba.toNat * 512) w.length
          = w.take (w.length - c.staged)
            ++ disk.readBytes (reg.storeLba.toNat * 512 + c.startOff) c.staged := by
        rw [hstart, ← hbefore, ← Mem.readBytes_add, ← hall]
      rw [hread, ← hstart]
      apply List.append_cancel_left_eq _ _ _ |>.mpr
      have hstage : c.padded.readBytes 0 c.staged = w.drop c.startOff := by
        rw [hstart, ← h.stage]
        unfold StoreWr.padded
        exact Mem.readBytes_writeBytes_disjoint _ (.inl (by omega))
      cases hok : dev.ok c.transfers with
      | true =>
        rw [hdisk hok, haddr, if_pos rfl, ← hstage, readBytes_writeBytes_take (by simpa using hpad),
          Mem.take_readBytes hpad]
      | false =>
        rw [htorn hok, haddr, if_neg Bool.false_ne_true,
          readBytes_writeBytes_take (by simpa using hpad), Mem.take_readBytes hpad]
    . intro a ha
      dsimp only
      rw [hframe a, hframe₀ a (by omega)]
      rw [haddr, Nat.add_assoc, hend]
      exact ha.imp_left (Nat.lt_add_right _)

theorem last_wrapped (h : WrInv dev reg c₀ w c) (hin : reg.Holds w.length)
    (hwrap : reg.reach < w.length)
    : (storeWrFlush dev reg c).2.disk.readBytes (reg.storeLba.toNat * 512) reg.reach = w.take reg.reach
        ∧ ∀ a, reg.storeLba.toNat * 512 + reg.reach ≤ a →
          (storeWrFlush dev reg c).2.disk a = c₀.disk a := by
  have hsize : storeStageBytes = 65536 := rfl
  have hfits := h.fits
  have hreceived := h.received
  have hends := hin.ends
  have hsmall := hin.small
  have hsaved := h.saved
  by_cases hzero : c.staged = 0
  . rw [storeWrFlush, if_pos hzero]
    rw [hzero, Nat.sub_zero, Nat.min_eq_right (Nat.le_of_lt hwrap)] at hsaved
    exact ⟨hsaved, fun a ha => h.frame a (by omega)⟩
  . have hstart := h.start (by omega)
    have hbatches := h.batches
    rw [← hstart] at hbatches
    have hplace := reg.sector_cases hbatches (by omega)
    obtain ⟨q, hq⟩ := hbatches
    rw [hsize] at hq
    rw [Nat.min_eq_right (by omega)] at hsaved
    obtain ⟨_, disk, heq, _, _, hframe⟩ := @flush_spec dev reg c (by omega) hfits (by omega)
    rw [heq]
    refine ⟨?_, fun a ha => ?_⟩
    . rw [← hsaved]
      apply Mem.readBytes_congr
      intro a ha hend
      apply hframe
      omega
    . dsimp only
      rw [hframe a (by omega), h.frame a (by omega)]

theorem last_far (h : WrInv dev reg c₀ w c) (hin : reg.Holds w.length) (hn : w.length = reg.reach + 1)
    (hok : dev.ok c.transfers = true)
    : (storeWrFlush dev reg c).2.disk.readBytes (reg.sector reg.reach * 512) 1 = w.drop reg.reach := by
  have hsize : storeStageBytes = 65536 := rfl
  have hfits := h.fits
  have hreceived := h.received
  have hends := hin.ends
  have hstaged : c.staged = 1 := by
    obtain ⟨q, hq⟩ := h.batches
    obtain ⟨m, hm⟩ := reg.reach_dvd
    rw [hsize] at *
    omega
  have hstart : c.startOff = reg.reach := by
    rw [h.start (by omega), hn, hstaged, Nat.add_sub_cancel]
  have hstage : c.padded.readBytes 0 1 = w.drop reg.reach := by
    have hsame := h.stage
    rw [hstaged, hn, Nat.add_sub_cancel] at hsame
    rw [← hsame]
    unfold StoreWr.padded
    exact Mem.readBytes_writeBytes_disjoint _ (.inl (by omega))
  have hsecs : (c.staged + 511) / 512 * 512 = 512 := by
    rw [hstaged]
  have hspace : c.startOff / 512 + (c.staged + 511) / 512 ≤ (w.length + 511) / 512 := by omega
  obtain ⟨_, disk, heq, hdisk, _⟩ := @flush_spec dev reg c (by omega) hfits (by omega)
  rw [heq]
  dsimp only
  rw [hdisk hok, hstart, hsecs, readBytes_writeBytes_take (by simp), Mem.take_readBytes (by omega), hstage]

theorem turn {data : Bytes} (h : WrInv dev reg c₀ w c)
    (hin : reg.Holds (w ++ data).length)
    : WrInv dev reg c₀ (w ++ data.take (c.take data)) (storeWrTurn dev reg c data)
        ∧ if c.staged + c.take data = storeStageBytes then
            (storeWrTurn dev reg c data).transfers = c.transfers + 1
              ∧ (storeWrTurn dev reg c data).staged
                = if dev.ok c.transfers then 0 else storeStageBytes
          else
            (storeWrTurn dev reg c data).transfers = c.transfers
              ∧ (storeWrTurn dev reg c data).staged = c.staged + c.take data := by
  have htake : c.take data = min (storeStageBytes - c.staged) data.length := rfl
  have hfits := h.fits
  have hreceived := h.received
  unfold storeWrTurn
  dsimp only
  generalize c.take data = t at *
  have hlen : (data.take t).length = t := by
    rw [List.length_take]
    omega
  have hw : (w ++ data.take t).length = w.length + t := by rw [List.length_append, hlen]
  have hrest : w.length + t - (c.staged + t) = w.length - c.staged := by omega
  generalize hc₁ : (if c.staged = 0 then { c with startOff := c.imgOff } else c) = c₁
  have hsame : c₁ = { c with startOff := c₁.startOff } := by
    rw [← hc₁]
    split <;> rfl
  have hstart : 0 < c.staged + t → c₁.startOff = w.length - c.staged := by
    intro _
    rw [← hc₁]
    split
    . next hzero =>
      dsimp only
      rw [h.imgOff]
      omega
    . next hpos => exact h.start (by omega)
  have hspill : ¬(0 < t ∧ storeStageBytes < c.staged + t) := by omega
  have hput : c₁.stageBytes c₁.staged (data.take t)
      = { c with startOff := c₁.startOff, stage := c.stage.writeBytes c.staged (data.take t) } := by
    rw [hsame]
    unfold StoreWr.stageBytes
    rw [hlen, decide_eq_false hspill, Bool.or_false]
  rw [hput]
  have hinv : WrInv dev reg c₀ (w ++ data.take t)
      { c with
        startOff := c₁.startOff, stage := c.stage.writeBytes c.staged (data.take t)
        staged := c.staged + t, imgOff := c.imgOff + t } := by
    refine ⟨?_, ?_, ?_, ?_, ?_, ?_, h.spilled, h.failed, h.later, ?_, ?_, ?_, ?_⟩
    . dsimp only
      omega
    . dsimp only
      rw [hw, h.imgOff]
    . dsimp only
      omega
    . dsimp only
      rw [hw, hrest]
      exact h.batches
    . dsimp only
      rw [hw, hrest]
      exact hstart
    . dsimp only
      have hnew := Mem.readBytes_writeBytes_same (m := c.stage) c.staged (data.take t)
      rw [hlen] at hnew
      rw [Mem.readBytes_add, Nat.zero_add, hnew, Mem.readBytes_writeBytes_disjoint _ (.inl (by omega)),
        h.stage, hw, hrest, List.drop_append_of_le_length (by omega)]
    . dsimp only
      rw [hw, ← h.flushed]
      omega
    . intro k hk
      have := h.tried k hk
      omega
    . dsimp only
      rw [hw, hrest, List.take_append_of_le_length (by omega)]
      exact h.saved
    . intro a ha
      exact h.frame a (by omega)
  split
  . next hfull =>
    have hends : reg.Holds (w ++ data.take t).length := by
      apply hin.mono
      rw [hw, List.length_append]
      omega
    obtain ⟨hflushed, htransfers, hstaged⟩ := hinv.flush hfull hends
    exact ⟨hflushed, htransfers, hstaged⟩
  . exact ⟨hinv, rfl, rfl⟩

theorem sink {data : Bytes} (h : WrInv dev reg c₀ w c) (hin : reg.Holds (w ++ data).length)
    (fuel : Nat)
    : ∃ w', WrInv dev reg c₀ w' (storeWrSink dev reg fuel c data).2 ∧ w' <+: w ++ data
        ∧ ((storeWrSink dev reg fuel c data).1 → w' = w ++ data) := by
  induction fuel generalizing w c data with
  | zero => exact ⟨w, h, List.prefix_append _ _, fun hbad => absurd hbad Bool.false_ne_true⟩
  | succ fuel ih =>
    unfold storeWrSink
    split
    . next hnil =>
      refine ⟨w, h, List.prefix_append _ _, fun _ => ?_⟩
      rw [hnil, List.append_nil]
    . have happ : w ++ data.take (c.take data) ++ data.drop (c.take data) = w ++ data := by
        rw [List.append_assoc, List.take_append_drop]
      obtain ⟨w', hinv, hpre, hended⟩ := ih (h.turn hin).1 (by rw [happ]; exact hin)
      rw [happ] at hpre
      exact ⟨w', hinv, hpre, fun he => (hended he).trans happ⟩

end WrInv

/--
How many flushes have to succeed before `len` more bytes are taken.
-/
def flushesNeeded (staged len : Nat) : Nat :=
  if len = 0 then 0 else (staged + len - 1) / storeStageBytes

section Ends

variable {dev : StoreBackend} {reg : StoreRegion} {c₀ c : StoreWr} {w : Bytes}

theorem storeWrSink_mono {fuel fuel' : Nat} {data : Bytes} (hle : fuel ≤ fuel')
    (h : (storeWrSink dev reg fuel c data).1 = true)
    : storeWrSink dev reg fuel' c data = storeWrSink dev reg fuel c data := by
  induction fuel generalizing fuel' c data with
  | zero => contradiction
  | succ fuel ih =>
    cases fuel' with
    | zero => contradiction
    | succ fuel' =>
      rw [storeWrSink] at h ⊢
      rw [storeWrSink]
      split
      . rfl
      . next hne =>
        rw [if_neg hne] at h
        exact ih (by omega) h

theorem storeWrSink_ends {data : Bytes} (h : WrInv dev reg c₀ w c) (hin : reg.Holds (w ++ data).length)
    {n : Nat} (hok : flushesNeeded c.staged data.length ≤ successes dev.ok c.transfers n)
    : ∃ fuel, (storeWrSink dev reg fuel c data).1 = true := by
  have hsize : storeStageBytes = 65536 := rfl
  generalize hm : data.length + n = m
  induction m using Nat.strong_induction_on generalizing w c data n with
  | _ m ih =>
    by_cases hnil : data = []
    . exact ⟨1, by rw [storeWrSink, if_pos hnil]⟩
    . have hpos : 0 < data.length := List.length_pos_iff.mpr hnil
      have hfits := h.fits
      obtain ⟨hinv, hturn⟩ := h.turn hin
      have happ : w ++ data.take (c.take data) ++ data.drop (c.take data) = w ++ data := by
        rw [List.append_assoc, List.take_append_drop]
      have htake : c.take data = min (storeStageBytes - c.staged) data.length := rfl
      have hdrop : (data.drop (c.take data)).length = data.length - c.take data := List.length_drop
      unfold flushesNeeded at hok
      rw [if_neg (by omega), hsize] at hok
      rw [← happ] at hin
      -- a turn takes bytes or spends a transfer
      have hgo : ∀ n', flushesNeeded (storeWrTurn dev reg c data).staged (data.drop (c.take data)).length
            ≤ successes dev.ok (storeWrTurn dev reg c data).transfers n' →
          (data.drop (c.take data)).length + n' < m → ∃ fuel, (storeWrSink dev reg fuel c data).1 = true := by
        intro n' hneed hlt
        obtain ⟨fuel, hfuel⟩ := ih _ hlt hinv hin hneed rfl
        exact ⟨fuel + 1, by rw [storeWrSink, if_neg hnil]; exact hfuel⟩
      split at hturn
      . next hfull =>
        obtain ⟨htransfers, hstaged⟩ := hturn
        cases n with
        | zero =>
          rw [successes_zero] at hok
          apply hgo 0
          . unfold flushesNeeded
            rw [if_pos (by omega)]
            exact Nat.zero_le _
          . omega
        | succ n =>
          rw [Nat.add_comm n 1, successes_add, successes_one] at hok
          apply hgo n
          . rw [htransfers, hstaged]
            unfold flushesNeeded
            rw [hsize]
            cases hgood : dev.ok c.transfers with
            | true =>
              rw [hgood] at hok
              simp only [↓reduceIte] at hok ⊢
              split <;> omega
            | false =>
              rw [hgood] at hok
              simp only [Bool.false_eq_true, ↓reduceIte] at hok ⊢
              split <;> omega
          . omega
      . next hroom =>
        obtain ⟨htransfers, hstaged⟩ := hturn
        apply hgo n
        . unfold flushesNeeded
          rw [if_pos (by omega)]
          exact Nat.zero_le _
        . omega

theorem WrInv.needed {len : Nat} (h : WrInv dev reg c₀ w c)
    (hok : Enough dev.ok c₀.transfers ((w.length + len - 1) / storeStageBytes))
    : Enough dev.ok c.transfers (flushesNeeded c.staged len) := by
  have hsize : storeStageBytes = 65536 := rfl
  have hflushed := h.flushed
  have hlater := h.later
  have hafter := hok.after (c.transfers - c₀.transfers)
  have htime : c₀.transfers + (c.transfers - c₀.transfers) = c.transfers := by omega
  rw [htime] at hafter
  apply hafter.mono
  unfold flushesNeeded
  rw [hsize] at hflushed ⊢
  split <;> omega

theorem WrInv.enough (h : WrInv dev reg c₀ w c)
    : Enough dev.ok c₀.transfers ((w.length - 1) / storeStageBytes) := by
  have hsize : storeStageBytes = 65536 := rfl
  have hfits := h.fits
  have hflushed := h.flushed
  refine ⟨c.transfers - c₀.transfers, ?_⟩
  rw [hsize] at *
  omega

def sinkAll (dev : StoreBackend) (reg : StoreRegion) (fuel : Nat) (r : Bool × StoreWr)
    (pieces : List Bytes) : Bool × StoreWr :=
  pieces.foldl (fun r bs => if r.1 then storeWrSink dev reg fuel r.2 bs else r) r

theorem sinkAll_stopped {fuel : Nat} {r : Bool × StoreWr} {pieces : List Bytes} (h : r.1 = false)
    : sinkAll dev reg fuel r pieces = r := by
  unfold sinkAll
  induction pieces with
  | nil => rfl
  | cons p pieces ih =>
    rw [List.foldl_cons, h, if_neg Bool.false_ne_true]
    exact ih

theorem sinkAll_cons {fuel : Nat} {p : Bytes} {pieces : List Bytes}
    : sinkAll dev reg fuel (true, c) (p :: pieces)
        = sinkAll dev reg fuel (storeWrSink dev reg fuel c p) pieces := rfl

theorem sinkAll_inv {pieces : List Bytes} (h : WrInv dev reg c₀ w c)
    (hin : reg.Holds (w ++ pieces.flatten).length) (fuel : Nat)
    : ∃ w', WrInv dev reg c₀ w' (sinkAll dev reg fuel (true, c) pieces).2
        ∧ w' <+: w ++ pieces.flatten ∧ ((sinkAll dev reg fuel (true, c) pieces).1 → w' = w ++ pieces.flatten) := by
  induction pieces generalizing w c with
  | nil => exact ⟨w, h, List.prefix_append _ _, fun _ => by simp⟩
  | cons p pieces ih =>
    have happ : w ++ p ++ pieces.flatten = w ++ (p :: pieces).flatten := by simp
    have hpiece : reg.Holds (w ++ p).length := by
      apply hin.mono
      rw [← happ, @List.length_append _ (w ++ p)]
      exact Nat.le_add_right _ _
    obtain ⟨w', hinv, hpre, hended⟩ := h.sink hpiece fuel
    rw [sinkAll_cons]
    generalize storeWrSink dev reg fuel c p = r at *
    obtain ⟨ended, c'⟩ := r
    cases ended with
    | false =>
      rw [sinkAll_stopped rfl]
      refine ⟨w', hinv, ?_, fun hbad => absurd hbad Bool.false_ne_true⟩
      rw [← happ]
      exact hpre.trans (List.prefix_append _ _)
    | true =>
      rw [hended rfl] at hinv
      obtain ⟨w'', hinv', hpre', hended'⟩ := ih hinv (by rw [happ]; exact hin)
      rw [happ] at hpre'
      exact ⟨w'', hinv', hpre', fun he => (hended' he).trans happ⟩

theorem sinkAll_ends {pieces : List Bytes} (h : WrInv dev reg c₀ w c)
    (hin : reg.Holds (w ++ pieces.flatten).length)
    (hok : Enough dev.ok c₀.transfers (((w ++ pieces.flatten).length - 1) / storeStageBytes))
    : ∃ fuel, ∀ fuel', fuel ≤ fuel' → (sinkAll dev reg fuel' (true, c) pieces).1 = true := by
  induction pieces generalizing w c with
  | nil => exact ⟨0, fun _ _ => rfl⟩
  | cons p pieces ih =>
    have happ : w ++ p ++ pieces.flatten = w ++ (p :: pieces).flatten := by simp
    have hlen : (w ++ p).length + pieces.flatten.length = (w ++ (p :: pieces).flatten).length := by
      rw [← happ, @List.length_append _ (w ++ p)]
    have hpiece : reg.Holds (w ++ p).length := hin.mono (by omega)
    have hfirst : Enough dev.ok c₀.transfers ((w.length + p.length - 1) / storeStageBytes) := by
      apply hok.mono
      apply Nat.div_le_div_right
      rw [List.length_append] at hlen
      omega
    obtain ⟨n, hn⟩ := h.needed hfirst
    obtain ⟨fuel, hfuel⟩ := storeWrSink_ends h hpiece hn
    obtain ⟨w', hinv, _, hended⟩ := h.sink hpiece fuel
    rw [hended hfuel] at hinv
    obtain ⟨fuel', hfuel'⟩ := ih hinv (by rw [happ]; exact hin) (by rw [happ]; exact hok)
    refine ⟨max fuel fuel', fun fuel'' hle => ?_⟩
    rw [sinkAll_cons, storeWrSink_mono (by omega) hfuel]
    have hpair : storeWrSink dev reg fuel c p = (true, (storeWrSink dev reg fuel c p).2) :=
      Prod.ext hfuel rfl
    rw [hpair]
    exact hfuel' fuel'' (by omega)

end Ends

end TanjaOS
