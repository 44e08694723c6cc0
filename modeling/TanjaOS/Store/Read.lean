import TanjaOS.Store.Persist

/-!
The image as a stream of bytes: what has gone through `store_wr_sink` in pieces of any lengths comes
back from `store_rd_fill` in requests of any lengths.
-/

open Lib

namespace TanjaOS

/--
`store_rd_ctx` and the staging buffer.
-/
structure StoreRd where
  imgOff : Nat
  imgEnd : Nat
  winOff : Nat
  winLen : Nat
  stage : Mem

section Read

variable (reg : StoreRegion) (disk : Mem)

/--
The loop of `store_backend_read`, which stores the bytes from `p` on.
-/
def storeReads : Nat → Nat → Nat → Nat → Mem → Mem
  | 0, _, _, _, buf => buf
  | fuel + 1, lba, count, p, buf =>
    if count = 0 then
      buf
    else
      let chunk := min count 255
      storeReads fuel ((lba + chunk) % 2 ^ 32) (count - chunk) (p + chunk * 512)
        (buf.writeBytes p (disk.readBytes (lba * 512) (chunk * 512)))

def storeBackendRead (lba count : Nat) (buf : Mem) : Option Mem :=
  if count = 0 then
    none
  else if reg.storeDiskSectors < lba + count then
    none
  else
    some (storeReads disk count lba count 0 buf)

/--
The window around the next byte, refilled from the disk if it is not in there.
-/
def storeRdWindow (c : StoreRd) : Option StoreRd :=
  let offInWin := (c.imgOff + 2 ^ 32 - c.winOff) % 2 ^ 32
  if c.winLen = 0 ∨ c.winLen ≤ offInWin then
    let sec := c.imgOff / 512
    let maxSecs := (c.imgEnd + 2 ^ 32 - sec * 512 + 511) % 2 ^ 32 / 512
    let n := max (min maxSecs 128) 1
    (storeBackendRead reg disk (reg.sector c.imgOff) n c.stage).map (fun stage =>
      { c with winOff := sec * 512, winLen := n * 512, stage := stage })
  else
    some c

/--
The result is `none` when the loop has not ended after `fuel` turns.
-/
def storeRdLoop : Nat → StoreRd → Nat → Bytes → Option Int × Bytes × StoreRd
  | 0, c, _, dst => (none, dst, c)
  | fuel + 1, c, len, dst =>
    if len = 0 then
      (some 0, dst, c)
    else if c.imgEnd < (c.imgOff + len) % 2 ^ 32 then
      (some (-1), dst, c)
    else
      match storeRdWindow reg disk c with
      | none => (some (-1), dst, c)
      | some c =>
        let offInWin := (c.imgOff + 2 ^ 32 - c.winOff) % 2 ^ 32
        let take := min (c.winLen - offInWin) len
        storeRdLoop fuel { c with imgOff := (c.imgOff + take) % 2 ^ 32 } (len - take)
          (dst ++ c.stage.readBytes offInWin take)

def storeRdFill (c : StoreRd) (len : Nat) : Option Int × Bytes × StoreRd :=
  storeRdLoop reg disk (len + 1) c len []

/--
One request after the other: what each returns, and the bytes of those that return 0.
-/
def storeRequests : StoreRd → List Nat → List (Option Int × Bytes)
  | _, [] => []
  | c, len :: lens =>
    let r := storeRdFill reg disk c len
    (r.1, if r.1 = some 0 then r.2.1 else []) :: storeRequests r.2.2 lens

end Read

/--
The reader of an image of `n` bytes, from its byte `o` on.
-/
def rdStart (o n : Nat) (stage : Mem) : StoreRd where
  imgOff := o
  imgEnd := n
  winOff := 0
  winLen := 0
  stage := stage

/--
What the requests are to return: a request that goes past the end of `w` is refused, any other one
delivers the bytes that come next.
-/
def byteRequests (w : Bytes) : Nat → List Nat → List (Option Int × Bytes)
  | _, [] => []
  | o, len :: lens =>
    if w.length < o + len then
      (some (-1), []) :: byteRequests w o lens
    else
      (some 0, (w.drop o).take len) :: byteRequests w (o + len) lens

section Window

variable {reg : StoreRegion} {disk : Mem} {c : StoreRd} {w : Bytes}

theorem storeReads_batch {lba count : Nat} {buf : Mem} (hpos : 0 < count) (hle : count ≤ 255)
    : storeReads disk count lba count 0 buf
        = buf.writeBytes 0 (disk.readBytes (lba * 512) (count * 512)) := by
  obtain ⟨n, rfl⟩ := Nat.exists_eq_succ_of_ne_zero (Nat.ne_of_gt hpos)
  have hchunk : min (n + 1) 255 = n + 1 := by omega
  rw [Nat.succ_eq_add_one, storeReads, if_neg (by omega), hchunk]
  dsimp only
  rw [Nat.sub_self]
  cases n with
  | zero => rfl
  | succ n => rw [storeReads, if_pos rfl]

/--
The window shows a part of the disk that begins at or before the next byte.
-/
structure RdInv (reg : StoreRegion) (disk : Mem) (n : Nat) (c : StoreRd) : Prop where
  imgEnd : c.imgEnd = n
  imgOff : c.imgOff ≤ n
  winOff : c.winOff ≤ c.imgOff
  window : c.stage.readBytes 0 c.winLen = disk.readBytes (reg.storeLba.toNat * 512 + c.winOff) c.winLen

/--
All sectors of an image of `n` bytes are on the disk and below sector `2 ^ 32`.
-/
structure StoreRegion.Within (reg : StoreRegion) (n : Nat) : Prop where
  ends : reg.storeLba.toNat + (n + 511) / 512 ≤ reg.storeDiskSectors
  below : reg.storeLba.toNat + (n + 511) / 512 ≤ 2 ^ 32
  small : n + 511 < 2 ^ 32

theorem rdStart_inv {o n : Nat} {stage : Mem} (h : o ≤ n)
    : RdInv reg disk n (rdStart o n stage) where
  imgEnd := rfl
  imgOff := h
  winOff := Nat.zero_le o
  window := rfl

theorem storeRdWindow_spec {n : Nat} (h : RdInv reg disk n c) (hmore : c.imgOff < n)
    (hin : reg.Within n)
    : ∃ c', storeRdWindow reg disk c = some c' ∧ RdInv reg disk n c' ∧ c'.imgOff = c.imgOff
        ∧ c'.imgOff - c'.winOff < c'.winLen := by
  have hend := h.imgEnd
  have hoff := h.winOff
  have hends := hin.ends
  have hbelow := hin.below
  have hsmall := hin.small
  have hwin : (c.imgOff + 2 ^ 32 - c.winOff) % 2 ^ 32 = c.imgOff - c.winOff := by omega
  unfold storeRdWindow
  dsimp only
  rw [hwin]
  split
  . have hsecs : (c.imgEnd + 2 ^ 32 - c.imgOff / 512 * 512 + 511) % 2 ^ 32 / 512
        = (n - c.imgOff / 512 * 512 + 511) / 512 := by
      omega
    rw [hsecs]
    generalize hcount : max (min ((n - c.imgOff / 512 * 512 + 511) / 512) 128) 1 = count
    have hsector : reg.sector c.imgOff = reg.storeLba.toNat + c.imgOff / 512 :=
      Nat.mod_eq_of_lt (by omega)
    have hfits : ¬reg.storeDiskSectors < reg.sector c.imgOff + count := by omega
    unfold storeBackendRead
    rw [if_neg (by omega), if_neg hfits, storeReads_batch (by omega) (by omega), Option.map_some]
    refine ⟨_, rfl, ⟨hend, h.imgOff, ?_, ?_⟩, rfl, ?_⟩
    . dsimp only
      omega
    . dsimp only
      have hsame := @Mem.readBytes_writeBytes_same c.stage 0
        (disk.readBytes (reg.sector c.imgOff * 512) (count * 512))
      rw [Mem.length_readBytes] at hsame
      rw [hsame, hsector, Nat.add_mul]
    . dsimp only
      omega
  . next hin' =>
    refine ⟨c, rfl, h, rfl, ?_⟩
    omega

theorem storeRdLoop_spec {n len fuel : Nat} {dst : Bytes} (h : RdInv reg disk n c)
    (hle : c.imgOff + len ≤ n) (hin : reg.Within n) (hfuel : len < fuel)
    : ∃ c', storeRdLoop reg disk fuel c len dst
          = (some 0, dst ++ disk.readBytes (reg.storeLba.toNat * 512 + c.imgOff) len, c')
        ∧ RdInv reg disk n c' ∧ c'.imgOff = c.imgOff + len := by
  induction fuel generalizing c len dst with
  | zero => contradiction
  | succ fuel ih =>
    unfold storeRdLoop
    by_cases hlen : len = 0
    . subst hlen
      refine ⟨c, ?_, h, rfl⟩
      rw [if_pos rfl]
      simp
    . have hend := h.imgEnd
      have hsmall := hin.small
      have hsum : ¬c.imgEnd < (c.imgOff + len) % 2 ^ 32 := by omega
      obtain ⟨c', hc', hinv, hsame, hwin⟩ := storeRdWindow_spec h (by omega) hin
      have hoff := hinv.winOff
      have hinWin : (c'.imgOff + 2 ^ 32 - c'.winOff) % 2 ^ 32 = c'.imgOff - c'.winOff := by omega
      rw [if_neg hlen, if_neg hsum, hc']
      dsimp only
      rw [hinWin]
      generalize htake : min (c'.winLen - (c'.imgOff - c'.winOff)) len = take
      have hnext : (c'.imgOff + take) % 2 ^ 32 = c.imgOff + take := by omega
      -- the bytes come from the window
      have hbytes : c'.stage.readBytes (c'.imgOff - c'.winOff) take
          = disk.readBytes (reg.storeLba.toNat * 512 + c.imgOff) take := by
        have hwhole := congrArg (fun bs => (bs.drop (c'.imgOff - c'.winOff)).take take) hinv.window
        rw [Mem.drop_readBytes (by omega), Mem.take_readBytes (by omega), Mem.drop_readBytes (by omega),
          Mem.take_readBytes (by omega), Nat.zero_add, Nat.add_assoc] at hwhole
        rw [hwhole]
        congr 1
        omega
      rw [hnext, hbytes]
      have hinv' : RdInv reg disk n { c' with imgOff := c.imgOff + take } :=
        ⟨hinv.imgEnd, by dsimp only; omega, by dsimp only; omega, hinv.window⟩
      have hrest : c.imgOff + take + (len - take) ≤ n := by omega
      obtain ⟨c'', hrun, hdone, hpos⟩ := @ih _ (len - take)
        (dst ++ disk.readBytes (reg.storeLba.toNat * 512 + c.imgOff) take) hinv' hrest (by omega)
      refine ⟨c'', ?_, hdone, ?_⟩
      . rw [hrun]
        dsimp only
        have hsplit : len = take + (len - take) := by omega
        conv => rhs; rw [hsplit, Mem.readBytes_add]
        rw [List.append_assoc, Nat.add_assoc]
      . rw [hpos]
        dsimp only
        omega

theorem storeRdFill_refused {n len : Nat} (h : RdInv reg disk n c) (hgt : n < c.imgOff + len)
    (hsmall : n + len < 2 ^ 32) : storeRdFill reg disk c len = (some (-1), [], c) := by
  have hend := h.imgEnd
  have hoff := h.imgOff
  have hpast : c.imgEnd < (c.imgOff + len) % 2 ^ 32 := by omega
  rw [storeRdFill, storeRdLoop, if_neg (by omega), if_pos hpast]

theorem storeRequests_spec {lens : List Nat} (h : RdInv reg disk w.length c)
    (hdisk : disk.readBytes (reg.storeLba.toNat * 512) w.length = w) (hin : reg.Within w.length)
    (hsmall : ∀ len ∈ lens, w.length + len < 2 ^ 32)
    : storeRequests reg disk c lens = byteRequests w c.imgOff lens := by
  induction lens generalizing c with
  | nil => rfl
  | cons len lens ih =>
    have hrest : ∀ len' ∈ lens, w.length + len' < 2 ^ 32 :=
      fun len' hmem => hsmall len' (List.mem_cons_of_mem _ hmem)
    unfold storeRequests byteRequests
    dsimp only
    by_cases hgt : w.length < c.imgOff + len
    . rw [if_pos hgt, storeRdFill_refused h hgt (hsmall len List.mem_cons_self)]
      dsimp only
      rw [if_neg (by decide), ih h hrest]
    . obtain ⟨c', hrun, hinv, hpos⟩ :=
        @storeRdLoop_spec reg disk c w.length len (len + 1) [] h (by omega) hin (Nat.lt_succ_self len)
      have hbytes : disk.readBytes (reg.storeLba.toNat * 512 + c.imgOff) len
          = (w.drop c.imgOff).take len := by
        conv => rhs; rw [← hdisk]
        rw [Mem.drop_readBytes h.imgOff, Mem.take_readBytes (by omega)]
      rw [if_neg hgt, storeRdFill, hrun]
      dsimp only
      rw [if_pos rfl, ih hinv hrest, hpos, hbytes, List.nil_append]

end Window

section Stream

variable {dev : StoreBackend} {reg : StoreRegion} {c₀ : StoreWr} {pieces : List Bytes}

variable (dev reg c₀ pieces)

/--
A stream of bytes is written, to its own sectors only, and read back by all requests of allowed
lengths.
-/
def ReadsBack (allowed : Nat → Prop) : Prop :=
  ∃ fuel, ∀ fuel', fuel ≤ fuel' → ∃ c c',
    sinkAll dev reg fuel' (true, c₀) pieces = (true, c) ∧ storeWrFlush dev reg c = (true, c')
    ∧ (∀ a, a < reg.storeLba.toNat * 512
          ∨ reg.storeLba.toNat * 512 + (pieces.flatten.length + 511) / 512 * 512 ≤ a →
        c'.disk a = c₀.disk a)
    ∧ ∀ o lens, o ≤ pieces.flatten.length → (∀ len ∈ lens, allowed len) →
      storeRequests reg c'.disk (rdStart o pieces.flatten.length c'.stage) lens
        = byteRequests pieces.flatten o lens

variable {dev reg c₀ pieces}

/--
The backend makes every transfer, no sector of the image is behind `2 ^ 32`, and no request is so long
that its end wraps around.
-/
theorem stream_read_back (hok : ∀ k, dev.ok k = true) (hdisk : reg.OnDisk)
    (hcap : reg.storeCapacitySectors * 512 < 2 ^ 32) (himgOff : c₀.imgOff = 0)
    (hstaged : c₀.staged = 0)
    (hfits : (pieces.flatten.length + 511) / 512 ≤ reg.storeCapacitySectors)
    (hbelow : reg.storeLba.toNat + (pieces.flatten.length + 511) / 512 ≤ 2 ^ 32)
    : ReadsBack dev reg c₀ pieces (fun len => pieces.flatten.length + len < 2 ^ 32) := by
  unfold StoreRegion.OnDisk at hdisk
  have hwithin : reg.Within pieces.flatten.length := ⟨by omega, hbelow, by omega⟩
  have hin : reg.Holds pieces.flatten.length := ⟨hwithin.ends, by omega⟩
  have hreach : pieces.flatten.length ≤ reg.reach := StoreRegion.le_reach hbelow
  have hstart : WrInv dev reg c₀ [] c₀ := .refl himgOff hstaged
  have hempty : reg.Holds ([] ++ pieces.flatten).length := hin
  obtain ⟨fuel, hfuel⟩ := sinkAll_ends hstart hempty (enough_of_all hok _ _)
  refine ⟨fuel, fun fuel' hle => ?_⟩
  have hended := hfuel fuel' hle
  obtain ⟨w, hinv, _, hw⟩ := sinkAll_inv hstart hempty fuel'
  rw [hw hended, List.nil_append] at hinv
  obtain ⟨hsaved, hframe⟩ := hinv.last hin hreach
  rw [hok, if_pos rfl, List.take_append_drop] at hsaved
  refine ⟨_, _, Prod.ext hended rfl, Prod.ext ?_ rfl, hframe, fun o lens ho hsmall => ?_⟩
  . by_cases hzero : (sinkAll dev reg fuel' (true, c₀) pieces).2.staged = 0
    . rw [storeWrFlush, if_pos hzero]
    . rw [hinv.flush_done hin (Nat.pos_of_ne_zero hzero), hok]
  . exact storeRequests_spec (rdStart_inv ho) hsaved hwithin hsmall

section Example

/-!
An image of eight bytes on a disk of one sector, in two pieces.
-/

def oneSector : StoreRegion where
  storeLba := 0
  storeCapacitySectors := 1
  storeDiskSectors := 1
  buildIdLo := 1
  buildIdHi := 0

def emptyWr : StoreWr where
  imgOff := 0
  staged := 0
  startOff := 0
  failed := false
  stage _ := 0
  disk _ := 0
  transfers := 0
  spilled := false

def twoPieces : List Bytes :=
  [[1, 2, 3], [4, 5, 6, 7, 8]]

theorem storeRdLoop_wrapped (disk stage : Mem) {len : Nat} (hlen : len = 2 ^ 32 - 1) (k : Nat)
    : (storeRdLoop oneSector disk (k + 2) (rdStart 1 8 stage) len []).1 = some (-1)
        ∧ (storeRdLoop oneSector disk (k + 2) (rdStart 1 8 stage) len []).2.2.imgOff = 512
        ∧ (storeRdLoop oneSector disk (k + 2) (rdStart 1 8 stage) len []).2.2.imgEnd = 8 := by
  -- the first turn takes the rest of the sector, the second one finds no other
  have hwin : storeRdWindow oneSector disk (rdStart 1 8 stage)
      = some ⟨1, 8, 0, 512, storeReads disk 1 0 1 0 stage⟩ := by
    have hsecs : (8 + 2 ^ 32 - 1 / 512 * 512 + 511) % 2 ^ 32 / 512 = 1 := by omega
    unfold storeRdWindow rdStart
    dsimp only
    rw [if_pos (.inl rfl), hsecs]
    rfl
  have hwin' : storeRdWindow oneSector disk ⟨512, 8, 0, 512, storeReads disk 1 0 1 0 stage⟩ = none := by
    have hsecs : (8 + 2 ^ 32 - 512 / 512 * 512 + 511) % 2 ^ 32 / 512 = 0 := by omega
    have hoff : (512 + 2 ^ 32 - 0) % 2 ^ 32 = 512 := by omega
    unfold storeRdWindow
    dsimp only
    rw [hoff, if_pos (.inr (Nat.le_refl 512)), hsecs]
    rfl
  have htake : min (512 - (1 + 2 ^ 32 - 0) % 2 ^ 32) len = 511 := by omega
  have hnext : (1 + 511) % 2 ^ 32 = 512 := by omega
  have hsum : ¬(rdStart 1 8 stage).imgEnd < ((rdStart 1 8 stage).imgOff + len) % 2 ^ 32 := by
    unfold rdStart
    dsimp only
    omega
  have hsum' : ¬8 < (512 + (len - 511)) % 2 ^ 32 := by omega
  rw [storeRdLoop, if_neg (by omega), if_neg hsum, hwin]
  dsimp only
  rw [htake, hnext, storeRdLoop, if_neg (by omega), if_neg hsum', hwin']
  exact ⟨rfl, rfl, rfl⟩

theorem storeRequests_wrapped (disk stage : Mem) {len : Nat} (hlen : len = 2 ^ 32 - 1)
    : (storeRequests oneSector disk (rdStart 1 8 stage) [len, 2]).map Prod.fst
        = [some (-1), some (-1)] := by
  obtain ⟨k, hk⟩ : ∃ k, len + 1 = k + 2 := ⟨len - 1, by omega⟩
  obtain ⟨hrefused, hoff, hend⟩ := storeRdLoop_wrapped disk stage hlen k
  simp only [storeRequests, storeRdFill, hk, List.map_cons, List.map_nil]
  generalize storeRdLoop oneSector disk (k + 2) (rdStart 1 8 stage) len [] = r at *
  have hnext : (storeRdLoop oneSector disk (2 + 1) r.2.2 2 []).1 = some (-1) := by
    rw [storeRdLoop, if_neg (by decide), if_pos (by rw [hoff, hend]; decide)]
  rw [hrefused, hnext]

end Example

theorem stream_read_back_bytes
    : ∃ fuel, ∀ fuel', fuel ≤ fuel' → ∃ c c',
        sinkAll soundDisk oneSector fuel' (true, emptyWr) twoPieces = (true, c)
        ∧ storeWrFlush soundDisk oneSector c = (true, c')
        ∧ (∀ a, a < 0 ∨ 512 ≤ a → c'.disk a = 0)
        ∧ storeRequests oneSector c'.disk (rdStart 2 8 c'.stage) [1, 9, 0, 3]
          = [(some 0, [3]), (some (-1), []), (some 0, []), (some 0, [4, 5, 6])] := by
  obtain ⟨fuel, hfuel⟩ := @stream_read_back soundDisk oneSector emptyWr twoPieces (fun _ => rfl)
    (by unfold StoreRegion.OnDisk; decide) (by decide) rfl rfl (by decide) (by decide)
  refine ⟨fuel, fun fuel' hle => ?_⟩
  obtain ⟨c, c', hsink, hflush, hframe, hread⟩ := hfuel fuel' hle
  exact ⟨c, c', hsink, hflush, hframe, hread 2 [1, 9, 0, 3] (by decide) (by decide)⟩

section Example

/-!
Two sectors, the second of which has the number `2 ^ 32`, and 513 bytes to write.
-/

def farSectors : StoreRegion where
  storeLba := 4294967295
  storeCapacitySectors := 2
  storeDiskSectors := 4294967297
  buildIdLo := 1
  buildIdHi := 0

def longPiece : List Bytes :=
  [List.replicate 513 2]

theorem storeRequests_far {disk stage : Mem} (hdisk : ∀ a, a < 4294967295 * 512 → disk a = 0)
    : storeRequests farSectors disk (rdStart 512 513 stage) [1] = [(some 0, [0])] := by
  have hwin : storeRdWindow farSectors disk (rdStart 512 513 stage)
      = some ⟨512, 513, 512, 512, storeReads disk 1 0 1 0 stage⟩ := by
    have hsecs : (513 + 2 ^ 32 - 512 / 512 * 512 + 511) % 2 ^ 32 / 512 = 1 := by omega
    have hsector : farSectors.sector 512 = 0 := by decide
    unfold storeRdWindow rdStart
    dsimp only
    rw [if_pos (.inl rfl), hsecs, hsector]
    rfl
  have hbyte : (storeReads disk 1 0 1 0 stage).readBytes 0 1 = [0] := by
    rw [storeReads_batch (by omega) (by omega)]
    have hsub := @readBytes_writeBytes_take stage 0 1 (disk.readBytes (0 * 512) (1 * 512)) (by simp)
    rw [hsub, Mem.take_readBytes (by omega)]
    exact congrArg (fun b => [b]) (hdisk 0 (by omega))
  have hsum : ¬(rdStart 512 513 stage).imgEnd < ((rdStart 512 513 stage).imgOff + 1) % 2 ^ 32 := by
    unfold rdStart
    dsimp only
    omega
  have hturn : storeRdFill farSectors disk (rdStart 512 513 stage) 1
      = (some 0, [0], ⟨513, 513, 512, 512, storeReads disk 1 0 1 0 stage⟩) := by
    rw [storeRdFill, storeRdLoop, if_neg (by decide), if_neg hsum, hwin]
    dsimp only
    have hoff : (512 + 2 ^ 32 - 512) % 2 ^ 32 = 0 := by omega
    rw [hoff, Nat.sub_zero, Nat.min_eq_right (by omega), hbyte]
    rfl
  simp only [storeRequests, hturn, ↓reduceIte]

end Example

/--
With requests of any length, and with sectors of any number.
-/
theorem not_stream_read_back
    : (¬∀ (dev : StoreBackend) (reg : StoreRegion) (c₀ : StoreWr) (pieces : List Bytes),
        (∀ k, dev.ok k = true) → reg.OnDisk → reg.storeCapacitySectors * 512 < 2 ^ 32 →
        c₀.imgOff = 0 → c₀.staged = 0 →
        (pieces.flatten.length + 511) / 512 ≤ reg.storeCapacitySectors →
        reg.storeLba.toNat + (pieces.flatten.length + 511) / 512 ≤ 2 ^ 32 →
        ReadsBack dev reg c₀ pieces (fun len => len < 2 ^ 32))
      ∧ ¬∀ (dev : StoreBackend) (reg : StoreRegion) (c₀ : StoreWr) (pieces : List Bytes),
        (∀ k, dev.ok k = true) → reg.OnDisk → reg.storeCapacitySectors * 512 < 2 ^ 32 →
        c₀.imgOff = 0 → c₀.staged = 0 →
        (pieces.flatten.length + 511) / 512 ≤ reg.storeCapacitySectors →
        ReadsBack dev reg c₀ pieces (fun len => pieces.flatten.length + len < 2 ^ 32) := by
  constructor
  . intro hall
    obtain ⟨fuel, hfuel⟩ := hall soundDisk oneSector emptyWr twoPieces (fun _ => rfl)
      (by unfold StoreRegion.OnDisk; decide) (by decide) rfl rfl (by decide) (by decide)
    obtain ⟨c, c', _, _, _, hread⟩ := hfuel fuel (Nat.le_refl _)
    have hlists := hread 1 [2 ^ 32 - 1, 2] (by decide) (by decide)
    have hresults := congrArg (List.map Prod.fst) hlists
    have hwrapped := storeRequests_wrapped c'.disk c'.stage (Eq.refl (2 ^ 32 - 1))
    have hlen : twoPieces.flatten.length = 8 := rfl
    rw [hlen, hwrapped] at hresults
    exact absurd hresults (by decide)
  . intro hall
    have hflat : longPiece.flatten = List.replicate 513 2 := List.append_nil _
    have hlen : longPiece.flatten.length = 513 := by
      rw [hflat, List.length_replicate]
    obtain ⟨fuel, hfuel⟩ := hall soundDisk farSectors emptyWr longPiece (fun _ => rfl)
      (by unfold StoreRegion.OnDisk; decide) (by decide) rfl rfl (by rw [hlen]; decide)
    obtain ⟨c, c', _, _, hframe, hread⟩ := hfuel fuel (Nat.le_refl _)
    have hlists := hread 512 [1] (by rw [hlen]; decide) (by rw [hlen]; decide)
    have hzero : ∀ a, a < 4294967295 * 512 → c'.disk a = 0 := fun a ha => hframe a (.inl ha)
    have hbyte : byteRequests longPiece.flatten 512 [1] = [(some 0, [2])] := by
      unfold byteRequests
      rw [hlen, if_neg (by decide), hflat, List.drop_replicate]
      rfl
    rw [hlen, storeRequests_far hzero, hbyte] at hlists
    exact absurd hlists (by decide)

end Stream

end TanjaOS
