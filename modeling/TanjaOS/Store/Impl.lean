import TanjaOS.Fs.Image.Impl
import TanjaOS.Account.Config

/-!
Saving the Storefile: the image goes through a staging buffer to the disk, in batches of whole
sectors. The disk is a memory of bytes, what the backend makes of each transfer is a parameter.
-/

open Lib

namespace TanjaOS

def storeStageBytes : Nat := 64 * 1024

def storeHeaderBytes : Nat := 16

def bytesToSectors (bytes : Nat) : Nat :=
  (bytes + 511) / 512

/--
Whether the `n`th transfer succeeds, and what a failed one leaves on the sectors it was meant for.
-/
structure StoreBackend where
  ok : Nat → Bool
  torn : Nat → Mem

/--
Where the Storefile is.
-/
structure StoreRegion where
  storeLba : UInt32
  storeCapacitySectors : Nat
  storeDiskSectors : Nat
  buildIdLo : UInt32
  buildIdHi : UInt32

/--
The sector of the image byte `off`. The sum is one of 32 bits.
-/
def StoreRegion.sector (reg : StoreRegion) (off : Nat) : Nat :=
  (reg.storeLba.toNat + off / 512) % 2 ^ 32

/--
`store_wr_ctx`, `store_stage` and the disk.
-/
structure StoreWr where
  imgOff : Nat
  staged : Nat
  startOff : Nat
  failed : Bool
  stage : Mem
  disk : Mem
  /-- For the record: the writes so far. -/
  transfers : Nat
  /-- For the record: a byte past the end of the staging buffer has been stored. -/
  spilled : Bool

section Write

variable (dev : StoreBackend) (reg : StoreRegion)

/--
The loop of `store_backend_write`, with the bytes from `p` on.
-/
def storeTransfers : Nat → Nat → Nat → Mem → Nat → StoreWr → Bool × StoreWr
  | 0, _, _, _, _, c => (true, c)
  | fuel + 1, lba, count, buf, p, c =>
    if count = 0 then
      (true, c)
    else
      let chunk := min count 255
      if dev.ok c.transfers then
        let bytes := buf.readBytes p (chunk * 512)
        storeTransfers fuel ((lba + chunk) % 2 ^ 32) (count - chunk) buf (p + chunk * 512)
          { c with disk := c.disk.writeBytes (lba * 512) bytes, transfers := c.transfers + 1 }
      else
        let bytes := (dev.torn c.transfers).readBytes (lba * 512) (chunk * 512)
        (false, { c with
          disk := c.disk.writeBytes (lba * 512) bytes, transfers := c.transfers + 1 })

def storeBackendWrite (lba count : Nat) (buf : Mem) (c : StoreWr) : Bool × StoreWr :=
  if count = 0 then
    (false, c)
  else if reg.storeDiskSectors < lba + count then
    (false, c)
  else
    storeTransfers dev count lba count buf 0 c

/--
Stores `bs` into the staging buffer from `off` on.
-/
def StoreWr.stageBytes (c : StoreWr) (off : Nat) (bs : Bytes) : StoreWr :=
  { c with
    stage := c.stage.writeBytes off bs
    spilled := c.spilled || decide (0 < bs.length ∧ storeStageBytes < off + bs.length) }

def storeWrFlush (c : StoreWr) : Bool × StoreWr :=
  if c.staged = 0 then
    (true, c)
  else
    let secs := (c.staged + 511) / 512
    let pad := secs * 512 - c.staged
    let c := c.stageBytes c.staged (List.replicate pad 0)
    let (done, c) := storeBackendWrite dev reg (reg.sector c.startOff) secs c.stage c
    if done then
      (true, { c with staged := 0 })
    else
      (false, { c with failed := true })

/--
How many bytes the next turn of the loop takes.
-/
def StoreWr.take (c : StoreWr) (data : Bytes) : Nat :=
  min (storeStageBytes - c.staged) data.length

/--
One turn of the loop of `store_wr_sink`. A failed flush leaves the buffer full.
-/
def storeWrTurn (c : StoreWr) (data : Bytes) : StoreWr :=
  let take := c.take data
  let c := if c.staged = 0 then { c with startOff := c.imgOff } else c
  let c := c.stageBytes c.staged (data.take take)
  let c := { c with staged := c.staged + take, imgOff := c.imgOff + take }
  if c.staged = storeStageBytes then (storeWrFlush dev reg c).2 else c

/--
`false` when the loop has not ended after `fuel` turns.
-/
def storeWrSink : Nat → StoreWr → Bytes → Bool × StoreWr
  | 0, c, _ => (false, c)
  | fuel + 1, c, data =>
    if data = [] then
      (true, c)
    else
      storeWrSink fuel (storeWrTurn dev reg c data) (data.drop (c.take data))

end Write

/--
`store_write_header`
-/
def storeHeader (reg : StoreRegion) (payloadBytes : Nat) : Bytes :=
  [84, 74, 83, 49] ++ le32 payloadBytes ++ le32 reg.buildIdLo.toNat ++ le32 reg.buildIdHi.toNat

def storeHeaderValidAt (b : Bytes) : Bool :=
  b.take 4 = [84, 74, 83, 49]

structure StoreState where
  region : StoreRegion
  storeEnabled : Bool
  storeSectors : Nat
  storeCfgbuf : Bytes
  storeStage : Mem
  disk : Mem
  transfers : Nat
  spilled : Bool

namespace StoreState

variable (dev : StoreBackend) (st : StoreState)

/--
The stream at its start.
-/
def wrStart : StoreWr where
  imgOff := 0
  staged := 0
  startOff := 0
  failed := false
  stage := st.storeStage
  disk := st.disk
  transfers := st.transfers
  spilled := st.spilled

def afterWr (c : StoreWr) : StoreState :=
  { st with storeStage := c.stage, disk := c.disk, transfers := c.transfers, spilled := c.spilled }

end StoreState

/--
The image does not fit into the Storefile.
-/
def storeTooBig (st : StoreState) (s : FsState) : Bool :=
  let payload := fsSerializedSize s + configStoreSize
  fsStoreSize < fsSerializedSize s
    ∨ st.region.storeCapacitySectors * 512 - storeHeaderBytes < payload
    ∨ st.region.storeCapacitySectors < bytesToSectors (storeHeaderBytes + payload)

/--
The header is read back as it should be.
-/
def storeVerify (dev : StoreBackend) (st : StoreState) (payload : Nat) : Bool :=
  let chk := st.disk.readBytes (st.region.storeLba.toNat * 512) 512
  st.region.storeLba.toNat + 1 ≤ st.region.storeDiskSectors ∧ dev.ok st.transfers
    ∧ storeHeaderValidAt chk ∧ ofLe32 (chk.drop 4) = payload

/--
`false` when one of the loops has not ended after `fuel` turns.
-/
def storeAutosave (dev : StoreBackend) (fuel : Nat) (st : StoreState) (s : FsState) (acc : Accounts)
    : Bool × StoreState :=
  if st.storeEnabled = false then
    (true, st)
  else if storeTooBig st s then
    (true, st)
  else
    let reg := st.region
    let payload := fsSerializedSize s + configStoreSize
    let sink (r : Bool × StoreWr) (bs : Bytes) : Bool × StoreWr :=
      if r.1 then storeWrSink dev reg fuel r.2 bs else r
    let (ended, c) := fsSerializeSink s sink (sink (true, st.wrStart) (storeHeader reg payload))
    if ¬ended then
      (false, st.afterWr c)
    else
      let (rc, cfgbuf) := configSerialize acc st.storeCfgbuf
      let st := { st with storeCfgbuf := cfgbuf }
      if rc ≠ 0 then
        (true, st.afterWr c)
      else
        let (ended, c) := storeWrSink dev reg fuel c (cfgbuf.take configStoreSize)
        if ¬ended then
          (false, st.afterWr c)
        else
          let (done, c) := storeWrFlush dev reg c
          let st := st.afterWr c
          if ¬done ∨ c.failed then
            (true, st)
          else
            (true, { st with
              storeSectors := bytesToSectors (storeHeaderBytes + payload)
              storeEnabled := storeVerify dev st payload })

end TanjaOS
