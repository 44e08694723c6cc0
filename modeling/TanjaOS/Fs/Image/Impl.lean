import TanjaOS.Fs.Ops.Impl

/-!
The Storefile image of the filesystem. It is emitted piece by piece to a sink and read back through
a fill function, which refuses a request that goes past the end of what it has.
-/

open Lib

namespace TanjaOS

def storeVersion : Byte := 4

/--
`TJFS`, the version and three zeros.
-/
def fsHeader : Bytes :=
  [84, 74, 70, 83, storeVersion, 0, 0, 0]

def le16 (v : UInt16) : Bytes :=
  [v.toUInt8, (v >>> 8).toUInt8]

def ofLe16 (bs : Bytes) : UInt16 :=
  (bs.getD 0 0).toUInt16 ||| ((bs.getD 1 0).toUInt16 <<< 8)

/--
The pieces that `fs_serialize_sink` emits, in order.
-/
def fsPieces (s : FsState) : List Bytes :=
  [fsHeader]
    ++ (List.finRange maxD).map (fun i => [s.dused i])
    ++ (List.finRange maxD).map (fun i => (s.dname i).bytes)
    ++ (List.finRange maxF).map (fun i => [s.fused i])
    ++ (List.finRange maxF).map (fun i => le32 (s.fsize i))
    ++ (List.finRange maxF).map (fun i => (s.fname i).bytes)
    ++ ((List.finRange maxF).filter (fun i => s.fused i ≠ 0 ∧ 0 < s.fsize i)).map s.fileBytes
    ++ [s.cwd.bytes]
    ++ (List.finRange maxD).flatMap (fun i => [le32 (s.downer i).toUInt32.toNat, le16 (s.dmode i)])
    ++ (List.finRange maxF).flatMap (fun i => [le32 (s.fowner i).toUInt32.toNat, le16 (s.fmode i)])

def fsSerializeSink {σ : Type} (s : FsState) (emit : σ → Bytes → σ) (ctx : σ) : σ :=
  (fsPieces s).foldl emit ctx

def fsStoreSize : Nat :=
  8 + maxD + maxD * fsPathCap + maxF + maxF * 4 + maxF * fsPathCap + fsDataPoolSize + 256 + maxD * 6
    + maxF * 6

def fsSerializedSize (s : FsState) : Nat :=
  8 + maxD + maxD * fsPathCap + maxF + maxF * 4 + maxF * fsPathCap + 256 + maxD * 6 + maxF * 6
    + (((List.finRange maxF).filter (fun i => s.fused i ≠ 0 ∧ 0 < s.fsize i)).map s.fsize).sum

/--
The bytes written to a buffer of `bufSize` bytes.
-/
def fsSerialize (s : FsState) (bufSize : Nat) : Option Bytes :=
  if bufSize < fsSerializedSize s then
    none
  else
    some (fsSerializeSink s (fun buf piece => buf ++ piece) [])

/--
Deliver the next `len` bytes.
-/
abbrev Fill (σ : Type) := σ → (len : Nat) → Option { b : Bytes // b.length = len } × σ

section Deserialize

variable {σ : Type} (fill : Fill σ)

/--
Read `len` bytes for each slot and put them there, until a request is refused or what it delivers.
-/
def fillSlots {n : Nat} (len : Nat) (put : FsState → Fin n → { b : Bytes // b.length = len } → Option FsState)
    : List (Fin n) → σ → FsState → Bool × σ × FsState
  | [], c, s => (true, c, s)
  | i :: is, c, s =>
    match fill c len with
    | (none, c) => (false, c, s)
    | (some b, c) =>
      match put s i b with
      | none => (false, c, s)
      | some s => fillSlots len put is c s

def putDname (s : FsState) (i : Fin maxD) (b : { b : Bytes // b.length = fsPathCap }) : Option FsState :=
  some { s with dname := Function.update s.dname i ⟨b.val, b.property⟩ }

def putFname (s : FsState) (i : Fin maxF) (b : { b : Bytes // b.length = fsPathCap }) : Option FsState :=
  some { s with fname := Function.update s.fname i ⟨b.val, b.property⟩ }

def putFsize (s : FsState) (i : Fin maxF) (b : { b : Bytes // b.length = 4 }) : Option FsState :=
  if maxFileData ≤ ofLe32 b.val then
    none
  else
    some { s with fsize := Function.update s.fsize i (ofLe32 b.val) }

/--
Allocate and read the contents, in slot order.
-/
def fillFiles : List (Fin maxF) → σ → FsState → Bool × σ × FsState
  | [], c, s => (true, c, s)
  | i :: is, c, s =>
    if s.fused i = 0 then
      fillFiles is c { s with fsize := Function.update s.fsize i 0 }
    else
      match fdataResize s i (s.fsize i) with
      | (rc, s) =>
        if rc ≠ 0 then
          (false, c, s)
        else
          match fill c (s.fsize i) with
          | (none, c) => (false, c, s)
          | (some b, c) =>
            let s := s.storeFile i 0 b.val
            fillFiles is c (s.storeFile i (s.fsize i) [0])

/--
Owners and modes. An image that ends here is an old one and no error, the flag says whether to go
on.
-/
def fillOwners {n : Nat} (put : FsState → Fin n → Int32 → FsState)
    (putMode : FsState → Fin n → UInt16 → FsState)
    : List (Fin n) → σ → FsState → Bool × σ × FsState
  | [], c, s => (true, c, s)
  | i :: is, c, s =>
    match fill c 4 with
    | (none, c) => (false, c, s)
    | (some b, c) =>
      let s := put s i (UInt32.ofNat (ofLe32 b.val)).toInt32
      match fill c 2 with
      | (none, c) => (false, c, s)
      | (some b, c) => fillOwners put putMode is c (putMode s i (ofLe16 b.val))

def putDowner (s : FsState) (i : Fin maxD) (owner : Int32) : FsState :=
  { s with downer := Function.update s.downer i owner }

def putDmode (s : FsState) (i : Fin maxD) (mode : UInt16) : FsState :=
  { s with dmode := Function.update s.dmode i mode }

def putFowner (s : FsState) (i : Fin maxF) (owner : Int32) : FsState :=
  { s with fowner := Function.update s.fowner i owner }

def putFmode (s : FsState) (i : Fin maxF) (mode : UInt16) : FsState :=
  { s with fmode := Function.update s.fmode i mode }

/--
Give up all contents and start with an empty pool.
-/
def resetData (s : FsState) : FsState :=
  let s := (List.finRange maxF).foldl FsState.freeData s
  { s with fpool := fpoolInit s.fpoolBytes s.fpool }

def fillDirs (c : σ) (s : FsState) : Bool × σ × FsState :=
  match fill c maxD with
  | (none, c) => (false, c, s)
  | (some used, c) =>
    fillSlots fill fsPathCap putDname (List.finRange maxD) c
      { s with dused := fun i => used.val.getD i.val 0 }

def fillFileTable (c : σ) (s : FsState) : Bool × σ × FsState :=
  match fill c maxF with
  | (none, c) => (false, c, s)
  | (some used, c) =>
    match fillSlots fill 4 putFsize (List.finRange maxF) c
        { s with fused := fun i => used.val.getD i.val 0 } with
    | (false, c, s) => (false, c, s)
    | (true, c, s) => fillSlots fill fsPathCap putFname (List.finRange maxF) c s

/--
Owners and modes as they are without the section for them.
-/
def defaultOwners (s : FsState) : FsState :=
  { s with
    fowner := fun _ => 0
    fmode := fun _ => 0o755
    downer := fun _ => 0
    dmode := fun _ => 0o755 }

def fillOwnerTables (c : σ) (s : FsState) : σ × FsState :=
  match fillOwners fill putDowner putDmode (List.finRange maxD) c (defaultOwners s) with
  | (false, c, s) => (c, s)
  | (true, c, s) => (fillOwners fill putFowner putFmode (List.finRange maxF) c s).2

def fsDeserializeFill (c : σ) (s : FsState) : Int × σ × FsState :=
  match fill c 8 with
  | (none, c) => (-1, c, s)
  | (some hdr, c) =>
    if hdr.val.take 4 ≠ fsHeader.take 4 then
      (-1, c, s)
    else if hdr.val.getD 4 0 ≠ storeVersion then
      (-1, c, s)
    else
      match fillDirs fill c (resetData s) with
      | (false, c, s) => (-1, c, s)
      | (true, c, s) =>
        match fillFileTable fill c s with
        | (false, c, s) => (-1, c, s)
        | (true, c, s) =>
          match fillFiles fill (List.finRange maxF) c s with
          | (false, c, s) => (-1, c, s)
          | (true, c, s) =>
            match fill c 256 with
            | (none, c) => (-1, c, s)
            | (some cwd, c) => (0, fillOwnerTables fill c { s with cwd := ⟨cwd.val, cwd.property⟩ })

end Deserialize

/--
Deliver bytes from a buffer.
-/
def fsBufFill : Fill Bytes := fun buf len =>
  if h : buf.length < len then
    (none, buf)
  else
    (some ⟨buf.take len, by simp; omega⟩, buf.drop len)

def fsDeserialize (s : FsState) (buf : Bytes) : Int × FsState :=
  let (rc, _, s) := fsDeserializeFill fsBufFill buf s
  (rc, s)

end TanjaOS
