import TanjaOS.Store.Init
import TanjaOS.Fs.Image.Reload
import TanjaOS.Fs.Content

/-!
The size of the image as it is announced, as it is emitted, and the room that `store_init` has made
for it.
-/

open Lib

namespace TanjaOS

section Sizes

variable {s : FsState}

theorem length_contentBytes (hok : SizeOk s) (is : List (Fin maxF))
    : (contentBytes s is).length
        = ((is.filter (fun i => s.fused i ≠ 0 ∧ 0 < s.fsize i)).map s.fsize).sum := by
  have hsame : hasContent s = fun i => decide (s.fused i ≠ 0 ∧ 0 < s.fsize i) := rfl
  unfold contentBytes
  rw [hsame, List.length_flatten, List.map_map]
  congr 1
  apply List.map_congr_left
  intro i _
  exact DataInv.length_fileBytes (hok i).2

theorem length_fsImage_eq (hok : SizeOk s) : (fsImage s).length = fsSerializedSize s := by
  rw [length_fsImage, length_contentBytes hok]
  rfl

theorem fsSerializeSink_count (s : FsState)
    : fsSerializeSink s (fun n piece => n + piece.length) 0 = (fsImage s).length := by
  have hcount : ∀ (pieces : List Bytes) (n : Nat),
      pieces.foldl (fun n piece => n + piece.length) n = n + pieces.flatten.length := by
    intro pieces
    induction pieces with
    | nil => intro n; rfl
    | cons piece pieces ih =>
      intro n
      rw [List.foldl_cons, ih, List.flatten_cons, List.length_append, Nat.add_assoc]
  unfold fsSerializeSink fsImage
  rw [hcount, Nat.zero_add]

theorem sum_fsize_le (s : FsState) (is : List (Fin maxF))
    : ((is.filter (fun i => s.fused i ≠ 0 ∧ 0 < s.fsize i)).map s.fsize).sum
        ≤ ((wanted s is).map (8 + ·)).sum := by
  have hsame : hasContent s = fun i => decide (s.fused i ≠ 0 ∧ 0 < s.fsize i) := rfl
  unfold wanted
  rw [hsame, List.map_map]
  apply List.sum_le_sum
  intro i _
  simp only [Function.comp_apply, DataInv.need]
  omega

/--
The three sizes agree, so that no save is given up before it has begun.
-/
structure SizesAgree (s : FsState) : Prop where
  emitted : fsSerializeSink s (fun n piece => n + piece.length) 0 = fsSerializedSize s
  bound : fsSerializedSize s ≤ fsStoreSize
  saved : ∀ st : StoreState, st.region.storeCapacitySectors = storeCapacity → storeTooBig st s = false

end Sizes

theorem sizes_agree (s₀ s : FsState) (bytes : UInt32) (hpool : s₀.fpoolBytes = fsSetPool bytes)
    (hrun : FsRun (fun s c => c.NoWrap s) (fsInit s₀) s) : SizesAgree s := by
  have hany : AnyRun (fsInit s₀) s := hrun.mono (fun _ _ _ => trivial)
  have hok := SizeOk.run hany
  obtain ⟨bs, hinv⟩ := DataInv.run (by rw [hpool]; exact fsSetPool_dvd bytes) hrun
  have hpoolSize : s.fpoolBytes.toNat ≤ fsDataPoolSize := by
    rw [fpoolBytes_run hany, hpool, fsSetPool_toNat]
    omega
  have hbound : fsSerializedSize s ≤ fsStoreSize := by
    have hsum := sum_fsize_le s (List.finRange maxF)
    have hwanted := hinv.sum_wanted_le hok
    unfold fsSerializedSize fsStoreSize
    omega
  refine ⟨?_, hbound, fun st hcap => storeTooBig_of_le hcap hbound⟩
  rw [fsSerializeSink_count, length_fsImage_eq hok]

theorem sizes_agree_noted : SizesAgree noted :=
  sizes_agree (.zeroed 64) noted 64 (by decide) (noted_run (fun _ _ hwrap => hwrap))

section Prealloc

variable {s s' : FsState} {path : Bytes} {size : Nat} {i : Fin maxF}

theorem fpoolCoalesce_whole {fpoolBytes : UInt32} {m : Mem} (h8 : 8 ≤ fpoolBytes.toNat)
    (hsize : m.read32 0 = fpoolBytes.toNat - 8) : fpoolCoalesce fpoolBytes m = m := by
  unfold fpoolCoalesce
  rw [fpoolCoalesce.go, dif_pos (by omega), dif_neg (by omega), dif_neg (by omega), if_pos (by omega)]

theorem fsPreallocFile_whole (hpath : path ≠ []) (hpos : size ≠ 0) (hsize : size ≤ maxFileData - 1)
    (hnew : fileIndex s (absPath s.cwd.str path) = none) (hmake : fsCreateFile s path = (0, s'))
    (hidx : fileIndex s' (absPath s.cwd.str path) = some i) (h8 : 8 ≤ s'.fpoolBytes.toNat)
    (hwhole : s'.fpool.read32 0 = s'.fpoolBytes.toNat - 8) (hrc : (fdataResize s' i size).1 = 0)
    : fsPreallocFile s path size = (0, (fdataResize s' i size).2) := by
  unfold fsPreallocFile
  dsimp only
  have hargs : ¬(path = [] ∨ size = 0 ∨ maxFileData - 1 < size) := by
    rintro (hbad | hbad | hbad)
    . exact hpath hbad
    . exact hpos hbad
    . omega
  rw [if_neg hargs, hnew, hmake]
  dsimp only
  rw [if_neg (by decide), hidx]
  unfold fsPreallocFile.resize
  dsimp only
  rw [fpoolCoalesce_whole h8 hwhole, if_neg (by rw [hrc]; decide)]

end Prealloc

section Example

/-!
A pool of 48 MiB. A write at offset `2 ^ 32 - 8` makes the block of `/a` as large as the pool and
marks it as free, twice, so that two files of 32 MiB get the same block.
-/

def wholeHeader : Data :=
  ⟨[248, 255, 255, 2, 1, 0, 0, 0, 1], by decide⟩

def largeSize : UInt32 := 33554430

def smallWritten : FsState :=
  (fsWriteFile { fsInit (.zeroed 50331648) with fsCurUid := 0 } notePath noteByte).2

def blockFreed : FsState :=
  (fsWriteAt { smallWritten with fsCurUid := 0 } notePath 4294967288 wholeHeader).2

def bPathMade : FsState :=
  (fsCreateFile { blockFreed with fsCurUid := 0 } bPath).2

def firstLarge : FsState :=
  (fdataResize bPathMade ⟨1, by decide⟩ largeSize.toNat).2

def blockFreedAgain : FsState :=
  (fsWriteAt { firstLarge with fsCurUid := 0 } notePath 4294967288 wholeHeader).2

def copyPathMade : FsState :=
  (fsCreateFile { blockFreedAgain with fsCurUid := 0 } copyPath).2

def secondLarge : FsState :=
  (fdataResize copyPathMade ⟨2, by decide⟩ largeSize.toNat).2

theorem firstLarge_call
    : fsPreallocFile { blockFreed with fsCurUid := 0 } bPath largeSize.toNat = (0, firstLarge) := by
  apply fsPreallocFile_whole
  . decide
  . decide
  . decide
  . decide +kernel
  . exact Prod.ext (by decide +kernel) rfl
  . decide +kernel
  . decide +kernel
  . decide +kernel
  . decide +kernel

theorem secondLarge_call
    : fsPreallocFile { blockFreedAgain with fsCurUid := 0 } copyPath largeSize.toNat
        = (0, secondLarge) := by
  apply fsPreallocFile_whole
  . decide
  . decide
  . decide
  . decide +kernel
  . exact Prod.ext (by decide +kernel) rfl
  . decide +kernel
  . decide +kernel
  . decide +kernel
  . decide +kernel

theorem secondLarge_run : AnyRun (fsInit (.zeroed 50331648)) secondLarge := by
  have hwrite : FsCall.Step ⟨0, .writeFile notePath noteByte⟩ (fsInit (.zeroed 50331648))
      smallWritten := FsCall.step 0 rfl
  have hfree : FsCall.Step ⟨0, .writeAt notePath 4294967288 wholeHeader⟩ smallWritten blockFreed :=
    FsCall.step 0 rfl
  have hfirst : FsCall.Step ⟨0, .preallocFile bPath largeSize⟩ blockFreed firstLarge :=
    ⟨0, 0, congrArg some firstLarge_call⟩
  have hfree' : FsCall.Step ⟨0, .writeAt notePath 4294967288 wholeHeader⟩ firstLarge
      blockFreedAgain := FsCall.step 0 rfl
  have hsecond : FsCall.Step ⟨0, .preallocFile copyPath largeSize⟩ blockFreedAgain secondLarge :=
    ⟨0, 0, congrArg some secondLarge_call⟩
  have hfreed : AnyRun (fsInit (.zeroed 50331648)) blockFreed :=
    Run.call (Run.call .refl hwrite trivial) hfree trivial
  exact Run.call (Run.call (Run.call hfreed hfirst trivial) hfree' trivial) hsecond trivial

theorem secondLarge_size : ¬fsSerializedSize secondLarge ≤ fsStoreSize := by
  decide +kernel

end Example

theorem not_sizes_agree
    : ¬∀ s₀ s bytes, s₀.fpoolBytes = fsSetPool bytes → AnyRun (fsInit s₀) s → SizesAgree s := by
  intro hall
  have hagree := hall (.zeroed 50331648) secondLarge 50331648 (by decide) secondLarge_run
  exact secondLarge_size hagree.bound

end TanjaOS
