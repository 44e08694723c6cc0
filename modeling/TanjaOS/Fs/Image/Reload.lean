import TanjaOS.Fs.Run
import TanjaOS.Fs.Image.Lemmas

/-!
Saving and loading after any run of the filesystem.
-/

open Lib
open Lib.Tiling

namespace TanjaOS

theorem fsDeserialize_image {s t : FsState} (hok : SizeOk s) (h16 : 16 ∣ t.fpoolBytes.toNat)
    (rest : Bytes)
    : ((fsDeserialize t (fsImage s ++ rest)).1 = 0
        ↔ Packs t.fpoolBytes.toNat (wanted s (List.finRange maxF)))
      ∧ ((fsDeserialize t (fsImage s ++ rest)).1 = 0 ∨ (fsDeserialize t (fsImage s ++ rest)).1 = -1)
      ∧ ((fsDeserialize t (fsImage s ++ rest)).1 = 0 →
          Restored s (fsDeserialize t (fsImage s ++ rest)).2) := by
  have h := fsDeserializeFill_image hok h16 rest
  have hpacks := firstFits_fresh h16 (wanted s (List.finRange maxF))
  rw [← hpacks]
  unfold fsDeserialize
  dsimp only
  split at h
  . next hnone =>
    rw [h, hnone]
    simp
  . next hsome =>
    obtain ⟨t', heq, hrestored⟩ := h
    rw [heq, hsome]
    simp [hrestored]

theorem fsSerialize_eq_some {s : FsState} {bufSize : Nat} {image : Bytes}
    (h : fsSerialize s bufSize = some image)
    : image = fsImage s := by
  unfold fsSerialize at h
  split at h
  . contradiction
  . injection h with h
    rw [← h, fsSerializeSink_append, List.nil_append]

theorem fsSerialize_of_le {s : FsState} {bufSize : Nat} (h : fsSerializedSize s ≤ bufSize)
    : fsSerialize s bufSize = some (fsImage s) := by
  unfold fsSerialize
  rw [if_neg (by omega), fsSerializeSink_append, List.nil_append]

theorem storefile_round_trip (s₀ s t : FsState) (bytes : UInt32) (bufSize : Nat) (image rest : Bytes)
    (hrun : AnyRun (fsInit s₀) s) (hpool : t.fpoolBytes = fsSetPool bytes)
    (himage : fsSerialize s bufSize = some image)
    : ((fsDeserialize t (image ++ rest)).1 = 0 → Restored s (fsDeserialize t (image ++ rest)).2)
      ∧ ∀ t', t'.fpoolBytes = t.fpoolBytes →
          (fsDeserialize t' (image ++ rest)).1 = (fsDeserialize t (image ++ rest)).1 := by
  have hok := SizeOk.run hrun
  have h16 : 16 ∣ t.fpoolBytes.toNat := by
    rw [hpool]
    exact fsSetPool_dvd bytes
  rw [fsSerialize_eq_some himage]
  obtain ⟨hpacks, hrc, hrestored⟩ := fsDeserialize_image hok h16 rest
  refine ⟨hrestored, ?_⟩
  intro t' heq
  rw [← heq] at h16 hpacks
  obtain ⟨hpacks', hrc', _⟩ := fsDeserialize_image (t := t') hok h16 rest
  rw [← hpacks'] at hpacks
  cases hrc with
  | inl hrc => rw [hrc, hpacks.mp hrc]
  | inr hrc =>
    cases hrc' with
    | inl hrc' =>
      rw [hpacks.mpr hrc'] at hrc
      contradiction
    | inr hrc' => rw [hrc, hrc']

section Packed

/-!
A pool of 64 bytes: `/b` gets the first 4 of the 56 that are free, `/a` the 44 that are left.
-/

theorem aPath_noNul : (0 : Byte) ∉ [slash, 97] := by decide

def aPath : CStr :=
  ⟨[slash, 97], aPath_noNul⟩

def bPath : CStr :=
  ⟨[slash, 98], by decide⟩

def bData : Data :=
  ⟨[1, 2, 3], by decide⟩

def aData : Data :=
  ⟨List.replicate 43 1, by decide⟩

def aMade : FsState :=
  (fsCreateFile { fsInit (.zeroed 64) with fsCurUid := 0 } aPath).2

def bWritten : FsState :=
  (fsWriteFile { aMade with fsCurUid := 0 } bPath bData).2

def aWritten : FsState :=
  (fsWriteFile { bWritten with fsCurUid := 0 } aPath aData).2

theorem bWritten_run {ok : FsState → FsCall → Prop} (hok : ∀ s c, c.NoWrap s → ok s c)
    : FsRun ok (fsInit (.zeroed 64)) bWritten := by
  have hmake : FsCall.Step ⟨0, .createFile aPath⟩ (fsInit (.zeroed 64)) aMade := FsCall.step 0 rfl
  have hwrite : FsCall.Step ⟨0, .writeFile bPath bData⟩ aMade bWritten := FsCall.step 0 rfl
  exact Run.call (Run.call .refl hmake (hok _ _ trivial)) hwrite (hok _ _ trivial)

theorem aWritten_run {ok : FsState → FsCall → Prop} (hok : ∀ s c, c.NoWrap s → ok s c)
    : FsRun ok (fsInit (.zeroed 64)) aWritten := by
  have hwrite : FsCall.Step ⟨0, .writeFile aPath aData⟩ bWritten aWritten := FsCall.step 0 rfl
  exact Run.call (bWritten_run hok) hwrite (hok _ _ trivial)

end Packed

/--
Loading an image of `/a` and `/b` that is followed by another byte.
-/
theorem storefile_round_trip_written
    : (fsDeserialize (.zeroed 64) (fsImage bWritten ++ [7])).1 = 0
        ∧ Restored bWritten (fsDeserialize (.zeroed 64) (fsImage bWritten ++ [7])).2 := by
  have hrun : AnyRun (fsInit (.zeroed 64)) bWritten := bWritten_run (fun _ _ _ => trivial)
  have hrc : (fsDeserialize (.zeroed 64) (fsImage bWritten ++ [7])).1 = 0 := by
    rw [(fsDeserialize_image (t := .zeroed 64) (SizeOk.run hrun) (by decide) [7]).1]
    decide +kernel
  exact ⟨hrc, (storefile_round_trip (.zeroed 64) bWritten (.zeroed 64) 64 _ _ [7] hrun (by decide)
    (fsSerialize_of_le (Nat.le_refl _))).1 hrc⟩

theorem DataInv.sum_wanted_le {s : FsState} {bs : List Block} (h : DataInv s bs) (hok : SizeOk s)
    : ((wanted s (List.finRange maxF)).map (8 + ·)).sum ≤ s.fpoolBytes.toNat := by
  have hblock : ∀ i, hasContent s i → ∃ x ∈ live 8 0 bs, s.fdata i = some x.1
      ∧ DataInv.need (s.fsize i) ≤ x.2 := by
    intro i hi
    simp only [hasContent, ne_eq, decide_eq_true_eq] at hi
    cases hp : s.fdata i with
    | none =>
      have := (hok i).2 hp
      omega
    | some p =>
      obtain ⟨size, hmem, hlt⟩ := h.held i p hp
      refine ⟨(p, size), hmem, rfl, ?_⟩
      have hal := aligned_live (by decide) (by decide) h.pool.aligned (p, size) hmem
      unfold DataInv.need
      simp only at hal ⊢
      omega
  have hspan : s.fpoolBytes.toNat = span 8 bs := by
    have := h.pool.tiles.top_eq
    omega
  choose! block hmem hptr hneed using hblock
  rw [hspan]
  unfold wanted
  rw [List.map_map]
  apply sum_owned_le_span block
  . exact (List.nodup_finRange maxF).filter _
  . intro i hi
    exact hmem i (List.mem_filter.mp hi).2
  . intro i hi j hj heq
    have hi := hptr i (List.mem_filter.mp hi).2
    have hj := hptr j (List.mem_filter.mp hj).2
    rw [heq] at hi
    exact h.distinct i j _ hi hj
  . intro i hi
    exact hneed i (List.mem_filter.mp hi).2

def reload (s t : FsState) : Int :=
  (fsDeserializeFill fsBufFill (fsSerializeSink s (fun buf piece => buf ++ piece) []) t).1

theorem reload_eq_zero_iff {s t : FsState} (hok : SizeOk s) (h16 : 16 ∣ t.fpoolBytes.toNat)
    : reload s t = 0 ↔ Packs t.fpoolBytes.toNat (wanted s (List.finRange maxF)) := by
  have h := (fsDeserialize_image hok h16 []).1
  unfold fsDeserialize at h
  dsimp only at h
  rw [List.append_nil] at h
  unfold reload
  rw [fsSerializeSink_append, List.nil_append]
  exact h

theorem reload_iff_packs (s₀ s t : FsState) (bytes : UInt32)
    (hrun : AnyRun (fsInit s₀) s) (hpool : s₀.fpoolBytes = fsSetPool bytes)
    (hsame : t.fpoolBytes = s₀.fpoolBytes)
    : (reload s t = 0 ↔ Packs t.fpoolBytes.toNat (wanted s (List.finRange maxF)))
      ∧ (FsRun (fun s c => c.NoWrap s) (fsInit s₀) s →
          ((wanted s (List.finRange maxF)).map (8 + ·)).sum ≤ t.fpoolBytes.toNat) := by
  have hok := SizeOk.run hrun
  have h16 : 16 ∣ s₀.fpoolBytes.toNat := by
    rw [hpool]
    exact fsSetPool_dvd bytes
  refine ⟨reload_eq_zero_iff hok (by rwa [hsame]), ?_⟩
  intro hnowrap
  obtain ⟨bs, hinv⟩ := DataInv.run h16 hnowrap
  have := hinv.sum_wanted_le hok
  rwa [fpoolBytes_run hrun, ← hsame] at this

/--
With `/b` alone there is room.
-/
theorem reload_iff_packs_written : reload bWritten (.zeroed 64) = 0 := by
  have hrun : AnyRun (fsInit (.zeroed 64)) bWritten := bWritten_run (fun _ _ _ => trivial)
  rw [(reload_iff_packs (.zeroed 64) bWritten (.zeroed 64) 64 hrun (by decide) rfl).1]
  decide +kernel

/--
`/a` comes first now. It leaves 12 bytes, which are too few for another block, so that nothing is
left for `/b`.
-/
theorem reload_fails
    : ¬∀ s₀ s t bytes, FsRun (fun s c => c.NoWrap s) (fsInit s₀) s →
        s₀.fpoolBytes = fsSetPool bytes → t.fpoolBytes = s₀.fpoolBytes → reload s t = 0 := by
  intro h
  have hrun : AnyRun (fsInit (.zeroed 64)) aWritten := aWritten_run (fun _ _ _ => trivial)
  have hzero := h (.zeroed 64) aWritten (.zeroed 64) 64 (aWritten_run (fun _ _ hwrap => hwrap))
    (by decide) rfl
  rw [reload_eq_zero_iff (SizeOk.run hrun) (by decide)] at hzero
  revert hzero
  decide +kernel

end TanjaOS
