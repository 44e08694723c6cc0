import TanjaOS.Fs.Tree

/-!
Who may change what: a user other than root needs write access to a file to change its bytes, write
access to a directory to add or remove its entries, and has to own what they change the mode of.
-/

open Lib
open Lib.Tiling

namespace TanjaOS

/--
The directory that `x` is an entry of.
-/
def parentDir (x : Bytes) : Bytes :=
  if parentText x = [] then [slash] else parentText x

/--
The current user may write to the directory of `x`.
-/
def MayWriteDir (s : FsState) (x : Bytes) : Prop :=
  ∃ d, s.IsDir d (parentDir x) ∧ permAllows s (s.dmode d) (s.downer d) 0o200

/--
What the current user of `s` may do to its entries.
-/
structure AuthOk (s s' : FsState) : Prop where
  content : ∀ i x, s.IsFile i x → s'.IsFile i x →
    s'.fsize i ≠ s.fsize i ∨ s'.fileBytes i ≠ s.fileBytes i →
    permAllows s (s.fmode i) (s.fowner i) 0o200
  fileAppears : ∀ i x, s'.IsFile i x → ¬s.IsFile i x → MayWriteDir s x
  dirAppears : ∀ i x, s'.IsDir i x → ¬s.IsDir i x → MayWriteDir s x
  fileGone : ∀ i x, s.IsFile i x → ¬s'.IsFile i x → MayWriteDir s x
  dirGone : ∀ i x, s.IsDir i x → ¬s'.IsDir i x → MayWriteDir s x
  fmode : ∀ i x, s.IsFile i x → s'.IsFile i x → s'.fmode i ≠ s.fmode i → s.fowner i = s.fsCurUid
  dmode : ∀ i x, s.IsDir i x → s'.IsDir i x → s'.dmode i ≠ s.dmode i → s.downer i = s.fsCurUid
  fowner : ∀ i x, s.IsFile i x → s'.IsFile i x → s'.fowner i = s.fowner i
  downer : ∀ i x, s.IsDir i x → s'.IsDir i x → s'.downer i = s.downer i

/--
A name that a slash was left at the end of. Its text puts it into another directory than the one
that `splitParent` finds.
-/
def SlashTail (x : Bytes) : Prop :=
  x ≠ [slash] ∧ [slash] <:+ x

instance (x : Bytes) : Decidable (SlashTail x) :=
  inferInstanceAs (Decidable (_ ∧ _))

theorem splitParent_eq {x : Bytes} (h : PathText x) (htail : ¬[slash] <:+ x)
    : splitParent x = parentDir x := by
  have hhead := h.head
  have hlen := h.length_le
  have hstrip : x.rdropWhile (· = slash) = x := by
    rw [List.rdropWhile_eq_self_iff]
    intro hne
    simp only [decide_eq_true_eq]
    intro hlast
    apply htail
    refine ⟨x.dropLast, ?_⟩
    rw [← hlast]
    exact List.dropLast_append_getLast hne
  have hmem : slash ∈ x := by
    cases x with
    | nil => simp at hhead
    | cons b y =>
      simp only [List.head?_cons, Option.some.injEq] at hhead
      simp [hhead]
  obtain ⟨w, hw, heq⟩ := eq_append_parentText hmem
  have hne : x ≠ [] := h.ne_nil
  have hcut : lastCut x = (parentText x).length + 1 := by
    conv => lhs; rw [heq, lastCut_append hw]
  have hplen : (parentText x).length < x.length := by
    have := congrArg List.length heq
    simp only [List.length_append, List.length_cons] at this
    omega
  have htake : x.take (parentText x).length = parentText x := by
    have := congrArg (List.take (parentText x).length) heq
    rwa [List.take_left] at this
  unfold splitParent
  dsimp only
  rw [hstrip, if_neg hne, hcut, if_neg (by omega)]
  unfold parentDir
  by_cases hnil : parentText x = []
  . rw [hnil] at heq ⊢
    rw [heq]
    rfl
  . have hpos := List.length_pos_of_ne_nil hnil
    have hone : ¬(parentText x).length + 1 - 1 < 1 := by omega
    have hcap : ¬fsPathCap ≤ (parentText x).length + 1 - 1 := by
      unfold fsPathCap
      omega
    rw [if_neg hnil, if_neg hone, if_neg hcap, Nat.add_sub_cancel, htake]

structure AuthInv (s : FsState) : Prop where
  ns : NsInv s
  tails : NamesAvoid SlashTail s
  root : s.UsedDir [slash]
  data : ∃ bs, DataInv s bs

theorem PathText.parentDir_used {s : FsState} {x : Bytes} (hns : NsInv s)
    (hroot : s.UsedDir [slash]) (hx : s.UsedFile x ∨ s.UsedDir x) (htail : ¬[slash] <:+ x)
    : s.UsedDir (parentDir x) := by
  have htext : PathText x := by
    obtain ⟨i, hi⟩ | ⟨i, hi⟩ := hx
    . exact hns.files i x hi
    . exact hns.dirs i x hi
  have hbad : ¬BadTail x := by
    intro hbad
    apply htail
    obtain h | h | h := hbad
    . exact List.IsSuffix.trans ⟨[slash], rfl⟩ h
    . exact List.IsSuffix.trans ⟨[slash, dot], rfl⟩ h
    . exact List.IsSuffix.trans ⟨[slash, dot, dot], rfl⟩ h
  unfold parentDir
  obtain hnil | ⟨cs, hcanon, hcs, heq⟩ := htext.parent hbad
  . rwa [if_pos hnil]
  . have hne : parentText x ≠ [] := by
      rw [heq]
      exact List.ne_nil_of_length_pos (length_render_pos cs)
    rw [if_neg hne, heq]
    exact hns.parent x cs hx hcanon hcs heq

theorem mayWriteDir_of_may {s : FsState} {x : Bytes} (htext : PathText x) (htail : ¬[slash] <:+ x)
    (hused : s.UsedDir (parentDir x)) (hmay : (mayModifyParent s x).1)
    : MayWriteDir s x := by
  rw [← dirIndex_isSome, Option.isSome_iff_exists] at hused
  obtain ⟨d, hd⟩ := hused
  unfold mayModifyParent at hmay
  rw [splitParent_eq htext htail, hd] at hmay
  dsimp only at hmay
  refine ⟨d, dirIndex_eq_some hd, ?_⟩
  split at hmay
  . assumption
  . simp at hmay

structure SameEntries (s t : FsState) : Prop where
  fname : t.fname = s.fname
  fused : t.fused = s.fused
  dname : t.dname = s.dname
  dused : t.dused = s.dused
  fmode : t.fmode = s.fmode
  dmode : t.dmode = s.dmode
  fowner : t.fowner = s.fowner
  downer : t.downer = s.downer
  fsCurUid : t.fsCurUid = s.fsCurUid

namespace SameEntries

variable {s t : FsState}

theorem isFile (h : SameEntries s t) (i : Fin maxF) (x : Bytes) : t.IsFile i x ↔ s.IsFile i x := by
  unfold FsState.IsFile
  rw [h.fname, h.fused]

theorem isDir (h : SameEntries s t) (i : Fin maxD) (x : Bytes) : t.IsDir i x ↔ s.IsDir i x := by
  unfold FsState.IsDir
  rw [h.dname, h.dused]

theorem of_frame (h : t.frame = s.frame) : SameEntries s t := by
  have hfname := congrArg FsState.fname h
  have hfused := congrArg FsState.fused h
  have hdname := congrArg FsState.dname h
  have hdused := congrArg FsState.dused h
  have hfmode := congrArg FsState.fmode h
  have hdmode := congrArg FsState.dmode h
  have hfowner := congrArg FsState.fowner h
  have hdowner := congrArg FsState.downer h
  have huid := congrArg FsState.fsCurUid h
  exact ⟨hfname, hfused, hdname, hdused, hfmode, hdmode, hfowner, hdowner, huid⟩

end SameEntries

/--
The state `t` that changes granted by `g` can lead to from `s` if nothing is created.
-/
structure Shrinks (g : Grant) (s t : FsState) : Prop where
  uid : t.fsCurUid = s.fsCurUid
  files : ∀ i x, t.IsFile i x → s.IsFile i x
  dirs : ∀ i x, t.IsDir i x → s.IsDir i x
  fileGone : ∀ i x, s.IsFile i x → ¬t.IsFile i x →
    g.rollBack i ∨ (g.dropFile ∧ MayWriteDir s x)
  dirGone : ∀ i x, s.IsDir i x → ¬t.IsDir i x → g.dropDir ∧ MayWriteDir s x
  content : ∀ i, t.fused i ≠ 0 → s.fused i ≠ 0 ∧ (¬g.content i → SameFile s t i)
  fmode : ∀ i, t.fmode i ≠ s.fmode i → g.mode ∧ mayChmod s (s.fowner i)
  dmode : ∀ i, t.dmode i ≠ s.dmode i → g.mode ∧ mayChmod s (s.downer i)
  fowner : t.fowner = s.fowner
  downer : t.downer = s.downer

namespace Shrinks

variable {g : Grant} {s t t' : FsState}

theorem refl (g : Grant) (s : FsState) : Shrinks g s s where
  uid := rfl
  files _ _ h := h
  dirs _ _ h := h
  fileGone _ _ h hn := absurd h hn
  dirGone _ _ h hn := absurd h hn
  content i hused := ⟨hused, fun _ => SameFile.refl s i⟩
  fmode _ h := absurd rfl h
  dmode _ h := absurd rfl h
  fowner := rfl
  downer := rfl

theorem same {bs : List Block} (h : Shrinks g s t) (hwild : ¬g.wild) (hdata : DataInv t bs)
    (hprim : Prim g t t') (hsame : SameEntries t t')
    : Shrinks g s t' where
  uid := by rw [hsame.fsCurUid, h.uid]
  files i x hi := h.files i x ((hsame.isFile i x).mp hi)
  dirs i x hi := h.dirs i x ((hsame.isDir i x).mp hi)
  fileGone i x hi hn := h.fileGone i x hi (fun ht => hn ((hsame.isFile i x).mpr ht))
  dirGone i x hi hn := h.dirGone i x hi (fun ht => hn ((hsame.isDir i x).mpr ht))
  content i hused := by
    have hused' : t.fused i ≠ 0 := by rwa [← hsame.fused]
    refine ⟨(h.content i hused').1, ?_⟩
    intro hcontent
    exact ((h.content i hused').2 hcontent).trans ((hdata.prim hwild hprim).2 i hcontent hused' hused)
  fmode := by rw [hsame.fmode]; exact h.fmode
  dmode := by rw [hsame.dmode]; exact h.dmode
  fowner := by rw [hsame.fowner, h.fowner]
  downer := by rw [hsame.downer, h.downer]

theorem mayWriteDir {x : Bytes} (h : Shrinks g s t) (hmode : ¬g.mode) (hmay : MayWriteDir t x)
    : MayWriteDir s x := by
  obtain ⟨d, hd, hperm⟩ := hmay
  refine ⟨d, h.dirs d _ hd, ?_⟩
  have hdmode : t.dmode d = s.dmode d := by
    by_contra hne
    exact hmode (h.dmode d hne).1
  unfold permAllows at hperm ⊢
  rwa [h.uid, hdmode, h.downer] at hperm

theorem dropFile {bs : List Block} {j : Fin maxF} (h : Shrinks g s t) (hwild : ¬g.wild)
    (hdata : DataInv t bs) (hprim : Prim g t t')
    (hfiles : ∀ i x, t'.IsFile i x ↔ i ≠ j ∧ t.IsFile i x)
    (hused : ∀ i, t'.fused i ≠ 0 → t.fused i ≠ 0)
    (hgone : ∀ x, t.IsFile j x → g.rollBack j ∨ (g.dropFile ∧ MayWriteDir s x))
    (huid : t'.fsCurUid = t.fsCurUid) (hdname : t'.dname = t.dname) (hdused : t'.dused = t.dused)
    (hfmode : t'.fmode = t.fmode)
    (hdmode : t'.dmode = t.dmode) (hfowner : t'.fowner = t.fowner) (hdowner : t'.downer = t.downer)
    : Shrinks g s t' where
  uid := by rw [huid, h.uid]
  files i x hi := h.files i x ((hfiles i x).mp hi).2
  dirs i x hi := by
    apply h.dirs
    unfold FsState.IsDir at hi ⊢
    rwa [hdname, hdused] at hi
  fileGone i x hi hn := by
    by_cases ht : t.IsFile i x
    . by_cases hij : i = j
      . subst hij
        exact hgone x ht
      . exact absurd ((hfiles i x).mpr ⟨hij, ht⟩) hn
    . exact h.fileGone i x hi ht
  dirGone i x hi hn := by
    apply h.dirGone i x hi
    unfold FsState.IsDir at hn ⊢
    rwa [hdname, hdused] at hn
  content i hi := by
    have hi' := hused i hi
    refine ⟨(h.content i hi').1, ?_⟩
    intro hcontent
    exact ((h.content i hi').2 hcontent).trans ((hdata.prim hwild hprim).2 i hcontent hi' hi)
  fmode := by rw [hfmode]; exact h.fmode
  dmode := by rw [hdmode]; exact h.dmode
  fowner := by rw [hfowner, h.fowner]
  downer := by rw [hdowner, h.downer]

theorem no_slash {x : Bytes} (h : Shrinks g s t) (htails : NamesAvoid SlashTail s)
    (hx : t.UsedFile x ∨ t.UsedDir x) (hroot : x ≠ [slash])
    : ¬[slash] <:+ x := by
  intro hsuffix
  refine htails x ?_ ⟨hroot, hsuffix⟩
  obtain ⟨i, hi⟩ | ⟨i, hi⟩ := hx
  . exact Or.inl ⟨i, h.files i x hi⟩
  . exact Or.inr ⟨i, h.dirs i x hi⟩

theorem mayWriteDir_of_checked {x : Bytes} (h : Shrinks g s t) (htails : NamesAvoid SlashTail s)
    (hns : NsInv t) (hmode : ¬g.mode) (hroot : t.UsedDir [slash]) (hx : t.UsedFile x ∨ t.UsedDir x)
    (hne : x ≠ [slash]) (hmay : (mayModifyParent t x).1)
    : MayWriteDir s x := by
  have hno := h.no_slash htails hx hne
  have htext : PathText x := by
    obtain ⟨i, hi⟩ | ⟨i, hi⟩ := hx
    . exact hns.files i x hi
    . exact hns.dirs i x hi
  apply h.mayWriteDir hmode
  exact mayWriteDir_of_may htext hno (PathText.parentDir_used hns hroot hx hno) hmay

theorem dropDir {bs : List Block} {j : Fin maxD} {x : Bytes} (h : Shrinks g s t) (hwild : ¬g.wild)
    (hdata : DataInv t bs) (hprim : Prim g t (t.dropDir j)) (hx : t.IsDir j x)
    (hgone : g.dropDir ∧ MayWriteDir s x)
    : Shrinks g s (t.dropDir j) where
  uid := h.uid
  files := h.files
  dirs i y hi := h.dirs i y (FsState.isDir_dropDir.mp hi).2
  fileGone := h.fileGone
  dirGone i y hi hn := by
    by_cases ht : t.IsDir i y
    . by_cases hij : i = j
      . subst hij
        rwa [← ht.2, hx.2]
      . exact absurd (FsState.isDir_dropDir.mpr ⟨hij, ht⟩) hn
    . exact h.dirGone i y hi ht
  content i hi := by
    refine ⟨(h.content i hi).1, ?_⟩
    intro hcontent
    exact ((h.content i hi).2 hcontent).trans ((hdata.prim hwild hprim).2 i hcontent hi hi)
  fmode := h.fmode
  dmode := h.dmode
  fowner := h.fowner
  downer := h.downer

theorem chmod {fmode : Fin maxF → UInt16} {dmode : Fin maxD → UInt16} (h : Shrinks g s t)
    (hfile : ∀ i, fmode i ≠ t.fmode i → mayChmod t (t.fowner i))
    (hdir : ∀ i, dmode i ≠ t.dmode i → mayChmod t (t.downer i)) (hgrant : g.mode)
    : Shrinks g s { t with fmode := fmode, dmode := dmode } where
  uid := h.uid
  files := h.files
  dirs := h.dirs
  fileGone := h.fileGone
  dirGone := h.dirGone
  content i hi := ⟨(h.content i hi).1, fun hcontent =>
    ⟨((h.content i hi).2 hcontent).fdata, ((h.content i hi).2 hcontent).fsize,
      ((h.content i hi).2 hcontent).bytes⟩⟩
  fmode i hne := by
    by_cases ht : t.fmode i = s.fmode i
    . refine ⟨hgrant, ?_⟩
      have hmay := hfile i (by rwa [ht])
      unfold mayChmod at hmay ⊢
      rwa [h.uid, h.fowner] at hmay
    . exact h.fmode i ht
  dmode i hne := by
    by_cases ht : t.dmode i = s.dmode i
    . refine ⟨hgrant, ?_⟩
      have hmay := hdir i (by rwa [ht])
      unfold mayChmod at hmay ⊢
      rwa [h.uid, h.downer] at hmay
    . exact h.dmode i ht
  fowner := h.fowner
  downer := h.downer

variable {bs : List Block}

theorem prim (hcreate : ∀ x, ¬g.create x) (howner : ¬g.owner) (hwild : ¬g.wild)
    (hmode : g.dropDir ∨ g.dropFile → ¬g.mode) (htails : NamesAvoid SlashTail s) (hns : NsInv t)
    (hdata : DataInv t bs) (hroot : t.UsedDir [slash]) (hroot' : t'.UsedDir [slash])
    (h : Shrinks g s t) (hprim : Prim g t t')
    : Shrinks g s t' := by
  have hsame := h.same hwild hdata hprim
  cases hprim with
  | errno => exact hsame ⟨rfl, rfl, rfl, rfl, rfl, rfl, rfl, rfl, rfl⟩
  | chdir => exact hsame ⟨rfl, rfl, rfl, rfl, rfl, rfl, rfl, rfl, rfl⟩
  | addDir path i _ _ _ _ _ _ _ hgrant => exact absurd hgrant (hcreate _)
  | dropDir path i hdir _ hfiles hdirs hmay hgrant =>
    have hne : absPath t.cwd.str path ≠ [slash] := by
      intro heq
      obtain ⟨j, hj⟩ := hroot'
      obtain ⟨hji, hj⟩ := FsState.isDir_dropDir.mp hj
      rw [heq] at hdir
      exact hji (hns.dir_unique j i _ hj hdir)
    refine h.dropDir hwild hdata (.dropDir path i hdir ‹_› hfiles hdirs hmay hgrant) hdir
      ⟨hgrant, ?_⟩
    exact h.mayWriteDir_of_checked htails hns (hmode (Or.inl hgrant)) hroot (Or.inr ⟨i, hdir⟩) hne
      hmay
  | addFile path i _ _ _ _ _ hgrant => exact absurd hgrant (hcreate _)
  | dropFile path i hfile hmay hgrant =>
    refine h.dropFile (j := i) hwild hdata (.dropFile path i hfile hmay hgrant) ?_ ?_ ?_ rfl rfl rfl
      rfl rfl rfl rfl
    . intro j x
      exact FsState.isFile_dropFile
    . intro j hj
      by_cases hij : j = i
      . simp [FsState.freeData, FsState.dropFile, hij] at hj
      . simpa [FsState.freeData, FsState.dropFile, hij] using hj
    . intro x hx
      right
      have hxeq : x = absPath t.cwd.str path := by rw [← hx.2, hfile.2]
      have hne : x ≠ [slash] := by
        rintro rfl
        exact hns.disjoint _ ⟨i, hx⟩ hroot
      rw [← hxeq] at hmay
      exact ⟨hgrant, h.mayWriteDir_of_checked htails hns (hmode (Or.inr hgrant)) hroot
        (Or.inl ⟨i, hx⟩) hne hmay⟩
  | rollBack i hused hsize hnone hgrant =>
    refine h.dropFile (j := i) hwild hdata (.rollBack i hused hsize hnone hgrant) ?_ ?_ ?_ rfl rfl rfl
      rfl rfl rfl rfl
    . intro j x
      exact FsState.isFile_dropFile
    . intro j hj
      by_cases hij : j = i
      . simp [FsState.dropFile, hij] at hj
      . simpa [FsState.dropFile, hij] using hj
    . intro x _
      exact Or.inl hgrant
  | coalesce => exact hsame (.of_frame rfl)
  | resize i size => exact hsame (.of_frame (FsState.frame_fdataResize i size))
  | store i offset data => exact hsame (.of_frame (FsState.frame_storeFile i offset data))
  | terminate i => exact hsame (.of_frame (FsState.frame_storeFile i _ _))
  | chmod fmode dmode hfile hdir hgrant => exact h.chmod hfile hdir hgrant
  | chown _ _ hgrant => contradiction

theorem usedDir_back {x : Bytes} (hcreate : ∀ x, ¬g.create x) (hprim : Prim g t t')
    (h : t'.UsedDir x)
    : t.UsedDir x := by
  cases hprim with
  | addDir path i _ _ _ _ _ _ _ hgrant => exact absurd hgrant (hcreate _)
  | dropDir path i =>
    obtain ⟨j, hj⟩ := h
    exact ⟨j, (FsState.isDir_dropDir.mp hj).2⟩
  | resize i size => exact ((FsState.sameNames_fdataResize i size).usedDir x).mp h
  | store i offset data => exact ((FsState.sameNames_storeFile i offset data).usedDir x).mp h
  | terminate i => exact ((FsState.sameNames_storeFile i _ _).usedDir x).mp h
  | _ => exact h

theorem prims (hcreate : ∀ x, ¬g.create x) (howner : ¬g.owner) (hwild : ¬g.wild)
    (hmode : g.dropDir ∨ g.dropFile → ¬g.mode) (hinv : AuthInv s) (hprims : Prims g s t)
    (hroot : t.UsedDir [slash])
    : Shrinks g s t := by
  induction hprims with
  | refl => exact Shrinks.refl g s
  | tail hprims hprim ih =>
    have hroot' := usedDir_back hcreate hprim hroot
    obtain ⟨bs, hdata⟩ := hinv.data
    obtain ⟨bs', hdata'⟩ := hdata.prims hwild hprims
    exact (ih hroot').prim hcreate howner hwild hmode hinv.tails (hinv.ns.prims hprims) hdata' hroot'
      hroot hprim

end Shrinks

structure Made (s t : FsState) : Prop where
  files : ∀ i x, t.IsFile i x → s.IsFile i x ∨ MayWriteDir s x
  dirs : ∀ i x, t.IsDir i x → s.IsDir i x ∨ MayWriteDir s x
  file : ∀ i x, s.IsFile i x → t.IsFile i x ∧ SameFile s t i ∧ t.fmode i = s.fmode i
    ∧ t.fowner i = s.fowner i
  dir : ∀ i x, s.IsDir i x → t.IsDir i x ∧ t.dmode i = s.dmode i ∧ t.downer i = s.downer i

theorem Made.errno (s : FsState) (e : Nat) : Made s { s with fsErrno := e } where
  files _ _ h := Or.inl h
  dirs _ _ h := Or.inl h
  file _ _ h := ⟨h, ⟨rfl, rfl, rfl⟩, rfl, rfl⟩
  dir _ _ h := ⟨h, rfl, rfl⟩

namespace AuthOk

variable {g : Grant} {s t u : FsState}

theorem of_shrinks (h : Shrinks g s t) (huid : s.fsCurUid ≠ 0)
    (hcontent : ∀ i, g.content i → s.fused i ≠ 0 → permAllows s (s.fmode i) (s.fowner i) 0o200)
    (hroll : ∀ i x, g.rollBack i → s.IsFile i x → MayWriteDir s x)
    : AuthOk s t where
  content i x hi ht hne := by
    by_cases hg : g.content i
    . exact hcontent i hg hi.1
    . have hsame := (h.content i ht.1).2 hg
      cases hne with
      | inl hne => exact absurd hsame.fsize hne
      | inr hne => exact absurd hsame.bytes hne
  fileAppears i x ht hn := absurd (h.files i x ht) hn
  dirAppears i x ht hn := absurd (h.dirs i x ht) hn
  fileGone i x hi hn := by
    cases h.fileGone i x hi hn with
    | inl hg => exact hroll i x hg hi
    | inr hg => exact hg.2
  dirGone i x hi hn := (h.dirGone i x hi hn).2
  fmode i x _ _ hne := by
    have hmay := (h.fmode i hne).2
    unfold mayChmod at hmay
    simp only [huid, false_or, decide_eq_true_eq] at hmay
    exact hmay.symm
  dmode i x _ _ hne := by
    have hmay := (h.dmode i hne).2
    unfold mayChmod at hmay
    simp only [huid, false_or, decide_eq_true_eq] at hmay
    exact hmay.symm
  fowner i x _ _ := by rw [h.fowner]
  downer i x _ _ := by rw [h.downer]

theorem of_made (hmade : Made s t) (h : Shrinks g t u) (hcontent : ∀ i, g.content i → s.fused i = 0)
    (hroll : ∀ i, g.rollBack i → s.fused i = 0) (hdropFile : ¬g.dropFile) (hdropDir : ¬g.dropDir)
    (hmode : ¬g.mode)
    : AuthOk s u where
  content i x hi hu hne := by
    have hsame := (h.content i hu.1).2 (fun hg => hi.1 (hcontent i hg))
    have hsame := (hmade.file i x hi).2.1.trans hsame
    cases hne with
    | inl hne => exact absurd hsame.fsize hne
    | inr hne => exact absurd hsame.bytes hne
  fileAppears i x hu hn := by
    cases hmade.files i x (h.files i x hu) with
    | inl hs => exact absurd hs hn
    | inr hmay => exact hmay
  dirAppears i x hu hn := by
    cases hmade.dirs i x (h.dirs i x hu) with
    | inl hs => exact absurd hs hn
    | inr hmay => exact hmay
  fileGone i x hi hn := by
    cases h.fileGone i x (hmade.file i x hi).1 hn with
    | inl hg => exact absurd (hroll i hg) hi.1
    | inr hg => exact absurd hg.1 hdropFile
  dirGone i x hi hn := absurd (h.dirGone i x (hmade.dir i x hi).1 hn).1 hdropDir
  fmode i x hi _ hne := by
    rw [← (hmade.file i x hi).2.2.1] at hne
    exact absurd (h.fmode i hne).1 hmode
  dmode i x hi _ hne := by
    rw [← (hmade.dir i x hi).2.1] at hne
    exact absurd (h.dmode i hne).1 hmode
  fowner i x hi _ := by rw [h.fowner, (hmade.file i x hi).2.2.2]
  downer i x hi _ := by rw [h.downer, (hmade.dir i x hi).2.2]

end AuthOk

section Create

variable {g : Grant} {s : FsState}

theorem mayWriteDir_of_created {path : CStr} {t : FsState} (hns : NsInv t) (hroot : t.UsedDir [slash])
    (hx : t.UsedFile (absPath s.cwd.str path) ∨ t.UsedDir (absPath s.cwd.str path))
    (hne : absPath s.cwd.str path ≠ [slash]) (htail : ¬SlashTail (absPath s.cwd.str path))
    (hback : s.UsedDir (parentDir (absPath s.cwd.str path))
      ∨ ¬t.UsedDir (parentDir (absPath s.cwd.str path)))
    (hmay : (mayModifyParent s (absPath s.cwd.str path)).1)
    : MayWriteDir s (absPath s.cwd.str path) := by
  have hno : ¬[slash] <:+ absPath s.cwd.str path := fun hsuffix => htail ⟨hne, hsuffix⟩
  have hused := PathText.parentDir_used hns hroot hx hno
  cases hback with
  | inl hback => exact mayWriteDir_of_may (absPath_text _ _) hno hback hmay
  | inr hback => contradiction

theorem ne_parentDir {x : Bytes} (h : PathText x) (hne : x ≠ [slash]) : parentDir x ≠ x := by
  have hmem : slash ∈ x := List.mem_of_mem_head? (by rw [h.head]; rfl)
  obtain ⟨w, _, heq⟩ := eq_append_parentText hmem
  unfold parentDir
  split
  . exact hne.symm
  . intro hself
    have := congrArg List.length heq
    rw [hself] at this
    simp at this

theorem Made.addFile {path : CStr} {i : Fin maxF} (hinv : AuthInv s)
    (htail : ¬SlashTail (absPath s.cwd.str path)) (hfree : s.fused i = 0)
    (hprim : Prim g s (s.addFile i (absPath s.cwd.str path)))
    (hdir : ¬s.UsedDir (absPath s.cwd.str path))
    (hmay : (mayModifyParent s (absPath s.cwd.str path)).1)
    : Made s (s.addFile i (absPath s.cwd.str path)) := by
  have hfiles : ∀ j x, (s.addFile i (absPath s.cwd.str path)).IsFile j x
      ↔ (j = i ∧ x = absPath s.cwd.str path) ∨ (j ≠ i ∧ s.IsFile j x) := fun j x =>
    FsState.isFile_addFile (CStr.absPath_no_nul s path) (absPath_text _ _).length_le
  have hmade : MayWriteDir s (absPath s.cwd.str path) := by
    apply mayWriteDir_of_created (hinv.ns.prim hprim) hinv.root
    . exact Or.inl ⟨i, (hfiles i _).mpr (Or.inl ⟨rfl, rfl⟩)⟩
    . intro heq
      rw [heq] at hdir
      exact hdir hinv.root
    . exact htail
    . exact Classical.em _
    . exact hmay
  refine ⟨?_, fun _ _ h => Or.inl h, ?_, fun _ _ h => ⟨h, rfl, rfl⟩⟩
  . intro j x hj
    obtain ⟨_, rfl⟩ | ⟨_, hj⟩ := (hfiles j x).mp hj
    . exact Or.inr hmade
    . exact Or.inl hj
  . intro j x hj
    have hji : j ≠ i := by
      rintro rfl
      exact hj.1 hfree
    obtain ⟨bs, hdata⟩ := hinv.data
    refine ⟨(hfiles j x).mpr (Or.inr ⟨hji, hj⟩), (hdata.addFile i _).2 j hji, ?_, ?_⟩
    . simp [FsState.addFile, hji]
    . simp [FsState.addFile, hji]

theorem Made.addDir {path : CStr} {i : Fin maxD} (hinv : AuthInv s)
    (htail : ¬SlashTail (absPath s.cwd.str path)) (hfree : s.dused i = 0)
    (hprim : Prim g s (s.addDir i (absPath s.cwd.str path)))
    (hne : absPath s.cwd.str path ≠ [slash])
    (hmay : (mayModifyParent s (absPath s.cwd.str path)).1)
    : Made s (s.addDir i (absPath s.cwd.str path)) := by
  have hdirs : ∀ j x, (s.addDir i (absPath s.cwd.str path)).IsDir j x
      ↔ (j = i ∧ x = absPath s.cwd.str path) ∨ (j ≠ i ∧ s.IsDir j x) := fun j x =>
    FsState.isDir_addDir (CStr.absPath_no_nul s path) (absPath_text _ _).length_le
  have hkeep : ∀ j x, s.IsDir j x → j ≠ i := by
    rintro j x hj rfl
    exact hj.1 hfree
  have hmade : MayWriteDir s (absPath s.cwd.str path) := by
    apply mayWriteDir_of_created (hinv.ns.prim hprim)
    . obtain ⟨j, hj⟩ := hinv.root
      exact ⟨j, (hdirs j _).mpr (Or.inr ⟨hkeep j _ hj, hj⟩)⟩
    . exact Or.inr ⟨i, (hdirs i _).mpr (Or.inl ⟨rfl, rfl⟩)⟩
    . exact hne
    . exact htail
    . -- the parent of the new directory is another one
      by_cases hused : s.UsedDir (parentDir (absPath s.cwd.str path))
      . exact Or.inl hused
      . right
        rintro ⟨j, hj⟩
        obtain ⟨_, heq⟩ | ⟨_, hj⟩ := (hdirs j _).mp hj
        . exact ne_parentDir (absPath_text _ _) hne heq
        . exact hused ⟨j, hj⟩
    . exact hmay
  refine ⟨fun _ _ h => Or.inl h, ?_, fun _ _ h => ⟨h, ⟨rfl, rfl, rfl⟩, rfl, rfl⟩, ?_⟩
  . intro j x hj
    obtain ⟨_, rfl⟩ | ⟨_, hj⟩ := (hdirs j x).mp hj
    . exact Or.inr hmade
    . exact Or.inl hj
  . intro j x hj
    have hji := hkeep j x hj
    refine ⟨(hdirs j x).mpr (Or.inr ⟨hji, hj⟩), ?_, ?_⟩
    . simp [FsState.addDir, hji]
    . simp [FsState.addDir, hji]

theorem Made.of_errno {e : Nat} {t : FsState} (h : Made { s with fsErrno := e } t) : Made s t where
  files := h.files
  dirs := h.dirs
  file i x hi := by
    obtain ⟨hfile, hsame, hrest⟩ := h.file i x hi
    exact ⟨hfile, ⟨hsame.fdata, hsame.fsize, hsame.bytes⟩, hrest⟩
  dir := h.dir

theorem AuthInv.errno (h : AuthInv s) (e : Nat) : AuthInv { s with fsErrno := e } where
  ns := h.ns.prim (g := Grant.any) (.errno e)
  tails := h.tails
  root := h.root
  data := by
    obtain ⟨bs, hdata⟩ := h.data
    exact ⟨bs, hdata.pool, hdata.held, hdata.distinct⟩

theorem fsCreateFile_made (path : CStr) (hinv : AuthInv s)
    (htail : ¬SlashTail (absPath s.cwd.str path))
    : Made s (fsCreateFile s path).2 ∧ AuthInv (fsCreateFile s path).2 := by
  have hwild : ¬({ Grant.any with wild := False, create := (¬SlashTail ·) } : Grant).wild := id
  obtain ⟨e, heq, _⟩ | ⟨i, heq, hfree, hdir, hmay, hprim⟩ :=
    fsCreateFile_cases (g := { Grant.any with wild := False, create := (¬SlashTail ·) }) s path
      (fun _ => htail)
  . rw [heq]
    exact ⟨Made.errno s e, hinv.errno e⟩
  . rw [heq]
    have hinv₀ := hinv.errno 0
    obtain ⟨bs, hdata⟩ := hinv₀.data
    refine ⟨(Made.addFile hinv₀ htail hfree hprim hdir hmay).of_errno, ?_⟩
    exact ⟨hinv₀.ns.prim hprim, hinv₀.tails.prim (fun x hx => hx) hprim, hinv.root,
      (hdata.prim hwild hprim).1⟩

theorem fsCreateDirectory_made (path : CStr) (hinv : AuthInv s)
    (htail : ¬SlashTail (absPath s.cwd.str path))
    : Made s (fsCreateDirectory s path).2 := by
  obtain ⟨e, heq⟩ | ⟨i, heq, hfree, hne, hmay, hprim⟩ :=
    fsCreateDirectory_cases (g := Grant.any) s path trivial
  . rw [heq]
    exact Made.errno s e
  . rw [heq]
    exact (Made.addDir (hinv.errno 0) htail hfree hprim hne hmay).of_errno

end Create

/--
There is no room for `size` bytes, neither in a file nor in the pool.
-/
def NoRoom (s : FsState) (size : Nat) : Prop :=
  maxFileData - 1 < size ∨ (size ≠ 0 ∧ (fpoolAlloc s.fpoolBytes s.fpool (size + 1)).1 = none)

theorem noRoom_of_fdataResize {s : FsState} {i : Fin maxF} {size : Nat}
    (h : (fdataResize s i size).1 ≠ 0)
    : NoRoom s size := by
  unfold fdataResize at h
  unfold NoRoom
  split at h
  . left
    assumption
  . split at h
    . contradiction
    . next hne =>
      right
      refine ⟨hne, ?_⟩
      split at h
      . next heq => rw [heq]
      . contradiction

namespace FsOp

/--
The checks that are missing: write access to a file before it is resized or written in place, and
write access to its directory before an empty file that cannot be written is taken off.
-/
def Checked (op : FsOp) (s : FsState) : Prop :=
  match op with
  | preallocFile path size =>
    ∀ i, s.IsFile i (absPath s.cwd.str path) → size.toNat ≠ 0 → size.toNat ≤ maxFileData - 1 →
      permAllows s (s.fmode i) (s.fowner i) 0o200
  | writeAt path offset data =>
    ∀ i, s.IsFile i (absPath s.cwd.str path) →
      (offset.toNat + data.val.length) % 2 ^ 32 ≤ s.fsize i → data.val ≠ [] →
      permAllows s (s.fmode i) (s.fowner i) 0o200
  | writeFile path data =>
    ∀ i, s.IsFile i (absPath s.cwd.str path) → permAllows s (s.fmode i) (s.fowner i) 0o200 →
      s.fsize i = 0 → s.fdata i = none → NoRoom s data.val.length →
      MayWriteDir s (absPath s.cwd.str path)
  | _ => True

end FsOp

/--
The call keeps the root and adds no name with a slash at its end.
-/
def AuthSafe (s : FsState) (c : FsCall) : Prop :=
  RootSafe s c ∧ ∀ x ∈ c.op.created s, ¬SlashTail x

theorem AuthInv.setUid {s : FsState} (h : AuthInv s) (uid : Int32) : AuthInv { s with fsCurUid := uid } where
  ns := h.ns.setUid uid
  tails := h.tails
  root := h.root
  data := by
    obtain ⟨bs, hdata⟩ := h.data
    exact ⟨bs, hdata.setUid uid⟩

theorem AuthInv.call {c : FsCall} {s s' : FsState} (hok : AuthSafe s c) (h : AuthInv s)
    (hcall : c.Step s s')
    : AuthInv s' where
  ns := h.ns.call hcall
  tails := h.tails.call hok.2 hcall
  root := usedDir_root_call hok.1 h.ns h.root hcall
  data := by
    obtain ⟨bs, hdata⟩ := h.data
    exact hdata.call hok.1.1 hcall

theorem AuthInv.run {s₀ s : FsState} (h16 : 16 ∣ s₀.fpoolBytes.toNat)
    (h : FsRun AuthSafe (fsInit s₀) s)
    : AuthInv s := by
  apply Run.keeps (I := AuthInv) (fun s c s' hok hinv hcall => hinv.call hok hcall) _ h
  exact ⟨NsInv.init s₀, NamesAvoid.init (by decide) s₀, ⟨rootSlot, isDir_fsInit.mpr ⟨rfl, rfl⟩⟩,
    DataInv.init_run h16⟩

section Grants

/-!
What the operations are granted for a user who is not root.
-/

variable (s : FsState)

def deleteGrant : Grant where
  create _ := False
  dropDir := True
  dropFile := True
  content _ := False
  rollBack _ := False
  mode := False
  owner := False
  wild := False

def modeGrant : Grant :=
  { deleteGrant with dropDir := False, dropFile := False, mode := True }

def writeGrant : Grant :=
  { modeGrant with
    mode := False
    content := fun i => s.fused i = 0 ∨ permAllows s (s.fmode i) (s.fowner i) 0o200
    rollBack := fun i => s.fused i = 0 ∨ ∀ x, s.IsFile i x → MayWriteDir s x }

def newGrant : Grant :=
  { modeGrant with
    mode := False
    content := fun i => s.fused i = 0
    rollBack := fun i => s.fused i = 0 }

end Grants

section Calls

variable {op : FsOp} {fuel : Nat} {rc : Int} {s s' : FsState}

theorem authOk_delete (hinv : AuthInv s) (huid : s.fsCurUid ≠ 0) (hwrap : op.NoWrap s)
    (hroot : s'.UsedDir [slash]) (hneeds : op.Needs s deleteGrant)
    (hexec : op.exec fuel s = some (rc, s'))
    : AuthOk s s' := by
  have hprims := FsOp.exec_prims (fun _ => hwrap) hneeds hexec
  apply AuthOk.of_shrinks (Shrinks.prims (fun _ h => h) id id (fun _ => id) hinv hprims hroot) huid
  . intro i hg
    contradiction
  . intro i x hg
    contradiction

theorem authOk_chmod (hinv : AuthInv s) (huid : s.fsCurUid ≠ 0) (hwrap : op.NoWrap s)
    (hroot : s'.UsedDir [slash]) (hneeds : op.Needs s modeGrant)
    (hexec : op.exec fuel s = some (rc, s'))
    : AuthOk s s' := by
  have hprims := FsOp.exec_prims (fun _ => hwrap) hneeds hexec
  have hdrop : modeGrant.dropDir ∨ modeGrant.dropFile → ¬modeGrant.mode := by
    rintro (h | h)
    . exact absurd h id
    . exact absurd h id
  apply AuthOk.of_shrinks (Shrinks.prims (fun _ h => h) id id hdrop hinv hprims hroot) huid
  . intro i hg
    contradiction
  . intro i x hg
    contradiction

theorem authOk_write (op : FsOp) (fuel : Nat) (hinv : AuthInv s) (huid : s.fsCurUid ≠ 0) (hwrap : op.NoWrap s)
    (hroot : s'.UsedDir [slash]) (hneeds : op.Needs s (writeGrant s))
    (hexec : op.exec fuel s = some (rc, s'))
    : AuthOk s s' := by
  have hprims := FsOp.exec_prims (fun _ => hwrap) hneeds hexec
  apply AuthOk.of_shrinks (Shrinks.prims (fun _ h => h) id id (fun _ => id) hinv hprims hroot) huid
  . intro i hg hused
    cases hg with
    | inl hfree => contradiction
    | inr hperm => exact hperm
  . intro i x hg hx
    cases hg with
    | inl hfree => exact absurd hfree hx.1
    | inr hmay => exact hmay x hx

theorem authOk_new {path : CStr} {e : Nat} (hinv : AuthInv s)
    (htail : ¬SlashTail (absPath s.cwd.str path)) (hroot : s'.UsedDir [slash])
    (hprims : Prims (newGrant s) (fsCreateFile { s with fsErrno := e } path).2 s')
    : AuthOk s s' := by
  obtain ⟨hmade, hinv'⟩ := fsCreateFile_made path (hinv.errno e) htail
  exact AuthOk.of_made hmade.of_errno
    (Shrinks.prims (fun _ h => h) id id (fun _ => id) hinv' hprims hroot) (fun _ h => h) (fun _ h => h)
    id id id

theorem authOk_refl (huid : s.fsCurUid ≠ 0) : AuthOk s s := by
  apply AuthOk.of_shrinks (Shrinks.refl deleteGrant s) huid
  . intro i hg
    contradiction
  . intro i x hg
    contradiction

theorem authOk_writeFile {path : CStr} {data : Data} (hinv : AuthInv s) (huid : s.fsCurUid ≠ 0)
    (hroot : (fsWriteFile s path data.val).2.UsedDir [slash])
    (htail : ¬SlashTail (absPath s.cwd.str path)) (hchecked : (FsOp.writeFile path data).Checked s)
    : AuthOk s (fsWriteFile s path data.val).2 := by
  cases hidx : fileIndex s (absPath s.cwd.str path) with
  | none =>
    refine authOk_new hinv htail hroot (fsWriteFile_new path data.val hidx ?_)
    intro i hfree
    exact ⟨hfree, hfree⟩
  | some idx =>
    have hused : s.UsedFile (absPath s.cwd.str path) := ⟨idx, fileIndex_eq_some hidx⟩
    refine authOk_write (.writeFile path data) 0 hinv huid trivial hroot ?_ rfl
    refine ⟨fun hn => absurd hused hn, fun i hfree => ⟨Or.inl hfree, Or.inl hfree⟩,
      fun i _ hperm => Or.inr hperm, ?_⟩
    intro i hi hperm hsize hdata hfail
    right
    intro x hx
    have hxeq : x = absPath s.cwd.str path := by rw [← hx.2, hi.2]
    rw [hxeq]
    exact hchecked i hi hperm hsize hdata (noRoom_of_fdataResize hfail)

theorem authOk_appendFile {path : CStr} {data : Data} (hinv : AuthInv s) (huid : s.fsCurUid ≠ 0)
    (hwrap : (FsOp.appendFile path data).NoWrap s)
    (hroot : (fsAppendFile s path data.val).2.UsedDir [slash])
    (htail : ¬SlashTail (absPath s.cwd.str path))
    : AuthOk s (fsAppendFile s path data.val).2 := by
  cases hidx : fileIndex s (absPath s.cwd.str path) with
  | none =>
    cases fsAppendFile_new (g := newGrant s) path data.property hidx (fun i hfree => hfree) with
    | inl heq =>
      rw [heq]
      exact AuthOk.of_made (Made.errno s 0) (Shrinks.refl (newGrant s) _) (fun _ h => h)
        (fun _ h => h) id id id
    | inr hprims => exact authOk_new hinv htail hroot hprims
  | some idx =>
    have hused : s.UsedFile (absPath s.cwd.str path) := ⟨idx, fileIndex_eq_some hidx⟩
    refine authOk_write (.appendFile path data) 0 hinv huid hwrap hroot ?_ rfl
    exact ⟨fun hn => absurd hused hn, fun i hfree => Or.inl hfree, fun i _ hperm => Or.inr hperm⟩

theorem authOk_preallocFile {path : CStr} {size : UInt32} (hinv : AuthInv s) (huid : s.fsCurUid ≠ 0)
    (hroot : (fsPreallocFile s path size.toNat).2.UsedDir [slash])
    (htail : ¬SlashTail (absPath s.cwd.str path))
    (hchecked : (FsOp.preallocFile path size).Checked s)
    : AuthOk s (fsPreallocFile s path size.toNat).2 := by
  cases hidx : fileIndex s (absPath s.cwd.str path) with
  | none =>
    cases fsPreallocFile_new (g := newGrant s) path size.toNat hidx (fun i hfree => hfree) with
    | inl heq =>
      rw [heq]
      exact authOk_refl huid
    | inr hprims => exact authOk_new (e := s.fsErrno) hinv htail hroot hprims
  | some idx =>
    have hused : s.UsedFile (absPath s.cwd.str path) := ⟨idx, fileIndex_eq_some hidx⟩
    refine authOk_write (.preallocFile path size) 0 hinv huid trivial hroot ?_ rfl
    exact ⟨fun hn => absurd hused hn, fun i hfree => Or.inl hfree,
      fun i hi hne hle => Or.inr (hchecked i hi hne hle)⟩

theorem AuthOk.call {c : FsCall} (hinv : AuthInv s) (huid : c.uid ≠ 0)
    (hop : ∀ oldUid newUid, c.op ≠ .reassignUid oldUid newUid) (hsafe : AuthSafe s c)
    (hchecked : c.op.Checked { s with fsCurUid := c.uid }) (hcall : c.Step s s')
    : AuthOk { s with fsCurUid := c.uid } s' := by
  have hroot := (hinv.call hsafe hcall).root
  have hinv := hinv.setUid c.uid
  obtain ⟨⟨hwrap, _⟩, htail⟩ := hsafe
  obtain ⟨fuel, rc, hexec⟩ := hcall
  obtain ⟨uid, op⟩ := c
  simp only [FsCall.NoWrap] at *
  generalize hs : ({ s with fsCurUid := uid } : FsState) = t at *
  have hcwd : t.cwd = s.cwd := by rw [← hs]
  have huid : t.fsCurUid ≠ 0 := by rw [← hs]; exact huid
  clear hs
  have hres : ∀ {x : Int × FsState}, some x = some (rc, s') → x.2 = s' := by
    intro x heq
    rw [Option.some.inj heq]
  cases op with
  | createDirectory path =>
    have htail := htail _ rfl
    rw [← hcwd] at htail
    rw [← hres hexec]
    exact AuthOk.of_made (fsCreateDirectory_made path hinv htail) (Shrinks.refl (newGrant t) _)
      (fun _ h => h) (fun _ h => h) id id id
  | createFile path =>
    have htail := htail _ rfl
    rw [← hcwd] at htail
    rw [← hres hexec]
    exact AuthOk.of_made (fsCreateFile_made path hinv htail).1 (Shrinks.refl (newGrant t) _)
      (fun _ h => h) (fun _ h => h) id id id
  | writeFile path data =>
    have htail := htail _ rfl
    rw [← hcwd] at htail
    rw [← hres hexec] at hroot ⊢
    exact authOk_writeFile hinv huid hroot htail hchecked
  | appendFile path data =>
    have htail := htail _ rfl
    rw [← hcwd] at htail
    rw [← hres hexec] at hroot ⊢
    exact authOk_appendFile hinv huid hwrap hroot htail
  | preallocFile path size =>
    have htail := htail _ rfl
    rw [← hcwd] at htail
    rw [← hres hexec] at hroot ⊢
    exact authOk_preallocFile hinv huid hroot htail hchecked
  | writeAt path offset data =>
    exact authOk_write _ _ hinv huid hwrap hroot (fun i hi hin hne => Or.inr (hchecked i hi hin hne)) hexec
  | deleteDirectory path => exact authOk_delete hinv huid hwrap hroot trivial hexec
  | deleteDirectoryRecursive path =>
    exact authOk_delete hinv huid hwrap hroot ⟨trivial, trivial⟩ hexec
  | deleteFile path => exact authOk_delete hinv huid hwrap hroot trivial hexec
  | listDirectory path => exact authOk_delete hinv huid hwrap hroot trivial hexec
  | changeDirectory path => exact authOk_delete hinv huid hwrap hroot trivial hexec
  | chmod path mode => exact authOk_chmod hinv huid hwrap hroot trivial hexec
  | chmodRecursive path mode => exact authOk_chmod hinv huid hwrap hroot trivial hexec
  | chown path uid => exact authOk_delete hinv huid hwrap hroot (fun h => absurd h huid) hexec
  | chownRecursive path uid =>
    exact authOk_delete hinv huid hwrap hroot (fun h => absurd h huid) hexec
  | reassignUid oldUid newUid => exact absurd rfl (hop oldUid newUid)

end Calls

theorem write_authority (s₀ s s' : FsState) (bytes : UInt32) (c : FsCall)
    (hpool : s₀.fpoolBytes = fsSetPool bytes) (hrun : FsRun AuthSafe (fsInit s₀) s)
    (huid : c.uid ≠ 0) (hop : ∀ oldUid newUid, c.op ≠ .reassignUid oldUid newUid)
    (hsafe : AuthSafe s c) (hchecked : c.op.Checked { s with fsCurUid := c.uid })
    (hcall : c.Step s s')
    : AuthOk { s with fsCurUid := c.uid } s' := by
  have h16 : 16 ∣ s₀.fpoolBytes.toNat := by
    rw [hpool]
    exact fsSetPool_dvd bytes
  exact AuthOk.call (AuthInv.run h16 hrun) huid hop hsafe hchecked hcall

section Example

/-!
Root makes `/h` for user 1000.
-/

def homePath : CStr :=
  ⟨[slash, 104], by decide⟩

def homeFile : CStr :=
  ⟨[slash, 104, slash, 102], by decide⟩

def homeMade : FsState :=
  (fsCreateDirectory { fsInit (.zeroed 64) with fsCurUid := 0 } homePath).2

def homeGiven : FsState :=
  (fsChown { homeMade with fsCurUid := 0 } homePath 1000).2

def homeUsed : FsState :=
  (fsCreateFile { homeGiven with fsCurUid := 1000 } homeFile).2

theorem homeGiven_run : FsRun AuthSafe (fsInit (.zeroed 64)) homeGiven := by
  have hmake : FsCall.Step ⟨0, .createDirectory homePath⟩ (fsInit (.zeroed 64)) homeMade :=
    FsCall.step 0 rfl
  have hgive : FsCall.Step ⟨0, .chown homePath 1000⟩ homeMade homeGiven := FsCall.step 0 rfl
  refine Run.call (Run.call .refl hmake ⟨⟨trivial, ?_⟩, ?_⟩) hgive ⟨⟨trivial, ?_⟩, ?_⟩
  . simp [FsOp.deletedDir]
  . simp [FsOp.created]
  . simp [FsOp.deletedDir]
  . decide +kernel

end Example

/--
User 1000 puts a file into `/h`.
-/
theorem write_authority_home
    : homeUsed.UsedFile homeFile.val ∧ AuthOk { homeGiven with fsCurUid := 1000 } homeUsed := by
  have hmake : FsCall.Step ⟨1000, .createFile homeFile⟩ homeGiven homeUsed := FsCall.step 0 rfl
  refine ⟨?_, write_authority (.zeroed 64) homeGiven homeUsed 64 ⟨1000, .createFile homeFile⟩
    (by decide) homeGiven_run (by decide) (by simp) ⟨⟨trivial, ?_⟩, ?_⟩ trivial hmake⟩
  . rw [← fileIndex_isSome]
    decide +kernel
  . simp [FsOp.deletedDir]
  . decide +kernel

theorem homeBytes_lt : ([1, 2, 3] : Bytes).length < 2 ^ 32 := by decide

def homeBytes : Data :=
  ⟨[1, 2, 3], homeBytes_lt⟩

def otherByte : Data :=
  ⟨[9], by decide⟩

/--
Root writes three bytes to `/h`.
-/
def rootFile : FsState :=
  (fsWriteFile { fsInit (.zeroed 64) with fsCurUid := 0 } homePath homeBytes).2

def rootFileChanged : FsState :=
  (fsWriteAt { rootFile with fsCurUid := 1000 } homePath 0 otherByte).2

/--
User 1000 overwrites the first of them.
-/
theorem write_authority_writeAt
    : ¬∀ s₀ s s' bytes (c : FsCall), s₀.fpoolBytes = fsSetPool bytes →
        FsRun (fun _ _ => True) (fsInit s₀) s → c.uid ≠ 0 →
        (∀ oldUid newUid, c.op ≠ .reassignUid oldUid newUid) → c.Step s s' →
        AuthOk { s with fsCurUid := c.uid } s' := by
  intro h
  have hmake : FsCall.Step ⟨0, .writeFile homePath homeBytes⟩ (fsInit (.zeroed 64)) rootFile :=
    FsCall.step 0 rfl
  have hchange : FsCall.Step ⟨1000, .writeAt homePath 0 otherByte⟩ rootFile rootFileChanged :=
    FsCall.step 0 rfl
  have hauth := h _ _ _ 64 ⟨1000, .writeAt homePath 0 otherByte⟩ (by decide)
    (Run.call .refl hmake trivial) (by decide) (by simp) hchange
  have hperm := hauth.content ⟨0, by decide⟩ homePath.val (by decide +kernel) (by decide +kernel)
    (Or.inr (by decide +kernel))
  revert hperm
  decide +kernel

end TanjaOS
