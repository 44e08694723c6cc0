import TanjaOS.Lib.History
import TanjaOS.Vi.Command
import TanjaOS.Vi.Save

/-!
The two rings of snapshots that undo and redo trade in.
-/

open Lib

namespace TanjaOS

/--
The editor with `undo_ring` and `redo_ring`.
-/
structure ViRings extends Vi where
  undoRing : Nat → Snap
  redoRing : Nat → Snap

/--
What undo is meant to bring back: the text, the cursor as far as it lies in it, and the window.
-/
structure TextView where
  text : Bytes
  pos : Int
  scroll : Int

def Snap.view (s : Snap) : TextView :=
  ⟨s.data.take s.len.toNat, min s.len s.pos, s.scroll⟩

namespace ViRings

def pushUndo (v : ViRings) : ViRings :=
  { v with
    undoRing := Function.update v.undoRing v.undoHead (v.eb.snapshot v.gPos v.gScroll)
    undoHead := (v.undoHead + 1) % undoDepth
    undoCnt := if v.undoCnt < undoDepth then v.undoCnt + 1 else v.undoCnt
    -- a new change kills redo
    redoCnt := 0
    redoHead := 0 }

def changeBegin (v : ViRings) : ViRings :=
  { v.pushUndo with gModified := true }

def snapRestore (v : ViRings) (s : Snap) : ViRings :=
  { v with
    eb := v.eb.snapRestore s
    gPos := if s.len < s.pos then s.len else s.pos
    gScroll := s.scroll }

def doUndo (v : ViRings) : Int × ViRings :=
  if v.undoCnt = 0 then
    (0, { v with viMsg := some "Already at oldest change" })
  else
    let v := { v with
      redoRing := Function.update v.redoRing v.redoHead (v.eb.snapshot v.gPos v.gScroll)
      redoHead := (v.redoHead + 1) % undoDepth
      redoCnt := if v.redoCnt < undoDepth then v.redoCnt + 1 else v.redoCnt
      undoHead := (v.undoHead + undoDepth - 1) % undoDepth
      undoCnt := v.undoCnt - 1 }
    let v := v.snapRestore (v.undoRing v.undoHead)
    (1, { v with toVi := { v.toVi.clampMarks with gModified := true, viMsg := some "undo" } })

def doRedo (v : ViRings) : Int × ViRings :=
  if v.redoCnt = 0 then
    (0, { v with viMsg := some "Nothing to redo" })
  else
    let v := { v with
      undoRing := Function.update v.undoRing v.undoHead (v.eb.snapshot v.gPos v.gScroll)
      undoHead := (v.undoHead + 1) % undoDepth
      undoCnt := if v.undoCnt < undoDepth then v.undoCnt + 1 else v.undoCnt
      redoHead := (v.redoHead + undoDepth - 1) % undoDepth
      redoCnt := v.redoCnt - 1 }
    let v := v.snapRestore (v.redoRing v.redoHead)
    (1, { v with toVi := { v.toVi.clampMarks with gModified := true, viMsg := some "redo" } })

/--
The latest snapshot of `undo_ring` in front.
-/
def undoStack (v : ViRings) : List Snap :=
  ringStack undoDepth v.undoRing v.undoHead v.undoCnt

def redoStack (v : ViRings) : List Snap :=
  ringStack undoDepth v.redoRing v.redoHead v.redoCnt

def view (v : ViRings) : TextView :=
  ⟨v.eb.text, min v.eb.len v.gPos, v.gScroll⟩

def history (v : ViRings) : History TextView :=
  ⟨v.undoStack.map Snap.view, v.view, v.redoStack.map Snap.view⟩

end ViRings

/--
What happens to the text while the editor runs: a change saves the text first, the buffer, the cursor, the
window and the marks are then as the change leaves them.
-/
inductive ViCall where
  | change (eb : EditorBuffer) (pos scroll : Int) (marks : Fin 27 → Int)
  | move (pos scroll : Int) (marks : Fin 27 → Int)
  | undo
  | redo

namespace ViCall

def exec (c : ViCall) (v : ViRings) : ViRings :=
  match c with
  | change eb pos scroll marks =>
    { v.changeBegin with eb := eb, gPos := pos, gScroll := scroll, marks := marks }
  | move pos scroll marks => { v with gPos := pos, gScroll := scroll, marks := marks }
  | undo => v.doUndo.2
  | redo => v.doRedo.2

def track (c : ViCall) (h : History TextView) : History TextView :=
  match c with
  | change eb pos scroll _ => h.change undoDepth ⟨eb.text, min eb.len pos, scroll⟩
  | move pos scroll _ =>
    { h with now := { h.now with pos := min h.now.text.length pos, scroll := scroll } }
  | undo => h.undo
  | redo => h.redo

/--
A change goes through the operations of the buffer, from the text that is there.
-/
def Edits (c : ViCall) (v : ViRings) : Prop :=
  match c with
  | change eb _ _ _ => ∃ l, Run EditOp.Step (fun x op => op.Fits x.2) (v.eb, v.eb.text) (eb, l)
  | _ => True

def Step (c : ViCall) (x y : ViRings × History TextView) : Prop :=
  y = (c.exec x.1, c.track x.2)

end ViCall

abbrev ViRun : ViRings × History TextView → ViRings × History TextView → Prop :=
  Run ViCall.Step (fun x c => c.Edits x.1)

/--
The rings hold texts, and no more of them than there are places in one ring.
-/
structure RingInv (v : ViRings) : Prop where
  gap : GapInv v.eb
  undoHead : v.undoHead < undoDepth
  redoHead : v.redoHead < undoDepth
  cnt : v.undoCnt + v.redoCnt ≤ undoDepth
  undo : ∀ s ∈ v.undoStack, ∃ l, s.Holds l
  redo : ∀ s ∈ v.redoStack, ∃ l, s.Holds l

theorem EditorBuffer.snapshot_holds {eb : EditorBuffer} (h : GapInv eb) (pos scroll : Int)
    : (eb.snapshot pos scroll).Holds eb.text :=
  h.refines.snapshot pos scroll

theorem Snap.Holds.view_eq {s : Snap} {l : Bytes} (h : s.Holds l) : s.view = ⟨l, min l.length s.pos, s.scroll⟩ := by
  unfold Snap.view
  have hlen : s.len.toNat = l.length := by
    rw [h.len]
    rfl
  rw [hlen, h.data, h.len]

theorem EditorBuffer.snapshot_view {eb : EditorBuffer} (h : GapInv eb) (pos scroll : Int)
    : (eb.snapshot pos scroll).view = ⟨eb.text, min eb.len pos, scroll⟩ := by
  rw [(EditorBuffer.snapshot_holds h pos scroll).view_eq, EditorBuffer.length_text h]
  rfl

namespace ViRings

variable {v : ViRings} {s : Snap}

theorem snapRestore_gap (hs : ∃ l, s.Holds l) : GapInv (v.snapRestore s).eb := by
  obtain ⟨l, hl⟩ := hs
  exact (Starts.text (.restore v.eb s l hl)).1

theorem snapRestore_view (hs : ∃ l, s.Holds l) : (v.snapRestore s).view = s.view := by
  obtain ⟨l, hl⟩ := hs
  obtain ⟨hgap, htext⟩ := Starts.text (.restore v.eb s l hl)
  rw [hl.view_eq]
  unfold view snapRestore
  dsimp only
  rw [htext, show (v.eb.snapRestore s).len = l.length from hl.len, hl.len]
  congr 1
  split <;> omega

theorem pushed (hhead : v.undoHead < undoDepth) (hcnt : v.undoCnt ≤ undoDepth)
    : v.pushUndo.undoStack = (v.eb.snapshot v.gPos v.gScroll :: v.undoStack).take undoDepth := by
  rw [undoStack, undoStack, ← ringStack_push hhead hcnt]
  have hmin : (if v.undoCnt < undoDepth then v.undoCnt + 1 else v.undoCnt) = min (v.undoCnt + 1) undoDepth := by
    split <;> omega
  unfold pushUndo
  dsimp only
  rw [hmin]

end ViRings

theorem RingInv.change {v : ViRings} {eb : EditorBuffer} (h : RingInv v)
    (hedit : ∃ l, Run EditOp.Step (fun x op => op.Fits x.2) (v.eb, v.eb.text) (eb, l))
    (pos scroll : Int) (marks : Fin 27 → Int)
    : RingInv ((ViCall.change eb pos scroll marks).exec v)
      ∧ ((ViCall.change eb pos scroll marks).exec v).history
        = (ViCall.change eb pos scroll marks).track v.history := by
  have hdepth : 0 < undoDepth := by decide
  have hcnt : v.undoCnt ≤ undoDepth := Nat.le_of_add_right_le h.cnt
  have hstack : ((ViCall.change eb pos scroll marks).exec v).undoStack
      = (v.eb.snapshot v.gPos v.gScroll :: v.undoStack).take undoDepth :=
    ViRings.pushed h.undoHead hcnt
  obtain ⟨l, hrun⟩ := hedit
  constructor
  . constructor
    . exact (EditOp.run_text ⟨h.gap, rfl⟩ hrun).1
    . exact Nat.mod_lt _ hdepth
    . exact hdepth
    . change (if v.undoCnt < undoDepth then v.undoCnt + 1 else v.undoCnt) + 0 ≤ undoDepth
      split <;> omega
    . intro s hs
      rw [hstack] at hs
      obtain rfl | hs := List.mem_cons.mp (List.mem_of_mem_take hs)
      . exact ⟨v.eb.text, EditorBuffer.snapshot_holds h.gap _ _⟩
      . exact h.undo s hs
    . intro s hs
      cases hs
  . unfold ViRings.history
    rw [hstack]
    unfold ViCall.track History.change
    rw [List.map_take, List.map_cons, EditorBuffer.snapshot_view h.gap]
    rfl

namespace ViRings

variable {v : ViRings}

/--
One entry goes from `undo_ring` into the buffer, what has been there into `redo_ring`.
-/
structure Undone (v v' : ViRings) (s : Snap) : Prop where
  undo : v.undoStack = s :: v'.undoStack
  redo : v'.redoStack = v.eb.snapshot v.gPos v.gScroll :: v.redoStack
  eb : v'.eb = (v.snapRestore s).eb
  view : v'.view = (v.snapRestore s).view
  undoHead : v'.undoHead < undoDepth
  redoHead : v'.redoHead < undoDepth
  cnt : v'.undoCnt + v'.redoCnt = v.undoCnt + v.redoCnt

theorem doUndo_undone (h : RingInv v) (hne : v.undoCnt ≠ 0) : ∃ s, v.Undone v.doUndo.2 s := by
  have hdepth : 0 < undoDepth := by decide
  have hcnt := h.cnt
  have hpop : v.undoStack = v.undoRing ((v.undoHead + undoDepth - 1) % undoDepth)
      :: ringStack undoDepth v.undoRing ((v.undoHead + undoDepth - 1) % undoDepth) (v.undoCnt - 1) := by
    rw [Nat.add_sub_assoc hdepth, ← ringStack_succ (by omega), Nat.sub_add_cancel (by omega)]
    rfl
  have hmin : (if v.redoCnt < undoDepth then v.redoCnt + 1 else v.redoCnt) = v.redoCnt + 1 :=
    if_pos (by omega)
  have hpush : ringStack undoDepth (Function.update v.redoRing v.redoHead (v.eb.snapshot v.gPos v.gScroll))
      ((v.redoHead + 1) % undoDepth) (v.redoCnt + 1) = v.eb.snapshot v.gPos v.gScroll :: v.redoStack := by
    have hstack := @ringStack_push _ _ v.redoRing _ _ h.redoHead (show v.redoCnt ≤ undoDepth by omega)
      (v.eb.snapshot v.gPos v.gScroll)
    rw [Nat.min_eq_left (by omega), List.take_of_length_le] at hstack
    . exact hstack
    . rw [List.length_cons, length_ringStack]
      omega
  refine ⟨v.undoRing ((v.undoHead + undoDepth - 1) % undoDepth), ?_⟩
  unfold doUndo
  rw [if_neg hne, hmin]
  constructor
  . exact hpop
  . exact hpush
  . rfl
  . rfl
  . exact Nat.mod_lt _ hdepth
  . exact Nat.mod_lt _ hdepth
  . change v.undoCnt - 1 + (v.redoCnt + 1) = _
    omega

theorem Undone.inv {v' : ViRings} {s : Snap} (hu : v.Undone v' s) (h : RingInv v)
    : RingInv v' ∧ v'.history = v.history.undo := by
  have hundo := h.undo
  rw [hu.undo] at hundo
  have hfront := hundo s List.mem_cons_self
  constructor
  . constructor
    . rw [hu.eb]
      exact snapRestore_gap hfront
    . exact hu.undoHead
    . exact hu.redoHead
    . rw [hu.cnt]
      exact h.cnt
    . intro t ht
      exact hundo t (List.mem_cons_of_mem _ ht)
    . intro t ht
      rw [hu.redo] at ht
      obtain rfl | ht := List.mem_cons.mp ht
      . exact ⟨v.eb.text, EditorBuffer.snapshot_holds h.gap _ _⟩
      . exact h.redo t ht
  . unfold history
    rw [hu.undo, hu.redo, hu.view, snapRestore_view hfront, List.map_cons, List.map_cons,
      EditorBuffer.snapshot_view h.gap]
    rfl

def flip (v : ViRings) : ViRings :=
  { v with
    undoRing := v.redoRing
    undoHead := v.redoHead
    undoCnt := v.redoCnt
    redoRing := v.undoRing
    redoHead := v.undoHead
    redoCnt := v.undoCnt }

theorem flip_inv (h : RingInv v) : RingInv v.flip where
  gap := h.gap
  undoHead := h.redoHead
  redoHead := h.undoHead
  cnt := by
    rw [Nat.add_comm]
    exact h.cnt
  undo := h.redo
  redo := h.undo

theorem doRedo_eq (v : ViRings) : v.doRedo.2 = { v.flip.doUndo.2.flip with viMsg := v.doRedo.2.viMsg } := by
  unfold doRedo doUndo
  by_cases hzero : v.redoCnt = 0
  . rw [if_pos hzero, if_pos (show v.flip.undoCnt = 0 from hzero)]
    rfl
  . rw [if_neg hzero, if_neg (show v.flip.undoCnt ≠ 0 from hzero)]
    rfl

theorem doUndo_inv (h : RingInv v) : RingInv v.doUndo.2 ∧ v.doUndo.2.history = v.history.undo := by
  by_cases hzero : v.undoCnt = 0
  . have hnil : v.history.past = [] := by
      unfold history undoStack
      rw [hzero]
      rfl
    unfold doUndo History.undo
    rw [if_pos hzero, hnil]
    exact ⟨⟨h.gap, h.undoHead, h.redoHead, h.cnt, h.undo, h.redo⟩, rfl⟩
  . obtain ⟨s, hs⟩ := doUndo_undone h hzero
    exact hs.inv h

theorem doRedo_inv (h : RingInv v) : RingInv v.doRedo.2 ∧ v.doRedo.2.history = v.history.redo := by
  obtain ⟨hinv, hhist⟩ := doUndo_inv (flip_inv h)
  have hflip := flip_inv hinv
  rw [doRedo_eq]
  constructor
  . exact ⟨hflip.gap, hflip.undoHead, hflip.redoHead, hflip.cnt, hflip.undo, hflip.redo⟩
  . rw [History.redo_eq_flip]
    change v.flip.doUndo.2.history.flip = v.history.flip.undo.flip
    rw [← show v.flip.history = v.history.flip from rfl, hhist]

end ViRings

structure RingsFresh (v : ViRings) : Prop where
  gap : GapInv v.eb
  undo : v.undoCnt = 0 ∧ v.undoHead = 0
  redo : v.redoCnt = 0 ∧ v.redoHead = 0

theorem RingsFresh.history {v : ViRings} (h : RingsFresh v) : RingInv v ∧ v.history = .start v.view := by
  have hundo : v.undoStack = [] := by
    unfold ViRings.undoStack
    rw [h.undo.1]
    rfl
  have hredo : v.redoStack = [] := by
    unfold ViRings.redoStack
    rw [h.redo.1]
    rfl
  constructor
  . constructor
    . exact h.gap
    . rw [h.undo.2]
      decide
    . rw [h.redo.2]
      decide
    . rw [h.undo.1, h.redo.1]
      decide
    . rw [hundo]
      intro s hs
      cases hs
    . rw [hredo]
      intro s hs
      cases hs
  . unfold ViRings.history
    rw [hundo, hredo]
    rfl

theorem fill_fresh {v w : Vi} {s : FsState} {name savebuf : Bytes} {size : Nat}
    (hload : (Vi.loadFile.fill name v s savebuf size).1 ≠ 0)
    (hw : w = (Vi.loadFile.fill name v s savebuf size).2.1)
    : GapInv w.eb ∧ w.undoCnt = 0 ∧ w.undoHead = 0 ∧ w.redoCnt = 0 ∧ w.redoHead = 0 := by
  have hsize := fill_rc.mp hload
  have heb := (@fill_loaded s v name savebuf size hsize).1
  subst hw
  constructor
  . rw [heb]
    apply (EditorBuffer.load_text v.eb _).1
    rw [List.length_take]
    omega
  . unfold Vi.loadFile.fill
    rw [if_neg (by omega)]
    exact ⟨rfl, rfl, rfl, rfl⟩

theorem loadFile_fresh {v : ViRings} {v₀ : Vi} {s : FsState} {name : Bytes} {force : Bool}
    (hload : (v₀.loadFile s name force).1 ≠ 0) (hv : v.toVi = (v₀.loadFile s name force).2.1)
    : RingsFresh v := by
  have hfresh : GapInv v.eb ∧ v.undoCnt = 0 ∧ v.undoHead = 0 ∧ v.redoCnt = 0 ∧ v.redoHead = 0 := by
    unfold Vi.loadFile at hload hv
    split at hload
    . contradiction
    . next hclean =>
      rw [if_neg hclean] at hv
      split at hload
      . next hnew =>
        rw [if_pos hnew] at hv
        dsimp only at hload hv
        split at hload
        . contradiction
        . next hmade =>
          rw [if_neg hmade] at hv
          exact fill_fresh hload hv
      . next hold =>
        rw [if_neg hold] at hv
        dsimp only at hload hv
        split at hload
        . contradiction
        . next hread =>
          rw [if_neg hread] at hv
          exact fill_fresh hload hv
  obtain ⟨hgap, hcnt, hhead, hredo, hrhead⟩ := hfresh
  exact ⟨hgap, ⟨hcnt, hhead⟩, ⟨hredo, hrhead⟩⟩

theorem ViCall.exec_inv {v : ViRings} (c : ViCall) (h : RingInv v) (hedits : c.Edits v)
    : RingInv (c.exec v) ∧ (c.exec v).history = c.track v.history := by
  cases c with
  | change eb pos scroll marks => exact h.change hedits pos scroll marks
  | move pos scroll marks =>
    constructor
    . exact ⟨h.gap, h.undoHead, h.redoHead, h.cnt, h.undo, h.redo⟩
    . have hlen := EditorBuffer.length_text h.gap
      unfold ViCall.track ViRings.history ViRings.view
      dsimp only
      rw [hlen]
      rfl
  | undo => exact ViRings.doUndo_inv h
  | redo => exact ViRings.doRedo_inv h

theorem ViRun.history {x y : ViRings × History TextView} (h : RingInv x.1 ∧ x.1.history = x.2)
    (hrun : ViRun x y)
    : RingInv y.1 ∧ y.1.history = y.2 := by
  refine Run.keeps (I := fun x => RingInv x.1 ∧ x.1.history = x.2) ?_ h hrun
  rintro ⟨v, hist⟩ c z hedits ⟨hinv, hhist⟩ hstep
  obtain rfl : z = (c.exec v, c.track hist) := hstep
  dsimp only at hinv hhist hedits ⊢
  subst hhist
  exact c.exec_inv hinv hedits

theorem ViCall.iterate_inv {v : ViRings} (c : ViCall) (hedits : ∀ v, c.Edits v) (h : RingInv v) (k : Nat)
    : RingInv (c.exec^[k] v) ∧ (c.exec^[k] v).history = c.track^[k] v.history := by
  induction k with
  | zero => exact ⟨h, rfl⟩
  | succ k ih =>
    obtain ⟨hinv, hhist⟩ := ih
    rw [Function.iterate_succ_apply' c.exec, Function.iterate_succ_apply' c.track, ← hhist]
    exact c.exec_inv hinv (hedits _)

/--
After a file has been loaded the rings stand for the history of the text, as far back as they reach. So
as many redos as undos bring everything back, and an undo brings back what a change has been made to.
-/
theorem undo_rings_follow {v₀ : Vi} {s : FsState} {name : Bytes} {force : Bool} {v w : ViRings}
    {h : History TextView} (hload : (v₀.loadFile s name force).1 ≠ 0)
    (hv : v.toVi = (v₀.loadFile s name force).2.1) (hrun : ViRun (v, .start v.view) (w, h))
    : w.history = h ∧ w.undoCnt + w.redoCnt ≤ undoDepth
      ∧ (∀ k ≤ w.undoCnt,
          (ViCall.redo.exec^[k] (ViCall.undo.exec^[k] w)).history = w.history)
      ∧ ∀ eb pos scroll marks, (ViCall.change eb pos scroll marks).Edits w →
          (ViCall.undo.exec ((ViCall.change eb pos scroll marks).exec w)).view = w.view := by
  obtain ⟨hinv, hhist⟩ := ViRun.history (loadFile_fresh hload hv).history hrun
  refine ⟨hhist, hinv.cnt, ?_, ?_⟩
  . intro k hk
    obtain ⟨hback, hbackHist⟩ := ViCall.undo.iterate_inv (fun _ => trivial) hinv k
    obtain ⟨_, hforth⟩ := ViCall.redo.iterate_inv (fun _ => trivial) hback k
    rw [hforth, hbackHist]
    apply History.redo_undo_iterate
    change k ≤ (w.undoStack.map Snap.view).length
    rw [List.length_map, ViRings.undoStack, length_ringStack]
    exact hk
  . intro eb pos scroll marks hedits
    obtain ⟨hchange, hchangeHist⟩ := ViCall.exec_inv _ hinv hedits
    have hundo := (ViRings.doUndo_inv hchange).2
    rw [hchangeHist] at hundo
    exact congrArg History.now hundo

section Example

def newRings : ViRings where
  toVi := (blankVi.loadFile { fsInit (.zeroed 64) with fsCurUid := 0 } notePath false).2.1
  undoRing _ := ⟨0, 0, 0, []⟩
  redoRing _ := ⟨0, 0, 0, []⟩

def letterTyped : ViCall :=
  .change (newRings.eb.insertByte 0 97).2 0 0 newRings.marks

end Example

theorem undo_rings_follow_letter
    : (letterTyped.exec newRings).history = letterTyped.track (.start newRings.view) := by
  have hload : (blankVi.loadFile { fsInit (.zeroed 64) with fsCurUid := 0 } notePath false).1 ≠ 0 := by
    decide +kernel
  have hedits : letterTyped.Edits newRings := by
    have hstep : EditOp.Step (.insertByte 0 97) (newRings.eb, newRings.eb.text)
        (EditOp.exec (.insertByte 0 97) newRings.eb, EditOp.edit (.insertByte 0 97) newRings.eb.text) := rfl
    exact ⟨_, Run.call .refl hstep trivial⟩
  have hstep : letterTyped.Step (newRings, .start newRings.view)
      (letterTyped.exec newRings, letterTyped.track (.start newRings.view)) := rfl
  exact (undo_rings_follow hload rfl (Run.call .refl hstep hedits)).1

end TanjaOS
