import Mathlib.Data.List.Basic
import Mathlib.Data.List.Count
import TanjaOS.Lib.Run

/-!
How programs are started and killed. Ctrl+C, a fault of a program and `exit` all jump from wherever
the kernel is to the `elf_run` or `linux_run` that has called `setjmp` last. The calls in between
never return, and what they have counted up is not counted down again.
-/

open Lib

namespace TanjaOS

/--
`exec_depth` and `fs_batch_depth`.
-/
structure Books where
  execDepth : Int
  batchDepth : Int
  deriving DecidableEq

/--
The calls that change the books or can be jumped to. A call of `exec_file` remembers for the record
what the books were before it.
-/
inductive Frame where
  /-- `exec_file`, before it has started the program. -/
  | load (before : Books)
  /-- `exec_file`, in the loop over the lines of a script. -/
  | script (before : Books)
  /-- `exec_file`, after it has started the program. -/
  | program (before : Books) (killed : Bool)
  /-- `elf_run` or `linux_run` while the program runs, with its copies of the exit variables. -/
  | run (saveActive : Bool) (saveJmp : Option Nat)
  /-- `elf_run` after the program, `tanja_run_atexit` calls its handlers. -/
  | atexit
  /-- `fs_delete_directory_recursive` between counting `fs_batch_depth` up and down. -/
  | tree
  deriving DecidableEq

namespace Frame

def isExec : Frame → Bool
  | .load _ => true
  | .script _ => true
  | .program _ _ => true
  | _ => false

def isTree : Frame → Bool
  | .tree => true
  | _ => false

def isUser : Frame → Bool
  | .run _ _ => true
  | .atexit => true
  | _ => false

/--
What a call of `exec_file` has found.
-/
def before : Frame → Option Books
  | .load b => some b
  | .script b => some b
  | .program b _ => some b
  | _ => none

end Frame

/--
A call of `exec_file` that has returned.
-/
structure Returned where
  killed : Bool
  before : Books
  after : Books
  deriving DecidableEq

/--
The innermost call is first. `exitJmp` says how many frames are left by a jump, those from the call
of `setjmp` on. `returned` has the newest first.
-/
structure Running where
  books : Books
  exitActive : Bool
  exitJmp : Option Nat
  rawMode : Bool
  stack : List Frame
  returned : List Returned

inductive RunningEvent where
  | exec (isScript : Bool)
  | start
  | execDone
  /-- The program returns, or its `linux_exit_restore` does. -/
  | programDone
  | atexitDone
  | delete
  | deleteDone
  | raw (mode : Bool)
  /-- `timer_handler` finds that Ctrl+C has been typed. -/
  | ctrlC
  /-- The code of a program faults or calls `exit`. -/
  | exit

namespace Running

def boot : Running where
  books := { execDepth := 0, batchDepth := 0 }
  exitActive := false
  exitJmp := none
  rawMode := false
  stack := []
  returned := []

/--
The code that runs can call `exec_file`: the shell, a script or a program.
-/
def callsExec : List Frame → Bool
  | [] => true
  | .script _ :: _ => true
  | f :: _ => f.isUser

/--
`fs_delete_directory_recursive` is called by the same, and by itself.
-/
def callsDelete : List Frame → Bool
  | .tree :: _ => true
  | stack => callsExec stack

def exec (s : Running) (isScript : Bool) : Running :=
  if 4 ≤ s.books.execDepth then
    s
  else
    { s with
      books := { s.books with execDepth := s.books.execDepth + 1 }
      stack := (if isScript then .script s.books else .load s.books) :: s.stack
    }

/--
`exec_file` after `exec_file_at`.
-/
def execDone (s : Running) (killed : Bool) (before : Books) (stack : List Frame) : Running :=
  let books := { s.books with execDepth := s.books.execDepth - 1 }
  { s with books, stack, returned := { killed, before, after := books } :: s.returned }

/--
`elf_run` after `setjmp` has returned for the second time, or the program has.
-/
def leave (s : Running) (active : Bool) (jmp : Option Nat) (stack : List Frame) : Running :=
  { s with exitActive := active, exitJmp := jmp, rawMode := false, stack := .atexit :: stack }

def left (s : Running) : List Frame :=
  s.stack.drop (s.stack.length - s.exitJmp.getD 0)

def cut (s : Running) : List Frame :=
  s.stack.take (s.stack.length - s.exitJmp.getD 0)

/--
`__builtin_longjmp(tanja_exit_jmp, 1)`
-/
def unwind (s : Running) : Option Running :=
  match s.left with
  | .run active jmp :: .program before _ :: rest =>
    some (s.leave active jmp (.program before true :: rest))
  | _ => none

def next (s : Running) : RunningEvent → Option Running
  | .exec isScript => if callsExec s.stack then some (s.exec isScript) else none
  | .start =>
    match s.stack with
    | .load before :: rest =>
      some { s with
        exitActive := true
        exitJmp := some (rest.length + 2)
        stack := .run s.exitActive s.exitJmp :: .program before false :: rest
      }
    | _ => none
  | .execDone =>
    match s.stack with
    | .load before :: rest => some (s.execDone false before rest)
    | .script before :: rest => some (s.execDone false before rest)
    | .program before killed :: rest => some (s.execDone killed before rest)
    | _ => none
  | .programDone =>
    match s.stack with
    | .run active jmp :: rest => some (s.leave active jmp rest)
    | _ => none
  | .atexitDone =>
    match s.stack with
    | .atexit :: rest => some { s with stack := rest }
    | _ => none
  | .delete =>
    if callsDelete s.stack then
      some { s with
        books := { s.books with batchDepth := s.books.batchDepth + 1 }
        stack := .tree :: s.stack
      }
    else
      none
  | .deleteDone =>
    match s.stack with
    | .tree :: rest =>
      some { s with books := { s.books with batchDepth := s.books.batchDepth - 1 }, stack := rest }
    | _ => none
  | .raw mode => if s.stack.any Frame.isUser then some { s with rawMode := mode } else none
  | .ctrlC => if s.exitActive ∧ s.rawMode = false then s.unwind else none
  | .exit =>
    match s.stack with
    | f :: _ => if f.isUser ∧ s.exitActive then s.unwind else none
    | [] => none

def Step (e : RunningEvent) (s s' : Running) : Prop :=
  s.next e = some s'

/--
A jump cuts off no call that has something left to count down.
-/
def CutsNothing (s : Running) : RunningEvent → Prop
  | .ctrlC => ∀ f ∈ s.cut, f.isExec = false ∧ f.isTree = false
  | .exit => ∀ f ∈ s.cut, f.isExec = false ∧ f.isTree = false
  | _ => True

end Running

/--
What the books should be: the calls of `exec_file`, and those of `fs_delete_directory_recursive`.
-/
def booksOf (stack : List Frame) : Books where
  execDepth := stack.countP Frame.isExec
  batchDepth := stack.countP Frame.isTree

/--
Every call of `exec_file` has found the books in order.
-/
def Recorded : List Frame → Prop
  | [] => True
  | f :: rest => (∀ b, f.before = some b → b = booksOf rest) ∧ Recorded rest

structure Running.Ok (s : Running) : Prop where
  books : s.books = booksOf s.stack
  recorded : Recorded s.stack
  returned : ∀ r ∈ s.returned, r.after = r.before

variable {s s' : Running} {stack rest : List Frame} {f : Frame}

theorem booksOf_cons (f : Frame) (rest : List Frame)
    : booksOf (f :: rest) =
        { execDepth := (booksOf rest).execDepth + if f.isExec then 1 else 0
          batchDepth := (booksOf rest).batchDepth + if f.isTree then 1 else 0 } := by
  unfold booksOf
  rw [List.countP_cons, List.countP_cons, Int.natCast_add, Int.natCast_add]
  cases f <;> rfl

theorem Recorded.drop (h : Recorded stack) (n : Nat) : Recorded (stack.drop n) := by
  induction n generalizing stack with
  | zero => exact h
  | succ n ih =>
    cases stack with
    | nil => exact trivial
    | cons f rest => exact ih h.2

theorem booksOf_append (cut left : List Frame)
    : booksOf (cut ++ left) =
        { execDepth := (booksOf cut).execDepth + (booksOf left).execDepth
          batchDepth := (booksOf cut).batchDepth + (booksOf left).batchDepth } := by
  simp [booksOf, List.countP_append]

theorem booksOf_eq_zero_iff
    : booksOf stack = { execDepth := 0, batchDepth := 0 }
        ↔ ∀ f ∈ stack, f.isExec = false ∧ f.isTree = false := by
  unfold booksOf
  simp only [Books.mk.injEq, Int.natCast_eq_zero, List.countP_eq_zero, Bool.not_eq_true]
  constructor
  . intro h f hf
    exact ⟨h.1 f hf, h.2 f hf⟩
  . intro h
    exact ⟨fun f hf => (h f hf).1, fun f hf => (h f hf).2⟩

namespace Running

theorem cut_append_left (s : Running) : s.cut ++ s.left = s.stack :=
  List.take_append_drop _ _

theorem Ok.unwind_iff (h : s.Ok) (hs : s.unwind = some s')
    : s'.Ok ↔ ∀ f ∈ s.cut, f.isExec = false ∧ f.isTree = false := by
  unfold unwind at hs
  split at hs
  . next active jmp before killed rest hleft =>
    cases hs
    have hbooks := h.books
    rw [← s.cut_append_left, booksOf_append] at hbooks
    have hrec : Recorded (.run active jmp :: .program before killed :: rest) := by
      rw [← hleft]
      exact h.recorded.drop _
    have hsame : booksOf s.left = booksOf (.atexit :: .program before true :: rest) := by
      rw [hleft]
      simp only [booksOf_cons]
      rfl
    rw [← booksOf_eq_zero_iff]
    constructor
    . intro hok
      have hkept := hok.books
      simp only [leave] at hkept
      rw [hbooks, hsame, Books.mk.injEq] at hkept
      have hzero : ∀ b : Books, b.execDepth = 0 → b.batchDepth = 0 →
          b = { execDepth := 0, batchDepth := 0 } := by
        intro b he hb
        cases b
        simp only at he hb
        rw [he, hb]
      apply hzero
      . omega
      . omega
    . intro hzero
      constructor
      . simp only [leave]
        rw [hbooks, hzero, ← hsame]
        simp
      . refine ⟨?_, ?_, hrec.2.2⟩
        . intro b hb
          cases hb
        . exact hrec.2.1
      . exact h.returned
  . cases hs

theorem Ok.execDone (h : s.Ok) {before : Books} (killed : Bool) (hstack : s.stack = f :: rest)
    (hf : f.before = some before)
    : (s.execDone killed before rest).Ok := by
  have hrec := h.recorded
  rw [hstack] at hrec
  have hexec : f.isExec = true ∧ f.isTree = false := by
    cases f <;> simp [Frame.before] at hf <;> exact ⟨rfl, rfl⟩
  have hbooks : { s.books with execDepth := s.books.execDepth - 1 } = booksOf rest := by
    rw [h.books, hstack, booksOf_cons, hexec.1, hexec.2]
    simp
  constructor
  . exact hbooks
  . exact hrec.2
  . intro r hr
    simp only [Running.execDone, List.mem_cons] at hr
    cases hr with
    | inl hr =>
      rw [hr]
      exact hbooks.trans (hrec.1 before hf).symm
    | inr hr => exact h.returned r hr

theorem Ok.leave (h : s.Ok) {active : Bool} {jmp : Option Nat} (active' : Bool) (jmp' : Option Nat)
    (hstack : s.stack = .run active jmp :: rest)
    : (s.leave active' jmp' rest).Ok := by
  have hbooks := h.books
  have hrec := h.recorded
  rw [hstack] at hbooks hrec
  constructor
  . rw [booksOf_cons] at hbooks
    simp only [Running.leave, booksOf_cons]
    exact hbooks
  . refine ⟨?_, hrec.2⟩
    intro b hb
    cases hb
  . exact h.returned

theorem Ok.step {e : RunningEvent} (h : s.Ok) (hcut : s.CutsNothing e) (hs : Step e s s') : s'.Ok := by
  have hbooks := h.books
  have hrec := h.recorded
  unfold Step at hs
  cases e with
  | exec isScript =>
    simp only [next] at hs
    split at hs
    . cases hs
      unfold Running.exec
      split
      . exact h
      . constructor
        . simp only [booksOf_cons]
          rw [hbooks]
          cases isScript <;> simp [Frame.isExec, Frame.isTree]
        . refine ⟨?_, hrec⟩
          intro b hb
          rw [← hbooks]
          cases isScript <;> simp_all [Frame.before]
        . exact h.returned
    . cases hs
  | start =>
    simp only [next] at hs
    split at hs
    . next before rest hstack =>
      cases hs
      rw [hstack] at hbooks hrec
      constructor
      . simp only
        rw [hbooks]
        simp [booksOf_cons, Frame.isExec, Frame.isTree]
      . refine ⟨?_, hrec⟩
        intro b hb
        cases hb
      . exact h.returned
    . cases hs
  | execDone =>
    simp only [next] at hs
    split at hs
    . next hstack =>
      cases hs
      exact h.execDone false hstack rfl
    . next hstack =>
      cases hs
      exact h.execDone false hstack rfl
    . next hstack =>
      cases hs
      exact h.execDone _ hstack rfl
    . cases hs
  | programDone =>
    simp only [next] at hs
    split at hs
    . next hstack =>
      cases hs
      exact h.leave _ _ hstack
    . cases hs
  | atexitDone =>
    simp only [next] at hs
    split at hs
    . next hstack =>
      cases hs
      rw [hstack] at hbooks hrec
      rw [booksOf_cons] at hbooks
      refine ⟨?_, hrec.2, h.returned⟩
      simpa [Frame.isExec, Frame.isTree] using hbooks
    . cases hs
  | delete =>
    simp only [next] at hs
    split at hs
    . cases hs
      refine ⟨?_, ⟨?_, hrec⟩, h.returned⟩
      . simp only [booksOf_cons]
        rw [hbooks]
        simp [Frame.isExec, Frame.isTree]
      . intro b hb
        cases hb
    . cases hs
  | deleteDone =>
    simp only [next] at hs
    split at hs
    . next hstack =>
      cases hs
      rw [hstack] at hbooks hrec
      refine ⟨?_, hrec.2, h.returned⟩
      simp only
      rw [hbooks, booksOf_cons]
      simp [Frame.isExec, Frame.isTree]
    . cases hs
  | raw mode =>
    simp only [next] at hs
    split at hs
    . cases hs
      exact ⟨hbooks, hrec, h.returned⟩
    . cases hs
  | ctrlC =>
    simp only [next] at hs
    split at hs
    . exact (h.unwind_iff hs).mpr hcut
    . cases hs
  | exit =>
    simp only [next] at hs
    split at hs
    . split at hs
      . exact (h.unwind_iff hs).mpr hcut
      . cases hs
    . cases hs

theorem Ok.boot : boot.Ok where
  books := rfl
  recorded := trivial
  returned := by
    intro r hr
    cases hr

/--
As long as no jump cuts off a call of `exec_file` or `fs_delete_directory_recursive`: whenever
`exec_file` returns, from a killed program or not, the books are what they were before, and at the
prompt of the shell both counters are zero.
-/
theorem books_kept (h : Run Step CutsNothing Running.boot s)
    : (∀ r ∈ s.returned, r.after = r.before)
      ∧ (s.stack = [] → s.books.execDepth = 0 ∧ s.books.batchDepth = 0) := by
  have hstep : ∀ s e s', CutsNothing s e → s.Ok → Step e s s' → s'.Ok := by
    intro s e s' hcut hok hs
    exact hok.step hcut hs
  have hok := h.keeps hstep Ok.boot
  refine ⟨hok.returned, ?_⟩
  intro hstack
  rw [hok.books, hstack]
  exact ⟨rfl, rfl⟩

def killEvents : List RunningEvent :=
  [.exec false, .start, .delete, .deleteDone, .ctrlC, .atexitDone, .execDone]

def killState : Running :=
  killEvents.foldl (after next) .boot

theorem books_kept_kill
    : killState.returned = [{ killed := true, before := ⟨0, 0⟩, after := ⟨0, 0⟩ }]
      ∧ killState.books.execDepth = 0 ∧ killState.books.batchDepth = 0 := by
  have hrun : Run Step CutsNothing Running.boot killState := by
    apply Run.of_possible .refl
    refine ⟨rfl, trivial, rfl, trivial, rfl, trivial, rfl, trivial, rfl, ?_, rfl, trivial, rfl,
      trivial, trivial⟩
    intro f hf
    cases hf
  exact ⟨rfl, (books_kept hrun).2 rfl⟩

/--
Ctrl+C in the middle of a recursive delete that the program has called.
-/
def cutDeleteEvents : List RunningEvent :=
  [.exec false, .start, .delete, .ctrlC, .atexitDone, .execDone]

def cutScriptEvents : List RunningEvent :=
  [.exec false, .start, .exec true, .ctrlC, .atexitDone, .execDone]

/--
Both leave a counter behind at the prompt of the shell.
-/
theorem books_cut
    : (∃ s, Run Step (fun _ _ => True) Running.boot s ∧ s.stack = []
        ∧ s.returned = [{ killed := true, before := ⟨0, 0⟩, after := ⟨0, 1⟩ }])
      ∧ ∃ s, Run Step (fun _ _ => True) Running.boot s ∧ s.stack = []
        ∧ s.returned = [{ killed := true, before := ⟨0, 0⟩, after := ⟨1, 0⟩ }] := by
  constructor
  . refine ⟨cutDeleteEvents.foldl (after next) Running.boot, ?_, rfl, rfl⟩
    apply Run.of_possible .refl
    exact ⟨rfl, trivial, rfl, trivial, rfl, trivial, rfl, trivial, rfl, trivial, rfl, trivial,
      trivial⟩
  . refine ⟨cutScriptEvents.foldl (after next) Running.boot, ?_, rfl, rfl⟩
    apply Run.of_possible .refl
    exact ⟨rfl, trivial, rfl, trivial, rfl, trivial, rfl, trivial, rfl, trivial, rfl, trivial,
      trivial⟩

end Running

end TanjaOS
