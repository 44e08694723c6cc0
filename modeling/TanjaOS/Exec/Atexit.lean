import TanjaOS.Lib.Run

/-!
The handlers that programs register with `atexit`. All programs share one list of them, and
`elf_run` calls whatever is on it when a program ends.
-/

open Lib

namespace TanjaOS

def atexitMax : Nat := 32

/--
The number of a program is how many have been started before it, that of a handler how many have
been registered.
-/
structure Handler where
  owner : Nat
  serial : Nat
  deriving DecidableEq

/--
The calls in progress. `saveActive` and `saveJmp` are the copies that `elf_run` and `linux_run` have
of `tanja_exit_active` and `tanja_exit_jmp`, `saveBrk` is how many programs have been in memory
before.
-/
inductive ExitFrame where
  /-- `elf_run` while the program runs. -/
  | run (program : Nat) (saveActive : Bool) (saveJmp : Nat) (saveBrk : Nat)
  /-- `elf_run` in the loop of `tanja_run_atexit`. -/
  | ending (program : Nat) (saveBrk : Nat)
  /-- A handler that this loop has called, it is code of the program that has registered it. -/
  | handler (program : Nat)
  /-- `linux_run`, its program has no handlers. -/
  | linux (saveActive : Bool) (saveJmp : Nat)
  deriving DecidableEq

inductive ExitHistory where
  | registered (h : Handler)
  | ended (program : Nat)
  | ran (h : Handler)
  | released (program : Nat)
  deriving DecidableEq

/--
The innermost call is first, and so is the handler registered last. `exitJmp` is how many frames a
jump leaves. `memory` has the programs above each other that are loaded, the topmost first.
-/
structure Exiting where
  stack : List ExitFrame
  handlers : List Handler
  memory : List Nat
  exitActive : Bool
  exitJmp : Nat
  programs : Nat
  serials : Nat
  /-- What has happened, the newest first. -/
  history : List ExitHistory

inductive ExitEvent where
  | startElf
  | startLinux
  /-- The code that runs calls `atexit`. -/
  | register
  /-- The program returns. -/
  | programDone
  /-- `exit`, Ctrl+C or a fault. -/
  | jump
  /-- The loop of `tanja_run_atexit` goes on: a handler is called, or there is none left. -/
  | loop
  | handlerDone
  deriving DecidableEq

namespace Exiting

def boot : Exiting where
  stack := []
  handlers := []
  memory := []
  exitActive := false
  exitJmp := 0
  programs := 0
  serials := 0
  history := []

/--
The program whose code runs, if it is one that can call `atexit`.
-/
def running : List ExitFrame → Option Nat
  | .run p _ _ _ :: _ => some p
  | .handler p :: _ => some p
  | _ => none

/--
The code that runs can start programs. The loop of `tanja_run_atexit` does not.
-/
def canStart : List ExitFrame → Bool
  | .ending _ _ :: _ => false
  | _ => true

def start (s : Exiting) : Exiting :=
  { s with
    stack := .run s.programs s.exitActive s.exitJmp s.memory.length :: s.stack
    memory := s.programs :: s.memory
    exitActive := true
    exitJmp := s.stack.length + 1
    programs := s.programs + 1 }

def startLinux (s : Exiting) : Exiting :=
  { s with
    stack := .linux s.exitActive s.exitJmp :: s.stack
    exitActive := true
    exitJmp := s.stack.length + 1 }

/--
`atexit`, which fails when the list is full.
-/
def register (s : Exiting) (owner : Nat) : Exiting :=
  if atexitMax ≤ s.handlers.length then
    s
  else
    let h : Handler := { owner, serial := s.serials }
    { s with
      handlers := h :: s.handlers
      serials := s.serials + 1
      history := .registered h :: s.history }

/--
Where `elf_run` or `linux_run` goes on, the frames are those from its own on.
-/
def leave (s : Exiting) : List ExitFrame → Option Exiting
  | .run p active jmp brk :: rest =>
    some { s with
      stack := .ending p brk :: rest
      exitActive := active
      exitJmp := jmp
      history := .ended p :: s.history }
  | .linux active jmp :: rest =>
    some { s with stack := rest, exitActive := active, exitJmp := jmp }
  | _ => none

/--
`program_brk = save_brk`
-/
def release (s : Exiting) (brk : Nat) : Exiting :=
  let gone := s.memory.take (s.memory.length - brk)
  { s with
    memory := s.memory.drop (s.memory.length - brk)
    history := gone.reverse.map .released ++ s.history }

def loop (s : Exiting) : List ExitFrame → Option Exiting
  | .ending p brk :: rest =>
    match s.handlers with
    | h :: handlers =>
      some { s with
        handlers
        stack := .handler h.owner :: .ending p brk :: rest
        history := .ran h :: s.history }
    | [] => some ({ s with stack := rest }.release brk)
  | _ => none

def next (s : Exiting) : ExitEvent → Option Exiting
  | .startElf => if canStart s.stack then some s.start else none
  | .startLinux => if canStart s.stack then some s.startLinux else none
  | .register => (running s.stack).map s.register
  | .programDone => s.leave s.stack
  | .jump =>
    if s.exitActive then s.leave (s.stack.drop (s.stack.length - s.exitJmp)) else none
  | .loop => s.loop s.stack
  | .handlerDone =>
    match s.stack with
    | .handler _ :: rest => some { s with stack := rest }
    | _ => none

end Exiting

/--
What has happened may go on like this. A handler is called once, when its program has ended and is
still in memory, and after all those that the program has registered later. A program goes from
memory when all its handlers have been called.
-/
def Allowed (past : List ExitHistory) : ExitHistory → Prop
  | .ran h =>
    .registered h ∈ past ∧ .ran h ∉ past ∧ .ended h.owner ∈ past ∧ .released h.owner ∉ past
      ∧ ∀ h' : Handler, h'.owner = h.owner → h.serial < h'.serial →
          .registered h' ∈ past → .ran h' ∈ past
  | .released p => ∀ h : Handler, h.owner = p → .registered h ∈ past → .ran h ∈ past
  | _ => True

def Lawful : List ExitHistory → Prop
  | [] => True
  | e :: past => Allowed past e ∧ Lawful past

namespace ExitFrame

def catches : ExitFrame → Bool
  | .run _ _ _ _ => true
  | .linux _ _ => true
  | _ => false

def isEnding : ExitFrame → Bool
  | .ending _ _ => true
  | _ => false

end ExitFrame

def alive : List ExitFrame → List Nat
  | [] => []
  | .run p _ _ _ :: rest => p :: alive rest
  | _ :: rest => alive rest

namespace Exiting

/--
The handlers on the list can be left to those that will call them. For `elf_run`, which calls them
all, no program that goes on running has one. For `linux_run`, which calls none, their programs go on
running, or there is an `elf_run` around that is in its loop.
-/
def EndsAlone (s : Exiting) : List ExitFrame → Prop
  | .run _ _ _ _ :: rest => ∀ h ∈ s.handlers, h.owner ∉ alive rest
  | .linux _ _ :: rest => ∀ h ∈ s.handlers, h.owner ∈ alive rest ∨ ∃ f ∈ rest, f.isEnding
  | _ => True

/--
`EndsAlone` where a program ends.
-/
def AtexitFits (s : Exiting) : ExitEvent → Prop
  | .programDone => s.EndsAlone s.stack
  | .jump => s.EndsAlone (s.stack.drop (s.stack.length - s.exitJmp))
  | _ => True

def Step (e : ExitEvent) (s s' : Exiting) : Prop :=
  s.next e = some s'

/--
What is said about the handlers: all that has happened was in order, and back in the shell all of
them have been called.
-/
structure AtexitLaw (s : Exiting) : Prop where
  lawful : Lawful s.history
  called : s.stack = [] → ∀ h, .registered h ∈ s.history → .ran h ∈ s.history

end Exiting

section Frames

variable {stack rest : List ExitFrame} {f : ExitFrame} {p q : Nat} {ended ended' : Nat → Prop}
  {mem mem' : List Nat}

/--
What `tanja_exit_active` and `tanja_exit_jmp` should be: jumps go to the innermost frame that catches
them.
-/
def jmpOf : List ExitFrame → Bool × Nat
  | [] => (false, 0)
  | f :: rest => if f.catches then (true, rest.length + 1) else jmpOf rest

/--
The copies of the exit variables.
-/
def Saved : List ExitFrame → Prop
  | [] => True
  | .run _ active jmp _ :: rest => (active, jmp) = jmpOf rest ∧ Saved rest
  | .linux active jmp :: rest => (active, jmp) = jmpOf rest ∧ Saved rest
  | _ :: rest => Saved rest

def Shape (ended : Nat → Prop) : List ExitFrame → Prop
  | [] => True
  | .handler q :: rest => ended q ∧ (∃ p brk tl, rest = .ending p brk :: tl) ∧ Shape ended rest
  | _ :: rest => Shape ended rest

def InMemory (mem : List Nat) : List ExitFrame → Prop
  | [] => True
  | .run p _ _ brk :: rest =>
    p ∈ mem ∧ brk ≤ mem.length ∧ InMemory (mem.drop (mem.length - brk)) rest
  | .ending _ brk :: rest => brk ≤ mem.length ∧ InMemory (mem.drop (mem.length - brk)) rest
  | .handler q :: rest => q ∈ mem ∧ InMemory mem rest
  | .linux _ _ :: rest => InMemory mem rest

/--
A handler of `p` is called at its time: before any loop goes on `p` ends, or it has ended already.
-/
def OwnedBy (ended : Nat → Prop) (p : Nat) : List ExitFrame → Prop
  | [] => False
  | .run q _ _ _ :: rest => p = q ∨ OwnedBy ended p rest
  | .ending _ _ :: _ => ended p
  | _ :: rest => OwnedBy ended p rest

theorem Shape.mono (h : Shape ended stack) (hmono : ∀ p, ended p → ended' p) : Shape ended' stack := by
  induction stack with
  | nil => exact trivial
  | cons f rest ih =>
    cases f with
    | handler q => exact ⟨hmono q h.1, h.2.1, ih h.2.2⟩
    | run => exact ih h
    | ending => exact ih h
    | linux => exact ih h

theorem OwnedBy.mono (h : OwnedBy ended p stack) (hmono : ∀ p, ended p → ended' p)
    : OwnedBy ended' p stack := by
  induction stack with
  | nil => exact h
  | cons f rest ih =>
    cases f with
    | run q => exact h.imp_right ih
    | ending => exact hmono p h
    | handler => exact ih h
    | linux => exact ih h

theorem OwnedBy.alive_or_ended (h : OwnedBy ended p stack) : p ∈ alive stack ∨ ended p := by
  induction stack with
  | nil => exact absurd h id
  | cons f rest ih =>
    cases f with
    | run q =>
      cases h with
      | inl h => exact .inl (h ▸ List.mem_cons_self)
      | inr h => exact (ih h).imp_left (List.mem_cons_of_mem q)
    | ending => exact .inr h
    | handler => exact ih h
    | linux => exact ih h

theorem ownedBy_of_isEnding (h : ended p) (hf : f ∈ stack) (hend : f.isEnding)
    : OwnedBy ended p stack := by
  induction stack with
  | nil => contradiction
  | cons g rest ih =>
    cases g with
    | ending => exact h
    | run q => exact .inr (ih ((List.mem_cons.1 hf).resolve_left (by rintro rfl; contradiction)))
    | handler => exact ih ((List.mem_cons.1 hf).resolve_left (by rintro rfl; contradiction))
    | linux => exact ih ((List.mem_cons.1 hf).resolve_left (by rintro rfl; contradiction))

theorem InMemory.append (h : InMemory mem stack) (new : List Nat) : InMemory (new ++ mem) stack := by
  have hdrop : ∀ brk, brk ≤ mem.length →
      (new ++ mem).drop ((new ++ mem).length - brk) = mem.drop (mem.length - brk) := by
    intro brk hbrk
    rw [List.length_append, Nat.add_sub_assoc hbrk, List.drop_append,
      List.drop_eq_nil_of_le (Nat.le_add_right _ _), Nat.add_sub_cancel_left, List.nil_append]
  induction stack with
  | nil => exact trivial
  | cons f rest ih =>
    cases f with
    | run p a j brk =>
      refine ⟨List.mem_append_right new h.1, by rw [List.length_append]; have := h.2.1; omega, ?_⟩
      rw [hdrop brk h.2.1]
      exact h.2.2
    | ending p brk =>
      refine ⟨by rw [List.length_append]; have := h.1; omega, ?_⟩
      rw [hdrop brk h.1]
      exact h.2
    | handler q => exact ⟨List.mem_append_right new h.1, ih h.2⟩
    | linux => exact ih h

theorem InMemory.of_drop {n : Nat} (h : InMemory (mem.drop n) stack) : InMemory mem stack := by
  have := h.append (mem.take n)
  rw [List.take_append_drop] at this
  exact this

theorem InMemory.tail (h : InMemory mem (f :: rest)) : InMemory mem rest := by
  cases f with
  | run => exact h.2.2.of_drop
  | ending => exact h.2.of_drop
  | handler => exact h.2
  | linux => exact h

theorem Shape.tail (h : Shape ended (f :: rest)) : Shape ended rest := by
  cases f with
  | run => exact h
  | ending => exact h
  | handler => exact h.2.2
  | linux => exact h

theorem Saved.tail (h : Saved (f :: rest)) : Saved rest := by
  cases f with
  | run => exact h.2
  | ending => exact h
  | handler => exact h
  | linux => exact h.2

theorem exists_caught {n : Nat} (h : jmpOf stack = (true, n))
    : ∃ above f rest, stack = above ++ f :: rest ∧ f.catches ∧ (∀ g ∈ above, g.catches = false)
        ∧ n = rest.length + 1 := by
  induction stack with
  | nil =>
    have hcaught : (false : Bool) = true := congrArg Prod.fst h
    contradiction
  | cons f rest ih =>
    unfold jmpOf at h
    split at h
    . next hf =>
      cases h
      exact ⟨[], f, rest, rfl, hf, by simp, rfl⟩
    . next hf =>
      obtain ⟨above, g, tl, rfl, hg, habove, hn⟩ := ih h
      refine ⟨f :: above, g, tl, rfl, hg, ?_, hn⟩
      intro g' hg'
      cases hg' with
      | head => simpa using hf
      | tail _ hg' => exact habove g' hg'

theorem alive_append {above : List ExitFrame} (h : ∀ g ∈ above, g.catches = false)
    : alive (above ++ stack) = alive stack := by
  induction above with
  | nil => rfl
  | cons g above ih =>
    have hg := h g (by simp)
    have ih := ih (by intro x hx; exact h x (by simp [hx]))
    cases g with
    | run => contradiction
    | linux => contradiction
    | ending => exact ih
    | handler => exact ih

theorem OwnedBy.of_append {above : List ExitFrame} (h : OwnedBy ended p (above ++ stack))
    (hp : ¬ended p) (habove : ∀ g ∈ above, g.catches = false)
    : OwnedBy ended p stack := by
  induction above with
  | nil => exact h
  | cons g above ih =>
    have hg := habove g (by simp)
    have hrest : ∀ x ∈ above, x.catches = false := by
      intro x hx
      exact habove x (by simp [hx])
    cases g with
    | run => contradiction
    | linux => contradiction
    | ending => exact absurd h hp
    | handler => exact ih h hrest

theorem of_append {P : List ExitFrame → Prop} (htail : ∀ f rest, P (f :: rest) → P rest)
    {above : List ExitFrame} (h : P (above ++ stack))
    : P stack := by
  induction above with
  | nil => exact h
  | cons g above ih => exact ih (htail g _ h)

end Frames

namespace Exiting

variable {s s' : Exiting} {rest : List ExitFrame} {p : Nat}

def Ended (s : Exiting) (p : Nat) : Prop :=
  .ended p ∈ s.history

structure FramesOk (s : Exiting) : Prop where
  jmp : (s.exitActive, s.exitJmp) = jmpOf s.stack
  saved : Saved s.stack
  shape : Shape s.Ended s.stack
  placed : InMemory s.memory s.stack
  nodup : (alive s.stack).Nodup
  alive : ∀ p ∈ alive s.stack, p < s.programs ∧ ¬s.Ended p

structure HandlersOk (s : Exiting) : Prop where
  owned : ∀ h ∈ s.handlers, OwnedBy s.Ended h.owner s.stack
  loaded : ∀ h ∈ s.handlers, h.owner ∈ s.memory
  registered : ∀ h ∈ s.handlers, .registered h ∈ s.history
  waiting : ∀ h ∈ s.handlers, .ran h ∉ s.history
  sorted : s.handlers.Pairwise (fun h h' => h'.serial < h.serial)

structure HistoryOk (s : Exiting) : Prop where
  listed : ∀ h, .registered h ∈ s.history → h ∈ s.handlers ∨ .ran h ∈ s.history
  serials : ∀ h, .registered h ∈ s.history ∨ .ran h ∈ s.history → h.serial < s.serials
  ended : ∀ p, s.Ended p → p < s.programs
  loaded : ∀ p ∈ s.memory, p < s.programs ∧ .released p ∉ s.history
  nodup : s.memory.Nodup
  released : ∀ p, .released p ∈ s.history → p < s.programs
  lawful : Lawful s.history

structure Ok (s : Exiting) : Prop where
  frames : s.FramesOk
  handlers : s.HandlersOk
  history : s.HistoryOk

theorem Ok.boot : boot.Ok where
  frames := ⟨rfl, trivial, trivial, trivial, List.nodup_nil, by simp [Exiting.boot, TanjaOS.alive]⟩
  handlers := ⟨by simp [Exiting.boot], by simp [Exiting.boot], by simp [Exiting.boot],
    by simp [Exiting.boot], List.Pairwise.nil⟩
  history := ⟨by simp [Exiting.boot], by simp [Exiting.boot], by simp [Exiting.boot, Ended],
    by simp [Exiting.boot], List.nodup_nil, by simp [Exiting.boot], trivial⟩

theorem Ok.start (h : s.Ok) : s.start.Ok where
  frames := by
    refine ⟨rfl, ⟨h.frames.jmp, h.frames.saved⟩, h.frames.shape, ⟨List.mem_cons_self, ?_, ?_⟩, ?_, ?_⟩
    . exact Nat.le_succ _
    . have : s.start.memory.drop (s.start.memory.length - s.memory.length) = s.memory := by
        unfold Exiting.start
        rw [List.length_cons, Nat.add_sub_cancel_left]
        rfl
      rw [this]
      exact h.frames.placed
    . refine List.nodup_cons.2 ⟨?_, h.frames.nodup⟩
      intro hp
      exact Nat.lt_irrefl _ (h.frames.alive _ hp).1
    . intro p hp
      cases List.mem_cons.1 hp with
      | inl hp =>
        subst hp
        refine ⟨Nat.lt_succ_self _, ?_⟩
        intro hend
        exact Nat.lt_irrefl _ (h.history.ended _ hend)
      | inr hp => exact ⟨Nat.lt_succ_of_lt (h.frames.alive p hp).1, (h.frames.alive p hp).2⟩
  handlers := by
    refine ⟨?_, ?_, h.handlers.registered, h.handlers.waiting, h.handlers.sorted⟩
    . intro x hx
      exact .inr (h.handlers.owned x hx)
    . intro x hx
      exact List.mem_cons_of_mem _ (h.handlers.loaded x hx)
  history := by
    refine ⟨h.history.listed, h.history.serials, ?_, ?_, ?_, ?_, h.history.lawful⟩
    . intro p hp
      exact Nat.lt_succ_of_lt (h.history.ended p hp)
    . intro p hp
      cases List.mem_cons.1 hp with
      | inl hp =>
        subst hp
        refine ⟨Nat.lt_succ_self _, ?_⟩
        intro hrel
        exact Nat.lt_irrefl _ (h.history.released _ hrel)
      | inr hp => exact ⟨Nat.lt_succ_of_lt (h.history.loaded p hp).1, (h.history.loaded p hp).2⟩
    . refine List.nodup_cons.2 ⟨?_, h.history.nodup⟩
      intro hp
      exact Nat.lt_irrefl _ (h.history.loaded _ hp).1
    . intro p hp
      exact Nat.lt_succ_of_lt (h.history.released p hp)

theorem Ok.startLinux (h : s.Ok) : s.startLinux.Ok where
  frames := ⟨rfl, ⟨h.frames.jmp, h.frames.saved⟩, h.frames.shape, h.frames.placed, h.frames.nodup,
    h.frames.alive⟩
  handlers := ⟨h.handlers.owned, h.handlers.loaded, h.handlers.registered, h.handlers.waiting,
    h.handlers.sorted⟩
  history := ⟨h.history.listed, h.history.serials, h.history.ended, h.history.loaded, h.history.nodup,
    h.history.released, h.history.lawful⟩

theorem Ok.running (h : s.Ok) (hp : running s.stack = some p)
    : p ∈ s.memory ∧ OwnedBy s.Ended p s.stack := by
  have hplaced := h.frames.placed
  have hshape := h.frames.shape
  unfold Exiting.running at hp
  split at hp
  . next heq =>
    cases hp
    rw [heq] at hplaced ⊢
    exact ⟨hplaced.1, .inl rfl⟩
  . next heq =>
    cases hp
    rw [heq] at hplaced hshape ⊢
    obtain ⟨hend, ⟨_, _, _, rfl⟩, _⟩ := hshape
    exact ⟨hplaced.1, hend⟩
  . contradiction

theorem Ok.register (h : s.Ok) (hp : Exiting.running s.stack = some p) : (s.register p).Ok := by
  unfold Exiting.register
  split
  . exact h
  . obtain ⟨hmem, howned⟩ := h.running hp
    have hended : ∀ q, s.Ended q →
        ExitHistory.ended q ∈ .registered ⟨p, s.serials⟩ :: s.history := by
      intro q hq
      exact List.mem_cons_of_mem _ hq
    have hback : ∀ q, ExitHistory.ended q ∈ .registered ⟨p, s.serials⟩ :: s.history → s.Ended q := by
      intro q hq
      exact (List.mem_cons.1 hq).resolve_left (by simp)
    have hran : ∀ x, ExitHistory.ran x ∈ .registered ⟨p, s.serials⟩ :: s.history →
        .ran x ∈ s.history := by
      intro x hx
      exact (List.mem_cons.1 hx).resolve_left (by simp)
    refine ⟨⟨h.frames.jmp, h.frames.saved, h.frames.shape.mono hended, h.frames.placed, h.frames.nodup,
      ?_⟩, ⟨?_, ?_, ?_, ?_, ?_⟩, ⟨?_, ?_, ?_, ?_, h.history.nodup, ?_, trivial, h.history.lawful⟩⟩
    . intro q hq
      exact ⟨(h.frames.alive q hq).1, fun hend => (h.frames.alive q hq).2 (hback q hend)⟩
    . intro x hx
      cases List.mem_cons.1 hx with
      | inl hx =>
        subst hx
        exact howned.mono hended
      | inr hx => exact (h.handlers.owned x hx).mono hended
    . intro x hx
      cases List.mem_cons.1 hx with
      | inl hx =>
        subst hx
        exact hmem
      | inr hx => exact h.handlers.loaded x hx
    . intro x hx
      cases List.mem_cons.1 hx with
      | inl hx => exact hx ▸ List.mem_cons_self
      | inr hx => exact List.mem_cons_of_mem _ (h.handlers.registered x hx)
    . intro x hx hxran
      cases List.mem_cons.1 hx with
      | inl hx =>
        subst hx
        exact Nat.lt_irrefl _ (h.history.serials _ (.inr (hran _ hxran)))
      | inr hx => exact h.handlers.waiting x hx (hran x hxran)
    . refine List.pairwise_cons.2 ⟨?_, h.handlers.sorted⟩
      intro x hx
      exact h.history.serials x (.inl (h.handlers.registered x hx))
    . intro x hx
      cases List.mem_cons.1 hx with
      | inl hx =>
        cases hx
        exact .inl List.mem_cons_self
      | inr hx =>
        cases h.history.listed x hx with
        | inl hx => exact .inl (List.mem_cons_of_mem _ hx)
        | inr hx => exact .inr (List.mem_cons_of_mem _ hx)
    . intro x hx
      dsimp only
      cases hx with
      | inl hx =>
        cases List.mem_cons.1 hx with
        | inl hx =>
          cases hx
          exact Nat.lt_succ_self _
        | inr hx => exact Nat.lt_succ_of_lt (h.history.serials x (.inl hx))
      | inr hx => exact Nat.lt_succ_of_lt (h.history.serials x (.inr (hran x hx)))
    . intro q hq
      exact h.history.ended q (hback q hq)
    . intro q hq
      refine ⟨(h.history.loaded q hq).1, fun hrel => ?_⟩
      exact (h.history.loaded q hq).2 ((List.mem_cons.1 hrel).resolve_left (by simp))
    . intro q hq
      exact h.history.released q ((List.mem_cons.1 hq).resolve_left (by simp))

theorem Ok.leave_run (h : s.Ok) {above : List ExitFrame} {active : Bool} {jmp brk : Nat}
    (hstack : s.stack = above ++ .run p active jmp brk :: rest)
    (habove : ∀ g ∈ above, g.catches = false) (halone : ∀ x ∈ s.handlers, x.owner ∉ TanjaOS.alive rest)
    : { s with
        stack := .ending p brk :: rest
        exitActive := active
        exitJmp := jmp
        history := .ended p :: s.history }.Ok := by
  have hended : ∀ q, s.Ended q → ExitHistory.ended q ∈ .ended p :: s.history := by
    intro q hq
    exact List.mem_cons_of_mem _ hq
  have hback : ∀ e : ExitHistory, e ∈ .ended p :: s.history → e ≠ .ended p → e ∈ s.history := by
    intro e he hne
    exact (List.mem_cons.1 he).resolve_left hne
  have halive : TanjaOS.alive s.stack = p :: TanjaOS.alive rest := by
    rw [hstack, alive_append habove]
    rfl
  have hnodup := h.frames.nodup
  rw [halive, List.nodup_cons] at hnodup
  have hsaved := h.frames.saved
  rw [hstack] at hsaved
  have hsaved := of_append (fun _ _ => Saved.tail) hsaved
  have hshape := h.frames.shape
  rw [hstack] at hshape
  have hshape := of_append (fun _ _ => Shape.tail) hshape
  have hplaced := h.frames.placed
  rw [hstack] at hplaced
  have hplaced := of_append (fun _ _ => InMemory.tail) hplaced
  refine ⟨⟨hsaved.1, hsaved.2, hshape.mono hended, hplaced.2, hnodup.2, ?_⟩,
    ⟨?_, h.handlers.loaded, ?_, ?_, h.handlers.sorted⟩,
    ⟨?_, ?_, ?_, ?_, h.history.nodup, ?_, trivial, h.history.lawful⟩⟩
  . intro q hq
    have hq' : q ∈ TanjaOS.alive s.stack := by
      rw [halive]
      exact List.mem_cons_of_mem p hq
    refine ⟨(h.frames.alive q hq').1, fun hend => ?_⟩
    cases List.mem_cons.1 hend with
    | inl hend =>
      cases hend
      exact hnodup.1 hq
    | inr hend => exact (h.frames.alive q hq').2 hend
  . intro x hx
    show ExitHistory.ended x.owner ∈ .ended p :: s.history
    cases (h.handlers.owned x hx).alive_or_ended with
    | inl hx' =>
      rw [halive] at hx'
      have hxp := (List.mem_cons.1 hx').resolve_right (halone x hx)
      rw [hxp]
      exact List.mem_cons_self
    | inr hx' => exact hended _ hx'
  . intro x hx
    exact List.mem_cons_of_mem _ (h.handlers.registered x hx)
  . intro x hx hran
    exact h.handlers.waiting x hx (hback _ hran (by simp))
  . intro x hx
    exact (h.history.listed x (hback _ hx (by simp))).imp_right (List.mem_cons_of_mem _)
  . intro x hx
    exact h.history.serials x (hx.imp (fun hx => hback _ hx (by simp)) (fun hx => hback _ hx (by simp)))
  . intro q hq
    cases List.mem_cons.1 hq with
    | inl hq =>
      cases hq
      exact (h.frames.alive p (by rw [halive]; exact List.mem_cons_self)).1
    | inr hq => exact h.history.ended q hq
  . intro q hq
    exact ⟨(h.history.loaded q hq).1, fun hrel => (h.history.loaded q hq).2 (hback _ hrel (by simp))⟩
  . intro q hq
    exact h.history.released q (hback _ hq (by simp))

theorem Ok.leave_linux (h : s.Ok) {above : List ExitFrame} {active : Bool} {jmp : Nat}
    (hstack : s.stack = above ++ .linux active jmp :: rest)
    (habove : ∀ g ∈ above, g.catches = false)
    (halone : ∀ x ∈ s.handlers, x.owner ∈ TanjaOS.alive rest ∨ ∃ f ∈ rest, f.isEnding)
    : { s with stack := rest, exitActive := active, exitJmp := jmp }.Ok := by
  have halive : TanjaOS.alive s.stack = TanjaOS.alive rest := by
    rw [hstack, alive_append habove]
    rfl
  have hnodup := h.frames.nodup
  rw [halive] at hnodup
  have hsaved := h.frames.saved
  rw [hstack] at hsaved
  have hsaved := of_append (fun _ _ => Saved.tail) hsaved
  have hshape := h.frames.shape
  rw [hstack] at hshape
  have hshape := of_append (fun _ _ => Shape.tail) hshape
  have hplaced := h.frames.placed
  rw [hstack] at hplaced
  have hplaced := of_append (fun _ _ => InMemory.tail) hplaced
  refine ⟨⟨hsaved.1, hsaved.2, hshape, hplaced, hnodup, ?_⟩,
    ⟨?_, h.handlers.loaded, h.handlers.registered, h.handlers.waiting, h.handlers.sorted⟩,
    ⟨h.history.listed, h.history.serials, h.history.ended, h.history.loaded, h.history.nodup,
      h.history.released, h.history.lawful⟩⟩
  . intro q hq
    exact h.frames.alive q (by rw [halive]; exact hq)
  . intro x hx
    have howned := h.handlers.owned x hx
    by_cases hend : s.Ended x.owner
    . -- a program that has ended is not running, so there is a loop that calls its handlers
      cases halone x hx with
      | inl hx' => exact absurd hend (h.frames.alive _ (by rw [halive]; exact hx')).2
      | inr hx' =>
        obtain ⟨f, hf, hfe⟩ := hx'
        exact ownedBy_of_isEnding hend hf hfe
    . rw [hstack] at howned
      exact howned.of_append hend habove

theorem Ok.leave (h : s.Ok) {above frames : List ExitFrame} (hstack : s.stack = above ++ frames)
    (habove : ∀ g ∈ above, g.catches = false) (halone : s.EndsAlone frames)
    (hs : s.leave frames = some s')
    : s'.Ok := by
  unfold Exiting.leave at hs
  split at hs
  . cases hs
    exact h.leave_run hstack habove halone
  . cases hs
    exact h.leave_linux hstack habove halone
  . contradiction

theorem Ok.jump (h : s.Ok) (hactive : s.exitActive = true)
    (halone : s.EndsAlone (s.stack.drop (s.stack.length - s.exitJmp)))
    (hs : s.leave (s.stack.drop (s.stack.length - s.exitJmp)) = some s')
    : s'.Ok := by
  have hjmp := h.frames.jmp
  rw [hactive] at hjmp
  obtain ⟨above, f, rest, hstack, _, habove, hn⟩ := exists_caught hjmp.symm
  have hframes : s.stack.drop (s.stack.length - s.exitJmp) = f :: rest := by
    have hlen : (above ++ f :: rest).length - (rest.length + 1) = above.length := by
      rw [List.length_append, List.length_cons, Nat.add_sub_cancel]
    rw [hn, hstack, hlen, List.drop_left]
  rw [hframes] at halone hs
  exact h.leave hstack habove halone hs

theorem Ok.call (h : s.Ok) {x : Handler} {xs : List Handler} {brk : Nat} (hxs : s.handlers = x :: xs)
    (hstack : s.stack = .ending p brk :: rest)
    : { s with
        handlers := xs
        stack := .handler x.owner :: .ending p brk :: rest
        history := .ran x :: s.history }.Ok := by
  have hmem : ∀ y ∈ xs, y ∈ s.handlers := by
    intro y hy
    rw [hxs]
    exact List.mem_cons_of_mem x hy
  have hx : x ∈ s.handlers := by
    rw [hxs]
    exact List.mem_cons_self
  have hsorted := h.handlers.sorted
  rw [hxs, List.pairwise_cons] at hsorted
  have hended : ∀ q, s.Ended q → ExitHistory.ended q ∈ .ran x :: s.history := by
    intro q hq
    exact List.mem_cons_of_mem _ hq
  have hback : ∀ e : ExitHistory, e ∈ .ran x :: s.history → e ≠ .ran x → e ∈ s.history := by
    intro e he hne
    exact (List.mem_cons.1 he).resolve_left hne
  have howned := h.handlers.owned
  have hframes := h.frames
  obtain ⟨hjmp, hsaved, hshape, hplaced, hnodup, halive⟩ := hframes
  rw [hstack] at hjmp hsaved hshape hplaced hnodup halive howned
  have hxend : s.Ended x.owner := howned x hx
  refine ⟨⟨hjmp, hsaved, ⟨hended _ hxend, ⟨p, brk, rest, rfl⟩, hshape.mono hended⟩,
    ⟨h.handlers.loaded x hx, hplaced⟩, hnodup, ?_⟩, ⟨?_, ?_, ?_, ?_, hsorted.2⟩,
    ⟨?_, ?_, ?_, ?_, h.history.nodup, ?_, ?_, h.history.lawful⟩⟩
  . intro q hq
    exact ⟨(halive q hq).1, fun hend => (halive q hq).2 (hback _ hend (by simp))⟩
  . intro y hy
    exact hended _ (howned y (hmem y hy))
  . intro y hy
    exact h.handlers.loaded y (hmem y hy)
  . intro y hy
    exact List.mem_cons_of_mem _ (h.handlers.registered y (hmem y hy))
  . intro y hy hran
    cases List.mem_cons.1 hran with
    | inl hran =>
      rw [ExitHistory.ran.inj hran] at hy
      exact Nat.lt_irrefl _ (hsorted.1 x hy)
    | inr hran => exact h.handlers.waiting y (hmem y hy) hran
  . intro y hy
    cases h.history.listed y (hback _ hy (by simp)) with
    | inl hy =>
      rw [hxs] at hy
      cases List.mem_cons.1 hy with
      | inl hy => exact .inr (hy ▸ List.mem_cons_self)
      | inr hy => exact .inl hy
    | inr hy => exact .inr (List.mem_cons_of_mem _ hy)
  . intro y hy
    cases hy with
    | inl hy => exact h.history.serials y (.inl (hback _ hy (by simp)))
    | inr hy =>
      cases List.mem_cons.1 hy with
      | inl hy =>
        cases hy
        exact h.history.serials x (.inl (h.handlers.registered x hx))
      | inr hy => exact h.history.serials y (.inr hy)
  . intro q hq
    exact h.history.ended q (hback _ hq (by simp))
  . intro q hq
    exact ⟨(h.history.loaded q hq).1, fun hrel => (h.history.loaded q hq).2 (hback _ hrel (by simp))⟩
  . intro q hq
    exact h.history.released q (hback _ hq (by simp))
  . refine ⟨h.handlers.registered x hx, h.handlers.waiting x hx, hxend,
      (h.history.loaded _ (h.handlers.loaded x hx)).2, ?_⟩
    intro y _ hlt hreg
    refine (h.history.listed y hreg).resolve_left ?_
    intro hy
    rw [hxs] at hy
    cases List.mem_cons.1 hy with
    | inl hy =>
      subst hy
      exact Nat.lt_irrefl _ hlt
    | inr hy => exact Nat.lt_asymm hlt (hsorted.1 y hy)

theorem lawful_released {gone : List Nat} {past : List ExitHistory} (h : Lawful past)
    (hran : ∀ x, .registered x ∈ past → .ran x ∈ past)
    : Lawful (gone.map .released ++ past) := by
  induction gone with
  | nil => exact h
  | cons p gone ih =>
    refine ⟨?_, ih⟩
    intro x _ hx
    have hpast : ∀ e : ExitHistory, (∀ q, e ≠ .released q) →
        e ∈ gone.map .released ++ past → e ∈ past := by
      intro e hne he
      refine (List.mem_append.1 he).resolve_left ?_
      intro he
      obtain ⟨q, _, rfl⟩ := List.mem_map.1 he
      exact hne q rfl
    exact List.mem_append_right _ (hran x (hpast _ (by simp) hx))

theorem Ok.finish (h : s.Ok) {brk : Nat} (hnil : s.handlers = [])
    (hstack : s.stack = .ending p brk :: rest)
    : ({ s with stack := rest }.release brk).Ok := by
  have hpast : ∀ e : ExitHistory, (∀ q, e ≠ .released q) →
      e ∈ ({ s with stack := rest }.release brk).history → e ∈ s.history := by
    intro e hne he
    refine (List.mem_append.1 he).resolve_left ?_
    intro he
    obtain ⟨q, _, rfl⟩ := List.mem_map.1 he
    exact hne q rfl
  have hended : ∀ q, ({ s with stack := rest }.release brk).Ended q ↔ s.Ended q := by
    intro q
    exact ⟨hpast _ (by simp), List.mem_append_right _⟩
  have hlisted : ∀ x, .registered x ∈ s.history → .ran x ∈ s.history := by
    intro x hx
    refine (h.history.listed x hx).resolve_left ?_
    rw [hnil]
    exact List.not_mem_nil
  obtain ⟨hjmp, hsaved, hshape, hplaced, hnodup, halive⟩ := h.frames
  rw [hstack] at hjmp hsaved hshape hplaced hnodup halive
  refine ⟨⟨hjmp, hsaved, hshape.mono (fun q => (hended q).2), hplaced.2, hnodup, ?_⟩,
    ⟨?_, ?_, ?_, ?_, ?_⟩, ⟨?_, ?_, ?_, ?_, ?_, ?_, ?_⟩⟩
  . intro q hq
    exact ⟨(halive q hq).1, fun hend => (halive q hq).2 ((hended q).1 hend)⟩
  . intro x hx
    exact absurd (hnil ▸ hx : x ∈ []) List.not_mem_nil
  . intro x hx
    exact absurd (hnil ▸ hx : x ∈ []) List.not_mem_nil
  . intro x hx
    exact absurd (hnil ▸ hx : x ∈ []) List.not_mem_nil
  . intro x hx
    exact absurd (hnil ▸ hx : x ∈ []) List.not_mem_nil
  . exact h.handlers.sorted
  . intro x hx
    exact .inr (List.mem_append_right _ (hlisted x (hpast _ (by simp) hx)))
  . intro x hx
    exact h.history.serials x (hx.imp (hpast _ (by simp)) (hpast _ (by simp)))
  . intro q hq
    exact h.history.ended q ((hended q).1 hq)
  . intro q hq
    have hq' : q ∈ s.memory := List.mem_of_mem_drop hq
    refine ⟨(h.history.loaded q hq').1, fun hrel => ?_⟩
    cases List.mem_append.1 hrel with
    | inl hrel =>
      -- what has been released was above what is still there
      obtain ⟨q', hgone, heq⟩ := List.mem_map.1 hrel
      cases heq
      have hsplit := h.history.nodup
      rw [← List.take_append_drop (s.memory.length - brk) s.memory, List.nodup_append] at hsplit
      exact hsplit.2.2 q (List.mem_reverse.1 hgone) q hq rfl
    | inr hrel => exact (h.history.loaded q hq').2 hrel
  . exact h.history.nodup.sublist (List.drop_sublist _ _)
  . intro q hq
    cases List.mem_append.1 hq with
    | inl hq =>
      obtain ⟨q', hgone, heq⟩ := List.mem_map.1 hq
      cases heq
      exact (h.history.loaded q (List.mem_of_mem_take (List.mem_reverse.1 hgone))).1
    | inr hq => exact h.history.released q hq
  . exact lawful_released h.history.lawful hlisted

theorem Ok.handlerDone (h : s.Ok) (hstack : s.stack = .handler p :: rest)
    : { s with stack := rest }.Ok := by
  obtain ⟨hjmp, hsaved, hshape, hplaced, hnodup, halive⟩ := h.frames
  have howned := h.handlers.owned
  rw [hstack] at hjmp hsaved hshape hplaced hnodup halive howned
  exact ⟨⟨hjmp, hsaved, hshape.2.2, hplaced.2, hnodup, halive⟩,
    ⟨howned, h.handlers.loaded, h.handlers.registered, h.handlers.waiting, h.handlers.sorted⟩,
    ⟨h.history.listed, h.history.serials, h.history.ended, h.history.loaded, h.history.nodup,
      h.history.released, h.history.lawful⟩⟩

theorem Ok.step {e : ExitEvent} (h : s.Ok) (hfits : s.AtexitFits e) (hs : Step e s s') : s'.Ok := by
  unfold Step at hs
  cases e with
  | startElf =>
    simp only [next] at hs
    split at hs
    . cases hs
      exact h.start
    . contradiction
  | startLinux =>
    simp only [next] at hs
    split at hs
    . cases hs
      exact h.startLinux
    . contradiction
  | register =>
    obtain ⟨p, hp, rfl⟩ := Option.map_eq_some_iff.1 hs
    exact h.register hp
  | programDone => exact @Ok.leave s s' h [] s.stack rfl (by simp) hfits hs
  | jump =>
    simp only [next] at hs
    split at hs
    . next hactive => exact h.jump hactive hfits hs
    . contradiction
  | loop =>
    simp only [next, Exiting.loop] at hs
    cases hstack : s.stack with
    | nil =>
      rw [hstack] at hs
      contradiction
    | cons f rest =>
      rw [hstack] at hs
      cases f with
      | ending p brk =>
        cases hxs : s.handlers with
        | nil =>
          rw [hxs] at hs
          cases hs
          rw [← hxs]
          exact h.finish hxs hstack
        | cons x xs =>
          rw [hxs] at hs
          cases hs
          exact h.call hxs hstack
      | run => contradiction
      | handler => contradiction
      | linux => contradiction
  | handlerDone =>
    simp only [next] at hs
    cases hstack : s.stack with
    | nil =>
      rw [hstack] at hs
      contradiction
    | cons f rest =>
      rw [hstack] at hs
      cases f with
      | handler p =>
        cases hs
        exact h.handlerDone hstack
      | run => contradiction
      | ending => contradiction
      | linux => contradiction

theorem Ok.law (h : s.Ok) : s.AtexitLaw where
  lawful := h.history.lawful
  called := by
    intro hstack x hx
    refine (h.history.listed x hx).resolve_left ?_
    intro hmem
    have := h.handlers.owned x hmem
    rw [hstack] at this
    exact this

/--
As long as programs end alone, every handler is called once, by the end of its own program and before
that is released.
-/
theorem atexitLaw_of_run (s : Exiting) (h : Run Step AtexitFits boot s) : s.AtexitLaw :=
  (Run.keeps (I := Ok) (fun _ _ _ hfits hok hstep => hok.step hfits hstep) Ok.boot h).law

/--
A program registers a handler and ends.
-/
theorem atexitLaw_of_run_one
    : ([.startElf, .register, .programDone, .loop, .handlerDone, .loop].foldl (after next) boot).AtexitLaw :=
  atexitLaw_of_run _ (Run.of_possible Relation.ReflTransGen.refl (by
    simp [Possible, after, next, boot, start, register, leave, Exiting.loop, release, AtexitFits, EndsAlone,
      running, canStart, TanjaOS.alive, atexitMax]))

/--
A program registers a handler and runs another one, at whose end it is called.
-/
theorem not_atexitLaw_nested
    : ∃ s, Run Step (fun _ _ => True) boot s ∧ ¬s.AtexitLaw := by
  refine ⟨[.startElf, .register, .startElf, .programDone, .loop].foldl (after next) boot,
    Run.of_possible Relation.ReflTransGen.refl (by
      simp [Possible, after, next, boot, start, register, leave, Exiting.loop, running, canStart,
        atexitMax]), ?_⟩
  intro h
  have hended := h.lawful.1.2.2.1
  revert hended
  decide

end Exiting

end TanjaOS
