import Aeryk.Proc.Lifecycle
import Mathlib.Logic.Relation

/-!
# Runs of the kernel

One CPU.  An event is a timer tick, another interrupt, or a system call of the current process up
to its end or up to where it yields.  A call that yields sets its state and calls `schedule()`
after that.  Interrupts may come in between, so these are two events, and `yielding` tells a state
between the two.

The answers of the layers below are part of the event.  An address that is handed out is not in
use.
-/

namespace Aeryk

open Kernel

inductive Event where
  /-- `on_irq0`. -/
  | tick
  /-- The current process calls `schedule()`. -/
  | schedule
  /-- `on_irq1` has a line for `keyboard_read`. -/
  | irqKbd
  /-- `on_irq12` has a packet for `mouse_read`. -/
  | irqMouse
  /-- `create_user_process`. -/
  | create (image : LoadAnswer) (proc stack : Option Nat)
  /-- `SYS_fork` and `SYS_clone`. -/
  | clone (flags childStack : Nat) (ans : CloneAnswer)
  /-- `SYS_execve`. -/
  | exec (image : LoadAnswer)
  | exit (code : Int)
  /-- The current process is killed by a fault. -/
  | fault
  /-- One turn of `SYS_wait`. -/
  | wait (pid : Int)
  /-- One turn of `SYS_sleep_ms`. -/
  | sleep
  /-- `keyboard_read` finds nothing. -/
  | kbdRead
  /-- `mouse_read` finds nothing. -/
  | mouseRead
  /-- One turn of `pipe_read` on a descriptor. -/
  | pipeRead (fd : Fin maxFds)
  /-- One turn of `pipe_write` on a descriptor. -/
  | pipeWrite (fd : Fin maxFds) (b : Byte)
  /-- `SYS_open`. -/
  | openFile (file : Option Nat) (flags : Nat)
  | close (rdi : Nat)
  | pipe (pipe : Option Nat) (copied : Bool)
  | dup (oldfd : Nat)
  | dup2 (oldfd newfd : Nat)

namespace Kernel

def onPipe (k : Kernel) (i : Fin maxFds) (f : Nat → Kernel) : Kernel :=
  match (k.fd k.current i).pipe with
  | some p => f p
  | none => k

def step (k : Kernel) : Event → Kernel
  | .tick => k.mlfqOnTick
  | .schedule => k.schedule
  | .irqKbd => k.wakeOne .kbd
  | .irqMouse => k.wakeOne .mouse
  | .create image proc stack => (k.createUserProcess image proc stack).1
  | .clone flags childStack ans => (k.cloneProcess k.current flags childStack ans).1
  | .exec image => k.execProcess k.current image
  | .exit code => k.exitCurrent code
  | .fault => k.exitCurrent (-1)
  | .wait pid => k.sysWait pid
  | .sleep => k.block
  | .kbdRead => k.park .kbd
  | .mouseRead => k.park .mouse
  | .pipeRead i => k.onPipe i k.pipeReadTurn
  | .pipeWrite i b => k.onPipe i fun p => k.pipeWriteTurn p b
  | .openFile file flags => (k.sysOpen file flags).1
  | .close rdi => (k.sysClose rdi).1
  | .pipe pipe copied => (k.sysPipe pipe copied).1
  | .dup oldfd => (k.sysDup oldfd).1
  | .dup2 oldfd newfd => (k.sysDup2 oldfd newfd).1

def Fresh (k : Kernel) (mk : Nat → Obj) (a : Option Nat) : Prop :=
  ∀ x, a = some x → alive k.log (mk x) = false

/-- A page table that may be handed out.  The kernel's own one is none of them. -/
def FreshTable (k : Kernel) (t : Option Nat) : Prop :=
  k.Fresh .table t ∧ t ≠ some k.kernelCr3

def LoadAnswer.table : LoadAnswer → Option Nat
  | .failed => none
  | .tornDown t => some t
  | .loaded t _ _ _ => some t

/-- The answers an event carries are possible. -/
def AnswersOk (k : Kernel) : Event → Prop
  | .create image proc stack =>
    k.FreshTable image.table ∧ k.Fresh .process proc ∧ k.Fresh .stack stack
  | .clone _ _ ans =>
    k.Fresh .counter ans.counter ∧ k.FreshTable ans.table ∧ k.Fresh .process ans.child ∧
      k.Fresh .stack ans.stack
  | .exec image => k.FreshTable image.table
  | .pipe p _ => k.Fresh .pipe p
  | _ => True

/-- The event can happen: an interrupt or a `schedule()` at any time, and the other calls when the
current process is not about to yield.  Except for `create_user_process`, they come from a user
process. -/
def MayHappen (k : Kernel) : Event → Prop
  | .tick | .schedule | .irqKbd | .irqMouse => True
  | .create .. => k.yielding = false
  | .pipeRead i =>
    k.yielding = false ∧ k.current ≠ k.idle ∧ (k.fd k.current i).type = .pipeRead
  | .pipeWrite i _ =>
    k.yielding = false ∧ k.current ≠ k.idle ∧ (k.fd k.current i).type = .pipeWrite
  | _ => k.yielding = false ∧ k.current ≠ k.idle

instance (k : Kernel) (mk : Nat → Obj) : (a : Option Nat) → Decidable (k.Fresh mk a)
  | none => isTrue nofun
  | some x => decidable_of_iff (alive k.log (mk x) = false)
    ⟨fun h _ e => Option.some.inj e ▸ h, fun h => h x rfl⟩

instance (k : Kernel) (t : Option Nat) : Decidable (k.FreshTable t) :=
  inferInstanceAs (Decidable (_ ∧ _))

instance (k : Kernel) : (e : Event) → Decidable (k.AnswersOk e)
  | .create .. | .clone .. => inferInstanceAs (Decidable (_ ∧ _))
  | .exec _ => inferInstanceAs (Decidable (k.FreshTable _))
  | .pipe .. => inferInstanceAs (Decidable (k.Fresh _ _))
  | .tick | .schedule | .irqKbd | .irqMouse | .exit _ | .fault | .wait _ | .sleep | .kbdRead
  | .mouseRead | .pipeRead _ | .pipeWrite .. | .openFile .. | .close _ | .dup _ | .dup2 .. =>
    isTrue trivial

instance (k : Kernel) : (e : Event) → Decidable (k.MayHappen e)
  | .tick | .schedule | .irqKbd | .irqMouse => isTrue trivial
  | .create .. => inferInstanceAs (Decidable (_ = _))
  | .clone .. | .exec _ | .exit _ | .fault | .wait _ | .sleep | .kbdRead | .mouseRead
  | .pipeRead _ | .pipeWrite .. | .openFile .. | .close _ | .pipe .. | .dup _ | .dup2 .. =>
    inferInstanceAs (Decidable (_ ∧ _))

/-- Before `init_scheduler`: memory holds anything, and the idle process and its stack are there.
-/
structure Boot where
  procs : Nat → Process
  pipes : Nat → Pipe WaitQueue
  counters : Nat → Nat
  idle : Nat
  idleStack : Nat
  kernelCr3 : Nat

def Boot.blank : Boot := ⟨fun _ => .zero, fun _ => pipeCreate .empty, fun _ => 0, 0, 0, 0⟩

/-- `init_scheduler`, with `mlfq_init`. -/
def initScheduler (b : Boot) : Kernel where
  procs := Function.update b.procs b.idle
    { Process.zero with
      pid := 0
      state := .running
      priority := 3
      ticksExecuted := 0
      cr3 := b.kernelCr3
      kernelStack := b.idleStack
      next := b.idle
      prev := b.idle }
  current := b.idle
  idle := b.idle
  processQueue := some b.idle
  nextPid := 1
  mlfq := fun i => { head := none, tail := none, quantum := 2 + 2 * i }
  globalTicks := 0
  kbdWaitq := .empty
  mouseWaitq := .empty
  pipes := b.pipes
  counters := b.counters
  kernelCr3 := b.kernelCr3
  fbOwnerPid := 0
  fbHasOwner := false
  log := [.alloc (.stack b.idleStack), .alloc (.process b.idle)]
  yielding := false

/-- One step of a run whose steps meet a condition. -/
def Step (ok : Kernel → Event → Prop) (k k' : Kernel) : Prop :=
  ∃ e, k.MayHappen e ∧ k.AnswersOk e ∧ ok k e ∧ k' = k.step e

/-- The states of the runs from `init_scheduler` on whose steps all meet a condition. -/
def ReachableBy (ok : Kernel → Event → Prop) (k : Kernel) : Prop :=
  ∃ b, Relation.ReflTransGen (Step ok) (initScheduler b) k

def Reachable (k : Kernel) : Prop := ReachableBy (fun _ _ => True) k

/-- What holds after `init_scheduler` and is kept by every step that meets the condition
holds in every run. -/
theorem ReachableBy.invariant {ok : Kernel → Event → Prop} {I : Kernel → Prop}
    (h0 : ∀ b, I (initScheduler b))
    (hstep : ∀ k e, I k → k.MayHappen e → k.AnswersOk e → ok k e → I (k.step e))
    {k : Kernel} (h : ReachableBy ok k) : I k := by
  obtain ⟨b, h⟩ := h
  induction h with
  | refl => exact h0 b
  | tail _ st ih =>
    obtain ⟨e, h1, h2, h3, rfl⟩ := st
    exact hstep _ e ih h1 h2 h3

/-- The run makes the given events, and every one of them meets the condition. -/
def CanRun (ok : Kernel → Event → Prop) (k : Kernel) : List Event → Prop
  | [] => True
  | e :: es => k.MayHappen e ∧ k.AnswersOk e ∧ ok k e ∧ CanRun ok (k.step e) es

instance CanRun.decidable {ok : Kernel → Event → Prop} [∀ k e, Decidable (ok k e)] :
    (k : Kernel) → (es : List Event) → Decidable (k.CanRun ok es)
  | _, [] => isTrue trivial
  | k, e :: es =>
    have : Decidable ((k.step e).CanRun ok es) := CanRun.decidable (k.step e) es
    inferInstanceAs (Decidable (_ ∧ _ ∧ _ ∧ _))

theorem ReachableBy.run {ok : Kernel → Event → Prop} {k : Kernel} {es : List Event}
    (h : ReachableBy ok k) (hr : k.CanRun ok es) : ReachableBy ok (es.foldl step k) := by
  induction es generalizing k with
  | nil => exact h
  | cons e es ih =>
    obtain ⟨h1, h2, h3, hr⟩ := hr
    obtain ⟨b, h⟩ := h
    exact ih ⟨b, h.tail ⟨e, h1, h2, h3, rfl⟩⟩ hr

theorem ReachableBy.reachable {ok : Kernel → Event → Prop} {k : Kernel} (h : ReachableBy ok k) :
    Reachable k := by
  obtain ⟨b, h⟩ := h
  refine ⟨b, ?_⟩
  induction h with
  | refl => exact .refl
  | tail _ st ih =>
    obtain ⟨e, h1, h2, -, h4⟩ := st
    exact ih.tail ⟨e, h1, h2, trivial, h4⟩

end Kernel

end Aeryk
