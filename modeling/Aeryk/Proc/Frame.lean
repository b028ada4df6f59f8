import Aeryk.Proc.Runs

/-!
# What the scheduler leaves alone

Most of a process and of the kernel is none of the scheduler's business.  `rest` blanks out what
is: the scheduling state of a process (except whether it is dead), its queue links, and the
queues.  An operation of the scheduler keeps `rest`, and what does not look at the blanked fields
carries over.
-/

namespace Aeryk

open Function

/-- A process without its scheduling state and its queue links. -/
def Process.rest (x : Process) : Process :=
  { x with
    state := if x.state = .dead then .dead else .ready
    priority := 0
    ticksExecuted := 0
    queueNext := none
    queuePrev := none
    waitNext := none
    waitPrev := none }

def Pipe.rest (p : Pipe WaitQueue) : Pipe WaitQueue :=
  { p with readWaiters := .empty, writeWaiters := .empty }

/-- A process without its scheduling state, its queue links and its descriptors. -/
def Process.core (x : Process) : Process := { x.rest with fdTable := fun _ => .zero }

namespace Kernel

/-- The kernel without what the scheduler works on. -/
def rest (k : Kernel) : Kernel :=
  { k with
    procs := fun p => (k.procs p).rest
    current := 0
    mlfq := fun _ => ⟨none, none, 0⟩
    globalTicks := 0
    kbdWaitq := .empty
    mouseWaitq := .empty
    pipes := fun p => (k.pipes p).rest
    yielding := false }

/-- The kernel without what the scheduler and the descriptor calls work on. -/
def core (k : Kernel) : Kernel :=
  { k.rest with
    procs := fun p => (k.procs p).core
    pipes := fun _ => pipeCreate .empty
    log := withoutPipes k.log }

/-- The kernel without the processes and the ready queues. -/
def frame (k : Kernel) : Kernel :=
  { k with procs := fun _ => .zero, mlfq := fun _ => ⟨none, none, 0⟩ }

/-- The kernel without the processes and the wait queues. -/
def waitFrame (k : Kernel) : Kernel :=
  { k with
    procs := fun _ => .zero
    kbdWaitq := .empty
    mouseWaitq := .empty
    pipes := fun p => (k.pipes p).rest }

section Rest

variable {k k' : Kernel} (h : k'.rest = k.rest)

include h

theorem rest_proc (p : Nat) : (k'.procs p).rest = (k.procs p).rest :=
  congrFun (congrArg Kernel.procs h) p

theorem rest_pipe (p : Nat) : (k'.pipes p).rest = (k.pipes p).rest :=
  congrFun (congrArg Kernel.pipes h) p

theorem rest_fd (p : Nat) (i : Fin maxFds) : k'.fd p i = k.fd p i :=
  (congrFun (congrArg Process.fdTable (rest_proc h p)) i :)

theorem rest_idle : k'.idle = k.idle := (congrArg (fun x : Kernel => x.idle) h :)

theorem rest_log : k'.log = k.log := (congrArg (fun x : Kernel => x.log) h :)

theorem rest_core : k'.core = k.core := by
  have h1 : k'.core = { k'.rest with
    procs := fun p => { k'.rest.procs p with fdTable := fun _ => .zero }
    pipes := fun _ => pipeCreate .empty
    log := withoutPipes k'.rest.log } := rfl
  rw [h1, h]
  rfl

end Rest

section Core

variable {k k' : Kernel} (h : k'.core = k.core)

include h

theorem core_proc (p : Nat) : (k'.procs p).core = (k.procs p).core :=
  congrFun (congrArg Kernel.procs h) p

theorem core_dead (p : Nat) : k'.stateOf p = .dead ↔ k.stateOf p = .dead := by
  have hs := (congrArg Process.state (core_proc h p) :)
  simp only [Process.core, Process.rest] at hs
  unfold stateOf
  split at hs <;> split at hs <;> simp_all

theorem core_next (p : Nat) : (k'.procs p).next = (k.procs p).next :=
  (congrArg Process.next (core_proc h p) :)

theorem core_prev (p : Nat) : (k'.procs p).prev = (k.procs p).prev :=
  (congrArg Process.prev (core_proc h p) :)

theorem core_pid (p : Nat) : (k'.procs p).pid = (k.procs p).pid :=
  (congrArg Process.pid (core_proc h p) :)

theorem core_parent (p : Nat) : (k'.procs p).parent = (k.procs p).parent :=
  (congrArg Process.parent (core_proc h p) :)

theorem core_idle : k'.idle = k.idle := (congrArg (fun x : Kernel => x.idle) h :)

theorem core_processQueue : k'.processQueue = k.processQueue :=
  (congrArg (fun x : Kernel => x.processQueue) h :)

theorem core_nextPid : k'.nextPid = k.nextPid := (congrArg (fun x : Kernel => x.nextPid) h :)

theorem core_alive {o : Obj} (ho : o.isPipe = false) : alive k'.log o = alive k.log o := by
  have hl : withoutPipes k'.log = withoutPipes k.log := (congrArg (fun x : Kernel => x.log) h :)
  rw [← alive_withoutPipes ho, hl, alive_withoutPipes ho]

end Core

section Frame

variable {k k' : Kernel} (h : k'.frame = k.frame)

include h

theorem frame_current : k'.current = k.current := (congrArg (fun x : Kernel => x.current) h :)

theorem frame_idle : k'.idle = k.idle := (congrArg (fun x : Kernel => x.idle) h :)

theorem frame_log : k'.log = k.log := (congrArg (fun x : Kernel => x.log) h :)

theorem frame_nextPid : k'.nextPid = k.nextPid := (congrArg (fun x : Kernel => x.nextPid) h :)

theorem frame_yielding : k'.yielding = k.yielding := (congrArg (fun x : Kernel => x.yielding) h :)

theorem frame_processQueue : k'.processQueue = k.processQueue :=
  (congrArg (fun x : Kernel => x.processQueue) h :)

theorem frame_waitq (w : WaitId) : k'.waitq w = k.waitq w :=
  (congrArg (fun x : Kernel => x.waitq w) h :)

theorem frame_rest (hp : ∀ p, (k'.procs p).rest = (k.procs p).rest) : k'.rest = k.rest := by
  have h1 : k'.rest = { k'.frame.rest with procs := fun p => (k'.procs p).rest } := rfl
  have h2 : k.rest = { k.frame.rest with procs := fun p => (k.procs p).rest } := rfl
  rw [h1, h2, h, funext hp]

end Frame

section WaitFrame

variable {k k' : Kernel} (h : k'.waitFrame = k.waitFrame)

include h

theorem waitFrame_current : k'.current = k.current := (congrArg (fun x : Kernel => x.current) h :)

theorem waitFrame_mlfq : k'.mlfq = k.mlfq := (congrArg (fun x : Kernel => x.mlfq) h :)

theorem waitFrame_log : k'.log = k.log := (congrArg (fun x : Kernel => x.log) h :)

theorem waitFrame_yielding : k'.yielding = k.yielding :=
  (congrArg (fun x : Kernel => x.yielding) h :)

theorem waitFrame_rest (hp : ∀ p, (k'.procs p).rest = (k.procs p).rest) : k'.rest = k.rest := by
  have h1 : k'.rest = { k'.waitFrame.rest with procs := fun p => (k'.procs p).rest } := rfl
  have h2 : k.rest = { k.waitFrame.rest with procs := fun p => (k.procs p).rest } := rfl
  rw [h1, h2, h, funext hp]

end WaitFrame

/-! ## Stores -/

section Stores

variable {k : Kernel} {p q : Nat} {f : Process → Process} {i j : Fin numQueues}

@[simp] theorem modify_same : (k.modify p f).procs p = f (k.procs p) := update_self ..

theorem modify_ne (h : q ≠ p) : (k.modify p f).procs q = k.procs q := update_of_ne h ..

@[simp] theorem modify_mlfq : (k.modify p f).mlfq = k.mlfq := rfl

@[simp] theorem modify_frame : (k.modify p f).frame = k.frame := rfl

@[simp] theorem modify_waitq (w : WaitId) : (k.modify p f).waitq w = k.waitq w := by cases w <;> rfl

@[simp] theorem setQueue_procs {x : ReadyQueue} : (k.setQueue i x).procs = k.procs := rfl

@[simp] theorem setQueue_same {x : ReadyQueue} : (k.setQueue i x).mlfq i = x :=
  update_self ..

theorem setQueue_ne {x : ReadyQueue} (h : j ≠ i) : (k.setQueue i x).mlfq j = k.mlfq j :=
  update_of_ne h ..

/-- A store keeps what it does not touch. -/
theorem modify_proj {β : Type} (π : Process → β) (h : π (f (k.procs p)) = π (k.procs p)) :
    π ((k.modify p f).procs q) = π (k.procs q) := by
  by_cases hq : q = p
  · subst hq; rw [modify_same, h]
  · rw [modify_ne hq]

@[simp] theorem setWaitq_procs {w : WaitId} {x : WaitQueue} : (k.setWaitq w x).procs = k.procs := by
  cases w <;> rfl

@[simp] theorem setWaitq_same {w : WaitId} {x : WaitQueue} : (k.setWaitq w x).waitq w = x := by
  cases w <;> simp [setWaitq, waitq, setPipe]

theorem setWaitq_ne {w w' : WaitId} {x : WaitQueue} (h : w' ≠ w) :
    (k.setWaitq w x).waitq w' = k.waitq w' := by
  cases w <;> cases w' <;> simp [setWaitq, waitq, setPipe, update_apply] at * <;>
    split <;> simp_all

@[simp] theorem modify_waitFrame : (k.modify p f).waitFrame = k.waitFrame := rfl

@[simp] theorem setWaitq_waitFrame {w : WaitId} {x : WaitQueue} :
    (k.setWaitq w x).waitFrame = k.waitFrame := by
  cases w with
  | kbd | mouse => rfl
  | pipeRead p | pipeWrite p =>
    simp only [setWaitq, setPipe, waitFrame]
    congr 1
    funext q
    by_cases hq : q = p
    · subst hq; rw [update_self]; rfl
    · rw [update_of_ne hq]

end Stores

end Kernel

end Aeryk
