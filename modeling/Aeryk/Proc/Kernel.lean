import Aeryk.Pipe.Calls

/-!
# Processes and the kernel state

`process_t`, the queues that link processes, and the globals of `process.c`, `scheduler.c`,
`keyboard.c`, `mouse.c` and `syscall.c` that the process layer works on.  A process is named by the
address of its `process_t`, the queues are threaded through the processes by pointers, and `NULL`
is `none`.

The answers of the layers below come in as arguments, and the objects the process layer takes from
them and gives back are recorded in a log.  An address may come back once it has been given back,
which is what the log is read for.
-/

namespace Aeryk

/-! ## Objects of the layers below -/

inductive Obj where
  /-- A `process_t`. -/
  | process (addr : Nat)
  /-- A kernel stack page. -/
  | stack (addr : Nat)
  /-- A user page table, by the address its root has in `cr3`. -/
  | table (cr3 : Nat)
  /-- A `vm_refcount`. -/
  | counter (addr : Nat)
  /-- A `pipe_t`. -/
  | pipe (addr : Nat)
deriving DecidableEq

inductive Call where
  /-- The object is handed out. -/
  | alloc (o : Obj)
  /-- The object is given back. -/
  | free (o : Obj)
deriving DecidableEq

/-- The object has been handed out and not been given back.  The last call stands
first. -/
def alive : List Call → Obj → Bool
  | [], _ => false
  | .alloc o' :: log, o => o' = o || alive log o
  | .free o' :: log, o => o' ≠ o && alive log o

/-- The object is given back only at times when it is handed out. -/
def FreesOk (o : Obj) : List Call → Prop
  | [] => True
  | .alloc _ :: log => FreesOk o log
  | .free o' :: log => (o' = o → alive log o = true) ∧ FreesOk o log

@[simp] theorem alive_alloc (o o' : Obj) (log : List Call) :
    alive (.alloc o' :: log) o = (o' = o || alive log o) := rfl

@[simp] theorem alive_free (o o' : Obj) (log : List Call) :
    alive (.free o' :: log) o = (o' ≠ o && alive log o) := rfl

@[simp] theorem freesOk_alloc (o o' : Obj) (log : List Call) :
    FreesOk o (.alloc o' :: log) ↔ FreesOk o log := Iff.rfl

@[simp] theorem freesOk_free (o o' : Obj) (log : List Call) :
    FreesOk o (.free o' :: log) ↔ (o' = o → alive log o = true) ∧ FreesOk o log := Iff.rfl

instance FreesOk.decidable (o : Obj) : (log : List Call) → Decidable (FreesOk o log)
  | [] => isTrue trivial
  | .alloc _ :: log => FreesOk.decidable o log
  | .free _ :: log =>
    have := FreesOk.decidable o log
    inferInstanceAs (Decidable ((_ → _) ∧ _))

def Call.obj : Call → Obj
  | .alloc o => o
  | .free o => o

def Obj.isPipe : Obj → Bool
  | .pipe _ => true
  | _ => false

def withoutPipes (log : List Call) : List Call := log.filter fun c => !c.obj.isPipe

/-- What becomes of other objects does not depend on the calls about pipes. -/
theorem alive_withoutPipes {o : Obj} (ho : o.isPipe = false) (log : List Call) :
    alive (withoutPipes log) o = alive log o := by
  induction log with
  | nil => rfl
  | cons c log ih =>
    unfold withoutPipes at *
    rw [List.filter_cons]
    split
    next hc => cases c <;> simp [ih]
    next hc =>
      have hne : c.obj ≠ o := fun e => hc (by rw [e, ho]; rfl)
      rw [ih]
      cases c <;> simp_all [Call.obj]

theorem freesOk_withoutPipes {o : Obj} (ho : o.isPipe = false) (log : List Call) :
    FreesOk o (withoutPipes log) ↔ FreesOk o log := by
  induction log with
  | nil => rfl
  | cons c log ih =>
    have hal := alive_withoutPipes ho log
    unfold withoutPipes at *
    rw [List.filter_cons]
    split
    next hc => cases c <;> simp [ih, hal]
    next hc =>
      have hne : c.obj ≠ o := fun e => hc (by rw [e, ho]; rfl)
      rw [ih]
      cases c <;> simp_all [Call.obj]

/-! ## `process_t` -/

inductive ProcessState where
  | ready
  | running
  | blocked
  | blockedKbd
  | blockedPipe
  | blockedMouse
  | dead
deriving DecidableEq

inductive FdType where
  | none
  | vfs
  | pipeRead
  | pipeWrite
deriving DecidableEq

structure FileDescriptor where
  type : FdType
  node : Option Nat
  pipe : Option Nat
  offset : Nat
  flags : Nat

def FileDescriptor.zero : FileDescriptor := ⟨.none, Option.none, Option.none, 0, 0⟩

abbrev maxFds : Nat := 32

abbrev numQueues : Nat := 4

instance : NeZero numQueues := ⟨by decide⟩

scoped instance Kernel.instNeZeroMaxFds : NeZero maxFds := ⟨by decide⟩

def mmapBase : Nat := 0x600000000000

/-- `process_t`, without the saved registers. -/
structure Process where
  pid : Nat
  cr3 : Nat
  vmRefcount : Option Nat
  state : ProcessState
  kernelStack : Nat
  priority : Fin numQueues
  ticksExecuted : Nat
  queueNext : Option Nat
  queuePrev : Option Nat
  waitNext : Option Nat
  waitPrev : Option Nat
  next : Nat
  prev : Nat
  entry : Nat
  userStackTop : Nat
  brkStart : Nat
  brk : Nat
  mmapNext : Nat
  fdTable : Fin maxFds → FileDescriptor
  parent : Option Nat
  exitCode : Int

/-- `memset(proc, 0, sizeof(process_t))`. -/
def Process.zero : Process where
  pid := 0
  cr3 := 0
  vmRefcount := none
  state := .ready
  kernelStack := 0
  priority := 0
  ticksExecuted := 0
  queueNext := none
  queuePrev := none
  waitNext := none
  waitPrev := none
  next := 0
  prev := 0
  entry := 0
  userStackTop := 0
  brkStart := 0
  brk := 0
  mmapNext := 0
  fdTable := fun _ => .zero
  parent := none
  exitCode := 0

/-! ## The kernel -/

/-- `queue_t` of `scheduler.c`. -/
structure ReadyQueue where
  head : Option Nat
  tail : Option Nat
  quantum : Nat

structure WaitQueue where
  head : Option Nat
  tail : Option Nat

def WaitQueue.empty : WaitQueue := ⟨none, none⟩

/-- The wait queues of the kernel: `kbd_waitq`, `mouse_waitq` and two for each pipe. -/
inductive WaitId where
  | kbd
  | mouse
  | pipeRead (p : Nat)
  | pipeWrite (p : Nat)
deriving DecidableEq

/-- The state a process sets before it parks on a wait queue. -/
def WaitId.state : WaitId → ProcessState
  | .kbd => .blockedKbd
  | .mouse => .blockedMouse
  | .pipeRead _ => .blockedPipe
  | .pipeWrite _ => .blockedPipe

structure Kernel where
  procs : Nat → Process
  /-- `current_process`. -/
  current : Nat
  /-- `idle_process`. -/
  idle : Nat
  processQueue : Option Nat
  nextPid : Nat
  mlfq : Fin numQueues → ReadyQueue
  globalTicks : Nat
  kbdWaitq : WaitQueue
  mouseWaitq : WaitQueue
  pipes : Nat → Pipe WaitQueue
  /-- The shared counters `vm_refcount` points to. -/
  counters : Nat → Nat
  /-- The address of the kernel's own page table. -/
  kernelCr3 : Nat
  fbOwnerPid : Nat
  fbHasOwner : Bool
  log : List Call
  /-- The current process has set the state it yields with and has yet to call
  `schedule()`. -/
  yielding : Bool

namespace Kernel

def modify (k : Kernel) (p : Nat) (f : Process → Process) : Kernel :=
  { k with procs := Function.update k.procs p (f (k.procs p)) }

def setQueue (k : Kernel) (i : Fin numQueues) (q : ReadyQueue) : Kernel :=
  { k with mlfq := Function.update k.mlfq i q }

def setPipe (k : Kernel) (p : Nat) (q : Pipe WaitQueue) : Kernel :=
  { k with pipes := Function.update k.pipes p q }

def waitq (k : Kernel) : WaitId → WaitQueue
  | .kbd => k.kbdWaitq
  | .mouse => k.mouseWaitq
  | .pipeRead p => (k.pipes p).readWaiters
  | .pipeWrite p => (k.pipes p).writeWaiters

def setWaitq (k : Kernel) (w : WaitId) (q : WaitQueue) : Kernel :=
  match w with
  | .kbd => { k with kbdWaitq := q }
  | .mouse => { k with mouseWaitq := q }
  | .pipeRead p => k.setPipe p { k.pipes p with readWaiters := q }
  | .pipeWrite p => k.setPipe p { k.pipes p with writeWaiters := q }

def emit (k : Kernel) (c : Call) : Kernel := { k with log := c :: k.log }

def stateOf (k : Kernel) (p : Nat) : ProcessState := (k.procs p).state

def setState (k : Kernel) (p : Nat) (s : ProcessState) : Kernel :=
  k.modify p fun x => { x with state := s }

end Kernel

end Aeryk
