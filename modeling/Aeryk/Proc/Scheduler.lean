import Aeryk.Lib.Ring
import Aeryk.Proc.Kernel

/-!
# The scheduler

`scheduler.c`, the wait queues, and the part of `process.c` that walks the ring of all processes:
`reap_zombies`, `wait_reap_child`, `wake_blocked_processes` and `schedule`.

The loops take at most `next_pid` turns here, since there are never more processes than pids handed
out.  What `schedule()` does to the stack pointer and the TSS is left out.
-/

namespace Aeryk

open Lib

namespace Kernel

/-! ## The multi-level feedback queue -/

def mlfqEnqueue (k : Kernel) (proc : Nat) : Kernel :=
  if k.stateOf proc = .dead then k
  else
    let k := k.modify proc fun x => { x with queueNext := none, state := .ready }
    let i := (k.procs proc).priority
    let q := k.mlfq i
    match q.head, q.tail with
    | none, _ =>
      (k.modify proc fun x => { x with queuePrev := none }).setQueue i
        { q with head := some proc, tail := some proc }
    | some _, some t =>
      let k := k.modify proc fun x => { x with queuePrev := some t }
      let k := k.modify t fun x => { x with queueNext := some proc }
      k.setQueue i { q with tail := some proc }
    -- a queue with a head has a tail
    | some _, none => k

/-- The body of the loop of `mlfq_pick_next`, for a queue with a head. -/
def takeHead (k : Kernel) (i : Fin numQueues) (proc : Nat) : Kernel :=
  let q := k.mlfq i
  let head := (k.procs proc).queueNext
  let k :=
    match head with
    | some h =>
      (k.modify h fun x => { x with queuePrev := none }).setQueue i { q with head := some h }
    | none => k.setQueue i { q with head := none, tail := none }
  k.modify proc fun x => { x with queueNext := none, queuePrev := none }

/-- The loop of `mlfq_pick_next` over the given queues. -/
def pickFrom (k : Kernel) : List (Fin numQueues) → Kernel × Option Nat
  | [] => (k, none)
  | i :: is =>
    match (k.mlfq i).head with
    | none => pickFrom k is
    | some proc => (k.takeHead i proc, some proc)

def mlfqPickNext (k : Kernel) : Kernel × Option Nat := k.pickFrom (List.finRange numQueues)

/-- The inner loop of `mlfq_boost_all`. -/
def boostLoop (i : Fin numQueues) : Nat → Kernel → Kernel
  | 0, k => k
  | fuel + 1, k =>
    match (k.mlfq i).head with
    | none => k
    | some proc =>
      let k := k.setQueue i { k.mlfq i with head := (k.procs proc).queueNext }
      let k := k.modify proc fun x => { x with priority := 0, ticksExecuted := 0 }
      boostLoop i fuel (k.mlfqEnqueue proc)

/-- One turn of the outer loop of `mlfq_boost_all`. -/
def boostQueue (k : Kernel) (i : Fin numQueues) : Kernel :=
  let k := boostLoop i k.nextPid k
  k.setQueue i { k.mlfq i with tail := none }

def mlfqBoostAll (k : Kernel) : Kernel := [1, 2, 3].foldl boostQueue k

/-! ## Wait queues -/

def waitQueuePush (k : Kernel) (w : WaitId) (proc : Nat) : Kernel :=
  let wq := k.waitq w
  let k := k.modify proc fun x => { x with waitNext := none, waitPrev := wq.tail }
  match wq.tail with
  | some t =>
    (k.modify t fun x => { x with waitNext := some proc }).setWaitq w
      { wq with tail := some proc }
  | none => k.setWaitq w { head := some proc, tail := some proc }

def waitQueuePop (k : Kernel) (w : WaitId) : Kernel × Option Nat :=
  let wq := k.waitq w
  match wq.head with
  | none => (k, none)
  | some proc =>
    let head := (k.procs proc).waitNext
    let k :=
      match head with
      | some h =>
        (k.modify h fun x => { x with waitPrev := none }).setWaitq w { wq with head := some h }
      | none => k.setWaitq w { head := none, tail := none }
    (k.modify proc fun x => { x with waitNext := none, waitPrev := none }, some proc)

/-- Pop one waiter and pass it to `mlfq_enqueue`, as the interrupt handlers and the pipe
calls do. -/
def wakeOne (k : Kernel) (w : WaitId) : Kernel :=
  match k.waitQueuePop w with
  | (k, none) => k
  | (k, some proc) => k.mlfqEnqueue proc

/-- The loop of `wake_all` of `pipe.c`. -/
def wakeLoop (w : WaitId) : Nat → Kernel → Kernel
  | 0, k => k
  | fuel + 1, k =>
    match k.waitQueuePop w with
    | (k, none) => k
    | (k, some proc) => wakeLoop w fuel (k.mlfqEnqueue proc)

/-- `wake_all` of `pipe.c`. -/
def wakeAll (k : Kernel) (w : WaitId) : Kernel := wakeLoop w k.nextPid k

/-! ## The ring of all processes -/

def enqueueProcess (k : Kernel) (proc : Nat) : Kernel :=
  match k.processQueue with
  | none =>
    { k with processQueue := some proc }.modify proc fun x =>
      { x with next := proc, prev := proc }
  | some h =>
    let k := k.modify proc fun x => { x with prev := (k.procs h).prev, next := h }
    let k := k.modify (k.procs h).prev fun x => { x with next := proc }
    k.modify h fun x => { x with prev := proc }

def unlink (k : Kernel) (p : Nat) : Kernel :=
  let k := k.modify (k.procs p).prev fun x => { x with next := (k.procs p).next }
  let k := k.modify (k.procs p).next fun x => { x with prev := (k.procs p).prev }
  if k.processQueue = some p then
    { k with processQueue := if (k.procs p).next ≠ p then some (k.procs p).next else none }
  else k

/-- The first loop of every function that goes around the ring. -/
def ringCount (k : Kernel) (node : Nat) : Nat :=
  lapCount (fun p => (k.procs p).next) node k.nextPid 0 node

def destroyProcessVm (k : Kernel) (p : Nat) : Kernel :=
  let cr3 := (k.procs p).cr3
  if cr3 = k.kernelCr3 then k
  else
    match (k.procs p).vmRefcount with
    | none => k.emit (.free (.table cr3))
    | some c =>
      let k := { k with counters := Function.update k.counters c (k.counters c - 1) }
      -- a sibling thread still shares this address space
      if 0 < k.counters c then k
      else (k.emit (.free (.counter c))).emit (.free (.table cr3))

/-- What `reap_zombies` and `wait_reap_child` do to the process they free. -/
def reap (k : Kernel) (p : Nat) : Kernel :=
  let k := (k.unlink p).emit (.free (.stack (k.procs p).kernelStack))
  (k.destroyProcessVm p).emit (.free (.process p))

/-- The second loop of `reap_zombies`. -/
def reapLoop : Nat → Kernel → Nat → Kernel
  | 0, k, _ => k
  | n + 1, k, victim =>
    let node := (k.procs victim).next
    if k.stateOf victim ≠ .dead ∨ victim = k.current ∨ (k.procs victim).parent ≠ none then
      reapLoop n k node
    else
      let k := k.reap victim
      if k.processQueue = none then k else reapLoop n k node

def reapZombies (k : Kernel) : Kernel :=
  match k.processQueue with
  | none => k
  | some node => reapLoop (k.ringCount node) k node

/-- The search of `wait_reap_child`: the child to reap, if any, and whether there is a
child at all. -/
def findChild (k : Kernel) (parent : Nat) (pid : Int) : Nat → Nat → Bool → Option Nat × Bool
  | 0, _, hasChildren => (none, hasChildren)
  | n + 1, cand, hasChildren =>
    let node := (k.procs cand).next
    if (k.procs cand).parent ≠ some parent then findChild k parent pid n node hasChildren
    else if k.stateOf cand = .dead ∧ (pid ≤ 0 ∨ pid = (k.procs cand).pid) then
      (some cand, true)
    else findChild k parent pid n node true

/-- What `wait_reap_child` returns. -/
inductive WaitResult where
  /-- `-1`: there is no child. -/
  | noChild
  /-- `0`: there are children, and none of those asked for is dead. -/
  | none
  /-- The pid and the exit code of the child that was reaped. -/
  | reaped (pid : Nat) (exitCode : Int)
deriving DecidableEq

def waitReapChild (k : Kernel) (parent : Nat) (pid : Int) : Kernel × WaitResult :=
  match k.processQueue with
  | none => (k, .noChild)
  | some node =>
    match k.findChild parent pid (k.ringCount node) node false with
    | (none, hasChildren) => (k, if hasChildren then .none else .noChild)
    | (some found, _) =>
      (k.reap found, .reaped (k.procs found).pid (k.procs found).exitCode)

/-! ## `schedule` -/

/-- The second loop of `wake_blocked_processes`. -/
def wakeBlockedLoop (self : Nat) : Nat → Kernel → Nat → Kernel
  | 0, k, _ => k
  | n + 1, k, cand =>
    let node := (k.procs cand).next
    let k := if cand ≠ self ∧ k.stateOf cand = .blocked then k.mlfqEnqueue cand else k
    wakeBlockedLoop self n k node

def wakeBlockedProcesses (k : Kernel) (self : Nat) : Kernel :=
  match k.processQueue with
  | none => k
  | some node => wakeBlockedLoop self (k.ringCount node) k node

/-- The part of `schedule_locked` before it picks the next process. -/
def requeue (k : Kernel) : Kernel :=
  let k := k.reapZombies
  let prev := k.current
  let k := k.wakeBlockedProcesses prev
  if k.stateOf prev = .running ∧ prev ≠ k.idle then k.mlfqEnqueue prev else k

/-- The switch at the end of `schedule_locked`. -/
def switchTo (k : Kernel) (next : Nat) : Kernel :=
  { k with current := next }.setState next .running

def scheduleLocked (k : Kernel) : Kernel :=
  let r := k.requeue.mlfqPickNext
  let next := r.2.getD k.idle
  if k.current = next then r.1 else r.1.switchTo next

/-- `schedule`, when the current process calls it.  It is back, or another process
runs. -/
def schedule (k : Kernel) : Kernel := { k.scheduleLocked with yielding := false }

/-! ## Timer ticks -/

def priorityBoostInterval : Nat := 100

def demote (i : Fin numQueues) : Fin numQueues :=
  if h : (i : Nat) < numQueues - 1 then ⟨i + 1, by omega⟩ else i

/-- What `mlfq_on_tick` does up to its call of `schedule`, and whether it calls it. -/
def tickUpdate (k : Kernel) : Kernel × Bool :=
  let k := { k with globalTicks := k.globalTicks + 1 }
  if priorityBoostInterval ≤ k.globalTicks then
    let k := { k with globalTicks := 0 }.mlfqBoostAll
    if k.current ≠ k.idle then
      (k.modify k.current fun x => { x with priority := 0, ticksExecuted := 0 }, true)
    else (k, true)
  else if k.stateOf k.current ≠ .running then (k, false)
  else
    let k := k.modify k.current fun x => { x with ticksExecuted := x.ticksExecuted + 1 }
    let p := k.procs k.current
    if (k.mlfq p.priority).quantum ≤ p.ticksExecuted then
      (k.modify k.current fun x => { x with priority := demote x.priority, ticksExecuted := 0 },
        true)
    else (k, false)

/-- `mlfq_on_tick`.  A process interrupted on its way to `schedule()` goes on to call it if it
still runs. -/
def mlfqOnTick (k : Kernel) : Kernel :=
  let r := k.tickUpdate
  if r.2 then
    let k' := r.1.scheduleLocked
    { k' with yielding := k.yielding && k'.current = k.current }
  else r.1

end Kernel

end Aeryk
