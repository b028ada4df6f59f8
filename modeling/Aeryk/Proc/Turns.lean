import Aeryk.Proc.Parents

/-!
# Levels and used ticks

What the multi-level feedback queue counts is, for each process, its level and the ticks it has
used up there, and for each queue its quantum (`Kernel.turns`).  Almost every function of the
kernel keeps these, whatever state it is called in.  They change in three places: on a tick, in a
boost, and when a new process starts at the top.
-/

namespace Aeryk

open Function Lib

/-- The levels, the used ticks and the quanta. -/
structure Turns where
  /-- `priority`. -/
  level : Nat → Fin numQueues
  /-- `ticks_executed`. -/
  used : Nat → Nat
  quantum : Fin numQueues → Nat

/-- A process is put at a level, with some ticks used. -/
def Turns.set (t : Turns) (p : Nat) (level : Fin numQueues) (used : Nat) : Turns :=
  { t with level := update t.level p level, used := update t.used p used }

@[simp] theorem Turns.set_set (t : Turns) (p : Nat) (l l' : Fin numQueues) (n n' : Nat) :
    (t.set p l n).set p l' n' = t.set p l' n' := by
  simp [Turns.set]

namespace Kernel

def turns (k : Kernel) : Turns where
  level p := (k.procs p).priority
  used p := (k.procs p).ticksExecuted
  quantum i := (k.mlfq i).quantum

variable {k : Kernel} {p : Nat} {f : Process → Process}

/-! ## Stores -/

theorem turns_congr {k' : Kernel} (hp : k'.procs = k.procs) (hq : k'.mlfq = k.mlfq) :
    k'.turns = k.turns := by
  rw [turns, turns, hp, hq]

theorem turns_modify (h : (f (k.procs p)).priority = (k.procs p).priority ∧
    (f (k.procs p)).ticksExecuted = (k.procs p).ticksExecuted) :
    (k.modify p f).turns = k.turns := by
  have hl : (k.modify p f).turns.level = k.turns.level := by
    funext q
    exact modify_proj Process.priority h.1
  have hu : (k.modify p f).turns.used = k.turns.used := by
    funext q
    exact modify_proj Process.ticksExecuted h.2
  exact congrArg₂ (fun l u => Turns.mk l u k.turns.quantum) hl hu

theorem turns_modify_set : (k.modify p f).turns =
    k.turns.set p (f (k.procs p)).priority (f (k.procs p)).ticksExecuted := by
  have hl : (k.modify p f).turns.level =
      update k.turns.level p (f (k.procs p)).priority := by
    funext q
    by_cases hq : q = p
    · subst hq
      simp [turns]
    · simp [turns, modify_ne hq, hq]
  have hu : (k.modify p f).turns.used =
      update k.turns.used p (f (k.procs p)).ticksExecuted := by
    funext q
    by_cases hq : q = p
    · subst hq
      simp [turns]
    · simp [turns, modify_ne hq, hq]
  exact congrArg₂ (fun l u => Turns.mk l u k.turns.quantum) hl hu

theorem turns_setQueue {i : Fin numQueues} {q : ReadyQueue}
    (h : q.quantum = (k.mlfq i).quantum) : (k.setQueue i q).turns = k.turns := by
  have hq : (k.setQueue i q).turns.quantum = k.turns.quantum := by
    funext j
    by_cases hj : j = i
    · subst hj
      simpa [turns] using h
    · simp [turns, setQueue_ne hj]
  exact congrArg (Turns.mk k.turns.level k.turns.used) hq

@[simp] theorem turns_setWaitq (w : WaitId) (x : WaitQueue) : (k.setWaitq w x).turns = k.turns := by
  cases w <;> rfl

@[simp] theorem turns_setPipe (x : Nat) (y : Pipe WaitQueue) : (k.setPipe x y).turns = k.turns :=
  rfl

@[simp] theorem turns_emit (c : Call) : (k.emit c).turns = k.turns := rfl

@[simp] theorem turns_setState (s : ProcessState) : (k.setState p s).turns = k.turns :=
  turns_modify ⟨rfl, rfl⟩

@[simp] theorem turns_setFd (i : Fin maxFds) (d : FileDescriptor) :
    (k.setFd p i d).turns = k.turns :=
  turns_modify ⟨rfl, rfl⟩

/-! ## Queues -/

@[simp] theorem turns_mlfqEnqueue (k : Kernel) (p : Nat) : (k.mlfqEnqueue p).turns = k.turns := by
  unfold mlfqEnqueue
  split
  · rfl
  · dsimp only
    split
    · rw [turns_setQueue (by rfl), turns_modify ⟨rfl, rfl⟩, turns_modify ⟨rfl, rfl⟩]
    · rw [turns_setQueue (by rfl), turns_modify ⟨rfl, rfl⟩, turns_modify ⟨rfl, rfl⟩,
        turns_modify ⟨rfl, rfl⟩]
    · rw [turns_modify ⟨rfl, rfl⟩]

@[simp] theorem turns_takeHead (k : Kernel) (i : Fin numQueues) (p : Nat) :
    (k.takeHead i p).turns = k.turns := by
  unfold takeHead
  rw [turns_modify ⟨rfl, rfl⟩]
  split
  · rw [turns_setQueue (by rfl), turns_modify ⟨rfl, rfl⟩]
  · rw [turns_setQueue (by rfl)]

theorem turns_pickFrom (k : Kernel) (is : List (Fin numQueues)) :
    (k.pickFrom is).1.turns = k.turns := by
  induction is with
  | nil => rfl
  | cons i is ih =>
    unfold pickFrom
    split
    · exact ih
    · exact turns_takeHead ..

@[simp] theorem turns_waitQueuePush (k : Kernel) (w : WaitId) (p : Nat) :
    (k.waitQueuePush w p).turns = k.turns := by
  unfold waitQueuePush
  dsimp only
  split
  · rw [turns_setWaitq, turns_modify ⟨rfl, rfl⟩, turns_modify ⟨rfl, rfl⟩]
  · rw [turns_setWaitq, turns_modify ⟨rfl, rfl⟩]

@[simp] theorem turns_waitQueuePop (k : Kernel) (w : WaitId) :
    (k.waitQueuePop w).1.turns = k.turns := by
  unfold waitQueuePop
  dsimp only
  split
  · rfl
  · dsimp only
    rw [turns_modify ⟨rfl, rfl⟩]
    split
    · rw [turns_setWaitq, turns_modify ⟨rfl, rfl⟩]
    · rw [turns_setWaitq]

@[simp] theorem turns_wakeOne (k : Kernel) (w : WaitId) : (k.wakeOne w).turns = k.turns := by
  have hpop := turns_waitQueuePop k w
  unfold wakeOne
  split
  next heq =>
    rw [heq] at hpop
    exact hpop
  next heq =>
    rw [heq] at hpop
    rw [turns_mlfqEnqueue]
    exact hpop

theorem turns_wakeLoop (w : WaitId) (fuel : Nat) (k : Kernel) :
    (wakeLoop w fuel k).turns = k.turns := by
  induction fuel generalizing k with
  | zero => rfl
  | succ fuel ih =>
    have hpop := turns_waitQueuePop k w
    unfold wakeLoop
    split
    next heq =>
      rw [heq] at hpop
      exact hpop
    next heq =>
      rw [heq] at hpop
      rw [ih, turns_mlfqEnqueue]
      exact hpop

@[simp] theorem turns_wakeAll (k : Kernel) (w : WaitId) : (k.wakeAll w).turns = k.turns :=
  turns_wakeLoop ..

/-! ## The ring -/

@[simp] theorem turns_enqueueProcess (k : Kernel) (p : Nat) :
    (k.enqueueProcess p).turns = k.turns := by
  unfold enqueueProcess
  split
  · rw [turns_modify ⟨rfl, rfl⟩]
    rfl
  · dsimp only
    rw [turns_modify ⟨rfl, rfl⟩, turns_modify ⟨rfl, rfl⟩, turns_modify ⟨rfl, rfl⟩]

@[simp] theorem turns_unlink (k : Kernel) (p : Nat) : (k.unlink p).turns = k.turns := by
  have hmlfq : (k.unlink p).mlfq = k.mlfq := by
    unfold unlink
    dsimp only
    split <;> rfl
  rw [turns_congr (unlink_procs k p) hmlfq, turns_modify ⟨rfl, rfl⟩, turns_modify ⟨rfl, rfl⟩]

@[simp] theorem turns_destroyProcessVm (k : Kernel) (p : Nat) :
    (k.destroyProcessVm p).turns = k.turns := by
  unfold destroyProcessVm
  dsimp only
  split
  · rfl
  · split
    · rfl
    · split <;> rfl

@[simp] theorem turns_reap (k : Kernel) (p : Nat) : (k.reap p).turns = k.turns := by
  unfold reap
  rw [turns_emit, turns_destroyProcessVm, turns_emit, turns_unlink]

theorem turns_reapLoop (n : Nat) (k : Kernel) (p : Nat) : (reapLoop n k p).turns = k.turns := by
  induction n generalizing k p with
  | zero => rfl
  | succ n ih =>
    unfold reapLoop
    dsimp only
    split
    · exact ih ..
    · split
      · exact turns_reap ..
      · rw [ih, turns_reap]

@[simp] theorem turns_reapZombies (k : Kernel) : k.reapZombies.turns = k.turns := by
  unfold reapZombies
  split
  · rfl
  · exact turns_reapLoop ..

theorem turns_wakeBlockedLoop (self n : Nat) (k : Kernel) (p : Nat) :
    (wakeBlockedLoop self n k p).turns = k.turns := by
  induction n generalizing k p with
  | zero => rfl
  | succ n ih =>
    unfold wakeBlockedLoop
    rw [ih]
    split
    · exact turns_mlfqEnqueue ..
    · rfl

@[simp] theorem turns_wakeBlockedProcesses (k : Kernel) (self : Nat) :
    (k.wakeBlockedProcesses self).turns = k.turns := by
  unfold wakeBlockedProcesses
  split
  · rfl
  · exact turns_wakeBlockedLoop ..

@[simp] theorem turns_requeue (k : Kernel) : k.requeue.turns = k.turns := by
  unfold requeue
  dsimp only
  split
  · rw [turns_mlfqEnqueue, turns_wakeBlockedProcesses, turns_reapZombies]
  · rw [turns_wakeBlockedProcesses, turns_reapZombies]

/-- Picking the next process keeps every level and every count. -/
@[simp] theorem turns_scheduleLocked (k : Kernel) : k.scheduleLocked.turns = k.turns := by
  have hpick : k.requeue.mlfqPickNext.1.turns = k.turns :=
    (turns_pickFrom ..).trans (turns_requeue k)
  unfold scheduleLocked
  dsimp only
  split
  · exact hpick
  · unfold switchTo
    rw [turns_setState]
    exact hpick

/-! ## Descriptors -/

@[simp] theorem turns_pipeCloseEnd (k : Kernel) (x : Nat) (isReadEnd : Bool) :
    (k.pipeCloseEnd x isReadEnd).turns = k.turns := by
  unfold pipeCloseEnd
  dsimp only
  split <;> simp

@[simp] theorem turns_dupEnd (k : Kernel) (d : FileDescriptor) : (k.dupEnd d).turns = k.turns := by
  unfold dupEnd
  split <;> rfl

@[simp] theorem turns_dropEnd (k : Kernel) (d : FileDescriptor) :
    (k.dropEnd d).turns = k.turns := by
  unfold dropEnd
  split
  · exact turns_pipeCloseEnd ..
  · exact turns_pipeCloseEnd ..
  · rfl

@[simp] theorem turns_releaseFd (k : Kernel) (i : Fin maxFds) :
    (releaseFd p k i).turns = k.turns := by
  unfold releaseFd clearFd
  rw [turns_setFd, turns_dropEnd]

theorem turns_foldl {α : Type} (g : Kernel → α → Kernel) (h : ∀ k a, (g k a).turns = k.turns)
    (l : List α) (k : Kernel) : (l.foldl g k).turns = k.turns := by
  induction l generalizing k with
  | nil => rfl
  | cons a l ih => exact (ih (g k a)).trans (h k a)

@[simp] theorem turns_exitCurrent (k : Kernel) (code : Int) :
    (k.exitCurrent code).turns = k.turns := by
  have hfds : ∀ q, (k.processReleaseFds q).turns = k.turns := fun q =>
    turns_foldl _ (fun k i => turns_releaseFd k i) _ k
  have hfb : ∀ (k : Kernel) (n : Nat), (k.fbmapReleaseOwner n).turns = k.turns := by
    intro k n
    unfold fbmapReleaseOwner
    split <;> rfl
  show Kernel.turns (Kernel.modify ((k.processReleaseFds k.current).fbmapReleaseOwner
    ((k.processReleaseFds k.current).procs k.current).pid) k.current
    fun x => { x with exitCode := code, state := .dead }) = k.turns
  rw [turns_modify ⟨rfl, rfl⟩, hfb, hfds]

@[simp] theorem turns_block (k : Kernel) : k.block.turns = k.turns :=
  turns_setState (k := k) .blocked

@[simp] theorem turns_park (k : Kernel) (w : WaitId) : (k.park w).turns = k.turns :=
  (turns_waitQueuePush _ w k.current).trans (turns_setState w.state)

theorem turns_waitReapChild (k : Kernel) (parent : Nat) (pid : Int) :
    (k.waitReapChild parent pid).1.turns = k.turns := by
  have htarget := waitReapChild_eq k parent pid
  cases ht : k.waitTarget parent pid with
  | none =>
    rw [ht] at htarget
    exact congrArg turns htarget.1
  | some found =>
    rw [ht] at htarget
    rw [htarget]
    exact turns_reap k found

@[simp] theorem turns_sysWait (k : Kernel) (pid : Int) : (k.sysWait pid).turns = k.turns := by
  have hreap := turns_waitReapChild k k.current pid
  unfold sysWait
  split
  next heq =>
    rw [heq] at hreap
    rw [turns_block]
    exact hreap
  next heq =>
    rw [heq] at hreap
    exact hreap

theorem turns_pipeReadTurn (k : Kernel) (x : Nat) : (k.pipeReadTurn x).turns = k.turns := by
  unfold pipeReadTurn
  split
  · rw [turns_wakeOne, turns_setPipe]
  · split
    · rfl
    · exact turns_park ..

theorem turns_pipeWriteTurn (k : Kernel) (x : Nat) (b : Byte) :
    (k.pipeWriteTurn x b).turns = k.turns := by
  unfold pipeWriteTurn
  split
  · rfl
  · split
    · rw [turns_wakeOne, turns_setPipe]
    · exact turns_park ..

theorem turns_onPipe {g : Nat → Kernel} (i : Fin maxFds) (h : ∀ x, (g x).turns = k.turns) :
    (k.onPipe i g).turns = k.turns := by
  unfold onPipe
  split
  · exact h _
  · rfl

theorem turns_sysOpen (k : Kernel) (file : Option Nat) (flags : Nat) :
    (k.sysOpen file flags).1.turns = k.turns := by
  unfold sysOpen
  split
  · rfl
  · split
    · rfl
    · exact turns_setFd ..

theorem turns_sysClose (k : Kernel) (rdi : Nat) : (k.sysClose rdi).1.turns = k.turns := by
  unfold sysClose
  split
  · exact turns_releaseFd ..
  · rfl

theorem turns_sysPipe (k : Kernel) (pipe : Option Nat) (copied : Bool) :
    (k.sysPipe pipe copied).1.turns = k.turns := by
  unfold sysPipe
  split
  · rfl
  · split
    · rfl
    · split
      · rfl
      · dsimp only
        split <;> simp [openEnd, dropSlot]

theorem turns_sysDup (k : Kernel) (oldfd : Nat) : (k.sysDup oldfd).1.turns = k.turns := by
  unfold sysDup
  split
  · dsimp only
    split
    · rfl
    · split
      · rfl
      · rw [turns_dupEnd, turns_setFd]
  · rfl

theorem turns_sysDup2 (k : Kernel) (oldfd newfd : Nat) :
    (k.sysDup2 oldfd newfd).1.turns = k.turns := by
  unfold sysDup2
  split
  · split
    · rfl
    · split
      · rfl
      · dsimp only
        rw [turns_dupEnd, turns_setFd, turns_dropEnd]
  · rfl

/-! ## Images and new processes -/

@[simp] theorem turns_load (k : Kernel) (image : LoadAnswer) : (k.load image).turns = k.turns := by
  cases image <;> rfl

theorem turns_execProcess (k : Kernel) (p : Nat) (image : LoadAnswer) :
    (k.execProcess p image).turns = k.turns := by
  cases image with
  | failed => rfl
  | tornDown t => rfl
  | loaded t entry rsp brkStart =>
    unfold execProcess
    rw [turns_modify ⟨rfl, rfl⟩, turns_emit, turns_load]

/-- A process that is launched starts at the top with no tick used. -/
theorem turns_launch_place (k : Kernel) (a : Nat) (x : Process) (g : Kernel → Kernel)
    (hg : ∀ k, (g k).turns = k.turns) : ((g (k.place a x)).launch a).turns = k.turns.set a 0 0 := by
  have hplace : (k.place a x).turns = k.turns.set a x.priority x.ticksExecuted :=
    turns_modify_set (k := { k with nextPid := k.nextPid + 1 })
  unfold launch
  rw [turns_mlfqEnqueue, turns_modify_set, turns_enqueueProcess, hg, hplace, Turns.set_set]

def Turns.joined (t : Turns) : Option Nat → Turns
  | none => t
  | some a => t.set a 0 0

theorem turns_createUserProcess (k : Kernel) (image : LoadAnswer) (proc stack : Option Nat) :
    (k.createUserProcess image proc stack).1.turns =
      Turns.joined k.turns (k.createUserProcess image proc stack).2 := by
  cases image with
  | failed => rfl
  | tornDown t => rfl
  | loaded t entry rsp brkStart =>
    cases proc with
    | none => rfl
    | some a =>
      cases stack with
      | none => rfl
      | some st => exact turns_launch_place _ a _ id fun _ => rfl

theorem turns_cloneSpace (k : Kernel) (parent flags : Nat) (ans : CloneAnswer) :
    (k.cloneSpace parent flags ans).1.turns = k.turns := by
  unfold cloneSpace
  split
  · split
    · rfl
    · split
      · rfl
      next c _ =>
        show Kernel.turns (Kernel.modify (k.emit (.alloc (.counter c))) parent
          fun x => { x with vmRefcount := some c }) = k.turns
        rw [turns_modify ⟨rfl, rfl⟩, turns_emit]
  · split <;> rfl

theorem turns_cloneUndo (k : Kernel) (table : Nat) (counter : Option Nat) :
    (k.cloneUndo table counter).turns = k.turns := by
  cases counter <;> rfl

theorem turns_cloneProcess (k : Kernel) (parent flags childStack : Nat) (ans : CloneAnswer) :
    (k.cloneProcess parent flags childStack ans).1.turns =
      Turns.joined k.turns (k.cloneProcess parent flags childStack ans).2 := by
  have hspace := turns_cloneSpace k parent flags ans
  unfold cloneProcess
  generalize k.cloneSpace parent flags ans = r at hspace ⊢
  obtain ⟨k₁, sp⟩ := r
  have hspace : k₁.turns = k.turns := hspace
  cases sp with
  | none => exact hspace
  | some tc =>
    obtain ⟨table, counter⟩ := tc
    cases ans.child with
    | none => exact (turns_cloneUndo ..).trans hspace
    | some a =>
      cases ans.stack with
      | none => exact (turns_cloneUndo ..).trans hspace
      | some st =>
        have hg : ∀ k : Kernel, ((k.bumpCounter counter).dupEnds a).turns = k.turns := by
          intro k
          have hbump : (k.bumpCounter counter).turns = k.turns := by cases counter <;> rfl
          exact (turns_foldl _ (fun k i => turns_dupEnd k (k.fd a i)) _ _).trans hbump
        rw [turns_launch_place _ a _ (fun k => (k.bumpCounter counter).dupEnds a) hg]
        exact congrArg (fun t => Turns.set t a 0 0) hspace

end Kernel

end Aeryk
