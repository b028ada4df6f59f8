import Aeryk.Lib.Resume
import Aeryk.Proc.Ends
import Aeryk.Proc.Runs

/-!
# System calls in parts

A system call starts with interrupts masked.  But `pipe_close_end`, `pipe_read` and `pipe_write`
end their masked sections with `sti`, and from then on interrupts come: before a popped waiter is
enqueued, before `kfree`, and before the caller of `pipe_close_end` has cleared the slot.  Here such
a call is a program of parts, and a tick between two of them may switch to another process.  A
program as a whole is the event of `Kernel.step` (`program_run`).
-/

namespace Aeryk

open Lib

namespace Kernel

/-- A part that ends the call. -/
def last (f : Kernel → Kernel) : Resume Kernel := .part f fun _ => .done

/-- The loop of `wake_all`: a waiter is popped, and then enqueued. -/
def wakeParts (w : WaitId) : Nat → Resume Kernel
  | 0 => .done
  | fuel + 1 => .part (fun k => (k.waitQueuePop w).1) fun k =>
    match (k.waitQueuePop w).2 with
    | none => .done
    | some proc => .part (·.mlfqEnqueue proc) fun _ => wakeParts w fuel

/-- `pipe_close_end`: the masked section, `wake_all` twice and `kfree`. -/
def closeParts (p : Nat) (isReadEnd : Bool) : Resume Kernel :=
  .part (fun k => k.setPipe p (closeEnd (k.pipes p) isReadEnd)) fun k =>
    ((wakeParts (.pipeWrite p) k.nextPid).andThen (wakeParts (.pipeRead p) k.nextPid)).andThen
      (if shouldFree (closeEnd (k.pipes p) isReadEnd) then last (·.emit (.free (.pipe p)))
        else .done)

/-- A descriptor goes away. -/
def dropParts (fd : FileDescriptor) : Resume Kernel :=
  match fd.type, fd.pipe with
  | .pipeRead, some p => closeParts p true
  | .pipeWrite, some p => closeParts p false
  | _, _ => .done

/-- One turn of the loop of `process_release_fds`, and `SYS_close`. -/
def releaseParts (p : Nat) (i : Fin maxFds) : Resume Kernel :=
  .look id fun k => (dropParts (k.fd p i)).andThen (last (·.clearFd p i))

/-- `SYS_exit`, and a fault. -/
def exitParts (me : Nat) (code : Int) : Resume Kernel :=
  (List.finRange maxFds).foldr (fun i rest => (releaseParts me i).andThen rest) <| last fun k =>
    let k := k.fbmapReleaseOwner (k.procs me).pid
    let k := k.modify me fun x => { x with exitCode := code, state := .dead }
    { k with yielding := true }

/-- `SYS_pipe` when the numbers cannot be copied to the caller. -/
def pipeParts (k : Kernel) (pipe : Option Nat) : Resume Kernel :=
  match k.freeSlot 3 with
  | none => .done
  | some r =>
    match k.freeSlot (r + 1) with
    | none => .done
    | some w =>
      match pipe with
      | none => .done
      | some p =>
        .look
          (fun k =>
            let k := (k.emit (.alloc (.pipe p))).setPipe p (pipeCreate .empty)
            (k.openEnd r .pipeRead p).openEnd w .pipeWrite p)
          fun _ => ((closeParts p true).andThen (closeParts p false)).andThen
            (last fun k => (k.dropSlot r).dropSlot w)

def dup2Parts (k : Kernel) (oldfd newfd : Nat) : Resume Kernel :=
  if ho : oldfd < maxFds then
    if hn : newfd < maxFds then
      if (k.fd k.current ⟨oldfd, ho⟩).type = .none then .done
      else if newfd = oldfd then .done
      else (dropParts (k.fd k.current ⟨newfd, hn⟩)).andThen <| last fun k =>
        let src := k.fd k.current ⟨oldfd, ho⟩
        (k.setFd k.current ⟨newfd, hn⟩ src).dupEnd src
    else .done
  else .done

/-- A turn of `pipe_read` or `pipe_write` that moves a byte: the section, and the waiter it popped.
-/
def turnParts (p : Nat) (f : Pipe WaitQueue → Pipe WaitQueue) (w : WaitId) : Resume Kernel :=
  .look (fun k => k.setPipe p (f (k.pipes p))) fun _ => wakeParts w 1

/-- The parts of a call.  Calls without an `sti` have one. -/
def program (k : Kernel) : Event → Resume Kernel
  | .close rdi =>
    if 3 ≤ rdi then
      if h : rdi < maxFds then releaseParts k.current ⟨rdi, h⟩ else .done
    else .done
  | .dup2 oldfd newfd => k.dup2Parts oldfd newfd
  | .exit code => exitParts k.current code
  | .fault => exitParts k.current (-1)
  | .pipe pipe false => k.pipeParts pipe
  | .pipeRead i =>
    match (k.fd k.current i).pipe with
    | none => .done
    | some p =>
      if 0 < (k.pipes p).count then turnParts p Pipe.takeByte (.pipeWrite p)
      else last (·.step (.pipeRead i))
  | .pipeWrite i b =>
    match (k.fd k.current i).pipe with
    | none => .done
    | some p =>
      if (k.pipes p).readers ≠ 0 ∧ (k.pipes p).count < pipeBufSize then
        turnParts p (·.putByte b) (.pipeRead p)
      else last (·.step (.pipeWrite i b))
  | e => last (·.step e)

/-! ## The parts make up the call -/

section

variable {k : Kernel}

@[simp] theorem run_last (f : Kernel → Kernel) : (last f).run k = f k := rfl

theorem run_wakeParts (w : WaitId) (fuel : Nat) (k : Kernel) :
    (wakeParts w fuel).run k = wakeLoop w fuel k := by
  induction fuel generalizing k with
  | zero => rfl
  | succ fuel ih =>
    rw [wakeParts, wakeLoop, Resume.run]
    generalize k.waitQueuePop w = r
    obtain ⟨k', proc⟩ := r
    cases proc with
    | none => rfl
    | some proc => exact ih _

theorem run_closeParts (p : Nat) (isReadEnd : Bool) :
    (closeParts p isReadEnd).run k = k.pipeCloseEnd p isReadEnd := by
  have hpipe : (k.setPipe p (closeEnd (k.pipes p) isReadEnd)).pipes p =
      closeEnd (k.pipes p) isReadEnd := Function.update_self ..
  have hfuel : ((k.setPipe p (closeEnd (k.pipes p) isReadEnd)).wakeAll (.pipeWrite p)).nextPid =
      k.nextPid := (congrArg (fun x : Kernel => x.nextPid) (wakeLoop_rest ..) :)
  have hwake : ((wakeParts (.pipeWrite p) k.nextPid).andThen
      (wakeParts (.pipeRead p) k.nextPid)).run (k.setPipe p (closeEnd (k.pipes p) isReadEnd)) =
        ((k.setPipe p (closeEnd (k.pipes p) isReadEnd)).wakeAll (.pipeWrite p)).wakeAll
          (.pipeRead p) := by
    rw [Resume.run_andThen, run_wakeParts, run_wakeParts]
    nth_rewrite 1 [← hfuel]
    rfl
  rw [closeParts, Resume.run, Resume.run_andThen, hwake, pipeCloseEnd, hpipe]
  split <;> rfl

theorem run_dropParts (fd : FileDescriptor) : (dropParts fd).run k = k.dropEnd fd := by
  unfold dropParts dropEnd
  generalize fd.type = type
  generalize fd.pipe = p
  cases p with
  | none => cases type <;> rfl
  | some p =>
    cases type with
    | pipeRead | pipeWrite => exact run_closeParts ..
    | none | vfs => rfl

theorem run_releaseParts (p : Nat) (i : Fin maxFds) :
    (releaseParts p i).run k = releaseFd p k i := by
  rw [releaseParts, Resume.run_look, Resume.run_andThen, run_dropParts]
  rfl

theorem run_releaseAll (p : Nat) (is : List (Fin maxFds)) (rest : Resume Kernel) :
    (is.foldr (fun i rest => (releaseParts p i).andThen rest) rest).run k =
      rest.run (is.foldl (releaseFd p) k) := by
  induction is generalizing k with
  | nil => rfl
  | cons i is ih => rw [List.foldr_cons, Resume.run_andThen, run_releaseParts, ih, List.foldl_cons]

theorem run_pipeParts (pipe : Option Nat) :
    (k.pipeParts pipe).run k = (k.sysPipe pipe false).1 := by
  unfold pipeParts sysPipe
  cases k.freeSlot 3 with
  | none => rfl
  | some r =>
    dsimp only
    cases k.freeSlot (r + 1) with
    | none => rfl
    | some w =>
      cases pipe with
      | none => rfl
      | some p =>
        dsimp only
        rw [Resume.run_look, Resume.run_andThen, Resume.run_andThen, run_closeParts,
          run_closeParts]
        rfl

theorem run_dup2Parts (oldfd newfd : Nat) :
    (k.dup2Parts oldfd newfd).run k = (k.sysDup2 oldfd newfd).1 := by
  unfold dup2Parts sysDup2
  by_cases ho : oldfd < maxFds
  · by_cases hn : newfd < maxFds
    · rw [dif_pos ho, dif_pos hn, dif_pos ⟨ho, hn⟩]
      split
      · rfl
      split
      · rfl
      · rw [Resume.run_andThen, run_dropParts]
        rfl
    · rw [dif_pos ho, dif_neg hn, dif_neg fun h => hn h.2]
      rfl
  · rw [dif_neg ho, dif_neg fun h => ho h.1]
    rfl

theorem run_turnParts (p : Nat) (f : Pipe WaitQueue → Pipe WaitQueue) (w : WaitId) :
    (turnParts p f w).run k = (k.setPipe p (f (k.pipes p))).wakeOne w := by
  rw [turnParts, Resume.run_look, run_wakeParts, wakeOne, wakeLoop]
  split <;> rfl

/-- The parts of a call one after the other are the call. -/
theorem program_run (k : Kernel) (e : Event) : (k.program e).run k = k.step e := by
  cases e with
  | close rdi =>
    rw [program, step, sysClose]
    by_cases h₃ : 3 ≤ rdi
    · by_cases h : rdi < maxFds
      · rw [if_pos h₃, dif_pos h, dif_pos ⟨h₃, h⟩]
        exact run_releaseParts ..
      · rw [if_pos h₃, dif_neg h, dif_neg fun h' => h h'.2]
        rfl
    · rw [if_neg h₃, dif_neg fun h' => h₃ h'.1]
      rfl
  | dup2 oldfd newfd => exact run_dup2Parts ..
  | exit code => exact run_releaseAll ..
  | fault => exact run_releaseAll ..
  | pipe pipe copied =>
    cases copied with
    | true => rfl
    | false => exact run_pipeParts ..
  | pipeRead i =>
    rw [program, step, onPipe]
    cases hp : (k.fd k.current i).pipe with
    | none => rfl
    | some p =>
      dsimp only
      split
      next hcount =>
        rw [run_turnParts, pipeReadTurn, if_pos hcount]
      · rw [run_last, step, onPipe, hp]
  | pipeWrite i b =>
    rw [program, step, onPipe]
    cases hp : (k.fd k.current i).pipe with
    | none => rfl
    | some p =>
      dsimp only
      split
      next hroom =>
        rw [run_turnParts, pipeWriteTurn, if_neg hroom.1, if_pos hroom.2]
      · rw [run_last, step, onPipe, hp]
  | tick | schedule | irqKbd | irqMouse | create | clone | exec | wait | sleep | kbdRead
  | mouseRead | openFile | dup => rfl

end

end Kernel

/-! ## Runs that are interrupted -/

open Kernel

def Event.isInterrupt : Event → Bool
  | .tick | .irqKbd | .irqMouse => true
  | _ => false

/-- The kernel with the processes that are inside a call. -/
abbrev Kernels := Shared Kernel Nat

def Kernels.act (m : Kernels) : Act Nat Event → Kernels := Shared.act Kernel.step program m

/-- What can happen: an interrupt, or that the current process begins a call or goes on with it. -/
def Kernels.MayTake (m : Kernels) : Act Nat Event → Prop
  | .interrupt e => e.isInterrupt = true
  | .call p e => p = m.state.current ∧ (m.todo.lookup p).isNone = true ∧ m.state.MayHappen e ∧
    m.state.AnswersOk e
  | .go p => p = m.state.current

instance (m : Kernels) : (a : Act Nat Event) → Decidable (m.MayTake a)
  | .interrupt _ => inferInstanceAs (Decidable (_ = _))
  | .call .. => inferInstanceAs (Decidable (_ ∧ _ ∧ _ ∧ _))
  | .go _ => inferInstanceAs (Decidable (_ = _))

def Kernels.start (b : Boot) : Kernels := ⟨initScheduler b, []⟩

/-- A run in which nothing comes between the parts of a call is a run of whole calls. -/
theorem Kernels.reachable_of_undisturbed {b : Boot} {acts : List (Act Nat Event)}
    (h : Along (fun m a => MayTake m a ∧ m.Undisturbed a) act (start b) acts)
    (hidle : (acts.foldl act (start b)).todo = []) :
    Reachable (acts.foldl act (start b)).state := by
  obtain ⟨k, hk, hreach⟩ := Shared.undisturbed_keeps (I := Reachable)
    (C := fun k e => k.MayHappen e ∧ k.AnswersOk e) program_run
    (fun k e hk he => by
      obtain ⟨b, hk⟩ := hk
      exact ⟨b, hk.tail ⟨e, he.1, he.2, trivial, rfl⟩⟩)
    (fun m e hP => by
      rcases hP with hP | ⟨_, hP⟩
      · cases e <;> first | exact ⟨trivial, trivial⟩ | cases hP
      · exact hP.2.2)
    h ⟨initScheduler b, rfl, b, .refl⟩
  have hend := (Shared.completed_of_nil hidle).symm.trans hk
  rwa [Option.some.inj hend]

end Aeryk
