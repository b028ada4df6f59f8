import Aeryk.Proc.Parts
import Aeryk.Proc.Steps

/-!
# Pipe ends in every run

The invariant read off for pipes, in terms of `process_queue` and the descriptor tables.  The
counters of a pipe are the numbers of slots that point to it.  So it is freed by the call that
takes the last slot away, and then nobody can be parked on it, since who waits for a pipe holds one
of its ends.

All this is so between whole calls.  `pipe_close_end` counts its end down and unmasks interrupts
before its caller clears the slot.  Another process that closes the last other end in between frees
the pipe, and the slot still points to it (`slot_points_to_freed_pipe`).
-/

namespace Aeryk

open Lib Kernel

namespace Kernel

/-- The slots of all processes in `process_queue`. -/
def allSlots (k : Kernel) : Finset Slot := k.processes.toFinset ×ˢ Finset.univ

/-- The number of slots of a type that point to a pipe. -/
def endSlots (k : Kernel) (type : FdType) (x : Nat) : Nat :=
  (k.allSlots.filter fun s => (k.slot s).type = type ∧ (k.slot s).pipe = some x).card

/-- The pipes and the descriptor tables agree. -/
structure PipesOk (k : Kernel) : Prop where
  counts : ∀ x, alive k.log (.pipe x) = true →
    (k.pipes x).readers = k.endSlots .pipeRead x ∧ (k.pipes x).writers = k.endSlots .pipeWrite x
  points : ∀ p ∈ k.processes, ∀ i,
    (k.fd p i).type = .pipeRead ∨ (k.fd p i).type = .pipeWrite →
      ∃ x, (k.fd p i).pipe = some x ∧ alive k.log (.pipe x) = true
  held : ∀ x, alive k.log (.pipe x) = true → 0 < k.endSlots .pipeRead x + k.endSlots .pipeWrite x
  frees : ∀ x, FreesOk (.pipe x) k.log

section

variable {k : Kernel} {V : View} {e : Event}

theorem KernelOk.allSlots_eq (h : KernelOk k V) : k.allSlots = V.slots := by
  unfold allSlots View.slots
  rw [h.base.ringOk.processes_eq]

theorem ref_read_iff {d : FileDescriptor} {x : Nat} :
    d.ref = some (x, true) ↔ d.type = .pipeRead ∧ d.pipe = some x := by
  unfold FileDescriptor.ref
  split <;> simp_all

theorem ref_write_iff {d : FileDescriptor} {x : Nat} :
    d.ref = some (x, false) ↔ d.type = .pipeWrite ∧ d.pipe = some x := by
  unfold FileDescriptor.ref
  split <;> simp_all

theorem KernelOk.endSlots_eq (h : KernelOk k V) (x : Nat) :
    k.endSlots .pipeRead x = refs k.slotRef V.slots (x, true) ∧
      k.endSlots .pipeWrite x = refs k.slotRef V.slots (x, false) := by
  unfold endSlots refs slotRef
  rw [h.allSlots_eq]
  simp only [ref_read_iff, ref_write_iff, and_self]

theorem KernelOk.pipesOk (h : KernelOk k V) : PipesOk k where
  counts x hx := by
    rw [(h.endSlots_eq x).1, (h.endSlots_eq x).2]
    exact ⟨h.ends.counts hx true, h.ends.counts hx false⟩
  points p hp i ht := by
    rw [h.base.ringOk.processes_eq] at hp
    have hs : ((p, i) : Slot) ∈ V.slots := View.mem_slots.mpr hp
    obtain ⟨x, hx⟩ := Option.ne_none_iff_exists'.mp ((h.ends.ok _ hs).points ht)
    refine ⟨x, hx, ?_⟩
    rcases ht with ht | ht
    · exact h.ends.live _ hs (ref_read_iff.mpr ⟨ht, hx⟩)
    · exact h.ends.live _ hs (ref_write_iff.mpr ⟨ht, hx⟩)
  held x hx := by
    obtain ⟨r, hr⟩ := h.ends.held hx
    rw [h.ends.counts hx] at hr
    rw [(h.endSlots_eq x).1, (h.endSlots_eq x).2]
    cases r <;> omega
  frees := h.ends.frees

/-- A pipe is alive if and only if a slot holds one of its ends. -/
theorem KernelOk.alive_iff (h : KernelOk k V) (x : Nat) :
    alive k.log (.pipe x) = true ↔ ∃ s ∈ V.slots, ∃ r, k.slotRef s = some (x, r) := by
  constructor
  · intro hx
    obtain ⟨r, hr⟩ := h.ends.held hx
    rw [h.ends.counts hx] at hr
    obtain ⟨s, hs, he⟩ := refs_pos.mp hr
    exact ⟨s, hs, r, he⟩
  · rintro ⟨s, hs, r, he⟩
    exact h.ends.live s hs he

/-- Nobody waits for a pipe that a step frees: a waiter would still hold its end. -/
theorem StepOk.no_waiter {V' : View} {x : Nat} (h : KernelOk k V) (hs : StepOk k V e V')
    (hfree : alive (k.step e).log (.pipe x) = false) (r : Bool) :
    V.waiting (.ofEnd x r) = [] := by
  refine List.eq_nil_iff_forall_not_mem.mpr fun p hp => ?_
  obtain ⟨i, hi⟩ := h.waiters hp
  obtain ⟨hring, -, hstate⟩ := h.base.wait_place hp
  have hne : k.yielding = false → p ≠ k.current := fun hy e' =>
    h.current_free hy (.inr ⟨_, e' ▸ hp⟩)
  have hnd : k.stateOf p ≠ .dead := by rw [hstate]; exact (WaitId.state_ne _).2.2.2
  obtain ⟨hring', hfd⟩ := hs.others p hring hne hnd
  have hlive : alive (k.step e).log (.pipe x) = true := by
    refine (hs.ok.alive_iff x).mpr ⟨(p, i), View.mem_slots.mpr hring', r, ?_⟩
    unfold slotRef slot at hi ⊢
    rwa [hfd i]
  rw [hfree] at hlive
  cases hlive

/-- A pipe that was alive is freed by a step if and only if its last slot is gone. -/
theorem StepOk.freed_iff {V' : View} (hs : StepOk k V e V') (x : Nat) :
    alive (k.step e).log (.pipe x) = false ↔
      (k.step e).endSlots .pipeRead x = 0 ∧ (k.step e).endSlots .pipeWrite x = 0 := by
  rw [← Bool.not_eq_true, hs.ok.alive_iff, (hs.ok.endSlots_eq x).1, (hs.ok.endSlots_eq x).2,
    refs_eq_zero, refs_eq_zero]
  push Not
  constructor
  · exact fun h => ⟨fun s hm => h s hm true, fun s hm => h s hm false⟩
  · intro h s hm r
    cases r
    · exact h.2 s hm
    · exact h.1 s hm

/-- `SYS_pipe` that fails leaves the descriptors and the live pipes as they were. -/
theorem KernelOk.failed_pipe {p : Option Nat} {c : Bool} (h : KernelOk k V)
    (hy : k.yielding = false) (hx : k.Fresh .pipe p) (hc : (k.sysPipe p c).2 ≠ 0) :
    (∀ q ∈ k.processes, ∀ i, (k.sysPipe p c).1.fd q i = k.fd q i) ∧
      ∀ x, alive (k.sysPipe p c).1.log (.pipe x) = alive k.log (.pipe x) := by
  obtain ⟨V', hserved, hsame⟩ := h.sysPipe hy hx c
  have hslot := hsame hc
  obtain ⟨S, hS⟩ := hserved.moved
  have hslots : V'.slots = V.slots := by unfold View.slots; rw [hS.ring]
  refine ⟨fun q hq i => ?_, fun x => ?_⟩
  · rw [h.base.ringOk.processes_eq] at hq
    exact hslot (q, i) (View.mem_slots.mpr hq)
  · rw [Bool.eq_iff_iff, hserved.ok.alive_iff, h.alive_iff, hslots]
    refine exists_congr fun s => and_congr_right fun hm => ?_
    unfold slotRef
    rw [hslot s hm]

end

end Kernel

/-- Between whole calls the counters of a live pipe are the numbers of slots that point to it, and
every slot for a pipe points to a live one.  A call frees a pipe if and only if no slot for it is
left, and then nobody is parked on it.  A `SYS_pipe` that fails leaves the descriptor tables and
the live pipes as they were. -/
theorem Kernel.Reachable.accounting {k : Kernel} (h : Reachable k) :
    PipesOk k ∧ ∀ e, k.MayHappen e → k.AnswersOk e →
      (∀ x, alive k.log (.pipe x) = true →
        (alive (k.step e).log (.pipe x) = false ↔
          (k.step e).endSlots .pipeRead x = 0 ∧ (k.step e).endSlots .pipeWrite x = 0) ∧
        (alive (k.step e).log (.pipe x) = false →
          k.waiters (.pipeRead x) = [] ∧ k.waiters (.pipeWrite x) = [])) ∧
      ∀ p c, e = .pipe p c → (k.sysPipe p c).2 ≠ 0 →
        (∀ q ∈ k.processes, ∀ i, (k.step e).fd q i = k.fd q i) ∧
        ∀ x, alive (k.step e).log (.pipe x) = alive k.log (.pipe x) := by
  obtain ⟨V, hok⟩ := h.kernelOk
  refine ⟨hok.pipesOk, fun e hm ha => ⟨fun x hx => ?_, ?_⟩⟩
  · obtain ⟨V', hs⟩ := hok.step hm ha
    refine ⟨hs.freed_iff x, fun hfree => ?_⟩
    rw [hok.base.waiters_eq (w := .pipeRead x) hx, hok.base.waiters_eq (w := .pipeWrite x) hx]
    exact ⟨hs.no_waiter hok hfree true, hs.no_waiter hok hfree false⟩
  · rintro p c rfl hc
    exact hok.failed_pipe hm.1 ha hc

/-- In a run in which nothing comes between the parts of a call, whenever no call is under way: the
counters of a live pipe are the numbers of slots that point to it, every slot for a pipe points to a
live one, and no pipe is freed twice.  The parts of a call, one after the other, free a pipe if and
only if no slot for it is left, and then nobody is parked on it.  A `SYS_pipe` that fails leaves the
descriptor tables and the live pipes as they were. -/
theorem pipe_end_accounting {b : Boot} {acts : List (Act Nat Event)}
    (h : Along (fun m a => Kernels.MayTake m a ∧ m.Undisturbed a) Kernels.act (.start b) acts)
    (hidle : (acts.foldl Kernels.act (.start b)).todo = []) :
    let k := (acts.foldl Kernels.act (.start b)).state
    PipesOk k ∧ ∀ e, k.MayHappen e → k.AnswersOk e →
      let k' := (k.program e).run k
      (∀ x, alive k.log (.pipe x) = true →
        (alive k'.log (.pipe x) = false ↔
          k'.endSlots .pipeRead x = 0 ∧ k'.endSlots .pipeWrite x = 0) ∧
        (alive k'.log (.pipe x) = false →
          k.waiters (.pipeRead x) = [] ∧ k.waiters (.pipeWrite x) = [])) ∧
      ∀ p c, e = .pipe p c → (k.sysPipe p c).2 ≠ 0 →
        (∀ q ∈ k.processes, ∀ i, k'.fd q i = k.fd q i) ∧
        ∀ x, alive k'.log (.pipe x) = alive k.log (.pipe x) := by
  dsimp only
  simp only [program_run]
  exact (Kernels.reachable_of_undisturbed h hidle).accounting

/-- Process 1 opens a pipe, forks, and closes its write end. -/
def forkedPipe : List (Act Nat Event) :=
  [.call 0 (.create (.loaded 1 0 0 0) (some 1) (some 1)), .call 0 .schedule,
    .call 1 (.pipe (some 9) true), .call 1 (.clone 0 0 ⟨none, some 2, some 2, some 2⟩),
    .call 1 (.close 4), .go 1, .go 1, .go 1]

theorem pipe_end_accounting_forkedPipe :
    let k := (forkedPipe.foldl Kernels.act (.start .blank)).state
    alive k.log (.pipe 9) = true ∧ k.endSlots .pipeRead 9 = 2 ∧ k.endSlots .pipeWrite 9 = 1 ∧
      PipesOk k :=
  ⟨by decide +kernel, by decide +kernel, by decide +kernel,
    (@pipe_end_accounting .blank forkedPipe (by decide +kernel)
      (List.isEmpty_iff.mp (by decide +kernel))).1⟩

/-- Its child closes its read end, and is interrupted while it closes its write end.  The parent
closes its read end meanwhile. -/
def interruptedClose : List (Act Nat Event) :=
  forkedPipe ++ [.interrupt .tick, .interrupt .tick, .call 2 (.close 3), .go 2, .go 2, .go 2,
    .call 2 (.close 4), .interrupt .tick, .interrupt .tick, .call 1 (.close 3), .go 1, .go 1, .go 1,
    .go 1]

/-- The child's slot 4 still points to the pipe, which has been freed. -/
theorem slot_points_to_freed_pipe :
    Along Kernels.MayTake Kernels.act (.start .blank) interruptedClose ∧
      let k := (interruptedClose.foldl Kernels.act (.start .blank)).state
      2 ∈ k.processes ∧ (k.fd 2 4).type = .pipeWrite ∧ (k.fd 2 4).pipe = some 9 ∧
        alive k.log (.pipe 9) = false ∧ ¬PipesOk k := by
  refine ⟨by decide +kernel, by decide +kernel, by decide +kernel, by decide +kernel,
    by decide +kernel, fun h => ?_⟩
  obtain ⟨x, hx, hlive⟩ := h.points 2 (by decide +kernel) 4 (.inr (by decide +kernel))
  obtain rfl : 9 = x := Option.some.inj (Eq.trans (by decide +kernel) hx)
  revert hlive
  decide +kernel

end Aeryk
