import Aeryk.Proc.Steps

/-!
# No process is lost

A process that may run is on the ready queue of its priority, and one that waits is where its state
says.  Only `schedule()` can break this, and only if the process it picks is the one that called
it.  That process is `PROCESS_READY` when it is picked, and `schedule_locked` returns without
setting `PROCESS_RUNNING` again.  It goes on to run on no queue, and the next `schedule()` leaves
it behind.

`GivesWay` is the condition that somebody else is picked.  Between blocking and its call of
`schedule()` a process is treated like one that does not run.
-/

namespace Aeryk

open List Lib Kernel

namespace Kernel

/-! ## Where every process is -/

def OnNoQueue (k : Kernel) (p : Nat) : Prop :=
  (∀ i, p ∉ k.readyQueue i) ∧ ∀ w, w.Live k.log → p ∉ k.waiters w

/-- `PROCESS_READY`, and linked once, on the queue of its own priority. -/
def OnReadyQueue (k : Kernel) (p : Nat) : Prop :=
  k.stateOf p = .ready ∧ (k.readyQueue (k.procs p).priority).count p = 1 ∧
    (∀ i, i ≠ (k.procs p).priority → p ∉ k.readyQueue i) ∧ ∀ w, w.Live k.log → p ∉ k.waiters w

/-- `PROCESS_BLOCKED_KBD`, `_PIPE` or `_MOUSE`, and linked once, on one wait queue of that
kind. -/
def OnWaitQueue (k : Kernel) (p : Nat) : Prop :=
  ∃ w : WaitId, w.Live k.log ∧ k.stateOf p = w.state ∧ (k.waiters w).count p = 1 ∧
    (∀ w', w'.Live k.log → w' ≠ w → p ∉ k.waiters w') ∧ ∀ i, p ∉ k.readyQueue i

/-- Every process is where its state says, and the current one runs. -/
structure NoneLost (k : Kernel) : Prop where
  current : k.yielding = false → k.current ≠ k.idle →
    k.stateOf k.current = .running ∧ k.OnNoQueue k.current
  others : ∀ p ∈ k.processes, p ≠ k.idle → k.stateOf p ≠ .dead →
    (p = k.current → k.yielding = true) →
      k.OnReadyQueue p ∨ k.stateOf p = .blocked ∧ k.OnNoQueue p ∨ k.OnWaitQueue p

section

variable {k : Kernel} {V : View} {p : Nat}

theorem Base.onNoQueue (h : Base k V) (hr : ∀ i, p ∉ V.ready i) (hw : ∀ w, p ∉ V.waiting w) :
    k.OnNoQueue p := by
  refine ⟨fun i => ?_, fun w hl => ?_⟩
  · rw [h.readyQueue_eq]
    exact hr i
  · rw [h.waiters_eq hl]
    exact hw w

theorem Base.onReadyQueue {i : Fin numQueues} (h : Base k V) (hp : p ∈ V.ready i) :
    k.OnReadyQueue p := by
  obtain ⟨-, -, hs, rfl⟩ := h.ready_place hp
  have hw : ∀ w : WaitId, k.stateOf p ≠ w.state := fun w e => w.state_ne.1 (e.symm.trans hs)
  refine ⟨hs, ?_, fun j hj hm => ?_, fun w hl => ?_⟩
  · rw [h.readyQueue_eq]
    exact count_eq_one_of_mem (h.links.ready_chain _).nodup hp
  · rw [h.readyQueue_eq] at hm
    exact hj (h.links.ready_unique hm hp)
  · rw [h.waiters_eq hl]
    exact h.not_waiting hw w

theorem Base.onWaitQueue {w : WaitId} (h : Base k V) (hp : p ∈ V.waiting w) : k.OnWaitQueue p := by
  have hl : w.Live k.log := by_contra fun hl => by
    rw [h.links.wait_none w hl] at hp
    cases hp
  have hs := (h.wait_place hp).2.2
  refine ⟨w, hl, hs, ?_, fun w' hl' hne hm => ?_, fun i => ?_⟩
  · rw [h.waiters_eq hl]
    exact count_eq_one_of_mem (h.links.wait_chain w hl).nodup hp
  · rw [h.waiters_eq hl'] at hm
    exact hne (h.links.wait_unique hm hp)
  · rw [h.readyQueue_eq]
    exact h.not_ready (fun e => w.state_ne.1 (hs.symm.trans e)) i

/-- Nobody is lost if and only if every process is where its state says. -/
theorem KernelOk.noneLost_iff (h : KernelOk k V) : NoneLost k ↔ ∀ p, ¬Lost k V p := by
  constructor
  · rintro hn p ⟨hp, hi, hs, hr⟩
    have hmem : p ∈ k.processes := h.base.ringOk.processes_eq ▸ hp
    by_cases hc : p = k.current → k.yielding = true
    · rcases hn.others p hmem hi (by rw [hs]; decide) hc with hq | ⟨hb, -⟩ | ⟨w, -, hw, -⟩
      · have := count_pos_iff.mp (hq.2.1 ▸ Nat.one_pos)
        rw [h.base.readyQueue_eq] at this
        exact hr _ this
      · cases hb.symm.trans hs
      · exact w.state_ne.1 (hw.symm.trans hs)
    · push Not at hc
      obtain ⟨rfl, hy⟩ := hc
      cases (hn.current (Bool.not_eq_true _ ▸ hy) hi).1.symm.trans hs
  · intro hn
    refine ⟨fun hy hi => ?_, fun p hp hi hd hc => ?_⟩
    · obtain ⟨hs, hr⟩ := h.settled.free hy hi
      have hrun := hs.resolve_right fun hs => hn _ ⟨h.settled.current_mem, hi, hs, hr⟩
      exact ⟨hrun, h.base.onNoQueue hr fun w hm => h.current_free hy (.inr ⟨w, hm⟩)⟩
    · rw [h.base.ringOk.processes_eq] at hp
      have hparked : ∀ {w : WaitId}, k.stateOf p = w.state → k.OnWaitQueue p := fun e => by
        obtain ⟨w', -, hm⟩ := h.settled.parked p hp e
        exact h.base.onWaitQueue hm
      cases hs : k.stateOf p with
      | ready =>
        by_contra hno
        exact hn p ⟨hp, hi, hs, fun i hm => hno (.inl (h.base.onReadyQueue hm))⟩
      | running =>
        obtain rfl := (h.settled.running p hp hs).resolve_right hi
        exact absurd hs (h.settled.halted (hc rfl))
      | blocked =>
        refine .inr (.inl ⟨rfl, h.base.onNoQueue (h.base.not_ready ?_)
          (h.base.not_waiting fun w e => ?_)⟩)
        · rw [hs]
          decide
        · exact w.state_ne.2.2.1 (e.symm.trans hs)
      | blockedKbd => exact .inr (.inr (hparked (w := .kbd) hs))
      | blockedMouse => exact .inr (.inr (hparked (w := .mouse) hs))
      | blockedPipe => exact .inr (.inr (hparked (w := .pipeRead 0) hs))
      | dead => exact absurd hs hd

end

/-! ## When `schedule()` picks its caller -/

/-- `schedule()` may hand the CPU to the process. -/
def Runnable (k : Kernel) (p : Nat) : Prop := k.stateOf p = .ready ∨ k.stateOf p = .blocked

/-- Somebody else comes before the process that calls `schedule()`.  A caller that runs is put
behind the others of its priority. -/
def GivesWay (k : Kernel) : Prop :=
  k.current ≠ k.idle →
    (k.stateOf k.current = .running → ∃ p ∈ k.processes, p ≠ k.current ∧ k.Runnable p ∧
      (k.procs p).priority ≤ (k.procs k.current).priority) ∧
    (k.stateOf k.current = .ready →
      (∃ p ∈ k.processes, p ≠ k.current ∧ k.Runnable p ∧
        (k.procs p).priority < (k.procs k.current).priority) ∨
      (k.mlfq (k.procs k.current).priority).head ≠ some k.current)

/-- If the event calls `schedule()`, then where somebody else comes before the caller. -/
def GivesWayAt (k : Kernel) : Event → Prop
  | .schedule => k.GivesWay
  | .tick => k.tickUpdate.2 = true → k.tickUpdate.1.GivesWay
  | _ => True

instance (k : Kernel) (p : Nat) : Decidable (k.Runnable p) := inferInstanceAs (Decidable (_ ∨ _))

instance (k : Kernel) : Decidable k.GivesWay := inferInstanceAs (Decidable (_ → _))

instance (k : Kernel) : (e : Event) → Decidable (k.GivesWayAt e)
  | .schedule => inferInstanceAs (Decidable k.GivesWay)
  | .tick => inferInstanceAs (Decidable (_ → _))
  | .irqKbd | .irqMouse | .create .. | .clone .. | .exec _ | .exit _ | .fault | .wait _ | .sleep
  | .kbdRead | .mouseRead | .pipeRead _ | .pipeWrite .. | .openFile .. | .close _ | .pipe ..
  | .dup _ | .dup2 .. => isTrue trivial

theorem givesWayAt_iff {k : Kernel} {e : Event} :
    k.GivesWayAt e ↔ ∀ k₀, Enters k e k₀ → k₀.GivesWay := by
  cases e with
  | schedule => exact ⟨fun h _ hk => hk ▸ h, fun h => h k rfl⟩
  | tick =>
    refine ⟨fun h k₀ hk => ?_, fun h hc => h _ (Prod.ext rfl hc)⟩
    have hk : k.tickUpdate = (k₀, true) := hk
    have h : k.tickUpdate.2 = true → k.tickUpdate.1.GivesWay := h
    rw [hk] at h
    exact h rfl
  | _ => exact ⟨fun _ _ hk => hk.elim, fun _ => trivial⟩

section

variable {k k₀ : Kernel} {V V' : View} {p : Nat} {e : Event}

theorem KernelOk.candidate_iff (h : KernelOk k V) (hn : ∀ p, ¬Lost k V p) (hc : p ≠ k.current) :
    Candidate k V p ↔ p ∈ k.processes ∧ k.Runnable p := by
  rw [h.base.ringOk.processes_eq]
  constructor
  · rintro (⟨i, hm⟩ | ⟨hp, ⟨-, hb⟩ | ⟨he, -⟩⟩)
    · obtain ⟨hp, -, hs, -⟩ := h.base.ready_place hm
      exact ⟨hp, .inl hs⟩
    · exact ⟨hp, .inr hb⟩
    · exact absurd he hc
  · rintro ⟨hp, hs | hb⟩
    · by_contra hno
      refine hn p ⟨hp, ?_, hs, fun i hm => hno (.inl ⟨i, hm⟩)⟩
      rintro rfl
      cases hs.symm.trans h.base.idle_running
    · exact .inr ⟨hp, .inl ⟨hc, hb⟩⟩

theorem KernelOk.head_eq (h : KernelOk k V) (i : Fin numQueues) :
    (k.mlfq i).head = (V.ready i).head? := (h.base.links.ready_chain i).head_eq

/-- If somebody else comes first, the caller is not picked. -/
theorem Scheduled.current_ne {k' : Kernel} (hs : Scheduled k V k' V') (h : KernelOk k V)
    (hn : ∀ p, ¬Lost k V p) (hi : k.current ≠ k.idle) (hg : k.GivesWay) :
    k'.current ≠ k.current := by
  intro hc
  obtain ⟨hrun, hready⟩ := hg hi
  obtain ⟨hcand, hleast⟩ := hs.least (hc ▸ hi)
  rw [hc] at hcand hleast
  rcases hcand with ⟨i, hm⟩ | ⟨-, ⟨hne, -⟩ | ⟨-, hst, -⟩⟩
  · obtain ⟨-, -, hst, rfl⟩ := h.base.ready_place hm
    rcases hready hst with ⟨p, hp, hne, hr, hlt⟩ | hhead
    · exact absurd (hleast p ((h.candidate_iff hn hne).mpr ⟨hp, hr⟩)) (not_le.mpr hlt)
    · obtain ⟨q, l, hl⟩ := exists_cons_of_ne_nil (ne_nil_of_mem hm)
      have hq := hs.head (hc ▸ hi) (hc ▸ hl)
      rw [h.head_eq, hl, ← hq, hc] at hhead
      exact hhead rfl
  · exact hne rfl
  · obtain ⟨p, hp, hne, hr, hle⟩ := hrun hst
    exact absurd (hs.last hc hi hst p ((h.candidate_iff hn hne).mpr ⟨hp, hr⟩) hne)
      (not_lt.mpr hle)

/-- If nobody else comes first, the caller is picked and lost. -/
theorem Scheduled.lost_current {k' : Kernel} (hs : Scheduled k V k' V') (h : KernelOk k V)
    (hn : ∀ p, ¬Lost k V p) (hg : ¬k.GivesWay) : Lost k' V' k.current := by
  unfold GivesWay at hg
  push Not at hg
  obtain ⟨hi, hg⟩ := hg
  -- the caller is a candidate, and whoever is picked in its place would come before it
  have hcand : Candidate k V k.current ∧ (k.stateOf k.current = .ready ∨
      k.current ∈ Rises k V) ∧ (k'.current ≠ k.idle → k'.current ≠ k.current → False) := by
    by_cases hrun : k.stateOf k.current = .running → ∃ p ∈ k.processes, p ≠ k.current ∧
        k.Runnable p ∧ (k.procs p).priority ≤ (k.procs k.current).priority
    · obtain ⟨hst, hprio, hhead⟩ := hg hrun
      rw [h.head_eq] at hhead
      obtain ⟨l, hl⟩ : ∃ l, V.ready (k.procs k.current).priority = k.current :: l := by
        obtain ⟨l, hl⟩ := head?_eq_some_iff.mp hhead
        exact ⟨l, hl⟩
      have hcand : Candidate k V k.current := .inl ⟨_, hl ▸ mem_cons_self⟩
      refine ⟨hcand, .inl hst, fun hi' hne => ?_⟩
      obtain ⟨hc', hle⟩ := hs.least hi'
      obtain ⟨hm, hr⟩ := (h.candidate_iff hn hne).mp hc'
      have heq := le_antisymm (hle _ hcand) (hprio _ hm hne hr)
      exact hne (hs.head hi' (heq ▸ hl))
    · push Not at hrun
      obtain ⟨hst, hprio⟩ := hrun
      have hrise : k.current ∈ Rises k V := ⟨h.settled.current_mem, .inr ⟨rfl, hst, hi⟩⟩
      refine ⟨.inr hrise, .inr hrise, fun hi' hne => ?_⟩
      obtain ⟨hc', hle⟩ := hs.least hi'
      obtain ⟨hm, hr⟩ := (h.candidate_iff hn hne).mp hc'
      exact absurd (hle _ (.inr hrise)) (not_le.mpr (hprio _ hm hne hr))
  obtain ⟨hcand, hst, hpick⟩ := hcand
  have hc : k'.current = k.current := by
    by_contra hne
    by_cases hi' : k'.current = k.idle
    · exact hs.idle hi' _ hcand
    · exact hpick hi' hne
  refine ⟨hs.ring ▸ h.settled.current_mem, rest_idle hs.rest ▸ hi, ?_, fun i hm => ?_⟩
  · rw [hs.state, if_neg fun hne => hne.2 rfl]
    split
    next => rfl
    next hno => exact hst.resolve_right hno
  · exact ((hs.ready i _).mp hm).1 hc.symm

/-- A step keeps everybody in their place if and only if its `schedule()`, if any, does not pick
the caller. -/
theorem KernelOk.noneLost_step (h : KernelOk k V) (hn : NoneLost k) (hm : k.MayHappen e)
    (ha : k.AnswersOk e) : NoneLost (k.step e) ↔ k.GivesWayAt e := by
  rw [h.noneLost_iff] at hn
  rw [givesWayAt_iff]
  constructor
  · intro hn' k₀ he
    by_contra hg
    obtain ⟨V₀, y, ht, h₀, hstep, hy⟩ := h.enters he
    obtain ⟨V', hs⟩ := h₀.base.scheduleLocked h₀.settled.current_mem h₀.toLayer.keep
    rw [hstep, (h₀.scheduled hs hy).noneLost_iff] at hn'
    exact hn' _ (hs.lost_current h₀ (fun p hl => hn p (ht.lost hl)) hg)
  · intro hg
    obtain ⟨V', hst⟩ := h.step hm ha
    rw [hst.ok.noneLost_iff]
    intro p hl
    rcases hst.lost p hl with hl | ⟨k₀, he, rfl, hc⟩
    · exact hn p hl
    · obtain ⟨V₀, y, ht, h₀, hstep, -⟩ := h.enters he
      obtain ⟨V₁, hs⟩ := h₀.base.scheduleLocked h₀.settled.current_mem h₀.toLayer.keep
      have hi : k₀.current ≠ k₀.idle := by
        have := hl.2.1
        rw [hstep] at this
        rw [ht.current, ← rest_idle hs.rest]
        exact this
      exact hs.current_ne h₀ (fun p hl => hn p (ht.lost hl)) hi (hg k₀ he) hc

theorem initScheduler_noneLost (b : Boot) : NoneLost (initScheduler b) := by
  rw [(initScheduler_ok b).noneLost_iff]
  rintro p ⟨hp, hi, -⟩
  exact hi (mem_singleton.mp hp)

theorem ReachableBy.noneLost (h : ReachableBy GivesWayAt k) : NoneLost k := by
  have : (∃ V, KernelOk k V) ∧ NoneLost k := by
    refine h.invariant (I := fun k => (∃ V, KernelOk k V) ∧ NoneLost k)
      (fun b => ⟨⟨_, initScheduler_ok b⟩, initScheduler_noneLost b⟩) fun k e hI hm ha hg => ?_
    obtain ⟨⟨V, hok⟩, hn⟩ := hI
    obtain ⟨V', hs⟩ := hok.step hm ha
    exact ⟨⟨V', hs.ok⟩, (hok.noneLost_step hn hm ha).mpr hg⟩
  exact this.2

end

end Kernel

/-- In every run in which `schedule()` is only called where somebody else comes before the
caller, every process is where its state says.  The first call where nobody does loses the
caller. -/
theorem no_process_lost {k : Kernel} (h : ReachableBy GivesWayAt k) :
    NoneLost k ∧ ∀ e, k.MayHappen e → k.AnswersOk e → (NoneLost (k.step e) ↔ k.GivesWayAt e) := by
  obtain ⟨V, hok⟩ := h.reachable.kernelOk
  exact ⟨h.noneLost, fun e hm ha => hok.noneLost_step h.noneLost hm ha⟩

/-- Two processes take turns, and one of them goes to sleep. -/
def takingTurns : List Event :=
  [.create (.loaded 1 0 0 0) (some 1) (some 1), .schedule,
    .clone 0 0 ⟨none, some 2, some 2, some 2⟩, .tick, .tick, .sleep, .schedule]

theorem no_process_lost_takingTurns :
    (takingTurns.foldl step (initScheduler .blank)).processes = [0, 1, 2] ∧
      NoneLost (takingTurns.foldl step (initScheduler .blank)) :=
  ⟨by decide +kernel,
    (no_process_lost (ReachableBy.run ⟨.blank, .refl⟩ (by decide +kernel))).1⟩

/-- The only process uses up its quantum, and then nothing happens until the next boost. -/
def quantumAlone : List Event :=
  [.create (.loaded 1 0 0 0) (some 1) (some 1), .schedule] ++ replicate 100 .tick

/-- The process is ready, the idle process runs, and nobody will ever pick it. -/
theorem quantumAlone_lost :
    Reachable (quantumAlone.foldl step (initScheduler .blank)) ∧
      (quantumAlone.foldl step (initScheduler .blank)).processes = [0, 1] ∧
      (quantumAlone.foldl step (initScheduler .blank)).current = 0 ∧
      (quantumAlone.foldl step (initScheduler .blank)).stateOf 1 = .ready ∧
      (∀ i, (quantumAlone.foldl step (initScheduler .blank)).readyQueue i = []) ∧
      ¬NoneLost (quantumAlone.foldl step (initScheduler .blank)) := by
  have hr : Reachable (quantumAlone.foldl step (initScheduler .blank)) :=
    ReachableBy.run ⟨.blank, .refl⟩ (by decide +kernel)
  have hproc : (quantumAlone.foldl step (initScheduler .blank)).processes = [0, 1] := by
    decide +kernel
  have hstate : (quantumAlone.foldl step (initScheduler .blank)).stateOf 1 = .ready := by
    decide +kernel
  have hready : ∀ i, (quantumAlone.foldl step (initScheduler .blank)).readyQueue i = [] := by
    decide +kernel
  refine ⟨hr, hproc, by decide +kernel, hstate, hready, fun hn => ?_⟩
  obtain ⟨V, hok⟩ := hr.kernelOk
  refine hok.noneLost_iff.mp hn 1 ⟨?_, by decide +kernel, hstate, fun i => ?_⟩
  · rw [← hok.base.ringOk.processes_eq, hproc]
    decide
  · rw [← hok.base.readyQueue_eq, hready]
    exact not_mem_nil

end Aeryk
