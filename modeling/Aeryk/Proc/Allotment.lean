import Aeryk.Proc.Turns

/-!
# The allotment of a level

A process may be current for `2 * (p + 1)` ticks at level `p` between two boosts, and then goes
down one level.  `mlfq_on_tick` counts for this in `ticks_executed`, but only while the current
process is `PROCESS_RUNNING`.

There are two ways to be current in another state.  When `schedule` picks the process that called
it, which has just been queued as `PROCESS_READY`, it returns without setting the state back.  And
a process that blocks sets its state before it calls `schedule`, with interrupts on.  `Tally` keeps
the true number of ticks beside the kernel.
-/

namespace Aeryk

open Function Lib Kernel

namespace Kernel

variable {k : Kernel}

/-! ## What a tick does -/

def BoostDue (k : Kernel) : Prop := priorityBoostInterval ≤ k.globalTicks + 1

instance (k : Kernel) : Decidable k.BoostDue := inferInstanceAs (Decidable (_ ≤ _))

/-- Some processes are put back to the top, with no tick used. -/
structure Turns.Boosted (t t' : Turns) : Prop where
  quantum : t'.quantum = t.quantum
  each : ∀ p, (t'.level p = t.level p ∧ t'.used p = t.used p) ∨ (t'.level p = 0 ∧ t'.used p = 0)

theorem Turns.Boosted.refl (t : Turns) : Boosted t t := ⟨rfl, fun _ => .inl ⟨rfl, rfl⟩⟩

theorem Turns.Boosted.trans {t t' t'' : Turns} (h : Boosted t t') (h' : Boosted t' t'') :
    Boosted t t'' where
  quantum := h'.quantum.trans h.quantum
  each p := by
    rcases h'.each p with ⟨hl, hu⟩ | hz
    · rw [hl, hu]
      exact h.each p
    · exact .inr hz

theorem Turns.Boosted.set (t : Turns) (p : Nat) : Boosted t (t.set p 0 0) where
  quantum := rfl
  each q := by
    by_cases hq : q = p
    · subst hq
      exact .inr (by simp [Turns.set])
    · exact .inl (by simp [Turns.set, hq])

theorem boosted_boostLoop (i : Fin numQueues) (fuel : Nat) (k : Kernel) :
    Turns.Boosted k.turns (boostLoop i fuel k).turns := by
  induction fuel generalizing k with
  | zero => exact .refl _
  | succ fuel ih =>
    unfold boostLoop
    split
    · exact .refl _
    · dsimp only
      refine Turns.Boosted.trans ?_ (ih _)
      rw [turns_mlfqEnqueue, turns_modify_set, turns_setQueue (by rfl)]
      exact .set _ _

theorem boosted_boostQueue (k : Kernel) (i : Fin numQueues) :
    Turns.Boosted k.turns (k.boostQueue i).turns := by
  unfold boostQueue
  rw [turns_setQueue (by rfl)]
  exact boosted_boostLoop ..

theorem boosted_mlfqBoostAll (k : Kernel) : Turns.Boosted k.turns k.mlfqBoostAll.turns :=
  ((boosted_boostQueue k 1).trans (boosted_boostQueue _ 2)).trans (boosted_boostQueue _ 3)

theorem turns_mlfqOnTick (k : Kernel) : k.mlfqOnTick.turns = k.tickUpdate.1.turns := by
  unfold mlfqOnTick
  dsimp only
  split
  · exact turns_scheduleLocked k.tickUpdate.1
  · rfl

theorem boosted_tick (h : k.BoostDue) : Turns.Boosted k.turns k.mlfqOnTick.turns := by
  have hall := boosted_mlfqBoostAll { k with globalTicks := 0 }
  have hdue : priorityBoostInterval ≤ k.globalTicks + 1 := h
  rw [turns_mlfqOnTick]
  unfold tickUpdate
  dsimp only
  rw [if_pos hdue]
  split
  · rw [turns_modify_set]
    exact hall.trans (.set _ _)
  · exact hall

/-- The clock has moved and the current process has used one more tick. -/
def counted (k : Kernel) : Kernel :=
  { k with globalTicks := k.globalTicks + 1 }.modify k.current fun x =>
    { x with ticksExecuted := x.ticksExecuted + 1 }

theorem tickUpdate_running (hb : ¬k.BoostDue) (hr : k.stateOf k.current = .running) :
    k.tickUpdate =
      if (k.counted.mlfq (k.counted.procs k.current).priority).quantum ≤
          (k.counted.procs k.current).ticksExecuted then
        (k.counted.modify k.current fun x =>
          { x with priority := demote x.priority, ticksExecuted := 0 }, true)
      else (k.counted, false) := by
  have hdue : ¬priorityBoostInterval ≤ k.globalTicks + 1 := hb
  unfold tickUpdate
  rw [if_neg hdue]
  split
  next hn => exact absurd hr hn
  · rfl

/-- A tick that is no boost, for a running current process: one more is used up, and at the quantum
the process goes down. -/
theorem turns_tick (hb : ¬k.BoostDue) (hr : k.stateOf k.current = .running) :
    k.mlfqOnTick.turns =
      if k.turns.quantum (k.turns.level k.current) ≤ k.turns.used k.current + 1 then
        k.turns.set k.current (demote (k.turns.level k.current)) 0
      else k.turns.set k.current (k.turns.level k.current) (k.turns.used k.current + 1) := by
  have hproc : k.counted.procs k.current =
      { k.procs k.current with ticksExecuted := (k.procs k.current).ticksExecuted + 1 } :=
    update_self ..
  have hturns : k.counted.turns =
      k.turns.set k.current (k.turns.level k.current) (k.turns.used k.current + 1) :=
    turns_modify_set (k := { k with globalTicks := k.globalTicks + 1 })
  have hiff : (k.counted.mlfq (k.counted.procs k.current).priority).quantum ≤
        (k.counted.procs k.current).ticksExecuted ↔
      k.turns.quantum (k.turns.level k.current) ≤ k.turns.used k.current + 1 := by
    rw [hproc]
    rfl
  rw [turns_mlfqOnTick, tickUpdate_running hb hr]
  split
  next hq =>
    rw [if_pos (hiff.mp hq), turns_modify_set, hturns, Turns.set_set, hproc]
    rfl
  next hq =>
    rw [if_neg fun h => hq (hiff.mpr h)]
    exact hturns

theorem turns_tick_idle (hb : ¬k.BoostDue) (hr : k.stateOf k.current ≠ .running) :
    k.mlfqOnTick.turns = k.turns := by
  have hdue : ¬priorityBoostInterval ≤ k.globalTicks + 1 := hb
  rw [turns_mlfqOnTick]
  unfold tickUpdate
  rw [if_neg hdue]
  split
  · rfl
  next hn => exact absurd hr hn

def started (k : Kernel) : Event → Option Nat
  | .create image proc stack => (k.createUserProcess image proc stack).2
  | .clone flags childStack ans => (k.cloneProcess k.current flags childStack ans).2
  | _ => none

/-- An event other than a tick changes the level of the process it starts only. -/
theorem turns_step (e : Event) (h : e ≠ .tick) :
    (k.step e).turns = Turns.joined k.turns (k.started e) := by
  cases e with
  | tick => exact absurd rfl h
  | schedule => exact turns_scheduleLocked k
  | irqKbd => exact turns_wakeOne k .kbd
  | irqMouse => exact turns_wakeOne k .mouse
  | create image proc stack => exact turns_createUserProcess ..
  | clone flags childStack ans => exact turns_cloneProcess ..
  | exec image => exact turns_execProcess ..
  | exit code => exact turns_exitCurrent ..
  | fault => exact turns_exitCurrent ..
  | wait pid => exact turns_sysWait ..
  | sleep => exact turns_block k
  | kbdRead => exact turns_park ..
  | mouseRead => exact turns_park ..
  | pipeRead i => exact turns_onPipe i (turns_pipeReadTurn k)
  | pipeWrite i b => exact turns_onPipe i fun x => turns_pipeWriteTurn k x b
  | openFile file flags => exact turns_sysOpen ..
  | close rdi => exact turns_sysClose ..
  | pipe pipe copied => exact turns_sysPipe ..
  | dup oldfd => exact turns_sysDup ..
  | dup2 oldfd newfd => exact turns_sysDup2 ..

/-! ## Who is there after a step -/

section

variable {V V' : View} {k' : Kernel} {f : Option Nat} {e : Event}

theorem Change.mem_of_nextPid (h : Change k V k' V' f) (hn : k'.nextPid = k.nextPid) (p : Nat)
    (hp : p ∈ V'.ring) : p ∈ V.ring := by
  cases h with
  | stays hring _ => exact hring ▸ hp
  | joins _ hpid _ _ => omega
  | leaves hring _ _ => exact ((hring p).mp hp).1

theorem sysWait_nextPid (k : Kernel) (pid : Int) : (k.sysWait pid).nextPid = k.nextPid := by
  rcases sysWait_cases k pid with ⟨-, heq | heq⟩ | ⟨f, -, heq⟩
  · rw [heq]
    rfl
  · rw [heq]
  · rw [heq, reap_nextPid]

/-- After a step there are the processes of before and the one that was started. -/
theorem KernelOk.members (h : KernelOk k V) (hm : k.MayHappen e) (ha : k.AnswersOk e) :
    ∃ V', KernelOk (k.step e) V' ∧ (∀ p ∈ V'.ring, p ∈ V.ring ∨ k.started e = some p) ∧
      ∀ a, k.started e = some a → a ∉ V.ring := by
  have hone : ∀ {e a}, k.started e = some a → a ∉ V.ring →
      (∀ p ∈ V.ring ++ [a], p ∈ V.ring ∨ k.started e = some p) ∧
        ∀ b, k.started e = some b → b ∉ V.ring := by
    intro e a hsome hout
    refine ⟨fun p hp => ?_, fun b hs => ?_⟩
    · rcases List.mem_append.mp hp with hp | hp
      · exact .inl hp
      · exact .inr (List.mem_singleton.mp hp ▸ hsome)
    · cases hsome.symm.trans hs
      exact hout
  cases e with
  | create image proc stack =>
    obtain ⟨V', hok, -,
        ⟨rfl, -, hnone⟩ | ⟨t, en, rsp, brk, a, st, -, -, -, hout, rfl, -, hsome⟩⟩ :=
      h.createUserProcess image proc stack ha.2.1
    · exact ⟨V', hok, fun p hp => .inl hp, fun a hs => by cases hnone.symm.trans hs⟩
    · exact ⟨_, hok, hone hsome hout⟩
  | clone flags childStack ans =>
    obtain ⟨V', hok, -, ⟨rfl, -, hnone⟩ | ⟨k₁, t, c, a, st, -, -, -, hout, rfl, -, hsome⟩⟩ :=
      h.cloneProcess hm.1 h.settled.current_mem flags childStack ans ha.2.2.1
    · exact ⟨V', hok, fun p hp => .inl hp, fun a hs => by cases hnone.symm.trans hs⟩
    · exact ⟨_, hok, hone hsome hout⟩
  | exec image =>
    exact ⟨V, (h.execProcess k.current image).1, fun p hp => .inl hp, nofun⟩
  | exit code =>
    obtain ⟨V', k₁, hs, hok, -⟩ := h.exitCurrent hm.1 hm.2 code
    obtain ⟨S, hS⟩ := hs.moved
    exact ⟨V', hok, fun p hp => .inl (hS.ring ▸ hp), nofun⟩
  | fault =>
    obtain ⟨V', k₁, hs, hok, -⟩ := h.exitCurrent hm.1 hm.2 (-1)
    obtain ⟨S, hS⟩ := hs.moved
    exact ⟨V', hok, fun p hp => .inl (hS.ring ▸ hp), nofun⟩
  | wait pid =>
    obtain ⟨V', hok, -, hchange⟩ := h.changed_wait hm.1 hm.2 pid
    exact ⟨V', hok,
      fun p hp => .inl (hchange.mem_of_nextPid (sysWait_nextPid k pid) p hp), nofun⟩
  | _ =>
    obtain ⟨V', hs⟩ := h.step hm ha
    obtain ⟨-, hring⟩ := hs.quiet trivial
    exact ⟨V', hs.ok, fun p hp => .inl (hring ▸ hp), nofun⟩

end

/-- A tick other than a boost finds the current process running, or at the lowest level. -/
def TicksCounted (k : Kernel) (e : Event) : Prop :=
  e = .tick → k.BoostDue ∨ (k.procs k.current).priority = 3 ∨ k.stateOf k.current = .running

instance (k : Kernel) : (e : Event) → Decidable (k.TicksCounted e)
  | .tick => decidable_of_iff (k.BoostDue ∨ (k.procs k.current).priority = 3 ∨
    k.stateOf k.current = .running) ⟨fun h _ => h, fun h => h rfl⟩
  | .schedule | .irqKbd | .irqMouse | .create .. | .clone .. | .exec _ | .exit _ | .fault
  | .wait _ | .sleep | .kbdRead | .mouseRead | .pipeRead _ | .pipeWrite .. | .openFile ..
  | .close _ | .pipe .. | .dup _ | .dup2 .. => isTrue nofun

end Kernel

/-! ## Counting -/

/-- The kernel, and the ticks at which each process has been current at each level since
the last boost. -/
structure Tally where
  kernel : Kernel
  spent : Nat → Fin numQueues → Nat

namespace Tally

/-- The state after `init_scheduler`. -/
def boot (b : Boot) : Tally := ⟨initScheduler b, fun _ _ => 0⟩

def add (spent : Nat → Fin numQueues → Nat) (p : Nat) (l : Fin numQueues) :
    Nat → Fin numQueues → Nat :=
  update spent p (update (spent p) l (spent p l + 1))

def count (t : Tally) : Event → Nat → Fin numQueues → Nat
  | .tick =>
    if t.kernel.BoostDue then fun _ _ => 0
    else add t.spent t.kernel.current (t.kernel.procs t.kernel.current).priority
  | _ => t.spent

/-- The state after an event.  A process that was not there has been current at no tick. -/
def step (t : Tally) (e : Event) : Tally where
  kernel := t.kernel.step e
  spent p := if p ∈ t.kernel.processes then t.count e p else fun _ => 0

/-- The states of the runs whose steps all meet a condition. -/
def ReachableBy (ok : Kernel → Event → Prop) (t : Tally) : Prop :=
  ∃ b es, (initScheduler b).CanRun ok es ∧ t = es.foldl step (boot b)

/-- No process has had more than its quantum above the lowest level, and none that had it is there.
-/
def Within (t : Tally) : Prop :=
  ∀ p ∈ t.kernel.processes, p ≠ t.kernel.idle → ∀ l : Fin numQueues, (l : Nat) < numQueues - 1 →
    t.spent p l ≤ 2 * (l + 1) ∧ ((t.kernel.procs p).priority = l → t.spent p l < 2 * (l + 1))

/-- The tick that uses up the quantum of the current process moves it down one level. -/
def Demotes (t : Tally) : Prop :=
  ∀ l : Fin numQueues, (l : Nat) < numQueues - 1 → ¬t.kernel.BoostDue →
    (t.kernel.procs t.kernel.current).priority = l →
    t.kernel.stateOf t.kernel.current = .running →
    t.spent t.kernel.current l + 1 = 2 * (l + 1) →
      ((((t.step .tick).kernel.procs t.kernel.current).priority : Fin numQueues) : Nat) = l + 1

/-- The level of a process, the ticks it has used and the ticks it has really had. -/
structure Kept (level : Fin numQueues) (used : Nat) (spent : Fin numQueues → Nat) : Prop where
  below : used < 2 * (level + 1)
  untouched : ∀ i, level < i → spent i = 0
  done : ∀ i, i < level → spent i ≤ 2 * (i + 1)
  counted : (level : Nat) < numQueues - 1 → spent level ≤ used

theorem Kept.fresh : Kept 0 0 fun _ => 0 where
  below := by decide
  untouched _ _ := rfl
  done _ _ := Nat.zero_le _
  counted _ := Nat.le_refl _

theorem Kept.forget {l : Fin numQueues} {u : Nat} {s : Fin numQueues → Nat} (h : Kept l u s) :
    Kept l u fun _ => 0 where
  below := h.below
  untouched _ _ := rfl
  done _ _ := Nat.zero_le _
  counted _ := Nat.zero_le _

theorem demote_val {l : Fin numQueues} (h : (l : Nat) < numQueues - 1) :
    (demote l : Nat) = l + 1 := by
  rw [demote, dif_pos h]

theorem demote_last {l : Fin numQueues} (h : ¬(l : Nat) < numQueues - 1) : demote l = l := by
  rw [demote, dif_neg h]

/-- At the quantum the process goes down. -/
theorem Kept.demote {l : Fin numQueues} {u : Nat} {s : Fin numQueues → Nat} (h : Kept l u s) :
    Kept (demote l) 0 (update s l (s l + 1)) := by
  have hbelow := h.below
  by_cases hl : (l : Nat) < numQueues - 1
  · have hd := demote_val hl
    have hcount := h.counted hl
    refine ⟨by omega, ?_, ?_, ?_⟩
    · intro i hi
      have hi' : (l : Nat) < i := by
        have : (Kernel.demote l : Nat) < i := hi
        omega
      have hne : i ≠ l := fun e => by
        rw [e] at hi'
        omega
      rw [update_of_ne hne]
      exact h.untouched i hi'
    · intro i hi
      by_cases hil : i = l
      · subst hil
        rw [update_self]
        omega
      · rw [update_of_ne hil]
        have hlt : (i : Nat) < l := by
          have : (i : Nat) < (Kernel.demote l : Nat) := hi
          have : (i : Nat) ≠ l := fun e => hil (Fin.ext e)
          omega
        exact h.done i hlt
    · intro _
      have hlt : l < Kernel.demote l := by
        show (l : Nat) < (Kernel.demote l : Nat)
        omega
      rw [update_of_ne (Fin.ne_of_gt hlt), h.untouched _ hlt]
  · rw [demote_last hl]
    refine ⟨by omega, ?_, ?_, fun hl' => absurd hl' hl⟩
    · intro i hi
      rw [update_of_ne (Fin.ne_of_gt hi)]
      exact h.untouched i hi
    · intro i hi
      rw [update_of_ne (Fin.ne_of_lt hi)]
      exact h.done i hi

/-- A tick is had at the level, and it is counted there unless the level is the lowest. -/
theorem Kept.stay {l : Fin numQueues} {u v : Nat} {s : Fin numQueues → Nat} (h : Kept l u s)
    (hv : v < 2 * (l + 1)) (hc : (l : Nat) < numQueues - 1 → v = u + 1) :
    Kept l v (update s l (s l + 1)) where
  below := hv
  untouched i hi := by
    rw [update_of_ne (Fin.ne_of_gt hi)]
    exact h.untouched i hi
  done i hi := by
    rw [update_of_ne (Fin.ne_of_lt hi)]
    exact h.done i hi
  counted hl := by
    rw [update_self, hc hl]
    exact Nat.succ_le_succ (h.counted hl)

/-- What the kernel counts agrees with what there was, for every process. -/
structure Fair (t : Tally) (V : View) : Prop where
  ok : KernelOk t.kernel V
  quantum : ∀ i : Fin numQueues, t.kernel.turns.quantum i = 2 * (i + 1)
  each : ∀ p ∈ V.ring, Kept (t.kernel.turns.level p) (t.kernel.turns.used p) (t.spent p)

section

variable {t : Tally} {V : View} {e : Event}

theorem boot_fair (b : Boot) : Fair (boot b) (bootView b) where
  ok := initScheduler_ok b
  quantum i := by
    show 2 + 2 * (i : Nat) = 2 * (i + 1)
    omega
  each p hp := by
    obtain rfl : p = b.idle := List.mem_singleton.mp hp
    have hidle := initScheduler_idle b
    have hlevel : (boot b).kernel.turns.level b.idle = 3 := congrArg Process.priority hidle
    have hused : (boot b).kernel.turns.used b.idle = 0 := congrArg Process.ticksExecuted hidle
    rw [hlevel, hused]
    exact ⟨by decide, fun _ _ => rfl, fun _ _ => Nat.zero_le _, fun _ => Nat.le_refl _⟩

theorem Fair.spent_of_mem (h : Fair t V) {p : Nat} (hp : p ∈ V.ring) :
    (t.step e).spent p = t.count e p :=
  if_pos (h.ok.base.ringOk.processes_eq ▸ hp)

theorem Fair.step_other (h : Fair t V) (hm : t.kernel.MayHappen e) (ha : t.kernel.AnswersOk e)
    (he : e ≠ .tick) : ∃ V', Fair (t.step e) V' := by
  obtain ⟨V', hok, hmem, hnew⟩ := h.ok.members hm ha
  have hturns := turns_step (k := t.kernel) e he
  have hcount : t.count e = t.spent := by
    cases e with
    | tick => exact absurd rfl he
    | _ => rfl
  refine ⟨V', hok, ?_, ?_⟩
  · intro i
    have hq : (t.kernel.step e).turns.quantum = t.kernel.turns.quantum := by
      rw [hturns]
      cases t.kernel.started e <;> rfl
    exact (congrFun hq i).trans (h.quantum i)
  · intro p hp
    show Kept ((t.kernel.step e).turns.level p) ((t.kernel.step e).turns.used p) _
    rw [hturns]
    by_cases hs : t.kernel.started e = some p
    · have hgone : p ∉ t.kernel.processes := by
        rw [h.ok.base.ringOk.processes_eq]
        exact hnew p hs
      have hspent : (t.step e).spent p = fun _ => 0 := if_neg hgone
      rw [hs, hspent]
      simpa [Turns.joined, Turns.set] using Kept.fresh
    · have hold := (hmem p hp).resolve_right hs
      have hsame : (Turns.joined t.kernel.turns (t.kernel.started e)).level p =
            t.kernel.turns.level p ∧
          (Turns.joined t.kernel.turns (t.kernel.started e)).used p = t.kernel.turns.used p := by
        cases hst : t.kernel.started e with
        | none => exact ⟨rfl, rfl⟩
        | some a =>
          have hne : p ≠ a := fun heq => hs (heq ▸ hst)
          simp [Turns.joined, Turns.set, hne]
      rw [hsame.1, hsame.2, h.spent_of_mem hold, hcount]
      exact h.each p hold

theorem Fair.step_boost (h : Fair t V) (hb : t.kernel.BoostDue) :
    ∃ V', Fair (t.step .tick) V' := by
  obtain ⟨V', hs⟩ := h.ok.step (e := .tick) trivial trivial
  obtain ⟨-, hring⟩ := hs.quiet trivial
  have hboost : Turns.Boosted t.kernel.turns (t.kernel.step .tick).turns := boosted_tick hb
  refine ⟨V', hs.ok, ?_, ?_⟩
  · intro i
    exact (congrFun hboost.quantum i).trans (h.quantum i)
  · intro p hp
    rw [hring] at hp
    have hspent : (t.step .tick).spent p = fun _ => 0 :=
      (h.spent_of_mem hp).trans (congrFun (if_pos hb) p)
    rw [hspent]
    show Kept ((t.kernel.step .tick).turns.level p) ((t.kernel.step .tick).turns.used p) _
    rcases hboost.each p with ⟨hl, hu⟩ | ⟨hl, hu⟩
    · rw [hl, hu]
      exact (h.each p hp).forget
    · rw [hl, hu]
      exact Kept.fresh

/-- A tick that is no boost keeps the count of the current process right, and touches no other. -/
theorem Fair.step_tick (h : Fair t V) (hb : ¬t.kernel.BoostDue)
    (hc : (t.kernel.procs t.kernel.current).priority = 3 ∨
      t.kernel.stateOf t.kernel.current = .running) : ∃ V', Fair (t.step .tick) V' := by
  obtain ⟨V', hs⟩ := h.ok.step (e := .tick) trivial trivial
  obtain ⟨-, hring⟩ := hs.quiet trivial
  have hcur := h.each _ h.ok.settled.current_mem
  have hspent : ∀ p ∈ V.ring, (t.step .tick).spent p =
      add t.spent t.kernel.current (t.kernel.turns.level t.kernel.current) p := fun p hp =>
    (h.spent_of_mem hp).trans (congrFun (if_neg hb) p)
  by_cases hr : t.kernel.stateOf t.kernel.current = .running
  · have hturns : (t.kernel.step .tick).turns = _ := turns_tick hb hr
    refine ⟨V', hs.ok, ?_, ?_⟩
    · intro i
      have hq : (t.kernel.step .tick).turns.quantum = t.kernel.turns.quantum := by
        rw [hturns]
        split <;> rfl
      exact (congrFun hq i).trans (h.quantum i)
    · intro p hp
      rw [hring] at hp
      rw [hspent p hp]
      show Kept ((t.kernel.step .tick).turns.level p) ((t.kernel.step .tick).turns.used p) _
      rw [hturns]
      by_cases hpc : p = t.kernel.current
      · subst hpc
        have hq := h.quantum (t.kernel.turns.level t.kernel.current)
        split
        next hle => simpa [Turns.set, add] using hcur.demote
        next hlt =>
          have hv : t.kernel.turns.used t.kernel.current + 1 <
              2 * ((t.kernel.turns.level t.kernel.current : Nat) + 1) := by omega
          simpa [Turns.set, add] using hcur.stay hv fun _ => rfl
      · have hkept := h.each p hp
        split <;> simpa [Turns.set, add, hpc] using hkept
  · have hlast : t.kernel.turns.level t.kernel.current = 3 := hc.resolve_right hr
    have hturns : (t.kernel.step .tick).turns = t.kernel.turns := turns_tick_idle hb hr
    refine ⟨V', hs.ok, ?_, ?_⟩
    · intro i
      exact (congrFun (congrArg Turns.quantum hturns) i).trans (h.quantum i)
    · intro p hp
      rw [hring] at hp
      rw [hspent p hp]
      show Kept ((t.kernel.step .tick).turns.level p) ((t.kernel.step .tick).turns.used p) _
      rw [hturns]
      by_cases hpc : p = t.kernel.current
      · subst hpc
        have hno : ¬(t.kernel.turns.level t.kernel.current : Nat) < numQueues - 1 := by
          rw [hlast]
          decide
        simpa [add] using hcur.stay hcur.below fun hl => absurd hl hno
      · simpa [add, hpc] using h.each p hp

theorem Fair.step (h : Fair t V) (hm : t.kernel.MayHappen e) (ha : t.kernel.AnswersOk e)
    (hc : t.kernel.TicksCounted e) : ∃ V', Fair (t.step e) V' := by
  by_cases he : e = .tick
  · subst he
    by_cases hb : t.kernel.BoostDue
    · exact h.step_boost hb
    · exact h.step_tick hb ((hc rfl).resolve_left hb)
  · exact h.step_other hm ha he

theorem Fair.run {es : List Event} (h : Fair t V) (hrun : t.kernel.CanRun TicksCounted es) :
    ∃ V', Fair (es.foldl Tally.step t) V' := by
  induction es generalizing t V with
  | nil => exact ⟨V, h⟩
  | cons e es ih =>
    obtain ⟨hm, ha, hc, hrun⟩ := hrun
    obtain ⟨V', h'⟩ := h.step hm ha hc
    exact ih h' hrun

theorem ReachableBy.fair (h : ReachableBy TicksCounted t) : ∃ V, Fair t V := by
  obtain ⟨b, es, hrun, rfl⟩ := h
  exact (boot_fair b).run hrun

theorem Fair.within (h : Fair t V) : t.Within := by
  intro p hp _ l hl
  rw [h.ok.base.ringOk.processes_eq] at hp
  have hkept := h.each p hp
  have hbelow := hkept.below
  rcases Nat.lt_trichotomy l (t.kernel.turns.level p) with hlt | heq | hgt
  · have hne : (t.kernel.procs p).priority ≠ l := fun e => by
      have : (l : Nat) < ((t.kernel.procs p).priority : Nat) := hlt
      rw [e] at this
      omega
    exact ⟨hkept.done l hlt, fun e => absurd e hne⟩
  · obtain rfl : l = t.kernel.turns.level p := Fin.ext heq
    have hcount := hkept.counted hl
    exact ⟨by omega, fun _ => by omega⟩
  · have hz := hkept.untouched l hgt
    exact ⟨by omega, fun _ => by omega⟩

theorem Fair.demotes (h : Fair t V) : t.Demotes := by
  intro l hl hb hlevel hr hspent
  have hlevel : t.kernel.turns.level t.kernel.current = l := hlevel
  have hkept := h.each _ h.ok.settled.current_mem
  rw [hlevel] at hkept
  have hcount := hkept.counted hl
  have hq := h.quantum l
  have hturns : (t.kernel.step .tick).turns = _ := turns_tick hb hr
  rw [hlevel, if_pos (by omega)] at hturns
  have hnew : (t.kernel.step .tick).turns.level t.kernel.current = Kernel.demote l := by
    rw [hturns]
    simp [Turns.set]
  exact (congrArg Fin.val hnew).trans (demote_val hl)

end

end Tally

/-- In every run in which each tick other than a boost finds the current process running or at the
lowest level, no process is current for more than `2 * (p + 1)` ticks at level `p` between two
boosts, and the tick that reaches this number moves it down. -/
theorem mlfq_allotment {t : Tally} (h : t.ReachableBy TicksCounted) : t.Within ∧ t.Demotes := by
  obtain ⟨V, hf⟩ := h.fair
  exact ⟨hf.within, hf.demotes⟩

/-- A process runs beside a second one, for long enough to go down. -/
def sharedTicks : List Event :=
  [.create (.loaded 1 0 0 0) (some 1) (some 1), .create (.loaded 2 0 0 0) (some 2) (some 2),
    .schedule, .tick, .tick]

theorem mlfq_allotment_sharedTicks :
    (sharedTicks.foldl Tally.step (.boot .blank)).spent 1 0 = 2 ∧
      (sharedTicks.foldl Tally.step (.boot .blank)).Within :=
  ⟨by decide +kernel, (mlfq_allotment ⟨.blank, sharedTicks, by decide +kernel, rfl⟩).1⟩

/-- A process runs alone.  Its quantum is used up once, and then it is picked again. -/
def pickedAgain : List Event :=
  [.create (.loaded 1 0 0 0) (some 1) (some 1), .schedule] ++ List.replicate 7 .tick

/-- The process is at level 1 and has had five ticks there since the start.  It is `PROCESS_READY`,
so none of them has been counted. -/
theorem pickedAgain_overrun :
    (pickedAgain.foldl Tally.step (.boot .blank)).ReachableBy (fun _ _ => True) ∧
      (pickedAgain.foldl Tally.step (.boot .blank)).kernel.current = 1 ∧
      (pickedAgain.foldl Tally.step (.boot .blank)).kernel.stateOf 1 = .ready ∧
      ((pickedAgain.foldl Tally.step (.boot .blank)).kernel.procs 1).priority = 1 ∧
      ((pickedAgain.foldl Tally.step (.boot .blank)).kernel.procs 1).ticksExecuted = 0 ∧
      (pickedAgain.foldl Tally.step (.boot .blank)).spent 1 1 = 5 ∧
      ¬(pickedAgain.foldl Tally.step (.boot .blank)).Within := by
  have hspent : (pickedAgain.foldl Tally.step (.boot .blank)).spent 1 1 = 5 := by decide +kernel
  have hmem : 1 ∈ (pickedAgain.foldl Tally.step (.boot .blank)).kernel.processes := by
    decide +kernel
  refine ⟨⟨.blank, pickedAgain, by decide +kernel, rfl⟩, by decide +kernel, by decide +kernel,
    by decide +kernel, by decide +kernel, hspent, ?_⟩
  intro hw
  have hle := (hw 1 hmem (by decide +kernel) 1 (by decide)).1
  rw [hspent] at hle
  exact absurd hle (by decide)

end Aeryk
