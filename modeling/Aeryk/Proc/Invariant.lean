import Aeryk.Proc.Ends
import Mathlib.Data.Finset.Prod

/-!
# The invariant of the process layer

`KernelOk k V` holds in every state of every run, for some view `V`.  It has three parts: the
queues (`Base`), where a process in a given state is to be found (`Settled`), and the descriptors
(`Ends` over all slots, with what dead and waiting processes hold).  They depend on each other: a
wait queue of a pipe is sound until the pipe is freed, and a pipe is not freed as long as somebody
who waits for it holds one of its ends.
-/

namespace Aeryk

open Lib

def WaitId.ofEnd (x : Nat) (isReadEnd : Bool) : WaitId :=
  if isReadEnd then .pipeRead x else .pipeWrite x

def View.slots (V : View) : Finset Slot := V.ring.toFinset ×ˢ Finset.univ

theorem View.mem_slots {V : View} {s : Slot} : s ∈ V.slots ↔ s.1 ∈ V.ring := by
  simp [View.slots]

namespace Kernel

/-- Where a process in a given state is to be found. -/
structure Settled (k : Kernel) (V : View) : Prop where
  current_mem : k.current ∈ V.ring
  /-- A process in a waiting state is on a wait queue of that kind. -/
  parked : ∀ p ∈ V.ring, ∀ {w : WaitId}, k.stateOf p = w.state →
    ∃ w', w'.state = k.stateOf p ∧ p ∈ V.waiting w'
  running : ∀ p ∈ V.ring, k.stateOf p = .running → p = k.current ∨ p = k.idle
  /-- A process that executes its own code is on no ready queue. -/
  free : k.yielding = false → k.current ≠ k.idle →
    (k.stateOf k.current = .running ∨ k.stateOf k.current = .ready) ∧
      ∀ i, k.current ∉ V.ready i
  halted : k.yielding = true → k.stateOf k.current ≠ .running

/-- The invariant of the process layer, apart from the counters of the pipes. -/
structure Layer (k : Kernel) (V : View) : Prop where
  base : Base k V
  settled : Settled k V
  /-- Nobody but the idle process is without a parent. -/
  orphan : ∀ p ∈ V.ring, (k.procs p).parent = none → p = k.idle
  dead_slots : ∀ p ∈ V.ring, k.stateOf p = .dead → ∀ i, (k.fd p i).type = .none
  /-- Who waits for a pipe holds the end to wait at. -/
  waiters : ∀ {x r p}, p ∈ V.waiting (.ofEnd x r) → ∃ i, k.slotRef (p, i) = some (x, r)

structure KernelOk (k : Kernel) (V : View) : Prop extends Layer k V where
  ends : Ends k V.slots

/-- The process is ready to run, and nobody will ever pick it. -/
def Lost (k : Kernel) (V : View) (p : Nat) : Prop :=
  p ∈ V.ring ∧ p ≠ k.idle ∧ k.stateOf p = .ready ∧ ∀ i, p ∉ V.ready i

section

variable {k k' : Kernel} {V V' : View} {S : Set Nat} {p : Nat}

theorem Layer.current_free (h : Layer k V) (hy : k.yielding = false) :
    ¬V.Queued k.current := by
  by_cases hi : k.current = k.idle
  · rintro (⟨i, hm⟩ | ⟨w, hm⟩)
    · exact (h.base.ready_place hm).2.1 hi
    · exact (h.base.wait_place hm).2.1 hi
  · obtain ⟨hs, hr⟩ := h.settled.free hy hi
    rintro (⟨i, hm⟩ | ⟨w, hm⟩)
    · exact hr i hm
    · have hw := (h.base.wait_place hm).2.2
      rw [hw] at hs
      rcases hs with hs | hs
      · exact w.state_ne.2.1 hs
      · exact w.state_ne.1 hs

theorem Layer.current_not_dead (h : Layer k V) (hy : k.yielding = false) :
    k.stateOf k.current ≠ .dead := by
  by_cases hi : k.current = k.idle
  · rw [hi, h.base.idle_running]
    decide
  · rcases (h.settled.free hy hi).1 with hs | hs <;> rw [hs] <;> decide

theorem Layer.keep (h : Layer k V) (p : Nat) (hp : p ∈ V.ring) :
    k.stateOf p ≠ .dead ∨ p = k.current ∨ (k.procs p).parent ≠ none := by
  by_cases hi : p = k.idle
  · left
    rw [hi, h.base.idle_running]
    decide
  · exact .inr (.inr fun e => hi (h.orphan p hp e))

/-- Waking processes keeps everybody in their place. -/
theorem Settled.moved (h : Settled k V) (hm : Moved S k V k' V')
    (hc : k.yielding = false → k.current ≠ k.idle → k.current ∉ S) : Settled k' V' where
  current_mem := by rw [hm.current, hm.ring]; exact h.current_mem
  parked p hp w hs := by
    have hpS : p ∉ S := fun hS => by
      rw [hm.state, if_pos hS] at hs
      exact w.state_ne.1 hs.symm
    rw [hm.state, if_neg hpS] at hs ⊢
    obtain ⟨w', hw', hmem⟩ := h.parked p (hm.ring ▸ hp) hs
    exact ⟨w', hw', (hm.waiting w' p).mpr ⟨hmem, hpS⟩⟩
  running p hp hs := by
    have hpS : p ∉ S := fun hS => by
      rw [hm.state, if_pos hS] at hs
      cases hs
    rw [hm.state, if_neg hpS] at hs
    rw [hm.current, core_idle hm.core]
    exact h.running p (hm.ring ▸ hp) hs
  free hy hi := by
    rw [hm.yielding] at hy
    rw [hm.current, core_idle hm.core] at hi
    have hS := hc hy hi
    obtain ⟨hs, hr⟩ := h.free hy hi
    rw [hm.current]
    refine ⟨by rwa [hm.state, if_neg hS], fun i hmem => ?_⟩
    rcases (hm.ready i _).mp hmem with hmem | hmem
    · exact hr i hmem
    · exact hS hmem.1
  halted hy := by
    rw [hm.current, hm.state]
    split
    next => decide
    next => exact h.halted (hm.yielding ▸ hy)

/-- Waking processes loses none. -/
theorem Moved.lost (hm : Moved S k V k' V') (hl : Lost k' V' p) : Lost k V p := by
  obtain ⟨hr, hi, hs, hn⟩ := hl
  have hpS : p ∉ S := fun hS => hn _ ((hm.ready _ p).mpr (.inr ⟨hS, rfl⟩))
  rw [hm.state, if_neg hpS] at hs
  refine ⟨hm.ring ▸ hr, core_idle hm.core ▸ hi, hs, fun i hmem => ?_⟩
  exact hn i ((hm.ready i p).mpr (.inl hmem))

/-- Waiters that are left still hold their ends. -/
theorem Layer.waiters_of (h : Layer k V)
    (hw : ∀ {w p}, p ∈ V'.waiting w → p ∈ V.waiting w)
    (hfd : ∀ {w p}, p ∈ V.waiting w → ∀ i, k'.fd p i = k.fd p i) {x r}
    (hp : p ∈ V'.waiting (.ofEnd x r)) : ∃ i, k'.slotRef (p, i) = some (x, r) := by
  obtain ⟨i, hi⟩ := h.waiters (hw hp)
  refine ⟨i, ?_⟩
  unfold slotRef slot at hi ⊢
  rwa [hfd (hw hp)]

/-- An operation that wakes processes and changes the descriptors of the current process
only. -/
theorem Layer.moved (h : Layer k V) (hm : Moved S k V k' V') (hy : k.yielding = false)
    (hc : k.current ∉ S) (hfd : ∀ p ∈ V.ring, p ≠ k.current → ∀ i, k'.fd p i = k.fd p i) :
    Layer k' V' where
  base := hm.base
  settled := h.settled.moved hm fun _ _ => hc
  orphan p hp hpar := by
    rw [core_idle hm.core]
    exact h.orphan p (hm.ring ▸ hp) (core_parent hm.core p ▸ hpar)
  dead_slots p hp hd i := by
    rw [core_dead hm.core] at hd
    have hne : p ≠ k.current := fun e => h.current_not_dead hy (e ▸ hd)
    rw [hfd p (hm.ring ▸ hp) hne]
    exact h.dead_slots p (hm.ring ▸ hp) hd i
  waiters := h.waiters_of (fun hmem => ((hm.waiting _ _).mp hmem).1) fun {w p} hmem =>
    hfd p (h.base.wait_place hmem).1 fun e => h.current_free hy (.inr ⟨w, e ▸ hmem⟩)

theorem KernelOk.moved (h : KernelOk k V) (hm : Moved S k V k' V') (hy : k.yielding = false)
    (hc : k.current ∉ S) (hfd : ∀ p, p ≠ k.current → ∀ i, k'.fd p i = k.fd p i)
    (he : Ends k' V.slots) : KernelOk k' V' where
  toLayer := h.toLayer.moved hm hy hc fun p _ => hfd p
  ends := by
    have : V'.slots = V.slots := by rw [View.slots, View.slots, hm.ring]
    rwa [this]

/-- An operation that leaves the ring, the descriptors and the wait queues alone. -/
theorem KernelOk.of_rest (h : KernelOk k V) (hb : Base k' V') (hs : Settled k' V')
    (hr : k'.rest = k.rest) (hring : V'.ring = V.ring)
    (hw : ∀ {w p}, p ∈ V'.waiting w → p ∈ V.waiting w) : KernelOk k' V' where
  base := hb
  settled := hs
  orphan p hp hpar := by
    rw [rest_idle hr]
    exact h.orphan p (hring ▸ hp) (core_parent (rest_core hr) p ▸ hpar)
  dead_slots p hp hd i := by
    rw [core_dead (rest_core hr)] at hd
    rw [rest_fd hr]
    exact h.dead_slots p (hring ▸ hp) hd i
  waiters := h.waiters_of hw fun _ i => rest_fd hr _ i
  ends := by
    have : V'.slots = V.slots := by rw [View.slots, View.slots, hring]
    rw [this]
    exact h.ends.of_rest hr

/-- An operation of the scheduler that wakes processes. -/
theorem KernelOk.woke (h : KernelOk k V) (hw : Woke S k V k' V')
    (hc : k.yielding = false → k.current ≠ k.idle → k.current ∉ S) : KernelOk k' V' :=
  h.of_rest hw.base (h.settled.moved hw.toMoved hc) hw.rest hw.ring
    fun hm => ((hw.waiting _ _).mp hm).1

/-! ## `schedule` and the timer tick -/

theorem Base.setYielding (h : Base k V) (y : Bool) : Base { k with yielding := y } V :=
  h.same rfl rfl (fun w => by cases w <;> rfl) (fun _ _ => rfl) fun _ _ _ => rfl

theorem Settled.scheduled {y : Bool} (h : Settled k V) (hb : Base k V) (hs : Scheduled k V k' V')
    (hy : y = true → k.yielding = true ∧ k'.current = k.current) :
    Settled { k' with yielding := y } V' where
  current_mem := hs.ring ▸ hs.current_mem
  parked p hp w (he : k'.stateOf p = w.state) := by
    obtain ⟨h1, h2, -, -⟩ := w.state_ne
    have hold := h.parked p (hs.ring ▸ hp) (w := w)
    have hstate := hs.state p
    have hwait := fun w' => hs.waiting w' p
    show ∃ w', w'.state = k'.stateOf p ∧ p ∈ V'.waiting w'
    grind
  running p hp (he : k'.stateOf p = .running) := by
    have hold := h.running p (hs.ring ▸ hp)
    have hstate := hs.state p
    have hrises : p ∈ V.ring → p = k.current ∧ k.stateOf p = .running ∧ p ≠ k.idle →
        p ∈ Rises k V := fun hp h => ⟨hp, .inr h⟩
    have hring : p ∈ V.ring := hs.ring ▸ hp
    show p = k'.current ∨ p = k'.idle
    rw [rest_idle hs.rest]
    grind
  free _ (hi : k'.current ≠ k'.idle) := by
    rw [rest_idle hs.rest] at hi
    refine ⟨?_, fun i hm => ((hs.ready i _).mp hm).1 rfl⟩
    have hstate := hs.state k'.current
    have hplace : (∃ i, k'.current ∈ V.ready i) → k.stateOf k'.current = .ready :=
      fun ⟨i, hm⟩ => (hb.ready_place hm).2.2.1
    have hcand : Candidate k V k'.current := (hs.least hi).1
    unfold Candidate at hcand
    show k'.stateOf k'.current = _ ∨ k'.stateOf k'.current = _
    grind
  halted e := by
    obtain ⟨hyield, hcur⟩ := hy e
    show k'.stateOf k'.current ≠ .running
    rw [hs.state, if_neg fun hc => hc.2 hcur]
    split
    next => decide
    next =>
      rw [hcur]
      exact h.halted hyield

theorem KernelOk.scheduled {y : Bool} (h : KernelOk k V) (hs : Scheduled k V k' V')
    (hy : y = true → k.yielding = true ∧ k'.current = k.current) :
    KernelOk { k' with yielding := y } V' :=
  h.of_rest (hs.base.setYielding y) (h.settled.scheduled h.base hs hy) hs.rest hs.ring
    fun hm => (hs.waiting _ _).mp hm

/-- `schedule_locked` loses no process but the current one, and that only if it picks
it. -/
theorem Scheduled.lost (hs : Scheduled k V k' V') (hl : Lost k' V' p) :
    Lost k V p ∨ p = k.current ∧ k'.current = k.current := by
  obtain ⟨hr, hi, he, hn⟩ := hl
  have hout : ∀ i, (p ∈ V.ready i ∨ p ∈ Rises k V ∧ (k.procs p).priority = i) →
      p = k'.current := fun i hm =>
    by_contra fun hne => hn i ((hs.ready i p).mpr ⟨hne, hm⟩)
  rw [hs.state] at he
  split at he
  next => cases he
  next hc =>
    have hself : p = k'.current → p = k.current ∧ k'.current = k.current := fun e => by
      have : p = k.current := by_contra fun hne => hc ⟨e, hne⟩
      exact ⟨this, e.symm.trans this⟩
    split at he
    next hm => exact .inr (hself (hout _ (.inr ⟨hm, rfl⟩)))
    next hm =>
      by_cases hq : ∃ i, p ∈ V.ready i
      · obtain ⟨i, hq⟩ := hq
        exact .inr (hself (hout i (.inl hq)))
      · exact .inl ⟨hs.ring ▸ hr, rest_idle hs.rest ▸ hi, he, fun i hm => hq ⟨i, hm⟩⟩

theorem KernelOk.ticked (h : KernelOk k V) (ht : Ticked k V k' V') : KernelOk k' V' := by
  refine h.of_rest ht.base
    ⟨?_, fun p hp w he => ?_, fun p hp he => ?_, fun hy hi => ?_, fun hy => ?_⟩ ht.rest
    ht.ring fun hm => by rwa [ht.waiting] at hm
  · rw [ht.current, ht.ring]
    exact h.settled.current_mem
  · rw [ht.state] at he ⊢
    rw [ht.waiting]
    exact h.settled.parked p (ht.ring ▸ hp) he
  · rw [ht.state] at he
    rw [ht.current, rest_idle ht.rest]
    exact h.settled.running p (ht.ring ▸ hp) he
  · rw [ht.yielding] at hy
    rw [ht.current, rest_idle ht.rest] at hi
    obtain ⟨hs, hn⟩ := h.settled.free hy hi
    rw [ht.current, ht.state]
    exact ⟨hs, fun i hm => by
      obtain ⟨j, hj⟩ := (ht.ready _).mp ⟨i, hm⟩
      exact hn j hj⟩
  · rw [ht.current, ht.state]
    exact h.settled.halted (ht.yielding ▸ hy)

theorem Ticked.lost (ht : Ticked k V k' V') (hl : Lost k' V' p) : Lost k V p := by
  obtain ⟨hr, hi, hs, hn⟩ := hl
  refine ⟨ht.ring ▸ hr, rest_idle ht.rest ▸ hi, ht.state p ▸ hs, fun i hm => ?_⟩
  obtain ⟨j, hj⟩ := (ht.ready p).mpr ⟨i, hm⟩
  exact hn j hj

/-! ## Blocking -/

/-- The current process changes its state. -/
theorem KernelOk.base_setState (h : KernelOk k V) (hy : k.yielding = false)
    (hi : k.current ≠ k.idle) (s : ProcessState) : Base (k.setState k.current s) V :=
  h.base.modify (h.base.ringOk.modify rfl rfl rfl) (h.current_free hy) hi

theorem KernelOk.block (h : KernelOk k V) (hy : k.yielding = false) (hi : k.current ≠ k.idle) :
    KernelOk k.block V := by
  have hrest : k.block.rest = k.rest :=
    setState_rest (by decide) (h.current_not_dead hy)
  have hstate : ∀ p, k.block.stateOf p = if p = k.current then .blocked else k.stateOf p :=
    fun p => setState_stateOf .blocked p
  refine h.of_rest ((h.base_setState hy hi .blocked).setYielding true)
    ⟨h.settled.current_mem, fun p hp w he => ?_, fun p hp he => ?_, fun hy' => (by cases hy'),
      fun _ => ?_⟩ hrest rfl id
  · rw [hstate] at he ⊢
    split at he
    next => exact absurd he.symm w.state_ne.2.2.1
    next hne =>
      rw [if_neg hne]
      exact h.settled.parked p hp he
  · rw [hstate] at he
    split at he
    next => cases he
    next hne => exact h.settled.running p hp he
  · rw [hstate, if_pos (show k.block.current = k.current from rfl)]
    decide

theorem block_lost (hl : Lost k.block V p) : Lost k V p := by
  obtain ⟨hr, hi, hs, hn⟩ := hl
  have hstate : k.block.stateOf p = if p = k.current then .blocked else k.stateOf p :=
    setState_stateOf .blocked p
  rw [hstate] at hs
  split at hs
  next => cases hs
  next => exact ⟨hr, hi, hs, hn⟩

section Park

variable {w : WaitId}

theorem park_rest (hd : k.stateOf k.current ≠ .dead) : (k.park w).rest = k.rest :=
  (waitQueuePush_rest _ w k.current).trans (setState_rest w.state_ne.2.2.2 hd)

theorem park_state (p : Nat) :
    (k.park w).stateOf p = if p = k.current then w.state else k.stateOf p :=
  (waitQueuePush_proj Process.state (fun _ _ _ => rfl) _ w _ p).trans (setState_stateOf w.state p)

theorem park_current : (k.park w).current = k.current :=
  (waitFrame_current (waitQueuePush_waitFrame (k.setState k.current w.state) w k.current) :)

/-- The current process joins the end of a wait queue. -/
def parked (k : Kernel) (V : View) (w : WaitId) : View :=
  V.setWaiting w (V.waiting w ++ [k.current])

theorem mem_parked {w' : WaitId} :
    p ∈ (parked k V w).waiting w' ↔ p ∈ V.waiting w' ∨ p = k.current ∧ w' = w := by
  unfold parked
  by_cases hww : w' = w
  · subst hww
    rw [View.setWaiting_same, List.mem_append, List.mem_singleton]
    simp
  · rw [View.setWaiting_ne hww]
    simp [hww]

theorem KernelOk.base_park (h : KernelOk k V) (hy : k.yielding = false)
    (hi : k.current ≠ k.idle) (hw : w.Live k.log) : Base (k.park w) (parked k V w) := by
  have hfree := h.current_free hy
  have hb := h.base_setState hy hi w.state
  have hrest := park_rest (w := w) (h.current_not_dead hy)
  obtain ⟨hlinks, htails⟩ := hb.links.push (p := k.current) hw fun w' hm => hfree (.inr ⟨w', hm⟩)
  have hprio : ∀ p, ((k.park w).procs p).priority = (k.procs p).priority := fun p =>
    (waitQueuePush_proj Process.priority (fun _ _ _ => rfl) _ w _ p).trans
      (modify_proj Process.priority rfl)
  have hbase : Base ((k.setState k.current w.state).waitQueuePush w k.current)
      (parked k V w) := by
    refine ⟨hb.ringOk.congr (rest_core (waitQueuePush_rest _ w _)), hlinks,
      fun i => htails i (hb.tails i), fun {i p} hm => ?_, fun {w' p} hm => ?_, ?_⟩
    · obtain ⟨h1, h2, h3, h4⟩ := h.base.ready_place hm
      have hne : p ≠ k.current := fun e => hfree (.inl ⟨i, e ▸ hm⟩)
      exact ⟨h1, rest_idle hrest ▸ h2, (park_state p).trans ((if_neg hne).trans h3),
        (hprio p).trans h4⟩
    · rcases mem_parked.mp hm with hm | ⟨rfl, rfl⟩
      · obtain ⟨h1, h2, h3⟩ := h.base.wait_place hm
        have hne : p ≠ k.current := fun e => hfree (.inr ⟨w', e ▸ hm⟩)
        exact ⟨h1, rest_idle hrest ▸ h2, (park_state p).trans ((if_neg hne).trans h3)⟩
      · exact ⟨h.settled.current_mem, rest_idle hrest ▸ hi, (park_state _).trans (if_pos rfl)⟩
    · have : (k.park w).stateOf (k.park w).idle = .running := by
        rw [rest_idle hrest, park_state, if_neg (Ne.symm hi)]
        exact h.base.idle_running
      exact this
  exact hbase.setYielding true

/-- A process parks on a wait queue it may wait on. -/
theorem KernelOk.park (h : KernelOk k V) (hy : k.yielding = false)
    (hi : k.current ≠ k.idle) (hw : w.Live k.log)
    (hend : ∀ {x r}, w = .ofEnd x r → ∃ i, k.slotRef (k.current, i) = some (x, r)) :
    KernelOk (k.park w) (parked k V w) := by
  have hrest := park_rest (w := w) (h.current_not_dead hy)
  refine ⟨⟨h.base_park hy hi hw, ⟨?_, fun p hp w' he => ?_, fun p hp he => ?_,
    fun hy' => (by cases hy'), fun _ => ?_⟩, fun p hp hpar => ?_, fun p hp hd i => ?_,
    fun {x r p} hm => ?_⟩, h.ends.of_rest hrest⟩
  · rw [park_current]
    exact h.settled.current_mem
  · rw [park_state] at he ⊢
    split at he
    next hc => exact ⟨w, (if_pos hc).symm, mem_parked.mpr (.inr ⟨hc, rfl⟩)⟩
    next hne =>
      rw [if_neg hne]
      obtain ⟨w'', he', hm⟩ := h.settled.parked p hp he
      exact ⟨w'', he', mem_parked.mpr (.inl hm)⟩
  · rw [park_state] at he
    split at he
    next => exact absurd he w.state_ne.2.1
    next hne =>
      rw [park_current, rest_idle hrest]
      exact h.settled.running p hp he
  · rw [park_current, park_state, if_pos rfl]
    exact w.state_ne.2.1
  · rw [rest_idle hrest]
    exact h.orphan p hp (core_parent (rest_core hrest) p ▸ hpar)
  · rw [core_dead (rest_core hrest)] at hd
    rw [rest_fd hrest]
    exact h.dead_slots p hp hd i
  · have hold : ∃ i, k.slotRef (p, i) = some (x, r) := by
      rcases mem_parked.mp hm with hm | ⟨rfl, hw'⟩
      · exact h.waiters hm
      · exact hend hw'.symm
    obtain ⟨i, hi'⟩ := hold
    refine ⟨i, ?_⟩
    unfold slotRef slot at hi' ⊢
    rwa [rest_fd hrest]

theorem park_lost (hd : k.stateOf k.current ≠ .dead) (hl : Lost (k.park w) (parked k V w) p) :
    Lost k V p := by
  obtain ⟨h1, h2, hs, hn⟩ := hl
  rw [park_state] at hs
  split at hs
  next => exact absurd hs w.state_ne.1
  next => exact ⟨h1, rest_idle (park_rest (w := w) hd) ▸ h2, hs, hn⟩

end Park

end

end Kernel

end Aeryk
