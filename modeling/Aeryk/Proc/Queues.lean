import Aeryk.Proc.Links
import Mathlib.Data.List.Range
import Mathlib.Data.Set.Basic

/-!
# Waking processes

`Base` is what holds of the ring and the queues at every point of every kernel function that lets
go of them.  `Woke S` relates the states before and after an operation that takes the processes of
`S` off their wait queues and puts them on their ready queues: `mlfq_enqueue`, the two ways to wake
the waiters of a queue and `wake_blocked_processes`.
-/

namespace Aeryk

open List Lib

theorem WaitId.state_ne (w : WaitId) :
    w.state ≠ .ready ∧ w.state ≠ .running ∧ w.state ≠ .blocked ∧ w.state ≠ .dead := by
  cases w <;> simp [WaitId.state]

namespace Kernel

structure RingOk (k : Kernel) (l : List Nat) : Prop where
  ring : Ring (fun p => (k.procs p).next) (fun p => (k.procs p).prev) k.processQueue l
  pid_lt : ∀ p ∈ l, (k.procs p).pid < k.nextPid
  pid_inj : ∀ p ∈ l, ∀ q ∈ l, (k.procs p).pid = (k.procs q).pid → p = q
  alive_mem : ∀ p ∈ l, alive k.log (.process p) = true
  idle_mem : k.idle ∈ l

theorem RingOk.congr {k k' : Kernel} {l : List Nat} (h : RingOk k l) (hc : k'.core = k.core) :
    RingOk k' l where
  ring := by
    rw [core_processQueue hc]
    exact h.ring.congr (fun p _ => core_next hc p) fun p _ => core_prev hc p
  pid_lt p hp := by rw [core_pid hc, core_nextPid hc]; exact h.pid_lt p hp
  pid_inj p hp q hq e := by rw [core_pid hc, core_pid hc] at e; exact h.pid_inj p hp q hq e
  alive_mem p hp := by rw [core_alive hc rfl]; exact h.alive_mem p hp
  idle_mem := by rw [core_idle hc]; exact h.idle_mem

/-- There are no more processes than pids handed out. -/
theorem RingOk.length_le {k : Kernel} {l : List Nat} (h : RingOk k l) : l.length ≤ k.nextPid := by
  have hnd : (l.map fun p => (k.procs p).pid).Nodup :=
    h.ring.nodup.map_on fun p hp q hq e => h.pid_inj p hp q hq e
  have hsub : (l.map fun p => (k.procs p).pid) ⊆ range k.nextPid := fun n hn => by
    obtain ⟨p, hp, rfl⟩ := mem_map.mp hn
    exact mem_range.mpr (h.pid_lt p hp)
  have := (hnd.subperm hsub).length_le
  rwa [length_map, length_range] at this

theorem RingOk.ringCount_eq {k : Kernel} {l : List Nat} {h : Nat} (hr : RingOk k l)
    (hh : k.processQueue = some h) : k.ringCount h = l.length := by
  have hring := hr.ring
  rw [hh] at hring
  exact hring.lapCount_eq hr.length_le

/-- The processes in `process_queue`, from its head on. -/
def processes (k : Kernel) : List Nat :=
  match k.processQueue with
  | none => []
  | some node => walk (fun p => (k.procs p).next) (k.ringCount node) node

theorem RingOk.processes_eq {k : Kernel} {l : List Nat} (hr : RingOk k l) : k.processes = l := by
  obtain ⟨h, -, hh⟩ := hr.ring.head_of_mem hr.idle_mem
  have hring := hr.ring
  rw [hh] at hring
  unfold processes
  rw [hh]
  dsimp only
  rw [hr.ringCount_eq hh, hring.walk_eq]

/-- The ring and the queues, and what it takes to be on a queue. -/
structure Base (k : Kernel) (V : View) : Prop where
  ringOk : RingOk k V.ring
  links : Links k V
  tails : ∀ i, TailOk k V i
  ready_place : ∀ {i p}, p ∈ V.ready i →
    p ∈ V.ring ∧ p ≠ k.idle ∧ k.stateOf p = .ready ∧ (k.procs p).priority = i
  wait_place : ∀ {w p}, p ∈ V.waiting w → p ∈ V.ring ∧ p ≠ k.idle ∧ k.stateOf p = w.state
  idle_running : k.stateOf k.idle = .running

section Base

variable {k : Kernel} {V : View} {p : Nat} {w : WaitId}

theorem Base.not_ready (h : Base k V) (hs : k.stateOf p ≠ .ready) (i : Fin numQueues) :
    p ∉ V.ready i := fun hp => hs (h.ready_place hp).2.2.1

theorem Base.not_waiting (h : Base k V) (hs : ∀ w, k.stateOf p ≠ WaitId.state w) (w : WaitId) :
    p ∉ V.waiting w := fun hp => hs w (h.wait_place hp).2.2

theorem Base.ready_length (h : Base k V) (i : Fin numQueues) :
    (V.ready i).length ≤ k.nextPid := by
  have hsub : V.ready i ⊆ V.ring := fun p hp => (h.ready_place hp).1
  exact ((h.links.ready_chain i).nodup.subperm hsub).length_le.trans h.ringOk.length_le

theorem Base.wait_length (h : Base k V) (hw : w.Live k.log) :
    (V.waiting w).length ≤ k.nextPid := by
  have hsub : V.waiting w ⊆ V.ring := fun p hp => (h.wait_place hp).1
  exact ((h.links.wait_chain w hw).nodup.subperm hsub).length_le.trans h.ringOk.length_le

def readyQueue (k : Kernel) (i : Fin numQueues) : List Nat :=
  follow (fun p => (k.procs p).queueNext) k.nextPid (k.mlfq i).head

def waiters (k : Kernel) (w : WaitId) : List Nat :=
  follow (fun p => (k.procs p).waitNext) k.nextPid (k.waitq w).head

theorem Base.readyQueue_eq (h : Base k V) (i : Fin numQueues) : k.readyQueue i = V.ready i :=
  (h.links.ready_chain i).follow_eq (h.ready_length i)

theorem Base.waiters_eq (h : Base k V) (hw : w.Live k.log) : k.waiters w = V.waiting w :=
  (h.links.wait_chain w hw).follow_eq (h.wait_length hw)

end Base

open Classical in
/-- The processes of `S` have been put on their ready queues. -/
structure Moved (S : Set Nat) (k : Kernel) (V : View) (k' : Kernel) (V' : View) : Prop where
  base : Base k' V'
  core : k'.core = k.core
  current : k'.current = k.current
  yielding : k'.yielding = k.yielding
  ring : V'.ring = V.ring
  waiting : ∀ w p, p ∈ V'.waiting w ↔ p ∈ V.waiting w ∧ p ∉ S
  ready : ∀ i p, p ∈ V'.ready i ↔ p ∈ V.ready i ∨ p ∈ S ∧ (k.procs p).priority = i
  grows : ∀ i, V.ready i <+: V'.ready i
  state : ∀ p, k'.stateOf p = if p ∈ S then .ready else k.stateOf p
  priority : ∀ p, (k'.procs p).priority = (k.procs p).priority

/-- The processes of `S` have been put on their ready queues, and nothing else has
happened. -/
structure Woke (S : Set Nat) (k : Kernel) (V : View) (k' : Kernel) (V' : View) : Prop
    extends Moved S k V k' V' where
  rest : k'.rest = k.rest

section Woke

variable {S T : Set Nat} {k k' k'' : Kernel} {V V' V'' : View} {p : Nat} {w : WaitId}

theorem Moved.trans (h : Moved S k V k' V') (h' : Moved T k' V' k'' V'') :
    Moved (S ∪ T) k V k'' V'' where
  base := h'.base
  core := h'.core.trans h.core
  current := h'.current.trans h.current
  yielding := h'.yielding.trans h.yielding
  ring := h'.ring.trans h.ring
  waiting w p := by rw [h'.waiting, h.waiting]; simp only [Set.mem_union]; tauto
  ready i p := by
    rw [h'.ready, h.ready, h.priority]
    simp only [Set.mem_union]
    tauto
  grows i := (h.grows i).trans (h'.grows i)
  state p := by
    rw [h'.state, h.state]
    by_cases h1 : p ∈ S <;> by_cases h2 : p ∈ T <;> simp [h1, h2]
  priority p := (h'.priority p).trans (h.priority p)

/-- Nobody is put on a queue. -/
theorem Base.stay (h : Base k' V) (hc : k'.core = k.core) (hcur : k'.current = k.current)
    (hy : k'.yielding = k.yielding) (hs : ∀ p, k'.stateOf p = k.stateOf p)
    (hp : ∀ p, (k'.procs p).priority = (k.procs p).priority) : Moved ∅ k V k' V where
  base := h
  core := hc
  current := hcur
  yielding := hy
  ring := rfl
  waiting _ _ := by simp
  ready _ _ := by simp
  grows _ := prefix_rfl
  state p := by simp [hs]
  priority := hp

theorem Woke.refl (h : Base k V) : Woke ∅ k V k V :=
  ⟨h.stay rfl rfl rfl (fun _ => rfl) fun _ => rfl, rfl⟩

theorem Woke.trans (h : Woke S k V k' V') (h' : Woke T k' V' k'' V'') :
    Woke (S ∪ T) k V k'' V'' := ⟨h.toMoved.trans h'.toMoved, h'.rest.trans h.rest⟩

/-- `mlfq_enqueue` of a process that is on no queue. -/
theorem Base.enqueue (h : Base k V) (hr : p ∈ V.ring) (hi : p ≠ k.idle)
    (hd : k.stateOf p ≠ .dead) (hnr : ∀ i, p ∉ V.ready i) (hnw : ∀ w, p ∉ V.waiting w) :
    Woke {p} k V (k.mlfqEnqueue p) (V.enqueue (k.procs p).priority p) := by
  obtain ⟨hlinks, htails⟩ := h.links.enqueue (h.tails _) hd hnr
  have hframe := mlfqEnqueue_frame k p
  have hrest := mlfqEnqueue_rest k p
  have hstate := mlfqEnqueue_state hd
  have hidle := frame_idle hframe
  have hready : ∀ i q, q ∈ (V.enqueue (k.procs p).priority p).ready i ↔
      q ∈ V.ready i ∨ q ∈ ({p} : Set Nat) ∧ (k.procs q).priority = i := by
    intro i q
    rw [View.mem_enqueue, Set.mem_singleton_iff]
    constructor
    · rintro (hq | ⟨rfl, rfl⟩)
      · exact .inl hq
      · exact .inr ⟨rfl, rfl⟩
    · rintro (hq | ⟨rfl, rfl⟩)
      · exact .inl hq
      · exact .inr ⟨rfl, rfl⟩
  refine ⟨⟨⟨h.ringOk.congr (rest_core hrest), hlinks, fun i => htails i (h.tails i),
    fun {i q} hq => ?_, fun {w q} hq => ?_, ?_⟩, rest_core hrest, frame_current hframe,
    frame_yielding hframe, rfl, fun w q => ?_, hready, fun i => ?_, fun q => ?_,
    mlfqEnqueue_priority k p⟩, hrest⟩
  · rw [hidle, hstate, mlfqEnqueue_priority]
    rcases (hready i q).mp hq with hq | ⟨e, rfl⟩
    · have hne : q ≠ p := fun e => hnr i (e ▸ hq)
      rw [if_neg hne]
      exact h.ready_place hq
    · rw [Set.mem_singleton_iff.mp e, if_pos rfl]
      exact ⟨hr, hi, rfl, rfl⟩
  · have hne : q ≠ p := fun e => hnw w (e ▸ hq)
    rw [hidle, hstate, if_neg hne]
    exact h.wait_place hq
  · rw [hidle, hstate, if_neg (Ne.symm hi)]
    exact h.idle_running
  · show q ∈ V.waiting w ↔ _
    rw [Set.mem_singleton_iff]
    exact ⟨fun hq => ⟨hq, fun e => hnw w (e ▸ hq)⟩, And.left⟩
  · by_cases hj : i = (k.procs p).priority
    · subst hj; simp [View.enqueue]
    · simp [View.enqueue, hj]
  · simp only [hstate, Set.mem_singleton_iff]

/-- The first waiter of a queue is off it, and on no queue. -/
theorem Base.pop {l : List Nat} (h : Base k V) (hw : w.Live k.log) (hl : V.waiting w = p :: l) :
    Base (k.waitQueuePop w).1 (V.setWaiting w l) := by
  obtain ⟨-, hlinks, htails⟩ := h.links.pop_cons hw hl
  have hrest := waitQueuePop_rest k w
  have hstate : ∀ q, (k.waitQueuePop w).1.stateOf q = k.stateOf q :=
    fun q => waitQueuePop_proj Process.state (fun _ _ _ => rfl) k w q
  have hprio := waitQueuePop_proj Process.priority (fun _ _ _ => rfl) k w
  have hidle := rest_idle hrest
  refine ⟨h.ringOk.congr (rest_core hrest), hlinks, fun i => htails i (h.tails i),
    fun {i q} hq => ?_, fun {w' q} hq => ?_, ?_⟩
  · rw [hidle, hstate, hprio]
    exact h.ready_place hq
  · rw [hidle, hstate]
    refine h.wait_place ?_
    by_cases hww : w' = w
    · subst hww
      rw [View.setWaiting_same] at hq
      rw [hl]; exact mem_cons_of_mem _ hq
    · rwa [View.setWaiting_ne hww] at hq
  · rw [hidle, hstate]
    exact h.idle_running

/-- The first waiter of a queue is popped and enqueued. -/
theorem Base.pop_enqueue {l : List Nat} (h : Base k V) (hw : w.Live k.log)
    (hl : V.waiting w = p :: l) :
    ∃ V', Woke {p} k V ((k.waitQueuePop w).1.mlfqEnqueue p) V' ∧ V'.waiting w = l := by
  have hmem : p ∈ V.waiting w := by rw [hl]; exact mem_cons_self
  have hpl : p ∉ l := by
    have := (h.links.wait_chain w hw).nodup
    rw [hl] at this
    exact (nodup_cons.mp this).1
  obtain ⟨hr, hi, hs⟩ := h.wait_place hmem
  obtain ⟨hs1, -, -, hs4⟩ := w.state_ne
  have hpop := h.pop hw hl
  have hframe := waitQueuePop_waitFrame k w
  have hrest := waitQueuePop_rest k w
  have hstate : ∀ q, (k.waitQueuePop w).1.stateOf q = k.stateOf q :=
    fun q => waitQueuePop_proj Process.state (fun _ _ _ => rfl) k w q
  have hprio := waitQueuePop_proj Process.priority (fun _ _ _ => rfl) k w
  have hout : ∀ w', p ∉ (V.setWaiting w l).waiting w' := by
    intro w' hm
    by_cases hww : w' = w
    · subst hww
      rw [View.setWaiting_same] at hm
      exact hpl hm
    · rw [View.setWaiting_ne hww] at hm
      exact hww (h.links.wait_unique hm hmem)
  have henq := hpop.enqueue (p := p) hr (by rwa [rest_idle hrest])
    (by rw [hstate, hs]; exact hs4)
    (hpop.not_ready (by rw [hstate, hs]; exact hs1)) hout
  refine ⟨_, ⟨⟨henq.base, henq.core.trans (rest_core hrest),
    henq.current.trans (waitFrame_current hframe),
    henq.yielding.trans (waitFrame_yielding hframe), rfl, fun w' q => ?_, fun i q => ?_,
    henq.grows, fun q => ?_, fun q => (henq.priority q).trans (hprio q)⟩,
    henq.rest.trans hrest⟩, View.setWaiting_same⟩
  · rw [henq.waiting, Set.mem_singleton_iff]
    by_cases hww : w' = w
    · subst hww
      rw [View.setWaiting_same, hl, mem_cons]
      tauto
    · rw [View.setWaiting_ne hww]
  · rw [henq.ready, hprio]
    exact Iff.rfl
  · rw [henq.state, hstate]

theorem Base.wakeOne (h : Base k V) (hw : w.Live k.log) :
    ∃ S V', S ⊆ {p | p ∈ V.waiting w} ∧ Woke S k V (k.wakeOne w) V' := by
  cases hl : V.waiting w with
  | nil =>
    refine ⟨∅, V, Set.empty_subset _, ?_⟩
    unfold Kernel.wakeOne
    rw [h.links.pop_nil hw hl]
    exact .refl h
  | cons p l =>
    obtain ⟨V', hwoke, -⟩ := h.pop_enqueue hw hl
    refine ⟨{p}, V', by simp, ?_⟩
    unfold Kernel.wakeOne
    have hpop := (h.links.pop_cons hw hl).1
    rw [← Prod.mk.eta (p := k.waitQueuePop w), hpop]
    exact hwoke

/-- The loop of `wake_all` empties the queue if it takes enough turns. -/
theorem Base.wakeLoop {fuel : Nat} (h : Base k V) (hw : w.Live k.log)
    (hf : (V.waiting w).length ≤ fuel) :
    ∃ V', Woke {p | p ∈ V.waiting w} k V (Kernel.wakeLoop w fuel k) V' := by
  induction fuel generalizing k V with
  | zero =>
    have hl : V.waiting w = [] := length_eq_zero_iff.mp (Nat.le_zero.mp hf)
    refine ⟨V, ?_⟩
    rw [hl]
    simpa [Kernel.wakeLoop] using Woke.refl h
  | succ fuel ih =>
    unfold Kernel.wakeLoop
    cases hl : V.waiting w with
    | nil =>
      refine ⟨V, ?_⟩
      rw [h.links.pop_nil hw hl]
      simpa using Woke.refl h
    | cons p l =>
      obtain ⟨V₁, hwoke, hl₁⟩ := h.pop_enqueue hw hl
      have hpop := (h.links.pop_cons hw hl).1
      rw [← Prod.mk.eta (p := k.waitQueuePop w), hpop]
      rw [hl, length_cons] at hf
      obtain ⟨V₂, hwoke₂⟩ := ih hwoke.base (by rwa [rest_log hwoke.rest])
        (by rw [hl₁]; omega)
      refine ⟨V₂, ?_⟩
      have hall := hwoke.trans hwoke₂
      rw [hl₁] at hall
      convert hall using 1
      ext q
      simp

theorem Base.wakeAll (h : Base k V) (hw : w.Live k.log) :
    ∃ V', Woke {p | p ∈ V.waiting w} k V (k.wakeAll w) V' :=
  h.wakeLoop hw (h.wait_length hw)

end Woke

/-! ## `wake_blocked_processes` and `reap_zombies` -/

section Ring

variable {k : Kernel} {V : View} {self p : Nat}

/-- The loop is a fold over the nodes it meets, since the ring stays as it is. -/
theorem wakeBlockedLoop_eq (self n node : Nat) (k : Kernel) :
    wakeBlockedLoop self n k node =
      (walk (fun p => (k.procs p).next) n node).foldl (fun k cand =>
        if cand ≠ self ∧ k.stateOf cand = .blocked then k.mlfqEnqueue cand else k) k := by
  induction n generalizing k node with
  | zero => rfl
  | succ n ih =>
    rw [wakeBlockedLoop, walk, foldl_cons]
    split
    · rw [ih]
      congr 1
      exact congrArg (fun f => walk f n _)
        (funext fun p => core_next (rest_core (mlfqEnqueue_rest k node)) p)
    · rw [ih]

/-- The fold wakes the blocked processes it meets. -/
theorem Base.wakeBlocked (h : Base k V) (l : List Nat) (hl : ∀ p ∈ l, p ∈ V.ring) (self : Nat) :
    ∃ V', Woke {p | p ∈ l ∧ p ≠ self ∧ k.stateOf p = .blocked} k V
      (l.foldl (fun k cand =>
        if cand ≠ self ∧ k.stateOf cand = .blocked then k.mlfqEnqueue cand else k) k) V' := by
  induction l generalizing k V with
  | nil => exact ⟨V, by simpa using Woke.refl h⟩
  | cons a l ih =>
    rw [foldl_cons]
    have hrest : ∀ p ∈ l, p ∈ V.ring := fun p hp => hl p (mem_cons_of_mem _ hp)
    split
    next hc =>
      have hb : ∀ w, k.stateOf a ≠ WaitId.state w := fun w e => by
        rw [hc.2] at e
        exact w.state_ne.2.2.1 e.symm
      have hi : a ≠ k.idle := fun e => by
        have := h.idle_running
        rw [← e, hc.2] at this
        cases this
      have hwoke := h.enqueue (hl a mem_cons_self) hi (by rw [hc.2]; decide)
        (h.not_ready (by rw [hc.2]; decide)) (h.not_waiting hb)
      obtain ⟨V', hwoke'⟩ := ih hwoke.base (by rwa [hwoke.ring])
      refine ⟨V', ?_⟩
      convert hwoke.trans hwoke' using 1
      ext p
      simp only [Set.mem_ofPred_eq, mem_cons, Set.mem_union, Set.mem_singleton_iff,
        hwoke.state]
      by_cases hpa : p = a
      · subst hpa; simp [hc]
      · simp [hpa]
    next hc =>
      obtain ⟨V', hwoke'⟩ := ih h hrest
      refine ⟨V', ?_⟩
      convert hwoke' using 1
      ext p
      simp only [Set.mem_ofPred_eq, mem_cons]
      constructor
      · rintro ⟨rfl | hp, hs⟩
        · exact absurd hs hc
        · exact ⟨hp, hs⟩
      · exact fun ⟨hp, hs⟩ => ⟨.inr hp, hs⟩

theorem Base.wakeBlockedProcesses (h : Base k V) (self : Nat) :
    ∃ V', Woke {p | p ∈ V.ring ∧ p ≠ self ∧ k.stateOf p = .blocked} k V
      (k.wakeBlockedProcesses self) V' := by
  obtain ⟨node, -, hnode⟩ := h.ringOk.ring.head_of_mem h.ringOk.idle_mem
  have hring := h.ringOk.ring
  rw [hnode] at hring
  unfold Kernel.wakeBlockedProcesses
  rw [hnode]
  dsimp only
  rw [wakeBlockedLoop_eq, h.ringOk.ringCount_eq hnode, hring.walk_eq]
  exact h.wakeBlocked V.ring (fun _ hp => hp) self

/-- The sweep leaves the kernel alone if nobody it meets is to be reaped. -/
theorem reapLoop_eq {l : List Nat} {n node : Nat} (hl : RingOk k l) (hn : node ∈ l)
    (hkeep : ∀ p ∈ l, k.stateOf p ≠ .dead ∨ p = k.current ∨ (k.procs p).parent ≠ none) :
    reapLoop n k node = k := by
  induction n generalizing node with
  | zero => rfl
  | succ n ih =>
    rw [reapLoop, if_pos (hkeep node hn)]
    exact ih (hl.ring.next_mem hn)

theorem reapZombies_eq {l : List Nat} (hl : RingOk k l)
    (hkeep : ∀ p ∈ l, k.stateOf p ≠ .dead ∨ p = k.current ∨ (k.procs p).parent ≠ none) :
    k.reapZombies = k := by
  obtain ⟨node, hn, hnode⟩ := hl.ring.head_of_mem hl.idle_mem
  unfold reapZombies
  rw [hnode]
  exact reapLoop_eq hl hn hkeep

end Ring

end Kernel

end Aeryk
