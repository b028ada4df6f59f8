import Aeryk.Proc.Mlfq
import Aeryk.Proc.Queues

/-!
# One call of `schedule`

What `mlfq_pick_next` and `mlfq_boost_all` do to the view, and what `schedule_locked` does as a
whole (`Scheduled`).  `Rises` are the processes that it puts on their ready queues before it picks
one: the blocked ones, and the current process if it is still running.
-/

namespace Aeryk

open List Function Lib

def View.Queued (V : View) (p : Nat) : Prop := (∃ i, p ∈ V.ready i) ∨ ∃ w, p ∈ V.waiting w

/-- What the queues need to know of a process. -/
def Process.sched (x : Process) : Option Nat × Option Nat × ProcessState :=
  (x.queueNext, x.waitNext, x.state)

/-- A ready queue is moved to the end of the first one. -/
def View.boost (V : View) (i : Fin numQueues) : View :=
  { V with ready := fun j =>
      if j = 0 then V.ready 0 ++ V.ready i else if j = i then [] else V.ready j }

theorem View.mem_boost {V : View} {i : Fin numQueues} (hi : i ≠ 0) (p : Nat) (j : Fin numQueues) :
    p ∈ (V.boost i).ready j ↔ p ∈ V.ready j ∧ j ≠ i ∨ p ∈ V.ready i ∧ j = 0 := by
  simp only [View.boost]
  grind

namespace Kernel

section Congr

variable {k k' : Kernel} {V : View} {p : Nat}

/-- The queues depend on the processes on them, on their own pointers and on which pipes there are.
-/
theorem Base.congrRing {l : List Nat} (h : Base k V) (hring : RingOk k' l)
    (hsub : ∀ p, V.Queued p → p ∈ l) (hi : k'.idle = k.idle) (hq : k'.mlfq = k.mlfq)
    (hw : ∀ w, w.Live k'.log →
      w.Live k.log ∧ k'.waitq w = k.waitq w ∨ k'.waitq w = .empty ∧ V.waiting w = [])
    (hn : ∀ w, ¬w.Live k'.log → V.waiting w = [])
    (hp : ∀ p, V.Queued p ∨ p = k.idle → (k'.procs p).sched = (k.procs p).sched)
    (hprio : ∀ i, ∀ p ∈ V.ready i, (k'.procs p).priority = (k.procs p).priority) :
    Base k' { V with ring := l } := by
  have hready : ∀ {i p}, p ∈ V.ready i → (k'.procs p).sched = (k.procs p).sched :=
    fun hm => hp _ (.inl (.inl ⟨_, hm⟩))
  have hwait : ∀ {w p}, p ∈ V.waiting w → (k'.procs p).sched = (k.procs p).sched :=
    fun hm => hp _ (.inl (.inr ⟨_, hm⟩))
  refine ⟨hring, ⟨fun i => ?_, h.links.ready_unique, fun w hl => ?_, fun w hl => ?_, hn,
    h.links.wait_unique⟩, fun i => ?_, fun {i p} hm => ?_, fun {w p} hm => ?_, ?_⟩
  · rw [hq]
    exact (h.links.ready_chain i).congr fun p hm => (congrArg Prod.fst (hready hm) :)
  · rcases hw w hl with ⟨hl', e⟩ | ⟨e, hnil⟩
    · rw [e]
      exact (h.links.wait_chain w hl').congr fun p hm =>
        (congrArg (fun x => x.2.1) (hwait hm) :)
    · rw [e, hnil]
      rfl
  · rcases hw w hl with ⟨hl', e⟩ | ⟨e, hnil⟩
    · rw [e]
      exact h.links.wait_tail w hl'
    · rw [e, hnil]
      rfl
  · unfold TailOk
    rw [hq]
    exact h.tails i
  · obtain ⟨-, h2, h3, h4⟩ := h.ready_place hm
    have hs := (congrArg (fun x => x.2.2) (hready hm) :)
    exact ⟨hsub p (.inl ⟨i, hm⟩), hi ▸ h2, hs.trans h3, (hprio i p hm).trans h4⟩
  · obtain ⟨-, h2, h3⟩ := h.wait_place hm
    have hs := (congrArg (fun x => x.2.2) (hwait hm) :)
    exact ⟨hsub p (.inr ⟨w, hm⟩), hi ▸ h2, hs.trans h3⟩
  · rw [hi]
    exact (congrArg (fun x => x.2.2) (hp k.idle (.inr rfl)) :).trans h.idle_running

theorem Base.queued_mem (h : Base k V) (hq : V.Queued p) : p ∈ V.ring := by
  rcases hq with ⟨i, hm⟩ | ⟨w, hm⟩
  · exact (h.ready_place hm).1
  · exact (h.wait_place hm).1

/-- The special case of a ring that stays as it is. -/
theorem Base.congr (h : Base k V) (hring : RingOk k' V.ring) (hi : k'.idle = k.idle)
    (hq : k'.mlfq = k.mlfq)
    (hw : ∀ w, w.Live k'.log →
      w.Live k.log ∧ k'.waitq w = k.waitq w ∨ k'.waitq w = .empty ∧ V.waiting w = [])
    (hn : ∀ w, ¬w.Live k'.log → V.waiting w = [])
    (hp : ∀ p, V.Queued p ∨ p = k.idle → (k'.procs p).sched = (k.procs p).sched)
    (hprio : ∀ i, ∀ p ∈ V.ready i, (k'.procs p).priority = (k.procs p).priority) :
    Base k' V :=
  h.congrRing hring (fun _ hq => h.queued_mem hq) hi hq hw hn hp hprio

/-- The special case of an operation of the scheduler. -/
theorem Base.same (h : Base k V) (hr : k'.rest = k.rest) (hq : k'.mlfq = k.mlfq)
    (hw : ∀ w, k'.waitq w = k.waitq w)
    (hp : ∀ p, V.Queued p ∨ p = k.idle → (k'.procs p).sched = (k.procs p).sched)
    (hprio : ∀ i, ∀ p ∈ V.ready i, (k'.procs p).priority = (k.procs p).priority) :
    Base k' V :=
  h.congr (h.ringOk.congr (rest_core hr)) (rest_idle hr) hq
    (fun w hl => .inl ⟨by rwa [rest_log hr] at hl, hw w⟩)
    (fun w hl => h.links.wait_none w (by rwa [rest_log hr] at hl)) hp hprio

/-- A process that is on no queue may change as it likes, as long as the ring does not. -/
theorem Base.modify {f : Process → Process} (h : Base k V) (hring : RingOk (k.modify p f) V.ring)
    (hq : ¬V.Queued p) (hi : p ≠ k.idle) : Base (k.modify p f) V := by
  have hne : ∀ q, V.Queued q ∨ q = k.idle → q ≠ p := by
    rintro q hm rfl
    rcases hm with hm | hm
    · exact hq hm
    · exact hi hm
  refine h.congr hring rfl rfl (fun w hl => .inl ⟨hl, modify_waitq w⟩) h.links.wait_none
    (fun q hm => ?_) fun i q hm => ?_
  · rw [modify_ne (hne q hm)]
  · rw [modify_ne (hne q (.inl (.inl ⟨i, hm⟩)))]

/-- A store that leaves the ring's fields alone. -/
theorem RingOk.modify {f : Process → Process} {l : List Nat} (h : RingOk k l)
    (hn : (f (k.procs p)).next = (k.procs p).next) (hp : (f (k.procs p)).prev = (k.procs p).prev)
    (hpid : (f (k.procs p)).pid = (k.procs p).pid) : RingOk (k.modify p f) l where
  ring := h.ring.congr (fun _ _ => modify_proj Process.next hn) fun _ _ => modify_proj _ hp
  pid_lt q hq := by rw [modify_proj Process.pid hpid]; exact h.pid_lt q hq
  pid_inj q hq r hr e := by
    rw [modify_proj Process.pid hpid, modify_proj Process.pid hpid] at e
    exact h.pid_inj q hq r hr e
  alive_mem := h.alive_mem
  idle_mem := h.idle_mem

end Congr

/-! ## `mlfq_pick_next` -/

section Pick

variable {k : Kernel} {V : View} {p : Nat} {i : Fin numQueues} {l : List Nat}

theorem Base.takeHead (h : Base k V) (hl : V.ready i = p :: l) :
    Base (k.takeHead i p) (V.setReady i l) := by
  obtain ⟨hlinks, htails⟩ := h.links.takeHead hl
  have hrest := takeHead_rest k i p
  have hprio := takeHead_proj Process.priority (fun _ _ _ => rfl) k i p
  refine ⟨h.ringOk.congr (rest_core hrest), hlinks, fun j => htails j (h.tails j),
    fun {j q} hq => ?_, fun {w q} hq => ?_, ?_⟩
  · rw [rest_idle hrest, takeHead_state, hprio]
    refine h.ready_place ?_
    have hother := V.setReady_ne (i := i) (j := j) (l := l)
    grind [View.setReady_same]
  · rw [rest_idle hrest, takeHead_state]
    exact h.wait_place hq
  · rw [rest_idle hrest, takeHead_state]
    exact h.idle_running

/-- The process that is taken is on no queue any more, and nobody else moves. -/
theorem Base.mem_takeHead (h : Base k V) (hl : V.ready i = p :: l) (q : Nat) (j : Fin numQueues) :
    q ∈ (V.setReady i l).ready j ↔ q ∈ V.ready j ∧ q ≠ p := by
  have hnd := (h.links.ready_chain i).nodup
  rw [hl, nodup_cons] at hnd
  have hunique := h.links.ready_unique (i := j) (j := i) (p := p)
  have hother := V.setReady_ne (i := i) (j := j) (l := l)
  grind [View.setReady_same]

end Pick

/-! ## `schedule_locked` -/

/-- The processes that `schedule_locked` puts on their ready queues. -/
def Rises (k : Kernel) (V : View) : Set Nat :=
  {p | p ∈ V.ring ∧ (p ≠ k.current ∧ k.stateOf p = .blocked ∨
    p = k.current ∧ k.stateOf p = .running ∧ p ≠ k.idle)}

/-- The processes `mlfq_pick_next` chooses from. -/
def Candidate (k : Kernel) (V : View) (p : Nat) : Prop := (∃ i, p ∈ V.ready i) ∨ p ∈ Rises k V

open Classical in
/-- What a call of `schedule_locked` does. -/
structure Scheduled (k : Kernel) (V : View) (k' : Kernel) (V' : View) : Prop where
  base : Base k' V'
  rest : k'.rest = k.rest
  yielding : k'.yielding = k.yielding
  ring : V'.ring = V.ring
  current_mem : k'.current ∈ V.ring
  waiting : ∀ w p, p ∈ V'.waiting w ↔ p ∈ V.waiting w
  ready : ∀ i p, p ∈ V'.ready i ↔
    p ≠ k'.current ∧ (p ∈ V.ready i ∨ p ∈ Rises k V ∧ (k.procs p).priority = i)
  state : ∀ p, k'.stateOf p =
    if p = k'.current ∧ p ≠ k.current then .running
    else if p ∈ Rises k V then .ready else k.stateOf p
  least : k'.current ≠ k.idle → Candidate k V k'.current ∧
    ∀ p, Candidate k V p → (k.procs k'.current).priority ≤ (k.procs p).priority
  idle : k'.current = k.idle → ∀ p, ¬Candidate k V p
  head : ∀ {p l}, k'.current ≠ k.idle →
    V.ready (k.procs k'.current).priority = p :: l → k'.current = p
  last : k'.current = k.current → k.current ≠ k.idle → k.stateOf k.current = .running →
    ∀ p, Candidate k V p → p ≠ k.current →
      (k.procs k.current).priority < (k.procs p).priority

section Schedule

variable {k : Kernel} {V : View} {p : Nat}

theorem setState_rest {s : ProcessState} (hs : s ≠ .dead) (hp : k.stateOf p ≠ .dead) :
    (k.setState p s).rest = k.rest := by
  refine frame_rest modify_frame fun q => modify_proj Process.rest ?_
  simp only [Process.rest, if_neg hs]
  rw [if_neg (show (k.procs p).state ≠ .dead from hp)]

theorem setState_stateOf (s : ProcessState) (q : Nat) :
    (k.setState p s).stateOf q = if q = p then s else k.stateOf q := by
  unfold stateOf setState
  split
  next h => subst h; rw [modify_same]
  next h => rw [modify_ne h]

theorem Base.not_rises_waiting (h : Base k V) {w : WaitId} (hw : p ∈ V.waiting w) :
    p ∉ Rises k V := by
  obtain ⟨-, hs⟩ := (h.wait_place hw).2
  obtain ⟨-, h2, h3, -⟩ := w.state_ne
  rintro ⟨-, ⟨-, hb⟩ | ⟨-, hr, -⟩⟩
  · exact h3 (hs.symm.trans hb)
  · exact h2 (hs.symm.trans hr)

/-- `schedule_locked` before it picks: a current process that still runs comes last in its queue.
-/
theorem Base.requeue (h : Base k V) (hc : k.current ∈ V.ring)
    (hkeep : ∀ p ∈ V.ring, k.stateOf p ≠ .dead ∨ p = k.current ∨ (k.procs p).parent ≠ none) :
    ∃ V', Woke (Rises k V) k V k.requeue V' ∧
      (k.stateOf k.current = .running → k.current ≠ k.idle →
        ∃ l, V'.ready (k.procs k.current).priority = l ++ [k.current] ∧
          ∀ p, Candidate k V p → p ≠ k.current →
            (k.procs p).priority = (k.procs k.current).priority → p ∈ l) := by
  obtain ⟨V₁, h₁⟩ := h.wakeBlockedProcesses k.current
  have hcur : k.current ∉ {p | p ∈ V.ring ∧ p ≠ k.current ∧ k.stateOf p = .blocked} :=
    fun hm => hm.2.1 rfl
  have hs₁ : (k.wakeBlockedProcesses k.current).stateOf k.current = k.stateOf k.current := by
    rw [h₁.state, if_neg hcur]
  unfold Kernel.requeue
  dsimp only
  rw [reapZombies_eq h.ringOk hkeep, hs₁, rest_idle h₁.rest]
  split
  next hrun =>
    have hq : ∀ i, k.current ∉ V₁.ready i := h₁.base.not_ready (by rw [hs₁, hrun.1]; decide)
    have hnw : ∀ w, k.current ∉ V₁.waiting w := h₁.base.not_waiting fun w => by
      rw [hs₁, hrun.1]
      exact w.state_ne.2.1.symm
    have h₂ := h₁.base.enqueue (p := k.current) (by rwa [h₁.ring])
      (by rw [rest_idle h₁.rest]; exact hrun.2) (by rw [hs₁, hrun.1]; decide) hq hnw
    have hset : {p | p ∈ V.ring ∧ p ≠ k.current ∧ k.stateOf p = .blocked} ∪ {k.current} =
        Rises k V := by
      ext p
      simp only [Rises, Set.mem_union, Set.mem_ofPred_eq, Set.mem_singleton_iff]
      grind
    refine ⟨_, hset ▸ h₁.trans h₂, fun _ _ => ⟨V₁.ready (k.procs k.current).priority, ?_,
      fun p hp hne hprio => ?_⟩⟩
    · rw [h₁.priority]
      exact update_self ..
    · rw [h₁.ready]
      rcases hp with ⟨i, hi⟩ | ⟨hr, hp⟩
      · rw [← (h.ready_place hi).2.2.2, hprio] at hi
        exact .inl hi
      · refine .inr ⟨⟨hr, hne, ?_⟩, hprio⟩
        rcases hp with hp | hp
        · exact hp.2
        · exact absurd hp.1 hne
  next hrun =>
    have hset : {p | p ∈ V.ring ∧ p ≠ k.current ∧ k.stateOf p = .blocked} = Rises k V := by
      ext p
      simp only [Rises, Set.mem_ofPred_eq]
      grind
    exact ⟨V₁, hset ▸ h₁, fun h1 h2 => absurd ⟨h1, h2⟩ hrun⟩

/-- A process that is on no queue, or the idle process, becomes the current one. -/
theorem Base.switch (h : Base k V) (hq : ¬V.Queued p) (hd : k.stateOf p ≠ .dead) :
    Base (k.switchTo p) V ∧ (k.switchTo p).rest = k.rest := by
  have hrest : (k.switchTo p).rest = k.rest := setState_rest (by decide) hd
  refine ⟨h.same hrest rfl (fun w => by cases w <;> rfl) (fun q hm => ?_) fun i q _ => ?_, hrest⟩
  · unfold switchTo setState
    by_cases hqp : q = p
    · subst hqp
      have hi : q = k.idle := hm.resolve_left hq
      have hrun : (k.procs q).state = .running := hi ▸ h.idle_running
      rw [modify_same]
      simp only [Process.sched, hrun]
    · rw [modify_ne hqp]
  · unfold switchTo setState
    rw [modify_proj Process.priority rfl]

theorem switchTo_stateOf (q : Nat) :
    (k.switchTo p).stateOf q = if q = p then .running else k.stateOf q :=
  setState_stateOf .running q

/-- `schedule_locked` goes on with `p`, whether or not it has to switch. -/
theorem Base.land {c : Nat} (h : Base k V) (hc : k.current = c) (hq : ¬V.Queued p)
    (hd : k.stateOf p ≠ .dead) :
    let k' := if c = p then k else k.switchTo p
    Base k' V ∧ k'.rest = k.rest ∧ k'.yielding = k.yielding ∧ k'.current = p ∧
      ∀ q, k'.stateOf q = if q = p ∧ q ≠ c then .running else k.stateOf q := by
  obtain ⟨hb, hr⟩ := h.switch hq hd
  dsimp only
  split
  next heq =>
    exact ⟨h, rfl, rfl, hc.trans heq, fun q => (if_neg fun hp => hp.2 (hp.1.trans heq.symm)).symm⟩
  next hne =>
    refine ⟨hb, hr, rfl, rfl, fun q => ?_⟩
    rw [switchTo_stateOf]
    grind

section Woken

variable {k₁ : Kernel} {V₁ : View} (h : Base k V) (hw : Woke (Rises k V) k V k₁ V₁)

include h hw

theorem Woke.candidate (p : Nat) (hp : Candidate k V p) : p ∈ V₁.ready (k.procs p).priority := by
  rw [hw.ready]
  rcases hp with ⟨i, hi⟩ | hp
  · rw [(h.ready_place hi).2.2.2]
    exact .inl hi
  · exact .inr ⟨hp, rfl⟩

theorem Woke.candidate_of_mem {i : Fin numQueues} (hp : p ∈ V₁.ready i) :
    Candidate k V p ∧ (k.procs p).priority = i := by
  rcases (hw.ready i p).mp hp with hi | hp
  · exact ⟨.inl ⟨i, hi⟩, (h.ready_place hi).2.2.2⟩
  · exact ⟨.inr hp.1, hp.2⟩

theorem Woke.waiting_iff (w : WaitId) (p : Nat) : p ∈ V₁.waiting w ↔ p ∈ V.waiting w := by
  rw [hw.waiting]
  exact ⟨And.left, fun hm => ⟨hm, h.not_rises_waiting hm⟩⟩

/-- `mlfq_pick_next` finds nobody. -/
theorem Woke.scheduled_idle (hnil : ∀ i, V₁.ready i = []) :
    Scheduled k V (if k.current = k.idle then k₁ else k₁.switchTo k.idle) V₁ := by
  have hnone : ∀ p, ¬Candidate k V p := fun p hp => by
    have := Woke.candidate h hw p hp
    rw [hnil] at this
    cases this
  have hidle := rest_idle hw.rest
  have hrun : k₁.stateOf k.idle = .running := hidle ▸ hw.base.idle_running
  obtain ⟨hb, hr, hy, hcur, hstate⟩ := hw.base.land (p := k.idle) hw.current
    (by rintro (⟨i, hi⟩ | ⟨w, hm⟩)
        · rw [hnil] at hi; cases hi
        · exact (hw.base.wait_place hm).2.1 hidle.symm)
    (by rw [hrun]; decide)
  generalize (if k.current = k.idle then k₁ else k₁.switchTo k.idle) = k₂ at *
  have hready : ∀ c i p, p ∈ V₁.ready i ↔
      p ≠ c ∧ (p ∈ V.ready i ∨ p ∈ Rises k V ∧ (k.procs p).priority = i) := fun c i p => by
    rw [hnil]
    refine ⟨fun hm => (not_mem_nil hm).elim, fun hm => (hnone p ?_).elim⟩
    rcases hm.2 with hm | hm
    · exact .inl ⟨i, hm⟩
    · exact .inr hm.1
  exact {
    base := hb
    rest := hr.trans hw.rest
    yielding := hy.trans hw.yielding
    ring := hw.ring
    current_mem := hcur ▸ h.ringOk.idle_mem
    waiting := Woke.waiting_iff h hw
    ready := hready _
    state := fun p => by rw [hstate, hcur, hw.state]
    least := fun hne => absurd hcur hne
    idle := fun _ => hnone
    head := fun hne => absurd hcur hne
    last := fun e hne => absurd (e.symm.trans hcur) hne }

/-- `mlfq_pick_next` finds a process. -/
theorem Woke.scheduled_pick {i : Fin numQueues} {l : List Nat} (hnil : ∀ j < i, V₁.ready j = [])
    (hl : V₁.ready i = p :: l)
    (hlast : k.stateOf k.current = .running → k.current ≠ k.idle →
      ∃ l, V₁.ready (k.procs k.current).priority = l ++ [k.current] ∧
        ∀ p, Candidate k V p → p ≠ k.current →
          (k.procs p).priority = (k.procs k.current).priority → p ∈ l) :
    Scheduled k V (if k.current = p then k₁.takeHead i p else
      (k₁.takeHead i p).switchTo p) (V₁.setReady i l) := by
  have hpm : p ∈ V₁.ready i := by rw [hl]; exact mem_cons_self
  obtain ⟨hpring, hpidle, hpstate, -⟩ := hw.base.ready_place hpm
  obtain ⟨hpcand, hprio⟩ := Woke.candidate_of_mem h hw hpm
  rw [rest_idle hw.rest] at hpidle
  have hb₂ := hw.base.takeHead hl
  have hr₂ := takeHead_rest k₁ i p
  have hready : ∀ j q, q ∈ (V₁.setReady i l).ready j ↔
      q ≠ p ∧ (q ∈ V.ready j ∨ q ∈ Rises k V ∧ (k.procs q).priority = j) := fun j q => by
    rw [hw.base.mem_takeHead hl, hw.ready]
    exact And.comm
  have hleast : ∀ q, Candidate k V q → (k.procs p).priority ≤ (k.procs q).priority :=
    fun q hq => by
      by_contra hlt
      have hm := Woke.candidate h hw q hq
      rw [hnil _ (by rw [hprio] at hlt; exact not_le.mp hlt)] at hm
      cases hm
  have hhead : ∀ {p' l'}, V.ready (k.procs p).priority = p' :: l' → p = p' := fun {p' l'} he => by
    have hpre := hw.grows i
    rw [hprio] at he
    rw [he, hl] at hpre
    exact (cons_prefix_cons.mp hpre).1.symm
  have hstrict : p = k.current → k.stateOf k.current = .running → ∀ q, Candidate k V q →
      q ≠ k.current → (k.procs k.current).priority < (k.procs q).priority := by
    intro hpc hrun q hq hne
    obtain ⟨l', hl', hmem⟩ := hlast hrun (hpc ▸ hpidle)
    refine lt_of_le_of_ne (hpc ▸ hleast q hq) fun e => ?_
    have hnd := (hw.base.links.ready_chain i).nodup
    have hq' := hmem q hq hne e.symm
    -- the queue starts and ends with the current process, so nobody else is on it
    rw [← hpc, hprio] at hl'
    rw [hl'] at hl hnd
    cases l' with
    | nil => cases hq'
    | cons a l' =>
      obtain rfl : a = p := (cons.inj hl).1
      simp at hnd
  have hwait : ∀ w q, q ∈ (V₁.setReady i l).waiting w ↔ q ∈ V.waiting w :=
    fun w q => (Woke.waiting_iff h hw w q :)
  have hnq : ¬(V₁.setReady i l).Queued p := by
    rintro (⟨j, hj⟩ | ⟨w, hm⟩)
    · exact ((hready j p).mp hj).1 rfl
    · have := (hw.base.wait_place hm).2.2
      exact w.state_ne.1 (this.symm.trans hpstate)
  obtain ⟨hb₃, hr₃, hy, hcur, hstate⟩ := hb₂.land (c := k.current)
    ((frame_current (takeHead_frame k₁ i p)).trans hw.current) hnq
    (by rw [takeHead_state, hpstate]; decide)
  generalize (if k.current = p then k₁.takeHead i p else
    (k₁.takeHead i p).switchTo p) = k₂ at *
  exact {
    base := hb₃
    rest := hr₃.trans (hr₂.trans hw.rest)
    yielding := hy.trans ((frame_yielding (takeHead_frame k₁ i p)).trans hw.yielding)
    ring := hw.ring
    current_mem := by rw [hcur, ← hw.ring]; exact hpring
    waiting := hwait
    ready := by rw [hcur]; exact hready
    state := fun q => by rw [hstate, hcur, takeHead_state, hw.state]
    least := fun _ => by rw [hcur]; exact ⟨hpcand, hleast⟩
    idle := fun he => absurd (hcur.symm.trans he) hpidle
    head := fun _ he => by rw [hcur] at he ⊢; exact hhead he
    last := fun e _ hrun => hstrict (hcur.symm.trans e) hrun }

end Woken

theorem Base.scheduleLocked (h : Base k V) (hc : k.current ∈ V.ring)
    (hkeep : ∀ p ∈ V.ring, k.stateOf p ≠ .dead ∨ p = k.current ∨ (k.procs p).parent ≠ none) :
    ∃ V', Scheduled k V k.scheduleLocked V' := by
  obtain ⟨V₁, hw, hlast⟩ := h.requeue hc hkeep
  unfold Kernel.scheduleLocked
  rcases mlfqPickNext_spec hw.base.links.spells with ⟨he, hnil⟩ | ⟨i, p, l, hnil, hl, he⟩
  · rw [he]
    exact ⟨_, Woke.scheduled_idle h hw hnil⟩
  · rw [he]
    exact ⟨_, Woke.scheduled_pick h hw hnil hl hlast⟩

end Schedule

/-! ## `mlfq_boost_all` -/

section Boost

variable {k : Kernel} {V : View} {i : Fin numQueues}

/-- What moving a ready queue to the end of the first one does to the processes. -/
structure Boosted (S : Set Nat) (k k' : Kernel) : Prop where
  frame : k'.frame = k.frame
  rest : ∀ p, (k'.procs p).rest = (k.procs p).rest
  state : ∀ p, k'.stateOf p = k.stateOf p
  waitNext : ∀ p, (k'.procs p).waitNext = (k.procs p).waitNext
  priority : ∀ p, p ∈ S → (k'.procs p).priority = 0
  priority_out : ∀ p, p ∉ S → (k'.procs p).priority = (k.procs p).priority

/-- One turn of the outer loop of `mlfq_boost_all`. -/
theorem Base.boostQueue (h : Base k V) (hi : i ≠ 0) :
    Base (k.boostQueue i) (V.boost i) ∧ Boosted {p | p ∈ V.ready i} k (k.boostQueue i) := by
  let m : Mlfq := ⟨V.ready, k.stateOf, fun p => (k.procs p).priority,
    fun p => (k.procs p).ticksExecuted⟩
  have hrep : Represents k m :=
    ⟨⟨h.links.spells, fun _ => rfl, fun _ => rfl, fun _ => rfl⟩, h.tails⟩
  obtain ⟨⟨hspells, hstate, hprio, -⟩, htails⟩ := hrep.boostQueue hi (h.ready_length i)
  -- nobody on a ready queue is dead
  have hliving : m.living (m.lists i) = V.ready i :=
    filter_eq_self.mpr fun p hp => by simp [m, (h.ready_place hp).2.2.1]
  have hlists : (m.level i).lists = (V.boost i).ready := by
    funext j
    rw [Mlfq.level, hliving]
    rfl
  rw [hlists] at hspells
  obtain ⟨hframe, hkeeps⟩ := boostLoop_keeps i k.nextPid k
  have hb' : Boosted {p | p ∈ V.ready i} k (k.boostQueue i) := by
    refine ⟨hframe, fun p => (hkeeps p).1, fun p => ?_, fun p => (hkeeps p).2,
      fun p hp => (hprio p).trans (if_pos hp), fun p hp => (hprio p).trans (if_neg hp)⟩
    rw [hstate p, Mlfq.level, hliving]
    dsimp only
    split
    next hm => exact (h.ready_place hm).2.2.1.symm
    · rfl
  have hrest := frame_rest hb'.frame hb'.rest
  refine ⟨⟨h.ringOk.congr (rest_core hrest), h.links.of_ready hspells rfl hframe hb'.waitNext,
    fun j => ?_, fun {j p} hm => ?_, fun {w p} hm => ?_, ?_⟩, hb'⟩
  · unfold TailOk
    rw [← hlists]
    exact htails j
  · rw [rest_idle hrest, hb'.state]
    rcases (View.mem_boost hi p j).mp hm with ⟨hj, hne⟩ | ⟨hm', rfl⟩
    · have hout : p ∉ V.ready i := fun hi' => hne (h.links.ready_unique hj hi')
      rw [hb'.priority_out p hout]
      exact h.ready_place hj
    · rw [hb'.priority p hm']
      obtain ⟨h1, h2, h3, -⟩ := h.ready_place hm'
      exact ⟨h1, h2, h3, rfl⟩
  · rw [rest_idle hrest, hb'.state]
    exact h.wait_place hm
  · rw [rest_idle hrest, hb'.state]
    exact h.idle_running

/-- What happens to the kernel on a tick before `schedule` is called, if it is. -/
structure Ticked (k : Kernel) (V : View) (k' : Kernel) (V' : View) : Prop where
  base : Base k' V'
  rest : k'.rest = k.rest
  current : k'.current = k.current
  yielding : k'.yielding = k.yielding
  ring : V'.ring = V.ring
  waiting : V'.waiting = V.waiting
  ready : ∀ p, (∃ i, p ∈ V'.ready i) ↔ ∃ i, p ∈ V.ready i
  state : ∀ p, k'.stateOf p = k.stateOf p

theorem Ticked.refl (h : Base k V) : Ticked k V k V :=
  ⟨h, rfl, rfl, rfl, rfl, rfl, fun _ => Iff.rfl, fun _ => rfl⟩

theorem Ticked.trans {k' k'' : Kernel} {V' V'' : View} (h : Ticked k V k' V')
    (h' : Ticked k' V' k'' V'') : Ticked k V k'' V'' where
  base := h'.base
  rest := h'.rest.trans h.rest
  current := h'.current.trans h.current
  yielding := h'.yielding.trans h.yielding
  ring := h'.ring.trans h.ring
  waiting := h'.waiting.trans h.waiting
  ready p := (h'.ready p).trans (h.ready p)
  state p := (h'.state p).trans (h.state p)

theorem Base.ticked_boostQueue (h : Base k V) (hi : i ≠ 0) :
    Ticked k V (k.boostQueue i) (V.boost i) := by
  obtain ⟨hbase, hb⟩ := h.boostQueue hi
  refine ⟨hbase, frame_rest hb.frame hb.rest, frame_current hb.frame, frame_yielding hb.frame,
    rfl, rfl, fun p => ?_, hb.state⟩
  simp only [View.mem_boost hi]
  constructor
  · rintro ⟨j, ⟨hm, -⟩ | ⟨hm, -⟩⟩
    · exact ⟨j, hm⟩
    · exact ⟨i, hm⟩
  · rintro ⟨j, hm⟩
    by_cases hj : j = i
    · exact ⟨0, .inr ⟨hj ▸ hm, rfl⟩⟩
    · exact ⟨j, .inl ⟨hm, hj⟩⟩

theorem Base.ticked_boostAll (h : Base k V) :
    ∃ V', Ticked k V k.mlfqBoostAll V' ∧ ∀ i, i ≠ 0 → V'.ready i = [] := by
  have h1 := h.ticked_boostQueue (i := 1) (by decide)
  have h2 := h1.base.ticked_boostQueue (i := 2) (by decide)
  have h3 := h2.base.ticked_boostQueue (i := 3) (by decide)
  refine ⟨_, (h1.trans h2).trans h3, ?_⟩
  intro i hi
  match i with
  | 0 => exact absurd rfl hi
  | 1 | 2 | 3 => rfl

/-- A store to the priority and the tick count of a process. -/
theorem Base.ticked_modify {p : Nat} {f : Process → Process} (h : Base k V)
    (hr : (f (k.procs p)).rest = (k.procs p).rest)
    (hs : (f (k.procs p)).sched = (k.procs p).sched)
    (hprio : ∀ i, p ∈ V.ready i → (f (k.procs p)).priority = (k.procs p).priority) :
    Ticked k V (k.modify p f) V := by
  have hrest : (k.modify p f).rest = k.rest :=
    frame_rest modify_frame fun q => modify_proj Process.rest hr
  refine ⟨h.same hrest rfl modify_waitq (fun q _ => modify_proj Process.sched hs)
    fun i q hm => ?_, hrest, rfl, rfl, rfl, rfl, fun _ => Iff.rfl, fun q =>
      (congrArg (fun x => x.2.2) (modify_proj (q := q) Process.sched hs) :)⟩
  by_cases hq : q = p
  · subst hq; rw [modify_same, hprio i hm]
  · rw [modify_ne hq]

theorem Base.ticked_clock (h : Base k V) (n : Nat) : Ticked k V { k with globalTicks := n } V :=
  ⟨h.same rfl rfl (fun w => by cases w <;> rfl) (fun _ _ => rfl) fun _ _ _ => rfl, rfl, rfl, rfl,
    rfl, rfl, fun _ => Iff.rfl, fun _ => rfl⟩

/-- A tick up to the call of `schedule`. -/
theorem Base.tickUpdate (h : Base k V) : ∃ V', Ticked k V k.tickUpdate.1 V' := by
  unfold Kernel.tickUpdate
  dsimp only
  split
  · have h0 := h.ticked_clock 0
    obtain ⟨V₁, h1, hnil⟩ := h0.base.ticked_boostAll
    split
    · dsimp only
      refine ⟨V₁, (h0.trans h1).trans (h1.base.ticked_modify rfl rfl fun i hm => ?_)⟩
      obtain rfl : i = 0 := by
        by_contra hi
        rw [hnil i hi] at hm
        cases hm
      exact (h1.base.ready_place hm).2.2.2.symm
    · exact ⟨V₁, h0.trans h1⟩
  · have h0 := h.ticked_clock (k.globalTicks + 1)
    split
    · exact ⟨V, h0⟩
    next hrun =>
      have h1 := h0.trans (h0.base.ticked_modify (p := k.current)
        (f := fun x => { x with ticksExecuted := x.ticksExecuted + 1 }) rfl rfl fun _ _ => rfl)
      split
      · dsimp only
        refine ⟨V, h1.trans (h1.base.ticked_modify rfl rfl fun i hm => ?_)⟩
        have hs := (h1.base.ready_place hm).2.2.1
        rw [h1.state] at hs
        exact absurd (hs.symm.trans (not_not.mp hrun)) (by decide)
      · exact ⟨V, h1⟩

end Boost

end Kernel

end Aeryk
