import Aeryk.Lib.Linked
import Aeryk.Proc.Frame

/-!
# The queues as lists

A `View` names the processes on the ring, on the ready queues and on the wait queues.  `Links` says
that the pointers spell out the queues of the view, and each operation on a queue is an operation
on its list.

The tail pointer of a ready queue is kept apart (`TailOk`), because `mlfq_boost_all` empties a
queue from its head and resets the tail only at the end.  The wait queues of a pipe mean nothing
unless the pipe is live (`WaitId.Live`).
-/

namespace Aeryk

open List Function Lib

structure View where
  ring : List Nat
  ready : Fin numQueues → List Nat
  waiting : WaitId → List Nat

namespace View

/-- The process joins the end of a ready queue. -/
def enqueue (V : View) (i : Fin numQueues) (p : Nat) : View :=
  { V with ready := update V.ready i (V.ready i ++ [p]) }

def setReady (V : View) (i : Fin numQueues) (l : List Nat) : View :=
  { V with ready := update V.ready i l }

def setWaiting (V : View) (w : WaitId) (l : List Nat) : View :=
  { V with waiting := update V.waiting w l }

section

variable {V : View} {i j : Fin numQueues} {w w' : WaitId} {p q : Nat} {l : List Nat}

theorem mem_enqueue : q ∈ (V.enqueue i p).ready j ↔ q ∈ V.ready j ∨ q = p ∧ j = i := by
  unfold enqueue
  by_cases hj : j = i
  · subst hj; simp
  · simp [hj]

@[simp] theorem setReady_same : (V.setReady i l).ready i = l := update_self ..

theorem setReady_ne (h : j ≠ i) : (V.setReady i l).ready j = V.ready j :=
  update_of_ne h ..

@[simp] theorem setWaiting_same : (V.setWaiting w l).waiting w = l := update_self ..

theorem setWaiting_ne (h : w' ≠ w) : (V.setWaiting w l).waiting w' = V.waiting w' :=
  update_of_ne h ..

end

end View

def WaitId.Live (log : List Call) : WaitId → Prop
  | .kbd => True
  | .mouse => True
  | .pipeRead p => alive log (.pipe p) = true
  | .pipeWrite p => alive log (.pipe p) = true

namespace Kernel

/-- The pointers spell out the ready queues. -/
structure Spells (k : Kernel) (Q : Fin numQueues → List Nat) : Prop where
  chain : ∀ i, Chain (fun p => (k.procs p).queueNext) (k.mlfq i).head (Q i)
  unique : ∀ {i j p}, p ∈ Q i → p ∈ Q j → i = j

/-- The tail of a ready queue is its last process. -/
def TailAt (k : Kernel) (Q : Fin numQueues → List Nat) (i : Fin numQueues) : Prop :=
  (k.mlfq i).tail = (Q i).getLast?

/-- The pointers spell out the queues of the view. -/
structure Links (k : Kernel) (V : View) : Prop where
  ready_chain : ∀ i, Chain (fun p => (k.procs p).queueNext) (k.mlfq i).head (V.ready i)
  ready_unique : ∀ {i j p}, p ∈ V.ready i → p ∈ V.ready j → i = j
  wait_chain : ∀ w, w.Live k.log →
    Chain (fun p => (k.procs p).waitNext) (k.waitq w).head (V.waiting w)
  wait_tail : ∀ w, w.Live k.log → (k.waitq w).tail = (V.waiting w).getLast?
  wait_none : ∀ w, ¬w.Live k.log → V.waiting w = []
  wait_unique : ∀ {w w' p}, p ∈ V.waiting w → p ∈ V.waiting w' → w = w'

/-- The tail of a ready queue is its last process. -/
def TailOk (k : Kernel) (V : View) (i : Fin numQueues) : Prop :=
  (k.mlfq i).tail = (V.ready i).getLast?

section Enqueue

variable {k : Kernel} {V : View} {p q : Nat} {i j : Fin numQueues}

/-! ## `mlfq_enqueue` -/

theorem mlfqEnqueue_frame (k : Kernel) (p : Nat) : (k.mlfqEnqueue p).frame = k.frame := by
  unfold mlfqEnqueue
  split
  · rfl
  · dsimp only
    split <;> rfl

/-- What `mlfq_enqueue` keeps of every process. -/
theorem mlfqEnqueue_proj {β : Type} (π : Process → β)
    (h : ∀ x a b s, π { x with queueNext := a, queuePrev := b, state := s } = π x) (k : Kernel)
    (p q : Nat) : π ((k.mlfqEnqueue p).procs q) = π (k.procs q) := by
  have h1 : ∀ {k : Kernel} {p q : Nat}, π ((k.modify p fun x =>
      { x with queueNext := none, state := .ready }).procs q) = π (k.procs q) :=
    fun {k p q} => modify_proj π (h (k.procs p) none _ .ready)
  have h2 : ∀ {k : Kernel} {p q : Nat} {a : Option Nat}, π ((k.modify p fun x =>
      { x with queuePrev := a }).procs q) = π (k.procs q) :=
    fun {k p q a} => modify_proj π (h (k.procs p) _ a _)
  have h3 : ∀ {k : Kernel} {p q : Nat} {a : Option Nat}, π ((k.modify p fun x =>
      { x with queueNext := a }).procs q) = π (k.procs q) :=
    fun {k p q a} => modify_proj π (h (k.procs p) a _ _)
  unfold mlfqEnqueue
  split
  · rfl
  · dsimp only
    split
    · rw [setQueue_procs, h2, h1]
    · rw [setQueue_procs, h3, h2, h1]
    · rw [h1]

theorem mlfqEnqueue_waitNext (k : Kernel) (p q : Nat) :
    ((k.mlfqEnqueue p).procs q).waitNext = (k.procs q).waitNext :=
  mlfqEnqueue_proj Process.waitNext (fun _ _ _ _ => rfl) k p q

theorem mlfqEnqueue_priority (k : Kernel) (p q : Nat) :
    ((k.mlfqEnqueue p).procs q).priority = (k.procs q).priority :=
  mlfqEnqueue_proj Process.priority (fun _ _ _ _ => rfl) k p q

theorem mlfqEnqueue_state (hd : k.stateOf p ≠ .dead) (q : Nat) :
    (k.mlfqEnqueue p).stateOf q = if q = p then .ready else k.stateOf q := by
  have h1 : (k.modify p fun x => { x with queueNext := none, state := .ready }).stateOf q =
      if q = p then .ready else k.stateOf q := by
    unfold stateOf
    split
    next h => subst h; rw [modify_same]
    next h => rw [modify_ne h]
  have h2 : ∀ {k : Kernel} {p q : Nat} {a : Option Nat}, (k.modify p fun x =>
      { x with queuePrev := a }).stateOf q = k.stateOf q :=
    fun {k p q a} => modify_proj Process.state rfl
  have h3 : ∀ {k : Kernel} {p q : Nat} {a : Option Nat}, (k.modify p fun x =>
      { x with queueNext := a }).stateOf q = k.stateOf q :=
    fun {k p q a} => modify_proj Process.state rfl
  unfold mlfqEnqueue
  rw [if_neg hd]
  dsimp only
  split
  · rw [stateOf, setQueue_procs, ← stateOf, h2, h1]
  · rw [stateOf, setQueue_procs, ← stateOf, h3, h2, h1]
  · rw [h1]

theorem mlfqEnqueue_rest (k : Kernel) (p : Nat) : (k.mlfqEnqueue p).rest = k.rest := by
  by_cases hd : k.stateOf p = .dead
  · rw [mlfqEnqueue, if_pos hd]
  refine frame_rest (mlfqEnqueue_frame k p) fun q => ?_
  have hs : ((k.mlfqEnqueue p).procs q).rest.state = (k.procs q).rest.state := by
    have := mlfqEnqueue_state hd q
    simp only [Process.rest]
    unfold stateOf at this hd
    rw [this]
    by_cases hq : q = p
    · subst hq; simp [hd]
    · simp [hq]
  have hr := mlfqEnqueue_proj (fun x => { x.rest with state := .ready }) (fun _ _ _ _ => rfl) k p q
  have e1 : ∀ x : Process,
      x.rest = { { x.rest with state := .ready } with state := x.rest.state } :=
    fun _ => rfl
  rw [e1 ((k.mlfqEnqueue p).procs q), e1 (k.procs q), hs]
  exact congrArg (fun x : Process => { x with state := (k.procs q).rest.state }) hr

/-- The links and queues after `mlfq_enqueue` of a process that is not on its queue. -/
theorem mlfqEnqueue_links {l : List Nat} (hhead : (k.mlfq (k.procs p).priority).head = l.head?)
    (ht : (k.mlfq (k.procs p).priority).tail = l.getLast?) (hd : k.stateOf p ≠ .dead)
    (hp : p ∉ l) :
    (∀ q, ((k.mlfqEnqueue p).procs q).queueNext =
      if q = p then none
      else if l.getLast? = some q then some p
      else (k.procs q).queueNext) ∧
    (k.mlfqEnqueue p).mlfq (k.procs p).priority =
      { k.mlfq (k.procs p).priority with
        head := (k.mlfq (k.procs p).priority).head.or (some p), tail := some p } ∧
    ∀ j, j ≠ (k.procs p).priority → (k.mlfqEnqueue p).mlfq j = k.mlfq j := by
  set i := (k.procs p).priority with hi
  have hi' : ((k.modify p fun x => { x with queueNext := none, state := .ready }).procs p).priority
      = i := by rw [modify_same]
  unfold mlfqEnqueue
  rw [if_neg hd]
  dsimp only
  rw [hi', modify_mlfq]
  cases l with
  | nil =>
    simp only [head?_nil, getLast?_nil] at hhead ht
    rw [hhead]
    refine ⟨fun q => ?_, by simp, fun j hj => by rw [setQueue_ne hj, modify_mlfq, modify_mlfq]⟩
    rw [setQueue_procs]
    by_cases hq : q = p
    · subst hq; simp
    · rw [modify_ne hq, modify_ne hq]; simp [hq]
  | cons b l =>
    obtain ⟨t, hlast⟩ : ∃ t, (b :: l).getLast? = some t :=
      Option.isSome_iff_exists.mp (by simp)
    have htp : t ≠ p := fun e => hp (e ▸ mem_of_getLast? hlast)
    rw [hhead, ht, hlast]
    simp only [head?_cons]
    refine ⟨fun q => ?_, by simp, fun j hj => by rw [setQueue_ne hj]; rfl⟩
    rw [setQueue_procs]
    by_cases hqt : q = t
    · subst hqt
      rw [modify_same, if_neg htp, if_pos rfl]
    · rw [modify_ne hqt, if_neg fun e => hqt (Option.some.inj e).symm]
      by_cases hq : q = p
      · subst hq; simp
      · rw [modify_ne hq, modify_ne hq, if_neg hq]

theorem Spells.queues {Q : Fin numQueues → List Nat} (h : Spells k Q) :
    Queues (fun p => (k.procs p).queueNext) (fun i => (k.mlfq i).head) (fun _ => True) Q :=
  ⟨fun i _ => h.chain i, fun _ hi => (hi trivial).elim, h.unique⟩

theorem spells_of_queues {Q : Fin numQueues → List Nat}
    (h : Queues (fun p => (k.procs p).queueNext) (fun i => (k.mlfq i).head) (fun _ => True) Q) :
    Spells k Q :=
  ⟨fun i => h.chain i trivial, h.unique⟩

/-- A process that is on no queue joins the end of one. -/
theorem Spells.enqueue {Q : Fin numQueues → List Nat} (h : Spells k Q)
    (ht : TailAt k Q (k.procs p).priority) (hd : k.stateOf p ≠ .dead) (hp : ∀ j, p ∉ Q j) :
    Spells (k.mlfqEnqueue p)
        (update Q (k.procs p).priority (Q (k.procs p).priority ++ [p])) ∧
      ∀ j, TailAt k Q j → TailAt (k.mlfqEnqueue p)
        (update Q (k.procs p).priority (Q (k.procs p).priority ++ [p])) j := by
  obtain ⟨hnext, hqi, hqj⟩ := mlfqEnqueue_links (h.chain _).head_eq ht hd (hp _)
  refine ⟨spells_of_queues (h.queues.snoc trivial hp hnext (congrArg ReadyQueue.head hqi)
    fun j hj => congrArg ReadyQueue.head (hqj j hj)), fun j hj => ?_⟩
  unfold TailAt at *
  by_cases hji : j = (k.procs p).priority
  · subst hji
    rw [hqi, update_self]
    simp
  · rw [hqj j hji, update_of_ne hji]
    exact hj

theorem Links.spells (h : Links k V) : Spells k V.ready := ⟨h.ready_chain, h.ready_unique⟩

/-- Steps that touch the ready queues only. -/
theorem Links.of_ready {k' : Kernel} {V' : View} (h : Links k V) (hs : Spells k' V'.ready)
    (hv : V'.waiting = V.waiting) (hframe : k'.frame = k.frame)
    (hwait : ∀ q, (k'.procs q).waitNext = (k.procs q).waitNext) : Links k' V' := by
  refine ⟨hs.chain, hs.unique, fun w hw => ?_, fun w hw => ?_, fun w hw => ?_, ?_⟩
  · rw [frame_log hframe] at hw
    rw [frame_waitq hframe, hv]
    exact (h.wait_chain w hw).congr fun q _ => hwait q
  · rw [frame_log hframe] at hw
    rw [frame_waitq hframe, hv]
    exact h.wait_tail w hw
  · rw [frame_log hframe] at hw
    rw [hv]
    exact h.wait_none w hw
  · rw [hv]
    exact h.wait_unique

theorem Links.enqueue (h : Links k V) (ht : TailOk k V (k.procs p).priority)
    (hd : k.stateOf p ≠ .dead) (hp : ∀ j, p ∉ V.ready j) :
    Links (k.mlfqEnqueue p) (V.enqueue (k.procs p).priority p) ∧
      ∀ j, TailOk k V j → TailOk (k.mlfqEnqueue p) (V.enqueue (k.procs p).priority p) j := by
  obtain ⟨hspells, htails⟩ := h.spells.enqueue ht hd hp
  exact ⟨h.of_ready hspells rfl (mlfqEnqueue_frame k p) (mlfqEnqueue_waitNext k p), htails⟩

end Enqueue

/-! ## `mlfq_pick_next` -/

section Pick

variable {k : Kernel} {V : View} {p q : Nat} {i j : Fin numQueues} {l : List Nat}

theorem takeHead_frame (k : Kernel) (i : Fin numQueues) (p : Nat) :
    (k.takeHead i p).frame = k.frame := by
  unfold takeHead
  dsimp only
  rw [modify_frame]
  split <;> rfl

theorem takeHead_proj {β : Type} (π : Process → β)
    (h : ∀ x a b, π { x with queueNext := a, queuePrev := b } = π x) (k : Kernel)
    (i : Fin numQueues) (p q : Nat) : π ((k.takeHead i p).procs q) = π (k.procs q) := by
  unfold takeHead
  dsimp only
  rw [modify_proj π (h _ none none)]
  split
  · rw [setQueue_procs, modify_proj π (h _ _ none)]
  · rw [setQueue_procs]

theorem takeHead_state (k : Kernel) (i : Fin numQueues) (p q : Nat) :
    (k.takeHead i p).stateOf q = k.stateOf q :=
  takeHead_proj Process.state (fun _ _ _ => rfl) k i p q

theorem takeHead_rest (k : Kernel) (i : Fin numQueues) (p : Nat) :
    (k.takeHead i p).rest = k.rest :=
  frame_rest (takeHead_frame k i p) fun q => takeHead_proj Process.rest (fun _ _ _ => rfl) k i p q

/-- The links and queues after the head has been taken off its queue. -/
theorem takeHead_links (hhead : (k.procs p).queueNext = l.head?) :
    (∀ q, q ≠ p → ((k.takeHead i p).procs q).queueNext = (k.procs q).queueNext) ∧
      (k.takeHead i p).mlfq i =
        { k.mlfq i with head := l.head?, tail := if l = [] then none else (k.mlfq i).tail } ∧
      ∀ j, j ≠ i → (k.takeHead i p).mlfq j = k.mlfq j := by
  unfold Kernel.takeHead
  dsimp only
  refine ⟨fun q hq => ?_, ?_, fun j hj => ?_⟩
  · rw [modify_ne hq]
    split
    · rw [setQueue_procs]; exact modify_proj Process.queueNext rfl
    · rw [setQueue_procs]
  · rw [modify_mlfq, hhead]
    cases l with
    | nil => simp
    | cons b l => simp
  · rw [modify_mlfq]
    split <;> simp only [setQueue_ne hj, modify_mlfq]

/-- The head of a queue is taken off. -/
theorem Spells.takeHead {Q : Fin numQueues → List Nat} (h : Spells k Q) (hl : Q i = p :: l) :
    Spells (k.takeHead i p) (update Q i l) ∧
      ∀ j, TailAt k Q j → TailAt (k.takeHead i p) (update Q i l) j := by
  have hchain := h.chain i
  rw [hl] at hchain
  have hhead : (k.procs p).queueNext = l.head? := hchain.2.head_eq
  obtain ⟨hnext, hqi, hqj⟩ := takeHead_links (i := i) hhead
  refine ⟨spells_of_queues (h.queues.pop trivial hl hnext
    ((congrArg ReadyQueue.head hqi).trans hhead.symm)
    fun j hj => congrArg ReadyQueue.head (hqj j hj)), fun j hj => ?_⟩
  unfold TailAt at *
  by_cases hji : j = i
  · subst hji
    rw [hl] at hj
    rw [update_self, hqi]
    cases l with
    | nil => rfl
    | cons b l => simpa [getLast?_cons_cons] using hj
  · rw [update_of_ne hji, hqj j hji]
    exact hj

theorem Links.takeHead (h : Links k V) (hl : V.ready i = p :: l) :
    Links (k.takeHead i p) (V.setReady i l) ∧
      ∀ j, TailOk k V j → TailOk (k.takeHead i p) (V.setReady i l) j := by
  obtain ⟨hspells, htails⟩ := h.spells.takeHead hl
  exact ⟨h.of_ready hspells rfl (takeHead_frame k i p) fun q =>
    takeHead_proj Process.waitNext (fun _ _ _ => rfl) k i p q, htails⟩

end Pick

/-! ## Wait queues -/

section Wait

variable {k : Kernel} {V : View} {p q : Nat} {w w' : WaitId} {l : List Nat}

theorem waitQueuePush_waitFrame (k : Kernel) (w : WaitId) (p : Nat) :
    (k.waitQueuePush w p).waitFrame = k.waitFrame := by
  unfold waitQueuePush
  dsimp only
  split
  · rw [setWaitq_waitFrame, modify_waitFrame, modify_waitFrame]
  · rw [setWaitq_waitFrame, modify_waitFrame]

theorem waitQueuePush_proj {β : Type} (π : Process → β)
    (h : ∀ x a b, π { x with waitNext := a, waitPrev := b } = π x) (k : Kernel) (w : WaitId)
    (p q : Nat) : π ((k.waitQueuePush w p).procs q) = π (k.procs q) := by
  unfold waitQueuePush
  dsimp only
  split
  · rw [setWaitq_procs, modify_proj π (h _ (some p) _), modify_proj π (h _ none _)]
  · rw [setWaitq_procs, modify_proj π (h _ none _)]

theorem waitQueuePush_rest (k : Kernel) (w : WaitId) (p : Nat) :
    (k.waitQueuePush w p).rest = k.rest :=
  waitFrame_rest (waitQueuePush_waitFrame k w p) fun q =>
    waitQueuePush_proj Process.rest (fun _ _ _ => rfl) k w p q

theorem Links.waits (h : Links k V) : Queues (fun p => (k.procs p).waitNext)
    (fun w => (k.waitq w).head) (fun w => w.Live k.log) V.waiting :=
  ⟨h.wait_chain, h.wait_none, h.wait_unique⟩

/-- Steps that touch one wait queue only. -/
theorem Links.of_waiting {k' : Kernel} (h : Links k V) (hframe : k'.waitFrame = k.waitFrame)
    (hnext : ∀ q, (k'.procs q).queueNext = (k.procs q).queueNext)
    (hs : Queues (fun p => (k'.procs p).waitNext) (fun w => (k'.waitq w).head)
      (fun w => w.Live k.log) (update V.waiting w l))
    (htail : w.Live k.log → (k'.waitq w).tail = l.getLast?)
    (hother : ∀ w', w' ≠ w → k'.waitq w' = k.waitq w') :
    Links k' (V.setWaiting w l) ∧ ∀ j, TailOk k V j → TailOk k' (V.setWaiting w l) j := by
  refine ⟨⟨fun j => ?_, h.ready_unique, fun w' hw' => ?_, fun w' hw' => ?_, fun w' hw' => ?_,
    hs.unique⟩, fun j hj => ?_⟩
  · rw [waitFrame_mlfq hframe]
    exact (h.ready_chain j).congr fun q _ => hnext q
  · rw [waitFrame_log hframe] at hw'
    exact hs.chain w' hw'
  · rw [waitFrame_log hframe] at hw'
    by_cases hww : w' = w
    · subst hww
      rw [View.setWaiting_same]
      exact htail hw'
    · rw [View.setWaiting_ne hww, hother w' hww]
      exact h.wait_tail w' hw'
  · rw [waitFrame_log hframe] at hw'
    exact hs.unused w' hw'
  · unfold TailOk at *
    rw [waitFrame_mlfq hframe]
    exact hj

/-- A process that waits nowhere joins a wait queue. -/
theorem Links.push (h : Links k V) (hw : w.Live k.log) (hp : ∀ w', p ∉ V.waiting w') :
    Links (k.waitQueuePush w p) (V.setWaiting w (V.waiting w ++ [p])) ∧
      ∀ j, TailOk k V j → TailOk (k.waitQueuePush w p) (V.setWaiting w (V.waiting w ++ [p])) j := by
  have htail := h.wait_tail w hw
  have hhead := (h.wait_chain w hw).head_eq
  have hne : ∀ {w' q}, q ∈ V.waiting w' → q ≠ p := fun hq e => hp _ (e ▸ hq)
  have hnext : ∀ q, ((k.waitQueuePush w p).procs q).waitNext =
      if q = p then none else if (V.waiting w).getLast? = some q then some p
      else (k.procs q).waitNext := by
    intro q
    unfold waitQueuePush
    dsimp only
    rw [htail]
    cases hlast : (V.waiting w).getLast? with
    | none =>
      simp only [setWaitq_procs, reduceCtorEq, if_false]
      by_cases hq : q = p
      · subst hq; simp
      · rw [modify_ne hq, if_neg hq]
    | some t =>
      have htp : t ≠ p := hne (mem_of_getLast? hlast)
      simp only [setWaitq_procs, Option.some.injEq]
      by_cases hqt : q = t
      · subst hqt; rw [modify_same, if_neg htp, if_pos rfl]
      · rw [modify_ne hqt, if_neg (Ne.symm hqt)]
        by_cases hq : q = p
        · subst hq; simp
        · rw [modify_ne hq, if_neg hq]
  have hq : (k.waitQueuePush w p).waitq w =
      { head := (k.waitq w).head.or (some p), tail := some p } := by
    unfold waitQueuePush
    dsimp only
    rw [htail, hhead]
    cases V.waiting w with
    | nil => simp
    | cons b l => simp [getLast?_eq_getLast_of_ne_nil]
  have hq' : ∀ w', w' ≠ w → (k.waitQueuePush w p).waitq w' = k.waitq w' := by
    intro w' hne
    unfold waitQueuePush
    dsimp only
    split <;> simp only [setWaitq_ne hne, modify_waitq]
  exact h.of_waiting (waitQueuePush_waitFrame k w p)
    (waitQueuePush_proj Process.queueNext (fun _ _ _ => rfl) k w p)
    (h.waits.snoc hw hp hnext (congrArg WaitQueue.head hq)
      fun w' hne => congrArg WaitQueue.head (hq' w' hne)) (fun _ => by rw [hq]; simp) hq'

theorem waitQueuePop_waitFrame (k : Kernel) (w : WaitId) :
    (k.waitQueuePop w).1.waitFrame = k.waitFrame := by
  unfold waitQueuePop
  dsimp only
  split
  · rfl
  · rw [modify_waitFrame]
    split
    · rw [setWaitq_waitFrame, modify_waitFrame]
    · rw [setWaitq_waitFrame]

theorem waitQueuePop_proj {β : Type} (π : Process → β)
    (h : ∀ x a b, π { x with waitNext := a, waitPrev := b } = π x) (k : Kernel) (w : WaitId)
    (q : Nat) : π ((k.waitQueuePop w).1.procs q) = π (k.procs q) := by
  unfold waitQueuePop
  dsimp only
  split
  · rfl
  · dsimp only
    rw [modify_proj π (h _ none none)]
    split
    · rw [setWaitq_procs, modify_proj π (h _ _ none)]
    · rw [setWaitq_procs]

theorem waitQueuePop_rest (k : Kernel) (w : WaitId) : (k.waitQueuePop w).1.rest = k.rest :=
  waitFrame_rest (waitQueuePop_waitFrame k w) fun q =>
    waitQueuePop_proj Process.rest (fun _ _ _ => rfl) k w q

theorem Links.pop_nil (h : Links k V) (hw : w.Live k.log) (hl : V.waiting w = []) :
    k.waitQueuePop w = (k, none) := by
  have hhead := (h.wait_chain w hw).head_eq
  rw [hl] at hhead
  unfold waitQueuePop
  dsimp only
  rw [hhead]
  rfl

/-- The first waiter leaves its queue. -/
theorem Links.pop_cons (h : Links k V) (hw : w.Live k.log) (hl : V.waiting w = p :: l) :
    (k.waitQueuePop w).2 = some p ∧ Links (k.waitQueuePop w).1 (V.setWaiting w l) ∧
      ∀ j, TailOk k V j → TailOk (k.waitQueuePop w).1 (V.setWaiting w l) j := by
  have hchain := h.wait_chain w hw
  rw [hl] at hchain
  have hfirst : (k.waitq w).head = some p := hchain.1
  have hhead : (k.procs p).waitNext = l.head? := hchain.2.head_eq
  have hnext : ∀ q, q ≠ p → ((k.waitQueuePop w).1.procs q).waitNext = (k.procs q).waitNext := by
    intro q hq
    unfold waitQueuePop
    dsimp only
    rw [hfirst]
    dsimp only
    rw [modify_ne hq]
    split
    · rw [setWaitq_procs]; exact modify_proj Process.waitNext rfl
    · rw [setWaitq_procs]
  have hq : (k.waitQueuePop w).1.waitq w =
      { head := l.head?, tail := if l = [] then none else (k.waitq w).tail } := by
    unfold waitQueuePop
    dsimp only
    rw [hfirst]
    dsimp only
    rw [modify_waitq, hhead]
    cases l with
    | nil => simp
    | cons b l => simp
  have hq' : ∀ w', w' ≠ w → (k.waitQueuePop w).1.waitq w' = k.waitq w' := by
    intro w' hne
    unfold waitQueuePop
    dsimp only
    rw [hfirst]
    dsimp only
    rw [modify_waitq]
    split <;> simp only [setWaitq_ne hne, modify_waitq]
  refine ⟨by unfold waitQueuePop; dsimp only; rw [hfirst],
    h.of_waiting (waitQueuePop_waitFrame k w)
      (waitQueuePop_proj Process.queueNext (fun _ _ _ => rfl) k w)
      (h.waits.pop hw hl hnext ((congrArg WaitQueue.head hq).trans hhead.symm)
        fun w' hne => congrArg WaitQueue.head (hq' w' hne)) (fun _ => ?_) hq'⟩
  have htail := h.wait_tail w hw
  rw [hl] at htail
  rw [hq]
  cases l with
  | nil => rfl
  | cons b l => simpa [getLast?_cons_cons] using htail

end Wait

end Kernel

end Aeryk
