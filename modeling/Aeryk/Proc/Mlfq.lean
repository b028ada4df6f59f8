import Aeryk.Lib.Guarded
import Aeryk.Proc.Links

/-!
# The ready queues as lists

`Mlfq` is what the four linked queues of `scheduler.c` stand for: four lists, and of every process
the fields the scheduler looks at.  On lists, `mlfq_enqueue` appends, `mlfq_pick_next` takes the
first element of the first list that has one, and a boost moves the lower lists behind the first
one and leaves out the dead.

The pointers refine the lists in every run (`mlfq_refines`), whatever the rest of the kernel writes
to the processes, their links apart.  During a boost the tail of the queue that is drained is
stale, so `Holds` leaves the tails out.
-/

namespace Aeryk

open List Function Lib

/-- The scheduler on lists. -/
@[ext]
structure Mlfq where
  lists : Fin numQueues → List Nat
  state : Nat → ProcessState
  priority : Nat → Fin numQueues
  ticks : Nat → Nat

namespace Mlfq

/-- The process joins the list of its priority, unless it is dead. -/
def enqueue (m : Mlfq) (p : Nat) : Mlfq :=
  if m.state p = .dead then m
  else
    { m with
      lists := update m.lists (m.priority p) (m.lists (m.priority p) ++ [p])
      state := update m.state p .ready }

/-- The first element of the first list that is not empty. -/
def pickNext (m : Mlfq) : Mlfq × Option Nat :=
  match (finRange numQueues).find? fun i => m.lists i ≠ [] with
  | none => (m, none)
  | some i => ({ m with lists := update m.lists i (m.lists i).tail }, (m.lists i).head?)

/-- The processes below the first level, in the order of the levels. -/
def lower (m : Mlfq) : List Nat := m.lists 1 ++ m.lists 2 ++ m.lists 3

def living (m : Mlfq) (l : List Nat) : List Nat := l.filter fun p => m.state p ≠ .dead

/-- The lower lists move behind the first one, without the dead. -/
def boost (m : Mlfq) : Mlfq where
  lists i := if i = 0 then m.lists 0 ++ m.living m.lower else []
  state p := if p ∈ m.living m.lower then .ready else m.state p
  priority p := if p ∈ m.lower then 0 else m.priority p
  ticks p := if p ∈ m.lower then 0 else m.ticks p

/-! ## Boosts, level by level -/

/-- One list moves behind the first one, without the dead. -/
def level (m : Mlfq) (i : Fin numQueues) : Mlfq where
  lists j := if j = 0 then m.lists 0 ++ m.living (m.lists i) else if j = i then [] else m.lists j
  state p := if p ∈ m.living (m.lists i) then .ready else m.state p
  priority p := if p ∈ m.lists i then 0 else m.priority p
  ticks p := if p ∈ m.lists i then 0 else m.ticks p

/-- The head of a list moves behind the first list, unless it is dead. -/
def turn (m : Mlfq) (i : Fin numQueues) (p : Nat) (l : List Nat) : Mlfq :=
  enqueue
    { m with
      lists := update m.lists i l
      priority := update m.priority p 0
      ticks := update m.ticks p 0 } p

section

variable {m : Mlfq} {p q : Nat} {i j : Fin numQueues} {l : List Nat}

theorem mem_living : q ∈ m.living l ↔ q ∈ l ∧ m.state q ≠ .dead := by
  simp [living]

/-- Who lives is the same on every level. -/
theorem living_level : (m.level i).living l = m.living l := by
  unfold living
  refine filter_congr fun p _ => ?_
  have hp := mem_living (m := m) (q := p) (l := m.lists i)
  simp only [level]
  grind

theorem level_nil (hl : m.lists i = []) : m.level i = m := by
  unfold level
  ext1
  all_goals grind [living]

theorem lists_level_zero : (m.level i).lists 0 = m.lists 0 ++ m.living (m.lists i) := rfl

theorem lists_level_ne (hj : j ≠ 0) (hji : j ≠ i) : (m.level i).lists j = m.lists j := by
  simp [level, hj, hji]

theorem lists_level_same (hi : i ≠ 0) : (m.level i).lists i = [] := by
  simp [level, hi]

/-- The lists after the head of one has moved. -/
theorem lists_turn (hi : i ≠ 0) (j : Fin numQueues) :
    (m.turn i p l).lists j =
      if j = 0 then m.lists 0 ++ m.living [p] else if j = i then l else m.lists j := by
  unfold turn enqueue living
  simp only [filter_cons, filter_nil]
  split
  all_goals grind

theorem state_turn : (m.turn i p l).state q = if q ∈ m.living [p] then .ready else m.state q := by
  unfold turn enqueue living
  simp only [filter_cons, filter_nil]
  split
  all_goals grind

theorem living_turn : (m.turn i p l).living l = m.living l := by
  unfold living
  refine filter_congr fun q _ => ?_
  have hq := mem_living (m := m) (q := q) (l := [p])
  rw [state_turn]
  grind

theorem level_turn (hi : i ≠ 0) (hl : m.lists i = p :: l) :
    (m.turn i p l).level i = m.level i := by
  have hlist : (m.turn i p l).lists i = l := by
    rw [lists_turn hi, if_neg hi, if_pos rfl]
  have hliving : m.living (p :: l) = m.living [p] ++ m.living l := filter_append [p] l
  have hprio : (m.turn i p l).priority = update m.priority p 0 := by
    unfold turn enqueue
    split <;> rfl
  have hticks : (m.turn i p l).ticks = update m.ticks p 0 := by
    unfold turn enqueue
    split <;> rfl
  ext1
  all_goals
    funext j
    simp only [level, hlist, living_turn, hl, hliving, lists_turn hi, state_turn, hprio, hticks]
    grind

/-- A boost takes one level after the other. -/
theorem boost_eq (m : Mlfq) : m.boost = ((m.level 1).level 2).level 3 := by
  have h2 : (m.level 1).lists 2 = m.lists 2 := lists_level_ne (by decide) (by decide)
  have h3 : ((m.level 1).level 2).lists 3 = m.lists 3 := by
    rw [lists_level_ne (by decide) (by decide), lists_level_ne (by decide) (by decide)]
  have hliving : m.living m.lower =
      m.living (m.lists 1) ++ m.living (m.lists 2) ++ m.living (m.lists 3) := by
    simp [living, lower]
  have hstate : ∀ m i q, (level m i).state q =
      if q ∈ m.living (m.lists i) then .ready else m.state q := fun _ _ _ => rfl
  have hprio : ∀ m i q, (level m i).priority q = if q ∈ m.lists i then 0 else m.priority q :=
    fun _ _ _ => rfl
  have hticks : ∀ m i q, (level m i).ticks q = if q ∈ m.lists i then 0 else m.ticks q :=
    fun _ _ _ => rfl
  ext1
  · funext j
    simp only [boost, hliving]
    by_cases hj : j = 0
    · subst hj
      rw [if_pos rfl, lists_level_zero, lists_level_zero, lists_level_zero, living_level,
        living_level, living_level, h2, h3]
      simp
    · rw [if_neg hj]
      by_cases h3 : j = 3
      · rw [h3, lists_level_same (by decide)]
      · rw [lists_level_ne hj h3]
        by_cases h2 : j = 2
        · rw [h2, lists_level_same (by decide)]
        · have hone : ∀ j : Fin numQueues, j ≠ 0 → j ≠ 2 → j ≠ 3 → j = 1 := by decide
          obtain rfl := hone j hj h2 h3
          rw [lists_level_ne hj h2, lists_level_same hj]
  all_goals
    funext q
    simp only [boost, hstate, hprio, hticks, living_level, h2, h3, hliving]
    grind [lower]

end

end Mlfq

inductive MlfqOp where
  | enqueue (p : Nat)
  | pickNext
  | boost
  /-- Other code writes to the processes. -/
  | write (x : Nat → Process)

/-- One operation on the lists, and what `mlfq_pick_next` returns. -/
def Mlfq.run (m : Mlfq) : MlfqOp → Mlfq × Option Nat
  | .enqueue p => (m.enqueue p, none)
  | .pickNext => m.pickNext
  | .boost => (m.boost, none)
  | .write x =>
    ({ m with
        state := fun p => (x p).state
        priority := fun p => (x p).priority
        ticks := fun p => (x p).ticksExecuted }, none)

/-- A run on the lists, with what the operations return. -/
def Mlfq.runs (m : Mlfq) : List MlfqOp → Mlfq × List (Option Nat)
  | [] => (m, [])
  | op :: ops => (((m.run op).1.runs ops).1, (m.run op).2 :: ((m.run op).1.runs ops).2)

/-- Only processes that exist and are not queued are enqueued. -/
def Mlfq.Allowed (U : Finset Nat) (m : Mlfq) : MlfqOp → Prop
  | .enqueue p => p ∈ U ∧ ∀ i, p ∉ m.lists i
  | _ => True

namespace Kernel

/-- One operation of the code, and what `mlfq_pick_next` returns. -/
def mlfqRun (k : Kernel) : MlfqOp → Kernel × Option Nat
  | .enqueue p => (k.mlfqEnqueue p, none)
  | .pickNext => k.mlfqPickNext
  | .boost => (k.mlfqBoostAll, none)
  | .write x =>
    ({ k with
        procs := fun p =>
          { x p with
            queueNext := (k.procs p).queueNext
            queuePrev := (k.procs p).queuePrev } }, none)

/-- A run of the code, with what the operations return. -/
def mlfqRuns (k : Kernel) : List MlfqOp → Kernel × List (Option Nat)
  | [] => (k, [])
  | op :: ops =>
    (((k.mlfqRun op).1.mlfqRuns ops).1, (k.mlfqRun op).2 :: ((k.mlfqRun op).1.mlfqRuns ops).2)

/-- The pointers and fields are those of the lists, but for the tails. -/
structure Holds (k : Kernel) (m : Mlfq) : Prop where
  spells : Spells k m.lists
  state : ∀ p, k.stateOf p = m.state p
  priority : ∀ p, (k.procs p).priority = m.priority p
  ticks : ∀ p, (k.procs p).ticksExecuted = m.ticks p

/-- The pointers and fields are those of the lists. -/
structure Represents (k : Kernel) (m : Mlfq) : Prop where
  holds : Holds k m
  tail : ∀ i, (k.mlfq i).tail = (m.lists i).getLast?

section

variable {k : Kernel} {m : Mlfq} {p : Nat} {i : Fin numQueues} {l : List Nat}

/-! ## `mlfq_enqueue` -/

/-- `mlfq_enqueue` of a process that is on no queue. -/
theorem Holds.enqueue (h : Holds k m) (ht : TailAt k m.lists (m.priority p))
    (hp : ∀ i, p ∉ m.lists i) :
    Holds (k.mlfqEnqueue p) (m.enqueue p) ∧
      ∀ j, TailAt k m.lists j → TailAt (k.mlfqEnqueue p) (m.enqueue p).lists j := by
  by_cases hd : m.state p = .dead
  · have hk : k.mlfqEnqueue p = k := if_pos ((h.state p).trans hd)
    have hm : m.enqueue p = m := if_pos hd
    rw [hk, hm]
    exact ⟨h, fun _ hj => hj⟩
  · have hd' : k.stateOf p ≠ .dead := by rw [h.state]; exact hd
    have hprio := h.priority p
    obtain ⟨hspells, htails⟩ := h.spells.enqueue (by rw [hprio]; exact ht) hd' hp
    have hm : m.enqueue p = _ := if_neg hd
    rw [hprio] at hspells htails
    rw [hm]
    refine ⟨⟨hspells, fun q => ?_, fun q => ?_, fun q => ?_⟩, htails⟩
    · rw [mlfqEnqueue_state hd', h.state]
      by_cases hq : q = p
      · subst hq; simp
      · simp [hq]
    · rw [mlfqEnqueue_priority, h.priority]
    · rw [mlfqEnqueue_proj Process.ticksExecuted (fun _ _ _ _ => rfl), h.ticks]

/-! ## `mlfq_pick_next` -/

theorem pickFrom_spec {Q : Fin numQueues → List Nat} (h : Spells k Q)
    (is : List (Fin numQueues)) :
    (k.pickFrom is = (k, none) ∧ ∀ i ∈ is, Q i = []) ∨
      ∃ pre i post p l, is = pre ++ i :: post ∧ (∀ j ∈ pre, Q j = []) ∧
        Q i = p :: l ∧ k.pickFrom is = (k.takeHead i p, some p) := by
  induction is with
  | nil => exact .inl ⟨rfl, by simp⟩
  | cons i is ih =>
    have hhead := (h.chain i).head_eq
    rw [pickFrom, hhead]
    cases hl : Q i with
    | cons p l => exact .inr ⟨[], i, is, p, l, rfl, by simp, hl, rfl⟩
    | nil =>
      simp only [head?_nil]
      rcases ih with ⟨he, hnil⟩ | ⟨pre, j, post, p, l, rfl, hpre, hj, he⟩
      · exact .inl ⟨he, by simpa [hl] using hnil⟩
      · exact .inr ⟨i :: pre, j, post, p, l, rfl, by simpa [hl] using hpre, hj, he⟩

/-- `mlfq_pick_next` takes the head of the first queue that has one. -/
theorem mlfqPickNext_spec {Q : Fin numQueues → List Nat} (h : Spells k Q) :
    (k.mlfqPickNext = (k, none) ∧ ∀ i, Q i = []) ∨
      ∃ i p l, (∀ j < i, Q j = []) ∧ Q i = p :: l ∧
        k.mlfqPickNext = (k.takeHead i p, some p) := by
  rcases pickFrom_spec h (finRange numQueues) with ⟨he, hnil⟩ | ⟨pre, i, post, p, l, hl,
    hpre, hi, he⟩
  · exact .inl ⟨he, fun i => hnil i (mem_finRange i)⟩
  · refine .inr ⟨i, p, l, fun j hj => hpre j ?_, hi, he⟩
    have hsorted : (pre ++ i :: post).Pairwise (· < ·) := hl ▸ pairwise_lt_finRange numQueues
    have hmem : j ∈ pre ++ i :: post := hl ▸ mem_finRange j
    rcases mem_append.mp hmem with hm | hm
    · exact hm
    · rcases mem_cons.mp hm with rfl | hm
      · exact absurd hj (lt_irrefl _)
      · have := rel_of_pairwise_cons (pairwise_append.mp hsorted).2.1 hm
        exact absurd hj (lt_asymm this)

theorem pickNext_of_nil (h : ∀ i, m.lists i = []) : m.pickNext = (m, none) := by
  have hnone : (finRange numQueues).find? (fun i => m.lists i ≠ []) = none := by
    simp [h]
  unfold Mlfq.pickNext
  rw [hnone]

theorem pickNext_of_cons (hnil : ∀ j < i, m.lists j = []) (hl : m.lists i = p :: l) :
    m.pickNext = ({ m with lists := update m.lists i l }, some p) := by
  have hfind : (finRange numQueues).find? (fun i => m.lists i ≠ []) = some i := by
    obtain ⟨before, after, hsplit⟩ := append_of_mem (mem_finRange i)
    refine find?_eq_some_iff_append.mpr ⟨by simp [hl], before, after, hsplit, fun j hj => ?_⟩
    have hsorted := pairwise_lt_finRange numQueues
    rw [hsplit, pairwise_append] at hsorted
    simp [hnil j (hsorted.2.2 j hj i mem_cons_self)]
  unfold Mlfq.pickNext
  rw [hfind]
  simp [hl]

theorem Represents.pickNext (h : Represents k m) :
    Represents k.mlfqPickNext.1 m.pickNext.1 ∧ k.mlfqPickNext.2 = m.pickNext.2 ∧
      ∀ p, k.mlfqPickNext.2 = some p →
        (k.mlfqPickNext.1.procs p).queueNext = none ∧
          (k.mlfqPickNext.1.procs p).queuePrev = none := by
  rcases mlfqPickNext_spec h.holds.spells with ⟨heq, hnil⟩ | ⟨i, p, l, hnil, hl, heq⟩
  · rw [heq, pickNext_of_nil hnil]
    exact ⟨h, rfl, fun p hp => by cases hp⟩
  · rw [heq, pickNext_of_cons hnil hl]
    obtain ⟨hspells, htails⟩ := h.holds.spells.takeHead hl
    refine ⟨⟨⟨hspells, fun q => ?_, fun q => ?_, fun q => ?_⟩, fun j => htails j (h.tail j)⟩, rfl,
      fun q hq => ?_⟩
    · rw [takeHead_state, h.holds.state]
    · rw [takeHead_proj Process.priority (fun _ _ _ => rfl), h.holds.priority]
    · rw [takeHead_proj Process.ticksExecuted (fun _ _ _ => rfl), h.holds.ticks]
    · obtain rfl := Option.some.inj hq
      unfold Kernel.takeHead
      rw [modify_same]
      exact ⟨rfl, rfl⟩

/-! ## `mlfq_boost_all` -/

/-- The head of a queue is taken off, without regard to the tail. -/
theorem Spells.detach {Q : Fin numQueues → List Nat} {p : Nat} {l : List Nat} {k' : Kernel}
    (h : Spells k Q) (hl : Q i = p :: l) (hhead : (k'.mlfq i).head = (k.procs p).queueNext)
    (hq : ∀ j, j ≠ i → k'.mlfq j = k.mlfq j)
    (hp : ∀ q, (k'.procs q).queueNext = (k.procs q).queueNext) :
    Spells k' (update Q i l) := by
  exact spells_of_queues (h.queues.pop trivial hl (fun q _ => hp q) hhead
    fun j hj => congrArg ReadyQueue.head (hq j hj))

/-- One turn of the inner loop of `mlfq_boost_all`. -/
theorem Holds.turn (hi : i ≠ 0) (h : Holds k m) (ht : ∀ j, j ≠ i → TailAt k m.lists j)
    (hl : m.lists i = p :: l) :
    let k₁ := k.setQueue i { k.mlfq i with head := (k.procs p).queueNext }
    let k₂ := k₁.modify p fun x => { x with priority := 0, ticksExecuted := 0 }
    Holds (k₂.mlfqEnqueue p) (m.turn i p l) ∧
      ∀ j, j ≠ i → TailAt (k₂.mlfqEnqueue p) (m.turn i p l).lists j := by
  intro k₁ k₂
  have hproj : ∀ {β : Type} (π : Process → β), (∀ x : Process,
      π { x with priority := 0, ticksExecuted := 0 } = π x) →
      ∀ q, π (k₂.procs q) = π (k.procs q) := fun π hπ q => modify_proj (k := k₁) π (hπ _)
  have hq : ∀ j, j ≠ i → k₂.mlfq j = k.mlfq j := fun j hj => setQueue_ne hj
  have hnd := (h.spells.chain i).nodup
  rw [hl, nodup_cons] at hnd
  have hspells : Spells k₂ (update m.lists i l) := h.spells.detach hl
    (congrArg ReadyQueue.head (setQueue_same (k := k) (i := i))) hq
    (hproj Process.queueNext fun _ => rfl)
  have htails : ∀ j, j ≠ i → TailAt k₂ (update m.lists i l) j := by
    intro j hj
    unfold TailAt
    rw [hq j hj, update_of_ne hj]
    exact ht j hj
  have hout : ∀ j, p ∉ update m.lists i l j := by
    intro j hm
    have hunique := h.spells.unique (i := j) (j := i) (p := p)
    grind
  have hholds : Holds k₂
      { m with
        lists := update m.lists i l
        priority := update m.priority p 0
        ticks := update m.ticks p 0 } := by
    refine ⟨hspells, fun q => ?_, fun q => ?_, fun q => ?_⟩
    · exact (hproj Process.state (fun _ => rfl) q).trans (h.state q)
    · dsimp only
      by_cases hqp : q = p
      · subst hqp
        rw [update_self]
        exact congrArg Process.priority modify_same
      · rw [update_of_ne hqp]
        exact (congrArg Process.priority (modify_ne hqp)).trans (h.priority q)
    · dsimp only
      by_cases hqp : q = p
      · subst hqp
        rw [update_self]
        exact congrArg Process.ticksExecuted modify_same
      · rw [update_of_ne hqp]
        exact (congrArg Process.ticksExecuted (modify_ne hqp)).trans (h.ticks q)
  have hzero : TailAt k₂ (update m.lists i l) (update m.priority p 0 p) := by
    rw [update_self]
    exact htails 0 (Ne.symm hi)
  obtain ⟨h', htails'⟩ := hholds.enqueue hzero hout
  exact ⟨h', fun j hj => htails' j (htails j hj)⟩

theorem Holds.boostLoop {fuel : Nat} (hi : i ≠ 0) (h : Holds k m)
    (ht : ∀ j, j ≠ i → TailAt k m.lists j) (hf : (m.lists i).length ≤ fuel) :
    Holds (boostLoop i fuel k) (m.level i) ∧
      ∀ j, j ≠ i → TailAt (boostLoop i fuel k) (m.level i).lists j := by
  induction fuel generalizing k m with
  | zero =>
    rw [Mlfq.level_nil (length_eq_zero_iff.mp (Nat.le_zero.mp hf))]
    exact ⟨h, ht⟩
  | succ fuel ih =>
    unfold Kernel.boostLoop
    rw [(h.spells.chain i).head_eq]
    cases hl : m.lists i with
    | nil =>
      rw [Mlfq.level_nil hl]
      exact ⟨h, ht⟩
    | cons p l =>
      obtain ⟨h', ht'⟩ := h.turn hi ht hl
      have hlist : (m.turn i p l).lists i = l := by
        rw [Mlfq.lists_turn hi, if_neg hi, if_pos rfl]
      rw [hl, length_cons] at hf
      have hrest := ih h' ht' (by rw [hlist]; omega)
      rw [Mlfq.level_turn hi hl] at hrest
      exact hrest

/-- One turn of the outer loop of `mlfq_boost_all`. -/
theorem Represents.boostQueue (hi : i ≠ 0) (h : Represents k m)
    (hlen : (m.lists i).length ≤ k.nextPid) : Represents (k.boostQueue i) (m.level i) := by
  obtain ⟨hholds, htails⟩ := h.holds.boostLoop hi (fun j _ => h.tail j) hlen
  have hq : ∀ j, j ≠ i → (k.boostQueue i).mlfq j = (Kernel.boostLoop i k.nextPid k).mlfq j :=
    fun j hj => setQueue_ne hj
  have hqi : (k.boostQueue i).mlfq i =
      { (Kernel.boostLoop i k.nextPid k).mlfq i with tail := none } := setQueue_same
  refine ⟨⟨⟨fun j => ?_, hholds.spells.unique⟩, hholds.state, hholds.priority, hholds.ticks⟩,
    fun j => ?_⟩
  · by_cases hj : j = i
    · subst hj
      rw [hqi]
      exact hholds.spells.chain j
    · rw [hq j hj]
      exact hholds.spells.chain j
  · by_cases hj : j = i
    · subst hj
      rw [hqi, Mlfq.lists_level_same hi]
      rfl
    · rw [hq j hj]
      exact htails j hj

/-- What a boost keeps. -/
theorem boostLoop_keeps (i : Fin numQueues) (fuel : Nat) (k : Kernel) :
    (Kernel.boostLoop i fuel k).frame = k.frame ∧ ∀ p,
      ((Kernel.boostLoop i fuel k).procs p).rest = (k.procs p).rest ∧
        ((Kernel.boostLoop i fuel k).procs p).waitNext = (k.procs p).waitNext := by
  induction fuel generalizing k with
  | zero => exact ⟨rfl, fun _ => ⟨rfl, rfl⟩⟩
  | succ fuel ih =>
    unfold Kernel.boostLoop
    split
    · exact ⟨rfl, fun _ => ⟨rfl, rfl⟩⟩
    · obtain ⟨hframe, hprocs⟩ := ih _
      refine ⟨hframe.trans (mlfqEnqueue_frame _ _), fun p => ⟨(hprocs p).1.trans ?_,
        (hprocs p).2.trans ((mlfqEnqueue_waitNext _ _ p).trans (modify_proj Process.waitNext rfl))⟩⟩
      exact (rest_proc (mlfqEnqueue_rest _ _) p).trans (modify_proj Process.rest rfl)

/-- Everything on the lists is one of the processes, of which there are at most as many as
pids handed out. -/
structure Among (U : Finset Nat) (k : Kernel) (m : Mlfq) : Prop where
  mem : ∀ i, ∀ p ∈ m.lists i, p ∈ U
  card : U.card ≤ k.nextPid

variable {U : Finset Nat}

theorem Among.length_le (hU : Among U k m) (h : Represents k m) (i : Fin numQueues) :
    (m.lists i).length ≤ k.nextPid := by
  have hsub : (m.lists i).toFinset ⊆ U := fun p hp => hU.mem i p (mem_toFinset.mp hp)
  have hcard := Finset.card_le_card hsub
  rw [toFinset_card_of_nodup (h.holds.spells.chain i).nodup] at hcard
  exact hcard.trans hU.card

theorem mem_level (hm : ∀ i, ∀ p ∈ m.lists i, p ∈ U) (j : Fin numQueues) :
    ∀ p ∈ (m.level i).lists j, p ∈ U := by
  intro p hp
  simp only [Mlfq.level] at hp
  grind [Mlfq.mem_living]

theorem Among.boostQueue (hU : Among U k m) : Among U (k.boostQueue i) (m.level i) := by
  refine ⟨mem_level hU.mem, ?_⟩
  have hpid : (k.boostQueue i).nextPid = k.nextPid :=
    frame_nextPid (boostLoop_keeps i k.nextPid k).1
  rw [hpid]
  exact hU.card

theorem Represents.boost (h : Represents k m) (hU : Among U k m) :
    Represents k.mlfqBoostAll m.boost ∧ Among U k.mlfqBoostAll m.boost := by
  have h₁ := h.boostQueue (i := 1) (by decide) (hU.length_le h 1)
  have hU₁ := hU.boostQueue (i := 1)
  have h₂ := h₁.boostQueue (i := 2) (by decide) (hU₁.length_le h₁ 2)
  have hU₂ := hU₁.boostQueue (i := 2)
  have h₃ := h₂.boostQueue (i := 3) (by decide) (hU₂.length_le h₂ 3)
  rw [Mlfq.boost_eq]
  exact ⟨h₃, hU₂.boostQueue⟩

/-! ## Runs -/

theorem mem_enqueue {q : Nat} {j : Fin numQueues} (hq : q ∈ (m.enqueue p).lists j) :
    q ∈ m.lists j ∨ q = p := by
  unfold Mlfq.enqueue at hq
  split at hq
  all_goals grind

theorem mem_pickNext {q : Nat} {j : Fin numQueues} (hq : q ∈ m.pickNext.1.lists j) :
    q ∈ m.lists j := by
  unfold Mlfq.pickNext at hq
  split at hq
  all_goals grind [mem_of_mem_tail]

theorem mlfqPickNext_nextPid {Q : Fin numQueues → List Nat} (h : Spells k Q) :
    k.mlfqPickNext.1.nextPid = k.nextPid := by
  rcases mlfqPickNext_spec h with ⟨heq, -⟩ | ⟨i, p, l, -, -, heq⟩
  · rw [heq]
  · rw [heq]
    exact frame_nextPid (takeHead_frame k i p)

/-- One operation does to the pointers what it does to the lists. -/
theorem Represents.run {op : MlfqOp} (h : Represents k m) (hU : Among U k m)
    (hop : m.Allowed U op) :
    Represents (k.mlfqRun op).1 (m.run op).1 ∧ Among U (k.mlfqRun op).1 (m.run op).1 ∧
      (k.mlfqRun op).2 = (m.run op).2 := by
  cases op with
  | enqueue p =>
    obtain ⟨hp, hout⟩ := hop
    obtain ⟨h', htails⟩ := h.holds.enqueue (h.tail _) hout
    refine ⟨⟨h', fun j => htails j (h.tail j)⟩, ⟨fun j q hq => ?_, ?_⟩, rfl⟩
    · rcases mem_enqueue hq with hq | rfl
      · exact hU.mem j q hq
      · exact hp
    · rw [mlfqRun, frame_nextPid (mlfqEnqueue_frame k p)]
      exact hU.card
  | pickNext =>
    obtain ⟨h', hres, -⟩ := h.pickNext
    refine ⟨h', ⟨fun j q hq => hU.mem j q (mem_pickNext hq), ?_⟩, hres⟩
    rw [mlfqRun, mlfqPickNext_nextPid h.holds.spells]
    exact hU.card
  | boost =>
    obtain ⟨h', hU'⟩ := h.boost hU
    exact ⟨h', hU', rfl⟩
  | write x =>
    exact ⟨⟨⟨⟨h.holds.spells.chain, h.holds.spells.unique⟩, fun _ => rfl, fun _ => rfl,
      fun _ => rfl⟩, h.tail⟩, ⟨hU.mem, hU.card⟩, rfl⟩

/-- In every run the queues are the lists: every operation returns what it returns on the lists,
heads, links and tails are theirs, and a picked process has no links. -/
theorem mlfq_refines {ops : List MlfqOp} (hU : Among U k m) (h : Represents k m)
    (hops : Along (Mlfq.Allowed U) (fun m op => (m.run op).1) m ops) :
    Represents (k.mlfqRuns ops).1 (m.runs ops).1 ∧ (k.mlfqRuns ops).2 = (m.runs ops).2 ∧
      ∀ p, (k.mlfqRuns ops).1.mlfqPickNext.2 = some p →
        ((k.mlfqRuns ops).1.mlfqPickNext.1.procs p).queueNext = none ∧
          ((k.mlfqRuns ops).1.mlfqPickNext.1.procs p).queuePrev = none := by
  induction ops generalizing k m with
  | nil => exact ⟨h, rfl, h.pickNext.2.2⟩
  | cons op ops ih =>
    obtain ⟨h', hU', hres⟩ := h.run hU hops.1
    obtain ⟨hrest, hout, hlinks⟩ := ih hU' h' hops.2
    refine ⟨hrest, ?_, hlinks⟩
    rw [mlfqRuns, Mlfq.runs, hres, hout]

end

/-- Two processes are enqueued at the third level, and one of them dies before a boost. -/
def boostTwo : List MlfqOp :=
  [.enqueue 1, .enqueue 2,
    .write fun p => { Process.zero with priority := 2, state := if p = 1 then .dead else .ready },
    .boost, .pickNext]

/-- The scheduler after `init_scheduler`, where every process has the third level. -/
def thirdLevel : Kernel :=
  { initScheduler .blank with procs := fun _ => { Process.zero with priority := 2 }, nextPid := 3 }

def thirdLevelLists : Mlfq := ⟨fun _ => [], fun _ => .ready, fun _ => 2, fun _ => 0⟩

theorem represents_thirdLevel : Represents thirdLevel thirdLevelLists :=
  ⟨⟨⟨fun _ => rfl, fun hp => absurd hp not_mem_nil⟩, fun _ => rfl, fun _ => rfl,
    fun _ => rfl⟩, fun _ => rfl⟩

theorem among_thirdLevel : Among {1, 2} thirdLevel thirdLevelLists :=
  ⟨fun _ _ hp => absurd hp not_mem_nil, by decide⟩

theorem mlfq_refines_boostTwo :
    (thirdLevel.mlfqRuns boostTwo).2 = [none, none, none, none, some 2] := by
  have hops : Along (Mlfq.Allowed {1, 2}) (fun m op => (m.run op).1) thirdLevelLists boostTwo :=
    ⟨⟨by decide, by decide⟩, ⟨by decide, by decide⟩, trivial, trivial, trivial, trivial⟩
  rw [(mlfq_refines among_thirdLevel represents_thirdLevel hops).2.1]
  decide

end Kernel

end Aeryk
