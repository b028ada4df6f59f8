import Aeryk.Proc.Mlfq

/-!
# Enqueueing a process that is queued

The comment on `mlfq_enqueue` says that a process which is in the queue already is not enqueued
again.  The code asks for the state only.  A live process that is queued becomes the successor of
the last one in its queue, which may be the process itself, so the queue no longer ends there.

As long as every process that is enqueued is dead or on no queue, the links spell out lists, so the
loops of `mlfq_boost_all` and `mlfq_pick_next` come to an end.
-/

namespace Aeryk

open Function Lib

/-- Only processes that are dead, or exist and are not queued, are enqueued. -/
def Mlfq.Harmless (U : Finset Nat) (m : Mlfq) : MlfqOp → Prop
  | .enqueue p => m.state p = .dead ∨ p ∈ U ∧ ∀ i, p ∉ m.lists i
  | _ => True

namespace Kernel

/-- The loop over queue `i` is left, within as many turns as there are pids. -/
def LoopEnds (k : Kernel) (i : Fin numQueues) : Prop :=
  ((boostLoop i k.nextPid k).mlfq i).head = none

/-- All loops of `mlfq_boost_all` are left. -/
def BoostEnds (k : Kernel) : Prop :=
  k.LoopEnds 1 ∧ (k.boostQueue 1).LoopEnds 2 ∧ ((k.boostQueue 1).boostQueue 2).LoopEnds 3

/-- Some call of `mlfq_pick_next` finds no process. -/
def PicksEnd (k : Kernel) : Prop :=
  ∃ n, ((fun k => k.mlfqPickNext.1)^[n] k).mlfqPickNext.2 = none

section

variable {U : Finset Nat} {k : Kernel} {m : Mlfq} {p t : Nat} {i : Fin numQueues}

/-! ## One call -/

/-- The last process of a queue is linked to the one that is enqueued. -/
theorem mlfqEnqueue_last (hd : k.stateOf p ≠ .dead)
    (hhead : (k.mlfq (k.procs p).priority).head ≠ none)
    (ht : (k.mlfq (k.procs p).priority).tail = some t) :
    ((k.mlfqEnqueue p).procs t).queueNext = some p := by
  obtain ⟨b, hb⟩ := Option.ne_none_iff_exists'.mp hhead
  unfold mlfqEnqueue
  rw [if_neg hd]
  dsimp only
  rw [modify_same, modify_mlfq, hb, ht]
  rw [setQueue_procs, modify_same]

/-- A second call leaves the queues as they are only if the process is dead. -/
theorem Represents.enqueue_queued_iff (h : Represents k m) (hp : p ∈ m.lists (m.priority p)) :
    Spells (k.mlfqEnqueue p) m.lists ↔ m.state p = .dead := by
  constructor
  · intro hspells
    by_contra hd
    obtain ⟨t, hlast⟩ : ∃ t, (m.lists (m.priority p)).getLast? = some t :=
      Option.isSome_iff_exists.mp (by simpa using List.ne_nil_of_mem hp)
    have hprio := h.holds.priority p
    have hhead : (k.mlfq (m.priority p)).head ≠ none := by
      rw [(h.holds.spells.chain _).head_eq]
      simpa using List.ne_nil_of_mem hp
    have hnext := mlfqEnqueue_last (t := t) (by rwa [h.holds.state]) (by rwa [hprio])
      (by rw [hprio, h.tail, hlast])
    rw [(hspells.chain _).next_last hlast] at hnext
    cases hnext
  · intro hd
    have hsame : k.mlfqEnqueue p = k := if_pos ((h.holds.state p).trans hd)
    rw [hsame]
    exact h.holds.spells

/-! ## Loops that end -/

theorem Represents.loopEnds (h : Represents k m) (hi : i ≠ 0)
    (hlen : (m.lists i).length ≤ k.nextPid) : k.LoopEnds i := by
  have hchain := (h.holds.boostLoop hi (fun j _ => h.tail j) hlen).1.spells.chain i
  rw [Mlfq.lists_level_same hi] at hchain
  exact hchain

theorem Represents.boostEnds (h : Represents k m) (hU : Among U k m) : k.BoostEnds := by
  have h₁ := h.boostQueue (i := 1) (by decide) (hU.length_le h 1)
  have hU₁ := hU.boostQueue (i := 1)
  have h₂ := h₁.boostQueue (i := 2) (by decide) (hU₁.length_le h₁ 2)
  have hU₂ := hU₁.boostQueue (i := 2)
  exact ⟨h.loopEnds (by decide) (hU.length_le h 1), h₁.loopEnds (by decide) (hU₁.length_le h₁ 2),
    h₂.loopEnds (by decide) (hU₂.length_le h₂ 3)⟩

/-- Each pick takes a process off the lists. -/
theorem Represents.picksEnd (h : Represents k m) : k.PicksEnd := by
  induction hn : ∑ i, (m.lists i).length using Nat.strong_induction_on generalizing k m with
  | _ n ih =>
    rcases mlfqPickNext_spec h.holds.spells with ⟨heq, -⟩ | ⟨i, p, l, hnil, hl, -⟩
    · exact ⟨0, congrArg Prod.snd heq⟩
    · obtain ⟨h', -, -⟩ := h.pickNext
      have hless : ∑ j, (m.pickNext.1.lists j).length < ∑ j, (m.lists j).length := by
        rw [pickNext_of_cons hnil hl]
        refine Finset.sum_lt_sum (fun j _ => ?_) ⟨i, Finset.mem_univ i, ?_⟩
        · by_cases hj : j = i
          · subst hj
            simp [hl]
          · simp [hj]
        · simp [hl]
      obtain ⟨turns, hturns⟩ := ih _ (hn ▸ hless) h' rfl
      exact ⟨turns + 1, hturns⟩

/-! ## Runs -/

theorem Represents.run_harmless {op : MlfqOp} (h : Represents k m) (hU : Among U k m)
    (hop : m.Harmless U op) :
    Represents (k.mlfqRun op).1 (m.run op).1 ∧ Among U (k.mlfqRun op).1 (m.run op).1 := by
  by_cases hallowed : m.Allowed U op
  · obtain ⟨h', hU', -⟩ := h.run hU hallowed
    exact ⟨h', hU'⟩
  · cases op with
    | enqueue p =>
      have hd := hop.resolve_right hallowed
      have hk : k.mlfqEnqueue p = k := if_pos ((h.holds.state p).trans hd)
      have hm : m.enqueue p = m := if_pos hd
      rw [mlfqRun, Mlfq.run, hk, hm]
      exact ⟨h, hU⟩
    | pickNext | boost | write x => exact absurd trivial hallowed

theorem Represents.runs_harmless {ops : List MlfqOp} (h : Represents k m) (hU : Among U k m)
    (hops : Along (Mlfq.Harmless U) (fun m op => (m.run op).1) m ops) :
    Represents (k.mlfqRuns ops).1 (m.runs ops).1 ∧ Among U (k.mlfqRuns ops).1 (m.runs ops).1 := by
  induction ops generalizing k m with
  | nil => exact ⟨h, hU⟩
  | cons op ops ih =>
    obtain ⟨h', hU'⟩ := h.run_harmless hU hops.1
    exact ih h' hU' hops.2

/-- As long as only processes that are dead or on no queue are enqueued, the queues are lists,
boosts and picks come to an end, and to enqueue a queued process changes no queue exactly if it is
dead. -/
theorem enqueue_again_iff {ops : List MlfqOp} (hU : Among U k m) (h : Represents k m)
    (hops : Along (Mlfq.Harmless U) (fun m op => (m.run op).1) m ops) :
    Represents (k.mlfqRuns ops).1 (m.runs ops).1 ∧ (k.mlfqRuns ops).1.BoostEnds ∧
      (k.mlfqRuns ops).1.PicksEnd ∧
      ∀ p ∈ (m.runs ops).1.lists ((m.runs ops).1.priority p),
        Spells ((k.mlfqRuns ops).1.mlfqEnqueue p) (m.runs ops).1.lists ↔
          (m.runs ops).1.state p = .dead := by
  obtain ⟨h', hU'⟩ := h.runs_harmless hU hops
  exact ⟨h', h'.boostEnds hU', h'.picksEnd, fun p hp => h'.enqueue_queued_iff hp⟩

/-! ## A loop that does not end -/

/-- A dead process that is its own successor at the head of a queue is met in every turn. -/
theorem boostLoop_hangs (turns : Nat) (hd : k.stateOf p = .dead)
    (hhead : (k.mlfq i).head = some p) (hnext : (k.procs p).queueNext = some p) :
    ((boostLoop i turns k).mlfq i).head = some p := by
  induction turns generalizing k with
  | zero => exact hhead
  | succ turns ih =>
    unfold boostLoop
    rw [hhead]
    dsimp only
    rw [mlfqEnqueue, if_pos (by rw [stateOf, modify_same]; exact hd)]
    refine ih ?_ ?_ ?_
    · rw [stateOf, modify_same]
      exact hd
    · rw [modify_mlfq, setQueue_same]
      exact hnext
    · rw [modify_same]
      exact hnext

end

def enqueuedTwice : Kernel := (thirdLevel.mlfqEnqueue 1).mlfqEnqueue 1

/-- The process becomes its own successor.  Once it has died, a boost does not come to an end. -/
theorem enqueued_twice_hangs :
    Represents (thirdLevel.mlfqEnqueue 1) (thirdLevelLists.enqueue 1) ∧
      1 ∈ (thirdLevelLists.enqueue 1).lists ((thirdLevelLists.enqueue 1).priority 1) ∧
      (enqueuedTwice.procs 1).queueNext = some 1 ∧
      ∀ turns, ((boostLoop 2 turns (enqueuedTwice.setState 1 .dead)).mlfq 2).head = some 1 := by
  obtain ⟨hholds, htails⟩ := represents_thirdLevel.holds.enqueue (p := 1)
    (represents_thirdLevel.tail _) (fun _ => List.not_mem_nil)
  refine ⟨⟨hholds, fun j => htails j (represents_thirdLevel.tail j)⟩, by decide, by decide, ?_⟩
  exact fun turns => boostLoop_hangs turns (by decide) (by decide) (by decide)

/-- A process is enqueued.  It is alive, so to enqueue it again changes its queue. -/
theorem enqueue_again_iff_single :
    (thirdLevel.mlfqRuns [.enqueue 1]).1.BoostEnds ∧
      ¬Spells ((thirdLevel.mlfqRuns [.enqueue 1]).1.mlfqEnqueue 1)
        (thirdLevelLists.runs [.enqueue 1]).1.lists := by
  have hops : Along (Mlfq.Harmless {1, 2}) (fun m op => (m.run op).1) thirdLevelLists
      [.enqueue 1] := ⟨.inr ⟨by decide, by decide⟩, trivial⟩
  obtain ⟨-, hboost, -, hagain⟩ := enqueue_again_iff among_thirdLevel represents_thirdLevel hops
  exact ⟨hboost, fun hsame => absurd ((hagain 1 (by decide)).mp hsame) (by decide)⟩

end Kernel

end Aeryk
