import Aeryk.Proc.Exit

/-!
# Reaping orphans

`reap_zombies` counts the ring and then takes that many steps along it.  It unlinks and frees the
nodes it is done with on the way, the head among them.  The successor of a node is read before the
node is freed, so the walk meets every node of the original ring once and none after it was freed.

`checkedReapLoop` is the loop with a check before each access to a process.
-/

namespace Aeryk

open List Lib

def Call.freed : Call → Option Nat
  | .free (.process p) => some p
  | _ => none

namespace Kernel

def Kept (k : Kernel) (p : Nat) : Prop :=
  k.stateOf p ≠ .dead ∨ p = k.current ∨ (k.procs p).parent ≠ none

instance (k : Kernel) (p : Nat) : Decidable (k.Kept p) := inferInstanceAs (Decidable (_ ∨ _))

/-- The processes that were freed, the last one first. -/
def freed (k : Kernel) : List Nat := k.log.filterMap Call.freed

def Allocated (k : Kernel) (p : Nat) : Prop := alive k.log (.process p) = true

instance (k : Kernel) (p : Nat) : Decidable (k.Allocated p) := inferInstanceAs (Decidable (_ = _))

/-- The second loop of `reap_zombies`, which stops at a process that is not allocated. -/
def checkedReapLoop : Nat → Kernel → Nat → Option Kernel
  | 0, k, _ => some k
  | n + 1, k, victim =>
    if k.Allocated victim then
      let node := (k.procs victim).next
      if k.stateOf victim ≠ .dead ∨ victim = k.current ∨ (k.procs victim).parent ≠ none then
        checkedReapLoop n k node
      else if k.Allocated (k.procs victim).prev ∧ k.Allocated (k.procs victim).next then
        let k := k.reap victim
        if k.processQueue = none then some k else checkedReapLoop n k node
      else none
    else none

/-- `reap_zombies` with these checks.  Nothing is freed before the ring has been counted. -/
def checkedReapZombies (k : Kernel) : Option Kernel :=
  match k.processQueue with
  | none => some k
  | some node => checkedReapLoop (k.ringCount node) k node

section

variable {k k' : Kernel} {p q node : Nat} {l kept todo : List Nat}

/-- The processes of the list are the ring. -/
def IsRing (k : Kernel) (l : List Nat) : Prop :=
  Ring (fun p => (k.procs p).next) (fun p => (k.procs p).prev) k.processQueue l

/-! ## One process -/

/-- `destroy_process_vm` frees no process. -/
theorem destroyProcessVm_log (k : Kernel) (p : Nat) :
    ∃ C L, k.destroyProcessVm p = { k with counters := C, log := L } ∧
      L.filterMap Call.freed = k.log.filterMap Call.freed ∧
      ∀ q, alive L (.process q) = alive k.log (.process q) := by
  unfold destroyProcessVm
  dsimp only
  split
  · exact ⟨_, _, rfl, rfl, fun _ => rfl⟩
  split
  · exact ⟨_, _, rfl, rfl, fun _ => by simp⟩
  split
  · exact ⟨_, _, rfl, rfl, fun _ => rfl⟩
  · exact ⟨_, _, rfl, rfl, fun _ => by simp [emit]⟩

/-- A process is unlinked and freed. -/
theorem reap_spec (k : Kernel) (p : Nat) :
    (k.reap p).procs = (k.unlink p).procs ∧ (k.reap p).processQueue = (k.unlink p).processQueue ∧
      (k.reap p).current = k.current ∧ (k.reap p).freed = p :: k.freed ∧
      ∀ q, (k.reap p).Allocated q ↔ q ≠ p ∧ k.Allocated q := by
  obtain ⟨C, L, heq, hfreed, halive⟩ :=
    destroyProcessVm_log ((k.unlink p).emit (.free (.stack (k.procs p).kernelStack))) p
  have hlog : (k.unlink p).log = k.log := by rw [unlink_eq]
  have hcurrent : (k.unlink p).current = k.current := by rw [unlink_eq]
  unfold reap Allocated freed
  dsimp only
  rw [heq]
  refine ⟨rfl, rfl, hcurrent, ?_, fun q => ?_⟩
  · refine congrArg (p :: ·) (hfreed.trans ?_)
    rw [emit, hlog]
    rfl
  · have hsame : alive L (.process q) = alive k.log (.process q) := by
      rw [halive q, emit, hlog]
      simp
    rw [emit, alive_free, hsame]
    simp [ne_comm]

/-- Who is to be reaped does not change on the way. -/
theorem kept_reap : (k.reap p).Kept q ↔ k.Kept q := by
  obtain ⟨hprocs, -, hcurrent, -, -⟩ := reap_spec k p
  unfold Kept stateOf
  rw [hprocs, hcurrent, unlink_proj Process.state (fun _ _ _ => rfl),
    unlink_proj Process.parent (fun _ _ _ => rfl)]

theorem IsRing.reap (h : k.IsRing l) (hp : p ∈ l) : (k.reap p).IsRing (l.erase p) := by
  obtain ⟨hprocs, hqueue, -, -, -⟩ := reap_spec k p
  unfold IsRing
  rw [hprocs, hqueue]
  exact unlink_ring h hp

/-! ## The walk -/

/-- The walk goes on with the next process of the ring. -/
theorem IsRing.next_eq (h : k.IsRing (kept ++ p :: todo)) (hnode : todo.head? = some node) :
    (k.procs p).next = node := by
  obtain ⟨c, -, hc⟩ := h.head_of_mem (a := p) (by simp)
  obtain ⟨d, -, -, hrest⟩ := path_append.mp (h.path c hc)
  cases todo with
  | nil => cases hnode
  | cons b todo =>
    cases hnode
    exact hrest.1

/-- From a point of the walk on, where the processes in `kept` have been passed. -/
theorem reapLoop_spec (h : k.IsRing (kept ++ todo)) (hal : ∀ p ∈ kept ++ todo, k.Allocated p)
    (hnode : ∀ p ∈ todo.head?, node = p) :
    (reapLoop todo.length k node).IsRing (kept ++ todo.filter k.Kept) ∧
      (reapLoop todo.length k node).freed = (todo.filter (¬k.Kept ·)).reverse ++ k.freed ∧
      checkedReapLoop todo.length k node = some (reapLoop todo.length k node) := by
  induction todo generalizing k kept node with
  | nil => exact ⟨h, rfl, rfl⟩
  | cons p todo ih =>
    obtain rfl : node = p := hnode p rfl
    have hmem : node ∈ kept ++ node :: todo := by simp
    have hnext : ∀ q ∈ todo.head?, (k.procs node).next = q := fun q hq => h.next_eq hq
    by_cases hkept : k.Kept node
    · have hloop : reapLoop (todo.length + 1) k node =
          reapLoop todo.length k (k.procs node).next := if_pos hkept
      have hcheck : checkedReapLoop (todo.length + 1) k node =
          checkedReapLoop todo.length k (k.procs node).next :=
        (if_pos (hal node hmem)).trans (if_pos hkept)
      rw [length_cons, hloop, hcheck, filter_cons_of_pos (by simpa using hkept),
        filter_cons_of_neg (by simpa using hkept), append_cons]
      rw [append_cons] at h hal
      exact ih h hal hnext
    · have hloop : reapLoop (todo.length + 1) k node =
          if (k.reap node).processQueue = none then k.reap node
          else reapLoop todo.length (k.reap node) (k.procs node).next := if_neg hkept
      have hcheck : checkedReapLoop (todo.length + 1) k node =
          if (k.reap node).processQueue = none then some (k.reap node)
          else checkedReapLoop todo.length (k.reap node) (k.procs node).next :=
        (if_pos (hal node hmem)).trans ((if_neg hkept).trans
          (if_pos ⟨hal _ (h.next_prev hmem).1, hal _ (h.next_mem hmem)⟩))
      obtain ⟨-, -, -, hfreed, hallocated⟩ := reap_spec k node
      have hout : node ∉ kept ++ todo := by
        have hnd := h.nodup
        rw [nodup_middle, nodup_cons] at hnd
        exact hnd.1
      have hring := h.reap hmem
      rw [erase_append_right _ fun hm => hout (mem_append_left _ hm),
        erase_cons_head] at hring
      have hrest := ih hring (fun q hq => (hallocated q).mpr ⟨fun he => hout (he ▸ hq),
        hal q (by simp only [mem_append, mem_cons] at hq ⊢; tauto)⟩) hnext
      simp only [kept_reap] at hrest
      rw [length_cons, hloop, hcheck, filter_cons_of_neg (by simpa using hkept),
        filter_cons_of_pos (by simpa using hkept), reverse_cons, append_assoc,
        singleton_append, ← hfreed]
      split
      next hnone =>
        -- the ring is empty, and so is what is left of the walk
        have hempty : kept ++ todo = [] := head?_eq_none_iff.mp (hring.head_eq ▸ hnone)
        obtain ⟨rfl, rfl⟩ := append_eq_nil_iff.mp hempty
        exact ⟨hring, rfl, rfl⟩
      · exact hrest

/-- `reap_zombies` takes exactly the dead orphans other than the current process out of the ring,
frees each once, and touches none after that. -/
theorem reapZombies_exact (h : k.IsRing l) (hlen : l.length ≤ k.nextPid)
    (hal : ∀ p ∈ l, k.Allocated p) :
    k.reapZombies.IsRing (l.filter k.Kept) ∧
      (k.reapZombies.processQueue = none ↔ ∀ p ∈ l, ¬k.Kept p) ∧
      k.reapZombies.freed = (l.filter (¬k.Kept ·)).reverse ++ k.freed ∧
      k.checkedReapZombies = some k.reapZombies := by
  have hspec : k.reapZombies.IsRing (l.filter k.Kept) ∧
      k.reapZombies.freed = (l.filter (¬k.Kept ·)).reverse ++ k.freed ∧
      k.checkedReapZombies = some k.reapZombies := by
    have hhead := h.head_eq
    unfold reapZombies checkedReapZombies
    cases hq : k.processQueue with
    | none =>
      rw [hq] at hhead
      obtain rfl := head?_eq_none_iff.mp hhead.symm
      exact ⟨h, rfl, rfl⟩
    | some node =>
      have hring := h
      unfold IsRing at hring
      rw [hq] at hring hhead
      have hcount : k.ringCount node = l.length := hring.lapCount_eq hlen
      dsimp only
      rw [hcount]
      have hstart : k.IsRing ([] ++ l) := h
      exact reapLoop_spec hstart hal fun p hp => Option.some.inj (hhead.trans hp)
  refine ⟨hspec.1, ?_, hspec.2⟩
  rw [hspec.1.head_eq, head?_eq_none_iff, filter_eq_nil_iff]
  simp

end

/-- A ring of three processes, whose head is a dead orphan. -/
def deadHead : Kernel :=
  { initScheduler .blank with
    procs := fun p =>
      { Process.zero with
        next := (p + 1) % 3
        prev := (p + 2) % 3
        state := if p = 1 then .dead else .ready }
    processQueue := some 1
    nextPid := 3
    log := [.alloc (.process 0), .alloc (.process 1), .alloc (.process 2)] }

theorem reapZombies_exact_deadHead : deadHead.reapZombies.freed = [1] := by
  have hring : deadHead.IsRing [1, 2, 0] := by
    refine ⟨rfl, fun h e => ?_, by decide, by decide⟩
    cases e
    exact ⟨rfl, rfl, rfl, rfl⟩
  exact (reapZombies_exact hring (by decide) (by decide)).2.2.1.trans (by decide)

end Kernel

end Aeryk
