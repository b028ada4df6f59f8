import Mathlib

/-!
# Sleepers on a wait queue

One side of a blocking resource: a number of available units, a queue of parked sleepers that wait
for a unit or for the other side to close, the sleepers that were popped and have not run since,
and the wakers that have promised to empty the queue.  Every unit gained pops at most one sleeper.
So what rules out a lost wake-up is a count: while somebody is parked, no more units are available
than woken sleepers are still on their way (`Covered`).
-/

namespace Aeryk.Lib

variable {ι : Type*}

/-- What one side of a blocking resource shows to its wait queue. -/
structure Sleepers (ι : Type*) where
  /-- Units a sleeper could take now. -/
  avail : Nat
  /-- The other side is gone, so nobody on this side has to wait. -/
  closed : Prop
  /-- The wait queue, first to be woken first. -/
  parked : List ι
  /-- Popped from the queue and not run since. -/
  woken : Set ι
  /-- Will still empty the queue. -/
  wakers : Set ι

namespace Sleepers

variable {v v' : Sleepers ι}

/-- Nobody is parked without a reason that is about to be resolved. -/
structure Covered (v : Sleepers ι) : Prop where
  avail_le : ¬ v.closed → v.parked ≠ [] → (v.avail : ℕ∞) ≤ v.woken.encard
  closed_waker : v.closed → v.parked ≠ [] → v.wakers.Nonempty

/-- A covered queue is never stuck: who is parked while there is something to take, or nothing left
to wait for, has a wake-up on its way. -/
theorem Covered.pending (h : Covered v) (hp : v.parked ≠ []) (hg : 0 < v.avail ∨ v.closed) :
    v.woken.Nonempty ∨ v.wakers.Nonempty := by
  by_cases hc : v.closed
  · exact .inr (h.closed_waker hc hp)
  · have ha : 0 < v.avail := hg.resolve_right hc
    have hle := h.avail_le hc hp
    refine .inl (Set.encard_pos.mp (lt_of_lt_of_le ?_ hle))
    exact_mod_cast ha

/-- An empty queue is covered. -/
theorem covered_of_nil (hp : v.parked = []) : Covered v :=
  ⟨fun _ h => absurd hp h, fun _ h => absurd hp h⟩

/-- A queue is covered while there is nothing to take and something to wait for. -/
theorem covered_of_waiting (ha : v.avail = 0) (hc : ¬ v.closed) : Covered v :=
  ⟨fun _ _ => by simp [ha], fun h => absurd h hc⟩

/-- A queue is covered once it is closed and somebody will empty it. -/
theorem covered_of_waker (hc : v.closed) (hk : v.wakers.Nonempty) : Covered v :=
  ⟨fun h => absurd hc h, fun _ _ => hk⟩

/-- A change that gains no unit and loses no woken sleeper and no waker. -/
theorem Covered.mono (h : Covered v) (hp : v'.parked ≠ [] → v.parked ≠ [])
    (ha : v'.avail ≤ v.avail) (hc : v'.closed ↔ v.closed) (hw : v.woken ⊆ v'.woken)
    (hk : v.wakers ⊆ v'.wakers) : Covered v' := by
  refine ⟨fun hnc hne => ?_, fun hcl hne => (h.closed_waker (hc.mp hcl) (hp hne)).mono hk⟩
  calc (v'.avail : ℕ∞) ≤ v.avail := by exact_mod_cast ha
    _ ≤ v.woken.encard := h.avail_le (fun hcl => hnc (hc.mpr hcl)) (hp hne)
    _ ≤ v'.woken.encard := Set.encard_le_encard hw

/-- The first sleeper is popped, and with it at most one unit is gained. -/
theorem Covered.pop (h : Covered v) {w : ι} (hp : v.parked = w :: v'.parked)
    (hwk : w ∉ v.woken) (ha : v'.avail ≤ v.avail + 1) (hc : v'.closed ↔ v.closed)
    (hw : insert w v.woken ⊆ v'.woken) (hk : v.wakers ⊆ v'.wakers) : Covered v' := by
  have hne : v.parked ≠ [] := by simp [hp]
  refine ⟨fun hnc _ => ?_, fun hcl _ => (h.closed_waker (hc.mp hcl) hne).mono hk⟩
  calc (v'.avail : ℕ∞) ≤ v.avail + 1 := by exact_mod_cast ha
    _ ≤ v.woken.encard + 1 := by
        gcongr
        exact h.avail_le (fun hcl => hnc (hc.mpr hcl)) hne
    _ = (insert w v.woken).encard := (Set.encard_insert_of_notMem hwk).symm
    _ ≤ v'.woken.encard := Set.encard_le_encard hw

/-- One unit is taken, by a woken sleeper or by anybody else. -/
theorem Covered.take (h : Covered v) (q : ι) (hp : v'.parked ≠ [] → v.parked ≠ [])
    (ha : v'.avail ≤ v.avail - 1) (hc : v'.closed ↔ v.closed) (hw : v.woken \ {q} ⊆ v'.woken)
    (hk : v.wakers ⊆ v'.wakers) : Covered v' := by
  refine ⟨fun hnc hne => ?_, fun hcl hne => (h.closed_waker (hc.mp hcl) (hp hne)).mono hk⟩
  have hle := h.avail_le (fun hcl => hnc (hc.mpr hcl)) (hp hne)
  calc (v'.avail : ℕ∞) ≤ ((v.avail - 1 : Nat) : ℕ∞) := by exact_mod_cast ha
    _ = (v.avail : ℕ∞) - 1 := by norm_cast
    _ ≤ v.woken.encard - 1 := tsub_le_tsub_right hle 1
    _ ≤ (v.woken \ {q}).encard := Set.encard_tsub_one_le_encard_sdiff_singleton v.woken q
    _ ≤ v'.woken.encard := Set.encard_le_encard hw

/-- On a closed side nothing but the queue and its wakers counts. -/
theorem Covered.closed_mono (h : Covered v) (hc : v.closed) (hc' : v'.closed)
    (hp : v'.parked ≠ [] → v.parked ≠ []) (hk : v.wakers ⊆ v'.wakers) : Covered v' :=
  ⟨fun hnc => absurd hc' hnc, fun _ hne => (h.closed_waker hc (hp hne)).mono hk⟩

end Sleepers

end Aeryk.Lib
