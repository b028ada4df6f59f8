import Mathlib

/-!
# Cyclic windows

A circular buffer of capacity `n` is a function on slots, read through a window: the `len` slots
that follow `start`, modulo `n`.  The lemmas say how the window moves when its first slot is
dropped or the slot just behind it is filled, which leaves a window that is not full alone.
-/

namespace Aeryk.Lib

open Function

variable {α : Type*}

/-- The contents of the `len` slots from `start` on, in order, modulo `n`. -/
def window (n : Nat) (buf : Nat → α) (start len : Nat) : List α :=
  (List.range len).map fun i => buf ((start + i) % n)

@[simp] theorem window_length (n : Nat) (buf : Nat → α) (start len : Nat) :
    (window n buf start len).length = len := by
  simp [window]

/-- The window without its first slot starts one slot further. -/
theorem window_succ (n : Nat) (buf : Nat → α) (start len : Nat) :
    window n buf start (len + 1) =
      buf (start % n) :: window n buf ((start + 1) % n) len := by
  simp only [window, List.range_succ_eq_map, List.map_cons, List.map_map, Nat.add_zero]
  congr 1
  apply List.map_congr_left
  intro i _
  simp only [comp_apply]
  congr 1
  rw [Nat.mod_add_mod]
  congr 1
  omega

/-- The window grows at its end by the slot behind it. -/
theorem window_snoc (n : Nat) (buf : Nat → α) (start len : Nat) :
    window n buf start (len + 1) = window n buf start len ++ [buf ((start + len) % n)] := by
  simp [window, List.range_succ]

/-- Two offsets of a window below its capacity never share a slot. -/
theorem offset_mod_ne {n start i j : Nat} (hi : i < j) (hj : j < n) :
    (start + i) % n ≠ (start + j) % n := by
  intro h
  have hd : (j - i) % n = 0 := by
    have := (Nat.modEq_iff_dvd' (n := n) (show start + i ≤ start + j by omega)).mp h
    rw [show start + j - (start + i) = j - i by omega] at this
    exact Nat.mod_eq_zero_of_dvd this
  rw [Nat.mod_eq_of_lt (by omega)] at hd
  omega

/-- Filling the slot behind a window that is not full leaves the window alone. -/
theorem window_update {n : Nat} (buf : Nat → α) (start len : Nat) (x : α) (h : len < n) :
    window n (update buf ((start + len) % n) x) start len = window n buf start len := by
  apply List.map_congr_left
  intro i hi
  exact update_of_ne (offset_mod_ne (List.mem_range.mp hi) h) _ _

/-- Filling the slot behind a window that is not full appends to it. -/
theorem window_push {n : Nat} (buf : Nat → α) (start len : Nat) (x : α) (h : len < n) :
    window n (update buf ((start + len) % n) x) start (len + 1) =
      window n buf start len ++ [x] := by
  rw [window_snoc, window_update buf start len x h, update_self]

end Aeryk.Lib
