import Mathlib.Data.Nat.ModEq

/-!
# A stream written round a buffer

Items of a stream are stored one run after the other into a buffer of `n` cells, over and over.
The last `n` items are then in the buffer, each in the cell that its place in the stream gives
modulo `n`.
-/

namespace Aeryk.Lib

variable {α : Type} {b : Nat → α} {n : Nat} {d w : List α}

/-- The items of `w` stored from cell `i` on. -/
def store (b : Nat → α) (i : Nat) (w : List α) : Nat → α := fun j =>
  if h : i ≤ j ∧ j < i + w.length then w.get ⟨j - i, by omega⟩ else b j

theorem store_inside {i j : Nat} (hj : j < w.length) : store b i w (i + j) = w[j] := by
  unfold store
  rw [dif_pos ⟨Nat.le_add_right i j, Nat.add_lt_add_left hj i⟩]
  simp only [List.get_eq_getElem, Nat.add_sub_cancel_left]

theorem store_outside {i j : Nat} (h : ¬(i ≤ j ∧ j < i + w.length)) : store b i w j = b j :=
  dif_neg h

@[simp] theorem store_nil (b : Nat → α) (i : Nat) : store b i [] = b := by
  funext j
  exact store_outside (by simp)

/-- Two runs stored one after the other are one run. -/
theorem store_append (b : Nat → α) (i : Nat) (v w : List α) :
    store (store b i v) (i + v.length) w = store b i (v ++ w) := by
  funext j
  by_cases hw : i + v.length ≤ j ∧ j < i + v.length + w.length
  · obtain ⟨k, rfl⟩ := Nat.exists_eq_add_of_le hw.1
    have hk : k < w.length := by omega
    rw [store_inside hk, Nat.add_assoc, store_inside (by rw [List.length_append]; omega),
      List.getElem_append_right (Nat.le_add_right _ _)]
    simp only [Nat.add_sub_cancel_left]
  · rw [store_outside hw]
    by_cases hv : i ≤ j ∧ j < i + v.length
    · obtain ⟨k, rfl⟩ := Nat.exists_eq_add_of_le hv.1
      have hk : k < v.length := by omega
      rw [store_inside hk, store_inside (by rw [List.length_append]; omega),
        List.getElem_append_left hk]
    · rw [store_outside hv, store_outside (by rw [List.length_append]; omega)]

/-- The last `n` items of the stream `d` are in the buffer. -/
def Recent (b : Nat → α) (n : Nat) (d : List α) : Prop :=
  ∀ q, (h : q < d.length) → d.length ≤ q + n → b (q % n) = d[q]

theorem recent_nil (b : Nat → α) (n : Nat) : Recent b n [] :=
  fun q h => absurd h (Nat.not_lt_zero q)

/-- A place of the stream that shares its cell with one of the next items is too old. -/
theorem old_of_mod_eq {q l i : Nat} (hq : q < l + i) (hmod : q % n = (l + i) % n) :
    q + n ≤ l + i := by
  have hdvd : n ∣ l + i - q := (Nat.modEq_iff_dvd' (Nat.le_of_lt hq)).mp hmod
  have hle := Nat.le_of_dvd (by omega) hdvd
  omega

/-- A run that does not go beyond the end of the buffer. -/
theorem Recent.store (h : Recent b n d) (hrun : d.length % n + w.length ≤ n) :
    Recent (store b (d.length % n) w) n (d ++ w) := by
  intro q hq hrecent
  rw [List.length_append] at hq hrecent
  rcases Nat.lt_or_ge q d.length with hold | hnew
  · rw [List.getElem_append_left hold, store_outside, h q hold (by omega)]
    rintro ⟨hle, hlt⟩
    -- the cell is written by the item at `i` of the run
    obtain ⟨i, hi⟩ := Nat.exists_eq_add_of_le hle
    have hmod : q % n = (d.length + i) % n := by
      have hn : d.length % n + i < n := by omega
      rw [hi, ← Nat.mod_add_mod, Nat.mod_eq_of_lt hn]
    have hback := old_of_mod_eq (by omega) hmod
    omega
  · obtain ⟨i, rfl⟩ := Nat.exists_eq_add_of_le hnew
    have hi : i < w.length := by omega
    have hcell : (d.length + i) % n = d.length % n + i := by
      have hn : d.length % n + i < n := by omega
      rw [← Nat.mod_add_mod, Nat.mod_eq_of_lt hn]
    rw [hcell, store_inside hi, List.getElem_append_right hnew]
    simp only [Nat.add_sub_cancel_left]

end Aeryk.Lib
