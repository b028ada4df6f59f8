import Aeryk.Lib.Window

/-!
# A ring with a free slot

A buffer of `n` slots with the next slot to write and the next slot to read.  One slot always stays
free, so equal indices mean empty.  An item that finds the buffer full is dropped.

The items are a window from `tail` on (`items`), and the two operations are an append and a head of
that list.
-/

namespace Aeryk.Lib

open List

structure Fifo (α : Type*) (n : Nat) where
  /-- The slots. -/
  buf : Nat → α
  /-- Next slot to write. -/
  head : Nat
  /-- Next slot to read. -/
  tail : Nat
  head_lt : head < n
  tail_lt : tail < n

namespace Fifo

variable {α : Type*} {n : Nat}

/-- A ring whose indices both stand at its first slot. -/
def empty (x : α) (n : Nat) (h : 0 < n) : Fifo α n := ⟨fun _ => x, 0, 0, h, h⟩

/-- The item is stored, or dropped when the ring is full. -/
def push (r : Fifo α n) (x : α) : Fifo α n :=
  let next := (r.head + 1) % n
  if next = r.tail then r
  else { r with
    buf := Function.update r.buf r.head x
    head := next
    head_lt := Nat.mod_lt _ (Nat.zero_lt_of_lt r.head_lt) }

/-- The oldest item and the ring without it. -/
def pop (r : Fifo α n) : Option (α × Fifo α n) :=
  if r.tail = r.head then none
  else some (r.buf r.tail,
    { r with
      tail := (r.tail + 1) % n
      tail_lt := Nat.mod_lt _ (Nat.zero_lt_of_lt r.tail_lt) })

def count (r : Fifo α n) : Nat := if r.tail ≤ r.head then r.head - r.tail else r.head + n - r.tail

/-- The items in the ring, the oldest first. -/
def items (r : Fifo α n) : List α := window n r.buf r.tail r.count

variable {r r' : Fifo α n} {x : α}

theorem count_lt (r : Fifo α n) : r.count < n := by
  have hhead := r.head_lt
  have htail := r.tail_lt
  unfold count
  split <;> omega

theorem head_eq (r : Fifo α n) : (r.tail + r.count) % n = r.head := by
  have hhead := r.head_lt
  have htail := r.tail_lt
  unfold count
  split
  · rw [Nat.add_sub_cancel' (by assumption), Nat.mod_eq_of_lt hhead]
  · rw [show r.tail + (r.head + n - r.tail) = r.head + n by omega, Nat.add_mod_right,
      Nat.mod_eq_of_lt hhead]

/-- The next index of a ring. -/
theorem next_index {i : Nat} (hi : i < n) : (i + 1) % n = if i + 1 = n then 0 else i + 1 := by
  split
  next h => rw [h, Nat.mod_self]
  · exact Nat.mod_eq_of_lt (by omega)

theorem full_iff (r : Fifo α n) : (r.head + 1) % n = r.tail ↔ r.count + 1 = n := by
  have hhead := r.head_lt
  have htail := r.tail_lt
  rw [next_index hhead]
  unfold count
  split <;> split <;> omega

@[simp] theorem length_items (r : Fifo α n) : r.items.length = r.count := window_length ..

theorem items_length_lt (r : Fifo α n) : r.items.length < n := by
  rw [length_items]
  exact r.count_lt

/-- A full ring drops what arrives, and any other ring takes it at its end. -/
theorem items_push (r : Fifo α n) (x : α) :
    (r.push x).items = if r.items.length + 1 = n then r.items else r.items ++ [x] := by
  have hhead := r.head_lt
  have htail := r.tail_lt
  rw [length_items, push]
  by_cases hfull : (r.head + 1) % n = r.tail
  · rw [if_pos hfull, if_pos (r.full_iff.mp hfull)]
  · have hroom : r.count + 1 ≠ n := fun h => hfull (r.full_iff.mpr h)
    rw [if_neg hfull, if_neg hroom]
    have hcount : count { r with
        buf := Function.update r.buf r.head x
        head := (r.head + 1) % n
        head_lt := Nat.mod_lt _ (Nat.zero_lt_of_lt r.head_lt) } = r.count + 1 := by
      have hstep := next_index hhead
      rw [hstep] at hfull
      simp only [count, hstep]
      by_cases hwrap : r.head + 1 = n
      · simp only [if_pos hwrap] at hfull ⊢
        split <;> split <;> omega
      · simp only [if_neg hwrap] at hfull ⊢
        split <;> split <;> omega
    rw [items, hcount, items]
    have hpush := window_push r.buf r.tail r.count x r.count_lt
    rw [r.head_eq] at hpush
    exact hpush

theorem pop_eq_none_iff : r.pop = none ↔ r.items = [] := by
  have hhead := r.head_lt
  have htail := r.tail_lt
  rw [pop, ← length_eq_zero_iff, length_items, count]
  split <;> split <;> simp <;> omega

/-- What is taken out is the oldest item. -/
theorem items_of_pop (h : r.pop = some (x, r')) : r.items = x :: r'.items := by
  have hhead := r.head_lt
  have htail := r.tail_lt
  rw [pop] at h
  split at h
  · cases h
  next hne =>
    injection h with h
    injection h with hx hr
    have hcount : r.count = r'.count + 1 := by
      have hstep := next_index htail
      subst hr
      simp only [count, hstep]
      split <;> split <;> split <;> omega
    rw [items, hcount, window_succ, Nat.mod_eq_of_lt htail, hx, items, ← hr]

/-- Items that arrive while nothing is taken out. -/
theorem items_pushes (xs : List α) (r : Fifo α n) :
    (xs.foldl push r).items = r.items ++ xs.take (n - 1 - r.items.length) := by
  have hlt := r.items_length_lt
  induction xs generalizing r with
  | nil => simp
  | cons x xs ih =>
    rw [foldl_cons, ih _ (r.push x).items_length_lt, items_push]
    split
    next hfull =>
      have hnone : n - 1 - r.items.length = 0 := by omega
      rw [hnone, take_zero, take_zero]
    next hroom =>
      have hsome : n - 1 - r.items.length = n - 1 - (r.items ++ [x]).length + 1 := by
        rw [length_append, length_singleton]
        omega
      rw [hsome, take_succ_cons, append_assoc, singleton_append]

end Fifo

/-! ## Who took what -/

section

variable {ι α : Type*} [DecidableEq ι]

/-- What went to `i` of a log of deliveries. -/
def handedTo (i : ι) (log : List (ι × α)) : List α :=
  log.filterMap fun e => if e.1 = i then some e.2 else none

@[simp] theorem handedTo_snoc (i j : ι) (log : List (ι × α)) (x : α) :
    handedTo i (log ++ [(j, x)]) = handedTo i log ++ if j = i then [x] else [] := by
  rw [handedTo, filterMap_append]
  congr 1
  by_cases h : j = i <;> simp [h]

end

end Aeryk.Lib
