import Mathlib.Algebra.GroupWithZero.Nat
import Mathlib.Logic.Function.Basic
import Mathlib.Data.Option.Basic

/-!
# Trees of tables in memory

A table is a number of words, and a word may lead to another table.  From a root, `n`-ary keys name
what lies below it: the word with key `k` at depth `d` stands in the table with key `k / n` at
depth `d`, at index `k % n`, and leads to the table with key `k` at depth `d + 1`.

Nothing here says that the tables of a tree are distinct.  A store leaves a tree alone when no path
of the tree goes through the word that is stored to (`tab_store`); the lemmas take a family `V` of
keys that is closed under going up.
-/

namespace Aeryk.Lib.Radix

open Function

variable {W : Type} (n : Nat) (child : W → Option Nat)

/-- The table with key `k` at depth `d` of the tree with root `r`. -/
def tab (mem : Nat → Nat → W) (r : Nat) : Nat → Nat → Option Nat
  | 0, _ => some r
  | d + 1, k => (tab mem r d (k / n)).bind fun t => child (mem t (k % n))

/-- The word with key `k` at depth `d` of the tree with root `r`. -/
def word (mem : Nat → Nat → W) (r d k : Nat) : Option W :=
  (tab n child mem r d (k / n)).map fun t => mem t (k % n)

/-- Memory after a store to word `i` of table `t`. -/
def store (mem : Nat → Nat → W) (t i : Nat) (w : W) : Nat → Nat → W :=
  update mem t (update (mem t) i w)

variable {n child} {mem mem' : Nat → Nat → W} {r d k t i : Nat} {w : W}

theorem tab_succ : tab n child mem r (d + 1) k = (word n child mem r d k).bind child := by
  rw [word, Option.bind_map]
  rfl

theorem word_of_tab (h : tab n child mem r d (k / n) = some t) :
    word n child mem r d k = some (mem t (k % n)) := by
  rw [word, h]
  rfl

@[simp] theorem store_same : store mem t i w t i = w := by
  rw [store, update_self, update_self]

theorem store_other {t' i' : Nat} (h : ¬(t' = t ∧ i' = i)) :
    store mem t i w t' i' = mem t' i' := by
  unfold store
  by_cases ht : t' = t
  · subst ht
    rw [update_self, update_of_ne fun hi => h ⟨rfl, hi⟩]
  · rw [update_of_ne ht]

theorem store_table {t' : Nat} (h : t' ≠ t) : store mem t i w t' = mem t' :=
  update_of_ne h ..

section

variable {V : Nat → Nat → Prop}

/-- A tree depends on the tables of the tree only. -/
theorem tab_congr (hV : ∀ d k, V (d + 1) k → V d (k / n))
    (h : ∀ d k, V (d + 1) k → ∀ t, tab n child mem r d (k / n) = some t →
      mem' t (k % n) = mem t (k % n)) (hk : V d k) :
    tab n child mem' r d k = tab n child mem r d k := by
  induction d generalizing k with
  | zero => rfl
  | succ d ih =>
    unfold tab
    rw [ih (hV d k hk)]
    cases ht : tab n child mem r d (k / n) with
    | none => rfl
    | some t => simp only [Option.bind_some, h d k hk t ht]

/-- A store to a word that no path goes through. -/
theorem tab_store (hV : ∀ d k, V (d + 1) k → V d (k / n))
    (h : ∀ d k, V (d + 1) k → tab n child mem r d (k / n) = some t → k % n ≠ i) (hk : V d k) :
    tab n child (store mem t i w) r d k = tab n child mem r d k := by
  refine tab_congr hV ?_ hk
  intro d k hv u hu
  refine store_other ?_
  rintro ⟨rfl, hi⟩
  exact h d k hv hu hi

end

/-- Below a word that leads nowhere there is nothing. -/
theorem tab_eq_none (h : tab n child mem r d k = none) (e : Nat) {k' : Nat}
    (hk : k' / n ^ e = k) : tab n child mem r (d + e) k' = none := by
  induction e generalizing k' with
  | zero =>
    rw [Nat.pow_zero, Nat.div_one] at hk
    rw [Nat.add_zero, hk]
    exact h
  | succ e ih =>
    have hup : k' / n / n ^ e = k := by
      rw [Nat.div_div_eq_div_mul, ← Nat.pow_succ', hk]
    show (tab n child mem r (d + e) (k' / n)).bind _ = none
    rw [ih hup]
    rfl

end Aeryk.Lib.Radix
