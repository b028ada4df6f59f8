import Mathlib.Data.Finset.Card

/-!
# Counting references

Slots of some kind refer to objects, at most one each.  `refs holds D x` is the number
of slots among `D` that refer to `x`.  A counter that is to agree with this number is
stepped when a slot joins or leaves `D`.
-/

namespace Aeryk.Lib

open Finset Function

variable {σ ρ : Type*} [DecidableEq ρ]

/-- The number of slots among `D` that refer to `x`. -/
def refs (holds : σ → Option ρ) (D : Finset σ) (x : ρ) : Nat :=
  (D.filter fun s => holds s = some x).card

variable {holds holds' : σ → Option ρ} {D D' : Finset σ} {s : σ} {x : ρ}

theorem refs_pos : 0 < refs holds D x ↔ ∃ s ∈ D, holds s = some x := by
  unfold refs
  rw [card_pos]
  constructor
  · rintro ⟨s, hs⟩
    exact ⟨s, mem_filter.mp hs⟩
  · rintro ⟨s, hs⟩
    exact ⟨s, mem_filter.mpr hs⟩

theorem refs_eq_zero : refs holds D x = 0 ↔ ∀ s ∈ D, holds s ≠ some x := by
  rw [← Nat.le_zero, ← not_lt, refs_pos]
  push Not
  rfl

/-- The number depends on the slots that refer to the object only. -/
theorem refs_congr (h : ∀ s, s ∈ D' ∧ holds' s = some x ↔ s ∈ D ∧ holds s = some x) :
    refs holds' D' x = refs holds D x := by
  unfold refs
  congr 1
  ext s
  rw [mem_filter, mem_filter]
  exact h s

theorem refs_mono (h : D ⊆ D') : refs holds D x ≤ refs holds D' x :=
  card_le_card (filter_subset_filter _ h)

theorem refs_le_one (h : ∀ s ∈ D, ∀ t ∈ D, holds s = some x → holds t = some x → s = t) :
    refs holds D x ≤ 1 := by
  refine card_le_one.mpr fun s hs t ht => ?_
  obtain ⟨hsD, hsx⟩ := mem_filter.mp hs
  obtain ⟨htD, htx⟩ := mem_filter.mp ht
  exact h s hsD t htD hsx htx

/-- A slot that is alone in referring to an object. -/
theorem refs_unique {t : σ} (h : refs holds D x ≤ 1) (hs : s ∈ D) (ht : t ∈ D)
    (hsx : holds s = some x) (htx : holds t = some x) : s = t :=
  card_le_one.mp h s (mem_filter.mpr ⟨hs, hsx⟩) t (mem_filter.mpr ⟨ht, htx⟩)

variable [DecidableEq σ]

theorem refs_erase_same (hs : s ∈ D) (h : holds s = some x) :
    refs holds (D.erase s) x + 1 = refs holds D x := by
  have hm : s ∈ D.filter fun s => holds s = some x := mem_filter.mpr ⟨hs, h⟩
  unfold refs
  rw [filter_erase, card_erase_add_one hm]

theorem refs_erase_ne (h : holds s ≠ some x) : refs holds (D.erase s) x = refs holds D x := by
  refine refs_congr fun a => ?_
  rw [mem_erase]
  constructor
  · exact fun ha => ⟨ha.1.2, ha.2⟩
  · exact fun ha => ⟨⟨fun e => h (e ▸ ha.2), ha.1⟩, ha.2⟩

theorem refs_insert_same (hs : s ∉ D) (h : holds s = some x) :
    refs holds (insert s D) x = refs holds D x + 1 := by
  have := refs_erase_same (mem_insert_self s D) h
  rw [erase_insert hs] at this
  exact this.symm

theorem refs_insert_ne (h : holds s ≠ some x) : refs holds (insert s D) x = refs holds D x := by
  refine refs_congr fun a => ?_
  rw [mem_insert]
  constructor
  · rintro ⟨rfl | ha, hx⟩
    · exact absurd hx h
    · exact ⟨ha, hx⟩
  · exact fun ha => ⟨.inr ha.1, ha.2⟩

theorem refs_union (holds : σ → Option ρ) (hd : Disjoint D D') (x : ρ) :
    refs holds (D ∪ D') x = refs holds D x + refs holds D' x := by
  unfold refs
  rw [filter_union, card_union_of_disjoint (disjoint_filter_filter hd)]

/-- One slot is changed.  What it referred to loses a reference and what it refers to now
gains one. -/
theorem refs_update (holds : σ → Option ρ) (x : ρ) (hs : s ∈ D) (o : Option ρ) :
    refs (update holds s o) D x + (if holds s = some x then 1 else 0) =
      refs holds D x + if o = some x then 1 else 0 := by
  have hrest : refs (update holds s o) (D.erase s) x = refs holds (D.erase s) x := by
    refine refs_congr fun t => and_congr_right fun ht => ?_
    rw [update_of_ne (ne_of_mem_erase ht)]
  have hold : refs holds D x = refs holds (D.erase s) x + if holds s = some x then 1 else 0 := by
    split
    next h => exact (refs_erase_same hs h).symm
    next h => exact (refs_erase_ne h).symm
  have hnew : refs (update holds s o) D x =
      refs holds (D.erase s) x + if o = some x then 1 else 0 := by
    have hself : update holds s o s = o := update_self ..
    split
    next h => rw [← hrest, refs_erase_same hs (hself.trans h)]
    next h =>
      have hne : update holds s o s ≠ some x := by
        rw [hself]
        exact h
      rw [← hrest, refs_erase_ne hne, Nat.add_zero]
  omega

end Aeryk.Lib
