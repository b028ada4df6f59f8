import Mathlib.Data.List.Induction

/-!
# Places in a list

A place of a list is a way to write it as `before ++ x :: after`.  Of two places one is the other
or comes before it, and a property that some element has, has a last place.
-/

namespace Aeryk.Lib

open List

variable {σ : Type} {l before after before' after' : List σ} {x y : σ} {P : σ → Prop}

/-- Of two places in a list one is the other, or comes before it. -/
theorem place_cases (h : l = before ++ x :: after) (h' : l = before' ++ y :: after') :
    (x = y ∧ after = after') ∨ (∃ z, after' = z ++ x :: after) ∨ ∃ z, after = z ++ y :: after' := by
  rw [h] at h'
  rcases append_eq_append_iff.mp h' with ⟨z, -, hz⟩ | ⟨z, -, hz⟩
  · cases z with
    | nil => exact .inl (cons.inj hz)
    | cons w z => exact .inr (.inr ⟨z, (cons.inj hz).2⟩)
  · cases z with
    | nil => exact .inl ⟨(cons.inj hz).1.symm, (cons.inj hz).2.symm⟩
    | cons w z => exact .inr (.inl ⟨z, (cons.inj hz).2⟩)

/-- A property of some element has a last place. -/
theorem exists_last_place (hx : x ∈ l) (hP : P x) :
    ∃ before y after, l = before ++ y :: after ∧ P y ∧ ∀ z ∈ after, ¬P z := by
  induction l using reverseRecOn with
  | nil => exact absurd hx not_mem_nil
  | append_singleton l w ih =>
    by_cases hw : P w
    · exact ⟨l, w, [], rfl, hw, fun _ hz => absurd hz not_mem_nil⟩
    · have hmem : x ∈ l := by
        rcases mem_append.mp hx with hmem | hmem
        · exact hmem
        · obtain rfl := mem_singleton.mp hmem
          exact absurd hP hw
      obtain ⟨before, y, after, rfl, hy, hlater⟩ := ih hmem
      refine ⟨before, y, after ++ [w], by rw [append_assoc, cons_append], hy, ?_⟩
      intro z hz
      rcases mem_append.mp hz with hz | hz
      · exact hlater z hz
      · obtain rfl := mem_singleton.mp hz
        exact hw

end Aeryk.Lib
