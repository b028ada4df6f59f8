import Mathlib.Data.List.Basic

/-!
# Nested loops

A loop whose body is itself a loop visits the elements of one flat list.  The inner lists
may be read off the state when the body is reached, as long as they are what they were
before the loop, which is what the invariant `I` is to say.
-/

namespace Aeryk.Lib

variable {σ α β : Type*} {I : σ → Prop} {visit : σ → β → σ} {body : σ → α → σ}
  {inner : α → List β}

/-- A loop over inner lists is a loop over their concatenation. -/
theorem foldl_flatMap (l : List α)
    (hbody : ∀ s, I s → ∀ a ∈ l, body s a = (inner a).foldl visit s)
    (hI : ∀ s, I s → ∀ a ∈ l, I (body s a)) {s : σ} (hs : I s) :
    l.foldl body s = (l.flatMap inner).foldl visit s ∧ I (l.foldl body s) := by
  induction l generalizing s with
  | nil => exact ⟨rfl, hs⟩
  | cons a l ih =>
    have hrest := ih (fun s hs b hb => hbody s hs b (List.mem_cons_of_mem a hb))
      (fun s hs b hb => hI s hs b (List.mem_cons_of_mem a hb))
      (hI s hs a List.mem_cons_self)
    rw [List.flatMap_cons, List.foldl_append, ← hbody s hs a List.mem_cons_self]
    exact hrest

end Aeryk.Lib
