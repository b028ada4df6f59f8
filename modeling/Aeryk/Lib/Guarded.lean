import Mathlib.Data.List.Basic

/-!
# Guarded runs

A machine takes one operation after the other.  `Along P step s ops` says that each operation
of the run meets the condition `P` in the state in which it is taken.  What such steps keep
holds in every state the run goes through.
-/

namespace Aeryk.Lib

open List

variable {σ α : Type*} {step : σ → α → σ} {P : σ → α → Prop} {I : σ → Prop} {s : σ}
  {first ops : List α} {a : α}

/-- Each operation of the run meets the condition where it is taken. -/
def Along (P : σ → α → Prop) (step : σ → α → σ) : σ → List α → Prop
  | _, [] => True
  | s, a :: ops => P s a ∧ Along P step (step s a) ops

/-- A condition that can be tested can be tested along a run. -/
instance Along.decidable [∀ s a, Decidable (P s a)] :
    ∀ (s : σ) (ops : List α), Decidable (Along P step s ops)
  | _, [] => isTrue trivial
  | s, a :: ops =>
    have := Along.decidable (step s a) ops
    inferInstanceAs (Decidable (P s a ∧ Along P step (step s a) ops))

theorem Along.append {more : List α} :
    Along P step s (ops ++ more) ↔ Along P step s ops ∧ Along P step (ops.foldl step s) more := by
  induction ops generalizing s with
  | nil => simp [Along]
  | cons a ops ih =>
    rw [cons_append, foldl_cons, Along, Along, ih, and_assoc]

/-- What a step under the condition keeps holds at the end of a run. -/
theorem Along.keeps (hstep : ∀ s a, I s → P s a → I (step s a)) (h : Along P step s ops)
    (hs : I s) : I (ops.foldl step s) := by
  induction ops generalizing s with
  | nil => exact hs
  | cons a ops ih => exact ih h.2 (hstep s a hs h.1)

/-- What a step under the condition keeps holds all the way. -/
theorem Along.always (hstep : ∀ s a, I s → P s a → I (step s a)) (h : Along P step s ops)
    (hs : I s) (hfirst : first <+: ops) : I (first.foldl step s) := by
  obtain ⟨rest, rfl⟩ := hfirst
  exact (Along.append.mp h).1.keeps hstep hs

/-- The state in which an operation of the run is taken, and the condition it meets there. -/
theorem Along.reaches (hstep : ∀ s a, I s → P s a → I (step s a)) (h : Along P step s ops)
    (hs : I s) (hfirst : first ++ [a] <+: ops) :
    I (first.foldl step s) ∧ P (first.foldl step s) a := by
  obtain ⟨rest, rfl⟩ := hfirst
  obtain ⟨h₁, h₂⟩ := Along.append.mp (Along.append.mp h).1
  exact ⟨h₁.keeps hstep hs, h₂.1⟩

/-- Where each step keeps `Q` exactly under the condition, a run keeps it all the way exactly if
the condition is met along the run. -/
theorem always_iff_along {Q : σ → Prop} (hinv : ∀ s a, I s → I (step s a))
    (hstep : ∀ s a, I s → Q s → (Q (step s a) ↔ P s a)) (hs : I s) (hq : Q s) :
    (∀ first, first <+: ops → Q (first.foldl step s)) ↔ Along P step s ops := by
  induction ops generalizing s with
  | nil =>
    refine iff_of_true (fun first hfirst => ?_) trivial
    rw [prefix_nil.mp hfirst]
    exact hq
  | cons a ops ih =>
    constructor
    · intro hall
      have hnext : Q (step s a) := hall [a] (by simp)
      refine ⟨(hstep s a hs hq).mp hnext, (ih (hinv s a hs) hnext).mp fun first hfirst => ?_⟩
      exact hall (a :: first) (cons_prefix_cons.mpr ⟨rfl, hfirst⟩)
    · rintro ⟨ha, hrest⟩ first hfirst
      cases first with
      | nil => exact hq
      | cons b first =>
        obtain ⟨rfl, hmore⟩ := cons_prefix_cons.mp hfirst
        exact (ih (hinv s b hs) ((hstep s b hs hq).mpr ha)).mpr hrest first hmore

/-- Where steps under the condition keep `I`, and a step from there without it breaks `Q`, a run of
operations from `C` has `Q` all the way exactly if the condition is met along the run. -/
theorem always_iff_along_of_keeps {Q : σ → Prop} {C : α → Prop} (hgood : ∀ s, I s → Q s)
    (hkeep : ∀ s a, C a → I s → P s a → I (step s a))
    (hbreak : ∀ s a, C a → I s → Q (step s a) → P s a) (hs : I s) (hops : ∀ a ∈ ops, C a) :
    (∀ first, first <+: ops → Q (first.foldl step s)) ↔ Along P step s ops := by
  induction ops generalizing s with
  | nil =>
    refine iff_of_true (fun first hfirst => ?_) trivial
    rw [prefix_nil.mp hfirst]
    exact hgood s hs
  | cons a ops ih =>
    have ha := hops a mem_cons_self
    have hrest := fun b hb => hops b (mem_cons_of_mem a hb)
    constructor
    · intro hall
      have hP := hbreak s a ha hs (hall [a] (by simp))
      refine ⟨hP, (ih (hkeep s a ha hs hP) hrest).mp fun first hfirst => ?_⟩
      exact hall (a :: first) (cons_prefix_cons.mpr ⟨rfl, hfirst⟩)
    · rintro ⟨hP, hmore⟩ first hfirst
      cases first with
      | nil => exact hgood s hs
      | cons b first =>
        obtain ⟨rfl, hlater⟩ := cons_prefix_cons.mp hfirst
        exact (ih (hkeep s b ha hs hP) hrest).mpr hmore first hlater

end Aeryk.Lib
