import Mathlib.Logic.Function.Basic
import Mathlib.Data.List.ProdSigma

/-!
# Painting

A picture gives every cell a value.  A *layer* has values for some cells and lies *over* what was
there.  A loop over a grid that writes or skips a cell a turn puts the layer it writes over the
picture.  Layers put one over the other show the uppermost value.
-/

namespace Aeryk.Lib

open List Function

variable {κ α ι : Type} [DecidableEq κ]

inductive Write (κ α : Type) where
  | skip
  | put (k : κ) (a : α)
  /-- The program is ended. -/
  | abort

def Write.apply (fb : κ → α) : Write κ α → Option (κ → α)
  | skip => some fb
  | put k a => some (update fb k a)
  | abort => none

def sweep (write : ι → Write κ α) (items : List ι) (fb : κ → α) : Option (κ → α) :=
  items.foldlM (fun fb i => (write i).apply fb) fb

/-- A loop over rows, and in each over columns. -/
def grid (h w : Nat) (write : Nat → Nat → Write κ α) (fb : κ → α) : Option (κ → α) :=
  sweep (fun i => write i.1 i.2) (range h ×ˢ range w) fb

def overlay (layer : κ → Option α) (fb : κ → α) : κ → α := fun k => (layer k).getD (fb k)

theorem sweep_cons (write : ι → Write κ α) (i : ι) (items : List ι) (fb : κ → α) :
    sweep write (i :: items) fb = ((write i).apply fb).bind (sweep write items) := rfl

/-- A loop whose writes agree with a layer leaves the layer in the cells it has written. -/
theorem sweep_spec {write : ι → Write κ α} {layer : κ → Option α} {items : List ι}
    (hsafe : ∀ i ∈ items, write i ≠ .abort)
    (hsound : ∀ i ∈ items, ∀ k a, write i = .put k a → layer k = some a) (fb : κ → α) :
    ∃ fb', sweep write items fb = some fb' ∧
      (∀ k, (∀ i ∈ items, ∀ a, write i ≠ .put k a) → fb' k = fb k) ∧
      ∀ k a, (∃ i ∈ items, write i = .put k a) → fb' k = a := by
  induction items generalizing fb with
  | nil =>
    refine ⟨fb, rfl, fun _ _ => rfl, ?_⟩
    rintro k a ⟨i, hi, -⟩
    exact absurd hi not_mem_nil
  | cons i items ih =>
    have htail := ih (fun j hj => hsafe j (mem_cons_of_mem _ hj))
      fun j hj => hsound j (mem_cons_of_mem _ hj)
    rw [sweep_cons]
    cases hw : write i with
    | abort => exact absurd hw (hsafe i mem_cons_self)
    | skip =>
      obtain ⟨fb', heq, hsame, hput⟩ := htail fb
      simp only [forall_exists_index, and_imp] at hput
      exact ⟨fb', heq, by grind, by grind⟩
    | put c b =>
      obtain ⟨fb', heq, hsame, hput⟩ := htail (update fb c b)
      refine ⟨fb', heq, by grind, ?_⟩
      · rintro k a ⟨j, hj, hjw⟩
        by_cases hlater : ∃ j ∈ items, ∃ a', write j = .put k a'
        · -- a later write to the cell has the value of the layer too
          obtain ⟨j', hj', a', hjw'⟩ := hlater
          have hfirst := hsound j hj k a hjw
          have hlast := hsound j' (mem_cons_of_mem _ hj') k a' hjw'
          obtain rfl := Option.some.inj (hlast.symm.trans hfirst)
          exact hput k a' ⟨j', hj', hjw'⟩
        · rw [hsame k fun j' hj' a' hjw' => hlater ⟨j', hj', a', hjw'⟩]
          grind

/-- The same of a loop over a grid. -/
theorem grid_spec {h w : Nat} {write : Nat → Nat → Write κ α} (layer : κ → Option α)
    (hsafe : ∀ row < h, ∀ col < w, write row col ≠ .abort)
    (hsound : ∀ row < h, ∀ col < w, ∀ k a, write row col = .put k a → layer k = some a)
    (fb : κ → α) :
    ∃ fb', grid h w write fb = some fb' ∧
      (∀ k, (∀ row < h, ∀ col < w, ∀ a, write row col ≠ .put k a) → fb' k = fb k) ∧
      ∀ k a, (∃ row < h, ∃ col < w, write row col = .put k a) → fb' k = a := by
  have hmem : ∀ {i : Nat × Nat}, i ∈ range h ×ˢ range w ↔ i.1 < h ∧ i.2 < w := by
    rintro ⟨row, col⟩
    rw [mem_product, mem_range, mem_range]
  obtain ⟨fb', heq, hsame, hput⟩ : ∃ fb', grid h w write fb = some fb' ∧ _ :=
    sweep_spec (fun i hi => hsafe _ (hmem.mp hi).1 _ (hmem.mp hi).2)
      (fun i hi => hsound _ (hmem.mp hi).1 _ (hmem.mp hi).2) fb
  refine ⟨fb', heq, fun k hk => ?_, ?_⟩
  · exact hsame k fun i hi => hk _ (hmem.mp hi).1 _ (hmem.mp hi).2
  · rintro k a ⟨row, hrow, col, hcol, hw⟩
    exact hput k a ⟨(row, col), hmem.mpr ⟨hrow, hcol⟩, hw⟩

/-- A loop over a grid puts the layer over the picture that it writes. -/
theorem grid_eq_overlay {h w : Nat} {write : Nat → Nat → Write κ α} {layer : κ → Option α}
    (hsafe : ∀ row < h, ∀ col < w, write row col ≠ .abort)
    (hsound : ∀ row < h, ∀ col < w, ∀ k a, write row col = .put k a → layer k = some a)
    (hcovers : ∀ k a, layer k = some a → ∃ row < h, ∃ col < w, write row col = .put k a)
    (fb : κ → α) : grid h w write fb = some (overlay layer fb) := by
  obtain ⟨fb', heq, hsame, hput⟩ := grid_spec layer hsafe hsound fb
  have hoverlay : fb' = overlay layer fb := by
    funext k
    unfold overlay
    cases hl : layer k with
    | none =>
      refine hsame k fun row hrow col hcol a hw => ?_
      have hsome := hsound row hrow col hcol k a hw
      rw [hl] at hsome
      cases hsome
    | some a => exact hput k a (hcovers k a hl)
  rw [heq, hoverlay]

/-! ## Loops that write every cell they come to -/

/-- The picture after one cell after the other was written. -/
def stroke (key : ι → κ) (val : ι → α) (items : List ι) (fb : κ → α) : κ → α :=
  items.foldl (fun fb i => update fb (key i) (val i)) fb

section

variable {items : List ι}

theorem stroke_of_not_mem {key : ι → κ} {val : ι → α} {k : κ} (h : ∀ i ∈ items, key i ≠ k)
    (fb : κ → α) :
    stroke key val items fb k = fb k := by
  induction items generalizing fb with
  | nil => rfl
  | cons i items ih =>
    have hrest := ih (fun j hj => h j (mem_cons_of_mem i hj))
      (update fb (key i) (val i))
    exact hrest.trans (update_of_ne (h i mem_cons_self).symm _ _)

/-- What a cell has afterwards depends on no other cell. -/
theorem stroke_congr (key : ι → κ) (val : ι → α) {fb fb' : κ → α} {k : κ} (h : fb k = fb' k) :
    stroke key val items fb k = stroke key val items fb' k := by
  induction items generalizing fb fb' with
  | nil => exact h
  | cons i items ih =>
    apply ih
    dsimp only
    by_cases hk : k = key i
    · rw [hk, update_self, update_self]
    · rw [update_of_ne hk, update_of_ne hk, h]

/-- A cell has what was written to it, if nothing else was. -/
theorem stroke_of_mem (key : ι → κ) (val : ι → α) {i : ι} (hi : i ∈ items)
    (hval : ∀ j ∈ items, key j = key i → val j = val i) (fb : κ → α) :
    stroke key val items fb (key i) = val i := by
  induction items generalizing i fb with
  | nil => exact absurd hi not_mem_nil
  | cons j items ih =>
    have hrest : ∀ l ∈ items, key l = key i → val l = val i :=
      fun l hl => hval l (mem_cons_of_mem j hl)
    by_cases hagain : ∃ l ∈ items, key l = key i
    · obtain ⟨l, hl, hkey⟩ := hagain
      have hlast := ih hl (fun l' hl' hkey' =>
        (hrest l' hl' (hkey'.trans hkey)).trans (hrest l hl hkey).symm)
        (update fb (key j) (val j))
      rw [hkey, hrest l hl hkey] at hlast
      exact hlast
    · have hj : j = i := by
        cases hi with
        | head => rfl
        | tail _ hi => exact absurd ⟨i, hi, rfl⟩ hagain
      subst hj
      refine (stroke_of_not_mem (fun l hl hkey => hagain ⟨l, hl, hkey⟩) _).trans ?_
      exact update_self _ _ _

end

omit [DecidableEq κ] in
/-- Of several layers the last one with a value shows. -/
theorem foldl_overlay (layer : ι → κ → Option α) (items : List ι) (fb : κ → α) (k : κ) :
    items.foldl (fun fb i => overlay (layer i) fb) fb k =
      (items.reverse.findSome? fun i => layer i k).getD (fb k) := by
  induction items generalizing fb with
  | nil => rfl
  | cons i items ih =>
    rw [foldl_cons, ih, reverse_cons, findSome?_append]
    cases items.reverse.findSome? fun i => layer i k with
    | some a => rfl
    | none =>
      rw [Option.none_or, findSome?_singleton]
      rfl

end Aeryk.Lib
