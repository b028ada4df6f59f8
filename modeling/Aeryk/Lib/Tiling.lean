import Mathlib.Data.Set.Insert

/-!
# Tilings

A set of cells that is cut into blocks.  A block is known by its first cell, and `size` says how
many cells it has.  Blocks are split, merged with the block right behind them, and come with
new cells.
-/

namespace Aeryk.Lib

def Covers (size : Nat → Nat) (a u : Nat) : Prop := a ≤ u ∧ u < a + size a

/-- The blocks have cells, do not overlap, and make up the set of cells. -/
structure Tiles (size : Nat → Nat) (blocks cells : Set Nat) : Prop where
  pos : ∀ a ∈ blocks, 0 < size a
  cover : ∀ u, u ∈ cells ↔ ∃ a ∈ blocks, Covers size a u
  apart : ∀ a ∈ blocks, ∀ b ∈ blocks, a < b → a + size a ≤ b

section

variable {size size' : Nat → Nat} {blocks cells : Set Nat} {a b n u : Nat}

theorem tiles_empty : Tiles size ∅ ∅ where
  pos _ h := h.elim
  cover _ := ⟨fun h => h.elim, fun ⟨_, h, _⟩ => h.elim⟩
  apart _ h := h.elim

/-- The cells of a block. -/
theorem Tiles.mem_cells (h : Tiles size blocks cells) (ha : a ∈ blocks) (hu : Covers size a u) :
    u ∈ cells :=
  (h.cover u).mpr ⟨a, ha, hu⟩

/-- A block starts with a cell. -/
theorem Tiles.start_mem (h : Tiles size blocks cells) (ha : a ∈ blocks) : a ∈ cells :=
  h.mem_cells ha ⟨Nat.le_refl a, Nat.lt_add_of_pos_right (h.pos a ha)⟩

/-- A block ends where all cells do, or before. -/
theorem Tiles.end_le (h : Tiles size blocks cells) (ha : a ∈ blocks) (hn : ∀ u ∈ cells, u < n) :
    a + size a ≤ n := by
  have hpos := h.pos a ha
  have hlast := hn (a + size a - 1) (h.mem_cells ha ⟨by omega, by omega⟩)
  omega

/-- A block is cut in two. -/
theorem Tiles.split (h : Tiles size blocks cells) (ha : a ∈ blocks) (hn : 0 < n)
    (hlt : n < size a) (hb : b = a + (size a - n)) (hsa : size' a = size a - n)
    (hsb : size' b = n) (hs : ∀ c ∈ blocks, c ≠ a → size' c = size c) :
    Tiles size' (insert b blocks) cells where
  pos c hc := by
    have hpos := h.pos
    grind
  cover u := by
    rw [h.cover u]
    constructor
    · rintro ⟨c, hc, hu₁, hu₂⟩
      by_cases hca : c = a
      · subst hca
        by_cases hub : u < b
        · exact ⟨c, .inr hc, hu₁, by omega⟩
        · exact ⟨b, .inl rfl, by omega, by omega⟩
      · exact ⟨c, .inr hc, hu₁, by rwa [hs c hc hca]⟩
    · rintro ⟨c, hc, hu⟩
      grind [Covers]
  apart c hc d hd hcd := by
    have hapart := h.apart
    grind

/-- A block takes in the one right behind it. -/
theorem Tiles.merge (h : Tiles size blocks cells) (ha : a ∈ blocks) (hb : b ∈ blocks)
    (hab : a + size a = b) (hsa : size' a = size a + size b)
    (hs : ∀ c ∈ blocks, c ≠ a → c ≠ b → size' c = size c) :
    Tiles size' (blocks \ {b}) cells where
  pos c hc := by
    have hpos := h.pos
    grind
  cover u := by
    have hpos := h.pos a ha
    rw [h.cover u]
    constructor
    · rintro ⟨c, hc, hu₁, hu₂⟩
      by_cases hcb : c = b
      · subst hcb
        exact ⟨a, ⟨ha, by rintro rfl; omega⟩, by omega, by omega⟩
      · refine ⟨c, ⟨hc, hcb⟩, hu₁, ?_⟩
        grind
    · rintro ⟨c, ⟨hc, hcb⟩, hu₁, hu₂⟩
      by_cases hub : c = a ∧ b ≤ u
      · exact ⟨b, hb, by omega, by grind⟩
      · grind [Covers]
  apart c hc d hd hcd := by
    have hapart := h.apart
    grind

/-- A block of new cells behind all others. -/
theorem Tiles.add (h : Tiles size blocks cells) (hn : 0 < n) (hnew : ∀ u ∈ cells, u < b)
    (hsb : size' b = n) (hs : ∀ c ∈ blocks, size' c = size c) :
    Tiles size' (insert b blocks) (cells ∪ {u | b ≤ u ∧ u < b + n}) where
  pos c hc := by
    have hpos := h.pos
    grind
  cover u := by
    have hcover := h.cover u
    grind [Covers]
  apart c hc d hd hcd := by
    have hend : ∀ c ∈ blocks, c + size c ≤ b := fun c hc => h.end_le hc hnew
    have hapart := h.apart
    grind

end

end Aeryk.Lib
