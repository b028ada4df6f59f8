import Aeryk.Compositor.Protocol
import Aeryk.Lib.Paint

/-!
# The redraw of the compositor

`redraw` paints the background, then the active windows in the order of the table, then the
cursor.  The frame buffer is an array of `u32` cells, `stride` of them in a line, of which the
first `width` are on the screen.  The crate is built in the release profile, so sums of `i32`
wrap.  An index that is out of range in a window's pixels would end the process.

Each of the three functions is a loop over a grid, and puts a layer over the picture.
-/

namespace Aeryk.Compositor

open Lib

def bgColor : Nat := 0xff282828

def cursorColor : Nat := 0xffebdbb2

def cursorW : Nat := 8

def cursorH : Nat := 8

def cursorBitmap : List (BitVec 8) :=
  [0b10000000#8, 0b11000000#8, 0b11100000#8, 0b11110000#8, 0b11111000#8, 0b11100000#8,
    0b10110000#8, 0b00011000#8]

/-- `bits & (0x80 >> col) != 0`. -/
def cursorBit (row col : Nat) : Bool := (cursorBitmap.getD row 0#8 &&& (0x80#8 >>> col)) != 0#8

structure Screen where
  width : Nat
  height : Nat
  stride : Nat
  width_le : width ≤ stride

abbrev Pixels := Nat → Nat

/-- A sum of two `i32`. -/
def add32 (a b : Int) : Int := (a + b).bmod (2 ^ 32)

namespace Screen

def cell (scr : Screen) (x y : Nat) : Nat := x + y * scr.stride

/-- `px >= 0 && py >= 0 && (px as usize) < width && (py as usize) < height`. -/
def On (scr : Screen) (px py : Int) : Prop :=
  0 ≤ px ∧ 0 ≤ py ∧ px.toNat < scr.width ∧ py.toNat < scr.height

instance (scr : Screen) (px py : Int) : Decidable (scr.On px py) :=
  inferInstanceAs (Decidable (_ ∧ _))

def paintBackground (scr : Screen) (fb : Pixels) : Option Pixels :=
  grid scr.height scr.width (fun y x => .put (scr.cell x y) bgColor) fb

/-- One turn of the loops of `blit_window`. -/
def blitPixel (scr : Screen) (slot : WindowSlot) (row col : Nat) : Write Nat Nat :=
  let px := add32 slot.x col
  let py := add32 slot.y row
  if scr.On px py then
    match slot.pixel? (row * slot.w + col) with
    | some pixel => .put (scr.cell px.toNat py.toNat) pixel
    | none => .abort
  else .skip

def blitWindow (scr : Screen) (slot : WindowSlot) (fb : Pixels) : Option Pixels :=
  if slot.active = 0 then some fb else grid slot.h slot.w (scr.blitPixel slot) fb

/-- One turn of the loops of `draw_cursor`. -/
def cursorPixel (scr : Screen) (x y : Int) (row col : Nat) : Write Nat Nat :=
  if cursorBit row col = false then .skip
  else
    let px := add32 x col
    let py := add32 y row
    if scr.On px py then .put (scr.cell px.toNat py.toNat) cursorColor else .skip

def drawCursor (scr : Screen) (x y : Int) (fb : Pixels) : Option Pixels :=
  grid cursorH cursorW (scr.cursorPixel x y) fb

def redraw (scr : Screen) (slots : Vector WindowSlot maxWindows) (cx cy : Int) (fb : Pixels) :
    Option Pixels := do
  let fb ← scr.paintBackground fb
  let fb ← slots.toList.foldlM (fun fb slot => scr.blitWindow slot fb) fb
  scr.drawCursor cx cy fb

/-! ## Places of the screen -/

variable {scr : Screen} {x y x' y' : Nat}

/-- A layer by what it shows at the places of the screen. -/
def layer (scr : Screen) (shows : Nat → Nat → Option Nat) (k : Nat) : Option Nat :=
  if k % scr.stride < scr.width ∧ k / scr.stride < scr.height then
    shows (k % scr.stride) (k / scr.stride)
  else none

theorem cell_place (hx : x < scr.width) :
    scr.cell x y % scr.stride = x ∧ scr.cell x y / scr.stride = y := by
  have hlt := Nat.lt_of_lt_of_le hx scr.width_le
  unfold cell
  rw [Nat.add_mul_mod_self_right, Nat.mod_eq_of_lt hlt, Nat.add_mul_div_right _ _ (by omega),
    Nat.div_eq_of_lt hlt, Nat.zero_add]
  exact ⟨rfl, rfl⟩

theorem layer_cell (shows : Nat → Nat → Option Nat) (hx : x < scr.width) (hy : y < scr.height) :
    scr.layer shows (scr.cell x y) = shows x y := by
  obtain ⟨hmod, hdiv⟩ := cell_place (y := y) hx
  unfold layer
  rw [hmod, hdiv, if_pos ⟨hx, hy⟩]

theorem layer_some {shows : Nat → Nat → Option Nat} {k a : Nat} (h : scr.layer shows k = some a) :
    ∃ x < scr.width, ∃ y < scr.height, k = scr.cell x y ∧ shows x y = some a := by
  unfold layer at h
  split at h
  next hon =>
    exact ⟨_, hon.1, _, hon.2, (Nat.mod_add_div' k scr.stride).symm, h⟩
  · cases h

/-- A loop over a grid paints what `shows` says, place by place. -/
theorem grid_layer {h w : Nat} {write : Nat → Nat → Write Nat Nat} {shows : Nat → Nat → Option Nat}
    (hsafe : ∀ row < h, ∀ col < w, write row col ≠ .abort)
    (hsound : ∀ row < h, ∀ col < w, ∀ k a, write row col = .put k a →
      ∃ x < scr.width, ∃ y < scr.height, k = scr.cell x y ∧ shows x y = some a)
    (hcovers : ∀ x < scr.width, ∀ y < scr.height, ∀ a, shows x y = some a →
      ∃ row < h, ∃ col < w, write row col = .put (scr.cell x y) a)
    (fb : Pixels) : grid h w write fb = some (overlay (scr.layer shows) fb) := by
  refine grid_eq_overlay hsafe ?_ ?_ fb
  · intro row hrow col hcol k a hw
    obtain ⟨x, hx, y, hy, rfl, hshows⟩ := hsound row hrow col hcol k a hw
    rw [layer_cell shows hx hy, hshows]
  · intro k a hk
    obtain ⟨x, hx, y, hy, rfl, hshows⟩ := layer_some hk
    exact hcovers x hx y hy a hshows

/-! ## The three layers -/

/-- The background is everywhere. -/
theorem paintBackground_eq (scr : Screen) (fb : Pixels) :
    scr.paintBackground fb = some (overlay (scr.layer fun _ _ => some bgColor) fb) := by
  unfold paintBackground
  refine grid_layer ?_ ?_ ?_ fb
  · intro y hy x hx habort
    cases habort
  · intro y hy x hx k a hw
    cases hw
    exact ⟨x, hx, y, hy, rfl, rfl⟩
  · intro x hx y hy a ha
    cases ha
    exact ⟨y, hy, x, hx, rfl⟩

end Screen

def WindowSlot.Covers (slot : WindowSlot) (x y : Nat) : Prop :=
  slot.active ≠ 0 ∧ slot.x ≤ x ∧ x < slot.x + slot.w ∧ slot.y ≤ y ∧ y < slot.y + slot.h

instance (slot : WindowSlot) (x y : Nat) : Decidable (slot.Covers x y) :=
  inferInstanceAs (Decidable (_ ∧ _))

def WindowSlot.shows (slot : WindowSlot) (x y : Nat) : Option Nat :=
  if slot.Covers x y then slot.pixel? ((y - slot.y).toNat * slot.w + (x - slot.x).toNat) else none

/-- An active slot has a size inside the limits and a place whose sums do not overflow. -/
structure WindowSlot.Placed (slot : WindowSlot) : Prop where
  w : slot.w ≤ maxWinW
  h : slot.h ≤ maxWinH
  x_ge : -2 ^ 31 ≤ slot.x
  x_lt : slot.x + slot.w < 2 ^ 31
  y_ge : -2 ^ 31 ≤ slot.y
  y_lt : slot.y + slot.h < 2 ^ 31

def CursorCovers (cx cy : Int) (x y : Nat) : Prop :=
  ∃ row < cursorH, ∃ col < cursorW, cursorBit row col = true ∧ (x : Int) = cx + col ∧
    (y : Int) = cy + row

instance (cx cy : Int) (x y : Nat) : Decidable (CursorCovers cx cy x y) :=
  inferInstanceAs (Decidable (∃ row < cursorH, _))

def cursorShows (cx cy : Int) (x y : Nat) : Option Nat :=
  if CursorCovers cx cy x y then some cursorColor else none

/-- The cursor has a place whose sums do not overflow, or overflow off the screen. -/
structure CursorPlaced (scr : Screen) (cx cy : Int) : Prop where
  x_ge : -2 ^ 31 ≤ cx
  x_lt : cx < 2 ^ 31
  y_ge : -2 ^ 31 ≤ cy
  y_lt : cy < 2 ^ 31
  x_sum : cx + 7 < 2 ^ 31 ∨ scr.width ≤ 2 ^ 31
  y_sum : cy + 7 < 2 ^ 31 ∨ scr.height ≤ 2 ^ 31

theorem add32_eq {a b : Int} (hge : -2 ^ 31 ≤ a + b) (hlt : a + b < 2 ^ 31) :
    add32 a b = a + b := by
  unfold add32
  exact Int.bmod_eq_of_le (by omega) (by omega)

namespace Screen

variable {scr : Screen} {slot : WindowSlot} {cx cy : Int}

/-- A turn of the loops of `blit_window`, without the cuts. -/
theorem blitPixel_eq (scr : Screen) (hp : slot.Placed) {row col : Nat} (hrow : row < slot.h)
    (hcol : col < slot.w) :
    (scr.On (slot.x + col) (slot.y + row) ∧
      ∃ a, slot.pixel? (row * slot.w + col) = some a ∧
        scr.blitPixel slot row col =
          .put (scr.cell (slot.x + col).toNat (slot.y + row).toNat) a) ∨
      (¬scr.On (slot.x + col) (slot.y + row) ∧ scr.blitPixel slot row col = .skip) := by
  obtain ⟨-, hrange⟩ := index_lt hp.w hp.h hrow hcol
  obtain ⟨-, -, hxge, hxlt, hyge, hylt⟩ := hp
  have hx : add32 slot.x col = slot.x + col := add32_eq (by omega) (by omega)
  have hy : add32 slot.y row = slot.y + row := add32_eq (by omega) (by omega)
  unfold blitPixel
  rw [hx, hy]
  by_cases hon : scr.On (slot.x + col) (slot.y + row)
  · obtain ⟨a, ha⟩ := slot.exists_pixel hrange
    refine .inl ⟨hon, a, ha, ?_⟩
    rw [if_pos hon, ha]
  · exact .inr ⟨hon, if_neg hon⟩

/-- A window shows its pixels where it covers the screen. -/
theorem blitWindow_eq (hp : slot.active ≠ 0 → slot.Placed) (fb : Pixels) :
    scr.blitWindow slot fb = some (overlay (scr.layer slot.shows) fb) := by
  unfold blitWindow
  split
  next hidle =>
    have hnone : ∀ x y, slot.shows x y = none := fun x y => if_neg fun hc => hc.1 hidle
    congr 1
    funext k
    have hlayer : scr.layer slot.shows k = none := by
      unfold layer
      split
      · exact hnone _ _
      · rfl
    unfold overlay
    rw [hlayer]
    rfl
  next hactive =>
    have hp := hp hactive
    refine grid_layer ?_ ?_ ?_ fb
    · intro row hrow col hcol habort
      rcases blitPixel_eq scr hp hrow hcol with ⟨-, a, -, hput⟩ | ⟨-, hskip⟩
      · rw [hput] at habort
        cases habort
      · rw [hskip] at habort
        cases habort
    · intro row hrow col hcol k a hw
      rcases blitPixel_eq scr hp hrow hcol with ⟨hon, b, hb, hput⟩ | ⟨-, hskip⟩
      · rw [hput] at hw
        cases hw
        obtain ⟨hx, hy, hxlt, hylt⟩ := hon
        refine ⟨_, hxlt, _, hylt, rfl, ?_⟩
        have hcovers : slot.Covers (slot.x + col).toNat (slot.y + row).toNat := by
          unfold WindowSlot.Covers
          omega
        have hcol' : ((slot.x + col).toNat - slot.x : Int).toNat = col := by omega
        have hrow' : ((slot.y + row).toNat - slot.y : Int).toNat = row := by omega
        rw [WindowSlot.shows, if_pos hcovers, hcol', hrow', hb]
      · rw [hskip] at hw
        cases hw
    · intro x hx y hy a ha
      unfold WindowSlot.shows at ha
      split at ha
      next hcovers =>
        obtain ⟨-, hxge, hxlt, hyge, hylt⟩ := hcovers
        have hrow : (y - slot.y).toNat < slot.h := by omega
        have hcol : (x - slot.x).toNat < slot.w := by omega
        refine ⟨_, hrow, _, hcol, ?_⟩
        have hpx : slot.x + ((x - slot.x).toNat : Int) = x := by omega
        have hpy : slot.y + ((y - slot.y).toNat : Int) = y := by omega
        rcases blitPixel_eq scr hp hrow hcol with ⟨-, b, hb, hput⟩ | ⟨hoff, -⟩
        · rw [hput, hpx, hpy, Int.toNat_natCast, Int.toNat_natCast]
          rw [ha] at hb
          cases hb
          rfl
        · rw [hpx, hpy] at hoff
          refine absurd ?_ hoff
          unfold On
          omega
      · cases ha

/-- A sum overflows to a negative number. -/
theorem add32_cases {c : Int} {i : Nat} (hge : -2 ^ 31 ≤ c) (hlt : c < 2 ^ 31) (hi : i < 8) :
    (c + i < 2 ^ 31 ∧ add32 c i = c + i) ∨ (2 ^ 31 ≤ c + i ∧ add32 c i = c + i - 2 ^ 32) := by
  rcases Int.lt_or_le (c + i) (2 ^ 31) with hin | hout
  · exact .inl ⟨hin, add32_eq (by omega) hin⟩
  · refine .inr ⟨hout, ?_⟩
    unfold add32
    rw [Int.bmod_def]
    omega

/-- A coordinate that overflows is off the screen. -/
theorem add32_on {c : Int} {i n : Nat} (hge : -2 ^ 31 ≤ c) (hlt : c < 2 ^ 31) (hi : i < 8)
    (hsum : c + 7 < 2 ^ 31 ∨ n ≤ 2 ^ 31) :
    (0 ≤ add32 c i ∧ (add32 c i).toNat < n ↔ 0 ≤ c + i ∧ (c + i).toNat < n) ∧
      (0 ≤ add32 c i → add32 c i = c + i) := by
  rcases add32_cases hge hlt hi with ⟨-, hsame⟩ | ⟨hout, hwrap⟩
  · rw [hsame]
    exact ⟨Iff.rfl, fun _ => rfl⟩
  · rw [hwrap]
    omega

/-- The cursor shows where its bitmap covers the screen. -/
theorem drawCursor_eq (hp : CursorPlaced scr cx cy) (fb : Pixels) :
    scr.drawCursor cx cy fb = some (overlay (scr.layer (cursorShows cx cy)) fb) := by
  obtain ⟨hxge, hxlt, hyge, hylt, hxsum, hysum⟩ := hp
  refine grid_layer ?_ ?_ ?_ fb
  · intro row hrow col hcol habort
    unfold cursorPixel at habort
    dsimp only at habort
    split at habort
    · cases habort
    · split at habort <;> cases habort
  · intro row hrow col hcol k a hw
    unfold cursorPixel at hw
    dsimp only at hw
    split at hw
    · cases hw
    next hbit =>
      split at hw
      next hon =>
        cases hw
        obtain ⟨hx, hy, hxon, hyon⟩ := hon
        refine ⟨_, hxon, _, hyon, rfl, if_pos ⟨row, hrow, col, hcol, ?_, ?_, ?_⟩⟩
        · exact Bool.not_eq_false _ ▸ hbit
        · rw [Int.toNat_of_nonneg hx]
          exact (add32_on hxge hxlt hcol hxsum).2 hx
        · rw [Int.toNat_of_nonneg hy]
          exact (add32_on hyge hylt hrow hysum).2 hy
      · cases hw
  · intro x hx y hy a ha
    unfold cursorShows at ha
    split at ha
    next hcovers =>
      cases ha
      obtain ⟨row, hrow, col, hcol, hbit, hxeq, hyeq⟩ := hcovers
      refine ⟨row, hrow, col, hcol, ?_⟩
      obtain ⟨hxon, hxsame⟩ := add32_on (n := scr.width) hxge hxlt hcol hxsum
      obtain ⟨hyon, hysame⟩ := add32_on (n := scr.height) hyge hylt hrow hysum
      obtain ⟨hx0, hxw⟩ := hxon.mpr (by omega)
      obtain ⟨hy0, hyh⟩ := hyon.mpr (by omega)
      unfold cursorPixel
      rw [if_neg (by rw [hbit]; exact Bool.noConfusion)]
      rw [if_pos ⟨hx0, hy0, hxw, hyh⟩, hxsame hx0, hysame hy0, ← hxeq, ← hyeq,
        Int.toNat_natCast, Int.toNat_natCast]
    · cases ha

/-! ## The whole picture -/

/-- The windows of a table, one over the other. -/
theorem blitWindows_eq {slots : List WindowSlot} (hp : ∀ s ∈ slots, s.active ≠ 0 → s.Placed)
    (fb : Pixels) :
    slots.foldlM (fun fb slot => scr.blitWindow slot fb) fb =
      some (slots.foldl (fun fb slot => overlay (scr.layer slot.shows) fb) fb) := by
  induction slots generalizing fb with
  | nil => rfl
  | cons slot slots ih =>
    rw [List.foldlM_cons, blitWindow_eq (hp slot List.mem_cons_self), List.foldl_cons]
    exact ih (fun s hs => hp s (List.mem_cons_of_mem _ hs)) _

/-- The pixel of the highest window of the table that covers the place. -/
def windowsShow (slots : Vector WindowSlot maxWindows) (x y : Nat) : Option Nat :=
  slots.toList.reverse.findSome? fun slot => slot.shows x y

def composed (slots : Vector WindowSlot maxWindows) (cx cy : Int) (x y : Nat) : Nat :=
  if CursorCovers cx cy x y then cursorColor else (windowsShow slots x y).getD bgColor

/-- The places of the screen show the cursor, the windows and the background, and no other
cell is written. -/
structure Composed (scr : Screen) (slots : Vector WindowSlot maxWindows) (cx cy : Int)
    (fb fb' : Pixels) : Prop where
  shown : ∀ x < scr.width, ∀ y < scr.height, fb' (scr.cell x y) = composed slots cx cy x y
  kept : ∀ k, (∀ x < scr.width, ∀ y < scr.height, k ≠ scr.cell x y) → fb' k = fb k

theorem layer_off (shows : Nat → Nat → Option Nat) {k : Nat}
    (h : ∀ x < scr.width, ∀ y < scr.height, k ≠ scr.cell x y) : scr.layer shows k = none := by
  cases hl : scr.layer shows k with
  | none => rfl
  | some a =>
    obtain ⟨x, hx, y, hy, hk, -⟩ := layer_some hl
    exact absurd hk (h x hx y hy)

/-- What the windows and the background show at a cell. -/
theorem windows_cell (slots : Vector WindowSlot maxWindows) (fb : Pixels) (k : Nat) :
    slots.toList.foldl (fun fb slot => overlay (scr.layer slot.shows) fb) fb k =
      (slots.toList.reverse.findSome? fun slot => scr.layer slot.shows k).getD (fb k) :=
  foldl_overlay (fun slot : WindowSlot => scr.layer slot.shows) slots.toList fb k

/-- `redraw` composes the picture, whatever was in the frame buffer before. -/
theorem redraw_composed (scr : Screen) (slots : Vector WindowSlot maxWindows) (cx cy : Int)
    (hslots : ∀ slot ∈ slots.toList, slot.active ≠ 0 → slot.Placed)
    (hcursor : CursorPlaced scr cx cy) (fb : Pixels) :
    ∃ fb', scr.redraw slots cx cy fb = some fb' ∧ Composed scr slots cx cy fb fb' := by
  unfold redraw
  rw [paintBackground_eq, Option.bind_eq_bind, Option.bind_some, blitWindows_eq hslots,
    Option.bind_some]
  refine ⟨_, drawCursor_eq hcursor _, fun x hx y hy => ?_, fun k hk => ?_⟩
  · rw [overlay, layer_cell _ hx hy, windows_cell, overlay, layer_cell _ hx hy, Option.getD_some]
    simp only [layer_cell _ hx hy]
    unfold composed cursorShows windowsShow
    split
    · rw [Option.getD_some]
    · rw [Option.getD_none]
  · have hnone : slots.toList.reverse.findSome? (fun slot => scr.layer slot.shows k) = none :=
      List.findSome?_eq_none_iff.mpr fun slot _ => layer_off _ hk
    rw [overlay, layer_off _ hk, windows_cell, overlay, layer_off _ hk, hnone, Option.getD_none,
      Option.getD_none, Option.getD_none]

/-- A table with a window half above the screen and an idle slot. -/
def twoSlots : Vector WindowSlot maxWindows :=
  #v[⟨1, 2, -1, 2, 2, fun _ => 7#8⟩, ⟨0, 0, 0, 0, 0, fun _ => 0#8⟩]

theorem twoSlots_placed : ∀ slot ∈ twoSlots.toList, slot.active ≠ 0 → slot.Placed := by
  intro slot hmem hactive
  rcases List.mem_cons.mp hmem with rfl | hmem
  · exact ⟨by decide, by decide, by decide, by decide, by decide, by decide⟩
  · rw [List.mem_singleton.mp hmem] at hactive
    exact absurd rfl hactive

/-- The table on a small screen, with the cursor at its corner. -/
theorem redraw_composed_small :
    ∃ fb', redraw ⟨4, 3, 5, by decide⟩ twoSlots 3 2 (fun _ => 0) = some fb' ∧
      Composed ⟨4, 3, 5, by decide⟩ twoSlots 3 2 (fun _ => 0) fb' :=
  redraw_composed ⟨4, 3, 5, by decide⟩ twoSlots 3 2 twoSlots_placed
    ⟨by decide, by decide, by decide, by decide, by decide, by decide⟩ fun _ => 0

/-! ## A cursor that overflows -/

/-- A screen wider than an `i32` counts. -/
def wideScreen : Screen := ⟨2 ^ 31 + 1, 1, 2 ^ 31 + 1, Nat.le_refl _⟩

/-- No turn of `draw_cursor` writes the last column of the wide screen. -/
theorem cursorPixel_wide (row : Nat) (_ : row < cursorH) (col : Nat) (hcol : col < cursorW)
    (a : Nat) : wideScreen.cursorPixel (2 ^ 31 - 1) (-1) row col ≠ .put (2 ^ 31) a := by
  intro hput
  unfold cursorPixel at hput
  dsimp only at hput
  split at hput
  · cases hput
  · split at hput
    next hon =>
      obtain ⟨hx, hy, -, hyon⟩ := hon
      injection hput with hcell
      have hrow0 : (add32 (-1) row).toNat = 0 := Nat.lt_one_iff.mp hyon
      unfold cell at hcell
      rw [hrow0, Nat.zero_mul, Nat.add_zero] at hcell
      rcases add32_cases (c := 2 ^ 31 - 1) (by decide) (by decide) hcol with
        ⟨hin, hsame⟩ | ⟨-, hwrap⟩
      · rw [hsame] at hcell
        omega
      · have hcol8 : col < 8 := hcol
        rw [hwrap] at hx
        clear hcell
        omega
    · cases hput

/-- With the cursor at the largest `i32` the column to the right of it stays without. -/
theorem redraw_wide_cursor :
    CursorCovers (2 ^ 31 - 1) (-1) (2 ^ 31) 0 ∧
      ∃ fb', wideScreen.redraw twoSlots (2 ^ 31 - 1) (-1) (fun _ => 0) = some fb' ∧
        fb' (wideScreen.cell (2 ^ 31) 0) = bgColor := by
  refine ⟨⟨1, by decide, 1, by decide, by decide, by omega, by omega⟩, ?_⟩
  unfold redraw
  rw [paintBackground_eq, Option.bind_eq_bind, Option.bind_some, blitWindows_eq twoSlots_placed,
    Option.bind_some]
  have hsafe : ∀ row < cursorH, ∀ col < cursorW,
      wideScreen.cursorPixel (2 ^ 31 - 1) (-1) row col ≠ .abort := by
    intro row _ col _ habort
    unfold cursorPixel at habort
    dsimp only at habort
    split at habort
    · cases habort
    · split at habort <;> cases habort
  have hsound : ∀ row < cursorH, ∀ col < cursorW, ∀ k a,
      wideScreen.cursorPixel (2 ^ 31 - 1) (-1) row col = .put k a → some cursorColor = some a := by
    intro row _ col _ k a hput
    unfold cursorPixel at hput
    dsimp only at hput
    split at hput
    · cases hput
    · split at hput
      · injection hput with _ ha
        rw [ha]
      · cases hput
  have hx : 2 ^ 31 < wideScreen.width := Nat.lt_succ_self _
  have hy : 0 < wideScreen.height := Nat.one_pos
  have hcell : wideScreen.cell (2 ^ 31) 0 = 2 ^ 31 := by
    rw [cell, Nat.zero_mul, Nat.add_zero]
  obtain ⟨fb', heq, hsame, -⟩ := grid_spec (fun _ => some cursorColor) hsafe hsound
    (twoSlots.toList.foldl (fun fb slot => overlay (wideScreen.layer slot.shows) fb)
      (overlay (wideScreen.layer fun _ _ => some bgColor) fun _ => 0))
  refine ⟨fb', heq, ?_⟩
  rw [hcell, hsame _ cursorPixel_wide, ← hcell, windows_cell, overlay, layer_cell _ hx hy,
    Option.getD_some]
  have hnone : twoSlots.toList.reverse.findSome?
      (fun slot => wideScreen.layer slot.shows (wideScreen.cell (2 ^ 31) 0)) = none := by
    refine List.findSome?_eq_none_iff.mpr fun slot hmem => ?_
    rw [layer_cell _ hx hy]
    rcases List.mem_cons.mp (List.mem_reverse.mp hmem) with rfl | hmem
    · exact if_neg (by decide)
    · rw [List.mem_singleton.mp hmem]
      exact if_neg (by decide)
  rw [hnone, Option.getD_none]

end Screen

end Aeryk.Compositor
