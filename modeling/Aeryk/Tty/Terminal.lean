import Aeryk.Tty.Console

/-!
# The picture of a terminal

`Terminal` is a grid of characters with a cursor.  A framebuffer shows it if each pixel of a cell
is the pixel of the character's glyph, and every other pixel is background.  Which glyph is meant
is a parameter (`Shows`): the one with the number of the byte for the terminal, but the console
takes the byte for a signed number.

Each step keeps the console showing the terminal in its own reading (`Shown`): drawing a glyph
changes one cell, and scrolling moves scan lines, background coming up from below.  So the two
readings differ exactly where the bytes in front of the font differ from its upper half.
-/

namespace Aeryk.Tty

open Lib

/-! ## The terminal -/

structure Terminal where
  cell : Nat → Nat → Option (BitVec 8)
  cursor : Cursor

def Terminal.blank : Terminal := ⟨fun _ _ => none, ⟨0, 0⟩⟩

/-- A character is placed at the cursor, unless it only moves the cursor. -/
def Terminal.place (t : Terminal) (chr : BitVec 8) : Terminal :=
  if isControl chr then t
  else { t with
    cell := fun col row =>
      if col = t.cursor.col ∧ row = t.cursor.row then some chr else t.cell col row }

/-- The top row is discarded, and the bottom row is blank. -/
def Terminal.scroll (rows : Nat) (t : Terminal) : Terminal :=
  { t with cell := fun col row => if row + 1 < rows then t.cell col (row + 1) else none }

def Terminal.put (cols rows : Nat) (t : Terminal) (chr : BitVec 8) : Terminal :=
  let c := t.cursor.move cols chr
  if c.row < rows then { t.place chr with cursor := c }
  else { (t.place chr).scroll rows with cursor := ⟨c.col, rows - 1⟩ }

/-- The colour of a pixel of a cell, with the glyphs found by `number`. -/
def cellColor (number : BitVec 8 → Int) (font : Font) (color : Color) (cell : Option (BitVec 8))
    (col row : Nat) : Color :=
  match cell with
  | none => bg
  | some chr => if glyphBit (font.byte (number chr * 16 + row)) col then color else bg

/-- The framebuffer shows the cells, and background elsewhere. -/
def Shows (number : BitVec 8 → Int) (r : Renderer) (t : Terminal) : Prop :=
  ∀ x < r.framebuffer.width, ∀ y < r.framebuffer.height,
    r.pixels (r.framebuffer.index x y) =
      if x < 8 * r.framebuffer.cols ∧ y < 16 * r.framebuffer.rows then
        cellColor number r.font r.color (t.cell (x / 8) (y / 16)) (x % 8) (y % 16)
      else bg

/-- The framebuffer shows the terminal: the glyph of a character has its number. -/
def Renders (r : Renderer) (t : Terminal) : Prop := Shows (fun chr => chr.toNat) r t

/-! ## Pixels -/

section

variable {r : Renderer} {t : Terminal} {chr : BitVec 8}

/-- Two pixels in a scan line's range with one number are the same. -/
theorem index_inj {fb : FrameBuffer} {x y x' y' : Nat} (hx : x < fb.pixelsPerScanLine)
    (hx' : x' < fb.pixelsPerScanLine) (h : fb.index x y = fb.index x' y') : x = x' ∧ y = y' := by
  unfold FrameBuffer.index at h
  have hmod := congrArg (· % fb.pixelsPerScanLine) h
  have hdiv := congrArg (· / fb.pixelsPerScanLine) h
  simp only [Nat.add_mul_mod_self_right, Nat.mod_eq_of_lt hx, Nat.mod_eq_of_lt hx'] at hmod
  have hpos : 0 < fb.pixelsPerScanLine := Nat.zero_lt_of_lt hx
  simp only [Nat.add_mul_div_right _ _ hpos, Nat.div_eq_of_lt hx, Nat.div_eq_of_lt hx',
    Nat.zero_add] at hdiv
  exact ⟨hmod, hdiv⟩

/-- The picture after a glyph was drawn at a cell. -/
theorem putChar_pixels (hfits : r.framebuffer.Fits) (h : OnScreen r) {x y : Nat}
    (hx : x < r.framebuffer.width) :
    (putChar r chr r.x r.y).pixels (r.framebuffer.index x y) =
      if (r.x ≤ x ∧ x < r.x + 8) ∧ r.y ≤ y ∧ y < r.y + 16 then
        if glyphBit (r.font.byte (chr.toInt * r.font.charsize + (y - r.y : Nat))) (x - r.x)
        then r.color else bg
      else r.pixels (r.framebuffer.index x y) := by
  have hwide := hfits.width_lt
  have hhigh := hfits.height_lt
  have hline := r.framebuffer.width_le
  have hxle := h.x_le
  have hyle := h.y_le
  unfold FrameBuffer.usableWidth FrameBuffer.usableHeight at *
  have hmem : ∀ {p : Nat × Nat}, p ∈ glyphCells r.x r.y ↔
      (r.x ≤ p.1 ∧ p.1 < r.x + 8) ∧ r.y ≤ p.2 ∧ p.2 < r.y + 16 :=
    mem_glyphCells (by omega) (by omega)
  have hsame : ∀ p ∈ glyphCells r.x r.y,
      r.framebuffer.index p.1 p.2 = r.framebuffer.index x y → p = (x, y) := by
    intro p hp heq
    have hcell := hmem.mp hp
    obtain ⟨h1, h2⟩ := index_inj (by omega) (by omega) heq
    exact Prod.ext h1 h2
  rw [putChar]
  split
  next hin =>
    refine stroke_of_mem (fun p : Nat × Nat => r.framebuffer.index p.1 p.2) _ (i := (x, y))
      (hmem.mpr hin) (fun p hp heq => ?_) r.pixels
    rw [hsame p hp heq]
  next hout =>
    refine stroke_of_not_mem (fun p hp heq => hout ?_) r.pixels
    have hcell := hmem.mp hp
    rwa [hsame p hp heq] at hcell

/-- The picture after scrolling. -/
theorem scrollUp_pixels (h : 16 ≤ r.framebuffer.height) {x y : Nat}
    (hx : x < r.framebuffer.width) (hy : y < r.framebuffer.height) :
    (scrollUp r).pixels (r.framebuffer.index x y) =
      if y + 16 < r.framebuffer.height then r.pixels (r.framebuffer.index x (y + 16)) else bg := by
  have hline := r.framebuffer.width_le
  rw [scrollUp]
  dsimp only
  split
  next hmoved =>
    have hout : ∀ p ∈ r.framebuffer.fillCells,
        r.framebuffer.index p.1 p.2 ≠ r.framebuffer.index x y := by
      intro p hp heq
      have hcell := mem_fillCells.mp hp
      have hsame := index_inj (by omega) (by omega) heq
      omega
    have hlt : r.framebuffer.index x y < r.framebuffer.moveCount :=
      index_lt (by omega) (by omega)
    rw [stroke_of_not_mem hout, moved, if_pos (by omega)]
    congr 1
    unfold FrameBuffer.index
    rw [Nat.add_mul]
    omega
  next hfilled =>
    exact stroke_of_mem (fun p : Nat × Nat => r.framebuffer.index p.1 p.2) (fun _ => bg)
      (i := (x, y)) (mem_fillCells.mpr ⟨hx, by omega, by omega⟩) (fun _ _ _ => rfl) _

/-! ## The console follows the terminal -/

/-- How the console takes the byte of a character. -/
def signed (chr : BitVec 8) : Int := chr.toInt

/-- The console shows the terminal in its own reading, and has its cursor. -/
structure Shown (r : Renderer) (t : Terminal) : Prop where
  fits : r.framebuffer.Fits
  charsize : r.font.charsize = 16
  stands : Stands r t.cursor
  shows : Shows signed r t

/-- A glyph is drawn in its cell. -/
theorem Shown.drawn (h : Shown r t) (chr : BitVec 8) :
    Shows signed (r.drawn chr) (t.place chr) := by
  unfold Renderer.drawn Terminal.place
  split
  · exact h.shows
  · intro x hx y hy
    have hold := h.shows x hx y hy
    obtain ⟨hcx, hcy, hcol, hrow⟩ := h.stands
    refine (putChar_pixels h.fits h.stands.onScreen hx).trans ?_
    show _ = if x < 8 * r.framebuffer.cols ∧ y < 16 * r.framebuffer.rows then
        cellColor signed r.font r.color (if x / 8 = t.cursor.col ∧ y / 16 = t.cursor.row then
          some chr else t.cell (x / 8) (y / 16)) (x % 8) (y % 16)
      else bg
    rw [h.charsize, hold, hcx, hcy]
    by_cases hcell : x / 8 = t.cursor.col ∧ y / 16 = t.cursor.row
    · have hrow' : y - 16 * t.cursor.row = y % 16 := by omega
      have hcol' : x - 8 * t.cursor.col = x % 8 := by omega
      have hgrid : x < 8 * r.framebuffer.cols ∧ y < 16 * r.framebuffer.rows := by omega
      rw [if_pos (by omega), if_pos hgrid, if_pos hcell, hrow', hcol']
      rfl
    · rw [if_neg (by omega), if_neg hcell]

/-- The terminal scrolls with the picture. -/
theorem Shows.scroll (hfits : r.framebuffer.Fits) (h : Shows signed r t) :
    Shows signed (scrollUp r) (t.scroll r.framebuffer.rows) := by
  intro x hx y hy
  refine (scrollUp_pixels hfits.height_ge hx hy).trans ?_
  have hrows : 16 * r.framebuffer.rows ≤ r.framebuffer.height := by
    unfold FrameBuffer.rows
    omega
  show _ = if x < 8 * r.framebuffer.cols ∧ y < 16 * r.framebuffer.rows then
      cellColor signed r.font r.color (if y / 16 + 1 < r.framebuffer.rows then
        t.cell (x / 8) (y / 16 + 1) else none) (x % 8) (y % 16)
    else bg
  by_cases hnext : y / 16 + 1 < r.framebuffer.rows
  · -- the row of cells below comes up
    have hdiv : (y + 16) / 16 = y / 16 + 1 := by omega
    have hmod : (y + 16) % 16 = y % 16 := by omega
    rw [if_pos (by omega), h x hx (y + 16) (by omega), if_pos hnext, hdiv, hmod]
    congr 1
    exact propext ⟨fun h => ⟨h.1, by omega⟩, fun h => ⟨h.1, by omega⟩⟩
  · -- what comes up from below the grid is background, and so is what is filled
    have hblank : (if y + 16 < r.framebuffer.height then
        r.pixels (r.framebuffer.index x (y + 16)) else bg) = bg := by
      split
      next hmoved => rw [h x hx (y + 16) hmoved, if_neg (by omega)]
      · rfl
    rw [hblank, if_neg hnext]
    simp only [cellColor, ite_self]

/-- The step of both. -/
theorem Shown.put (h : Shown r t) (chr : BitVec 8) :
    Shown (printCharLocked r chr) (t.put r.framebuffer.cols r.framebuffer.rows chr) ∧
      (printCharLocked r chr).framebuffer = r.framebuffer ∧
      (printCharLocked r chr).font = r.font ∧ (printCharLocked r chr).color = r.color := by
  obtain ⟨hstands, hframe⟩ := h.stands.print h.fits chr
  have hdrawn := h.drawn chr
  have hfits : (r.drawn chr).framebuffer.Fits := by
    rw [drawn_framebuffer]
    exact h.fits
  have hkeep : (r.drawn chr).font = r.font ∧ (r.drawn chr).color = r.color := by
    unfold Renderer.drawn
    split <;> exact ⟨rfl, rfl⟩
  have hbounds := Cursor.move_bounds chr h.stands.col_lt
  have hrow := h.stands.row_lt
  rw [printCharLocked_eq h.fits h.stands] at hstands hframe ⊢
  unfold Terminal.put
  unfold Cursor.after at hstands
  by_cases hin : (t.cursor.move r.framebuffer.cols chr).row < r.framebuffer.rows
  · rw [if_pos hin] at hstands hframe ⊢
    rw [Nat.min_eq_left (by omega)] at hstands
    rw [if_pos hin]
    exact ⟨⟨hfits, hkeep.1.symm ▸ h.charsize, hstands, hdrawn⟩, hframe, hkeep⟩
  · rw [if_neg hin] at hstands hframe ⊢
    rw [Nat.min_eq_right (by omega)] at hstands
    rw [if_neg hin]
    have hscroll := hdrawn.scroll hfits
    rw [drawn_framebuffer] at hscroll
    exact ⟨⟨hfits, hkeep.1.symm ▸ h.charsize, hstands, hscroll⟩, hframe, hkeep⟩

/-- After any characters the console shows the terminal in its own reading. -/
theorem Shown.run (h : Shown r t) (str : List (BitVec 8)) :
    Shown (str.foldl printCharLocked r)
        (str.foldl (Terminal.put r.framebuffer.cols r.framebuffer.rows) t) ∧
      (str.foldl printCharLocked r).framebuffer = r.framebuffer ∧
      (str.foldl printCharLocked r).font = r.font ∧
      (str.foldl printCharLocked r).color = r.color := by
  induction str generalizing r t with
  | nil => exact ⟨h, rfl, rfl, rfl⟩
  | cons chr str ih =>
    obtain ⟨hnext, hframe, hfont, hcolor⟩ := h.put chr
    obtain ⟨hend, hf, ho, hc⟩ := ih hnext
    rw [hframe] at hend
    exact ⟨hend, hf.trans hframe, ho.trans hfont, hc.trans hcolor⟩

/-! ## The two readings -/

/-- The bits of a row of a glyph make up its byte. -/
theorem eq_of_glyphBit {a b : BitVec 8} (h : ∀ col < 8, glyphBit a col = glyphBit b col) :
    a = b := by
  apply BitVec.eq_of_getLsbD_eq
  intro k hk
  have hbit : ∀ v : BitVec 8, glyphBit v (7 - k) = v.getLsbD k := by
    intro v
    have hmask : (0x80#8 >>> (7 - k)) = 1#8 <<< k := by
      revert hk
      revert k
      decide
    rw [← and_one_shiftLeft_ne_zero v hk, ← hmask, Bool.eq_iff_iff]
    simp [glyphBit]
  rw [← hbit a, ← hbit b]
  exact h (7 - k) (by omega)

/-- The glyph that is drawn for a character is the one meant. -/
def Drawn (font : Font) (chr : BitVec 8) : Prop :=
  ∀ row < 16, font.byte (signed chr * 16 + (row : Nat)) = font.byte (chr.toNat * 16 + (row : Nat))

/-- Where the console shows the terminal in its own reading, it renders the terminal exactly if the
glyphs of the characters are the ones meant. -/
theorem Shown.renders_iff (h : Shown r t) (hcolor : r.color ≠ bg) :
    Renders r t ↔ ∀ col < r.framebuffer.cols, ∀ row < r.framebuffer.rows, ∀ chr,
      t.cell col row = some chr → Drawn r.font chr := by
  have hcols : 8 * r.framebuffer.cols ≤ r.framebuffer.width := by
    unfold FrameBuffer.cols
    omega
  have hrows : 16 * r.framebuffer.rows ≤ r.framebuffer.height := by
    unfold FrameBuffer.rows
    omega
  constructor
  · intro hrenders col hcol row hrow chr hchr i hi
    apply eq_of_glyphBit
    intro j hj
    have hmeant := hrenders (8 * col + j) (by omega) (16 * row + i) (by omega)
    have hdrawn := h.shows (8 * col + j) (by omega) (16 * row + i) (by omega)
    rw [hdrawn, if_pos (by omega), if_pos (by omega)] at hmeant
    rw [show (8 * col + j) / 8 = col by omega, show (16 * row + i) / 16 = row by omega,
      show (8 * col + j) % 8 = j by omega, show (16 * row + i) % 16 = i by omega, hchr] at hmeant
    simp only [cellColor] at hmeant
    cases hs : glyphBit (r.font.byte (signed chr * 16 + (i : Nat))) j <;>
      cases hu : glyphBit (r.font.byte (chr.toNat * 16 + (i : Nat))) j <;>
      simp only [hs, hu, Bool.false_eq_true, if_true, if_false] at hmeant ⊢
    · exact absurd hmeant.symm hcolor
    · exact absurd hmeant hcolor
  · intro hall x hx y hy
    rw [h.shows x hx y hy]
    split
    next hgrid =>
      cases hcell : t.cell (x / 8) (y / 16) with
      | none => rfl
      | some chr =>
        have hd := hall (x / 8) (by omega) (y / 16) (by omega) chr hcell (y % 16) (by omega)
        simp only [cellColor]
        rw [hd]
    · rfl

end

/-- After a string the cleared screen shows what the terminal shows, exactly if each character then
in the grid has in the font the glyph found for it as a signed number. -/
theorem console_renders_iff (r : Renderer) (hfits : r.framebuffer.Fits)
    (hcharsize : r.font.charsize = 16) (hcolor : r.color = fg) (hx : r.x = 0) (hy : r.y = 0)
    (hclear : ∀ x < r.framebuffer.width, ∀ y < r.framebuffer.height,
      r.pixels (r.framebuffer.index x y) = bg) (str : List (BitVec 8)) :
    let t := str.foldl (Terminal.put r.framebuffer.cols r.framebuffer.rows) Terminal.blank
    Renders (str.foldl printCharLocked r) t ↔
      ∀ col < r.framebuffer.cols, ∀ row < r.framebuffer.rows, ∀ chr,
        t.cell col row = some chr → Drawn r.font chr := by
  have hblank : Shows signed r Terminal.blank := by
    intro x hx y hy
    rw [hclear x hx y hy]
    simp only [Terminal.blank, cellColor, ite_self]
  have hstart : Shown r Terminal.blank := ⟨hfits, hcharsize, stands_origin hfits hx hy, hblank⟩
  obtain ⟨hend, hframe, hfont, hsame⟩ := hstart.run str
  have hvisible : (str.foldl printCharLocked r).color ≠ bg := by
    rw [hsame, hcolor]
    decide
  have hiff := hend.renders_iff hvisible
  rwa [hframe, hfont] at hiff

/-- A font with all pixels of its glyphs set, and nothing in front of them. -/
def fullFont : Font := ⟨16, fun i => if 0 ≤ i then 0xFF else 0⟩

def fullConsole : Renderer := ⟨smallScreen, fullFont, fg, 0, 0, fun _ => bg⟩

/-- A letter is rendered: the pixels of its cell are set. -/
theorem console_renders_letter :
    (printCharLocked fullConsole 97).pixels 0 = fg ∧
    Renders (printCharLocked fullConsole 97)
      (Terminal.blank.put smallScreen.cols smallScreen.rows 97) := by
  refine ⟨by decide +kernel, (console_renders_iff fullConsole
    ⟨by decide, by decide, by decide, by decide⟩ rfl rfl rfl rfl (fun _ _ _ _ => rfl) [97]).mpr ?_⟩
  have hgrid : ∀ col < 2, ∀ row < 2, (Terminal.blank.put smallScreen.cols smallScreen.rows 97).cell
      col row = if col = 0 ∧ row = 0 then some 97 else none := by decide
  intro col hcol row hrow chr hchr i hi
  have hcell := (hgrid col hcol row hrow).symm.trans hchr
  split at hcell
  · injection hcell with hcell
    rw [← hcell]
    rfl
  · cases hcell

/-- Byte 128 has a glyph with all pixels set, and stays blank. -/
theorem upper_half_not_rendered :
    ¬Renders (printCharLocked fullConsole 128)
      (Terminal.blank.put smallScreen.cols smallScreen.rows 128) := by
  intro hrenders
  have hpixel := hrenders 0 (by decide) 0 (by decide)
  revert hpixel
  decide +kernel

end Aeryk.Tty
