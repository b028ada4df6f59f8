import Aeryk.Lib.Guarded
import Aeryk.Lib.Paint
import Aeryk.Str.Memory

/-!
# The console

`tty.c`: characters are drawn into the framebuffer in cells of 8 by 16 pixels, and the picture
moves up by a row of cells when the cursor leaves the last one.

The pixels are numbered through the scan lines, which may be longer than the visible part, and
`memmove` moves whole scan lines; `pixelAt_memmove` connects that to the bytes.  Coordinates of the
cursor are taken modulo `2 ^ 32`, and staying on the screen is what keeps them from wrapping.
-/

namespace Aeryk.Tty

open List Lib Str

abbrev Color := BitVec 32

def bg : Color := 0xff282828

def fg : Color := 0xffebdbb2

/-- `FrameBuffer`, whose scan lines hold the visible pixels. -/
structure FrameBuffer where
  width : Nat
  height : Nat
  pixelsPerScanLine : Nat
  width_le : width ≤ pixelsPerScanLine

/-- `struct PSF1_FONT`: the size of a glyph, and the bytes around `glyph_buffer`. -/
structure Font where
  charsize : Nat
  byte : Int → BitVec 8

structure Renderer where
  framebuffer : FrameBuffer
  font : Font
  color : Color
  x : Nat
  y : Nat
  pixels : Nat → Color

/-- The sum of two `unsigned int`. -/
def addU (a b : Nat) : Nat := (a + b) % 2 ^ 32

/-- The difference of two `unsigned int`. -/
def subU (a b : Nat) : Nat := (a + 2 ^ 32 - b) % 2 ^ 32

def FrameBuffer.index (fb : FrameBuffer) (x y : Nat) : Nat := x + y * fb.pixelsPerScanLine

def FrameBuffer.usableWidth (fb : FrameBuffer) : Nat := fb.width / 8 * 8

def FrameBuffer.usableHeight (fb : FrameBuffer) : Nat := fb.height / 16 * 16

/-- The pixels that `put_char` writes, in the order of its loops. -/
def glyphCells (xOff yOff : Nat) : List (Nat × Nat) :=
  (range' yOff (addU yOff 16 - yOff)).flatMap fun y =>
    (range' xOff (addU xOff 8 - xOff)).map fun x => (x, y)

/-- Whether a glyph has a pixel, for the byte of the pixel's row. -/
def glyphBit (row : BitVec 8) (col : Nat) : Bool := row &&& (0x80#8 >>> col) ≠ 0

/-- `put_char`.  A `char` is signed. -/
def putChar (r : Renderer) (chr : BitVec 8) (xOff yOff : Nat) : Renderer :=
  { r with
    pixels := stroke (fun c => r.framebuffer.index c.1 c.2)
      (fun c =>
        if glyphBit (r.font.byte (chr.toInt * r.font.charsize + (c.2 - yOff : Nat))) (c.1 - xOff)
        then r.color else bg)
      (glyphCells xOff yOff) r.pixels }

/-- How many pixels `scroll_up` moves from the second row of cells to the first. -/
def FrameBuffer.moveCount (fb : FrameBuffer) : Nat := (fb.height - 16) * fb.pixelsPerScanLine

/-- The pixels that `scroll_up` fills, in the order of its loops. -/
def FrameBuffer.fillCells (fb : FrameBuffer) : List (Nat × Nat) :=
  (range' (fb.height - 16) 16).flatMap fun y => (range fb.width).map fun x => (x, y)

def scrollUp (r : Renderer) : Renderer :=
  { r with
    pixels := stroke (fun c => r.framebuffer.index c.1 c.2) (fun _ => bg) r.framebuffer.fillCells
      (moved r.pixels 0 (r.framebuffer.index 0 16) r.framebuffer.moveCount) }

/-- The `switch` of `print_char_locked`. -/
def placeChar (r : Renderer) (chr : BitVec 8) : Renderer :=
  if chr = 10 then { r with x := 0, y := addU r.y 16 }
  else if chr = 9 then { r with x := addU r.x 8 }
  else if chr = 8 then
    if 8 ≤ r.x then { r with x := r.x - 8 }
    else if 16 ≤ r.y then
      { r with y := r.y - 16, x := subU (r.framebuffer.width / 8) 1 * 8 % 2 ^ 32 }
    else r
  else
    let r := putChar r chr r.x r.y
    { r with x := addU r.x 8 }

/-- The part of `print_char_locked` that starts a new line at the end of one. -/
def wrapLine (r : Renderer) : Renderer :=
  if addU r.x 8 > r.framebuffer.usableWidth then { r with x := 0, y := addU r.y 16 } else r

/-- The part of `print_char_locked` that scrolls. -/
def scrollScreen (r : Renderer) : Renderer :=
  if addU r.y 16 > r.framebuffer.usableHeight then
    let r := scrollUp r
    { r with y := subU r.y 16 }
  else r

def printCharLocked (r : Renderer) (chr : BitVec 8) : Renderer :=
  scrollScreen (wrapLine (placeChar r chr))

/-- A call of `print`, with the bytes in front of the terminator, or of `print_n`. -/
inductive PrintCall
  | print (str : List (BitVec 8))
  | printN (str : List (BitVec 8))

def PrintCall.chars : PrintCall → List (BitVec 8)
  | .print str => str.takeWhile (· ≠ 0)
  | .printN str => str

def Renderer.run (r : Renderer) (call : PrintCall) : Renderer :=
  call.chars.foldl printCharLocked r

/-! ## The bytes of the picture -/

def pixelAt (m : Bytes) (base i : Nat) : Nat := pack (fun k => m (base + 4 * i + k)) 4

/-- The `memmove` of `scroll_up` moves pixels. -/
theorem pixelAt_memmove {m : Bytes} {base src n : Nat} (h : base + 4 * (src + n) ≤ 2 ^ 64) :
    pixelAt (Kernel.memmove m base (base + 4 * src) (4 * n)).1 base =
      moved (pixelAt m base) 0 src n := by
  rw [Kernel.memmove, moveBytes_eq (by omega) (by omega)]
  funext i
  dsimp only [moved]
  split
  · apply pack_congr
    intro k hk
    rw [moved, if_pos (by omega)]
    congr 1
    omega
  · apply pack_congr
    intro k hk
    rw [moved, if_neg (by omega)]

/-! ## The cursor in cells -/

def FrameBuffer.cols (fb : FrameBuffer) : Nat := fb.width / 8

def FrameBuffer.rows (fb : FrameBuffer) : Nat := fb.height / 16

structure Cursor where
  col : Nat
  row : Nat
  deriving DecidableEq

/-- The place after this one, at the start of the next row after the last cell of a row. -/
def Cursor.next (cols : Nat) (c : Cursor) : Cursor :=
  if c.col + 1 < cols then ⟨c.col + 1, c.row⟩ else ⟨0, c.row + 1⟩

/-- The place before this one, at the end of the row above before the first cell of a row. -/
def Cursor.back (cols : Nat) (c : Cursor) : Cursor :=
  if 0 < c.col then ⟨c.col - 1, c.row⟩
  else if 0 < c.row then ⟨cols - 1, c.row - 1⟩
  else c

/-- Where a character moves the cursor, if the grid went on below. -/
def Cursor.move (cols : Nat) (chr : BitVec 8) (c : Cursor) : Cursor :=
  if chr = 10 then ⟨0, c.row + 1⟩ else if chr = 8 then c.back cols else c.next cols

/-- A character that moves the cursor only. -/
def isControl (chr : BitVec 8) : Bool := chr = 10 || chr = 9 || chr = 8

def Renderer.at (r : Renderer) (c : Cursor) : Renderer := { r with x := 8 * c.col, y := 16 * c.row }

/-- The picture after a character was drawn, or not, at the cursor. -/
def Renderer.drawn (r : Renderer) (chr : BitVec 8) : Renderer :=
  if isControl chr then r else putChar r chr r.x r.y

/-- A screen of at least one cell, whose coordinates do not overflow. -/
structure FrameBuffer.Fits (fb : FrameBuffer) : Prop where
  width_ge : 8 ≤ fb.width
  height_ge : 16 ≤ fb.height
  width_lt : fb.width + 8 < 2 ^ 32
  height_lt : fb.height + 16 < 2 ^ 32

/-- The cursor stands at a place of the grid. -/
structure Stands (r : Renderer) (c : Cursor) : Prop where
  x_eq : r.x = 8 * c.col
  y_eq : r.y = 16 * c.row
  col_lt : c.col < r.framebuffer.cols
  row_lt : c.row < r.framebuffer.rows

theorem addU_eq {a b : Nat} (h : a + b < 2 ^ 32) : addU a b = a + b := Nat.mod_eq_of_lt h

theorem subU_eq {a b : Nat} (ha : a < 2 ^ 32) (h : b ≤ a) : subU a b = a - b := by
  unfold subU
  omega

section

variable {r : Renderer} {c : Cursor} {cols : Nat} {chr : BitVec 8}

/-- A move stays in the columns, and goes down by one row at most. -/
theorem Cursor.move_bounds (chr : BitVec 8) (hcol : c.col < cols) :
    (c.move cols chr).col < cols ∧ (c.move cols chr).row ≤ c.row + 1 := by
  unfold move back next
  split
  · exact ⟨Nat.zero_lt_of_lt hcol, Nat.le_refl _⟩
  split
  · split
    · dsimp only
      omega
    split
    · dsimp only
      omega
    · omega
  · split
    · dsimp only
      omega
    · dsimp only
      omega

theorem drawn_control (h : isControl chr = true) : r.drawn chr = r := if_pos h

@[simp] theorem drawn_framebuffer (r : Renderer) (chr : BitVec 8) :
    (r.drawn chr).framebuffer = r.framebuffer := by
  unfold Renderer.drawn
  split <;> rfl

/-- A cursor within its row stays, and one behind the row goes to the next. -/
theorem wrapLine_at (hfits : r.framebuffer.Fits) (hcol : c.col ≤ r.framebuffer.cols)
    (hrow : c.row ≤ r.framebuffer.rows) :
    wrapLine (r.at c) = r.at (if c.col < r.framebuffer.cols then c else ⟨0, c.row + 1⟩) := by
  obtain ⟨-, -, hwidth, hheight⟩ := hfits
  unfold wrapLine Renderer.at FrameBuffer.usableWidth FrameBuffer.cols FrameBuffer.rows at *
  dsimp only
  rw [addU_eq (by omega), addU_eq (by omega)]
  by_cases hin : c.col < r.framebuffer.width / 8
  · rw [if_neg (by omega), if_pos hin]
  · rw [if_pos (by omega), if_neg hin]
    simp only [Nat.mul_zero, Nat.mul_succ]

/-- A cursor above the last row stays, and one below it goes back with the picture. -/
theorem scrollScreen_at (hfits : r.framebuffer.Fits) (hrow : c.row ≤ r.framebuffer.rows) :
    scrollScreen (r.at c) =
      if c.row < r.framebuffer.rows then r.at c
      else (scrollUp r).at ⟨c.col, r.framebuffer.rows - 1⟩ := by
  obtain ⟨-, hheight_ge, -, hheight⟩ := hfits
  unfold scrollScreen Renderer.at FrameBuffer.usableHeight FrameBuffer.rows at *
  dsimp only
  rw [addU_eq (by omega)]
  by_cases hin : c.row < r.framebuffer.height / 16
  · rw [if_neg (by omega), if_pos hin]
  · have hlast : subU (16 * c.row) 16 = 16 * (r.framebuffer.height / 16 - 1) := by
      rw [subU_eq (by omega) (by omega)]
      omega
    rw [if_pos (by omega), if_neg hin]
    simp only [scrollUp, hlast]

/-- The cursor after a character, before the screen is scrolled. -/
theorem wrapLine_placeChar (hfits : r.framebuffer.Fits) (h : Stands r c) :
    wrapLine (placeChar r chr) = (r.drawn chr).at (c.move r.framebuffer.cols chr) := by
  obtain ⟨hx, hy, hcol, hrow⟩ := h
  have hr : r = r.at c := by rw [Renderer.at, ← hx, ← hy]
  have hwide := hfits.width_lt
  have hhigh := hfits.height_lt
  have hcols : 8 * r.framebuffer.cols ≤ r.framebuffer.width := by
    unfold FrameBuffer.cols
    omega
  have hrows : 16 * r.framebuffer.rows ≤ r.framebuffer.height := by
    unfold FrameBuffer.rows
    omega
  have hstep : addU r.x 8 = 8 * (c.col + 1) := by
    rw [hx, addU_eq (by omega), Nat.mul_succ]
  unfold placeChar Cursor.move
  by_cases hnewline : chr = 10
  · have hplace : ({ r with x := 0, y := addU r.y 16 } : Renderer) = r.at ⟨0, c.row + 1⟩ := by
      rw [hy, addU_eq (by omega)]
      rfl
    rw [if_pos hnewline, if_pos hnewline, hplace,
      wrapLine_at (c := ⟨0, c.row + 1⟩) hfits (Nat.zero_le _) (Nat.succ_le_of_lt hrow),
      if_pos (Nat.zero_lt_of_lt hcol), drawn_control (by simp [isControl, hnewline])]
  rw [if_neg hnewline, if_neg hnewline]
  by_cases htab : chr = 9
  · have hplace : ({ r with x := addU r.x 8 } : Renderer) = r.at ⟨c.col + 1, c.row⟩ := by
      rw [hstep, Renderer.at, ← hy]
    rw [if_pos htab, if_neg (by rw [htab]; decide), hplace,
      wrapLine_at (c := ⟨c.col + 1, c.row⟩) hfits (Nat.succ_le_of_lt hcol) (Nat.le_of_lt hrow),
      drawn_control (by simp [isControl, htab]), Cursor.next]
  rw [if_neg htab]
  by_cases hback : chr = 8
  · rw [if_pos hback, if_pos hback, drawn_control (by simp [isControl, hback]), Cursor.back]
    by_cases hleft : 0 < c.col
    · have hplace : ({ r with x := r.x - 8 } : Renderer) = r.at ⟨c.col - 1, c.row⟩ := by
        rw [Renderer.at, ← hy, hx, Nat.mul_sub]
      rw [if_pos (by omega), if_pos hleft, hplace,
        wrapLine_at (c := ⟨c.col - 1, c.row⟩) hfits (by dsimp only; omega) (Nat.le_of_lt hrow),
        if_pos (Nat.lt_of_le_of_lt (Nat.sub_le _ _) hcol)]
    rw [if_neg (by omega), if_neg hleft]
    by_cases hup : 0 < c.row
    · have hlast : subU (r.framebuffer.width / 8) 1 * 8 % 2 ^ 32 =
          8 * (r.framebuffer.cols - 1) := by
        unfold FrameBuffer.cols at *
        rw [subU_eq (by omega) (by omega)]
        omega
      have hplace : ({ r with
          y := r.y - 16, x := subU (r.framebuffer.width / 8) 1 * 8 % 2 ^ 32 } : Renderer) =
          r.at ⟨r.framebuffer.cols - 1, c.row - 1⟩ := by
        rw [Renderer.at, hlast, hy, Nat.mul_sub 16]
      rw [if_pos (by omega), if_pos hup, hplace,
        wrapLine_at (c := ⟨r.framebuffer.cols - 1, c.row - 1⟩) hfits (Nat.sub_le _ _)
          (by dsimp only; omega), if_pos (by dsimp only; omega)]
    · rw [if_neg (by omega), if_neg hup]
      nth_rewrite 1 [hr]
      rw [wrapLine_at hfits (Nat.le_of_lt hcol) (Nat.le_of_lt hrow), if_pos hcol]
  · have hdrawn : r.drawn chr = putChar r chr r.x r.y :=
      if_neg (by simp only [isControl, hnewline, htab, hback]; decide)
    have hplace : ({ putChar r chr r.x r.y with x := addU (putChar r chr r.x r.y).x 8 } :
        Renderer) = (putChar r chr r.x r.y).at ⟨c.col + 1, c.row⟩ := by
      rw [Renderer.at, ← hstep, ← hy]
      rfl
    rw [if_neg hback, if_neg hback, hdrawn]
    rw [hplace, wrapLine_at (r := putChar r chr r.x r.y) (c := ⟨c.col + 1, c.row⟩) hfits
      (Nat.succ_le_of_lt hcol) (Nat.le_of_lt hrow), Cursor.next]
    rfl

/-- A character in cells: it is drawn, the cursor moves, and the picture goes up at the last row.
-/
theorem printCharLocked_eq (hfits : r.framebuffer.Fits) (h : Stands r c) :
    printCharLocked r chr =
      if (c.move r.framebuffer.cols chr).row < r.framebuffer.rows then
        (r.drawn chr).at (c.move r.framebuffer.cols chr)
      else (scrollUp (r.drawn chr)).at
        ⟨(c.move r.framebuffer.cols chr).col, r.framebuffer.rows - 1⟩ := by
  have hbounds := Cursor.move_bounds chr h.col_lt
  have hrow := h.row_lt
  have hframe := drawn_framebuffer r chr
  rw [printCharLocked, wrapLine_placeChar hfits h, scrollScreen_at (hframe ▸ hfits)
    (by rw [hframe]; omega), hframe]

/-- The place of the cursor after a character. -/
def Cursor.after (fb : FrameBuffer) (chr : BitVec 8) (c : Cursor) : Cursor :=
  ⟨(c.move fb.cols chr).col, min (c.move fb.cols chr).row (fb.rows - 1)⟩

theorem Stands.print (hfits : r.framebuffer.Fits) (h : Stands r c) (chr : BitVec 8) :
    Stands (printCharLocked r chr) (c.after r.framebuffer chr) ∧
      (printCharLocked r chr).framebuffer = r.framebuffer := by
  have hbounds := Cursor.move_bounds chr h.col_lt
  have hrow := h.row_lt
  have hframe := drawn_framebuffer r chr
  rw [printCharLocked_eq hfits h]
  split
  next hin =>
    have hmin : min (c.move r.framebuffer.cols chr).row (r.framebuffer.rows - 1) =
        (c.move r.framebuffer.cols chr).row := by omega
    rw [Cursor.after, hmin]
    exact ⟨⟨rfl, rfl, hframe.symm ▸ hbounds.1, hframe.symm ▸ hin⟩, hframe⟩
  next hout =>
    have hmin : min (c.move r.framebuffer.cols chr).row (r.framebuffer.rows - 1) =
        r.framebuffer.rows - 1 := by omega
    rw [Cursor.after, hmin]
    refine ⟨⟨rfl, rfl, ?_, ?_⟩, hframe⟩
    · show (c.move r.framebuffer.cols chr).col < (r.drawn chr).framebuffer.cols
      rw [hframe]
      exact hbounds.1
    · show r.framebuffer.rows - 1 < (r.drawn chr).framebuffer.rows
      rw [hframe]
      omega

/-! ## What is drawn and moved -/

theorem mem_glyphCells {x y : Nat} (hx : x + 8 < 2 ^ 32) (hy : y + 16 < 2 ^ 32) {p : Nat × Nat} :
    p ∈ glyphCells x y ↔ (x ≤ p.1 ∧ p.1 < x + 8) ∧ y ≤ p.2 ∧ p.2 < y + 16 := by
  have hwide : x + (addU x 8 - x) = x + 8 := by rw [addU_eq hx]; omega
  have hhigh : y + (addU y 16 - y) = y + 16 := by rw [addU_eq hy]; omega
  simp only [glyphCells, mem_flatMap, mem_map, mem_range'_1, hwide, hhigh]
  constructor
  · rintro ⟨b, hb, a, ha, rfl⟩
    exact ⟨ha, hb⟩
  · rintro ⟨ha, hb⟩
    exact ⟨p.2, hb, p.1, ha, rfl⟩

theorem mem_fillCells {fb : FrameBuffer} {p : Nat × Nat} :
    p ∈ fb.fillCells ↔ p.1 < fb.width ∧ fb.height - 16 ≤ p.2 ∧ p.2 < fb.height - 16 + 16 := by
  simp only [FrameBuffer.fillCells, mem_flatMap, mem_map, mem_range'_1,
    mem_range]
  constructor
  · rintro ⟨b, hb, a, ha, rfl⟩
    exact ⟨ha, hb⟩
  · rintro ⟨ha, hb⟩
    exact ⟨p.2, hb, p.1, ha, rfl⟩

/-- A pixel of a scan line lies in the rows up to its own. -/
theorem index_lt {fb : FrameBuffer} {x y n : Nat} (hx : x < fb.pixelsPerScanLine) (hy : y < n) :
    fb.index x y < n * fb.pixelsPerScanLine := by
  have hrow : (y + 1) * fb.pixelsPerScanLine ≤ n * fb.pixelsPerScanLine :=
    Nat.mul_le_mul_right _ hy
  rw [Nat.succ_mul] at hrow
  unfold FrameBuffer.index
  omega

end

/-- The cursor is at a cell of the usable part of the screen. -/
structure OnScreen (r : Renderer) : Prop where
  x_mod : r.x % 8 = 0
  y_mod : r.y % 16 = 0
  x_le : r.x + 8 ≤ r.framebuffer.usableWidth
  y_le : r.y + 16 ≤ r.framebuffer.usableHeight

/-- The pixels of the visible part of the scan lines. -/
def FrameBuffer.Visible (fb : FrameBuffer) (i : Nat) : Prop :=
  ∃ x < fb.width, ∃ y < fb.height, i = fb.index x y

/-- The pixels of the scan lines. -/
def FrameBuffer.Inside (fb : FrameBuffer) (i : Nat) : Prop := i < fb.height * fb.pixelsPerScanLine

/-- Whatever the picture is, `f` writes these pixels at most. -/
def WritesOnly (r : Renderer) (inside : Nat → Prop) (f : Renderer → Renderer) : Prop :=
  ∀ px i, ¬inside i → (f { r with pixels := px }).pixels i = px i

/-- Whatever the picture is, what `f` makes of these pixels depends on no others. -/
def ReadsOnly (r : Renderer) (inside : Nat → Prop) (f : Renderer → Renderer) : Prop :=
  ∀ px px', (∀ i, inside i → px i = px' i) →
    ∀ i, inside i → (f { r with pixels := px }).pixels i = (f { r with pixels := px' }).pixels i

section

variable {r : Renderer} {c : Cursor}

theorem Stands.onScreen (h : Stands r c) : OnScreen r := by
  obtain ⟨hx, hy, hcol, hrow⟩ := h
  unfold FrameBuffer.cols FrameBuffer.rows at *
  constructor
  · omega
  · omega
  · unfold FrameBuffer.usableWidth
    omega
  · unfold FrameBuffer.usableHeight
    omega

/-- A glyph at the cursor is on the screen. -/
theorem OnScreen.glyph (h : OnScreen r) (hfits : r.framebuffer.Fits) {p : Nat × Nat}
    (hp : p ∈ glyphCells r.x r.y) : p.1 < r.framebuffer.width ∧ p.2 < r.framebuffer.height := by
  have hwide := hfits.width_lt
  have hhigh := hfits.height_lt
  have hx := h.x_le
  have hy := h.y_le
  unfold FrameBuffer.usableWidth FrameBuffer.usableHeight at *
  have hcell := (mem_glyphCells (by omega) (by omega)).mp hp
  omega

theorem FrameBuffer.Visible.inside {fb : FrameBuffer} {i : Nat} (h : fb.Visible i) :
    fb.Inside i := by
  obtain ⟨x, hx, y, hy, rfl⟩ := h
  exact index_lt (Nat.lt_of_lt_of_le hx fb.width_le) hy

theorem OnScreen.putChar_writes (h : OnScreen r) (hfits : r.framebuffer.Fits) (chr : BitVec 8) :
    WritesOnly r r.framebuffer.Visible (putChar · chr r.x r.y) := by
  intro px i hi
  refine stroke_of_not_mem (fun p hp hkey => hi ?_) px
  obtain ⟨hx, hy⟩ := h.glyph hfits hp
  exact ⟨p.1, hx, p.2, hy, hkey.symm⟩

theorem OnScreen.drawn_writes (h : OnScreen r) (hfits : r.framebuffer.Fits) (chr : BitVec 8) :
    WritesOnly r r.framebuffer.Inside (Renderer.drawn · chr) := by
  intro px i hi
  dsimp only [Renderer.drawn]
  split
  · rfl
  · exact h.putChar_writes hfits chr px i fun hvisible => hi hvisible.inside

/-- A pixel that is drawn depends on no other. -/
theorem drawn_congr {r' : Renderer} (h : r' = { r with pixels := r'.pixels }) (chr : BitVec 8)
    {i : Nat} (hi : r.pixels i = r'.pixels i) :
    (r.drawn chr).pixels i = (r'.drawn chr).pixels i := by
  rw [h]
  dsimp only [Renderer.drawn]
  split
  · exact hi
  · exact stroke_congr _ _ hi

theorem moveCount_add {fb : FrameBuffer} (h : 16 ≤ fb.height) :
    fb.moveCount + fb.index 0 16 = fb.height * fb.pixelsPerScanLine := by
  unfold FrameBuffer.moveCount FrameBuffer.index
  rw [Nat.zero_add, ← Nat.add_mul, Nat.sub_add_cancel h]

theorem scrollUp_of_outside (h : 16 ≤ r.framebuffer.height) {i : Nat}
    (hi : ¬r.framebuffer.Inside i) : (scrollUp r).pixels i = r.pixels i := by
  have hcount := moveCount_add h
  unfold FrameBuffer.Inside at hi
  have hmoved : moved r.pixels 0 (r.framebuffer.index 0 16) r.framebuffer.moveCount i =
      r.pixels i := if_neg (by omega)
  refine (stroke_of_not_mem (fun p hp hkey => hi ?_) _).trans hmoved
  obtain ⟨hx, -, hy⟩ := mem_fillCells.mp hp
  rw [← hkey]
  exact index_lt (Nat.lt_of_lt_of_le hx r.framebuffer.width_le) (by omega)

/-- A pixel that was moved comes from inside. -/
theorem scrollUp_congr (h : 16 ≤ r.framebuffer.height) {px px' : Nat → Color}
    (hsame : ∀ i, r.framebuffer.Inside i → px i = px' i) {i : Nat} (hi : r.framebuffer.Inside i) :
    (scrollUp { r with pixels := px }).pixels i = (scrollUp { r with pixels := px' }).pixels i := by
  have hcount := moveCount_add h
  refine stroke_congr _ _ ?_
  dsimp only [moved]
  split
  next hmoved =>
    refine hsame _ ?_
    unfold FrameBuffer.Inside
    omega
  · exact hsame i hi

/-- The picture after a character. -/
theorem printCharLocked_pixels (hfits : r.framebuffer.Fits) (h : Stands r c) (chr : BitVec 8) :
    (printCharLocked r chr).pixels =
      if (c.move r.framebuffer.cols chr).row < r.framebuffer.rows then (r.drawn chr).pixels
      else (scrollUp (r.drawn chr)).pixels := by
  rw [printCharLocked_eq hfits h]
  split <;> rfl

theorem Stands.withPixels (h : Stands r c) (px : Nat → Color) : Stands { r with pixels := px } c :=
  ⟨h.x_eq, h.y_eq, h.col_lt, h.row_lt⟩

theorem Stands.print_writes (hfits : r.framebuffer.Fits) (h : Stands r c) (chr : BitVec 8) :
    WritesOnly r r.framebuffer.Inside (printCharLocked · chr) := by
  intro px i hi
  have hdrawn := h.onScreen.drawn_writes hfits chr px i hi
  dsimp only at hdrawn ⊢
  rw [printCharLocked_pixels (r := { r with pixels := px }) hfits (h.withPixels px)]
  split
  · exact hdrawn
  · rw [scrollUp_of_outside, hdrawn]
    · rw [drawn_framebuffer]
      exact hfits.height_ge
    · rw [drawn_framebuffer]
      exact hi

theorem Stands.print_reads (hfits : r.framebuffer.Fits) (h : Stands r c) (chr : BitVec 8) :
    ReadsOnly r r.framebuffer.Inside (printCharLocked · chr) := by
  intro px px' hsame i hi
  have hdrawn : ∀ j, r.framebuffer.Inside j →
      (Renderer.drawn { r with pixels := px } chr).pixels j =
        (Renderer.drawn { r with pixels := px' } chr).pixels j :=
    fun j hj => drawn_congr rfl chr (hsame j hj)
  dsimp only
  rw [printCharLocked_pixels (r := { r with pixels := px }) hfits (h.withPixels px),
    printCharLocked_pixels (r := { r with pixels := px' }) hfits (h.withPixels px')]
  dsimp only
  split
  · exact hdrawn i hi
  · have hpicture : ∀ px, Renderer.drawn { r with pixels := px } chr =
        { r with pixels := (Renderer.drawn { r with pixels := px } chr).pixels } := by
      intro px
      unfold Renderer.drawn
      split <;> rfl
    rw [hpicture px, hpicture px']
    exact scrollUp_congr hfits.height_ge hdrawn hi

/-- The cursor stands somewhere in the grid after any number of characters. -/
theorem Stands.run (hfits : r.framebuffer.Fits) (h : Stands r c) (chars : List (BitVec 8)) :
    ∃ c', Stands (chars.foldl printCharLocked r) c' ∧
      (chars.foldl printCharLocked r).framebuffer = r.framebuffer := by
  induction chars generalizing r c with
  | nil => exact ⟨c, h, rfl⟩
  | cons chr chars ih =>
    obtain ⟨hnext, hframe⟩ := h.print hfits chr
    obtain ⟨c', hc', hsame⟩ := ih (hframe.symm ▸ hfits) hnext
    exact ⟨c', hc', hsame.trans hframe⟩

theorem stands_origin (hfits : r.framebuffer.Fits) (hx : r.x = 0) (hy : r.y = 0) :
    Stands r ⟨0, 0⟩ :=
  ⟨hx, hy, Nat.div_pos hfits.width_ge (by decide), Nat.div_pos hfits.height_ge (by decide)⟩

/-- The calls print their characters one after the other. -/
theorem run_calls (r : Renderer) (calls : List PrintCall) :
    calls.foldl Renderer.run r = (calls.flatMap PrintCall.chars).foldl printCharLocked r := by
  induction calls generalizing r with
  | nil => rfl
  | cons call calls ih =>
    rw [foldl_cons, ih, flatMap_cons, foldl_append, Renderer.run]

end

/-- Whatever is printed, the cursor stays at a cell of the screen.  So a glyph that is drawn next
writes visible pixels only, and neither scrolling nor the next character as a whole reads or writes
a pixel outside the scan lines. -/
theorem console_stays_on_screen (r : Renderer) (hfits : r.framebuffer.Fits) (hx : r.x = 0)
    (hy : r.y = 0) (calls : List PrintCall) :
    calls.foldl Renderer.run r = (calls.flatMap PrintCall.chars).foldl printCharLocked r ∧
    ∀ first, first <+: calls.flatMap PrintCall.chars →
      let s := first.foldl printCharLocked r
      s.framebuffer = r.framebuffer ∧ OnScreen s ∧
        (∀ chr, WritesOnly s r.framebuffer.Visible (putChar · chr s.x s.y)) ∧
        WritesOnly s r.framebuffer.Inside scrollUp ∧ ReadsOnly s r.framebuffer.Inside scrollUp ∧
        ∀ chr, WritesOnly s r.framebuffer.Inside (printCharLocked · chr) ∧
          ReadsOnly s r.framebuffer.Inside (printCharLocked · chr) := by
  refine ⟨run_calls r calls, fun first _ => ?_⟩
  obtain ⟨c, hstands, hframe⟩ := (stands_origin hfits hx hy).run hfits first
  dsimp only
  generalize first.foldl printCharLocked r = s at *
  rw [← hframe] at hfits ⊢
  refine ⟨rfl, hstands.onScreen, hstands.onScreen.putChar_writes hfits, ?_, ?_, fun chr => ?_⟩
  · intro px i hi
    exact scrollUp_of_outside (r := { s with pixels := px }) hfits.height_ge hi
  · intro px px' hsame i hi
    exact scrollUp_congr hfits.height_ge hsame hi
  · exact ⟨hstands.print_writes hfits chr, hstands.print_reads hfits chr⟩

/-- A screen of 20 by 40 pixels, with two cells in each of its two rows. -/
def smallScreen : FrameBuffer := ⟨20, 40, 24, by decide⟩

/-- A console with that screen and an empty font. -/
def smallConsole : Renderer := ⟨smallScreen, ⟨16, fun _ => 0⟩, fg, 0, 0, fun _ => bg⟩

/-- Five characters scroll the small screen once. -/
theorem console_stays_on_screen_small :
    OnScreen ([97, 98, 99, 100, 101].foldl printCharLocked smallConsole) ∧
      ([97, 98, 99, 100, 101].foldl printCharLocked smallConsole).x = 8 := by
  have hstays := console_stays_on_screen smallConsole ⟨by decide, by decide, by decide, by decide⟩
    rfl rfl [.printN [97, 98, 99, 100, 101]]
  exact ⟨(hstays.2 _ (prefix_refl _)).2.1, by decide +kernel⟩

end Aeryk.Tty
