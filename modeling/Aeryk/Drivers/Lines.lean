import Aeryk.Drivers.Keyboard
import Aeryk.Lib.Guarded

/-!
# What a reader gets to read

`Editor` is the line editor the driver is to be.  It knows which Shift keys are held, and it edits
a line of keys, which show as characters (`Key.shown`).  It also notes for every key whether the
last event of a Shift key was a press (`latched`), which is all that the driver knows.  `Session`
runs the driver and the editor on the same events.

The two agree on how keys make up lines, because Shift makes no key a line end or a backspace.
They differ in two ways: the driver shifts by `latched` (`Key.coded`), and of a line of
`LINE_BUF_SIZE` characters the ring drops the last one.  `Follows` says exactly what the driver
hands over.
-/

namespace Aeryk.Drivers

open List Lib

/-! ## The reference editor -/

structure Key where
  /-- The character of the key in `kbd_us`. -/
  char : BitVec 8
  /-- A Shift key was held. -/
  held : Bool
  /-- The last event of a Shift key was a press. -/
  latched : Bool
  deriving DecidableEq

def Key.shown (k : Key) : BitVec 8 := if k.held then shiftChar k.char else k.char

def Key.coded (k : Key) : BitVec 8 := if k.latched then shiftChar k.char else k.char

structure Editor where
  /-- The left Shift key is held. -/
  left : Bool
  /-- The right Shift key is held. -/
  right : Bool
  /-- The last event of a Shift key was a press. -/
  latch : Bool
  /-- The unfinished line. -/
  line : List Key
  /-- The completed lines. -/
  done : List (List Key)

def Editor.init : Editor := ⟨false, false, false, [], []⟩

def Editor.edit (e : Editor) (key : Key) : Editor :=
  if key.shown = backspace then { e with line := e.line.dropLast }
  else
    let line := e.line ++ [key]
    if key.shown = newline ∨ line.length = lineBufSize then
      { e with line := [], done := e.done ++ [line] }
    else { e with line }

/-- A scancode arrives: a make code, or with the highest bit a break code. -/
def Editor.type (e : Editor) (scancode : BitVec 8) : Editor :=
  let code := scancode &&& 0x7F#8
  let isBreak : Bool := scancode &&& 0x80#8 ≠ 0
  if code = scLshift then { e with left := !isBreak, latch := !isBreak }
  else if code = scRshift then { e with right := !isBreak, latch := !isBreak }
  else if isBreak then e
  else if kbdUs scancode.toNat = 0 then e
  else e.edit ⟨kbdUs scancode.toNat, e.left || e.right, e.latch⟩

def Editor.text (e : Editor) : List (BitVec 8) :=
  (e.done.map fun line => line.map Key.shown).flatten

structure Session where
  kbd : Keyboard
  editor : Editor

def Session.init : Session := ⟨Keyboard.init, Editor.init⟩

def Session.step (s : Session) (event : KeyEvent) : Session where
  kbd := s.kbd.step event
  editor :=
    match event with
    | .scancode data => s.editor.type data
    | _ => s.editor

/-- Readers have emptied the ring when the next line is completed. -/
def Session.Drained (s : Session) (event : KeyEvent) : Prop :=
  (s.step event).editor.done ≠ s.editor.done → s.kbd.port.ring.items = []

instance : DecidableRel Session.Drained := fun s event =>
  inferInstanceAs (Decidable ((s.step event).editor.done ≠ s.editor.done →
    s.kbd.port.ring.items = []))

/-! ## Shift and the shape of lines -/

theorem shiftChar_eq_newline : ∀ c : BitVec 8, shiftChar c = newline ↔ c = newline := by
  decide +kernel

theorem shiftChar_eq_backspace : ∀ c : BitVec 8, shiftChar c = backspace ↔ c = backspace := by
  decide +kernel

section

variable {k : Key}

theorem Key.coded_eq_newline : k.coded = newline ↔ k.shown = newline := by
  unfold coded shown
  split <;> split <;> simp only [shiftChar_eq_newline]

theorem Key.coded_eq_backspace : k.coded = backspace ↔ k.shown = backspace := by
  unfold coded shown
  split <;> split <;> simp only [shiftChar_eq_backspace]

/-- The driver gets a key right if it knows of Shift, or Shift does nothing to the key. -/
theorem Key.coded_eq_shown :
    k.coded = k.shown ↔ k.latched = k.held ∨ shiftChar k.char = k.char := by
  unfold coded shown
  cases k.latched <;> cases k.held <;> simp [eq_comm]

end

/-! ## The driver follows the editor -/

def handed (line : List Key) : List (BitVec 8) := (line.map Key.coded).take (kbdBufSize - 1)

/-- The driver has the editor's line, and handed over what it has of the editor's lines. -/
structure Session.Follows (s : Session) : Prop where
  shift : s.kbd.shiftDown = s.editor.latch
  line : s.kbd.line = s.editor.line.map Key.coded
  room : s.editor.line.length < lineBufSize
  chars : s.kbd.chars = (s.editor.done.map handed).flatten

theorem Session.follows_init : Session.init.Follows := ⟨rfl, rfl, by decide, rfl⟩

section

variable {s : Session}

/-- The driver after a backspace. -/
theorem line_backspace (kbd : Keyboard) :
    (if 0 < kbd.lineLen then { kbd with lineLen := kbd.lineLen - 1 } else kbd).line =
      kbd.line.dropLast := by
  split
  next h =>
    obtain ⟨n, hn⟩ := Nat.exists_eq_add_of_lt h
    simp [Keyboard.line, hn, range_succ]
  next h =>
    have hzero : kbd.lineLen = 0 := by omega
    simp [Keyboard.line, hzero]

/-- A key is edited on both sides. -/
theorem Session.Follows.edit (h : s.Follows) {key : Key}
    (hdrained : (s.editor.edit key).done ≠ s.editor.done → s.kbd.port.ring.items = []) :
    Session.Follows ⟨s.kbd.edit key.coded, s.editor.edit key⟩ := by
  have hroom := h.room
  have hlen : s.kbd.lineLen = s.editor.line.length := by
    rw [← length_line, h.line, length_map]
  unfold Keyboard.edit
  by_cases hback : key.shown = backspace
  · rw [if_pos (Key.coded_eq_backspace.mpr hback)]
    simp only [Editor.edit, if_pos hback]
    refine ⟨?_, ?_, ?_, ?_⟩
    · split <;> exact h.shift
    · rw [line_backspace, h.line, map_dropLast]
    · exact Nat.lt_of_le_of_lt (by simp) hroom
    · split <;> exact h.chars
  · rw [if_neg fun hc => hback (Key.coded_eq_backspace.mp hc)]
    simp only [Editor.edit, if_neg hback] at hdrained ⊢
    have hline : (s.kbd.append key.coded).line = (s.editor.line ++ [key]).map Key.coded := by
      rw [line_append (hlen ▸ hroom), h.line, map_append]
      rfl
    have hlineLen : (s.kbd.append key.coded).lineLen = (s.editor.line ++ [key]).length := by
      rw [← length_line, hline, length_map]
    have hchars : (s.kbd.append key.coded).chars = (s.editor.done.map handed).flatten := by
      rw [← h.chars, Keyboard.chars, append_port]
      rfl
    by_cases hdone : key.shown = newline ∨ (s.editor.line ++ [key]).length = lineBufSize
    · have hover : key.coded = newline ∨ (s.kbd.append key.coded).lineLen = lineBufSize := by
        rwa [Key.coded_eq_newline, hlineLen]
      rw [if_pos hdone] at hdrained ⊢
      have hempty : (s.kbd.append key.coded).port.ring.items = [] := by
        rw [append_port]
        exact hdrained (by simp)
      refine ⟨?_, line_handOver hover, Nat.zero_lt_of_lt hroom, ?_⟩
      · rw [handOver_shiftDown, append_shiftDown]
        exact h.shift
      · rw [chars_handOver hover hempty, hchars, hline]
        simp [handed]
    · have hkeep : ¬(key.coded = newline ∨ (s.kbd.append key.coded).lineLen = lineBufSize) := by
        rwa [Key.coded_eq_newline, hlineLen]
      rw [handOver_of_not hkeep, if_neg hdone]
      refine ⟨?_, hline, ?_, hchars⟩
      · rw [append_shiftDown]
        exact h.shift
      · rw [not_or, length_append, length_singleton] at hdone
        rw [length_append, length_singleton]
        omega

/-- A scancode on both sides. -/
theorem Session.Follows.type (h : s.Follows) {scancode : BitVec 8}
    (hdrained : (s.editor.type scancode).done ≠ s.editor.done → s.kbd.port.ring.items = []) :
    Session.Follows ⟨s.kbd.onIrq1 scancode, s.editor.type scancode⟩ := by
  simp only [Keyboard.onIrq1, Editor.type] at hdrained ⊢
  by_cases hleft : scancode &&& 0x7F#8 = scLshift
  · simp only [hleft, true_or, if_true]
    exact ⟨rfl, h.line, h.room, h.chars⟩
  by_cases hright : scancode &&& 0x7F#8 = scRshift
  · simp only [hright, or_true, if_true]
    exact ⟨rfl, h.line, h.room, h.chars⟩
  simp only [hleft, hright, or_self, if_false] at hdrained ⊢
  split
  · exact h
  next hmake =>
    split
    · exact h
    next hchar =>
      rw [if_neg hmake, if_neg hchar] at hdrained
      rw [h.shift]
      exact h.edit hdrained

theorem Session.Follows.step (h : s.Follows) {event : KeyEvent} (hdrained : s.Drained event) :
    (s.step event).Follows := by
  cases event with
  | scancode data => exact h.type hdrained
  | call pid count => exact ⟨h.shift, h.line, h.room, (chars_call s.kbd pid count).trans h.chars⟩
  | turn pid => exact ⟨h.shift, h.line, h.room, (chars_turn s.kbd pid).trans h.chars⟩

end

/-! ## When all is handed over -/

/-- Two concatenations agree only piece by piece, if no piece of the first is longer. -/
theorem flatten_map_eq_iff {α β : Type} {f g : β → List α} {l : List β}
    (hle : ∀ b ∈ l, (f b).length ≤ (g b).length) :
    (l.map f).flatten = (l.map g).flatten ↔ ∀ b ∈ l, f b = g b := by
  constructor
  · intro heq
    induction l with
    | nil => simp
    | cons b l ih =>
      have hrest : (l.map f).flatten.length ≤ (l.map g).flatten.length := by
        simp only [length_flatten, map_map]
        exact sum_le_sum fun b hb => hle b (mem_cons_of_mem _ hb)
      have hfirst := hle b mem_cons_self
      have hlen := congrArg length heq
      simp only [map_cons, flatten_cons, length_append] at heq hlen
      obtain ⟨hb, hl⟩ := append_inj heq (by omega)
      intro c hc
      cases hc with
      | head => exact hb
      | tail _ hc => exact ih (fun b hb => hle b (mem_cons_of_mem _ hb)) hl c hc
  · intro hall
    rw [map_congr_left hall]

/-- A line is handed over as it is shown. -/
theorem handed_eq_iff {line : List Key} :
    handed line = line.map Key.shown ↔
      line.length < kbdBufSize ∧ ∀ k ∈ line, k.latched = k.held ∨ shiftChar k.char = k.char := by
  have hsize : 0 < kbdBufSize := by decide
  constructor
  · intro heq
    have hlen := congrArg length heq
    simp only [handed, length_take, length_map] at hlen
    have hshort : line.length < kbdBufSize := by omega
    refine ⟨hshort, fun k hk => ?_⟩
    rw [handed, take_of_length_le (by simp; omega), map_inj_left] at heq
    exact Key.coded_eq_shown.mp (heq k hk)
  · rintro ⟨hshort, hkeys⟩
    rw [handed, take_of_length_le (by simp; omega), map_inj_left]
    exact fun k hk => Key.coded_eq_shown.mpr (hkeys k hk)

/-- Readers that empty the ring before each next line is completed get the lines of the editor, if
and only if no completed line has `LINE_BUF_SIZE` characters and no key of one that Shift changes
was pressed while one Shift key was held and the other one was released last. -/
theorem keyboard_lines_iff (events : List KeyEvent)
    (hdrained : Along Session.Drained Session.step Session.init events) :
    let s := events.foldl Session.step Session.init
    (s.kbd.chars = s.editor.text ↔ ∀ line ∈ s.editor.done, line.length < kbdBufSize ∧
        ∀ k ∈ line, k.latched = k.held ∨ shiftChar k.char = k.char) ∧
      s.kbd.port.Delivered := by
  have hfollows := hdrained.keeps (I := Session.Follows)
    (fun _ _ hs hevent => hs.step hevent) Session.follows_init
  have hport := hdrained.keeps (I := fun s => s.kbd.port.Delivered)
    (fun _ event hs _ => delivered_keyEvent hs event) (Port.delivered_init _ _)
  refine ⟨?_, hport⟩
  rw [hfollows.chars, Editor.text, flatten_map_eq_iff]
  · exact forall₂_congr fun line _ => handed_eq_iff
  · intro line _
    simp [handed]

/-- A shifted letter and a line end are typed, and process 5 reads them. -/
def shiftedLetter : List KeyEvent :=
  [.scancode 0x2A, .scancode 0x1E, .scancode 0xAA, .scancode 0x1C, .call 5 8, .turn 5, .turn 5]

theorem keyboard_lines_shiftedLetter :
    (shiftedLetter.foldl Session.step Session.init).kbd.port.returned 5 =
        [[ascii 'A', newline]] ∧
      (shiftedLetter.foldl Session.step Session.init).kbd.chars =
        (shiftedLetter.foldl Session.step Session.init).editor.text := by
  have hdrained : Along Session.Drained Session.step Session.init shiftedLetter := by
    decide +kernel
  refine ⟨by decide +kernel, (keyboard_lines_iff shiftedLetter hdrained).1.mpr ?_⟩
  decide +kernel

/-- Both Shift keys are pressed and the right one is released before the letter is typed. -/
def oneShiftLeft : List KeyEvent :=
  [.scancode 0x2A, .scancode 0x36, .scancode 0xB6, .scancode 0x1E, .scancode 0x1C]

/-- A line of `LINE_BUF_SIZE` characters with its line end. -/
def fullLine : List KeyEvent :=
  replicate 255 (.scancode 0x1E) ++ [.scancode 0x1C]

/-- The letter comes out small although Shift is held, and the line end of the long line is
lost. -/
theorem keyboard_lines_altered :
    (Along Session.Drained Session.step Session.init oneShiftLeft ∧
      (oneShiftLeft.foldl Session.step Session.init).editor.text = [ascii 'A', newline] ∧
      (oneShiftLeft.foldl Session.step Session.init).kbd.chars = [ascii 'a', newline]) ∧
    (Along Session.Drained Session.step Session.init fullLine ∧
      (fullLine.foldl Session.step Session.init).editor.text =
        replicate 255 (ascii 'a') ++ [newline] ∧
      (fullLine.foldl Session.step Session.init).kbd.chars = replicate 255 (ascii 'a')) := by
  decide +kernel

end Aeryk.Drivers
