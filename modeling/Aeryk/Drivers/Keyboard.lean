import Aeryk.Drivers.Port

/-!
# The keyboard

`keyboard.c`: interrupt 1 turns scancodes into characters and edits a line with them.  A
complete line is handed to a ring, from which `keyboard_read` takes it byte by byte.  The echo
on the console is left out.
-/

namespace Aeryk.Drivers

open List Lib

def kbdBufSize : Nat := 256

def lineBufSize : Nat := kbdBufSize

def scLshift : BitVec 8 := 0x2A

def scRshift : BitVec 8 := 0x36

def ascii (c : Char) : BitVec 8 := BitVec.ofNat 8 c.toNat

/-- The first entries of `kbd_us`; the rest of the table is zero. -/
def kbdUsTable : List Char := [
  '\x00', '\x1b', '1', '2', '3', '4', '5', '6', '7', '8', '9', '0', '-',
  '=', '\x08', '\t', 'q', 'w', 'e', 'r', 't', 'y', 'u', 'i', 'o', 'p',
  '[', ']', '\n', '\x00', 'a', 's', 'd', 'f', 'g', 'h', 'j', 'k', 'l',
  ';', '\x27', '\x60', '\x00', '\x5c', 'z', 'x', 'c', 'v', 'b', 'n', 'm', ',',
  '.', '/', '\x00', '*', '\x00', ' ', '\x00', '\x00', '\x00', '\x00', '\x00', '\x00', '\x00',
  '\x00', '\x00', '\x00', '\x00', '\x00', '\x00', '\x00', '\x00', '\x00', '-', '\x00', '\x00',
  '\x00', '+']

def kbdUs (i : Nat) : BitVec 8 := ascii (kbdUsTable.getD i '\x00')

/-- The `switch` of `shift_char`. -/
def shiftTable : List (Char × Char) := [
  ('1', '!'), ('2', '@'), ('3', '#'), ('4', '$'), ('5', '%'), ('6', '^'), ('7', '&'),
  ('8', '*'), ('9', '('), ('0', ')'), ('-', '_'), ('=', '+'), ('[', '\x7b'), (']', '\x7d'),
  (';', ':'), ('\x27', '\x22'), ('\x60', '~'), ('\x5c', '|'), (',', '<'), ('.', '>'),
  ('/', '?')]

def shiftChar (c : BitVec 8) : BitVec 8 :=
  if ascii 'a' ≤ c ∧ c ≤ ascii 'z' then c - (ascii 'a' - ascii 'A')
  else
    match shiftTable.find? fun e => ascii e.1 == c with
    | some e => ascii e.2
    | none => c

/-- `'\n'` -/
def newline : BitVec 8 := ascii '\n'

/-- `'\b'` -/
def backspace : BitVec 8 := ascii '\x08'

/-- The state of the driver.  The argument of a call is its `count`. -/
structure Keyboard where
  port : Port Int (BitVec 8) kbdBufSize
  lineBuf : Nat → BitVec 8
  lineLen : Nat
  shiftDown : Bool

/-- The static variables before the first interrupt. -/
def Keyboard.init : Keyboard where
  port := Port.init 0 kbdBufSize (by decide)
  lineBuf := fun _ => 0
  lineLen := 0
  shiftDown := false

def Keyboard.append (s : Keyboard) (c : BitVec 8) : Keyboard :=
  if s.lineLen < lineBufSize then
    { s with lineBuf := Function.update s.lineBuf s.lineLen c, lineLen := s.lineLen + 1 }
  else s

/-- A complete line is handed to the ring, and a reader is woken. -/
def Keyboard.handOver (s : Keyboard) (c : BitVec 8) : Keyboard :=
  if c = newline ∨ s.lineLen = lineBufSize then
    { s with
      port := (((range s.lineLen).map s.lineBuf).foldl Port.push s.port).wake
      lineLen := 0 }
  else s

/-- The last part of `on_irq1`, from the character on. -/
def Keyboard.edit (s : Keyboard) (c : BitVec 8) : Keyboard :=
  if c = backspace then
    if 0 < s.lineLen then { s with lineLen := s.lineLen - 1 } else s
  else (s.append c).handOver c

def Keyboard.onIrq1 (s : Keyboard) (scancode : BitVec 8) : Keyboard :=
  let code := scancode &&& 0x7F#8
  let isBreak : Bool := scancode &&& 0x80#8 ≠ 0
  if code = scLshift ∨ code = scRshift then { s with shiftDown := !isBreak }
  else if isBreak then s
  else
    let c := kbdUs scancode.toNat
    if c = 0 then s
    else s.edit (if s.shiftDown then shiftChar c else c)

/-- One turn of the loop of `keyboard_read`, up to the end of its masked section or out of the
call. -/
def keyboardRead (p : Port Int (BitVec 8) kbdBufSize) (pid : Pid) (count : Int)
    (got : List (BitVec 8)) (popped : Bool) : Port Int (BitVec 8) kbdBufSize :=
  if (got.length : Int) < count then
    match p.ring.pop with
    | some (c, ring) =>
      let p := p.take pid count got popped c ring
      if c = newline then p.finish pid (got ++ [c]) else p
    | none => p.park pid count got
  else p.finish pid got

inductive KeyEvent
  /-- Interrupt 1 with a byte of the keyboard. -/
  | scancode (data : BitVec 8)
  /-- A process calls `keyboard_read`. -/
  | call (pid : Pid) (count : Int)
  /-- A process takes a turn of its loop. -/
  | turn (pid : Pid)
  deriving DecidableEq

def Keyboard.step (s : Keyboard) : KeyEvent → Keyboard
  | .scancode data => s.onIrq1 data
  | .call pid count => { s with port := s.port.begin pid count }
  | .turn pid => { s with port := s.port.turn pid keyboardRead }

/-- The characters that were taken, and those still in the ring. -/
def Keyboard.chars (s : Keyboard) : List (BitVec 8) :=
  s.port.taken.map Prod.snd ++ s.port.ring.items

def Keyboard.line (s : Keyboard) : List (BitVec 8) := (range s.lineLen).map s.lineBuf

/-! ## Steps -/

section

variable {s : Keyboard} {c : BitVec 8}

@[simp] theorem length_line (s : Keyboard) : s.line.length = s.lineLen := by
  simp [Keyboard.line]

/-- The ring takes the characters of a line while it has room. -/
theorem pushes_eq (p : Port Int (BitVec 8) kbdBufSize) (line : List (BitVec 8)) :
    line.foldl Port.push p = { p with ring := line.foldl Fifo.push p.ring } := by
  induction line generalizing p with
  | nil => rfl
  | cons c line ih => exact ih (p.push c)

theorem line_append (h : s.lineLen < lineBufSize) : (s.append c).line = s.line ++ [c] := by
  simp only [Keyboard.append, if_pos h, Keyboard.line, range_succ, map_append,
    map_cons, map_nil, Function.update_self]
  congr 1
  apply map_congr_left
  intro i hi
  exact Function.update_of_ne (Nat.ne_of_lt (mem_range.mp hi)) _ _

@[simp] theorem append_port (s : Keyboard) (c : BitVec 8) : (s.append c).port = s.port := by
  unfold Keyboard.append
  split <;> rfl

@[simp] theorem append_shiftDown (s : Keyboard) (c : BitVec 8) :
    (s.append c).shiftDown = s.shiftDown := by
  unfold Keyboard.append
  split <;> rfl

@[simp] theorem handOver_shiftDown (s : Keyboard) (c : BitVec 8) :
    (s.handOver c).shiftDown = s.shiftDown := by
  unfold Keyboard.handOver
  split <;> rfl

/-- An unfinished line stays where it is. -/
theorem handOver_of_not (h : ¬(c = newline ∨ s.lineLen = lineBufSize)) : s.handOver c = s :=
  if_neg h

/-- The line is empty after it is handed over. -/
theorem line_handOver (h : c = newline ∨ s.lineLen = lineBufSize) : (s.handOver c).line = [] := by
  simp [Keyboard.handOver, if_pos h, Keyboard.line]

/-- A line that finds the ring empty gets there but for what is beyond the room of the ring. -/
theorem chars_handOver (h : c = newline ∨ s.lineLen = lineBufSize)
    (hempty : s.port.ring.items = []) :
    (s.handOver c).chars = s.chars ++ s.line.take (kbdBufSize - 1) := by
  simp [Keyboard.handOver, if_pos h, Keyboard.chars, pushes_eq, Fifo.items_pushes, hempty,
    Keyboard.line]

theorem port_edit (s : Keyboard) (c : BitVec 8) :
    (s.edit c).port = s.port ∨ ∃ ring, (s.edit c).port = Port.wake { s.port with ring } := by
  unfold Keyboard.edit
  split
  · split <;> exact .inl rfl
  · unfold Keyboard.handOver
    split
    · right
      rw [append_port, pushes_eq]
      exact ⟨_, rfl⟩
    · exact .inl (append_port s c)

/-- What a scancode does to the port: nothing, or the ring takes something and the queue is
popped. -/
theorem port_onIrq1 (s : Keyboard) (scancode : BitVec 8) :
    (s.onIrq1 scancode).port = s.port ∨
      ∃ ring, (s.onIrq1 scancode).port = Port.wake { s.port with ring } := by
  simp only [Keyboard.onIrq1]
  split
  · exact .inl rfl
  split
  · exact .inl rfl
  split
  · exact .inl rfl
  · exact port_edit s _

/-- A turn of a reader moves the oldest character at most, from the ring to what was taken. -/
theorem chars_keyboardRead (s : Keyboard) (pid : Pid) (count : Int) (got : List (BitVec 8))
    (popped : Bool) :
    Keyboard.chars { s with port := keyboardRead s.port pid count got popped } = s.chars := by
  unfold keyboardRead
  split
  · split
    next c ring hpop =>
      have htake : Keyboard.chars { s with port := s.port.take pid count got popped c ring } =
          s.chars := by
        simp only [Keyboard.chars, Port.take, Fifo.items_of_pop hpop, map_append,
          append_assoc]
        rfl
      split
      · exact htake
      · exact htake
    · rfl
  · rfl

theorem chars_turn (s : Keyboard) (pid : Pid) : (s.step (.turn pid)).chars = s.chars := by
  simp only [Keyboard.step, Port.turn]
  split
  · exact chars_keyboardRead s pid _ _ _
  · exact chars_keyboardRead s pid _ _ _
  · rfl

theorem chars_call (s : Keyboard) (pid : Pid) (count : Int) :
    (s.step (.call pid count)).chars = s.chars := by
  simp [Keyboard.step, Keyboard.chars]

end

/-! ## Buffers -/

theorem delivered_keyboardRead {p : Port Int (BitVec 8) kbdBufSize} (h : p.Delivered) {pid : Pid}
    {count : Int} {got : List (BitVec 8)} {popped : Bool}
    (hgot : (p.readers pid).holding = got) : (keyboardRead p pid count got popped).Delivered := by
  unfold keyboardRead
  split
  · split
    next c ring _ =>
      have htake : (p.take pid count got popped c ring).Delivered := h.take hgot
      split
      · exact htake.finish (by simp [Port.take, Reader.holding])
      · exact htake
    · exact h.park hgot
  · exact h.finish hgot

theorem delivered_onIrq1 {s : Keyboard} (h : s.port.Delivered) (scancode : BitVec 8) :
    (s.onIrq1 scancode).port.Delivered := by
  rcases port_onIrq1 s scancode with hport | ⟨ring, hport⟩
  · rwa [hport]
  · rw [hport]
    exact Port.Delivered.wake h

/-- Every byte that was taken is in the buffer of the call that took it. -/
theorem delivered_keyEvent {s : Keyboard} (h : s.port.Delivered) (event : KeyEvent) :
    (s.step event).port.Delivered := by
  cases event with
  | scancode data => exact delivered_onIrq1 h data
  | call pid count => exact h.begin pid count
  | turn pid => exact h.turn fun _ _ _ hgot => delivered_keyboardRead h hgot

end Aeryk.Drivers
