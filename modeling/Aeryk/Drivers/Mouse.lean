import Aeryk.Drivers.Port

/-!
# The mouse

`mouse.c`: interrupt 12 collects the three bytes of a PS/2 packet, decodes them and puts the packet
into a ring, and `mouse_read` takes packets out of it.

A stream of movement reports goes in byte by byte, at any moments between the turns of any number
of readers.  The bytes collected so far are always the first bytes of the report that is coming in,
so the resynchronisation never drops one, and a complete packet decodes to its report
(`decode_encode`).  A report that overflows or finds the ring full is dropped, and every other one
is appended to what was taken and what is still in the ring (`stream_from`).
-/

namespace Aeryk.Drivers

open List Function Lib

def mouseBufSize : Nat := 64

structure MousePacket where
  dx : BitVec 16
  dy : BitVec 16
  buttons : BitVec 8
  deriving DecidableEq

/-- The arguments of `mouse_read`. -/
structure MouseCall where
  maxPackets : Int
  nonblock : Bool
  deriving DecidableEq

structure Mouse where
  port : Port MouseCall MousePacket mouseBufSize
  packetBytes : Nat → BitVec 8
  packetIdx : Nat

/-- The static variables before the first interrupt. -/
def Mouse.init : Mouse where
  port := Port.init ⟨0, 0, 0⟩ mouseBufSize (by decide)
  packetBytes := fun _ => 0
  packetIdx := 0

/-- A delta from its low byte and its sign bit. -/
def signExtend (negative : Bool) (data : BitVec 8) : BitVec 16 :=
  BitVec.ofInt 16 (if negative then (data.toNat : Int) - 256 else data.toNat)

/-- The packet of three bytes, if neither delta overflowed. -/
def decode (flags xData yData : BitVec 8) : Option MousePacket :=
  if flags &&& 0xC0#8 ≠ 0 then none
  else some {
    dx := signExtend (flags &&& 0x10#8 ≠ 0) xData
    dy := signExtend (flags &&& 0x20#8 ≠ 0) yData
    buttons := flags &&& 0x07#8 }

def Mouse.onIrq12 (s : Mouse) (data : BitVec 8) : Mouse :=
  if s.packetIdx = 0 ∧ data &&& 0x08#8 = 0 then s
  else
    let packetBytes := update s.packetBytes s.packetIdx data
    let packetIdx := s.packetIdx + 1
    if packetIdx < 3 then { s with packetBytes, packetIdx }
    else
      match decode (packetBytes 0) (packetBytes 1) (packetBytes 2) with
      | none => { s with packetBytes, packetIdx := 0 }
      | some pkt => { port := (s.port.push pkt).wake, packetBytes, packetIdx := 0 }

/-- One turn of the loop of `mouse_read`, up to the end of its masked section. -/
def mouseRead (p : Port MouseCall MousePacket mouseBufSize) (pid : Pid) (call : MouseCall)
    (got : List MousePacket) (popped : Bool) : Port MouseCall MousePacket mouseBufSize :=
  if (got.length : Int) < call.maxPackets then
    match p.ring.pop with
    | some (pkt, ring) => p.take pid call got popped pkt ring
    | none => if 0 < got.length ∨ call.nonblock then p.finish pid got else p.park pid call got
  else p.finish pid got

inductive MouseEvent
  /-- Interrupt 12 with a byte of the mouse. -/
  | byte (data : BitVec 8)
  /-- A process calls `mouse_read`. -/
  | call (pid : Pid) (call : MouseCall)
  /-- A process takes a turn of its loop. -/
  | turn (pid : Pid)
  deriving DecidableEq

def Mouse.step (s : Mouse) : MouseEvent → Mouse
  | .byte data => s.onIrq12 data
  | .call pid call => { s with port := s.port.begin pid call }
  | .turn pid => { s with port := s.port.turn pid mouseRead }

/-! ## Reports

What the mouse sends, in its standard encoding. -/

structure Report where
  dx : Int
  dy : Int
  buttons : Fin 8
  xOverflow : Bool
  yOverflow : Bool
  dx_range : -256 ≤ dx ∧ dx ≤ 255
  dy_range : -256 ≤ dy ∧ dy ≤ 255

def Report.overflow (r : Report) : Bool := r.xOverflow || r.yOverflow

def flagByte (buttons : Fin 8) (xSign ySign xOverflow yOverflow : Bool) : BitVec 8 :=
  BitVec.ofNat 8 buttons ||| 0x08#8 ||| (if xSign then 0x10#8 else 0) |||
    (if ySign then 0x20#8 else 0) ||| (if xOverflow then 0x40#8 else 0) |||
    (if yOverflow then 0x80#8 else 0)

def Report.encode (r : Report) : List (BitVec 8) :=
  [flagByte r.buttons (r.dx < 0) (r.dy < 0) r.xOverflow r.yOverflow,
    BitVec.ofInt 8 r.dx, BitVec.ofInt 8 r.dy]

def Report.values (r : Report) : Int × Int × Nat := (r.dx, r.dy, r.buttons)

def MousePacket.values (p : MousePacket) : Int × Int × Nat :=
  (p.dx.toInt, p.dy.toInt, p.buttons.toNat)

def Report.packet (r : Report) : MousePacket :=
  ⟨BitVec.ofInt 16 r.dx, BitVec.ofInt 16 r.dy, BitVec.ofNat 8 r.buttons⟩

/-- Sixteen bits are enough for the values. -/
@[simp] theorem Report.values_packet (r : Report) : r.packet.values = r.values := by
  have hx := r.dx_range
  have hy := r.dy_range
  have hb := r.buttons.isLt
  simp only [packet, MousePacket.values, values, BitVec.toInt_ofInt, BitVec.toNat_ofNat]
  rw [Int.bmod_eq_of_le (by omega) (by omega), Int.bmod_eq_of_le (by omega) (by omega),
    Nat.mod_eq_of_lt (by omega)]

/-- Each field can be read back from the first byte, which is always told from the others. -/
theorem flagByte_fields (buttons : Fin 8) (xSign ySign xOverflow yOverflow : Bool) :
    (flagByte buttons xSign ySign xOverflow yOverflow &&& 0x08#8 ≠ 0) ∧
    decide (flagByte buttons xSign ySign xOverflow yOverflow &&& 0xC0#8 ≠ 0) =
      (xOverflow || yOverflow) ∧
    decide (flagByte buttons xSign ySign xOverflow yOverflow &&& 0x10#8 ≠ 0) = xSign ∧
    decide (flagByte buttons xSign ySign xOverflow yOverflow &&& 0x20#8 ≠ 0) = ySign ∧
    flagByte buttons xSign ySign xOverflow yOverflow &&& 0x07#8 = BitVec.ofNat 8 buttons := by
  revert buttons xSign ySign xOverflow yOverflow
  decide

/-- A delta of nine bits comes back from its low byte and its sign. -/
theorem signExtend_ofInt {d : Int} (hd : -256 ≤ d ∧ d ≤ 255) :
    signExtend (d < 0) (BitVec.ofInt 8 d) = BitVec.ofInt 16 d := by
  rw [signExtend]
  congr 1
  have hbyte : ((BitVec.ofInt 8 d).toNat : Int) = d % 256 := by
    rw [BitVec.toNat_ofInt]
    exact Int.toNat_of_nonneg (Int.emod_nonneg d (by decide))
  rw [hbyte]
  by_cases hneg : d < 0
  · rw [decide_eq_true hneg, if_pos rfl]
    omega
  · rw [decide_eq_false hneg, if_neg (by decide)]
    omega

/-- The three bytes of a report decode to it, unless it overflows. -/
theorem decode_encode (r : Report) :
    decode (flagByte r.buttons (r.dx < 0) (r.dy < 0) r.xOverflow r.yOverflow)
        (BitVec.ofInt 8 r.dx) (BitVec.ofInt 8 r.dy) =
      if r.overflow then none else some r.packet := by
  obtain ⟨-, hover, hx, hy, hb⟩ :=
    flagByte_fields r.buttons (r.dx < 0) (r.dy < 0) r.xOverflow r.yOverflow
  rw [decode, hx, hy, hb, signExtend_ofInt r.dx_range, signExtend_ofInt r.dy_range]
  rw [Report.overflow, ← hover]
  simp only [decide_eq_true_eq]
  rfl

/-! ## The stream -/

def bytesOf : List MouseEvent → List (BitVec 8)
  | [] => []
  | .byte data :: events => data :: bytesOf events
  | .call _ _ :: events => bytesOf events
  | .turn _ :: events => bytesOf events

/-- The states in which the last bytes of the reports arrive, after `k` bytes of the first one. -/
def arrivals (s : Mouse) (k : Nat) : List MouseEvent → List Mouse
  | [] => []
  | .byte data :: events =>
    if k = 2 then s :: arrivals (s.step (.byte data)) 0 events
    else arrivals (s.step (.byte data)) (k + 1) events
  | .call pid call :: events => arrivals (s.step (.call pid call)) k events
  | .turn pid :: events => arrivals (s.step (.turn pid)) k events

/-- The report does not overflow, and the ring has room when it arrives. -/
def Report.kept (r : Report) (s : Mouse) : Bool :=
  !r.overflow && s.port.ring.items.length != mouseBufSize - 1

/-- The reports that are kept, in the order they arrive in. -/
def accepted (states : List Mouse) (reports : List Report) : List Report :=
  ((states.zip reports).filter fun a => a.2.kept a.1).map Prod.snd

/-- The packets that were taken, and those still in the ring. -/
def Mouse.packets (s : Mouse) : List MousePacket :=
  s.port.taken.map Prod.snd ++ s.port.ring.items

def Mouse.pending (s : Mouse) : List (BitVec 8) := (range s.packetIdx).map s.packetBytes

/-- A turn of a reader moves the oldest packet at most, from the ring to what was taken. -/
theorem packets_mouseRead (s : Mouse) (pid : Pid) (call : MouseCall) (got : List MousePacket)
    (popped : Bool) :
    Mouse.packets { s with port := mouseRead s.port pid call got popped } = s.packets := by
  unfold mouseRead
  split
  · split
    next pkt ring hpop =>
      simp only [Mouse.packets, Port.take, Fifo.items_of_pop hpop, map_append,
        append_assoc]
      rfl
    · split <;> rfl
  · rfl

theorem packets_turn (s : Mouse) (pid : Pid) : (s.step (.turn pid)).packets = s.packets := by
  simp only [Mouse.step, Port.turn]
  split
  · exact packets_mouseRead s pid _ _ _
  · exact packets_mouseRead s pid _ _ _
  · rfl

theorem packets_call (s : Mouse) (pid : Pid) (call : MouseCall) :
    (s.step (.call pid call)).packets = s.packets := by
  simp [Mouse.step, Mouse.packets]

/-- The last byte of a report: it is decoded, and appended if it is kept. -/
theorem packets_last {s : Mouse} {r : Report} {data : BitVec 8} (hidx : s.packetIdx = 2)
    (hbytes : s.pending ++ [data] = r.encode) :
    (s.onIrq12 data).packets = s.packets ++ (if r.kept s then [r.packet] else []) ∧
      (s.onIrq12 data).packetIdx = 0 := by
  have hfields : s.packetBytes 0 = flagByte r.buttons (r.dx < 0) (r.dy < 0) r.xOverflow
      r.yOverflow ∧ s.packetBytes 1 = BitVec.ofInt 8 r.dx ∧ data = BitVec.ofInt 8 r.dy := by
    simpa [Mouse.pending, hidx, range_succ, Report.encode] using hbytes
  obtain ⟨h0, h1, h2⟩ := hfields
  have hdecode : decode (update s.packetBytes 2 data 0)
      (update s.packetBytes 2 data 1) (update s.packetBytes 2 data 2) =
      if r.overflow then none else some r.packet := by
    rw [update_of_ne (by decide), update_of_ne (by decide),
      update_self, h0, h1, h2, decode_encode]
  simp only [Mouse.onIrq12, hidx, hdecode, Nat.reduceAdd, Nat.lt_irrefl, if_false,
    OfNat.ofNat_ne_zero, false_and]
  cases hover : r.overflow with
  | true => simp [Report.kept, hover, Mouse.packets]
  | false =>
    have hkept : r.kept s = true ↔ ¬s.port.ring.items.length + 1 = mouseBufSize := by
      have hsize : 0 < mouseBufSize := by decide
      simp only [Report.kept, hover, Bool.not_false, Bool.true_and, bne_iff_ne]
      omega
    simp only [Bool.false_eq_true, if_false, Mouse.packets, Port.wake_taken, Port.wake_ring,
      Port.push, Fifo.items_push, and_true, hkept]
    split <;> simp

/-- A byte before the last one of its report is collected. -/
theorem pending_byte {s : Mouse} {data : BitVec 8} (hidx : s.packetIdx < 2)
    (hfirst : s.packetIdx = 0 → data &&& 0x08#8 ≠ 0) :
    (s.onIrq12 data).pending = s.pending ++ [data] ∧
      (s.onIrq12 data).packetIdx = s.packetIdx + 1 ∧ (s.onIrq12 data).packets = s.packets := by
  have hcollect : ¬(s.packetIdx = 0 ∧ data &&& 0x08#8 = 0) := fun h => hfirst h.1 h.2
  have hmore : s.packetIdx + 1 < 3 := by omega
  have hstep : s.onIrq12 data = { s with
      packetBytes := update s.packetBytes s.packetIdx data
      packetIdx := s.packetIdx + 1 } := by
    simp only [Mouse.onIrq12, if_neg hcollect, if_pos hmore]
  rw [hstep]
  refine ⟨?_, rfl, rfl⟩
  simp only [Mouse.pending, range_succ, map_append, map_cons, map_nil,
    update_self]
  congr 1
  apply map_congr_left
  intro i hi
  exact update_of_ne (Nat.ne_of_lt (mem_range.mp hi)) _ _

@[simp] theorem length_pending (s : Mouse) : s.pending.length = s.packetIdx := by
  simp [Mouse.pending]

@[simp] theorem length_encode (r : Report) : r.encode.length = 3 := rfl

@[simp] theorem accepted_nil (reports : List Report) : accepted [] reports = [] := rfl

@[simp] theorem accepted_cons (s : Mouse) (states : List Mouse) (r : Report)
    (reports : List Report) :
    accepted (s :: states) (r :: reports) =
      (if r.kept s then [r] else []) ++ accepted states reports := by
  cases h : r.kept s <;> simp [accepted, h]

/-- What a stream adds to the packets, from any state that stands within a report. -/
theorem stream_from (events : List MouseEvent) {s : Mouse} {reports : List Report}
    (hidx : s.packetIdx < 3)
    (hfed : s.pending ++ bytesOf events <+: reports.flatMap Report.encode) :
    (events.foldl Mouse.step s).packets =
      s.packets ++ (accepted (arrivals s s.packetIdx events) reports).map Report.packet := by
  induction events generalizing s reports with
  | nil => simp [arrivals]
  | cons event events ih =>
    rw [foldl_cons]
    cases event with
    | call pid call =>
      have hrest := ih (s := s.step (.call pid call)) hidx hfed
      rw [packets_call] at hrest
      exact hrest
    | turn pid =>
      have hrest := ih (s := s.step (.turn pid)) hidx hfed
      rw [packets_turn] at hrest
      exact hrest
    | byte data =>
      rw [bytesOf, append_cons] at hfed
      -- the byte belongs to the first report that is not complete
      cases reports with
      | nil => simp at hfed
      | cons r reports =>
        rw [flatMap_cons] at hfed
        have hlen : (s.pending ++ [data]).length ≤ r.encode.length := by
          simp
          omega
        have hr : s.pending ++ [data] <+: r.encode :=
          prefix_of_prefix_length_le ((prefix_append _ _).trans hfed)
            (prefix_append _ _) hlen
        rw [Mouse.step]
        by_cases hlast : s.packetIdx = 2
        · have hbytes : s.pending ++ [data] = r.encode :=
            hr.eq_of_length (by simp [hlast])
          obtain ⟨hpackets, hzero⟩ := packets_last hlast hbytes
          rw [hbytes, prefix_append_right_inj] at hfed
          have hnone : (s.onIrq12 data).pending = [] := by simp [Mouse.pending, hzero]
          rw [← nil_append (bytesOf events), ← hnone] at hfed
          rw [ih (by omega) hfed, hpackets, hzero, arrivals, if_pos hlast, accepted_cons,
            Mouse.step]
          cases hkept : r.kept s <;> simp
        · have hfirst : s.packetIdx = 0 → data &&& 0x08#8 ≠ 0 := by
            intro hzero
            have hflag : data = flagByte r.buttons (r.dx < 0) (r.dy < 0) r.xOverflow
                r.yOverflow := by
              simpa [Mouse.pending, hzero, Report.encode] using hr
            rw [hflag]
            exact (flagByte_fields _ _ _ _ _).1
          obtain ⟨hpending, hnext, hpackets⟩ := pending_byte (by omega) hfirst
          rw [← hpending, ← flatMap_cons] at hfed
          rw [ih (by omega) hfed, hpackets, hnext, arrivals, if_neg hlast, Mouse.step]

/-! ## Buffers -/

theorem delivered_mouseRead {p : Port MouseCall MousePacket mouseBufSize} (h : p.Delivered)
    {pid : Pid} {call : MouseCall} {got : List MousePacket} {popped : Bool}
    (hgot : (p.readers pid).holding = got) : (mouseRead p pid call got popped).Delivered := by
  unfold mouseRead
  split
  · split
    · exact h.take hgot
    · split
      · exact h.finish hgot
      · exact h.park hgot
  · exact h.finish hgot

theorem delivered_step {s : Mouse} (h : s.port.Delivered) (event : MouseEvent) :
    (s.step event).port.Delivered := by
  cases event with
  | call pid call => exact h.begin pid call
  | turn pid => exact h.turn fun _ _ _ hgot => delivered_mouseRead h hgot
  | byte data =>
    simp only [Mouse.step, Mouse.onIrq12]
    split
    · exact h
    · split
      · exact h
      · split
        · exact h
        · exact (h.push _).wake

theorem delivered_run {s : Mouse} (h : s.port.Delivered) (events : List MouseEvent) :
    (events.foldl Mouse.step s).port.Delivered := by
  induction events generalizing s with
  | nil => exact h
  | cons event events ih => exact ih (delivered_step h event)

/-- The packets that readers take are the reports that were kept, in order and with the same
values, the rest is in the ring, and each is in the buffer of the call that took it. -/
theorem mouse_stream_exact (s : Mouse) (reports : List Report) (events : List MouseEvent)
    (hidx : s.packetIdx = 0) (hport : s.port.Delivered)
    (hfed : bytesOf events <+: reports.flatMap Report.encode) :
    (events.foldl Mouse.step s).packets.map MousePacket.values =
        s.packets.map MousePacket.values ++
          (accepted (arrivals s 0 events) reports).map Report.values ∧
      (events.foldl Mouse.step s).port.Delivered := by
  have hpending : s.pending = [] := by simp [Mouse.pending, hidx]
  have hstream := stream_from events (s := s) (by omega) (by rwa [hpending])
  constructor
  · rw [hstream, hidx, map_append, map_map]
    congr 1
    exact map_congr_left fun r _ => r.values_packet
  · exact delivered_run hport events

/-- A step to the left with the left button held. -/
def oneLeft : Report := ⟨-1, 0, 1, false, false, by decide, by decide⟩

/-- Process 7 waits for a packet, and takes it once the last byte has arrived. -/
def oneMove : List MouseEvent :=
  [.call 7 ⟨4, false⟩, .turn 7, .byte 0x19, .byte 0xFF, .turn 7, .byte 0x00, .turn 7, .turn 7]

theorem mouse_stream_exact_oneMove :
    bytesOf oneMove = oneLeft.encode ∧
      (oneMove.foldl Mouse.step Mouse.init).packets.map MousePacket.values = [(-1, 0, 1)] ∧
      (oneMove.foldl Mouse.step Mouse.init).port.returned 7 =
        [[⟨BitVec.ofInt 16 (-1), 0, 1⟩]] := by
  have hbytes : bytesOf oneMove = oneLeft.encode := by decide
  have hexact := mouse_stream_exact Mouse.init [oneLeft] oneMove rfl
    (Port.delivered_init _ _) (by rw [hbytes]; simp)
  refine ⟨hbytes, hexact.1.trans ?_, ?_⟩
  · decide
  · decide

end Aeryk.Drivers
