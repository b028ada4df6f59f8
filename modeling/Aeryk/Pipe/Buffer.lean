import Aeryk.Lib.Window

/-!
# The pipe buffer

`pipe_t` of `pipe.h`: a ring of `PIPE_BUF_SIZE` bytes with separate `head`, `tail` and `count`, the
number of open ends, and two wait queues.  Their type is a parameter: the kernel links processes
through pointers, and the interleaving model of the pipe calls keeps plain lists.
-/

namespace Aeryk

open Lib

abbrev Byte := BitVec 8

def pipeBufSize : Nat := 512

structure Pipe (Q : Type) where
  /-- The ring. -/
  buf : Nat → Byte
  /-- Next slot to write. -/
  head : Nat
  /-- Next slot to read. -/
  tail : Nat
  /-- Bytes currently buffered. -/
  count : Nat
  /-- Open read ends. -/
  readers : Nat
  /-- Open write ends. -/
  writers : Nat
  /-- Blocked in `pipe_read` on an empty buffer. -/
  readWaiters : Q
  /-- Blocked in `pipe_write` on a full buffer. -/
  writeWaiters : Q

/-- `pipe_create`: a zeroed pipe with one reader and one writer. -/
def pipeCreate {Q : Type} (noWaiters : Q) : Pipe Q where
  buf := fun _ => 0
  head := 0
  tail := 0
  count := 0
  readers := 1
  writers := 1
  readWaiters := noWaiters
  writeWaiters := noWaiters

namespace Pipe

variable {Q : Type} (p : Pipe Q)

/-- The byte `pipe_read` takes: `p->buf[p->tail]`. -/
def front : Byte := p.buf p.tail

/-- The index updates of `pipe_read` after it has taken a byte. -/
def takeByte : Pipe Q :=
  { p with tail := (p.tail + 1) % pipeBufSize, count := p.count - 1 }

/-- The store and index updates of `pipe_write`. -/
def putByte (b : Byte) : Pipe Q :=
  { p with
    buf := Function.update p.buf p.head b
    head := (p.head + 1) % pipeBufSize
    count := p.count + 1 }

def buffered : List Byte := window pipeBufSize p.buf p.tail p.count

structure RingOk : Prop where
  count_le : p.count ≤ pipeBufSize
  tail_lt : p.tail < pipeBufSize
  head_eq : p.head = (p.tail + p.count) % pipeBufSize

variable {p}

theorem pipeCreate_ringOk (noWaiters : Q) : (pipeCreate noWaiters).RingOk :=
  ⟨Nat.zero_le _, Nat.succ_pos _, rfl⟩

/-- Taking a byte keeps the indices in agreement. -/
theorem RingOk.takeByte (h : p.RingOk) (hc : 0 < p.count) : p.takeByte.RingOk := by
  refine ⟨?_, Nat.mod_lt _ (by decide), ?_⟩
  · have := h.count_le
    simp only [Pipe.takeByte]
    omega
  · simp only [Pipe.takeByte, h.head_eq]
    rw [Nat.mod_add_mod]
    congr 1
    omega

/-- Putting a byte into a buffer that is not full keeps the indices in agreement. -/
theorem RingOk.putByte (h : p.RingOk) (hc : p.count < pipeBufSize) (b : Byte) :
    (p.putByte b).RingOk := by
  refine ⟨hc, h.tail_lt, ?_⟩
  simp only [Pipe.putByte, h.head_eq]
  rw [Nat.mod_add_mod]
  congr 1

/-- The byte taken is the oldest one, and the rest stays in order. -/
theorem RingOk.buffered_take (h : p.RingOk) (hc : 0 < p.count) :
    p.buffered = p.front :: p.takeByte.buffered := by
  obtain ⟨n, hn⟩ : ∃ n, p.count = n + 1 := ⟨p.count - 1, by omega⟩
  simp only [buffered, Pipe.takeByte, front, hn, Nat.add_sub_cancel]
  rw [window_succ, Nat.mod_eq_of_lt h.tail_lt]

/-- The byte put is the newest one. -/
theorem RingOk.buffered_put (h : p.RingOk) (hc : p.count < pipeBufSize) (b : Byte) :
    (p.putByte b).buffered = p.buffered ++ [b] := by
  simp only [buffered, Pipe.putByte, h.head_eq]
  exact window_push p.buf p.tail p.count b hc

end Pipe

end Aeryk
