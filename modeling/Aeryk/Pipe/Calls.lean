import Aeryk.Pipe.Buffer

/-!
# Interleavings of the pipe calls

One pipe and any number of processes in `pipe_read`, `pipe_write` and `pipe_close_end`.  A step is
one interrupt-masked section of a call, or an unmasked piece between two of them: the
`mlfq_enqueue` of a popped waiter, or one `wait_queue_pop` of `wake_all`.

A call that finds nothing to do links itself on a wait queue and calls `schedule()`.  It gets the
CPU back only after somebody has popped it and passed it to `mlfq_enqueue`, and then starts over at
the head of its loop.  So the state keeps where each process stands in its call (`Pc`) and whether
it has been enqueued since it went to sleep (`ready`).  No step asks that a caller holds an open
end.
-/

namespace Aeryk

open Function

/-- A process, as the wait queues of the pipe name it. -/
abbrev Pid := Nat

/-- Where a process stands in its pipe calls. -/
inductive Pc where
  /-- In no pipe call.  The last one returned `ret`. -/
  | out (ret : Int)
  /-- At the head of the loop of `pipe_read`.  The bytes stored so far are `got`. -/
  | reading (got : List Byte) (count : Int)
  /-- Behind the masked section of `pipe_read`, with a popped writer to enqueue. -/
  | readWake (waiter : Pid) (got : List Byte) (count : Int)
  /-- In the `schedule()` of `pipe_read`. -/
  | readSleep (got : List Byte) (count : Int)
  /-- At the head of the loop of `pipe_write`, with `n` bytes of `buf` written. -/
  | writing (buf : Nat → Byte) (n : Nat) (count : Int)
  /-- Behind the masked section of `pipe_write`, with a popped reader to enqueue. -/
  | writeWake (waiter : Pid) (buf : Nat → Byte) (n : Nat) (count : Int)
  /-- In the `schedule()` of `pipe_write`. -/
  | writeSleep (buf : Nat → Byte) (n : Nat) (count : Int)
  /-- In `wake_all(&p->write_waiters)` of `pipe_close_end`, with the waiter popped last. -/
  | wakeWriters (shouldFree : Bool) (waiter : Option Pid)
  /-- In `wake_all(&p->read_waiters)` of `pipe_close_end`, with the waiter popped last. -/
  | wakeReaders (shouldFree : Bool) (waiter : Option Pid)

structure PipeSys where
  pipe : Pipe (List Pid)
  pc : Pid → Pc
  /-- Passed to `mlfq_enqueue` since it last went to sleep. -/
  ready : Pid → Bool
  /-- Every byte put into the pipe, in order. -/
  put : List Byte
  /-- Every byte taken out of the pipe, in order. -/
  taken : List Byte
  /-- `kfree(p)` has run. -/
  freed : Bool

/-- The pipe as `pipe_create` leaves it, with nobody in a call. -/
def PipeSys.init : PipeSys where
  pipe := pipeCreate []
  pc := fun _ => .out 0
  ready := fun _ => false
  put := []
  taken := []
  freed := false

/-- Process `me` goes on at `c`. -/
def PipeSys.goto (s : PipeSys) (me : Pid) (c : Pc) : PipeSys :=
  { s with pc := update s.pc me c }

@[simp] theorem PipeSys.goto_pc (s : PipeSys) (me : Pid) (c : Pc) :
    (s.goto me c).pc = update s.pc me c := rfl

/-- `mlfq_enqueue(w)`: the popped waiter will get the CPU again. -/
def PipeSys.enqueue (s : PipeSys) (w : Pid) : PipeSys :=
  { s with ready := update s.ready w true }

/-! ## The loop bodies -/

/-- The byte-taking branch of `pipe_read`: store the byte, advance `tail`, and pop one blocked
writer, to be enqueued after the section. -/
def readTake (s : PipeSys) (me : Pid) (got : List Byte) (count : Int) : PipeSys :=
  let b := s.pipe.front
  let s' := { s with pipe := s.pipe.takeByte, taken := s.taken ++ [b] }
  match s.pipe.writeWaiters with
  | [] => s'.goto me (.reading (got ++ [b]) count)
  | w :: ws =>
    { s' with pipe := { s.pipe.takeByte with writeWaiters := ws } }.goto me
      (.readWake w (got ++ [b]) count)

/-- One turn of the loop of `pipe_read`: the loop test and the masked section. -/
def readLoop (s : PipeSys) (me : Pid) (got : List Byte) (count : Int) : PipeSys :=
  if (got.length : Int) < count then
    if 0 < s.pipe.count then
      readTake s me got count
    else if s.pipe.writers = 0 then
      -- buffer empty and no writer left to fill it: EOF
      s.goto me (.out got.length)
    else
      { s with
        pipe := { s.pipe with readWaiters := s.pipe.readWaiters ++ [me] }
        ready := update s.ready me false }.goto me (.readSleep got count)
  else
    s.goto me (.out got.length)

/-- The byte-storing branch of `pipe_write`. -/
def writePut (s : PipeSys) (me : Pid) (buf : Nat → Byte) (n : Nat) (count : Int) : PipeSys :=
  let s' := { s with pipe := s.pipe.putByte (buf n), put := s.put ++ [buf n] }
  match s.pipe.readWaiters with
  | [] => s'.goto me (.writing buf (n + 1) count)
  | w :: ws =>
    { s' with pipe := { s.pipe.putByte (buf n) with readWaiters := ws } }.goto me
      (.writeWake w buf (n + 1) count)

/-- One turn of the loop of `pipe_write`, which looks at the other end before the buffer. -/
def writeLoop (s : PipeSys) (me : Pid) (buf : Nat → Byte) (n : Nat) (count : Int) : PipeSys :=
  if (n : Int) < count then
    if s.pipe.readers = 0 then
      -- no reader left to ever drain this: report what was written, if anything
      s.goto me (.out (if 0 < n then n else -1))
    else if s.pipe.count < pipeBufSize then
      writePut s me buf n count
    else
      { s with
        pipe := { s.pipe with writeWaiters := s.pipe.writeWaiters ++ [me] }
        ready := update s.ready me false }.goto me (.writeSleep buf n count)
  else
    s.goto me (.out n)

/-- The masked section of `pipe_close_end`. -/
def closeEnd {Q : Type} (p : Pipe Q) (isReadEnd : Bool) : Pipe Q :=
  if isReadEnd then { p with readers := p.readers - 1 } else { p with writers := p.writers - 1 }

/-- `should_free` of `pipe_close_end`. -/
def shouldFree {Q : Type} (p : Pipe Q) : Bool := p.readers = 0 ∧ p.writers = 0

/-- The masked section of `pipe_close_end`, after which both queues are to be woken. -/
def closeSection (s : PipeSys) (me : Pid) (isReadEnd : Bool) : PipeSys :=
  { s with pipe := closeEnd s.pipe isReadEnd }.goto me
    (.wakeWriters (shouldFree (closeEnd s.pipe isReadEnd)) none)

/-- One `wait_queue_pop` of `wake_all(&p->write_waiters)`. -/
def popWriter (s : PipeSys) (me : Pid) (free : Bool) : PipeSys :=
  match s.pipe.writeWaiters with
  | [] => s.goto me (.wakeReaders free none)
  | w :: ws =>
    { s with pipe := { s.pipe with writeWaiters := ws } }.goto me (.wakeWriters free (some w))

/-- One `wait_queue_pop` of `wake_all`.  The empty queue ends the call, and the last end frees the
pipe. -/
def popReader (s : PipeSys) (me : Pid) (free : Bool) : PipeSys :=
  match s.pipe.readWaiters with
  | [] => { s with freed := s.freed || free }.goto me (.out 0)
  | w :: ws =>
    { s with pipe := { s.pipe with readWaiters := ws } }.goto me (.wakeReaders free (some w))

/-! ## Steps and runs -/

/-- `me` is at the head of the loop of `pipe_read`, or asleep in its `schedule()` and enqueued. -/
def AtRead (s : PipeSys) (me : Pid) (got : List Byte) (count : Int) : Prop :=
  s.pc me = .reading got count ∨ s.pc me = .readSleep got count ∧ s.ready me = true

/-- `me` is about to run the loop of `pipe_write`. -/
def AtWrite (s : PipeSys) (me : Pid) (buf : Nat → Byte) (n : Nat) (count : Int) : Prop :=
  s.pc me = .writing buf n count ∨ s.pc me = .writeSleep buf n count ∧ s.ready me = true

inductive PipeStep : PipeSys → PipeSys → Prop where
  | callRead {s me ret} (count : Int) (h : s.pc me = .out ret) :
    PipeStep s (s.goto me (.reading [] count))
  | callWrite {s me ret} (buf : Nat → Byte) (count : Int) (h : s.pc me = .out ret) :
    PipeStep s (s.goto me (.writing buf 0 count))
  | callClose {s me ret} (isReadEnd : Bool) (h : s.pc me = .out ret) :
    PipeStep s (closeSection s me isReadEnd)
  /-- `fork`, `dup` or `dup2` of an open read end. -/
  | dupRead {s} (h : 0 < s.pipe.readers) :
    PipeStep s { s with pipe := { s.pipe with readers := s.pipe.readers + 1 } }
  /-- `fork`, `dup` or `dup2` of an open write end. -/
  | dupWrite {s} (h : 0 < s.pipe.writers) :
    PipeStep s { s with pipe := { s.pipe with writers := s.pipe.writers + 1 } }
  | read {s me got count} (h : AtRead s me got count) : PipeStep s (readLoop s me got count)
  | readEnqueue {s me w got count} (h : s.pc me = .readWake w got count) :
    PipeStep s ((s.goto me (.reading got count)).enqueue w)
  | write {s me buf n count} (h : AtWrite s me buf n count) :
    PipeStep s (writeLoop s me buf n count)
  | writeEnqueue {s me w buf n count} (h : s.pc me = .writeWake w buf n count) :
    PipeStep s ((s.goto me (.writing buf n count)).enqueue w)
  | popWriter {s me free} (h : s.pc me = .wakeWriters free none) :
    PipeStep s (popWriter s me free)
  | enqueueWriter {s me free w} (h : s.pc me = .wakeWriters free (some w)) :
    PipeStep s ((s.goto me (.wakeWriters free none)).enqueue w)
  | popReader {s me free} (h : s.pc me = .wakeReaders free none) :
    PipeStep s (popReader s me free)
  | enqueueReader {s me free w} (h : s.pc me = .wakeReaders free (some w)) :
    PipeStep s ((s.goto me (.wakeReaders free none)).enqueue w)

/-- The states of the runs that start at a new pipe. -/
def PipeReachable (s : PipeSys) : Prop := Relation.ReflTransGen PipeStep PipeSys.init s

/-- What holds of a new pipe and is kept by every step holds in every run. -/
theorem PipeReachable.invariant {I : PipeSys → Prop} (h0 : I PipeSys.init)
    (hstep : ∀ s s', PipeStep s s' → I s → I s') {s : PipeSys} (h : PipeReachable s) : I s := by
  induction h with
  | refl => exact h0
  | tail _ st ih => exact hstep _ _ st ih

end Aeryk
