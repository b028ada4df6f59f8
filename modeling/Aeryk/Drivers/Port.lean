import Aeryk.Lib.Fifo

/-!
# Input ports

The keyboard and the mouse driver have one shape.  An interrupt handler puts decoded items into a
ring and wakes the first process of a wait queue.  A read call takes items out of the ring, one
masked section a turn, and parks its process on the queue when the ring is empty.

`Port` holds the ring, the wait queue and where each process stands in its call.  `taken`, which
the code does not have, lists who took which item, and `returned` the buffers that finished calls
filled.
-/

namespace Aeryk.Drivers

open Function Lib

abbrev Pid := Nat

/-- Where a process stands in its read call, with the arguments and the items stored so far. -/
inductive Reader (κ α : Type)
  /-- Not in a call. -/
  | idle
  /-- In the loop.  `popped` says that the call was parked and taken off the queue. -/
  | running (call : κ) (got : List α) (popped : Bool)
  /-- On the wait queue. -/
  | parked (call : κ) (got : List α)
  /-- Taken off the wait queue, and not run since. -/
  | woken (call : κ) (got : List α)
  deriving DecidableEq

/-- The items a process holds from its current call. -/
def Reader.holding {κ α : Type} : Reader κ α → List α
  | .idle => []
  | .running _ got _ => got
  | .parked _ got => got
  | .woken _ got => got

/-- What `mlfq_enqueue` does to a process that was on the wait queue. -/
def Reader.ready {κ α : Type} : Reader κ α → Reader κ α
  | .parked call got => .woken call got
  | r => r

@[simp] theorem Reader.holding_ready {κ α : Type} (r : Reader κ α) :
    r.ready.holding = r.holding := by
  cases r <;> rfl

/-- The state both drivers share, with a ring of `n` slots. -/
structure Port (κ α : Type) (n : Nat) where
  /-- The ring. -/
  ring : Fifo α n
  /-- The wait queue, first to be woken first. -/
  waitq : List Pid
  /-- Where each process stands. -/
  readers : Pid → Reader κ α
  /-- Who took which item. -/
  taken : List (Pid × α)
  /-- The buffers of the finished calls. -/
  returned : Pid → List (List α)

namespace Port

variable {κ α : Type} {n : Nat} (p : Port κ α n) (pid : Pid) (call : κ) (got : List α)

def init (x : α) (n : Nat) (h : 0 < n) : Port κ α n :=
  ⟨Fifo.empty x n h, [], fun _ => .idle, [], fun _ => []⟩

def push (x : α) : Port κ α n := { p with ring := p.ring.push x }

/-- `wait_queue_pop`, and `mlfq_enqueue` of the process if there is one. -/
def wake : Port κ α n :=
  match p.waitq with
  | [] => p
  | w :: waitq =>
    { p with waitq, readers := update p.readers w (p.readers w).ready }

/-- A process that is in no call begins one. -/
def begin : Port κ α n :=
  match p.readers pid with
  | .idle => { p with readers := update p.readers pid (.running call [] false) }
  | _ => p

/-- The item `x` goes into the caller's buffer, and `ring` is left. -/
def take (popped : Bool) (x : α) (ring : Fifo α n) : Port κ α n :=
  { p with
    ring
    readers := update p.readers pid (.running call (got ++ [x]) popped)
    taken := p.taken ++ [(pid, x)] }

def finish : Port κ α n :=
  { p with
    readers := update p.readers pid .idle
    returned := update p.returned pid (p.returned pid ++ [got]) }

/-- The process is parked at the end of the wait queue. -/
def park : Port κ α n :=
  { p with
    waitq := p.waitq ++ [pid]
    readers := update p.readers pid (.parked call got) }

/-- A process that may run takes one turn of its loop. -/
def turn (body : Port κ α n → Pid → κ → List α → Bool → Port κ α n) : Port κ α n :=
  match p.readers pid with
  | .running call got popped => body p pid call got popped
  | .woken call got => body p pid call got true
  | _ => p

/-- Everything that a process took is in the buffers of its calls, in order. -/
def Delivered : Prop :=
  ∀ pid, (p.returned pid).flatten ++ (p.readers pid).holding = handedTo pid p.taken

variable {p pid call got} {popped : Bool} {x : α} {ring : Fifo α n}

/-! ## Buffers -/

@[simp] theorem wake_ring (p : Port κ α n) : p.wake.ring = p.ring := by
  unfold wake
  split <;> rfl

@[simp] theorem wake_taken (p : Port κ α n) : p.wake.taken = p.taken := by
  unfold wake
  split <;> rfl

@[simp] theorem begin_ring (p : Port κ α n) (pid : Pid) (call : κ) :
    (p.begin pid call).ring = p.ring := by
  unfold begin
  split <;> rfl

@[simp] theorem begin_taken (p : Port κ α n) (pid : Pid) (call : κ) :
    (p.begin pid call).taken = p.taken := by
  unfold begin
  split <;> rfl

theorem delivered_init (x : α) (h : 0 < n) : (init x n h : Port κ α n).Delivered := fun _ => rfl

/-- A step that changes one process's place, but not what it holds. -/
theorem Delivered.readers (h : p.Delivered) {w : Pid} {r : Reader κ α} {waitq : List Pid}
    (hr : r.holding = (p.readers w).holding) :
    Delivered { p with waitq, readers := update p.readers w r } := by
  intro pid
  have hpid := h pid
  dsimp only
  by_cases hw : pid = w
  · subst hw
    rwa [update_self, hr]
  · rwa [update_of_ne hw]

theorem Delivered.push (h : p.Delivered) (x : α) : (p.push x).Delivered := h

theorem Delivered.wake (h : p.Delivered) : p.wake.Delivered := by
  unfold Port.wake
  split
  · exact h
  · exact h.readers (Reader.holding_ready _)

theorem Delivered.begin (h : p.Delivered) (pid : Pid) (call : κ) :
    (p.begin pid call).Delivered := by
  unfold Port.begin
  split
  next hidle => exact h.readers (by rw [hidle]; rfl)
  · exact h

theorem Delivered.park (h : p.Delivered) (hgot : (p.readers pid).holding = got) :
    (p.park pid call got).Delivered :=
  h.readers hgot.symm

theorem Delivered.take (h : p.Delivered) (hgot : (p.readers pid).holding = got) :
    (p.take pid call got popped x ring).Delivered := by
  intro w
  have hw := h w
  rw [Port.take]
  dsimp only
  rw [handedTo_snoc, ← hw]
  by_cases he : w = pid
  · subst he
    rw [update_self, if_pos rfl, hgot, List.append_assoc]
    rfl
  · rw [update_of_ne he, if_neg (Ne.symm he), List.append_nil]

theorem Delivered.finish (h : p.Delivered) (hgot : (p.readers pid).holding = got) :
    (p.finish pid got).Delivered := by
  intro w
  have hw := h w
  rw [Port.finish]
  dsimp only
  by_cases he : w = pid
  · subst he
    rw [update_self, update_self, List.flatten_append, ← hw, hgot]
    simp [Reader.holding]
  · rwa [update_of_ne he, update_of_ne he]

/-- A turn keeps what its loop body keeps. -/
theorem Delivered.turn (h : p.Delivered)
    {body : Port κ α n → Pid → κ → List α → Bool → Port κ α n}
    (hbody : ∀ call got popped, (p.readers pid).holding = got →
      (body p pid call got popped).Delivered) :
    (p.turn pid body).Delivered := by
  unfold Port.turn
  split
  next call got popped hr => exact hbody call got popped (by rw [hr]; rfl)
  next call got hr => exact hbody call got true (by rw [hr]; rfl)
  · exact h

end Port

end Aeryk.Drivers
