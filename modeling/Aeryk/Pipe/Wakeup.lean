import Aeryk.Lib.Sleepers
import Aeryk.Pipe.Stream

/-!
# No lost wake-up on a pipe

Each masked section wakes at most one process, so whether a parked process is still owed a wake-up
is a matter of counting.  The read end waits for buffered bytes or for the last writer to go, the
write end for free slots or for the last reader to go.  `side` shows one end as a `Lib.Sleepers`,
and the counting is done there.

It needs `QueueOk` from the code: a parked process sleeps in its own call and has not been
enqueued, and a popped process is held by one waker only, until that waker enqueues it.
-/

namespace Aeryk

open List Function Lib

inductive End where
  | read
  | write
deriving DecidableEq

/-! ## What one end sees -/

def Pipe.waiters {Q : Type} (p : Pipe Q) : End → Q
  | .read => p.readWaiters
  | .write => p.writeWaiters

/-- What an end can do without waiting: bytes to take, or slots to fill. -/
def Pipe.avail {Q : Type} (p : Pipe Q) : End → Nat
  | .read => p.count
  | .write => pipeBufSize - p.count

def Pipe.alone {Q : Type} (p : Pipe Q) : End → Prop
  | .read => p.writers = 0
  | .write => p.readers = 0

def Pc.asleepOn : Pc → Option End
  | .readSleep _ _ => some .read
  | .writeSleep _ _ _ => some .write
  | _ => none

/-- The popped waiter a process has yet to enqueue. -/
def Pc.holds : Pc → Option Pid
  | .readWake w _ _ => some w
  | .writeWake w _ _ _ => some w
  | .wakeWriters _ w => w
  | .wakeReaders _ w => w
  | _ => none

/-- A process in `pipe_close_end` that has yet to empty the queue of an end. -/
def Pc.willWake : Pc → End → Prop
  | .wakeWriters _ _, _ => True
  | .wakeReaders _ _, .read => True
  | _, _ => False

/-- A sleeper went to sleep inside its loop, so it still wants something. -/
def Pc.Wants : Pc → Prop
  | .readSleep got count => (got.length : Int) < count
  | .writeSleep _ n count => (n : Int) < count
  | _ => True

/-- Popped from the queue of `e` and not run since. -/
def Popped (s : PipeSys) (e : End) (q : Pid) : Prop :=
  (s.pc q).asleepOn = some e ∧ q ∉ s.pipe.waiters e

def side (e : End) (s : PipeSys) : Sleepers Pid where
  avail := s.pipe.avail e
  closed := s.pipe.alone e
  parked := s.pipe.waiters e
  woken := {q | Popped s e q}
  wakers := {q | (s.pc q).willWake e}

/-! ## The discipline of the wait queues -/

/-- Who is parked sleeps, who is popped is held by one waker until it is enqueued. -/
structure QueueOk (s : PipeSys) : Prop where
  nodup : ∀ e, (s.pipe.waiters e).Nodup
  asleep : ∀ e, ∀ q ∈ s.pipe.waiters e, (s.pc q).asleepOn = some e ∧ s.ready q = false
  held : ∀ me w, (s.pc me).holds = some w →
    (s.pc w).asleepOn ≠ none ∧ s.ready w = false ∧ ∀ e, w ∉ s.pipe.waiters e
  held_unique : ∀ m₁ m₂ w, (s.pc m₁).holds = some w → (s.pc m₂).holds = some w → m₁ = m₂
  owed : ∀ e q, Popped s e q → s.ready q = true ∨ ∃ m, (s.pc m).holds = some q
  wants : ∀ q, (s.pc q).Wants

/-- A process that can take a step: it is awake, or it has been enqueued. -/
def Awake (s : PipeSys) (me : Pid) : Prop := (s.pc me).asleepOn = none ∨ s.ready me = true

theorem queueOk_init : QueueOk PipeSys.init := by
  refine ⟨?_, ?_, ?_, ?_, ?_, ?_⟩
  · intro e; cases e <;> exact nodup_nil
  · intro e q hq; cases e <;> cases hq
  · intro me w h; cases h
  · intro m₁ m₂ w h; cases h
  · intro e q h; cases h.1
  · intro q; trivial

section Discipline

variable {s s' : PipeSys} {me w : Pid} {c : Pc} {e : End}

theorem QueueOk.not_parked (h : QueueOk s) (ha : Awake s me) (e : End) :
    me ∉ s.pipe.waiters e := by
  intro hm
  obtain ⟨h1, h2⟩ := h.asleep e me hm
  rcases ha with ha | ha
  · rw [ha] at h1; cases h1
  · rw [h2] at ha; cases ha

theorem QueueOk.not_held (h : QueueOk s) (ha : Awake s me) (m : Pid) :
    (s.pc m).holds ≠ some me := by
  intro hm
  obtain ⟨h1, h2, -⟩ := h.held m me hm
  rcases ha with ha | ha
  · exact h1 ha
  · rw [h2] at ha; cases ha

theorem pc_moved (hpc : s'.pc = update s.pc me c) :
    s'.pc me = c ∧ ∀ q, q ≠ me → s'.pc q = s.pc q :=
  ⟨by rw [hpc, update_self], fun q hne => by rw [hpc, update_of_ne hne]⟩

/-- An awake process goes on, and no queue changes. -/
theorem QueueOk.move (h : QueueOk s) (ha : Awake s me) (hn : (s.pc me).holds = none)
    (hpc : s'.pc = update s.pc me c) (hc : c.asleepOn = none) (hh : c.holds = none)
    (hwants : c.Wants) (hready : s'.ready = s.ready)
    (hq : ∀ e, s'.pipe.waiters e = s.pipe.waiters e) : QueueOk s' := by
  obtain ⟨hself, hother⟩ := pc_moved hpc
  have hparked := h.not_parked ha
  have hfree := h.not_held ha
  obtain ⟨hnodup, hasleep, hheld, hunique, howed, hall⟩ := h
  unfold Popped at howed
  -- of the others everything is as it was, and `me` is on no queue and in nobody's hands
  constructor
  case owed =>
    unfold Popped
    grind
  all_goals grind

/-- An awake process goes to sleep at the end of a queue. -/
theorem QueueOk.park (h : QueueOk s) (ha : Awake s me) (hn : (s.pc me).holds = none)
    (hpc : s'.pc = update s.pc me c) (hc : c.asleepOn = some e)
    (hh : c.holds = none) (hwants : c.Wants)
    (hready : s'.ready = update s.ready me false)
    (hq : s'.pipe.waiters e = s.pipe.waiters e ++ [me])
    (hq' : ∀ e', e' ≠ e → s'.pipe.waiters e' = s.pipe.waiters e') : QueueOk s' := by
  obtain ⟨hself, hother⟩ := pc_moved hpc
  have hslept : s'.ready me = false := by rw [hready, update_self]
  have hothers : ∀ q, q ≠ me → s'.ready q = s.ready q := fun q hne => by
    rw [hready, update_of_ne hne]
  have hmem : ∀ e' q, q ∈ s'.pipe.waiters e' ↔ q ∈ s.pipe.waiters e' ∨ q = me ∧ e' = e := by
    intro e' q
    by_cases heq : e' = e <;> simp [heq, hq, hq']
  have hparked := h.not_parked ha
  have hfree := h.not_held ha
  obtain ⟨hnodup, hasleep, hheld, hunique, howed, hall⟩ := h
  unfold Popped at howed
  constructor
  case nodup =>
    intro e'
    by_cases heq : e' = e
    · rw [heq, hq, ← concat_eq_append]
      exact (hnodup e).concat (hparked e)
    · rw [hq' e' heq]
      exact hnodup e'
  case owed =>
    unfold Popped
    grind
  all_goals grind

/-- An awake process pops the first sleeper of a queue and holds it. -/
theorem QueueOk.pop (h : QueueOk s) (ha : Awake s me) (hn : (s.pc me).holds = none)
    (hpc : s'.pc = update s.pc me c) (hc : c.asleepOn = none) (hh : c.holds = some w)
    (hwants : c.Wants) (hready : s'.ready = s.ready)
    (hq : s.pipe.waiters e = w :: s'.pipe.waiters e)
    (hq' : ∀ e', e' ≠ e → s'.pipe.waiters e' = s.pipe.waiters e') : QueueOk s' := by
  obtain ⟨hself, hother⟩ := pc_moved hpc
  have hw : w ∈ s.pipe.waiters e := by rw [hq]; exact mem_cons_self ..
  have hnd := h.nodup e
  rw [hq, nodup_cons] at hnd
  -- `w` sleeps on `e`, so it was on no other queue, and nobody held it
  have hmem : ∀ e' q, q ∈ s'.pipe.waiters e' ↔ q ∈ s.pipe.waiters e' ∧ q ≠ w := by
    intro e' q
    have hasleep := h.asleep
    by_cases heq : e' = e
    · grind
    · grind
  have hparked := h.not_parked ha
  have hfree := h.not_held ha
  obtain ⟨hnodup, hasleep, hheld, hunique, howed, hall⟩ := h
  unfold Popped at howed
  constructor
  case nodup =>
    intro e'
    by_cases heq : e' = e
    · rw [heq]
      exact hnd.2
    · rw [hq' e' heq]
      exact hnodup e'
  case owed =>
    unfold Popped
    grind
  all_goals grind

/-- A process enqueues the sleeper it holds and goes on. -/
theorem QueueOk.enqueue (h : QueueOk s) (hm : (s.pc me).holds = some w)
    (hawake : (s.pc me).asleepOn = none) (hpc : s'.pc = update s.pc me c)
    (hc : c.asleepOn = none) (hh : c.holds = none) (hwants : c.Wants)
    (hready : s'.ready = update s.ready w true)
    (hq : ∀ e, s'.pipe.waiters e = s.pipe.waiters e) : QueueOk s' := by
  obtain ⟨hself, hother⟩ := pc_moved hpc
  have hwoken : s'.ready w = true := by rw [hready, update_self]
  have hothers : ∀ q, q ≠ w → s'.ready q = s.ready q := fun q hne => by
    rw [hready, update_of_ne hne]
  have hparked := h.not_parked (.inl hawake)
  have hfree := h.not_held (.inl hawake)
  obtain ⟨hnodup, hasleep, hheld, hunique, howed, hall⟩ := h
  unfold Popped at howed
  -- `me` was the only one to hold `w`
  constructor
  case owed =>
    unfold Popped
    grind
  all_goals grind

end Discipline

/-- Only the queues, the program counters and the enqueued processes matter. -/
theorem QueueOk.of_waiters {s s' : PipeSys} (h : QueueOk s) (hpc : s'.pc = s.pc)
    (hready : s'.ready = s.ready) (hq : ∀ e, s'.pipe.waiters e = s.pipe.waiters e) :
    QueueOk s' := by
  refine ⟨fun e => ?_, fun e => ?_, ?_, ?_, fun e q => ?_, ?_⟩
  · rw [hq]; exact h.nodup e
  · rw [hq, hpc, hready]; exact h.asleep e
  · rw [hpc, hready]; simp only [hq]; exact h.held
  · rw [hpc]; exact h.held_unique
  · simp only [Popped, hpc, hready, hq]; exact h.owed e q
  · rw [hpc]; exact h.wants

theorem AtRead.awake {s : PipeSys} {me : Pid} {got : List Byte} {count : Int}
    (h : AtRead s me got count) : Awake s me := by
  rcases h with h | ⟨-, h⟩
  · exact .inl (by rw [h]; rfl)
  · exact .inr h

theorem AtWrite.awake {s : PipeSys} {me : Pid} {buf : Nat → Byte} {n : Nat} {count : Int}
    (h : AtWrite s me buf n count) : Awake s me := by
  rcases h with h | ⟨-, h⟩
  · exact .inl (by rw [h]; rfl)
  · exact .inr h

theorem AtRead.holds_none {s : PipeSys} {me : Pid} {got : List Byte} {count : Int}
    (h : AtRead s me got count) : (s.pc me).holds = none := by
  rcases h with h | ⟨h, -⟩ <;> rw [h] <;> rfl

theorem AtWrite.holds_none {s : PipeSys} {me : Pid} {buf : Nat → Byte} {n : Nat} {count : Int}
    (h : AtWrite s me buf n count) : (s.pc me).holds = none := by
  rcases h with h | ⟨h, -⟩ <;> rw [h] <;> rfl

theorem QueueOk.readLoop {s : PipeSys} {me : Pid} {got : List Byte} {count : Int}
    (h : QueueOk s) (ha : AtRead s me got count) : QueueOk (readLoop s me got count) := by
  unfold Aeryk.readLoop
  split
  next hlt =>
    split
    next =>
      unfold Aeryk.readTake
      split
      next hw =>
        exact h.move ha.awake ha.holds_none rfl rfl rfl trivial rfl fun e => by cases e <;> rfl
      next w ws hw =>
        exact h.pop (e := .write) ha.awake ha.holds_none rfl rfl rfl trivial rfl hw fun e he => by
          cases e
          · rfl
          · exact absurd rfl he
    next =>
      split
      next => exact h.move ha.awake ha.holds_none rfl rfl rfl trivial rfl fun _ => rfl
      next =>
        exact h.park (e := .read) ha.awake ha.holds_none rfl rfl rfl hlt rfl rfl fun e he => by
          cases e
          · exact absurd rfl he
          · rfl
  next => exact h.move ha.awake ha.holds_none rfl rfl rfl trivial rfl fun _ => rfl

theorem QueueOk.writeLoop {s : PipeSys} {me : Pid} {buf : Nat → Byte} {n : Nat} {count : Int}
    (h : QueueOk s) (ha : AtWrite s me buf n count) : QueueOk (writeLoop s me buf n count) := by
  unfold Aeryk.writeLoop
  split
  next hlt =>
    split
    next => exact h.move ha.awake ha.holds_none rfl rfl rfl trivial rfl fun _ => rfl
    next =>
      split
      next =>
        unfold Aeryk.writePut
        split
        next hw =>
          exact h.move ha.awake ha.holds_none rfl rfl rfl trivial rfl fun e => by cases e <;> rfl
        next w ws hw =>
          exact h.pop (e := .read) ha.awake ha.holds_none rfl rfl rfl trivial rfl hw fun e he => by
            cases e
            · exact absurd rfl he
            · rfl
      next =>
        exact h.park (e := .write) ha.awake ha.holds_none rfl rfl rfl hlt rfl rfl fun e he => by
          cases e
          · rfl
          · exact absurd rfl he
  next => exact h.move ha.awake ha.holds_none rfl rfl rfl trivial rfl fun _ => rfl

theorem QueueOk.step {s s' : PipeSys} (st : PipeStep s s') (h : QueueOk s) : QueueOk s' := by
  cases st with
  | callRead _ hpc | callWrite _ _ hpc =>
    exact h.move (.inl (by rw [hpc]; rfl)) (by rw [hpc]; rfl) rfl rfl rfl trivial rfl
      fun _ => rfl
  | callClose isReadEnd hpc =>
    refine h.move (.inl (by rw [hpc]; rfl)) (by rw [hpc]; rfl) rfl rfl rfl trivial rfl
      fun e => ?_
    cases isReadEnd <;> cases e <;> rfl
  | dupRead | dupWrite =>
    exact h.of_waiters rfl rfl fun e => by cases e <;> rfl
  | read ha => exact h.readLoop ha
  | write ha => exact h.writeLoop ha
  | readEnqueue hpc | writeEnqueue hpc | enqueueWriter hpc | enqueueReader hpc =>
    exact h.enqueue (by rw [hpc]; rfl) (by rw [hpc]; rfl) rfl rfl rfl trivial rfl fun _ => rfl
  | popWriter hpc =>
    unfold Aeryk.popWriter
    split
    next =>
      exact h.move (.inl (by rw [hpc]; rfl)) (by rw [hpc]; rfl) rfl rfl rfl trivial rfl
        fun _ => rfl
    next w ws hw =>
      exact h.pop (e := .write) (.inl (by rw [hpc]; rfl)) (by rw [hpc]; rfl) rfl rfl rfl
        trivial rfl hw fun e he => by
          cases e
          · rfl
          · exact absurd rfl he
  | popReader hpc =>
    unfold Aeryk.popReader
    split
    next =>
      exact h.move (.inl (by rw [hpc]; rfl)) (by rw [hpc]; rfl) rfl rfl rfl trivial rfl
        fun _ => rfl
    next w ws hw =>
      exact h.pop (e := .read) (.inl (by rw [hpc]; rfl)) (by rw [hpc]; rfl) rfl rfl rfl
        trivial rfl hw fun e he => by
          cases e
          · exact absurd rfl he
          · rfl

/-! ## The counting -/

section Counting

variable {s s' : PipeSys} {me w : Pid} {c : Pc} {e : End}

/-- The others will wake whom they would. -/
theorem willWake_moved (hpc : s'.pc = update s.pc me c)
    (hk : (s.pc me).willWake e → c.willWake e) (q : Pid) (hw : (s.pc q).willWake e) :
    (s'.pc q).willWake e := by
  rw [hpc]
  by_cases hne : q = me
  · subst hne
    rw [update_self]
    exact hk hw
  · rwa [update_of_ne hne]

/-- A step of a process that was not popped from the queue of `e`, and that gains this
end nothing, keeps it covered. -/
theorem side_move (h : (side e s).Covered) (hpc : s'.pc = update s.pc me c)
    (hq : s'.pipe.waiters e = s.pipe.waiters e) (ha : s'.pipe.avail e ≤ s.pipe.avail e)
    (hc : s'.pipe.alone e ↔ s.pipe.alone e) (hme : (s.pc me).asleepOn ≠ some e)
    (hk : (s.pc me).willWake e → c.willWake e) : (side e s').Covered := by
  refine h.mono (fun hne => by rwa [side, hq] at hne) ha hc ?_ (willWake_moved hpc hk)
  rintro q ⟨h1, h2⟩
  have hne : q ≠ me := fun heq => hme (heq ▸ h1)
  refine ⟨?_, by rwa [hq]⟩
  rwa [hpc, update_of_ne hne]

/-- A process takes one unit of `e`, which it may have been woken for. -/
theorem side_take (h : (side e s).Covered) (hpc : s'.pc = update s.pc me c)
    (hq : s'.pipe.waiters e = s.pipe.waiters e) (ha : s'.pipe.avail e ≤ s.pipe.avail e - 1)
    (hc : s'.pipe.alone e ↔ s.pipe.alone e) (hk : ¬ (s.pc me).willWake e) :
    (side e s').Covered := by
  refine h.take me (fun hne => by rwa [side, hq] at hne) ha hc ?_
    (willWake_moved hpc fun hw => absurd hw hk)
  rintro q ⟨⟨h1, h2⟩, hne⟩
  refine ⟨?_, by rwa [hq]⟩
  rwa [hpc, update_of_ne hne]

/-- A process pops the first sleeper of `e`, and gains this end at most one unit. -/
theorem side_pop (h : (side e s).Covered) (hok : QueueOk s) (hawake : Awake s me)
    (hpc : s'.pc = update s.pc me c)
    (hq : s.pipe.waiters e = w :: s'.pipe.waiters e) (ha : s'.pipe.avail e ≤ s.pipe.avail e + 1)
    (hc : s'.pipe.alone e ↔ s.pipe.alone e) (hme : (s.pc me).asleepOn ≠ some e)
    (hk : (s.pc me).willWake e → c.willWake e) : (side e s').Covered := by
  have hw : w ∈ s.pipe.waiters e := by rw [hq]; exact mem_cons_self ..
  have hwne : w ≠ me := fun heq => hok.not_parked hawake e (heq ▸ hw)
  have hnd := hok.nodup e
  rw [hq] at hnd
  refine h.pop (w := w) hq (fun hx => hx.2 hw) ha hc ?_ (willWake_moved hpc hk)
  rintro q (rfl | ⟨h1, h2⟩)
  · refine ⟨?_, (nodup_cons.mp hnd).1⟩
    rw [hpc, update_of_ne hwne]
    exact (hok.asleep e q hw).1
  · have hne : q ≠ me := fun heq => hme (heq ▸ h1)
    refine ⟨?_, fun hx => h2 (by rw [hq]; exact mem_cons_of_mem _ hx)⟩
    rwa [hpc, update_of_ne hne]

/-- On a closed end a process may leave whatever it was woken for. -/
theorem side_leave (h : (side e s).Covered) (hpc : s'.pc = update s.pc me c)
    (hq : s'.pipe.waiters e = s.pipe.waiters e) (hc : s.pipe.alone e) (hc' : s'.pipe.alone e)
    (hk : ¬ (s.pc me).willWake e) : (side e s').Covered := by
  exact h.closed_mono hc hc' (fun hne => by rwa [side, hq] at hne)
    (willWake_moved hpc fun hw => absurd hw hk)

end Counting

section Loops

variable {s : PipeSys} {me : Pid} {got : List Byte} {buf : Nat → Byte} {n : Nat} {count : Int}

theorem AtRead.not_willWake (h : AtRead s me got count) (e : End) : ¬ (s.pc me).willWake e := by
  rcases h with h | ⟨h, -⟩ <;> rw [h] <;> exact id

theorem AtRead.not_asleepOn_write (h : AtRead s me got count) :
    (s.pc me).asleepOn ≠ some .write := by
  rcases h with h | ⟨h, -⟩ <;> rw [h] <;> simp [Pc.asleepOn]

/-- A reader that leaves its loop was not asleep: who sleeps still wants bytes. -/
theorem AtRead.not_asleep (h : AtRead s me got count) (hok : QueueOk s)
    (hn : ¬ (got.length : Int) < count) (e : End) : (s.pc me).asleepOn ≠ some e := by
  rcases h with h | ⟨h, -⟩
  · rw [h]; simp [Pc.asleepOn]
  · have hw := hok.wants me
    rw [h] at hw
    exact absurd hw hn

theorem AtWrite.not_willWake (h : AtWrite s me buf n count) (e : End) :
    ¬ (s.pc me).willWake e := by
  rcases h with h | ⟨h, -⟩ <;> rw [h] <;> exact id

theorem AtWrite.not_asleepOn_read (h : AtWrite s me buf n count) :
    (s.pc me).asleepOn ≠ some .read := by
  rcases h with h | ⟨h, -⟩ <;> rw [h] <;> simp [Pc.asleepOn]

/-- A writer that leaves its loop was not asleep: who sleeps still has bytes to write. -/
theorem AtWrite.not_asleep (h : AtWrite s me buf n count) (hok : QueueOk s)
    (hn : ¬ (n : Int) < count) (e : End) : (s.pc me).asleepOn ≠ some e := by
  rcases h with h | ⟨h, -⟩
  · rw [h]; simp [Pc.asleepOn]
  · have hw := hok.wants me
    rw [h] at hw
    exact absurd hw hn

/-- Taking a byte uses up one unit of the read end and may wake one writer. -/
theorem covered_readTake (ha : AtRead s me got count) (hok : QueueOk s)
    (h : ∀ e, (side e s).Covered) (hc : 0 < s.pipe.count) (e : End) :
    (side e (readTake s me got count)).Covered := by
  have hgain : pipeBufSize - (s.pipe.count - 1) ≤ pipeBufSize - s.pipe.count + 1 := by omega
  unfold readTake
  cases e with
  | read =>
    split
    · exact side_take (h .read) rfl rfl le_rfl Iff.rfl (ha.not_willWake _)
    · exact side_take (h .read) rfl rfl le_rfl Iff.rfl (ha.not_willWake _)
  | write =>
    split
    next hw => exact Sleepers.covered_of_nil hw
    next w ws hw =>
      exact side_pop (h .write) hok ha.awake rfl hw hgain Iff.rfl ha.not_asleepOn_write
        fun hx => absurd hx (ha.not_willWake _)

/-- Putting a byte uses up one unit of the write end and may wake one reader. -/
theorem covered_writePut (ha : AtWrite s me buf n count) (hok : QueueOk s)
    (h : ∀ e, (side e s).Covered) (e : End) : (side e (writePut s me buf n count)).Covered := by
  have hloss : pipeBufSize - (s.pipe.count + 1) ≤ pipeBufSize - s.pipe.count - 1 := by omega
  unfold writePut
  cases e with
  | read =>
    split
    next hw => exact Sleepers.covered_of_nil hw
    next w ws hw =>
      exact side_pop (h .read) hok ha.awake rfl hw le_rfl Iff.rfl ha.not_asleepOn_read
        fun hx => absurd hx (ha.not_willWake _)
  | write =>
    split
    · exact side_take (h .write) rfl rfl hloss Iff.rfl (ha.not_willWake _)
    · exact side_take (h .write) rfl rfl hloss Iff.rfl (ha.not_willWake _)

theorem covered_readLoop (ha : AtRead s me got count) (hok : QueueOk s)
    (h : ∀ e, (side e s).Covered) (e : End) : (side e (readLoop s me got count)).Covered := by
  unfold readLoop
  split
  next =>
    split
    next hc => exact covered_readTake ha hok h hc e
    next hc =>
      split
      next hw =>
        -- EOF: the read end is closed, the write end does not notice
        cases e with
        | read => exact side_leave (h .read) rfl rfl hw hw (ha.not_willWake _)
        | write =>
          exact side_move (h .write) rfl rfl le_rfl Iff.rfl ha.not_asleepOn_write
            fun hx => absurd hx (ha.not_willWake _)
      next hw =>
        cases e with
        | read => exact Sleepers.covered_of_waiting (Nat.eq_zero_of_not_pos hc) hw
        | write =>
          exact side_move (h .write) rfl rfl le_rfl Iff.rfl ha.not_asleepOn_write
            fun hx => absurd hx (ha.not_willWake _)
  next hn =>
    exact side_move (h e) rfl rfl le_rfl Iff.rfl (ha.not_asleep hok hn e)
      fun hx => absurd hx (ha.not_willWake _)

theorem covered_writeLoop (ha : AtWrite s me buf n count) (hok : QueueOk s)
    (h : ∀ e, (side e s).Covered) (e : End) : (side e (writeLoop s me buf n count)).Covered := by
  unfold writeLoop
  split
  next =>
    split
    next hr =>
      -- broken pipe: the write end is closed, the read end does not notice
      cases e with
      | read =>
        exact side_move (h .read) rfl rfl le_rfl Iff.rfl ha.not_asleepOn_read
          fun hx => absurd hx (ha.not_willWake _)
      | write => exact side_leave (h .write) rfl rfl hr hr (ha.not_willWake _)
    next hr =>
      split
      next => exact covered_writePut ha hok h e
      next hc =>
        cases e with
        | read =>
          exact side_move (h .read) rfl rfl le_rfl Iff.rfl ha.not_asleepOn_read
            fun hx => absurd hx (ha.not_willWake _)
        | write => exact Sleepers.covered_of_waiting (Nat.sub_eq_zero_of_le (not_lt.mp hc)) hr
  next hn =>
    exact side_move (h e) rfl rfl le_rfl Iff.rfl (ha.not_asleep hok hn e)
      fun hx => absurd hx (ha.not_willWake _)

end Loops

/-! ## Closing an end -/

theorem closeEnd_waiters (p : Pipe (List Pid)) (isReadEnd : Bool) (e : End) :
    (closeEnd p isReadEnd).waiters e = p.waiters e := by
  cases isReadEnd <;> cases e <;> rfl

theorem closeEnd_avail (p : Pipe (List Pid)) (isReadEnd : Bool) (e : End) :
    (closeEnd p isReadEnd).avail e = p.avail e := by
  cases isReadEnd <;> cases e <;> rfl

/-- An end that was alone before a close is alone after it. -/
theorem Pipe.alone.closeEnd {p : Pipe (List Pid)} {e : End} (h : p.alone e) (isReadEnd : Bool) :
    (Aeryk.closeEnd p isReadEnd).alone e := by
  cases isReadEnd <;> cases e <;> simp_all [Aeryk.closeEnd, Pipe.alone]

/-- The closer promises to empty both queues, so an end it leaves alone is covered. -/
theorem covered_closeSection {s : PipeSys} {me : Pid} {ret : Int} (hpc : s.pc me = .out ret)
    (h : ∀ e, (side e s).Covered) (isReadEnd : Bool) (e : End) :
    (side e (closeSection s me isReadEnd)).Covered := by
  by_cases hc : (closeEnd s.pipe isReadEnd).alone e
  · refine Sleepers.covered_of_waker hc ⟨me, ?_⟩
    simp [side, closeSection, Pc.willWake]
  · refine side_move (h e) rfl (closeEnd_waiters _ _ _) (closeEnd_avail _ _ _).le ?_
      (by rw [hpc]; simp [Pc.asleepOn]) (by rw [hpc]; exact False.elim)
    exact ⟨fun hx => absurd hx hc, fun hx => absurd (hx.closeEnd isReadEnd) hc⟩

/-- One `wait_queue_pop` on the write queue.  The empty queue needs no waker. -/
theorem covered_popWriter {s : PipeSys} {me : Pid} {free : Bool}
    (hpc : s.pc me = .wakeWriters free none) (hok : QueueOk s) (h : ∀ e, (side e s).Covered)
    (e : End) : (side e (popWriter s me free)).Covered := by
  have hawake : Awake s me := .inl (by rw [hpc]; rfl)
  have hnot : ∀ e, (s.pc me).asleepOn ≠ some e := fun e => by rw [hpc]; simp [Pc.asleepOn]
  unfold popWriter
  cases e with
  | read =>
    split <;>
      exact side_move (h .read) rfl rfl le_rfl Iff.rfl (hnot _) fun _ => trivial
  | write =>
    split
    next hw => exact Sleepers.covered_of_nil hw
    next w ws hw =>
      exact side_pop (h .write) hok hawake rfl hw (Nat.le_succ _) Iff.rfl (hnot _)
        fun _ => trivial

/-- One `wait_queue_pop` on the read queue.  The empty queue needs no waker. -/
theorem covered_popReader {s : PipeSys} {me : Pid} {free : Bool}
    (hpc : s.pc me = .wakeReaders free none) (hok : QueueOk s) (h : ∀ e, (side e s).Covered)
    (e : End) : (side e (popReader s me free)).Covered := by
  have hawake : Awake s me := .inl (by rw [hpc]; rfl)
  have hnot : ∀ e, (s.pc me).asleepOn ≠ some e := fun e => by rw [hpc]; simp [Pc.asleepOn]
  have hwrite : ¬ (s.pc me).willWake .write := by rw [hpc]; exact id
  unfold popReader
  cases e with
  | read =>
    split
    next hw => exact Sleepers.covered_of_nil hw
    next w ws hw =>
      exact side_pop (h .read) hok hawake rfl hw (Nat.le_succ _) Iff.rfl (hnot _)
        fun _ => trivial
  | write =>
    split <;>
      exact side_move (h .write) rfl rfl le_rfl Iff.rfl (hnot _) fun hx => absurd hx hwrite

/-! ## Every run -/

theorem covered_step {s s' : PipeSys} (st : PipeStep s s') (hok : QueueOk s)
    (h : ∀ e, (side e s).Covered) (e : End) : (side e s').Covered := by
  cases st with
  | callRead _ hpc | callWrite _ _ hpc =>
    exact side_move (h e) rfl rfl le_rfl Iff.rfl (by rw [hpc]; simp [Pc.asleepOn])
      (by rw [hpc]; exact False.elim)
  | callClose isReadEnd hpc => exact covered_closeSection hpc h isReadEnd e
  | dupRead hr =>
    cases e with
    | read => exact (h .read).mono id le_rfl Iff.rfl subset_rfl subset_rfl
    | write =>
      refine (h .write).mono id le_rfl ?_ subset_rfl subset_rfl
      simp only [side, Pipe.alone]
      omega
  | dupWrite hw =>
    cases e with
    | read =>
      refine (h .read).mono id le_rfl ?_ subset_rfl subset_rfl
      simp only [side, Pipe.alone]
      omega
    | write => exact (h .write).mono id le_rfl Iff.rfl subset_rfl subset_rfl
  | read ha => exact covered_readLoop ha hok h e
  | write ha => exact covered_writeLoop ha hok h e
  | readEnqueue hpc | writeEnqueue hpc =>
    exact side_move (h e) rfl rfl le_rfl Iff.rfl (by rw [hpc]; simp [Pc.asleepOn])
      (by rw [hpc]; exact False.elim)
  | enqueueWriter hpc | enqueueReader hpc =>
    refine side_move (h e) rfl rfl le_rfl Iff.rfl (by rw [hpc]; simp [Pc.asleepOn]) ?_
    rw [hpc]
    cases e <;> exact id
  | popWriter hpc => exact covered_popWriter hpc hok h e
  | popReader hpc => exact covered_popReader hpc hok h e

/-- The wake-up an end still has coming: a process popped from its queue that has yet to run, one
that its waker has yet to enqueue, or a closer that has not ended its `wake_all`. -/
def WakePending (s : PipeSys) (e : End) : Prop :=
  (∃ q, Popped s e q ∧ s.ready q = true) ∨
    (∃ q m, Popped s e q ∧ (s.pc m).holds = some q) ∨ ∃ m, (s.pc m).willWake e

theorem PipeReachable.queueOk_covered {s : PipeSys} (h : PipeReachable s) :
    QueueOk s ∧ ∀ e, (side e s).Covered := by
  refine h.invariant (I := fun s => QueueOk s ∧ ∀ e, (side e s).Covered) ?_ ?_
  · exact ⟨queueOk_init, fun e => Sleepers.covered_of_nil (by cases e <;> rfl)⟩
  · exact fun _ _ st hs => ⟨hs.1.step st, covered_step st hs.1 hs.2⟩

/-- No wake-up is lost.  Whoever is parked on an end with something to do, or nothing to wait for,
has a wake-up coming. -/
theorem wakePending_of_reachable {s : PipeSys} (h : PipeReachable s) {e : End} {p : Pid}
    (hp : p ∈ s.pipe.waiters e) (hg : 0 < s.pipe.avail e ∨ s.pipe.alone e) :
    WakePending s e := by
  obtain ⟨hok, hcovered⟩ := h.queueOk_covered
  rcases (hcovered e).pending (ne_nil_of_mem hp) hg with ⟨q, hq⟩ | ⟨m, hm⟩
  · rcases hok.owed e q hq with hr | ⟨m, hm⟩
    · exact .inl ⟨q, hq, hr⟩
    · exact .inr (.inl ⟨q, m, hq, hm⟩)
  · exact .inr (.inr ⟨m, hm⟩)

end Aeryk
