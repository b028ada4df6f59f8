import Aeryk.Lib.Linked
import Aeryk.Lib.Resume
import Aeryk.Pipe.Wakeup

/-!
# The wait queues of a pipe in memory

`wake_all` of `pipe_close_end` runs after the `sti`, and its `wait_queue_pop` is several loads and
stores: another process may run between two of them.  Here the queues are what the memory holds, a
head and a tail each and the `wait_next` links of the processes, and such a `wait_queue_pop` is a
call in parts.  The masked sections of `pipe_read` and `pipe_write` are one part each.

If nothing comes between the parts, the memory spells out the queues of `PipeSys`, and no wake-up is
lost.  Otherwise one can be.
-/

namespace Aeryk

open List Function Lib

/-! ## The queues -/

/-- The queues of the two ends and the `wait_next` of each process.  The `wait_prev` links are
written by the queues' operations, but never read. -/
structure Waits where
  head : End → Option Pid
  tail : End → Option Pid
  next : Pid → Option Pid

namespace Waits

/-- `wait_queue_push`. -/
def push (w : Waits) (e : End) (p : Pid) : Waits :=
  let next := update w.next p none
  match w.tail e with
  | some t => { w with tail := update w.tail e (some p), next := update next t (some p) }
  | none => ⟨update w.head e (some p), update w.tail e (some p), next⟩

/-- `wq->head = proc->wait_next`. -/
def popHead (w : Waits) (e : End) (p : Pid) : Waits := { w with head := update w.head e (w.next p) }

/-- `wq->tail = NULL`, if there is no head. -/
def popTail (w : Waits) (e : End) : Waits :=
  if w.head e = none then { w with tail := update w.tail e none } else w

/-- `proc->wait_next = NULL`. -/
def popLink (w : Waits) (p : Pid) : Waits := { w with next := update w.next p none }

/-- `wait_queue_pop`. -/
def pop (w : Waits) (e : End) : Waits :=
  match w.head e with
  | none => w
  | some p => ((w.popHead e p).popTail e).popLink p

/-- The memory spells out the queues. -/
structure Stands (w : Waits) (Q : End → List Pid) : Prop where
  queues : Queues w.next w.head (fun _ => True) Q
  tail : ∀ e, w.tail e = (Q e).getLast?

variable {w : Waits} {Q : End → List Pid} {e : End} {p : Pid} {l : List Pid}

theorem Stands.head (h : w.Stands Q) (e : End) : w.head e = (Q e).head? :=
  (h.queues.chain e trivial).head_eq

/-- Who is on no queue joins one at its end. -/
theorem Stands.push (h : w.Stands Q) (hp : ∀ e, p ∉ Q e) :
    (w.push e p).Stands (update Q e (Q e ++ [p])) := by
  have hhead := h.head e
  have htail := h.tail e
  have hsplit : ∀ t, w.tail e = some t → t ≠ p := fun t ht heq =>
    hp e (heq ▸ mem_of_getLast? (htail.symm.trans ht))
  refine ⟨h.queues.snoc trivial hp (fun q => ?_) ?_ fun e' hne => ?_, fun e' => ?_⟩ <;>
    unfold Waits.push
  · rw [← htail]
    cases ht : w.tail e with
    | none => simp [update_apply]
    | some t =>
      have hne := hsplit t ht
      simp only [update_apply, Option.some.injEq]
      grind
  · cases hq : Q e with
    | nil =>
      rw [hq] at hhead htail
      rw [hhead, htail]
      exact update_self ..
    | cons a l =>
      rw [hq, getLast?_cons] at htail
      rw [hq] at hhead
      rw [htail, hhead]
      rfl
  · split
    · rfl
    · exact update_of_ne hne ..
  · have hother := h.tail e'
    split <;> by_cases hne : e' = e <;> simp_all

/-- The first of a queue leaves it. -/
theorem Stands.pop (h : w.Stands Q) (e : End) : (w.pop e).Stands (update Q e (Q e).tail) := by
  have hhead := h.head e
  cases hq : Q e with
  | nil =>
    rw [hq] at hhead
    have hpop : w.pop e = w := by
      rw [Waits.pop, hhead]
      rfl
    rw [hpop, tail_nil, ← hq, update_eq_self]
    exact h
  | cons p l =>
    have hchain := h.queues.chain e trivial
    rw [hq] at hhead hchain
    have hrest := hchain.2.head_eq
    have hpop : w.pop e = ((w.popHead e p).popTail e).popLink p := by
      rw [Waits.pop, hhead]
      rfl
    have hpart : ((w.popHead e p).popTail e).head = update w.head e (w.next p) ∧
        ((w.popHead e p).popTail e).next = w.next := by
      unfold Waits.popTail
      split <;> exact ⟨rfl, rfl⟩
    rw [hpop]
    refine ⟨h.queues.pop trivial hq (fun q hne => ?_) ?_ fun e' hne => ?_, fun e' => ?_⟩
    · exact (update_of_ne hne ..).trans (congrFun hpart.2 q)
    · exact (congrFun hpart.1 e).trans (update_self ..)
    · exact (congrFun hpart.1 e').trans (update_of_ne hne ..)
    · have htail := h.tail e'
      simp only [Waits.popLink, Waits.popTail, Waits.popHead, update_self, hrest]
      by_cases hne : e' = e
      · subst hne
        rw [hq] at htail
        cases l <;> simp [htail]
      · cases l <;> simp [htail, hne]

end Waits

/-! ## The pipe calls -/

/-- A pipe with its queues in memory, and its callers. -/
structure PipeMem where
  pipe : Pipe Unit
  waits : Waits
  pc : Pid → Pc
  ready : Pid → Bool

namespace PipeMem

/-- The pipe as `pipe_create` leaves it, with nobody in a call. -/
def init : PipeMem where
  pipe := pipeCreate ()
  waits := ⟨fun _ => none, fun _ => none, fun _ => none⟩
  pc := fun _ => .out 0
  ready := fun _ => false

def goto (t : PipeMem) (me : Pid) (c : Pc) : PipeMem := { t with pc := update t.pc me c }

/-- `mlfq_enqueue` of a popped waiter. -/
def enqueue (t : PipeMem) (w : Pid) : PipeMem := { t with ready := update t.ready w true }

/-- Link `me` on the queue of an end and go to sleep. -/
def park (t : PipeMem) (me : Pid) (e : End) (c : Pc) : PipeMem :=
  { t with waits := t.waits.push e me, ready := update t.ready me false }.goto me c

/-- One turn of the loop of `pipe_read`. -/
def readLoop (t : PipeMem) (me : Pid) (got : List Byte) (count : Int) : PipeMem :=
  if (got.length : Int) < count then
    if 0 < t.pipe.count then
      let got := got ++ [t.pipe.front]
      { t with pipe := t.pipe.takeByte, waits := t.waits.pop .write }.goto me
        (match t.waits.head .write with
          | none => .reading got count
          | some w => .readWake w got count)
    else if t.pipe.writers = 0 then
      t.goto me (.out got.length)
    else
      t.park me .read (.readSleep got count)
  else
    t.goto me (.out got.length)

/-- One turn of the loop of `pipe_write`. -/
def writeLoop (t : PipeMem) (me : Pid) (buf : Nat → Byte) (n : Nat) (count : Int) : PipeMem :=
  if (n : Int) < count then
    if t.pipe.readers = 0 then
      t.goto me (.out (if 0 < n then n else -1))
    else if t.pipe.count < pipeBufSize then
      { t with pipe := t.pipe.putByte (buf n), waits := t.waits.pop .read }.goto me
        (match t.waits.head .read with
          | none => .writing buf (n + 1) count
          | some w => .writeWake w buf (n + 1) count)
    else
      t.park me .write (.writeSleep buf n count)
  else
    t.goto me (.out n)

/-- A part that ends a call. -/
def last (f : PipeMem → PipeMem) : Resume PipeMem := .part f fun _ => .done

/-- A `wait_queue_pop` of `wake_all`, load by load and store by store.  `me` goes on as `after` says
for what it returns. -/
def popParts (me : Pid) (e : End) (after : Option Pid → Pc) : Resume PipeMem :=
  .part id fun t =>
    match t.waits.head e with
    | none => last (·.goto me (after none))
    | some p =>
      .part (fun t => { t with waits := t.waits.popHead e p }) fun _ =>
        .part (fun t => { t with waits := t.waits.popTail e }) fun _ =>
          last fun t => { t with waits := t.waits.popLink p }.goto me (after (some p))

/-- After a `wait_queue_pop` of `wake_all(&p->write_waiters)`. -/
def afterWriter (free : Bool) : Option Pid → Pc
  | none => .wakeReaders free none
  | some w => .wakeWriters free (some w)

/-- After a `wait_queue_pop` of `wake_all(&p->read_waiters)`. -/
def afterReader (free : Bool) : Option Pid → Pc
  | none => .out 0
  | some w => .wakeReaders free (some w)

/-- What `me` does next in its call. -/
def turn (t : PipeMem) (me : Pid) : Resume PipeMem :=
  match t.pc me with
  | .out _ => .done
  | .reading got count | .readSleep got count => last (·.readLoop me got count)
  | .writing buf n count | .writeSleep buf n count => last (·.writeLoop me buf n count)
  | .readWake w got count => last fun t => (t.goto me (.reading got count)).enqueue w
  | .writeWake w buf n count => last fun t => (t.goto me (.writing buf n count)).enqueue w
  | .wakeWriters free none => popParts me .write (afterWriter free)
  | .wakeWriters free (some w) => last fun t => (t.goto me (.wakeWriters free none)).enqueue w
  | .wakeReaders free none => popParts me .read (afterReader free)
  | .wakeReaders free (some w) => last fun t => (t.goto me (.wakeReaders free none)).enqueue w

end PipeMem

def Pc.isOut : Pc → Bool
  | .out _ => true
  | _ => false

/-- What a process can do with the pipe. -/
inductive PipeMove where
  | callRead (count : Int)
  | callWrite (buf : Nat → Byte) (count : Int)
  | callClose (isReadEnd : Bool)
  /-- `fork`, `dup` or `dup2` of an open end. -/
  | dup (isReadEnd : Bool)
  /-- It goes on with its call. -/
  | turn

namespace PipeMem

def program (t : PipeMem) : Pid × PipeMove → Resume PipeMem
  | (me, .callRead count) => last (·.goto me (.reading [] count))
  | (me, .callWrite buf count) => last (·.goto me (.writing buf 0 count))
  | (me, .callClose isReadEnd) => last fun t =>
    { t with pipe := closeEnd t.pipe isReadEnd }.goto me
      (.wakeWriters (shouldFree (closeEnd t.pipe isReadEnd)) none)
  | (_, .dup true) => last fun t =>
    { t with pipe := { t.pipe with readers := t.pipe.readers + 1 } }
  | (_, .dup false) => last fun t =>
    { t with pipe := { t.pipe with writers := t.pipe.writers + 1 } }
  | (me, .turn) => t.turn me

/-- A whole move. -/
def step (t : PipeMem) (m : Pid × PipeMove) : PipeMem := (t.program m).run t

/-- A call begins outside of any other, a process goes on unless it is asleep and not enqueued, and
only an open end is copied. -/
def MayMove (t : PipeMem) : Pid × PipeMove → Prop
  | (me, .turn) => (t.pc me).asleepOn = none ∨ t.ready me = true
  | (_, .dup isReadEnd) => 0 < if isReadEnd then t.pipe.readers else t.pipe.writers
  | (me, _) => (t.pc me).isOut = true

instance (t : PipeMem) : (m : Pid × PipeMove) → Decidable (t.MayMove m)
  | (_, .turn) => inferInstanceAs (Decidable (_ ∨ _))
  | (_, .dup _) => inferInstanceAs (Decidable (_ < _))
  | (_, .callRead _) | (_, .callWrite ..) | (_, .callClose _) =>
    inferInstanceAs (Decidable (_ = true))

/-! ## Whole moves -/

/-- The state of the calls, with the queues in memory. -/
def ofSys (s : PipeSys) (w : Waits) : PipeMem where
  pipe := { s.pipe with readWaiters := (), writeWaiters := () }
  waits := w
  pc := s.pc
  ready := s.ready

variable {t : PipeMem} {s : PipeSys} {w : Waits} {me : Pid}

theorem waiters_write (p : Pipe (List Pid)) (ws : List Pid) :
    { p with writeWaiters := ws }.waiters = update p.waiters .write ws := by
  funext e
  cases e <;> simp [Pipe.waiters]

theorem waiters_read (p : Pipe (List Pid)) (ws : List Pid) :
    { p with readWaiters := ws }.waiters = update p.waiters .read ws := by
  funext e
  cases e <;> simp [Pipe.waiters]

theorem readTake_eq (s : PipeSys) (me : Pid) (got : List Byte) (count : Int) :
    readTake s me got count =
      { s with
        pipe := { s.pipe.takeByte with writeWaiters := s.pipe.writeWaiters.tail }
        taken := s.taken ++ [s.pipe.front] }.goto me
        (match s.pipe.writeWaiters.head? with
          | none => .reading (got ++ [s.pipe.front]) count
          | some w => .readWake w (got ++ [s.pipe.front]) count) := by
  obtain ⟨⟨_, _, _, _, _, _, _, ws⟩, _⟩ := s
  cases ws <;> rfl

theorem writePut_eq (s : PipeSys) (me : Pid) (buf : Nat → Byte) (n : Nat) (count : Int) :
    writePut s me buf n count =
      { s with
        pipe := { s.pipe.putByte (buf n) with readWaiters := s.pipe.readWaiters.tail }
        put := s.put ++ [buf n] }.goto me
        (match s.pipe.readWaiters.head? with
          | none => .writing buf (n + 1) count
          | some w => .writeWake w buf (n + 1) count) := by
  obtain ⟨⟨_, _, _, _, _, _, ws, _⟩, _⟩ := s
  cases ws <;> rfl

/-- The memory follows a turn of `pipe_read`. -/
theorem ofSys_readLoop (hw : w.Stands s.pipe.waiters) (hme : ∀ e, me ∉ s.pipe.waiters e)
    (got : List Byte) (count : Int) :
    ∃ w', w'.Stands (Aeryk.readLoop s me got count).pipe.waiters ∧
      (ofSys s w).readLoop me got count = ofSys (Aeryk.readLoop s me got count) w' := by
  unfold Aeryk.readLoop readLoop
  split
  next =>
    split
    next hcount =>
      have hcount' : 0 < (ofSys s w).pipe.count := hcount
      have hhead : w.head .write = s.pipe.writeWaiters.head? := hw.head .write
      rw [if_pos hcount', readTake_eq, ← hhead]
      exact ⟨w.pop .write, (waiters_write s.pipe.takeByte _).symm ▸ hw.pop .write, rfl⟩
    next hcount =>
      have hcount' : ¬0 < (ofSys s w).pipe.count := hcount
      rw [if_neg hcount']
      split
      next hwriters =>
        have hwriters' : (ofSys s w).pipe.writers = 0 := hwriters
        rw [if_pos hwriters']
        exact ⟨w, hw, rfl⟩
      next hwriters =>
        have hwriters' : ¬(ofSys s w).pipe.writers = 0 := hwriters
        rw [if_neg hwriters']
        exact ⟨w.push .read me, (waiters_read s.pipe _).symm ▸ hw.push hme, rfl⟩
  next => exact ⟨w, hw, rfl⟩

/-- The memory follows a turn of `pipe_write`. -/
theorem ofSys_writeLoop (hw : w.Stands s.pipe.waiters) (hme : ∀ e, me ∉ s.pipe.waiters e)
    (buf : Nat → Byte) (n : Nat) (count : Int) :
    ∃ w', w'.Stands (Aeryk.writeLoop s me buf n count).pipe.waiters ∧
      (ofSys s w).writeLoop me buf n count = ofSys (Aeryk.writeLoop s me buf n count) w' := by
  unfold Aeryk.writeLoop writeLoop
  split
  next =>
    split
    next hreaders =>
      have hreaders' : (ofSys s w).pipe.readers = 0 := hreaders
      rw [if_pos hreaders']
      exact ⟨w, hw, rfl⟩
    next hreaders =>
      have hreaders' : ¬(ofSys s w).pipe.readers = 0 := hreaders
      rw [if_neg hreaders']
      split
      next hroom =>
        have hroom' : (ofSys s w).pipe.count < pipeBufSize := hroom
        have hhead : w.head .read = s.pipe.readWaiters.head? := hw.head .read
        rw [if_pos hroom', writePut_eq, ← hhead]
        exact ⟨w.pop .read, (waiters_read (s.pipe.putByte (buf n)) _).symm ▸ hw.pop .read, rfl⟩
      next hroom =>
        have hroom' : ¬(ofSys s w).pipe.count < pipeBufSize := hroom
        rw [if_neg hroom']
        exact ⟨w.push .write me, (waiters_write s.pipe _).symm ▸ hw.push hme, rfl⟩
  next => exact ⟨w, hw, rfl⟩

/-- The parts of a `wait_queue_pop`, one after the other. -/
theorem popParts_run (e : End) (after : Option Pid → Pc) :
    (popParts me e after).run t =
      { t with waits := t.waits.pop e }.goto me (after (t.waits.head e)) := by
  unfold popParts Waits.pop
  rw [Resume.run]
  cases t.waits.head e <;> rfl

theorem popWriter_eq (s : PipeSys) (me : Pid) (free : Bool) :
    popWriter s me free =
      { s with pipe := { s.pipe with writeWaiters := s.pipe.writeWaiters.tail } }.goto me
        (afterWriter free s.pipe.writeWaiters.head?) := by
  obtain ⟨⟨_, _, _, _, _, _, _, ws⟩, _⟩ := s
  cases ws <;> rfl

theorem popReader_eq (s : PipeSys) (me : Pid) (free : Bool) :
    popReader s me free =
      { s with
        pipe := { s.pipe with readWaiters := s.pipe.readWaiters.tail }
        freed := if s.pipe.readWaiters = [] then s.freed || free else s.freed }.goto me
        (afterReader free s.pipe.readWaiters.head?) := by
  obtain ⟨⟨_, _, _, _, _, _, ws, _⟩, _⟩ := s
  cases ws <;> rfl

/-- The memory follows the parts of a `wait_queue_pop` of `wake_all`. -/
theorem ofSys_pop (hw : w.Stands s.pipe.waiters) (free : Bool) :
    (∃ w', w'.Stands (popWriter s me free).pipe.waiters ∧
      (popParts me .write (afterWriter free)).run (ofSys s w) =
        ofSys (popWriter s me free) w') ∧
    ∃ w', w'.Stands (popReader s me free).pipe.waiters ∧
      (popParts me .read (afterReader free)).run (ofSys s w) =
        ofSys (popReader s me free) w' := by
  have hwrite : w.head .write = s.pipe.writeWaiters.head? := hw.head .write
  have hread : w.head .read = s.pipe.readWaiters.head? := hw.head .read
  rw [popParts_run, popParts_run, popWriter_eq, popReader_eq, ← hwrite, ← hread]
  exact ⟨⟨w.pop .write, (waiters_write s.pipe _).symm ▸ hw.pop .write, rfl⟩,
    ⟨w.pop .read, (waiters_read s.pipe _).symm ▸ hw.pop .read, rfl⟩⟩

/-- A whole move is a step of the calls, and the memory follows it. -/
theorem ofSys_step (hw : w.Stands s.pipe.waiters) (hok : QueueOk s) {m : Pid × PipeMove}
    (hm : (ofSys s w).MayMove m) :
    ∃ s' w', Relation.ReflTransGen PipeStep s s' ∧ w'.Stands s'.pipe.waiters ∧
      (ofSys s w).step m = ofSys s' w' := by
  obtain ⟨me, m⟩ := m
  have hout : (s.pc me).isOut = true → ∃ ret, s.pc me = .out ret := by
    intro h
    cases hc : s.pc me with
    | out ret => exact ⟨ret, rfl⟩
    | _ => rw [hc] at h; cases h
  cases m with
  | callRead count =>
    obtain ⟨ret, hret⟩ := hout hm
    exact ⟨_, w, .single (.callRead count hret), hw, rfl⟩
  | callWrite buf count =>
    obtain ⟨ret, hret⟩ := hout hm
    exact ⟨_, w, .single (.callWrite buf count hret), hw, rfl⟩
  | callClose isReadEnd =>
    obtain ⟨ret, hret⟩ := hout hm
    refine ⟨_, w, .single (.callClose isReadEnd hret), ?_, ?_⟩
    · rwa [closeSection, PipeSys.goto, funext (closeEnd_waiters s.pipe isReadEnd)]
    · cases isReadEnd <;> rfl
  | dup isReadEnd =>
    cases isReadEnd with
    | true => exact ⟨_, w, .single (.dupRead hm), hw, rfl⟩
    | false => exact ⟨_, w, .single (.dupWrite hm), hw, rfl⟩
  | turn =>
    have hme : ∀ e, me ∉ s.pipe.waiters e := hok.not_parked hm
    have hready : (s.pc me).asleepOn = none ∨ s.ready me = true := hm
    unfold step program turn
    dsimp only
    cases hpc : (ofSys s w).pc me with
    | out ret => exact ⟨s, w, .refl, hw, rfl⟩
    | reading got count =>
      obtain ⟨w', hw', heq⟩ := ofSys_readLoop hw hme got count
      exact ⟨_, w', .single (.read (.inl hpc)), hw', heq⟩
    | readSleep got count =>
      have hrun := hready.resolve_left
        (by rw [show s.pc me = _ from hpc]; exact Option.some_ne_none _)
      obtain ⟨w', hw', heq⟩ := ofSys_readLoop hw hme got count
      exact ⟨_, w', .single (.read (.inr ⟨hpc, hrun⟩)), hw', heq⟩
    | readWake p got count => exact ⟨_, w, .single (.readEnqueue hpc), hw, rfl⟩
    | writing buf n count =>
      obtain ⟨w', hw', heq⟩ := ofSys_writeLoop hw hme buf n count
      exact ⟨_, w', .single (.write (.inl hpc)), hw', heq⟩
    | writeSleep buf n count =>
      have hrun := hready.resolve_left
        (by rw [show s.pc me = _ from hpc]; exact Option.some_ne_none _)
      obtain ⟨w', hw', heq⟩ := ofSys_writeLoop hw hme buf n count
      exact ⟨_, w', .single (.write (.inr ⟨hpc, hrun⟩)), hw', heq⟩
    | writeWake p buf n count => exact ⟨_, w, .single (.writeEnqueue hpc), hw, rfl⟩
    | wakeWriters free p =>
      cases p with
      | none =>
        obtain ⟨⟨w', hw', heq⟩, -⟩ := @ofSys_pop s w me hw free
        exact ⟨_, w', .single (.popWriter hpc), hw', heq⟩
      | some p => exact ⟨_, w, .single (.enqueueWriter hpc), hw, rfl⟩
    | wakeReaders free p =>
      cases p with
      | none =>
        obtain ⟨-, w', hw', heq⟩ := @ofSys_pop s w me hw free
        exact ⟨_, w', .single (.popReader hpc), hw', heq⟩
      | some p => exact ⟨_, w, .single (.enqueueReader hpc), hw, rfl⟩

end PipeMem

/-! ## Runs -/

/-- The pipe with the processes that are in the middle of a `wait_queue_pop`. -/
abbrev PipeMems := Shared PipeMem Pid

namespace PipeMems

def act (m : PipeMems) : Act Pid (Pid × PipeMove) → PipeMems :=
  Shared.act PipeMem.step PipeMem.program m

def start : PipeMems := ⟨.init, []⟩

def MayTake (m : PipeMems) : Act Pid (Pid × PipeMove) → Prop
  | .interrupt _ => False
  | .call p e => e.1 = p ∧ (m.todo.lookup p).isNone = true ∧ m.state.MayMove e
  | .go _ => True

instance (m : PipeMems) : (a : Act Pid (Pid × PipeMove)) → Decidable (m.MayTake a)
  | .interrupt _ => isFalse id
  | .call .. => inferInstanceAs (Decidable (_ ∧ _ ∧ _))
  | .go _ => isTrue trivial

/-- If nothing comes between the parts of a `wait_queue_pop`, and none is half done, the memory
stands for a reachable state of the calls. -/
theorem ofSys_of_undisturbed {acts : List (Act Pid (Pid × PipeMove))}
    (h : Along (fun m a => MayTake m a ∧ m.Undisturbed a) act start acts)
    (hidle : (acts.foldl act start).todo = []) :
    ∃ s w, PipeReachable s ∧ (acts.foldl act start).state = .ofSys s w := by
  have hinit : PipeMem.init.waits.Stands PipeSys.init.pipe.waiters :=
    ⟨⟨fun e _ => by cases e <;> rfl, fun e he => absurd trivial he,
      fun {e _ p} hp _ => by cases e <;> cases hp⟩, fun e => by cases e <;> rfl⟩
  obtain ⟨t, ht, s, w, hs, -, rfl⟩ := Shared.undisturbed_keeps (C := PipeMem.MayMove)
    (I := fun t => ∃ s w, PipeReachable s ∧ w.Stands s.pipe.waiters ∧ t = .ofSys s w)
    (fun t e => rfl)
    (by
      rintro _ e ⟨s, w, hs, hw, rfl⟩ he
      obtain ⟨s', w', hstep, hw', heq⟩ := PipeMem.ofSys_step hw hs.queueOk_covered.1 he
      exact ⟨s', w', hs.trans hstep, hw', heq⟩)
    (fun m e hP => by
      rcases hP with hP | ⟨p, hP⟩
      · exact hP.elim
      · exact hP.2.2)
    h ⟨.init, rfl, .init, PipeMem.init.waits, .refl, hinit, rfl⟩
  exact ⟨s, w, hs, Option.some.inj ((Shared.completed_of_nil hidle).symm.trans ht)⟩

end PipeMems

namespace PipeMem

/-- Asleep on an end, not enqueued since, and in nobody's hands. -/
def Parked (t : PipeMem) (e : End) (p : Pid) : Prop :=
  (t.pc p).asleepOn = some e ∧ t.ready p = false ∧ ∀ m, (t.pc m).holds ≠ some p

/-- The wake-up an end still has coming: a sleeper of it that has been enqueued or that a waker has
yet to enqueue, or a closer that has not ended its `wake_all`. -/
def WakePending (t : PipeMem) (e : End) : Prop :=
  (∃ q, (t.pc q).asleepOn = some e ∧ (t.ready q = true ∨ ∃ m, (t.pc m).holds = some q)) ∨
    ∃ m, (t.pc m).willWake e

theorem wakePending_ofSys {s : PipeSys} {w : Waits} (hs : PipeReachable s) {e : End} {p : Pid}
    (hp : (ofSys s w).Parked e p) (hg : 0 < s.pipe.avail e ∨ s.pipe.alone e) :
    (ofSys s w).WakePending e := by
  obtain ⟨hasleep, hready, hheld⟩ := hp
  have hmem : p ∈ s.pipe.waiters e := by
    by_contra hn
    rcases hs.queueOk_covered.1.owed e p ⟨hasleep, hn⟩ with hr | ⟨m, hm⟩
    · exact Bool.false_ne_true (hready.symm.trans hr)
    · exact hheld m hm
  rcases wakePending_of_reachable hs hmem hg with ⟨q, hq, hr⟩ | ⟨q, m, hq, hm⟩ | hm
  · exact .inl ⟨q, hq.1, .inl hr⟩
  · exact .inl ⟨q, hq.1, .inr ⟨m, hm⟩⟩
  · exact .inr hm

instance (c : Pc) (e : End) : Decidable (c.willWake e) := by
  unfold Pc.willWake
  split <;> infer_instance

/-- If all others are in no call, only the processes of a list are to be looked at. -/
theorem forall_pc {t : PipeMem} {l : List Pid} (h : ∀ q, q ∉ l → t.pc q = .out 0)
    {P : Pid → Pc → Prop} (hout : ∀ q, P q (.out 0)) (hl : ∀ q ∈ l, P q (t.pc q)) (q : Pid) :
    P q (t.pc q) := by
  by_cases hq : q ∈ l
  · exact hl q hq
  · rw [h q hq]
    exact hout q

end PipeMem

/-- No wake-up is lost in a run in which nothing comes between the parts of a `wait_queue_pop` of
`wake_all`.  Whenever none is half done, no process is parked on `read_waiters` while there are
bytes to take or no writer is left, nor on `write_waiters` while there are free slots or no reader
is left, unless a wake-up for that queue is on its way. -/
theorem pipe_no_lost_wakeup {acts : List (Act Pid (Pid × PipeMove))}
    (h : Along (fun m a => PipeMems.MayTake m a ∧ m.Undisturbed a) PipeMems.act .start acts)
    (hidle : (acts.foldl PipeMems.act .start).todo = []) :
    let t := (acts.foldl PipeMems.act .start).state
    (∀ p, t.Parked .read p → (0 < t.pipe.count ∨ t.pipe.writers = 0) → t.WakePending .read) ∧
    (∀ p, t.Parked .write p → (t.pipe.count < pipeBufSize ∨ t.pipe.readers = 0) →
      t.WakePending .write) := by
  obtain ⟨s, w, hs, heq⟩ := PipeMems.ofSys_of_undisturbed h hidle
  dsimp only
  rw [heq]
  refine ⟨fun p hp hg => PipeMem.wakePending_ofSys hs hp hg, fun p hp hg => ?_⟩
  exact PipeMem.wakePending_ofSys hs hp (hg.imp_left fun hc => Nat.sub_pos_of_lt hc)

/-- Processes 2 and 3 sleep in `pipe_read`.  Process 1 puts a byte and pops process 2. -/
def twoReadersOneByte : List (Act Pid (Pid × PipeMove)) :=
  [.call 2 (2, .callRead 1), .call 2 (2, .turn), .call 3 (3, .callRead 1), .call 3 (3, .turn),
    .call 1 (1, .callWrite (fun _ => 7) 1), .call 1 (1, .turn)]

theorem pipe_no_lost_wakeup_twoReadersOneByte :
    let t := (twoReadersOneByte.foldl PipeMems.act .start).state
    t.Parked .read 3 ∧ t.pipe.count = 1 ∧ t.WakePending .read := by
  have hothers : ∀ q, q ∉ [1, 2, 3] →
      (twoReadersOneByte.foldl PipeMems.act .start).state.pc q = .out 0 := by
    intro q hq
    simp only [mem_cons, not_mem_nil, or_false, not_or] at hq
    iterate 2 refine (update_of_ne hq.1 ..).trans ?_
    iterate 2 refine (update_of_ne hq.2.2 ..).trans ?_
    exact (update_of_ne hq.2.1 ..).trans (update_of_ne hq.2.1 ..)
  have hparked : (twoReadersOneByte.foldl PipeMems.act .start).state.Parked .read 3 :=
    ⟨by decide +kernel, by decide +kernel,
      PipeMem.forall_pc hothers (P := fun _ c => c.holds ≠ some 3) (fun _ h => by cases h)
        (by decide +kernel)⟩
  exact ⟨hparked, by decide +kernel,
    (@pipe_no_lost_wakeup twoReadersOneByte (by decide +kernel)
      (isEmpty_iff.mp (by decide +kernel))).1 3 hparked (.inl (by decide +kernel))⟩

/-- Process 2 sleeps in `pipe_read`, and process 3 is about to.  Process 1 closes a read end, and
its `wait_queue_pop` has stored the new head when process 3 parks behind the old tail, process 2.
Then it clears the tail and the link of process 2.  Process 1 closes the write end, and process 2
sees the end of the file. -/
def lostReader : List (Act Pid (Pid × PipeMove)) :=
  let turn (p : Pid) : Act Pid (Pid × PipeMove) := .call p (p, .turn)
  [.call 1 (1, .dup true), .call 2 (2, .callRead 1), turn 2, .call 3 (3, .callRead 1),
    .call 1 (1, .callClose true), turn 1, .go 1, turn 1, .go 1, turn 3, .go 1, .go 1,
    turn 1, turn 1, .go 1, .call 1 (1, .callClose false), turn 1, .go 1, turn 1, .go 1, turn 2]

/-- Process 3 sleeps on a pipe without writers, and nobody will wake it. -/
theorem reader_sleeps_for_ever :
    Along PipeMems.MayTake PipeMems.act .start lostReader ∧
      (lostReader.foldl PipeMems.act .start).todo.isEmpty = true ∧
      let t := (lostReader.foldl PipeMems.act .start).state
      t.Parked .read 3 ∧ t.pipe.writers = 0 ∧ ¬t.WakePending .read := by
  have hothers : ∀ q, q ∉ [1, 2, 3] →
      (lostReader.foldl PipeMems.act .start).state.pc q = .out 0 := by
    intro q hq
    simp only [mem_cons, not_mem_nil, or_false, not_or] at hq
    refine (update_of_ne hq.2.1 ..).trans ?_
    iterate 6 refine (update_of_ne hq.1 ..).trans ?_
    refine (update_of_ne hq.2.2 ..).trans ?_
    iterate 2 refine (update_of_ne hq.1 ..).trans ?_
    refine (update_of_ne hq.2.2 ..).trans ?_
    exact (update_of_ne hq.2.1 ..).trans (update_of_ne hq.2.1 ..)
  have hheld := PipeMem.forall_pc hothers (P := fun _ c => c.holds = none) (fun _ => rfl)
    (by decide +kernel)
  have hready := PipeMem.forall_pc hothers (P := fun q c => c.asleepOn = some .read →
    (lostReader.foldl PipeMems.act .start).state.ready q = false) (fun _ h => by cases h)
    (by decide +kernel)
  have hwaker := PipeMem.forall_pc hothers (P := fun _ c => ¬c.willWake .read) (fun _ => id)
    (by decide +kernel)
  refine ⟨by decide +kernel, by decide +kernel,
    ⟨by decide +kernel, by decide +kernel, fun m hm => ?_⟩, by decide +kernel, ?_⟩
  · rw [hheld m] at hm
    cases hm
  · rintro (⟨q, hq, hr | ⟨m, hm⟩⟩ | ⟨m, hm⟩)
    · exact Bool.false_ne_true ((hready q hq).symm.trans hr)
    · rw [hheld m] at hm
      cases hm
    · exact hwaker m hm

end Aeryk
