import Aeryk.Proc.Dup

/-!
# What the pipe calls report

`SYS_read` and `SYS_write` look at the number of the descriptor first, and pass `(int)frame->rdx` on
to `pipe_read` and `pipe_write` if they come to them.  A process here keeps the call that it is in
beside its place in the loops, and the branches on the number are those of `Kernel.Io.sysRead` and
`Kernel.Io.sysWrite`.

A short read is to mean that the buffer is empty and nobody is left to fill it, and a short or
failed write that nobody is left to read.  The loops keep to that with the count they are given
(`PipeStep.returns_read`, `PipeStep.returns_write`), so the question is which counts those are, and
which numbers lead to the loops.
-/

namespace Aeryk

open Function Kernel

/-- `(int)frame->rdx`. -/
def narrow (rdx : BitVec 64) : Int := (rdx.setWidth 32).toInt

/-- The count of a process in `pipe_read`. -/
def Pc.reads : Pc → Option Int
  | .reading _ count => some count
  | .readWake _ _ count => some count
  | .readSleep _ count => some count
  | _ => none

/-- The count of a process in `pipe_write`. -/
def Pc.writes : Pc → Option Int
  | .writing _ _ count => some count
  | .writeWake _ _ _ count => some count
  | .writeSleep _ _ count => some count
  | _ => none

/-- Whether a process is in one of the loops. -/
def Pc.loops (c : Pc) : Bool := c.reads.isSome || c.writes.isSome

/-- `SYS_read` or `SYS_write` on a slot that holds the end of the pipe for it. -/
structure SysCall where
  isRead : Bool
  slot : Fin maxFds
  buf : Nat → Byte
  rdx : BitVec 64

/-- The caller's slot holds an end of the pipe, for the call. -/
def SysCall.Holds (c : SysCall) (k : Kernel) : Prop :=
  (k.fd k.current c.slot).type = if c.isRead then .pipeRead else .pipeWrite

/-- What the branches on the number of the descriptor come to. -/
def SysCall.dispatch (c : SysCall) (k : Kernel) : Doing :=
  if c.isRead then Io.quiet.sysRead (fun _ => none) k c.slot 0 c.rdx.toNat
  else Io.quiet.sysWrite k c.slot 0 c.rdx.toNat

/-- The start of the loop. -/
def SysCall.start (c : SysCall) : Pc :=
  if c.isRead then .reading [] (narrow c.rdx) else .writing c.buf 0 (narrow c.rdx)

/-- The pipe, its callers, and the call that each of them is in. -/
structure PipeCalls where
  sys : PipeSys
  call : Pid → Option SysCall

/-- One step of one process.  The loops are entered by the system calls, which end with them. -/
inductive PipeCallStep : PipeCalls → PipeCalls → Prop where
  | syscall {s me ret} (c : SysCall) (h : s.sys.pc me = .out ret) (hcall : s.call me = none) :
    PipeCallStep s ⟨s.sys, update s.call me (some c)⟩
  | enter {s me ret c k x} (h : s.sys.pc me = .out ret) (hcall : s.call me = some c)
    (hend : c.Holds k) (hpipe : (c.dispatch k).device = .pipe x) :
    PipeCallStep s ⟨s.sys.goto me c.start, s.call⟩
  | refuse {s me ret c k} (h : s.sys.pc me = .out ret) (hcall : s.call me = some c)
    (hend : c.Holds k) (hbadf : c.dispatch k = .badf) :
    PipeCallStep s ⟨s.sys.goto me (.out (-Errno.ebadf.code)), update s.call me none⟩
  | inside {s t} (h : PipeStep s.sys t)
    (hloops : ∀ me, (s.sys.pc me).loops = false → (t.pc me).loops = false)
    (hwait : ∀ me, s.call me ≠ none → (s.sys.pc me).loops = false → t.pc me = s.sys.pc me) :
    PipeCallStep s
      ⟨t, fun me => if (s.sys.pc me).loops && !(t.pc me).loops then none else s.call me⟩

/-- The states of the runs that start at a new pipe. -/
def PipeCallsReachable (s : PipeCalls) : Prop :=
  Relation.ReflTransGen PipeCallStep ⟨PipeSys.init, fun _ => none⟩ s

/-- When this call returns less than its count, the other end is gone, and a reader found no bytes.
-/
def CountTruthful (c : SysCall) : Prop :=
  ∀ s t me ret, PipeCallsReachable s → PipeCallStep s t → s.call me = some c →
    t.call me = none → t.sys.pc me = .out ret → ret < (c.rdx.toNat : Int) →
      if c.isRead then s.sys.pipe.count = 0 ∧ s.sys.pipe.writers = 0
      else s.sys.pipe.readers = 0

/-- The numbers under which an end of a pipe is served: 0 or 1, and those from 3 on. -/
def SysCall.Served (c : SysCall) : Prop := c.slot.val = (if c.isRead then 0 else 1) ∨ 3 ≤ c.slot.val

/-! ## The loops -/

theorem Pc.writes_of_reads {c : Pc} {k : Int} (h : c.reads = some k) : c.writes = none := by
  cases c with
  | reading | readWake | readSleep => rfl
  | out | writing | writeWake | writeSleep | wakeWriters | wakeReaders => cases h

/-- How a process goes on: inside the call it is in, out of it, or from no call to anywhere. -/
inductive Pc.Goes {Q : Type} (p : Pipe Q) : Pc → Pc → Prop where
  | enter {c d} (hr : c.reads = none) (hw : c.writes = none) : Goes p c d
  | read {c d k} (h : c.reads = some k) (h' : d.reads = some k) : Goes p c d
  | readEnd {c k ret} (h : c.reads = some k) (hret : k ≤ ret ∨ p.count = 0 ∧ p.writers = 0) :
    Goes p c (.out ret)
  | write {c d k} (h : c.writes = some k) (h' : d.writes = some k) : Goes p c d
  | writeEnd {c k ret} (h : c.writes = some k) (hret : k ≤ ret ∨ p.readers = 0) :
    Goes p c (.out ret)

section

variable {s t : PipeSys} {me : Pid} {ret k count : Int} {got : List Byte} {buf : Nat → Byte}
  {n : Nat}

theorem AtRead.reads (h : AtRead s me got count) : (s.pc me).reads = some count := by
  rcases h with h | ⟨h, -⟩
  · rw [h]
    rfl
  · rw [h]
    rfl

theorem AtWrite.writes (h : AtWrite s me buf n count) : (s.pc me).writes = some count := by
  rcases h with h | ⟨h, -⟩
  · rw [h]
    rfl
  · rw [h]
    rfl

/-- One turn of the loop of `pipe_read`. -/
theorem readLoop_goes (h : AtRead s me got count) :
    ∃ c, (readLoop s me got count).pc = update s.pc me c ∧ (s.pc me).Goes s.pipe c := by
  unfold readLoop
  split
  · split
    · unfold readTake
      split
      · exact ⟨_, rfl, .read h.reads rfl⟩
      · exact ⟨_, rfl, .read h.reads rfl⟩
    next hcount =>
      split
      next hwriters =>
        exact ⟨_, rfl, .readEnd h.reads (.inr ⟨by omega, hwriters⟩)⟩
      · exact ⟨_, rfl, .read h.reads rfl⟩
  next hend => exact ⟨_, rfl, .readEnd h.reads (.inl (Int.not_lt.mp hend))⟩

/-- One turn of the loop of `pipe_write`. -/
theorem writeLoop_goes (h : AtWrite s me buf n count) :
    ∃ c, (writeLoop s me buf n count).pc = update s.pc me c ∧
      (s.pc me).Goes s.pipe c := by
  unfold writeLoop
  split
  · split
    next hreaders => exact ⟨_, rfl, .writeEnd h.writes (.inr hreaders)⟩
    · split
      · unfold writePut
        split
        · exact ⟨_, rfl, .write h.writes rfl⟩
        · exact ⟨_, rfl, .write h.writes rfl⟩
      · exact ⟨_, rfl, .write h.writes rfl⟩
  next hend => exact ⟨_, rfl, .writeEnd h.writes (.inl (Int.not_lt.mp hend))⟩

/-- One process goes on, and the others stay where they are. -/
theorem PipeStep.goes (st : PipeStep s t) :
    t.pc = s.pc ∨ ∃ me c, t.pc = update s.pc me c ∧ (s.pc me).Goes s.pipe c := by
  cases st with
  | callRead count h => exact .inr ⟨_, _, rfl, .enter (h ▸ rfl) (h ▸ rfl)⟩
  | callWrite buf count h => exact .inr ⟨_, _, rfl, .enter (h ▸ rfl) (h ▸ rfl)⟩
  | callClose isReadEnd h => exact .inr ⟨_, _, rfl, .enter (h ▸ rfl) (h ▸ rfl)⟩
  | dupRead => exact .inl rfl
  | dupWrite => exact .inl rfl
  | read h => exact .inr ⟨_, readLoop_goes h⟩
  | readEnqueue h => exact .inr ⟨_, _, rfl, .read (h ▸ rfl) rfl⟩
  | write h => exact .inr ⟨_, writeLoop_goes h⟩
  | writeEnqueue h => exact .inr ⟨_, _, rfl, .write (h ▸ rfl) rfl⟩
  | popWriter h =>
    unfold Aeryk.popWriter
    split
    · exact .inr ⟨_, _, rfl, .enter (h ▸ rfl) (h ▸ rfl)⟩
    · exact .inr ⟨_, _, rfl, .enter (h ▸ rfl) (h ▸ rfl)⟩
  | enqueueWriter h => exact .inr ⟨_, _, rfl, .enter (h ▸ rfl) (h ▸ rfl)⟩
  | popReader h =>
    unfold Aeryk.popReader
    split
    · exact .inr ⟨_, _, rfl, .enter (h ▸ rfl) (h ▸ rfl)⟩
    · exact .inr ⟨_, _, rfl, .enter (h ▸ rfl) (h ▸ rfl)⟩
  | enqueueReader h => exact .inr ⟨_, _, rfl, .enter (h ▸ rfl) (h ▸ rfl)⟩

/-- Seen from one process. -/
theorem PipeStep.goes_at (st : PipeStep s t) (me : Pid) :
    t.pc me = s.pc me ∨ (s.pc me).Goes s.pipe (t.pc me) := by
  rcases st.goes with hpc | ⟨q, c, hpc, hgoes⟩
  · exact .inl (congrFun hpc me)
  · by_cases hq : me = q
    · subst hq
      rw [hpc, update_self]
      exact .inr hgoes
    · rw [hpc, update_of_ne hq]
      exact .inl rfl

/-- `pipe_read` returns with what it was asked for, or at the end of the file. -/
theorem PipeStep.returns_read (st : PipeStep s t) (hin : (s.pc me).reads = some k)
    (hout : t.pc me = .out ret) : k ≤ ret ∨ s.pipe.count = 0 ∧ s.pipe.writers = 0 := by
  rcases st.goes_at me with hpc | hgoes
  · rw [← hpc, hout] at hin
    cases hin
  · rw [hout] at hgoes
    generalize s.pc me = c at hin hgoes
    cases hgoes with
    | enter hr hw => cases hin.symm.trans hr
    | read h h' => cases h'
    | readEnd h hret =>
      cases hin.symm.trans h
      exact hret
    | write h h' => cases h'
    | writeEnd h hret => cases (Pc.writes_of_reads hin).symm.trans h

/-- `pipe_write` returns with what it was asked for, or without a reader. -/
theorem PipeStep.returns_write (st : PipeStep s t) (hin : (s.pc me).writes = some k)
    (hout : t.pc me = .out ret) : k ≤ ret ∨ s.pipe.readers = 0 := by
  rcases st.goes_at me with hpc | hgoes
  · rw [← hpc, hout] at hin
    cases hin
  · rw [hout] at hgoes
    generalize s.pc me = c at hin hgoes
    cases hgoes with
    | enter hr hw => cases hin.symm.trans hw
    | read h h' => cases h'
    | readEnd h hret => cases (Pc.writes_of_reads h).symm.trans hin
    | write h h' => cases h'
    | writeEnd h hret =>
      cases hin.symm.trans h
      exact hret

end

/-! ## The branches on the number -/

section

variable {c : SysCall} {k : Kernel}

/-- Under these numbers the branches come to the pipe. -/
theorem SysCall.Served.dispatch (h : c.Served) (hend : c.Holds k) :
    (c.dispatch k).device = .pipe (k.fd k.current c.slot).pipe := by
  unfold Served at h
  unfold Holds at hend
  unfold SysCall.dispatch
  cases hread : c.isRead with
  | true =>
    rw [hread, if_pos rfl] at h hend
    rw [if_pos rfl, sysRead_pipe h hend]
    rfl
  | false =>
    rw [hread, if_neg Bool.false_ne_true] at h hend
    rw [if_neg Bool.false_ne_true, sysWrite_pipe h hend]
    rfl

/-- Under the others they come to `-EBADF`. -/
theorem SysCall.dispatch_badf (h : ¬c.Served) : c.dispatch k = .badf := by
  unfold Served at h
  unfold SysCall.dispatch
  cases hread : c.isRead with
  | true =>
    rw [hread, if_pos rfl] at h
    rw [if_pos rfl, sysRead_low (by omega)]
  | false =>
    rw [hread, if_neg Bool.false_ne_true] at h
    rw [if_neg Bool.false_ne_true, sysWrite_low (by omega)]

end

/-- A process with a read end in slot 3 and a write end in slot 4, as `SYS_pipe` leaves it. -/
def bothEnds : Kernel :=
  let k := initScheduler .blank
  (k.setFd k.current 3 ⟨.pipeRead, none, some 0, 0, 0⟩).setFd k.current 4
    ⟨.pipeWrite, none, some 0, 0, 0⟩

/-- `SYS_dup2` brings an end to any slot. -/
theorem SysCall.exists_holds (c : SysCall) : ∃ k, c.Holds k := by
  unfold Holds
  cases c.isRead with
  | true =>
    obtain ⟨-, hcur, -, hn⟩ := @sysDup2_slots bothEnds 3 c.slot (by decide)
    refine ⟨(bothEnds.sysDup2 (3 : Fin maxFds) c.slot).1, ?_⟩
    rw [hcur, hn]
    rfl
  | false =>
    obtain ⟨-, hcur, -, hn⟩ := @sysDup2_slots bothEnds 4 c.slot (by decide)
    refine ⟨(bothEnds.sysDup2 (4 : Fin maxFds) c.slot).1, ?_⟩
    rw [hcur, hn]
    rfl

/-! ## The counts of the loops -/

/-- A process in a loop is in the call for it, with the narrowed count. -/
structure CountsOk (s : PipeCalls) : Prop where
  reads : ∀ me k, (s.sys.pc me).reads = some k →
    ∃ c, s.call me = some c ∧ c.isRead = true ∧ k = narrow c.rdx
  writes : ∀ me k, (s.sys.pc me).writes = some k →
    ∃ c, s.call me = some c ∧ c.isRead = false ∧ k = narrow c.rdx

theorem countsOk_init : CountsOk ⟨PipeSys.init, fun _ => none⟩ :=
  ⟨nofun, nofun⟩

theorem Pc.loops_of_reads {c : Pc} {k : Int} (h : c.reads = some k) : c.loops = true := by
  rw [loops, h]
  rfl

theorem Pc.loops_of_writes {c : Pc} {k : Int} (h : c.writes = some k) : c.loops = true := by
  rw [loops, h, Option.isSome_some, Bool.or_true]

theorem Pc.loops_false {c : Pc} : c.loops = false ↔ c.reads = none ∧ c.writes = none := by
  rw [loops, Bool.or_eq_false_iff, Option.isSome_eq_false_iff, Option.isSome_eq_false_iff,
    Option.isNone_iff_eq_none, Option.isNone_iff_eq_none]

/-- Inside a loop the count stays. -/
theorem PipeStep.stays {s t : PipeSys} {me : Pid} (st : PipeStep s t)
    (hloops : (s.pc me).loops = false → (t.pc me).loops = false) (k : Int) :
    ((t.pc me).reads = some k → (s.pc me).reads = some k) ∧
      ((t.pc me).writes = some k → (s.pc me).writes = some k) := by
  rcases st.goes_at me with hpc | hgoes
  · rw [hpc]
    exact ⟨id, id⟩
  · generalize s.pc me = c at hloops hgoes
    generalize t.pc me = d at hloops hgoes
    cases hgoes with
    | enter hr hw =>
      obtain ⟨hr', hw'⟩ := Pc.loops_false.mp (hloops (Pc.loops_false.mpr ⟨hr, hw⟩))
      rw [hr', hw']
      exact ⟨nofun, nofun⟩
    | read hc hd =>
      rw [hd, Pc.writes_of_reads hd, hc]
      exact ⟨id, nofun⟩
    | readEnd hc hret => exact ⟨nofun, nofun⟩
    | write hc hd =>
      refine ⟨fun h => ?_, fun h => ?_⟩
      · cases (Pc.writes_of_reads h).symm.trans hd
      · rwa [hc, ← hd]
    | writeEnd hc hret => exact ⟨nofun, nofun⟩

section

variable {s t : PipeCalls} {me q : Pid} {c : SysCall} {k : Int}

/-- A process in no loop goes on. -/
theorem CountsOk.goto (h : CountsOk s) {call : Pid → Option SysCall} {d : Pc}
    (hother : ∀ q, q ≠ me → (s.sys.pc q).loops = true → call q = s.call q)
    (hr : ∀ k, d.reads = some k → ∃ c, call me = some c ∧ c.isRead = true ∧ k = narrow c.rdx)
    (hw : ∀ k, d.writes = some k → ∃ c, call me = some c ∧ c.isRead = false ∧ k = narrow c.rdx) :
    CountsOk ⟨s.sys.goto me d, call⟩ := by
  constructor
  · intro q k hq
    dsimp only at hq ⊢
    rw [PipeSys.goto_pc] at hq
    by_cases hme : q = me
    · subst hme
      rw [update_self] at hq
      exact hr k hq
    · rw [update_of_ne hme] at hq
      rw [hother q hme (Pc.loops_of_reads hq)]
      exact h.reads q k hq
  · intro q k hq
    dsimp only at hq ⊢
    rw [PipeSys.goto_pc] at hq
    by_cases hme : q = me
    · subst hme
      rw [update_self] at hq
      exact hw k hq
    · rw [update_of_ne hme] at hq
      rw [hother q hme (Pc.loops_of_writes hq)]
      exact h.writes q k hq

theorem CountsOk.step (st : PipeCallStep s t) (h : CountsOk s) : CountsOk t := by
  cases st with
  | @syscall me ret c hout hcall =>
    have hsame : s.sys = s.sys.goto me (.out ret) := by
      unfold PipeSys.goto
      rw [← hout, update_eq_self]
    rw [hsame]
    exact h.goto (fun q hq _ => update_of_ne hq _ _) nofun nofun
  | @enter me ret c k x hout hcall hend hpipe =>
    refine h.goto (fun _ _ _ => rfl) (fun k hk => ⟨c, hcall, ?_⟩) fun k hk => ⟨c, hcall, ?_⟩
    · unfold SysCall.start at hk
      split at hk
      next hread => exact ⟨hread, (Option.some.inj hk).symm⟩
      · cases hk
    · unfold SysCall.start at hk
      split at hk
      · cases hk
      next hread => exact ⟨Bool.eq_false_iff.mpr hread, (Option.some.inj hk).symm⟩
  | refuse hout hcall hend hbadf =>
    exact h.goto (fun q hq _ => update_of_ne hq _ _) nofun nofun
  | @inside u hstep hloops hwait =>
    constructor
    · intro me k hk
      have hin := ((hstep.stays (hloops me) k).1 hk)
      dsimp only at hk ⊢
      rw [Pc.loops_of_reads hk, Bool.not_true, Bool.and_false, if_neg Bool.false_ne_true]
      exact h.reads me k hin
    · intro me k hk
      have hin := ((hstep.stays (hloops me) k).2 hk)
      dsimp only at hk ⊢
      rw [Pc.loops_of_writes hk, Bool.not_true, Bool.and_false, if_neg Bool.false_ne_true]
      exact h.writes me k hin

theorem countsOk_of_reachable (h : PipeCallsReachable s) : CountsOk s := by
  induction h with
  | refl => exact countsOk_init
  | tail _ st ih => exact ih.step st

end

theorem narrow_of_lt {rdx : BitVec 64} (h : rdx.toNat < 2 ^ 31) : narrow rdx = rdx.toNat := by
  unfold narrow
  rw [BitVec.toInt_eq_toNat_of_lt, BitVec.toNat_setWidth, Nat.mod_eq_of_lt (by omega)]
  rw [BitVec.toNat_setWidth, Nat.mod_eq_of_lt (by omega)]
  omega

theorem narrow_lt (rdx : BitVec 64) : narrow rdx < 2 ^ 31 := by
  unfold narrow
  exact BitVec.toInt_lt

/-- A count that fits into an `int` is reported truthfully under a number that is served. -/
theorem countTruthful_of_lt {c : SysCall} (h : c.rdx.toNat < 2 ^ 31) (hserved : c.Served) :
    CountTruthful c := by
  intro s t me ret hs st hcall hdone hout hlt
  have hok := countsOk_of_reachable hs
  rw [← narrow_of_lt h] at hlt
  cases st with
  | @syscall q _ _ _ hnone =>
    dsimp only at hdone
    by_cases hq : me = q
    · subst hq
      cases hnone.symm.trans hcall
    · rw [update_of_ne hq] at hdone
      cases hdone.symm.trans hcall
  | enter => cases hdone.symm.trans hcall
  | @refuse q _ c' k _ hcall' hend hbadf =>
    dsimp only at hdone
    by_cases hq : me = q
    · subst hq
      obtain rfl := Option.some.inj (hcall.symm.trans hcall')
      have hpipe := hserved.dispatch hend
      rw [hbadf] at hpipe
      cases hpipe
    · rw [update_of_ne hq] at hdone
      cases hdone.symm.trans hcall
  | @inside u hstep hloops hwait =>
    dsimp only at hdone hout
    split at hdone
    swap
    · cases hdone.symm.trans hcall
    next hend =>
      rw [Bool.and_eq_true, Pc.loops, Bool.or_eq_true, Option.isSome_iff_exists,
        Option.isSome_iff_exists] at hend
      rcases hend.1 with ⟨k, hk⟩ | ⟨k, hk⟩
      · obtain ⟨c', hcall', hread, rfl⟩ := hok.reads me k hk
        obtain rfl := Option.some.inj (hcall.symm.trans hcall')
        rw [if_pos hread]
        exact (hstep.returns_read hk hout).resolve_left (Int.not_le.mpr hlt)
      · obtain ⟨c', hcall', hwrite, rfl⟩ := hok.writes me k hk
        obtain rfl := Option.some.inj (hcall.symm.trans hcall')
        rw [if_neg (Bool.eq_false_iff.mp hwrite)]
        exact (hstep.returns_write hk hout).resolve_left (Int.not_le.mpr hlt)

/-! ## A writer and a reader side by side -/

/-- Process 1 has written `n` bytes in the call `w`, and process 2 has read `m` of them in the call
`r`.  Both hold both ends. -/
structure Relay (s : PipeCalls) (w r : SysCall) (n m : Nat) : Prop where
  writer : s.sys.pc 1 = .writing w.buf n (narrow w.rdx)
  reader : ∃ got : List Byte, got.length = m ∧ s.sys.pc 2 = .reading got (narrow r.rdx)
  writes : s.call 1 = some w
  reads : s.call 2 = some r
  held : s.sys.pipe.count + m = n
  readers : s.sys.pipe.readers = 2
  writers : s.sys.pipe.writers = 2
  noReader : s.sys.pipe.readWaiters = []
  noWriter : s.sys.pipe.writeWaiters = []

/-- A process in a loop goes on, or returns. -/
theorem PipeCallStep.of_loops {s : PipeCalls} {t : PipeSys} {me : Pid} {d : Pc}
    (st : PipeStep s.sys t) (hpc : t.pc = update s.sys.pc me d)
    (hin : (s.sys.pc me).loops = true) :
    ∃ call, PipeCallStep s ⟨t, call⟩ ∧ (∀ q, q ≠ me → call q = s.call q) ∧
      call me = if d.loops then s.call me else none := by
  refine ⟨_, .inside st (fun q hq => ?_) (fun q _ hq => ?_), fun q hq => ?_, ?_⟩
  · rw [hpc]
    by_cases hne : q = me
    · rw [hne, hin] at hq
      cases hq
    · rwa [update_of_ne hne]
  · rw [hpc]
    by_cases hne : q = me
    · rw [hne, hin] at hq
      cases hq
    · rw [update_of_ne hne]
  · rw [hpc, update_of_ne hq, Bool.and_not_self, if_neg Bool.false_ne_true]
  · rw [hpc, update_self, hin]
    cases d.loops <;> rfl

section

variable {s : PipeCalls} {w r : SysCall} {n : Nat}

/-- A byte goes into the empty pipe. -/
theorem Relay.put (h : Relay s w r n n) (hn : (n : Int) < narrow w.rdx) :
    ∃ t, PipeCallStep s t ∧ Relay t w r (n + 1) n := by
  have hreaders : s.sys.pipe.readers ≠ 0 := by simp [h.readers]
  have hheld := h.held
  have hroom : s.sys.pipe.count < pipeBufSize := by
    unfold pipeBufSize
    omega
  have hwrite := PipeStep.write (.inl h.writer)
  rw [writeLoop, if_pos hn, if_neg hreaders, if_pos hroom, writePut, h.noReader] at hwrite
  obtain ⟨call, hstep, hothers, hme⟩ := PipeCallStep.of_loops hwrite rfl (by rw [h.writer]; rfl)
  refine ⟨_, hstep, rfl, h.reader, hme.trans h.writes, (hothers 2 (by decide)).trans h.reads, ?_,
    h.readers, h.writers, h.noReader, h.noWriter⟩
  change s.sys.pipe.count + 1 + n = n + 1
  omega

/-- The byte comes out. -/
theorem Relay.take (h : Relay s w r (n + 1) n) (hn : (n : Int) < narrow r.rdx) :
    ∃ t, PipeCallStep s t ∧ Relay t w r (n + 1) (n + 1) := by
  obtain ⟨got, rfl, hpc⟩ := h.reader
  have hheld := h.held
  have hread := PipeStep.read (.inl hpc)
  rw [readLoop, if_pos hn, if_pos (by omega), readTake, h.noWriter] at hread
  obtain ⟨call, hstep, hothers, hme⟩ := PipeCallStep.of_loops hread rfl (by rw [hpc]; rfl)
  refine ⟨_, hstep, h.writer, ⟨_, List.length_append, rfl⟩,
    (hothers 1 (by decide)).trans h.writes, hme.trans h.reads, ?_, h.readers, h.writers, h.noReader,
    h.noWriter⟩
  change s.sys.pipe.count - 1 + (got.length + 1) = got.length + 1
  omega

/-- The reader has all that the narrowed count asks for, and returns. -/
theorem Relay.returns_reader (h : Relay s w r n n) (hn : narrow r.rdx ≤ n) :
    ∃ t, PipeCallStep s t ∧ t.call 2 = none ∧ t.sys.pc 2 = .out n := by
  obtain ⟨got, rfl, hpc⟩ := h.reader
  have hread := PipeStep.read (.inl hpc)
  rw [readLoop, if_neg (Int.not_lt.mpr hn)] at hread
  obtain ⟨call, hstep, -, hme⟩ := PipeCallStep.of_loops hread rfl (by rw [hpc]; rfl)
  exact ⟨_, hstep, hme, rfl⟩

/-- The writer has written all that the narrowed count asks for, and returns. -/
theorem Relay.returns_writer (h : Relay s w r n n) (hn : narrow w.rdx ≤ n) :
    ∃ t, PipeCallStep s t ∧ t.call 1 = none ∧ t.sys.pc 1 = .out n := by
  have hwrite := PipeStep.write (.inl h.writer)
  rw [writeLoop, if_neg (Int.not_lt.mpr hn)] at hwrite
  obtain ⟨call, hstep, -, hme⟩ := PipeCallStep.of_loops hwrite rfl (by rw [h.writer]; rfl)
  exact ⟨_, hstep, hme, rfl⟩

/-- A pipe and a fork: two read ends and two write ends. -/
def forked : PipeCalls :=
  ⟨{ PipeSys.init with pipe := { PipeSys.init.pipe with readers := 2, writers := 2 } },
    fun _ => none⟩

theorem forked_reachable : PipeCallsReachable forked := by
  have hstep : ∀ {s t}, PipeStep s t → t.pc = s.pc → (∀ q, (s.pc q).loops = false) →
      PipeCallStep ⟨s, fun _ => none⟩ ⟨t, fun _ => none⟩ := by
    intro s t st hpc hout
    have hinside := PipeCallStep.inside (s := ⟨s, fun _ => none⟩) st
      (fun q hq => hpc ▸ hq) (fun q hq => absurd rfl hq)
    simpa only [hout, Bool.false_and, Bool.false_eq_true, if_false] using hinside
  refine (Relation.ReflTransGen.single (hstep (.dupRead (by decide)) rfl fun _ => rfl)).tail ?_
  exact hstep (.dupWrite (by decide)) rfl fun _ => rfl

/-- A call begins, and comes to its loop. -/
theorem reachable_enter {me : Pid} {ret : Int} {c : SysCall} (hs : PipeCallsReachable s)
    (hout : s.sys.pc me = .out ret) (hnone : s.call me = none) (hserved : c.Served) :
    PipeCallsReachable ⟨s.sys.goto me c.start, update s.call me (some c)⟩ := by
  obtain ⟨k, hend⟩ := c.exists_holds
  have hcall := hs.tail (.syscall c hout hnone)
  exact hcall.tail (.enter hout (update_self _ _ _) hend (hserved.dispatch hend))

theorem relay_reachable (hw : w.isRead = false) (hr : r.isRead = true) (hws : w.Served)
    (hrs : r.Served) (hrdx : w.rdx = r.rdx) (hn : n ≤ (narrow r.rdx).toNat) :
    ∃ s, PipeCallsReachable s ∧ Relay s w r n n := by
  induction n with
  | zero =>
    have hwrite := @reachable_enter forked 1 0 w forked_reachable rfl rfl hws
    have hread := @reachable_enter _ 2 0 r hwrite rfl rfl hrs
    refine ⟨_, hread, ?_, ⟨[], rfl, ?_⟩, rfl, rfl, rfl, rfl, rfl, rfl, rfl⟩
    · show w.start = _
      rw [SysCall.start, hw, if_neg Bool.false_ne_true]
    · show r.start = _
      rw [SysCall.start, hr, if_pos rfl]
  | succ n ih =>
    obtain ⟨s, hs, hrelay⟩ := ih (Nat.le_of_succ_le hn)
    obtain ⟨t, hput, hmid⟩ := hrelay.put (by rw [hrdx]; omega)
    obtain ⟨u, htake, hnext⟩ := hmid.take (by omega)
    exact ⟨u, (hs.tail hput).tail htake, hnext⟩

end

/-- A number that is not served is refused with both ends open. -/
theorem served_of_countTruthful {c : SysCall} (h : CountTruthful c) : c.Served := by
  by_contra hserved
  obtain ⟨k, hend⟩ := c.exists_holds
  have hcall := forked_reachable.tail (@PipeCallStep.syscall forked 1 0 c rfl rfl)
  have hrefuse := @PipeCallStep.refuse ⟨forked.sys, update forked.call 1 (some c)⟩ 1 0 c k rfl rfl
    hend (SysCall.dispatch_badf hserved)
  have herror : -(Errno.ebadf.code : Int) < 0 := by decide
  have hshort := h _ _ 1 _ hcall hrefuse rfl rfl rfl (Int.lt_of_lt_of_le herror (by simp))
  split at hshort
  · cases hshort.2
  · cases hshort

/-- A count beyond an `int` is not reported truthfully. -/
theorem lt_of_countTruthful {c : SysCall} (h : CountTruthful c) : c.rdx.toNat < 2 ^ 31 := by
  have hserved := served_of_countTruthful h
  by_contra hge
  have hlt := narrow_lt c.rdx
  have hshort : ((narrow c.rdx).toNat : Int) < c.rdx.toNat := by omega
  cases hread : c.isRead with
  | true =>
    obtain ⟨s, hs, hrelay⟩ := relay_reachable (w := ⟨false, 3, fun _ => 0, c.rdx⟩) rfl hread
      (.inr (Nat.le_refl 3)) hserved rfl (Nat.le_refl _)
    obtain ⟨t, st, hdone, hout⟩ := hrelay.returns_reader (Int.self_le_toNat _)
    have hends := h s t 2 _ hs st hrelay.reads hdone hout hshort
    rw [if_pos hread, hrelay.writers] at hends
    cases hends.2
  | false =>
    obtain ⟨s, hs, hrelay⟩ := relay_reachable (r := ⟨true, 3, fun _ => 0, c.rdx⟩) hread rfl
      hserved (.inr (Nat.le_refl 3)) rfl (Nat.le_refl _)
    obtain ⟨t, st, hdone, hout⟩ := hrelay.returns_writer (Int.self_le_toNat _)
    have hends := h s t 1 _ hs st hrelay.writes hdone hout hshort
    rw [if_neg (Bool.eq_false_iff.mp hread), hrelay.readers] at hends
    cases hends

/-- `SYS_read` and `SYS_write` on a pipe report short counts truthfully exactly when the count is
an `int` and the number of the descriptor is one that is served. -/
theorem pipe_counts_truthful_iff (c : SysCall) :
    CountTruthful c ↔ c.rdx.toNat < 2 ^ 31 ∧ c.Served :=
  ⟨fun h => ⟨lt_of_countTruthful h, served_of_countTruthful h⟩,
    fun h => countTruthful_of_lt h.1 h.2⟩

/-- A read of `2 ^ 32` bytes from slot 3 returns 0 while a writer is there. -/
theorem zero_without_end_of_file :
    ∃ s t, PipeCallsReachable s ∧ PipeCallStep s t ∧
      s.call 1 = some ⟨true, 3, fun _ => 0, BitVec.ofNat 64 (2 ^ 32)⟩ ∧ t.call 1 = none ∧
      t.sys.pc 1 = .out 0 ∧ s.sys.pipe.writers = 1 ∧
      ¬CountTruthful ⟨true, 3, fun _ => 0, BitVec.ofNat 64 (2 ^ 32)⟩ := by
  have hread := @reachable_enter ⟨PipeSys.init, fun _ => none⟩ 1 0
    ⟨true, 3, fun _ => 0, BitVec.ofNat 64 (2 ^ 32)⟩ .refl rfl rfl (.inr (Nat.le_refl 3))
  have hloop := @PipeStep.read (PipeSys.init.goto 1 (.reading [] 0)) 1 [] 0 (.inl rfl)
  rw [readLoop, if_neg (by decide)] at hloop
  obtain ⟨call, hstep, -, hme⟩ := PipeCallStep.of_loops
    (s := ⟨PipeSys.init.goto 1 (.reading [] 0),
      update (fun _ => none) 1 (some ⟨true, 3, fun _ => 0, BitVec.ofNat 64 (2 ^ 32)⟩)⟩)
    hloop rfl rfl
  refine ⟨_, _, hread, hstep, rfl, hme, rfl, rfl, fun h => ?_⟩
  have hends := h _ _ 1 _ hread hstep rfl hme rfl (by decide)
  cases hends.2

end Aeryk
