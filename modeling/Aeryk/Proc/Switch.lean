import Mathlib.Logic.Function.Basic
import Mathlib.Tactic.Common

/-!
# Context switches

`switch_task` of `switch.asm`, instruction by instruction, over the registers it uses and memory in
words of eight bytes.  It leaves the flags and the callee-saved registers of the old process on its
kernel stack and the stack pointer in its `process_t`, and takes those of the next one from there.
`setup_kernel_stack` builds the same image for a process that has never run.

While one process runs, the others are parked: their image is on their stack, a page of its own.  A
run is any sequence of work by the current process, which keeps its hands off the others' stacks
and saved stack pointers, of new processes and of switches.  The flags `RF` and `VM` are never set
in kernel code.  Words are only moved, so they are not cut.
-/

namespace Aeryk.Switch

open Function

/-! ## The machine -/

/-- The registers that `switch_task` names. -/
inductive Reg where
  | rax | rbx | rbp | rdi | rsi | rsp | r12 | r13 | r14 | r15
deriving DecidableEq

/-- The processor and memory, by the addresses of words. -/
structure Machine where
  reg : Reg → Nat
  rflags : Nat
  rip : Nat
  cr3 : Nat
  mem : Nat → Nat

/-- The instructions that `switch_task` uses. -/
inductive Instr where
  | pushfq
  | popfq
  | push (src : Reg)
  | pop (dst : Reg)
  /-- `mov [base + offset], src`. -/
  | store (base : Reg) (offset : Nat) (src : Reg)
  /-- `mov dst, [base + offset]`. -/
  | load (dst base : Reg) (offset : Nat)
  /-- `mov cr3, src`. -/
  | movCr3 (src : Reg)
  | ret

namespace Machine

def set (m : Machine) (r : Reg) (v : Nat) : Machine := { m with reg := update m.reg r v }

def put (m : Machine) (a v : Nat) : Machine := { m with mem := update m.mem a v }

def pushWord (m : Machine) (v : Nat) : Machine :=
  (m.put (m.reg .rsp - 8) v).set .rsp (m.reg .rsp - 8)

def top (m : Machine) : Nat := m.mem (m.reg .rsp)

def drop (m : Machine) : Machine := m.set .rsp (m.reg .rsp + 8)

def exec (m : Machine) : Instr → Machine
  | .pushfq => m.pushWord m.rflags
  | .popfq => { m.drop with rflags := m.top }
  | .push src => m.pushWord (m.reg src)
  | .pop dst => m.drop.set dst m.top
  | .store base offset src => m.put (m.reg base + offset) (m.reg src)
  | .load dst base offset => m.set dst (m.mem (m.reg base + offset))
  | .movCr3 src => { m with cr3 := m.reg src }
  | .ret => { m.drop with rip := m.top }

def run (m : Machine) (code : List Instr) : Machine := code.foldl exec m

end Machine

/-- `switch_task` up to the change of stacks. -/
def saveContext : List Instr :=
  [.pushfq, .push .rbx, .push .rbp, .push .r12, .push .r13, .push .r14, .push .r15,
    .store .rdi 8 .rsp]

/-- `switch_task` from there on. -/
def restoreContext : List Instr :=
  [.load .rsp .rsi 8, .load .rax .rsi 16, .movCr3 .rax,
    .pop .r15, .pop .r14, .pop .r13, .pop .r12, .pop .rbp, .pop .rbx, .popfq, .ret]

def switchTask : List Instr := saveContext ++ restoreContext

/-- A call of `switch_task` that returns to `ret`, with the addresses of two `process_t`. -/
def callSwitchTask (m : Machine) (ret prev next : Nat) : Machine :=
  (((m.set .rdi prev).set .rsi next).pushWord ret).run switchTask

def pageSize : Nat := 4096

/-- `*(--stack) = v` for each value in turn. -/
def pushAll (mem : Nat → Nat) (stack : Nat) : List Nat → (Nat → Nat) × Nat
  | [] => (mem, stack)
  | v :: vs => pushAll (update mem (stack - 8) v) (stack - 8) vs

/-- `setup_kernel_stack`, with the stack pointer it returns. -/
def setupKernelStack (mem : Nat → Nat) (kernelStackBase stub : Nat) : (Nat → Nat) × Nat :=
  pushAll mem (kernelStackBase + pageSize) [stub, 0x202, 0, 0, 0, 0, 0, 0]

/-! ## Contexts -/

/-- What a process gets back when it is resumed. -/
structure Context where
  rbx : Nat
  rbp : Nat
  r12 : Nat
  r13 : Nat
  r14 : Nat
  r15 : Nat
  rflags : Nat
  rsp : Nat
  rip : Nat

def Machine.context (m : Machine) : Context where
  rbx := m.reg .rbx
  rbp := m.reg .rbp
  r12 := m.reg .r12
  r13 := m.reg .r13
  r14 := m.reg .r14
  r15 := m.reg .r15
  rflags := m.rflags
  rsp := m.reg .rsp
  rip := m.rip

/-- The context in which a call of `switch_task` is to return. -/
def Machine.returning (m : Machine) (ret : Nat) : Context := { m.context with rip := ret }

/-- The context of a process that `setup_kernel_stack` has prepared. -/
def Context.prepared (kernelStackBase stub : Nat) : Context :=
  ⟨0, 0, 0, 0, 0, 0, 0x202, kernelStackBase + pageSize, stub⟩

/-- The image of a context on a stack, as `switch_task` leaves and expects it. -/
structure Image (mem : Nat → Nat) (t : Nat) (c : Context) : Prop where
  r15 : mem t = c.r15
  r14 : mem (t + 8) = c.r14
  r13 : mem (t + 16) = c.r13
  r12 : mem (t + 24) = c.r12
  rbp : mem (t + 32) = c.rbp
  rbx : mem (t + 40) = c.rbx
  rflags : mem (t + 48) = c.rflags
  rip : mem (t + 56) = c.rip
  rsp : c.rsp = t + 64

theorem Image.congr {mem mem' : Nat → Nat} {t : Nat} {c : Context} (h : Image mem t c)
    (hsame : ∀ a, t ≤ a → a < t + 64 → mem' a = mem a) : Image mem' t c where
  r15 := (hsame _ (by omega) (by omega)).trans h.r15
  r14 := (hsame _ (by omega) (by omega)).trans h.r14
  r13 := (hsame _ (by omega) (by omega)).trans h.r13
  r12 := (hsame _ (by omega) (by omega)).trans h.r12
  rbp := (hsame _ (by omega) (by omega)).trans h.rbp
  rbx := (hsame _ (by omega) (by omega)).trans h.rbx
  rflags := (hsame _ (by omega) (by omega)).trans h.rflags
  rip := (hsame _ (by omega) (by omega)).trans h.rip
  rsp := h.rsp

/-! ## Pushes -/

theorem pushAll_other {mem : Nat → Nat} {s a : Nat} {vs : List Nat} (hroom : 8 * vs.length ≤ s)
    (h : a < s - 8 * vs.length ∨ s ≤ a) : (pushAll mem s vs).1 a = mem a := by
  induction vs generalizing mem s with
  | nil => rfl
  | cons v vs ih =>
    rw [List.length_cons] at hroom h
    rw [pushAll, ih (by omega) (by omega), update_of_ne (by omega)]

theorem pushAll_get {mem : Nat → Nat} {s i : Nat} {vs : List Nat} (hroom : 8 * vs.length ≤ s)
    (hi : i < vs.length) : (pushAll mem s vs).1 (s - 8 * (i + 1)) = vs[i] := by
  induction vs generalizing mem s i with
  | nil => exact absurd hi (Nat.not_lt_zero i)
  | cons v vs ih =>
    rw [List.length_cons] at hroom hi
    rw [pushAll]
    cases i with
    | zero =>
      rw [pushAll_other (by omega) (by omega)]
      exact update_self _ _ _
    | succ i =>
      have hnext := @ih (update mem (s - 8) v) (s - 8) i (by omega) (by omega)
      rw [show s - 8 - 8 * (i + 1) = s - 8 * (i + 1 + 1) by omega] at hnext
      rw [hnext, List.getElem_cons_succ]

/-- The words of a context in the order in which they are pushed. -/
def Context.words (c : Context) : List Nat :=
  [c.rip, c.rflags, c.rbx, c.rbp, c.r12, c.r13, c.r14, c.r15]

/-- Pushes in this order make the image. -/
theorem Context.image (c : Context) (mem : Nat → Nat) (hroom : 64 ≤ c.rsp) :
    Image (pushAll mem c.rsp c.words).1 (c.rsp - 64) c := by
  have hword : ∀ i, (hi : i < 8) → ∀ a, a + 8 * (i + 1) = c.rsp →
      (pushAll mem c.rsp c.words).1 a = c.words.get ⟨i, hi⟩ := by
    intro i hi a ha
    have hget := @pushAll_get mem c.rsp i c.words hroom hi
    rw [show c.rsp - 8 * (i + 1) = a by omega] at hget
    exact hget
  exact
    { r15 := hword 7 (by decide) _ (by omega)
      r14 := hword 6 (by decide) _ (by omega)
      r13 := hword 5 (by decide) _ (by omega)
      r12 := hword 4 (by decide) _ (by omega)
      rbp := hword 3 (by decide) _ (by omega)
      rbx := hword 2 (by decide) _ (by omega)
      rflags := hword 1 (by decide) _ (by omega)
      rip := hword 0 (by decide) _ (by omega)
      rsp := by omega }

/-- `setup_kernel_stack` leaves the image of a prepared process, and writes its page only. -/
theorem setupKernelStack_spec (mem : Nat → Nat) (base stub : Nat) :
    Image (setupKernelStack mem base stub).1 (base + pageSize - 64) (.prepared base stub) ∧
      (setupKernelStack mem base stub).2 = base + pageSize - 64 ∧
      ∀ a, a < base ∨ base + pageSize ≤ a → (setupKernelStack mem base stub).1 a = mem a := by
  have hpage : pageSize = 4096 := rfl
  refine ⟨?_, ?_, fun a ha => ?_⟩
  · exact Context.image (.prepared base stub) mem (by dsimp only [Context.prepared]; omega)
  · simp only [setupKernelStack, pushAll]
    omega
  · exact pushAll_other (by simp only [List.length_cons, List.length_nil]; omega)
      (by simp only [List.length_cons, List.length_nil]; omega)

/-! ## The two halves -/

variable {m : Machine} {c : Context}

/-- The first half pushes the context and leaves the stack pointer in the `process_t`. -/
theorem run_saveContext (m : Machine) (ret prev next : Nat) :
    let m' := (((m.set .rdi prev).set .rsi next).pushWord ret).run saveContext
    m'.mem = update (pushAll m.mem (m.reg .rsp) (m.returning ret).words).1 (prev + 8)
        (pushAll m.mem (m.reg .rsp) (m.returning ret).words).2 ∧
      m'.reg .rsi = next := by
  constructor
  · rfl
  · rfl

/-- The second half takes a context from the stack it finds. -/
theorem run_restoreContext {t : Nat} (ht : m.mem (m.reg .rsi + 8) = t) (h : Image m.mem t c) :
    (m.run restoreContext).context = c ∧
      (m.run restoreContext).cr3 = m.mem (m.reg .rsi + 16) ∧
      (m.run restoreContext).mem = m.mem := by
  subst ht
  obtain ⟨h15, h14, h13, h12, hbp, hbx, hflags, hrip, hrsp⟩ := h
  have hpopped : (m.run restoreContext).context =
      ⟨m.mem (m.mem (m.reg .rsi + 8) + 40), m.mem (m.mem (m.reg .rsi + 8) + 32),
        m.mem (m.mem (m.reg .rsi + 8) + 24), m.mem (m.mem (m.reg .rsi + 8) + 16),
        m.mem (m.mem (m.reg .rsi + 8) + 8), m.mem (m.mem (m.reg .rsi + 8)),
        m.mem (m.mem (m.reg .rsi + 8) + 48), m.mem (m.reg .rsi + 8) + 64,
        m.mem (m.mem (m.reg .rsi + 8) + 56)⟩ := rfl
  refine ⟨?_, rfl, rfl⟩
  rw [hpopped, h15, h14, h13, h12, hbp, hbx, hflags, hrip, ← hrsp]

/-! ## Processes -/

/-- Where the `process_t` and the kernel stack of every process are. -/
structure Layout (ι : Type) where
  proc : ι → Nat
  stack : ι → Nat
  /-- Kernel stacks are apart. -/
  stackApart : ∀ p q, p ≠ q → stack p + pageSize ≤ stack q ∨ stack q + pageSize ≤ stack p
  /-- The first three words of the `process_t` records are apart. -/
  procs : ∀ p q, p ≠ q → proc p + 24 ≤ proc q ∨ proc q + 24 ≤ proc p
  /-- No record is on a kernel stack. -/
  recordApart : ∀ p q, proc p + 24 ≤ stack q ∨ stack q + pageSize ≤ proc p

variable {ι : Type} [DecidableEq ι]

/-- The words left alone while a process is parked: its stack and its saved stack pointer. -/
def Layout.Own (L : Layout ι) (p : ι) (a : Nat) : Prop :=
  (L.stack p ≤ a ∧ a < L.stack p + pageSize) ∨ a = L.proc p + 8

inductive Left where
  /-- It was switched out in a context. -/
  | parked (c : Context)
  /-- `setup_kernel_stack` has prepared it to start at a stub. -/
  | prepared (stub : Nat)

/-- The context in which a process that was left so is to be resumed. -/
def Layout.context (L : Layout ι) (p : ι) : Left → Context
  | .parked c => c
  | .prepared stub => .prepared (L.stack p) stub

/-- A process is prepared: its stack, and the stack pointer and address space in its
`process_t`. -/
def Layout.prepare (L : Layout ι) (m : Machine) (p : ι) (stub cr3 : Nat) : Machine :=
  let stack := setupKernelStack m.mem (L.stack p) stub
  ({ m with mem := stack.1 }.put (L.proc p + 8) stack.2).put (L.proc p + 16) cr3

/-- The machine, the current process, and how the others were left. -/
structure State (ι : Type) where
  machine : Machine
  current : ι
  left : ι → Option Left

inductive Step (L : Layout ι) : State ι → State ι → Prop where
  /-- The current process runs, and keeps off what belongs to the others. -/
  | work {s : State ι} {m : Machine}
    (hown : ∀ q, q ≠ s.current → ∀ a, L.Own q a → m.mem a = s.machine.mem a) :
    Step L s { s with machine := m }
  /-- A process is made, with a prepared stack and an address space. -/
  | create {s : State ι} {p : ι} {stub cr3 : Nat} (hnew : s.left p = none) (hne : p ≠ s.current) :
    Step L s
      { s with
        machine := L.prepare s.machine p stub cr3
        left := update s.left p (some (.prepared stub)) }
  /-- The current process calls `switch_task`, with room on its stack. -/
  | switch {s : State ι} {next : ι} {ret : Nat} (hnext : next = s.current ∨ s.left next ≠ none)
    (hlow : L.stack s.current + 64 ≤ s.machine.reg .rsp)
    (hhigh : s.machine.reg .rsp ≤ L.stack s.current + pageSize) :
    Step L s
      { machine := callSwitchTask s.machine ret (L.proc s.current) (L.proc next)
        current := next
        left := update s.left s.current (some (.parked (s.machine.returning ret))) }

/-- The states of runs that start with one process. -/
inductive Reachable (L : Layout ι) : State ι → Prop where
  | start (m : Machine) (p : ι) : Reachable L ⟨m, p, fun _ => none⟩
  | step {s s' : State ι} (h : Reachable L s) (hs : Step L s s') : Reachable L s'

/-- The context of a parked process is on its stack, where its `process_t` says. -/
def Saved (L : Layout ι) (mem : Nat → Nat) (p : ι) (c : Context) : Prop :=
  L.stack p ≤ mem (L.proc p + 8) ∧ mem (L.proc p + 8) + 64 ≤ L.stack p + pageSize ∧
    Image mem (mem (L.proc p + 8)) c

/-- Every process but the current one can be resumed as it was left. -/
def Parked (L : Layout ι) (s : State ι) : Prop :=
  ∀ p, p ≠ s.current → ∀ l, s.left p = some l → Saved L s.machine.mem p (L.context p l)

variable {L : Layout ι} {s s' : State ι}

omit [DecidableEq ι] in
theorem Saved.congr {mem mem' : Nat → Nat} {p : ι} (h : Saved L mem p c)
    (hsame : ∀ a, L.Own p a → mem' a = mem a) : Saved L mem' p c := by
  obtain ⟨hlow, hhigh, himage⟩ := h
  have hrsp : mem' (L.proc p + 8) = mem (L.proc p + 8) := hsame _ (.inr rfl)
  unfold Saved
  rw [hrsp]
  refine ⟨hlow, hhigh, himage.congr fun a hge hlt => hsame a (.inl ?_)⟩
  omega

omit [DecidableEq ι] in
/-- A word of one process is none of another's. -/
theorem Layout.Own.ne {p q : ι} {a : Nat} (h : L.Own q a) (hne : q ≠ p) :
    ¬(L.stack p ≤ a ∧ a < L.stack p + pageSize) ∧ a ≠ L.proc p + 8 ∧ a ≠ L.proc p + 16 := by
  have hstacks := L.stackApart q p hne
  have hprocs := L.procs q p hne
  have hqp := L.recordApart q p
  have hpq := L.recordApart p q
  rcases h with ⟨hge, hlt⟩ | rfl
  · omega
  · omega

/-! ## A switch -/

/-- The memory after the first half of a switch away from `p`. -/
def savedMem (L : Layout ι) (m : Machine) (ret : Nat) (p : ι) : Nat → Nat :=
  update (pushAll m.mem (m.reg .rsp) (m.returning ret).words).1 (L.proc p + 8)
    (pushAll m.mem (m.reg .rsp) (m.returning ret).words).2

omit [DecidableEq ι] in
/-- The context is on the stack, and only the stack and the saved stack pointer have changed. -/
theorem savedMem_spec {m : Machine} {p : ι} (ret : Nat) (hlow : L.stack p + 64 ≤ m.reg .rsp)
    (hhigh : m.reg .rsp ≤ L.stack p + pageSize) :
    Saved L (savedMem L m ret p) p (m.returning ret) ∧
      ∀ a, ¬L.Own p a → savedMem L m ret p a = m.mem a := by
  have hroom : 64 ≤ m.reg .rsp := by omega
  have hrecord := L.recordApart p p
  have hrsp : savedMem L m ret p (L.proc p + 8) = m.reg .rsp - 64 := by
    unfold savedMem
    rw [update_self]
    simp only [Context.words, pushAll]
    omega
  constructor
  · unfold Saved
    rw [hrsp]
    refine ⟨by omega, by omega, ?_⟩
    have himage := (m.returning ret).image m.mem hroom
    refine himage.congr fun a hge hlt => ?_
    have hsp : (m.returning ret).rsp = m.reg .rsp := rfl
    exact update_of_ne (by omega) _ _
  · intro a ha
    unfold Layout.Own at ha
    unfold savedMem
    rw [update_of_ne (by omega)]
    exact pushAll_other hroom (by
      have hlen : (m.returning ret).words.length = 8 := rfl
      omega)

omit [DecidableEq ι] in
/-- A switch resumes what is saved for the next process. -/
theorem callSwitchTask_spec {m : Machine} {p q : ι} {ret : Nat}
    (h : Saved L (savedMem L m ret p) q c) :
    (callSwitchTask m ret (L.proc p) (L.proc q)).context = c ∧
      (callSwitchTask m ret (L.proc p) (L.proc q)).cr3 = savedMem L m ret p (L.proc q + 16) ∧
      (callSwitchTask m ret (L.proc p) (L.proc q)).mem = savedMem L m ret p := by
  obtain ⟨hmem, hrsi⟩ := run_saveContext m ret (L.proc p) (L.proc q)
  have hsplit : callSwitchTask m ret (L.proc p) (L.proc q) =
      ((((m.set .rdi (L.proc p)).set .rsi (L.proc q)).pushWord ret).run saveContext).run
        restoreContext := List.foldl_append
  rw [hsplit]
  generalize (((m.set .rdi (L.proc p)).set .rsi (L.proc q)).pushWord ret).run saveContext = m₁ at *
  have hsaved : m₁.mem = savedMem L m ret p := hmem
  obtain ⟨-, -, himage⟩ := h
  rw [← hsaved] at himage ⊢
  rw [← hrsi] at himage ⊢
  exact run_restoreContext rfl himage

/-- What a switch resumes, from a state in which all others are parked. -/
theorem Parked.switch (h : Parked L s) {next : ι} {ret : Nat}
    (hnext : next = s.current ∨ s.left next ≠ none)
    (hlow : L.stack s.current + 64 ≤ s.machine.reg .rsp)
    (hhigh : s.machine.reg .rsp ≤ L.stack s.current + pageSize) :
    ∃ l, update s.left s.current (some (.parked (s.machine.returning ret))) next = some l ∧
      Saved L (savedMem L s.machine ret s.current) next (L.context next l) := by
  obtain ⟨hself, hother⟩ := savedMem_spec ret hlow hhigh
  by_cases heq : next = s.current
  · subst heq
    exact ⟨_, update_self _ _ _, hself⟩
  · obtain ⟨l, hl⟩ := Option.ne_none_iff_exists'.mp (hnext.resolve_left heq)
    refine ⟨l, by rw [update_of_ne heq, hl], ?_⟩
    refine (h next heq l hl).congr fun a ha => hother a fun hown => ?_
    obtain ⟨hstack, hproc, -⟩ := ha.ne heq
    exact hown.elim hstack hproc

omit [DecidableEq ι] in
/-- A prepared process can be resumed, and nothing else has changed but its `cr3`. -/
theorem prepare_spec (m : Machine) (p : ι) (stub cr3 : Nat) :
    Saved L (L.prepare m p stub cr3).mem p (.prepared (L.stack p) stub) ∧
      ∀ a, ¬L.Own p a → a ≠ L.proc p + 16 → (L.prepare m p stub cr3).mem a = m.mem a := by
  obtain ⟨himage, hrsp, hrest⟩ := setupKernelStack_spec m.mem (L.stack p) stub
  have hpage : pageSize = 4096 := rfl
  have hrecord := L.recordApart p p
  have hmem : (L.prepare m p stub cr3).mem =
      update (update (setupKernelStack m.mem (L.stack p) stub).1 (L.proc p + 8)
        (L.stack p + pageSize - 64)) (L.proc p + 16) cr3 := by
    rw [← hrsp]
    rfl
  have hword : (L.prepare m p stub cr3).mem (L.proc p + 8) = L.stack p + pageSize - 64 := by
    rw [hmem, update_of_ne (by omega), update_self]
  constructor
  · unfold Saved
    rw [hword]
    refine ⟨by omega, by omega, himage.congr fun a hge hlt => ?_⟩
    rw [hmem, update_of_ne (by omega), update_of_ne (by omega)]
  · intro a hown hcr3
    unfold Layout.Own at hown
    rw [hmem, update_of_ne hcr3, update_of_ne (by omega), hrest a (by omega)]

/-- Every step keeps the others ready to be resumed. -/
theorem Parked.step (h : Parked L s) (hs : Step L s s') : Parked L s' := by
  cases hs with
  | work hown =>
    intro p hp l hl
    exact (h p hp l hl).congr (hown p hp)
  | @create p stub cr3 hnew hne =>
    intro q hq l hl
    obtain ⟨hself, hother⟩ := prepare_spec (L := L) s.machine p stub cr3
    dsimp only at hl
    by_cases heq : q = p
    · subst heq
      rw [update_self] at hl
      cases hl
      exact hself
    · rw [update_of_ne heq] at hl
      refine (h q hq l hl).congr fun a ha => ?_
      obtain ⟨hstack, hproc, hcr3⟩ := ha.ne heq
      exact hother a (fun hown => hown.elim hstack hproc) hcr3
  | @switch next ret hnext hlow hhigh =>
    obtain ⟨hself, hother⟩ := savedMem_spec ret hlow hhigh
    obtain ⟨l₁, -, hresumed⟩ := h.switch hnext hlow hhigh
    obtain ⟨-, -, hmem⟩ := callSwitchTask_spec hresumed
    intro q hq l hl
    show Saved L (callSwitchTask s.machine ret (L.proc s.current) (L.proc next)).mem q _
    rw [hmem]
    obtain ⟨l', hl', hsaved⟩ := @Parked.switch ι _ L s h q ret (by
      by_cases heq : q = s.current
      · exact .inl heq
      · refine .inr fun hnone => ?_
        have hl : update s.left s.current _ q = some l := hl
        rw [update_of_ne heq, hnone] at hl
        cases hl) hlow hhigh
    have hsame : l' = l := Option.some.inj (hl'.symm.trans hl)
    exact hsame ▸ hsaved

theorem Reachable.parked (h : Reachable L s) : Parked L s := by
  induction h with
  | start m p =>
    intro q _ l hl
    cases hl
  | step _ hs ih => exact ih.step hs

/-- Whenever a switch resumes a process, the processor is in the context and in the address space
in which the process was left. -/
theorem switch_preserves_contexts {ι : Type} [DecidableEq ι] (L : Layout ι) {s : State ι}
    (h : Reachable L s) {next : ι} {ret : Nat} (hnext : next = s.current ∨ s.left next ≠ none)
    (hlow : L.stack s.current + 64 ≤ s.machine.reg .rsp)
    (hhigh : s.machine.reg .rsp ≤ L.stack s.current + pageSize) :
    let resumed := callSwitchTask s.machine ret (L.proc s.current) (L.proc next)
    (next = s.current → resumed.context = s.machine.returning ret) ∧
      (∀ c, next ≠ s.current → s.left next = some (.parked c) → resumed.context = c) ∧
      (∀ stub, next ≠ s.current → s.left next = some (.prepared stub) →
        resumed.context = ⟨0, 0, 0, 0, 0, 0, 0x202, L.stack next + pageSize, stub⟩) ∧
      resumed.cr3 = s.machine.mem (L.proc next + 16) := by
  obtain ⟨l, hl, hsaved⟩ := @Parked.switch ι _ L s h.parked next ret hnext hlow hhigh
  obtain ⟨hcontext, hcr3, -⟩ := callSwitchTask_spec hsaved
  refine ⟨?_, ?_, ?_, ?_⟩
  · rintro rfl
    rw [update_self] at hl
    cases hl
    exact hcontext
  · intro c hne hleft
    rw [update_of_ne hne, hleft] at hl
    cases hl
    exact hcontext
  · intro stub hne hleft
    rw [update_of_ne hne, hleft] at hl
    cases hl
    exact hcontext
  · refine hcr3.trans ((savedMem_spec ret hlow hhigh).2 _ fun hown => ?_)
    have hrecord := L.recordApart next s.current
    have hself := L.recordApart s.current s.current
    rcases hown with hstack | hproc
    · omega
    · by_cases heq : next = s.current
      · subst heq
        omega
      · have hprocs := L.procs next s.current heq
        omega

/-! ## Two processes -/

/-- Two records at the bottom and two stacks above them. -/
def twoProcesses : Layout Bool where
  proc p := if p then 24 else 0
  stack p := if p then 2 * pageSize else pageSize
  stackApart := by decide
  procs := by decide
  recordApart := by decide

/-- A process starts at its stub when the first one switches to it. -/
theorem switch_preserves_contexts_twoProcesses :
    let m : Machine := ⟨fun _ => 2 * pageSize, 0x246, 0, 0, fun _ => 0⟩
    let s : State Bool :=
      { machine := twoProcesses.prepare m true 0x1000 0x5000
        current := false
        left := update (fun _ => none) true (some (.prepared 0x1000)) }
    Reachable twoProcesses s ∧
      (callSwitchTask s.machine 0x77 0 24).context =
        ⟨0, 0, 0, 0, 0, 0, 0x202, 3 * pageSize, 0x1000⟩ ∧
      (callSwitchTask s.machine 0x77 0 24).cr3 = 0x5000 := by
  intro m s
  have hreach : Reachable twoProcesses s :=
    .step (.start m false) (.create rfl (by decide))
  have hprepared : s.left true = some (.prepared 0x1000) := rfl
  have hresume := @switch_preserves_contexts Bool _ twoProcesses s hreach true 0x77
    (.inr (by rw [hprepared]; exact Option.some_ne_none _)) (by decide) (by decide)
  exact ⟨hreach, hresume.2.2.1 0x1000 (by decide) rfl, hresume.2.2.2⟩

end Aeryk.Switch
