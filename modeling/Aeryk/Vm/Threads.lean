import Aeryk.Lib.Guarded
import Aeryk.Vm.Failing
import Aeryk.Vm.Ranges

/-!
# Processes that share address spaces

Any number of processes call `SYS_mmap`, `SYS_munmap`, `SYS_fbmap` and `clone` with `CLONE_VM`,
exit or are killed at a fault.  A process made by such a `clone` has the `cr3` of its parent and a
copy of its `mmap_next`, so an address space may be used by several processes, each with a bump
pointer of its own, and the lock of the frame buffer names one of them.

A dead process stays until it is reaped, and makes no calls.  Of `vm_refcount` it is enough here to
know whether there is one.
-/

namespace Aeryk.Vm

open Lib Mem Mem.Pmm Memory

/-- The calls of `clone_process` with `CLONE_VM` that take and give back page frames.  `counted`
says whether the parent has a `vm_refcount`, and `roomCounter` and `room` whether a slab has room
for it and for the `process_t`.  The answers are whether it has one now, and the page of the kernel
stack. -/
def Memory.cloneVmCalls (m : Memory) (counted roomCounter room : Bool) :
    Memory × Bool × Option Nat :=
  match if counted then (m, some none) else m.kmallocPage roomCounter with
  | (m, none) => (m, false, none)
  | (m, some _) =>
    match m.kmallocPage room with
    | (m, none) => (m, true, none)
    | (m, some slab) =>
      if m.alloc.2 = 0 then (m.alloc.1.kfreePage slab, true, none)
      else (m.alloc.1, true, some m.alloc.2)

/-- `fbmap_release_owner`. -/
def FbOwner.release (o : FbOwner) (pid : Nat) : FbOwner :=
  if o.has ∧ o.pid = pid then { o with has := false } else o

structure Thread where
  task : Task
  /-- `vm_refcount` is not `NULL`. -/
  counted : Bool
  /-- `state` is `PROCESS_DEAD`. -/
  dead : Bool
deriving DecidableEq

/-- The memory, the processes by pid, `next_pid` and the lock of the frame buffer. -/
structure Machine where
  mem : Memory
  threads : Nat → Option Thread
  nextPid : Nat
  owner : FbOwner

/-- What the process `pid` does, with the answers of the layers below. -/
inductive Op where
  | mmap (pid length prot flags : Nat) (fd : Int)
  | munmap (pid addr length : Nat)
  | fbmap (pid : Nat) (copied : Bool)
  | clone (pid : Nat) (roomCounter room : Bool)
  | exit (pid : Nat)
  /-- `isr_handler` kills the process. -/
  | kill (pid : Nat)

def Op.pid : Op → Nat
  | mmap pid _ _ _ _ => pid
  | munmap pid _ _ => pid
  | fbmap pid _ => pid
  | clone pid _ _ => pid
  | exit pid => pid
  | kill pid => pid

namespace Machine

def live (s : Machine) (pid : Nat) : Option Thread := (s.threads pid).filter fun t => !t.dead

def put (s : Machine) (pid : Nat) (t : Thread) : Machine :=
  { s with threads := Function.update s.threads pid (some t) }

/-- `clone_process` with `CLONE_VM`, and the value of `SYS_clone`. -/
def cloneVm (s : Machine) (pid : Nat) (t : Thread) (roomCounter room : Bool) : Machine × Nat :=
  match s.mem.cloneVmCalls t.counted roomCounter room with
  | (m, counted, none) => ({ s with mem := m }.put pid { t with counted }, errno enomem)
  | (m, _, some stack) =>
    let child : Thread :=
      { task := { t.task with pid := s.nextPid, kernelStack := stack / pageSize }
        counted := true
        dead := false }
    ({ ({ s with mem := m }.put pid { t with counted := true }).put s.nextPid child with
        nextPid := s.nextPid + 1 }, s.nextPid)

/-- `SYS_exit`, and the end of a process that `isr_handler` kills. -/
def die (s : Machine) (pid : Nat) (t : Thread) : Machine :=
  { s with owner := s.owner.release t.task.pid }.put pid { t with dead := true }

/-- One action, and the value left in `rax`. -/
def step (fb : FrameBuffer) (s : Machine) (op : Op) : Machine × Nat :=
  match s.live op.pid with
  | none => (s, 0)
  | some t =>
    match op with
    | .mmap pid length prot flags fd =>
      let o := sysMmap s.mem t.task length prot flags fd
      ({ s with mem := o.1 }.put pid { t with task := o.2.1 }, o.2.2)
    | .munmap _ addr length =>
      let o := sysMunmap s.mem t.task addr length
      ({ s with mem := o.1 }, o.2)
    | .fbmap pid copied =>
      let o := sysFbmap s.mem t.task s.owner fb copied
      ({ s with mem := o.1, owner := o.2.2.1 }.put pid { t with task := o.2.1 }, o.2.2.2)
    | .clone pid roomCounter room => s.cloneVm pid t roomCounter room
    | .exit pid => (s.die pid t, 0)
    | .kill pid => (s.die pid t, 0)

def run (fb : FrameBuffer) (s : Machine) (ops : List Op) : Machine :=
  ops.foldl (fun s op => (step fb s op).1) s

end Machine

section

variable {m m' : Memory} {res : Nat → Bool} {R : Finset Nat} {K : Nat → Nat}
  {fb : FrameBuffer} {s s' : Machine} {op : Op} {pid pid' : Nat} {t t' : Thread}

namespace Machine

theorem live_eq_some : s.live pid = some t ↔ s.threads pid = some t ∧ t.dead = false := by
  unfold live
  rw [Option.filter_eq_some_iff, Bool.not_eq_true']

@[simp] theorem put_mem : (s.put pid t).mem = s.mem := rfl

@[simp] theorem put_owner : (s.put pid t).owner = s.owner := rfl

@[simp] theorem put_nextPid : (s.put pid t).nextPid = s.nextPid := rfl

theorem put_threads :
    (s.put pid t).threads pid' = if pid' = pid then some t else s.threads pid' := by
  unfold put
  dsimp only
  rw [Function.update_apply]

theorem put_self (h : s.threads pid = some t) : s.put pid t = s := by
  unfold put
  rw [← h, Function.update_eq_self]

/-! ## What a step does -/

/-- The frames are accounted for, and processes have address spaces and pids. -/
structure Ok (res : Nat → Bool) (R : Finset Nat) (s : Machine) : Prop where
  sound : Sound s.mem res R
  space : ∀ pid t, s.threads pid = some t → t.task.cr3 ∈ R
  pid : ∀ pid t, s.threads pid = some t → t.task.pid = pid ∧ pid < s.nextPid

/-- The call is refused, or its range lies in the user half. -/
def InHalf (fb : FrameBuffer) (s : Machine) (op : Op) : Prop :=
  ∀ t, s.live op.pid = some t →
    match op with
    | .mmap _ length _ _ _ => t.task.mmapNext / pageSize + pagesOf length ≤ userPages
    | .munmap _ addr length => addr < mmapBase ∨ addr / pageSize + pagesOf length ≤ userPages
    | .fbmap _ _ => t.task.mmapNext / pageSize + pagesOf fb.size ≤ userPages
    | _ => True

/-- `mmap_next` moved by `n` pages. -/
def bump (t : Task) (n : Nat) : Task := { t with mmapNext := (t.mmapNext + n * pageSize) % 2 ^ 64 }

/-- The outcomes of a step, and the value left in `rax`. -/
inductive Outcome (R : Finset Nat) (fb : FrameBuffer) (s : Machine) : Op → Machine → Nat → Prop
  /-- There is no such process, or the call is refused. -/
  | idle {op : Op} {rax : Nat} : Outcome R fb s op s rax
  | mapped {pid length prot flags : Nat} {fd : Int} {t : Thread} {m' : Memory} {task : Task}
    {rax : Nat} : s.live pid = some t →
    Touched R s.mem m' t.task.cr3 (pageRange t.task.mmapNext (pagesOf length))
      (isSet · pteNopmm = false) →
    (task = t.task ∧ 2 ^ 63 ≤ rax ∨ task = bump t.task (pagesOf length)) →
    Outcome R fb s (.mmap pid length prot flags fd)
      ({ s with mem := m' }.put pid { t with task }) rax
  | unmapped {pid addr length : Nat} {t : Thread} {m' : Memory} {rax : Nat} :
    s.live pid = some t →
    Touched R s.mem m' t.task.cr3 (pageRange addr (pagesOf length))
      (isSet · ptePresent = false) →
    Outcome R fb s (.munmap pid addr length) { s with mem := m' } rax
  | fbmapped {pid : Nat} {copied : Bool} {t : Thread} {m' : Memory} {rax : Nat} :
    s.live pid = some t → (s.owner.has = true → s.owner.pid = t.task.pid) →
    Touched R s.mem m' t.task.cr3 (pageRange t.task.mmapNext (pagesOf fb.size))
      (fun _ => True) →
    Outcome R fb s (.fbmap pid copied)
      ({ s with mem := m', owner := ⟨true, t.task.pid⟩ }.put pid
        { t with task := bump t.task (pagesOf fb.size) }) rax
  | noClone {pid : Nat} {roomCounter room counted : Bool} {t : Thread} {m' : Memory}
    {rax : Nat} : s.live pid = some t → m'.words = s.mem.words →
    Outcome R fb s (.clone pid roomCounter room)
      ({ s with mem := m' }.put pid { t with counted }) rax
  | cloned {pid stack : Nat} {roomCounter room : Bool} {t : Thread} {m' : Memory} {rax : Nat} :
    s.live pid = some t → m'.words = s.mem.words →
    Outcome R fb s (.clone pid roomCounter room)
      { ({ s with mem := m' }.put pid { t with counted := true }).put s.nextPid
          ⟨{ t.task with pid := s.nextPid, kernelStack := stack }, true, false⟩ with
        nextPid := s.nextPid + 1 } rax
  | died {op : Op} {t : Thread} {rax : Nat} : s.live op.pid = some t →
    (op = .exit op.pid ∨ op = .kill op.pid) → Outcome R fb s op (s.die op.pid t) rax

end Machine

/-- `kmalloc` leaves the tables alone. -/
theorem Sound.kmallocPage (h : Sound m res R) (room : Bool) :
    Sound (m.kmallocPage room).1 res R ∧ (m.kmallocPage room).1.words = m.words := by
  obtain ⟨K, hacc, hlt⟩ := h
  rcases hacc.kmallocPage room with ⟨p, n, slab, heq, -, -, hslab, hacc₁, -⟩ | ⟨-, heq, -⟩
  · rw [heq]
    refine ⟨?_, rfl⟩
    cases slab with
    | none =>
      rw [Option.map_none, one_none, add_zero] at hacc₁
      exact ⟨K, hacc₁, hlt⟩
    | some phys =>
      obtain ⟨f, hf, rfl⟩ := hslab phys rfl
      rw [Option.map_some, mul_pageSize_div, one_some] at hacc₁
      exact Sound.take hacc₁ hlt (mem_freeFrames.mp hf).2.2
  · rw [heq]
    exact ⟨⟨K, hacc.of_nulls _, hlt⟩, rfl⟩

/-- `clone_process` with `CLONE_VM` leaves the tables alone. -/
theorem Sound.cloneVmCalls (h : Sound m res R) (counted roomCounter room : Bool) :
    Sound (m.cloneVmCalls counted roomCounter room).1 res R ∧
      (m.cloneVmCalls counted roomCounter room).1.words = m.words := by
  -- the `process_t` and the stack, once there is a counter
  have hchild : ∀ m₁ : Memory, Sound m₁ res R → m₁.words = m.words →
      let o : Memory × Bool × Option Nat :=
        match m₁.kmallocPage room with
        | (m, none) => (m, true, none)
        | (m, some slab) =>
          if m.alloc.2 = 0 then (m.alloc.1.kfreePage slab, true, none)
          else (m.alloc.1, true, some m.alloc.2)
      Sound o.1 res R ∧ o.1.words = m.words := by
    intro m₁ h₁ hwords
    obtain ⟨hsound, -⟩ := h₁.kmallocPage room
    obtain ⟨K, hacc, hlt⟩ := h₁
    rcases hacc.kmallocPage room with ⟨p, n, slab, heq, -, -, hslab, hacc₁, -⟩ | ⟨-, heq, -⟩
    · rw [heq] at hsound ⊢
      dsimp only at hsound ⊢
      rcases hacc₁.alloc_frame with ⟨f, hpos, hphys, -⟩ | ⟨hphys, hfail, -⟩
      · have hne : f * pageSize ≠ 0 := Nat.ne_of_gt (Nat.mul_pos hpos (by decide))
        rw [hphys, if_neg hne]
        exact ⟨hsound.alloc, hwords⟩
      · have hunused : ∀ phys, slab = some phys →
            ∃ f, phys = f * pageSize ∧ m₁.uses R K f = 0 := by
          intro phys hslabeq
          obtain ⟨f, hf, heqf⟩ := hslab phys hslabeq
          exact ⟨f, heqf, (mem_freeFrames.mp hf).2.2⟩
        obtain ⟨p', hfree, -, -, hacc'⟩ := (hacc₁.of_nulls (n + 1)).kfreePage hunused
        rw [if_pos hphys, hfail, hfree]
        exact ⟨⟨K, hacc', hlt⟩, hwords⟩
    · rw [heq] at hsound ⊢
      exact ⟨hsound, hwords⟩
  unfold Memory.cloneVmCalls
  cases counted with
  | true => exact hchild m h rfl
  | false =>
    obtain ⟨hsound, hwords⟩ := h.kmallocPage roomCounter
    rw [if_neg Bool.false_ne_true]
    generalize m.kmallocPage roomCounter = o at *
    obtain ⟨m₁, answer⟩ := o
    cases answer with
    | none => exact ⟨hsound, hwords⟩
    | some slab => exact hchild m₁ hsound hwords

theorem mmapFlags_managed {f : Nat} (hf : f < 2 ^ 40) (prot flags : Nat) :
    isSet (entry (f * pageSize) (mmapFlags prot flags)) pteNopmm = false := by
  rw [isSet_entry hf (by decide)]
  exact (mmapFlags_page prot flags).managed

namespace Machine

/-- Each step has one of the outcomes, and leaves the frames accounted for. -/
theorem step_outcome (h : Ok res R s) (hin : InHalf fb s op) :
    Sound (step fb s op).1.mem res R ∧
      Outcome R fb s op (step fb s op).1 (step fb s op).2 := by
  unfold step
  cases hlive : s.live op.pid with
  | none => exact ⟨h.sound, .idle⟩
  | some t =>
    have hin' := hin t hlive
    have hr := h.space _ _ (live_eq_some.mp hlive).1
    cases op with
    | mmap pid length prot flags fd =>
      dsimp only at hin' ⊢
      unfold sysMmap
      split
      · exact ⟨h.sound, .mapped hlive Touched.refl
          (.inl ⟨rfl, show 2 ^ 63 ≤ errno einval by decide⟩)⟩
      · obtain ⟨hsound, htouched⟩ := h.sound.mapPages hr hin' (mmapFlags_page prot flags)
        have htouched' := htouched.mono (Set.Subset.refl _)
          (Q := (isSet · pteNopmm = false)) (by
            rintro w ⟨f, hf, rfl⟩
            exact mmapFlags_managed hf prot flags)
        dsimp only
        split
        · exact ⟨hsound, .mapped hlive htouched'
            (.inl ⟨rfl, show 2 ^ 63 ≤ errno enomem by decide⟩)⟩
        · exact ⟨hsound, .mapped hlive htouched' (.inr rfl)⟩
    | munmap pid addr length =>
      dsimp only at hin' ⊢
      unfold sysMunmap
      split
      · exact ⟨h.sound, .idle⟩
      next hgood =>
        obtain ⟨hsound, htouched⟩ := h.sound.unmapPages hr
          (hin'.resolve_left fun hlow => hgood (.inr (.inr hlow)))
        exact ⟨hsound, .unmapped hlive htouched⟩
    | fbmap pid copied =>
      dsimp only at hin' ⊢
      unfold sysFbmap
      split
      · dsimp only
        have hself :
            { s with mem := s.mem, owner := s.owner }.put pid { t with task := t.task } = s :=
          put_self (live_eq_some.mp hlive).1
        rw [hself]
        exact ⟨h.sound, .idle⟩
      next hfree =>
        obtain ⟨hsound, htouched⟩ := h.sound.mapFramebuffer hr hin' fb.physBase
        refine ⟨hsound, .fbmapped hlive (fun hhas => ?_) htouched⟩
        exact Classical.not_not.mp fun hne => hfree ⟨hhas, hne⟩
    | clone pid roomCounter room =>
      obtain ⟨hsound, hwords⟩ := h.sound.cloneVmCalls t.counted roomCounter room
      dsimp only
      unfold cloneVm
      generalize s.mem.cloneVmCalls t.counted roomCounter room = o at *
      obtain ⟨m', counted, stack⟩ := o
      cases stack with
      | none => exact ⟨hsound, .noClone hlive hwords⟩
      | some stack => exact ⟨hsound, .cloned hlive hwords⟩
    | exit pid => exact ⟨h.sound, .died hlive (.inl rfl)⟩
    | kill pid => exact ⟨h.sound, .died hlive (.inr rfl)⟩

/-- Every step keeps the accounts, and gives a new process the address space of another. -/
theorem Ok.step (h : Ok res R s) (hin : InHalf fb s op) : Ok res R (step fb s op).1 := by
  obtain ⟨hsound, hout⟩ := step_outcome h hin
  -- a process that is stored again keeps its space and its pid
  have hput : ∀ {s' : Machine} {pid : Nat} {t t' : Thread}, s'.threads = s.threads →
      s'.nextPid = s.nextPid → Sound s'.mem res R → s.live pid = some t →
      t'.task.cr3 = t.task.cr3 → t'.task.pid = t.task.pid → Ok res R (s'.put pid t') := by
    intro s' pid t t' hth hnext hsound hlive hcr3 hpid
    have hold := (live_eq_some.mp hlive).1
    refine ⟨hsound, fun p u hp => ?_, fun p u hp => ?_⟩
    · rw [put_threads, hth] at hp
      split at hp
      · obtain rfl := Option.some.inj hp
        exact hcr3 ▸ h.space _ _ hold
      · exact h.space p u hp
    · rw [put_threads, hth] at hp
      rw [put_nextPid, hnext]
      split at hp
      next heq =>
        obtain rfl := Option.some.inj hp
        rw [hpid, heq]
        exact h.pid _ _ hold
      · exact h.pid p u hp
  generalize (Machine.step fb s op).1 = s' at *
  generalize (Machine.step fb s op).2 = rax at *
  cases hout with
  | idle => exact h
  | mapped hlive _ htask =>
    rcases htask with ⟨rfl, -⟩ | rfl
    · exact hput rfl rfl hsound hlive rfl rfl
    · exact hput rfl rfl hsound hlive rfl rfl
  | unmapped hlive _ => exact ⟨hsound, h.space, h.pid⟩
  | fbmapped hlive _ _ => exact hput rfl rfl hsound hlive rfl rfl
  | noClone hlive _ => exact hput rfl rfl hsound hlive rfl rfl
  | @cloned pid stack roomCounter room t m' _ hlive _ =>
    have hold := (live_eq_some.mp hlive).1
    have hparent : Ok res R ({ s with mem := m' }.put pid { t with counted := true }) :=
      hput rfl rfl hsound hlive rfl rfl
    refine ⟨hsound, fun p u hp => ?_, fun p u hp => ?_⟩
    · dsimp only at hp
      rw [put_threads] at hp
      split at hp
      · obtain rfl := Option.some.inj hp
        exact h.space pid t hold
      · exact hparent.space p u hp
    · dsimp only at hp ⊢
      rw [put_threads] at hp
      split at hp
      next heq =>
        obtain rfl := Option.some.inj hp
        exact ⟨heq.symm, heq ▸ Nat.lt_succ_self _⟩
      · obtain ⟨hpid, hlt⟩ := hparent.pid p u hp
        exact ⟨hpid, Nat.lt_succ_of_lt hlt⟩
  | died hlive _ => exact hput rfl rfl hsound hlive rfl rfl

end Machine

end

end Aeryk.Vm
