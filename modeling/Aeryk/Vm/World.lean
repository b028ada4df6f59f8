import Mathlib.Data.Finset.Option
import Aeryk.Vm.Threads

/-!
# Processes and their page frames

Any number of processes call `SYS_mmap`, `SYS_munmap`, `SYS_brk` and `SYS_fbmap`, fork, take
copy-on-write faults, exit and are reaped.  None of them shares an address space.  A dead process
has its page table and its kernel stack until it is reaped.

A page frame is held by the address spaces that map it or use it as a table, as a kernel stack, or
otherwise by the kernel (`held`).  `Exact` says that the page allocator has the same numbers, and
that no number has reached what a count of 16 bits can hold.
-/

namespace Aeryk.Vm

open Finset Function Lib Mem Mem.Pmm Memory

structure Proc where
  task : Task
  /-- `state` is `PROCESS_DEAD`. -/
  dead : Bool

/-- Memory, the processes by pid, what the kernel holds otherwise, `next_pid` and the frame
buffer's lock. -/
structure World where
  mem : Memory
  procs : Nat → Option Proc
  held : Nat → Nat
  nextPid : Nat
  owner : FbOwner

/-- What is done by or to the process `pid`, with the answers of the layers below: whether
`copy_to_user` could write, whether a slab has room, and the page frame that `kfree` gives back. -/
inductive Act where
  | mmap (pid length prot flags : Nat) (fd : Int)
  | munmap (pid addr length : Nat)
  | brk (pid requested : Nat)
  | fbmap (pid : Nat) (copied : Bool)
  | fork (pid : Nat) (room : Bool)
  /-- A write to a page that is not writable. -/
  | fault (pid va : Nat)
  /-- `SYS_exit`, or `isr_handler` kills the process. -/
  | exit (pid : Nat)
  /-- `reap_zombies` or `wait_reap_child` finds the process. -/
  | reap (pid : Nat) (slab : Option Nat)

namespace World

def live (s : World) (pid : Nat) : Option Proc := (s.procs pid).filter fun p => !p.dead

def put (s : World) (pid : Nat) (p : Proc) : World :=
  { s with procs := update s.procs pid (some p) }

/-- A process is added, with a `process_t` for which `slab` may have been taken. -/
def spawn (s : World) (m : Memory) (slab : Option Nat) (p : Proc) : World :=
  { { s with mem := m, held := s.held + one slab }.put s.nextPid p with nextPid := s.nextPid + 1 }

/-- `clone_process` without `CLONE_VM`. -/
def fork (s : World) (p : Proc) (room : Bool) : World :=
  let calls := s.mem.cloneCalls p.task.cr3 room 0
  match calls.2.table, calls.2.stack with
  | some table, some stack =>
    let child : Proc :=
      { task :=
          { p.task with
            pid := s.nextPid
            cr3 := table / pageSize
            kernelStack := stack / pageSize }
        dead := false }
    s.spawn calls.1 (s.mem.cloneSlab p.task.cr3 room) child
  | _, _ => { s with mem := calls.1 }

/-- `SYS_exit`, and the end of a process that `isr_handler` kills. -/
def die (s : World) (pid : Nat) (p : Proc) : World :=
  { s with owner := s.owner.release p.task.pid }.put pid { p with dead := true }

def remove (s : World) (pid : Nat) (m : Memory) : World :=
  { s with mem := m, procs := update s.procs pid none }

/-- The end of `reap_zombies` and of `wait_reap_child`: stack, page table and `process_t` are given
back. -/
def reap (s : World) (pid : Nat) (p : Proc) (slab : Option Nat) : World :=
  let m := (s.mem.free (p.task.kernelStack * pageSize)).destroyUserPagetable p.task.cr3
  let gone := s.remove pid m
  match slab with
  | none => gone
  | some f =>
    if 0 < s.held f then
      { gone with mem := m.free (f * pageSize), held := s.held - Pi.single f 1 }
    else gone

def step (fb : FrameBuffer) (s : World) : Act → World
  | .mmap pid length prot flags fd =>
    match s.live pid with
    | none => s
    | some p =>
      let o := sysMmap s.mem p.task length prot flags fd
      { s with mem := o.1 }.put pid { p with task := o.2.1 }
  | .munmap pid addr length =>
    match s.live pid with
    | none => s
    | some p => { s with mem := (sysMunmap s.mem p.task addr length).1 }
  | .brk pid requested =>
    match s.live pid with
    | none => s
    | some p =>
      let o := sysBrk s.mem p.task requested
      { s with mem := o.1 }.put pid { p with task := o.2.1 }
  | .fbmap pid copied =>
    match s.live pid with
    | none => s
    | some p =>
      let o := sysFbmap s.mem p.task s.owner fb copied
      { s with mem := o.1, owner := o.2.2.1 }.put pid { p with task := o.2.1 }
  | .fork pid room =>
    match s.live pid with
    | none => s
    | some p => s.fork p room
  | .fault pid va =>
    match s.live pid with
    | none => s
    | some p => { s with mem := (s.mem.handleCowFault p.task.cr3 va).1 }
  | .exit pid =>
    match s.live pid with
    | none => s
    | some p => s.die pid p
  | .reap pid slab =>
    match s.procs pid with
    | none => s
    | some p => if p.dead then s.reap pid p slab else s

/-! ## Who holds a frame -/

/-- The page frame of the `pml4` of a process. -/
def rootOf (s : World) (pid : Nat) : Option Nat := (s.procs pid).map (·.task.cr3)

/-- The page frame of the kernel stack of a process. -/
def stackOf (s : World) (pid : Nat) : Option Nat := (s.procs pid).map (·.task.kernelStack)

def roots (s : World) : Finset Nat :=
  (range s.nextPid).biUnion fun pid => (s.rootOf pid).toFinset

def kernel (s : World) (f : Nat) : Nat := refs s.stackOf (range s.nextPid) f + s.held f

def uses (s : World) (f : Nat) : Nat := s.mem.uses s.roots s.kernel f

section

variable {s s' : World} {pid pid' : Nat} {p p' : Proc} {r f : Nat}

theorem live_eq_some : s.live pid = some p ↔ s.procs pid = some p ∧ p.dead = false := by
  unfold live
  rw [Option.filter_eq_some_iff, Bool.not_eq_true']

theorem mem_roots : r ∈ s.roots ↔ ∃ pid < s.nextPid, s.rootOf pid = some r := by
  simp only [roots, mem_biUnion, mem_range, Option.mem_toFinset, Option.mem_def]

theorem rootOf_eq_some :
    s.rootOf pid = some r ↔ ∃ p, s.procs pid = some p ∧ p.task.cr3 = r := by
  unfold rootOf
  rw [Option.map_eq_some_iff]

/-- The holders depend on where the page tables and the stacks are. -/
theorem roots_congr (hnext : s'.nextPid = s.nextPid) (hroot : s'.rootOf = s.rootOf) :
    s'.roots = s.roots := by
  unfold roots
  rw [hnext, hroot]

theorem kernel_congr (hnext : s'.nextPid = s.nextPid) (hstack : s'.stackOf = s.stackOf)
    (hheld : s'.held = s.held) : s'.kernel = s.kernel := by
  funext f
  unfold kernel
  rw [hnext, hstack, hheld]

theorem procs_put : (s.put pid p).procs pid' = if pid' = pid then some p else s.procs pid' := by
  unfold put
  dsimp only
  rw [update_apply]

/-- A process that is stored again with its page table. -/
theorem rootOf_put (hp : s.procs pid = some p) (hroot : p'.task.cr3 = p.task.cr3) :
    (s.put pid p').rootOf = s.rootOf := by
  funext q
  unfold rootOf
  rw [procs_put]
  split
  next heq => rw [heq, hp, Option.map_some, Option.map_some, hroot]
  · rfl

/-- A process that is stored again with its kernel stack. -/
theorem stackOf_put (hp : s.procs pid = some p)
    (hstack : p'.task.kernelStack = p.task.kernelStack) : (s.put pid p').stackOf = s.stackOf := by
  funext q
  unfold stackOf
  rw [procs_put]
  split
  next heq => rw [heq, hp, Option.map_some, Option.map_some, hstack]
  · rfl

theorem procs_spawn {m : Memory} {slab : Option Nat} :
    (s.spawn m slab p).procs pid = if pid = s.nextPid then some p else s.procs pid :=
  procs_put

theorem pids_spawn {m : Memory} {slab : Option Nat}
    (h : ∀ pid p, s.procs pid = some p → pid < s.nextPid)
    (hp' : (s.spawn m slab p).procs pid = some p') : pid < (s.spawn m slab p).nextPid := by
  rw [procs_spawn] at hp'
  split at hp'
  next hnew => exact Nat.lt_succ_of_le (Nat.le_of_eq hnew)
  · exact Nat.lt_succ_of_lt (h pid p' hp')

theorem rootOf_spawn {m : Memory} {slab : Option Nat} :
    (s.spawn m slab p).rootOf pid = if pid = s.nextPid then some p.task.cr3 else s.rootOf pid := by
  unfold rootOf
  rw [procs_spawn]
  split
  · rfl
  · rfl

theorem roots_spawn (s : World) (m : Memory) (slab : Option Nat) (p : Proc) :
    (s.spawn m slab p).roots = insert p.task.cr3 s.roots := by
  ext r
  rw [mem_roots, mem_insert, mem_roots]
  simp only [rootOf_spawn]
  constructor
  · rintro ⟨pid, hpid, hr⟩
    split at hr
    · exact .inl (Option.some.inj hr).symm
    next hne => exact .inr ⟨pid, Nat.lt_of_le_of_ne (Nat.le_of_lt_succ hpid) hne, hr⟩
  · rintro (rfl | ⟨pid, hpid, hr⟩)
    · exact ⟨s.nextPid, Nat.lt_succ_self _, if_pos rfl⟩
    · exact ⟨pid, Nat.lt_succ_of_lt hpid, by rw [if_neg (Nat.ne_of_lt hpid), hr]⟩

theorem kernel_spawn (s : World) (m : Memory) (slab : Option Nat) (p : Proc) :
    (s.spawn m slab p).kernel = s.kernel + one slab + Pi.single p.task.kernelStack 1 := by
  funext f
  have hold : refs (s.spawn m slab p).stackOf (range s.nextPid) f =
      refs s.stackOf (range s.nextPid) f := by
    refine refs_congr fun q => and_congr_right fun hq => ?_
    have hne : q ≠ s.nextPid := Nat.ne_of_lt (mem_range.mp hq)
    unfold stackOf
    rw [procs_spawn, if_neg hne]
  have hnew : (s.spawn m slab p).stackOf s.nextPid = some p.task.kernelStack := by
    unfold stackOf
    rw [procs_spawn, if_pos rfl]
    rfl
  have hrange : range (s.spawn m slab p).nextPid =
      insert s.nextPid (range s.nextPid) := range_add_one
  have hheld : (s.spawn m slab p).held f = s.held f + one slab f := rfl
  unfold kernel
  rw [hrange, hheld, Pi.add_apply, Pi.add_apply, Pi.single_apply]
  by_cases hf : f = p.task.kernelStack
  · rw [refs_insert_same notMem_range_self (hf ▸ hnew), hold, if_pos hf]
    omega
  · rw [refs_insert_ne (by rw [hnew]; exact fun heq => hf (Option.some.inj heq).symm), hold,
      if_neg hf]
    omega

/-- The other processes keep their page tables. -/
theorem rootOf_remove {m : Memory} :
    (s.remove pid m).rootOf pid' = if pid' = pid then none else s.rootOf pid' := by
  unfold rootOf remove
  dsimp only
  rw [update_apply]
  split
  · rfl
  · rfl

/-- A process whose page table no other process has is taken out. -/
theorem roots_remove (m : Memory) (hp : s.procs pid = some p)
    (hapart : ∀ pid', s.rootOf pid' = some p.task.cr3 → pid' = pid) :
    (s.remove pid m).roots = s.roots.erase p.task.cr3 := by
  have hown : s.rootOf pid = some p.task.cr3 := rootOf_eq_some.mpr ⟨p, hp, rfl⟩
  ext r
  rw [mem_roots, mem_erase, mem_roots]
  simp only [rootOf_remove]
  constructor
  · rintro ⟨pid', hpid, hr⟩
    split at hr
    · cases hr
    next hne => exact ⟨fun heq => hne (hapart pid' (heq ▸ hr)), pid', hpid, hr⟩
  · rintro ⟨hne, pid', hpid, hr⟩
    refine ⟨pid', hpid, ?_⟩
    rw [if_neg, hr]
    rintro rfl
    exact hne (Option.some.inj (hr.symm.trans hown))

theorem kernel_remove (m : Memory) (hp : s.procs pid = some p) (hpid : pid < s.nextPid) :
    (s.remove pid m).kernel + Pi.single p.task.kernelStack 1 = s.kernel := by
  funext f
  have hstack : (s.remove pid m).stackOf = update s.stackOf pid none := by
    funext q
    unfold stackOf remove
    dsimp only
    rw [update_apply, update_apply]
    split
    · rfl
    · rfl
  have hown : s.stackOf pid = some p.task.kernelStack := by
    unfold stackOf
    rw [hp]
    rfl
  have hrefs := refs_update s.stackOf f (mem_range.mpr hpid) none
  rw [hown, if_neg (c := (none : Option Nat) = some f) nofun] at hrefs
  have hheld : (s.remove pid m).held f = s.held f := rfl
  have hnext : (s.remove pid m).nextPid = s.nextPid := rfl
  rw [Pi.add_apply, Pi.single_apply]
  unfold kernel
  rw [hstack, hheld, hnext]
  by_cases hf : f = p.task.kernelStack
  · rw [if_pos (congrArg some hf.symm)] at hrefs
    rw [if_pos hf]
    omega
  · rw [if_neg fun heq => hf (Option.some.inj heq).symm] at hrefs
    rw [if_neg hf]
    omega

end

/-! ## Counts that are right -/

/-- The page allocator has the numbers of references, and none has reached 65536. -/
structure Exact (res : Nat → Bool) (s : World) : Prop where
  accounted : Accounted s.mem res s.roots s.kernel
  low : ∀ f, s.uses f < 65536
  pids : ∀ pid p, s.procs pid = some p → pid < s.nextPid
  /-- No address space is shared. -/
  apart : ∀ pid pid' r, s.rootOf pid = some r → s.rootOf pid' = some r → pid = pid'
  /-- Pages that are not the allocator's are not copied on a write. -/
  cow : ∀ r ∈ s.roots, ∀ v < userPages, isSet (s.mem.leaf r v) pteCow = true →
    isSet (s.mem.leaf r v) pteNopmm = false

section

variable {s s' : World} {res : Nat → Bool} {pid : Nat} {p : Proc} {f : Nat}

theorem Exact.root_mem (h : Exact res s) (hp : s.procs pid = some p) : p.task.cr3 ∈ s.roots :=
  mem_roots.mpr ⟨pid, h.pids pid p hp, rootOf_eq_some.mpr ⟨p, hp, rfl⟩⟩

/-- The stored count of a frame is the number of references. -/
theorem Exact.refcount (h : Exact res s) (hf : f < s.mem.pmm.pages) (hres : res f = false) :
    s.mem.pmm.refcount f = s.uses f := by
  rw [h.accounted.refcount_mod hf hres]
  exact Nat.mod_eq_of_lt (h.low f)

/-- The processes have not changed, and the memory is still accounted for. -/
theorem Exact.of_mem (h : Exact res s) (hroots : s'.roots = s.roots)
    (hkernel : s'.kernel = s.kernel) (hnext : s'.nextPid = s.nextPid) (hroot : s'.rootOf = s.rootOf)
    (hacc : Accounted s'.mem res s.roots s.kernel)
    (hlow : ∀ f, s'.mem.uses s.roots s.kernel f < 65536)
    (hcow : ∀ r ∈ s.roots, ∀ v < userPages, isSet (s'.mem.leaf r v) pteCow = true →
      isSet (s'.mem.leaf r v) pteNopmm = false) : Exact res s' where
  accounted := by
    rw [hroots, hkernel]
    exact hacc
  low f := by
    unfold uses
    rw [hroots, hkernel]
    exact hlow f
  pids pid p hp := by
    have hsome : s'.rootOf pid = some p.task.cr3 := rootOf_eq_some.mpr ⟨p, hp, rfl⟩
    rw [hroot] at hsome
    obtain ⟨p₀, hp₀, -⟩ := rootOf_eq_some.mp hsome
    rw [hnext]
    exact h.pids pid p₀ hp₀
  apart := by
    rw [hroot]
    exact h.apart
  cow := by
    rw [hroots]
    exact hcow

/-- A process with an address space that no other one has is added. -/
theorem Exact.spawn (h : Exact res s) {m : Memory} {slab : Option Nat}
    (hfresh : p.task.cr3 ∉ s.roots)
    (hacc : Accounted m res (insert p.task.cr3 s.roots)
      (s.kernel + one slab + Pi.single p.task.kernelStack 1))
    (hlow : ∀ f, m.uses (insert p.task.cr3 s.roots)
      (s.kernel + one slab + Pi.single p.task.kernelStack 1) f < 65536)
    (hcow : ∀ r ∈ insert p.task.cr3 s.roots, ∀ v < userPages, isSet (m.leaf r v) pteCow = true →
      isSet (m.leaf r v) pteNopmm = false) : Exact res (s.spawn m slab p) where
  accounted := by
    rw [roots_spawn, kernel_spawn]
    exact hacc
  low f := by
    unfold uses
    rw [roots_spawn, kernel_spawn]
    exact hlow f
  pids _ _ hp' := pids_spawn h.pids hp'
  apart a b r ha hb := by
    have hold : ∀ {c}, s.rootOf c = some p.task.cr3 → False := by
      intro c hc
      obtain ⟨p', hp', -⟩ := rootOf_eq_some.mp hc
      exact hfresh (mem_roots.mpr ⟨c, h.pids c p' hp', hc⟩)
    rw [rootOf_spawn] at ha hb
    split at ha
    next hna =>
      obtain rfl := Option.some.inj ha
      split at hb
      next hnb => rw [hna, hnb]
      · exact (hold hb).elim
    · split at hb
      · obtain rfl := Option.some.inj hb
        exact (hold ha).elim
      · exact h.apart a b r ha hb
  cow := by
    rw [roots_spawn]
    exact hcow

end

end World

end Aeryk.Vm
