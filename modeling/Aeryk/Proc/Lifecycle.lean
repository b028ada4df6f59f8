import Aeryk.Proc.Scheduler

/-!
# Creation, exit and descriptors

The rest of `process.c` and the system calls of `syscall.c` that create, replace and end processes
or work on their descriptor tables.

Answers of the layers below are arguments: what `kmalloc` and `pmm_alloc_page` return, the page
table `vmm_clone_user_pagetable` makes, what comes out of loading an ELF file, the node
`vfs_find_node` finds, and whether `copy_to_user` succeeds.  `none` stands for `NULL`.
-/

namespace Aeryk

/-- `ENOENT` and the other codes of `abi/errno.h`, as system calls return them. -/
inductive Errno where
  | enoent
  | ebadf
  | echild
  | enomem
  | efault
  | emfile
deriving DecidableEq

def Errno.code : Errno → Int
  | .enoent => 2
  | .ebadf => 9
  | .echild => 10
  | .enomem => 12
  | .efault => 14
  | .emfile => 24

namespace Kernel

/-! ## Page tables and images -/

/-- What comes out of `load_elf_into_new_pagetable`. -/
inductive LoadAnswer where
  /-- No such file, or no page table. -/
  | failed
  /-- The new page table was torn down again. -/
  | tornDown (table : Nat)
  /-- The image is loaded. -/
  | loaded (table entry userStackTop brkStart : Nat)

/-- The calls `load_elf_into_new_pagetable` makes. -/
def load (k : Kernel) : LoadAnswer → Kernel
  | .failed => k
  | .tornDown t => (k.emit (.alloc (.table t))).emit (.free (.table t))
  | .loaded t _ _ _ => k.emit (.alloc (.table t))

/-- The end of `create_user_process` and `clone_process`: the new process joins the ring
and its ready queue. -/
def launch (k : Kernel) (proc : Nat) : Kernel :=
  let k := k.enqueueProcess proc
  let k := k.modify proc fun x => { x with priority := 0, ticksExecuted := 0 }
  k.mlfqEnqueue proc

/-- The fields of a new process are filled in, with the next pid. -/
def place (k : Kernel) (proc : Nat) (x : Process) : Kernel :=
  { k with nextPid := k.nextPid + 1 }.modify proc fun _ => x

/-- The fields `create_user_process` gives the process. -/
def userProcess (k : Kernel) (table entry rsp brkStart stack : Nat) : Process :=
  { Process.zero with
    kernelStack := stack
    pid := k.nextPid
    state := .ready
    entry := entry
    userStackTop := rsp
    brkStart := brkStart
    brk := brkStart
    mmapNext := mmapBase
    cr3 := table
    parent := some k.current }

def createUserProcess (k : Kernel) (image : LoadAnswer) (proc stack : Option Nat) :
    Kernel × Option Nat :=
  let k := k.load image
  match image with
  | .loaded t entry rsp brkStart =>
    match proc with
    | none => (k.emit (.free (.table t)), none)
    | some a =>
      let k := k.emit (.alloc (.process a))
      match stack with
      | none => ((k.emit (.free (.process a))).emit (.free (.table t)), none)
      | some st =>
        let k := k.emit (.alloc (.stack st))
        let k := k.place a (k.userProcess t entry rsp brkStart st)
        (k.launch a, some a)
  | _ => (k, none)

def execProcess (k : Kernel) (proc : Nat) (image : LoadAnswer) : Kernel :=
  let k := k.load image
  match image with
  | .loaded t entry rsp brkStart =>
    let k := k.emit (.free (.table (k.procs proc).cr3))
    k.modify proc fun x =>
      { x with
        cr3 := t
        entry := entry
        userStackTop := rsp
        brkStart := brkStart
        brk := brkStart
        mmapNext := mmapBase }
  | _ => k

/-! ## Pipe ends -/

def pipeCloseEnd (k : Kernel) (p : Nat) (isReadEnd : Bool) : Kernel :=
  let k := k.setPipe p (closeEnd (k.pipes p) isReadEnd)
  let free := shouldFree (k.pipes p)
  let k := (k.wakeAll (.pipeWrite p)).wakeAll (.pipeRead p)
  if free then k.emit (.free (.pipe p)) else k

/-- A descriptor has been copied: one more reference to its end. -/
def dupEnd (k : Kernel) (fd : FileDescriptor) : Kernel :=
  match fd.type, fd.pipe with
  | .pipeRead, some p => k.setPipe p { k.pipes p with readers := (k.pipes p).readers + 1 }
  | .pipeWrite, some p => k.setPipe p { k.pipes p with writers := (k.pipes p).writers + 1 }
  | _, _ => k

/-- A descriptor goes away: its end is closed. -/
def dropEnd (k : Kernel) (fd : FileDescriptor) : Kernel :=
  match fd.type, fd.pipe with
  | .pipeRead, some p => k.pipeCloseEnd p true
  | .pipeWrite, some p => k.pipeCloseEnd p false
  | _, _ => k

def fd (k : Kernel) (p : Nat) (i : Fin maxFds) : FileDescriptor := (k.procs p).fdTable i

def setFd (k : Kernel) (p : Nat) (i : Fin maxFds) (d : FileDescriptor) : Kernel :=
  k.modify p fun x => { x with fdTable := Function.update x.fdTable i d }

/-- A slot is cleared.  Its offset and flags stay. -/
def clearFd (k : Kernel) (p : Nat) (i : Fin maxFds) : Kernel :=
  k.setFd p i { k.fd p i with type := .none, node := none, pipe := none }

/-- One turn of the loop of `process_release_fds`. -/
def releaseFd (p : Nat) (k : Kernel) (i : Fin maxFds) : Kernel :=
  (k.dropEnd (k.fd p i)).clearFd p i

def processReleaseFds (k : Kernel) (p : Nat) : Kernel :=
  (List.finRange maxFds).foldl (releaseFd p) k

/-! ## `clone_process` -/

def cloneVm : Nat := 0x100

/-- The answers `clone_process` gets. -/
structure CloneAnswer where
  /-- `kmalloc` of the shared counter. -/
  counter : Option Nat
  table : Option Nat
  /-- `kmalloc` of the child. -/
  child : Option Nat
  /-- `pmm_alloc_page` of its kernel stack. -/
  stack : Option Nat

/-- The first part of `clone_process`: the child's page table, shared or copied, and the
counter to share. -/
def cloneSpace (k : Kernel) (parent flags : Nat) (ans : CloneAnswer) :
    Kernel × Option (Nat × Option Nat) :=
  if flags &&& cloneVm ≠ 0 then
    match (k.procs parent).vmRefcount with
    | some c => (k, some ((k.procs parent).cr3, some c))
    | none =>
      match ans.counter with
      | none => (k, none)
      | some c =>
        let k := k.emit (.alloc (.counter c))
        let k := k.modify parent fun x => { x with vmRefcount := some c }
        ({ k with counters := Function.update k.counters c 1 },
          some ((k.procs parent).cr3, some c))
  else
    match ans.table with
    | none => (k, none)
    | some t => (k.emit (.alloc (.table t)), some (t, none))

/-- A failed `clone_process` tears down the table it copied. -/
def cloneUndo (k : Kernel) (table : Nat) (counter : Option Nat) : Kernel :=
  match counter with
  | none => k.emit (.free (.table table))
  | some _ => k

/-- The fields `clone_process` gives the child. -/
def childOf (k : Kernel) (parent childStack table : Nat) (counter : Option Nat) (stack : Nat) :
    Process :=
  let x := k.procs parent
  { Process.zero with
    kernelStack := stack
    pid := k.nextPid
    state := .ready
    entry := x.entry
    userStackTop := if childStack ≠ 0 then childStack else x.userStackTop
    brkStart := x.brkStart
    brk := x.brk
    mmapNext := x.mmapNext
    cr3 := table
    vmRefcount := counter
    parent := some parent
    fdTable := x.fdTable }

def bumpCounter (k : Kernel) : Option Nat → Kernel
  | none => k
  | some c => { k with counters := Function.update k.counters c (k.counters c + 1) }

/-- The loop of `clone_process` over the descriptors of the child. -/
def dupEnds (k : Kernel) (child : Nat) : Kernel :=
  (List.finRange maxFds).foldl (fun k i => k.dupEnd (k.fd child i)) k

/-- `clone_process`, of which `fork_process` is the case without flags. -/
def cloneProcess (k : Kernel) (parent flags childStack : Nat) (ans : CloneAnswer) :
    Kernel × Option Nat :=
  match k.cloneSpace parent flags ans with
  | (k, none) => (k, none)
  | (k, some (table, counter)) =>
    match ans.child with
    | none => (k.cloneUndo table counter, none)
    | some a =>
      let k := k.emit (.alloc (.process a))
      match ans.stack with
      | none => ((k.emit (.free (.process a))).cloneUndo table counter, none)
      | some st =>
        let k := k.emit (.alloc (.stack st))
        let k := k.place a (k.childOf parent childStack table counter st)
        let k := (k.bumpCounter counter).dupEnds a
        (k.launch a, some a)

/-! ## Exit -/

def fbmapReleaseOwner (k : Kernel) (pid : Nat) : Kernel :=
  if k.fbHasOwner ∧ k.fbOwnerPid = pid then { k with fbHasOwner := false } else k

/-- `SYS_exit` and the killing of a process by a fault, up to the call of `schedule`. -/
def exitCurrent (k : Kernel) (code : Int) : Kernel :=
  let me := k.current
  let k := k.processReleaseFds me
  let k := k.fbmapReleaseOwner (k.procs me).pid
  let k := k.modify me fun x => { x with exitCode := code, state := .dead }
  { k with yielding := true }

/-! ## Blocking -/

/-- `SYS_wait` and `SYS_sleep_ms` set `PROCESS_BLOCKED` and go on to `schedule`. -/
def block (k : Kernel) : Kernel := { k.setState k.current .blocked with yielding := true }

/-- The readers of the keyboard, the mouse and the pipes park and go on to `schedule`. -/
def park (k : Kernel) (w : WaitId) : Kernel :=
  { (k.setState k.current w.state).waitQueuePush w k.current with yielding := true }

def sysWait (k : Kernel) (pid : Int) : Kernel :=
  match k.waitReapChild k.current pid with
  | (k, .none) => k.block
  | (k, _) => k

/-- One turn of the loop of `pipe_read`. -/
def pipeReadTurn (k : Kernel) (p : Nat) : Kernel :=
  if 0 < (k.pipes p).count then (k.setPipe p (k.pipes p).takeByte).wakeOne (.pipeWrite p)
  else if (k.pipes p).writers = 0 then k
  else k.park (.pipeRead p)

/-- One turn of the loop of `pipe_write`. -/
def pipeWriteTurn (k : Kernel) (p : Nat) (b : Byte) : Kernel :=
  if (k.pipes p).readers = 0 then k
  else if (k.pipes p).count < pipeBufSize then
    (k.setPipe p ((k.pipes p).putByte b)).wakeOne (.pipeRead p)
  else k.park (.pipeWrite p)

/-! ## Descriptor calls -/

/-- The first free slot of the current process from `start` on. -/
def freeSlot (k : Kernel) (start : Nat) : Option (Fin maxFds) :=
  (List.finRange maxFds).find? fun i => start ≤ i ∧ (k.fd k.current i).type = .none

/-- `SYS_open`.  `file` is the node of a regular file. -/
def sysOpen (k : Kernel) (file : Option Nat) (flags : Nat) : Kernel × Int :=
  match file with
  | none => (k, -Errno.enoent.code)
  | some node =>
    match k.freeSlot 3 with
    | none => (k, -Errno.emfile.code)
    | some i =>
      (k.setFd k.current i
        { k.fd k.current i with type := .vfs, node := some node, offset := 0, flags := flags },
        i)

def sysClose (k : Kernel) (rdi : Nat) : Kernel × Int :=
  if h : 3 ≤ rdi ∧ rdi < maxFds then (releaseFd k.current k ⟨rdi, h.2⟩, 0)
  else (k, -Errno.ebadf.code)

/-- The end of a pipe that `SYS_pipe` puts into a slot. -/
def openEnd (k : Kernel) (i : Fin maxFds) (type : FdType) (p : Nat) : Kernel :=
  k.setFd k.current i { k.fd k.current i with type := type, pipe := some p }

/-- `SYS_pipe` takes an end back. -/
def dropSlot (k : Kernel) (i : Fin maxFds) : Kernel :=
  k.setFd k.current i { k.fd k.current i with type := .none, pipe := none }

def sysPipe (k : Kernel) (pipe : Option Nat) (copied : Bool) : Kernel × Int :=
  match k.freeSlot 3 with
  | none => (k, -Errno.emfile.code)
  | some r =>
    match k.freeSlot (r + 1) with
    | none => (k, -Errno.emfile.code)
    | some w =>
      match pipe with
      | none => (k, -Errno.enomem.code)
      | some p =>
        let k := (k.emit (.alloc (.pipe p))).setPipe p (pipeCreate .empty)
        let k := (k.openEnd r .pipeRead p).openEnd w .pipeWrite p
        if copied then (k, 0)
        else
          let k := (k.pipeCloseEnd p true).pipeCloseEnd p false
          ((k.dropSlot r).dropSlot w, -Errno.efault.code)

def sysDup (k : Kernel) (oldfd : Nat) : Kernel × Int :=
  if h : oldfd < maxFds then
    let src := k.fd k.current ⟨oldfd, h⟩
    if src.type = .none then (k, -Errno.ebadf.code)
    else
      match k.freeSlot 3 with
      | none => (k, -Errno.emfile.code)
      | some i => ((k.setFd k.current i src).dupEnd src, i)
  else (k, -Errno.ebadf.code)

def sysDup2 (k : Kernel) (oldfd newfd : Nat) : Kernel × Int :=
  if h : oldfd < maxFds ∧ newfd < maxFds then
    if (k.fd k.current ⟨oldfd, h.1⟩).type = .none then (k, -Errno.ebadf.code)
    else if newfd = oldfd then (k, newfd)
    else
      let k := k.dropEnd (k.fd k.current ⟨newfd, h.2⟩)
      let src := k.fd k.current ⟨oldfd, h.1⟩
      ((k.setFd k.current ⟨newfd, h.2⟩ src).dupEnd src, newfd)
  else (k, -Errno.ebadf.code)

end Kernel

end Aeryk
