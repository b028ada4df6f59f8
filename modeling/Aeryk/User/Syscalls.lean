import Aeryk.Fs.Listing
import Aeryk.Lib.Access

/-!
# System calls and the memory of their caller

`syscall_handler_c`, as far as it goes to addresses that its caller chose.  It runs at ring 0 in
the page table of the caller, so the kernel half is mapped for it as well.  `isr_handler` decides
what becomes of a fault: a write to a copy-on-write page is repaired, a fault inside `copy_to_user`
unwinds to it, and any other fault at ring 0 ends in the panic branch.

A handler is a program over such accesses.  What it gets from elsewhere is in `Inputs`:
descriptors, bytes that arrive while it blocks, the file tree, the results of other calls.  A
handler that waits for input that never arrives is `stuck`.  `strncmp_path` reads bytes of the path
that `vfs_find_node` has just read, and is left out.
-/

namespace Aeryk.User

open Lib
open Fs (Vfs Linked slash)

/-! ## Pages and faults -/

/-- A leaf entry of the page table, as the processor and the fault handler look at it. -/
structure Page where
  present : Bool
  user : Bool
  writable : Bool
  cow : Bool
  /-- `vmm_handle_cow_fault` gets the frame it needs. -/
  frame : Bool
deriving DecidableEq

/-- The address space of the caller, by page number, and what is in memory. -/
structure Space where
  page : Nat → Page
  byte : Nat → Byte

def Canonical (a : Nat) : Prop := a < 2 ^ 47 ∨ 2 ^ 64 - 2 ^ 47 ≤ a ∧ a < 2 ^ 64

instance (a : Nat) : Decidable (Canonical a) := inferInstanceAs (Decidable (_ ∨ _))

/-- What `isr_handler` does about an exception. -/
inductive Isr where
  /-- It returns, and the instruction is tried again. -/
  | resume
  /-- `usercopy_restore_context`. -/
  | recover
  /-- The current process is killed. -/
  | kill
  | panic
  /-- The vector is an interrupt. -/
  | irq
deriving DecidableEq

def isrHandler (intNo : Nat) (write cowHandled inFlight fromUserland : Bool) : Isr :=
  if intNo = 14 ∧ write ∧ cowHandled then .resume
  else if (intNo = 14 ∨ intNo = 13) ∧ inFlight then .recover
  else if intNo < 32 then if fromUserland then .kill else .panic
  else .irq

namespace Space

variable {s : Space} {a : Nat}

def pageAt (s : Space) (a : Nat) : Page := s.page (a / 4096)

/-- The exception an access at ring 0 raises: 13 for a non-canonical address, 14 for a page that is
not there or, on a write, not writable. -/
def fault (s : Space) (write : Bool) (a : Nat) : Option Nat :=
  if ¬Canonical a then some 13
  else if (s.pageAt a).present = false then some 14
  else if write ∧ (s.pageAt a).writable = false then some 14
  else none

def cowFault (s : Space) (a : Nat) : Bool :=
  (s.pageAt a).present && (s.pageAt a).cow && (s.pageAt a).frame

/-- An access at ring 0, with `user_copy_in_flight` if it is guarded. -/
def touch (s : Space) (guarded write : Bool) (a : Nat) : Access :=
  match s.fault write a with
  | none => .ok
  | some intNo =>
    match isrHandler intNo write (s.cowFault a) guarded false with
    | .resume => .ok
    | .recover => .abandoned
    | .kill => .killed
    | .panic => .crashed
    | .irq => .ok

def machine (s : Space) : Machine := ⟨s.byte, s.touch⟩

def Readable (s : Space) (a : Nat) : Prop := Canonical a ∧ (s.pageAt a).present = true

/-- A store to the address goes through, after a copy if need be. -/
def Storable (s : Space) (a : Nat) : Prop :=
  Canonical a ∧ (s.pageAt a).present = true ∧ ((s.pageAt a).writable = true ∨ s.cowFault a = true)

/-- The page of the address is the caller's. -/
def UserPage (s : Space) (a : Nat) : Prop := (s.pageAt a).present = true ∧ (s.pageAt a).user = true

instance (s : Space) (a : Nat) : Decidable (s.UserPage a) := inferInstanceAs (Decidable (_ ∧ _))

end Space

/-! ## What handlers work with -/

/-- A number of 32 bits as an `int`. -/
def toInt (n : Nat) : Int := (n : Int).bmod (2 ^ 32)

/-- What a descriptor is, with what comes through it during the call. -/
inductive Fd where
  | none
  /-- `FD_VFS`, with the data of the file and the offset. -/
  | vfs (data : List Byte) (offset : Nat)
  /-- `FD_PIPE_READ`: the bytes that arrive, and whether the last writer then closes. -/
  | pipeRead (arrives : List Byte) (closes : Bool)
  /-- `FD_PIPE_WRITE`: how many bytes are taken, and whether the last reader then closes. -/
  | pipeWrite (takes : Nat) (closes : Bool)

structure Regs where
  rax : Nat
  rdi : Nat
  rsi : Nat
  rdx : Nat

/-- What a handler works with beside the registers. -/
structure Inputs where
  fds : Fin 32 → Fd
  /-- The bytes `kbd_buf_pop` gives. -/
  keyboard : List Byte
  /-- The packets `mouse_buf_pop` gives before it finds the buffer empty. -/
  mouse : List (List Byte)
  vfs : Vfs
  kids : Nat → List Nat
  linked : Linked vfs kids
  root_lt : vfs.root < vfs.fresh
  /-- What `wait_reap_child` returns in the end, and the exit code. -/
  wait : Int
  status : List Byte
  /-- The slots and the pipe that `SYS_pipe` gets, as the bytes of `fds`. -/
  pipe : Option (List Byte)
  /-- The framebuffer is free for the caller. -/
  fbFree : Bool
  fbInfo : List Byte
  /-- What the buffer of `SYS_readdir` holds at first. -/
  kbuf : Nat → Byte
  /-- What a call that touches no memory of the caller returns. -/
  result : Int

/-- A slot of the table. -/
def Inputs.fd (inp : Inputs) (n : Nat) : Fd := if h : n < 32 then inp.fds ⟨n, h⟩ else .none

/-- `p + i`, as a pointer. -/
def offset (p i : Nat) : Nat := (p + i) % 2 ^ 64

/-! ## Copies and loops -/

/-- A handler ends with the value of `rax`. -/
abbrev Handler := Prog Int

/-- `copy_to_user`, and what follows if it returns `0` and if it does not. -/
def copyToUser (udst : Nat) (src : List Byte) (ok fault : Handler) : Handler :=
  Prog.puts (offset udst) 0 src ok fault

def printN (str n : Nat) (k : Handler) : Handler := Prog.peeks (offset str) 0 n k

/-- The bytes a loop of reads stores: as many as arrive and are asked for. -/
def taken (count : Int) (arrives : List Byte) : List Byte := arrives.take count.toNat

def pipeRead (arrives : List Byte) (closes : Bool) (buf : Nat) (count : Int) : Handler :=
  Prog.pokes (offset buf) 0 (taken count arrives)
    (if (arrives.length : Int) < count ∧ closes = false then .stuck
      else .done (taken count arrives).length)

def pipeWrite (takes : Nat) (closes : Bool) (buf : Nat) (count : Int) : Handler :=
  Prog.peeks (offset buf) 0 (min takes count.toNat)
    (if (takes : Int) < count then
      if closes then .done (if takes > 0 then takes else -1) else .stuck
    else .done (min takes count.toNat))

/-- The bytes up to the first line feed, that one included. -/
def line : List Byte → List Byte
  | [] => []
  | c :: cs => if c = 10#8 then [c] else c :: line cs

/-- `keyboard_read`: it returns after a line feed or `count` bytes. -/
def keyboardRead (input : List Byte) (buf : Nat) (count : Int) : Handler :=
  let bytes := line (taken count input)
  Prog.pokes (offset buf) 0 bytes
    (if (bytes.length : Int) < count ∧ bytes.getLast? ≠ some 10#8 then .stuck
      else .done bytes.length)

/-- `mouse_read`: it waits for one packet at most. -/
def mouseRead (packets : List (List Byte)) (buf : Nat) (maxPackets nonblock : Int) : Handler :=
  let got := packets.take maxPackets.toNat
  Prog.pokes (offset buf) 0 got.flatten
    (if got = [] ∧ 0 < maxPackets ∧ nonblock = 0 then .stuck else .done got.length)

/-! ## Paths -/

section Paths

variable {ρ : Type}

/-- The loop over the slashes at the start of a segment. -/
def skipSlashes : Nat → Nat → (Nat → Prog ρ) → Prog ρ
  | 0, _, _ => .stuck
  | fuel + 1, path, k =>
    .peek path fun c => if c = slash then skipSlashes fuel (offset path 1) k else k path

def scanSegment : Nat → Nat → List Byte → (List Byte → Nat → Byte → Prog ρ) → Prog ρ
  | 0, _, _, _ => .stuck
  | fuel + 1, nextSlash, seg, k =>
    .peek nextSlash fun c =>
      if c = 0#8 ∨ c = slash then k seg nextSlash c
      else scanSegment fuel (offset nextSlash 1) (seg ++ [c]) k

/-- `vfs_find_node` behind a segment.  `rec` is the call for a child and the rest of the path. -/
def enterChild (vfs : Vfs) (parent : Nat) (k : Option Nat → Prog ρ) (rec : Nat → Nat → Prog ρ)
    (seg : List Byte) (nextSlash : Nat) (c : Byte) : Prog ρ :=
  match vfs.findChild seg seg.length (vfs.fresh + 1) (vfs.nodes parent).children with
  | none => .stuck
  | some none => k none
  | some (some child) => rec child (if c = slash then offset nextSlash 1 else nextSlash)

/-- `vfs_find_node` behind the slashes. -/
def findSegment (vfs : Vfs) (fuel parent : Nat) (k : Option Nat → Prog ρ)
    (rec : Nat → Nat → Prog ρ) (path : Nat) : Prog ρ :=
  .peek path fun c =>
    if c = 0#8 then k (some parent)
    else scanSegment fuel path [] (enterChild vfs parent k rec)

/-- `vfs_find_node` on a path that is not null. -/
def findFrom (vfs : Vfs) (k : Option Nat → Prog ρ) : Nat → Nat → Nat → Prog ρ
  | 0, _, _ => .stuck
  | fuel + 1, parent, path =>
    .peek path fun c =>
      if c = 0#8 then k (some parent)
      else skipSlashes fuel path (findSegment vfs fuel parent k (findFrom vfs k fuel))

/-- `vfs_find_node`.  No loop over the bytes of a path takes more turns than there are
addresses. -/
def vfsFindNode (vfs : Vfs) (path : Nat) (k : Option Nat → Prog ρ) : Prog ρ :=
  if path = 0 then k (some vfs.root) else findFrom vfs k (2 ^ 64) vfs.root path

end Paths

/-- The loop of `SYS_execve` and `copy_argv_from_user` over at most `fuel` bytes. -/
def copyString : Nat → Nat → Nat → (Nat → Handler) → Handler
  | 0, _, n, k => k n
  | fuel + 1, p, n, k =>
    .peek (offset p n) fun c => if c = 0#8 then k n else copyString fuel p (n + 1) k

def peekWord (p : Nat) (k : Nat → Handler) : Handler :=
  go 8 0 0
where
  /-- The bytes from the `i`-th on. -/
  go : Nat → Nat → Nat → Handler
    | 0, _, acc => k acc
    | n + 1, i, acc => .peek (offset p i) fun c => go n (i + 1) (acc + c.toNat * 256 ^ i)

/-- The loop of `copy_argv_from_user`. -/
def copyArgs : Nat → Nat → Nat → (Nat → Handler) → Handler
  | 0, _, argc, k => k argc
  | fuel + 1, argv, argc, k =>
    peekWord (offset argv (8 * argc)) fun str =>
      if str = 0 then k argc
      else copyString 127 str 0 fun _ => copyArgs fuel argv (argc + 1) k

def copyArgvFromUser (argv : Nat) (k : Nat → Handler) : Handler :=
  if argv = 0 then k 0 else copyArgs 8 argv 0 k

/-! ## The calls -/

/-- `SYS_read` on a file: the number of bytes, in 32 bits. -/
def fileBytes (data : List Byte) (off rdx : Nat) : Nat :=
  if (off + rdx % 2 ^ 32) % 2 ^ 32 > data.length then (data.length + 2 ^ 32 - off) % 2 ^ 32
  else rdx % 2 ^ 32

/-- The bytes `copy_to_user` is given for a read of a file. -/
def fileRead (data : List Byte) (off rdx : Nat) : List Byte :=
  (List.range (fileBytes data off rdx)).map fun i => data.getD (off + i) 0#8

def sysRead (inp : Inputs) (r : Regs) : Handler :=
  let onFd (fd : Fd) : Handler :=
    match fd with
    | .pipeRead arrives closes => pipeRead arrives closes r.rsi (toInt r.rdx)
    | .vfs data off =>
      copyToUser r.rsi (fileRead data off r.rdx) (.done (fileBytes data off r.rdx)) (.done (-14))
    | _ => .done (-9)
  if r.rdi = 0 then
    match inp.fd 0 with
    | .pipeRead arrives closes => pipeRead arrives closes r.rsi (toInt r.rdx)
    | _ => keyboardRead inp.keyboard r.rsi (toInt r.rdx)
  else if 3 ≤ r.rdi ∧ r.rdi < 32 then onFd (inp.fd r.rdi)
  else .done (-9)

def sysWrite (inp : Inputs) (r : Regs) : Handler :=
  if r.rdi = 1 then
    match inp.fd 1 with
    | .pipeWrite takes closes => pipeWrite takes closes r.rsi (toInt r.rdx)
    | _ => printN r.rsi r.rdx (.done r.rdx)
  else if 3 ≤ r.rdi ∧ r.rdi < 32 then
    match inp.fd r.rdi with
    | .pipeWrite takes closes => pipeWrite takes closes r.rsi (toInt r.rdx)
    | _ => .done (-9)
  else .done (-9)

/-- `SYS_open` with the node it has found. -/
def openNode (inp : Inputs) : Option Nat → Handler
  | none => .done (-2)
  | some file => if (inp.vfs.nodes file).type = .file then .done inp.result else .done (-2)

def sysOpen (inp : Inputs) (r : Regs) : Handler := vfsFindNode inp.vfs r.rdi (openNode inp)

/-- `SYS_execve` with the number of arguments.  If the image loads, it does not return. -/
def execArgs (inp : Inputs) (argc : Nat) : Handler :=
  if argc = 0 then .done (-22) else .done inp.result

/-- `SYS_execve` with the length of the path. -/
def execPath (inp : Inputs) (r : Regs) (n : Nat) : Handler :=
  if n = 0 then .done (-22) else copyArgvFromUser r.rsi (execArgs inp)

def sysExecve (inp : Inputs) (r : Regs) : Handler :=
  if r.rdi = 0 then .done (-14) else copyString 127 r.rdi 0 (execPath inp r)

/-- `SYS_readdir` with the node it has found. -/
def listNode (inp : Inputs) (r : Regs) : Option Nat → Handler
  | none => .done (-2)
  | some dir =>
    if (inp.vfs.nodes dir).type ≠ .directory then .done (-20)
    else
      match inp.vfs.packChildren (min (r.rdx % 2 ^ 32) 512) (inp.vfs.fresh + 1)
        (inp.vfs.nodes dir).children inp.kbuf 0 with
      | none => .stuck
      | some (kbuf, written) =>
        copyToUser r.rsi ((List.range written).map kbuf) (.done written) (.done (-14))

def sysReaddir (inp : Inputs) (r : Regs) : Handler := vfsFindNode inp.vfs r.rdi (listNode inp r)

def sysWait (inp : Inputs) (r : Regs) : Handler :=
  if inp.wait > 0 ∧ r.rsi ≠ 0 then copyToUser r.rsi inp.status (.done inp.wait) (.done (-14))
  else .done (if inp.wait < 0 then -10 else inp.wait)

def sysPipe (inp : Inputs) (r : Regs) : Handler :=
  match inp.pipe with
  | none => .done inp.result
  | some fds => copyToUser r.rdi fds (.done 0) (.done (-14))

/-- `SYS_fbmap`.  The pages are those after the framebuffer has been mapped. -/
def sysFbmap (inp : Inputs) (r : Regs) : Handler :=
  if inp.fbFree then copyToUser r.rdi inp.fbInfo (.done inp.result) (.done (-14))
  else .done (-16)

/-- The calls that go to the memory of their caller. -/
inductive Sys where
  | read
  | write
  | openFile
  | pipe
  | execve
  | wait
  | readdir
  | mouseRead
  | fbmap
  /-- Any other number. -/
  | other
deriving DecidableEq

def Sys.ofRax : Nat → Sys
  | 0 => .read
  | 1 => .write
  | 2 => .openFile
  | 22 => .pipe
  | 59 => .execve
  | 61 => .wait
  | 78 => .readdir
  | 90 => .mouseRead
  | 91 => .fbmap
  | _ => .other

/-- `syscall_handler_c`.  The other calls touch no memory of the caller. -/
def syscallHandler (inp : Inputs) (r : Regs) : Handler :=
  match Sys.ofRax r.rax with
  | .read => sysRead inp r
  | .write => sysWrite inp r
  | .openFile => sysOpen inp r
  | .pipe => sysPipe inp r
  | .execve => sysExecve inp r
  | .wait => sysWait inp r
  | .readdir => sysReaddir inp r
  | .mouseRead => mouseRead inp.mouse r.rdi (toInt r.rsi) (toInt r.rdx)
  | .fbmap => sysFbmap inp r
  | .other => .done inp.result

end Aeryk.User
