import Aeryk.Proc.Kernel
import Aeryk.Vm.Fresh

/-!
# The memory calls

`SYS_mmap`, `SYS_munmap`, `SYS_brk` and `SYS_fbmap` of `syscall.c`, over the memory and the fields
of the caller that they use.  Addresses, lengths and the value left in `rax` are 64-bit.  `cr3` and
the kernel stack are given by the numbers of their page frames.

`SYS_mmap` and `SYS_brk` add pages one by one until the count is reached or no frame is left
(`mapPages`).
-/

namespace Aeryk.Vm

open Mem Memory

/-- The fields of `process_t` that the memory calls use. -/
structure Task where
  pid : Nat
  /-- The page frame of the `pml4`. -/
  cr3 : Nat
  /-- The page frame of the kernel stack. -/
  kernelStack : Nat
  brkStart : Nat
  brk : Nat
  mmapNext : Nat
deriving DecidableEq

/-- `rax` for an error number. -/
def errno (n : Nat) : Nat := 2 ^ 64 - n

def enomem : Nat := 12

def efault : Nat := 14

def ebusy : Nat := 16

def einval : Nat := 22

def protWrite : Nat := 0x2

def protExec : Nat := 0x4

def mapShared : Nat := 0x01

def mapPrivate : Nat := 0x02

def mapAnonymous : Nat := 0x20

/-- `(length + PAGE_SIZE - 1) / PAGE_SIZE`. -/
def pagesOf (length : Nat) : Nat := (length + (pageSize - 1)) % 2 ^ 64 / pageSize

/-- `(addr + PAGE_SIZE - 1) & ~(PAGE_SIZE - 1)`. -/
def pageAlignUp (addr : Nat) : Nat := (addr + (pageSize - 1)) % 2 ^ 64 / pageSize * pageSize

/-- Adds `n` pages from page `i` behind `base` on, if there are frames.  The answer is where it
stopped. -/
def mapPages (pml4 base : Nat) (flags : Word) : Nat → Nat → Memory → Memory × Nat
  | 0, i, m => (m, i)
  | n + 1, i, m =>
    match m.mapNewPage pml4 ((base + i * pageSize) % 2 ^ 64) flags with
    | (m, false) => (m, i)
    | (m, true) => mapPages pml4 base flags n (i + 1) m

/-- The flags `SYS_mmap` gives its pages. -/
def mmapFlags (prot flags : Nat) : Word :=
  ptePresent ||| pteUser ||| (if prot &&& protWrite ≠ 0 then pteWritable else 0#64) |||
    (if prot &&& protExec = 0 then pteNx else 0#64) |||
    (if flags &&& mapShared ≠ 0 then pteShared else 0#64)

def sysMmap (m : Memory) (t : Task) (length prot flags : Nat) (fd : Int) : Memory × Task × Nat :=
  if length = 0 ∨ fd ≠ -1 ∨ flags &&& mapAnonymous = 0 ∨
      flags &&& (mapShared ||| mapPrivate) = 0 then
    (m, t, errno einval)
  else
    let r := mapPages t.cr3 t.mmapNext (mmapFlags prot flags) (pagesOf length) 0 m
    if r.2 < pagesOf length then (r.1, t, errno enomem)
    else
      (r.1, { t with mmapNext := (t.mmapNext + pagesOf length * pageSize) % 2 ^ 64 }, t.mmapNext)

/-- The loop of `SYS_munmap`. -/
def unmapPages (m : Memory) (pml4 addr n : Nat) : Memory :=
  (List.range n).foldl (fun m i => m.unmapPage pml4 ((addr + i * pageSize) % 2 ^ 64)) m

def sysMunmap (m : Memory) (t : Task) (addr length : Nat) : Memory × Nat :=
  if length = 0 ∨ addr % pageSize ≠ 0 ∨ addr < mmapBase then (m, errno einval)
  else (unmapPages m t.cr3 addr (pagesOf length), 0)

def sysBrk (m : Memory) (t : Task) (requested : Nat) : Memory × Task × Nat :=
  if requested = 0 then (m, t, t.brk)
  else if requested < t.brkStart then (m, t, t.brk)
  else
    let oldTop := pageAlignUp t.brk
    let newTop := pageAlignUp requested
    -- none if `new_top` is not above `old_top`
    let n := (newTop - oldTop) / pageSize
    let r := mapPages t.cr3 oldTop dataFlags n 0 m
    if r.2 < n then (r.1, t, t.brk) else (r.1, { t with brk := requested }, requested)

/-- Where the frame buffer is, and how large. -/
structure FrameBuffer where
  /-- `base_address`, as a physical address. -/
  physBase : Nat
  size : Nat

/-- `fb_has_owner` and `fb_owner_pid`. -/
structure FbOwner where
  has : Bool
  pid : Nat
deriving DecidableEq

/-- The flags `SYS_fbmap` gives its pages. -/
def fbFlags : Word :=
  ptePresent ||| pteWritable ||| pteUser ||| pteNx ||| pteNopmm ||| ptePwt

/-- The loop of `SYS_fbmap`. -/
def mapFramebuffer (m : Memory) (pml4 base physBase n : Nat) : Memory :=
  (List.range n).foldl
    (fun m i => m.mapPage pml4 ((base + i * pageSize) % 2 ^ 64) ((physBase + i * pageSize) % 2 ^ 64)
      fbFlags) m

/-- `SYS_fbmap`.  `copied` says whether `copy_to_user` could write the answer. -/
def sysFbmap (m : Memory) (t : Task) (o : FbOwner) (fb : FrameBuffer) (copied : Bool) :
    Memory × Task × FbOwner × Nat :=
  if o.has ∧ o.pid ≠ t.pid then (m, t, o, errno ebusy)
  else
    (mapFramebuffer m t.cr3 t.mmapNext fb.physBase (pagesOf fb.size),
      { t with mmapNext := (t.mmapNext + pagesOf fb.size * pageSize) % 2 ^ 64 },
      ⟨true, t.pid⟩, if copied then t.mmapNext else errno efault)

end Aeryk.Vm
