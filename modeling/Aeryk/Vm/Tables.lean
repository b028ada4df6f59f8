import Aeryk.Lib.Radix
import Aeryk.Vm.Pte

/-!
# Page tables

`vmm.c`.  A page frame is 512 words, whether it is a table or a page of a process, so there is one
memory for both and a store through a stale table is a store to somebody's page.  A pointer to a
table is the number of its page frame, without `hhdm_offset`.

The nested loops of `vmm_destroy_user_pagetable` and `vmm_clone_user_pagetable` do the same at
every level except the last, and are written by recursion on the level: level 3 is the `pml4`, of
which the first 256 entries are visited, and level 0 is the page table.  `nulls`, which the source
does not have, counts the `NULL`s of `pmm_alloc_page`.
-/

namespace Aeryk.Vm

open Lib Mem

/-- The page allocator, the page frames, and `kernel_pml4`. -/
structure Memory where
  pmm : Pmm
  /-- The words of each page frame. -/
  words : Nat → Nat → Word
  kernelPml4 : Nat
  /-- How often `pmm_alloc_page` has answered `NULL`. -/
  nulls : Nat

namespace Memory

/-- `pmm_alloc_page`. -/
def alloc (m : Memory) : Memory × Nat :=
  ({ m with
      pmm := m.pmm.pmmAllocPage.1
      nulls := if m.pmm.pmmAllocPage.2 = 0 then m.nulls + 1 else m.nulls },
    m.pmm.pmmAllocPage.2)

/-- `pmm_free_page`. -/
def free (m : Memory) (phys : Nat) : Memory := { m with pmm := m.pmm.pmmFreePage phys }

def refInc (m : Memory) (phys : Nat) : Memory := { m with pmm := m.pmm.pmmPageRefInc phys }

def set (m : Memory) (table i : Nat) (w : Word) : Memory :=
  { m with words := Radix.store m.words table i w }

def setPage (m : Memory) (frame : Nat) (ws : Nat → Word) : Memory :=
  { m with words := Function.update m.words frame ws }

/-- `memset(phys + hhdm_offset, 0, PAGE_SIZE)`. -/
def clearPage (m : Memory) (phys : Nat) : Memory := m.setPage (phys / pageSize) fun _ => 0#64

/-- `memcpy(dst + hhdm_offset, src + hhdm_offset, PAGE_SIZE)`. -/
def copyPage (m : Memory) (dst src : Nat) : Memory :=
  m.setPage (dst / pageSize) (m.words (src / pageSize))

/-- `(virtual_addr >> (12 + 9 * level)) & 0x1FF`. -/
def index (level va : Nat) : Nat := va / 2 ^ (12 + 9 * level) % 512

/-- The flags of the entry `get_next_level` makes for a new table. -/
def tableFlags : Word := ptePresent ||| pteWritable ||| pteUser

def getNextLevel (m : Memory) (table i : Nat) : Memory × Option Nat :=
  if isSet (m.words table i) ptePresent then (m, some (frameOf (m.words table i)))
  else if m.alloc.2 = 0 then (m.alloc.1, none)
  else
    ((m.alloc.1.clearPage m.alloc.2).set table i (entry m.alloc.2 tableFlags),
      some (m.alloc.2 / pageSize))

/-- `vmm_map_page`.  It returns nothing, also where a table is missing. -/
def mapPage (m : Memory) (pml4 va phys : Nat) (flags : Word) : Memory :=
  match m.getNextLevel pml4 (index 3 va) with
  | (m, none) => m
  | (m, some pdpt) =>
    match m.getNextLevel pdpt (index 2 va) with
    | (m, none) => m
    | (m, some pd) =>
      match m.getNextLevel pd (index 1 va) with
      | (m, none) => m
      | (m, some pt) => m.set pt (index 0 va) (entry phys flags)

/-- The page table that `vmm_unmap_page` and `vmm_handle_cow_fault` walk to. -/
def walk (m : Memory) (pml4 va : Nat) : Option Nat :=
  (child (m.words pml4 (index 3 va))).bind fun pdpt =>
    (child (m.words pdpt (index 2 va))).bind fun pd => child (m.words pd (index 1 va))

def unmapPage (m : Memory) (pml4 va : Nat) : Memory :=
  match m.walk pml4 va with
  | none => m
  | some pt =>
    let w := m.words pt (index 0 va)
    if isSet w ptePresent = false then m
    else if isSet w pteNopmm then m.set pt (index 0 va) 0#64
    else (m.set pt (index 0 va) 0#64).free (physOf w)

def handleCowFault (m : Memory) (pml4 va : Nat) : Memory × Bool :=
  match m.walk pml4 va with
  | none => (m, false)
  | some pt =>
    let w := m.words pt (index 0 va)
    let flags := w &&& flagsMask &&& ~~~pteCow ||| pteWritable
    if isSet w ptePresent = false ∨ isSet w pteCow = false then (m, false)
    else if m.pmm.pmmPageRefcount (physOf w) = 1 then
      (m.set pt (index 0 va) (entry (physOf w) flags), true)
    else if m.alloc.2 = 0 then (m.alloc.1, false)
    else
      (((m.alloc.1.copyPage m.alloc.2 (physOf w)).set pt (index 0 va)
        (entry m.alloc.2 flags)).free (physOf w), true)

/-- The loop of `vmm_new_user_pagetable`: entries 256 to 511 are those of the kernel. -/
def copyKernelHalf (m : Memory) (pml4 : Nat) : Memory :=
  m.setPage pml4 fun i =>
    if 256 ≤ i ∧ i < 512 then m.words m.kernelPml4 i else m.words pml4 i

def newUserPagetable (m : Memory) : Memory × Option Nat :=
  if m.alloc.2 = 0 then (m.alloc.1, none)
  else
    ((m.alloc.1.clearPage m.alloc.2).copyKernelHalf (m.alloc.2 / pageSize),
      some (m.alloc.2 / pageSize))

/-- The loops of `vmm_destroy_user_pagetable` over the first `n` entries of a table. -/
def destroyTable : Nat → Memory → Nat → Nat → Memory
  | 0, m, pt, n =>
    (List.range n).foldl
      (fun m i =>
        if isSet (m.words pt i) ptePresent && !isSet (m.words pt i) pteNopmm then
          m.free (physOf (m.words pt i))
        else m) m
  | level + 1, m, table, n =>
    (List.range n).foldl
      (fun m i =>
        if isSet (m.words table i) ptePresent then
          (destroyTable level m (frameOf (m.words table i)) 512).free
            (physOf (m.words table i))
        else m) m

def destroyUserPagetable (m : Memory) (pml4 : Nat) : Memory :=
  (destroyTable 3 m pml4 256).free (pml4 * pageSize)

/-- The flags a leaf entry has after a fork, in the parent and in the child. -/
def forkFlags (w : Word) : Word :=
  if isSet (w &&& flagsMask) pteWritable && !isSet (w &&& flagsMask) (pteShared ||| pteNopmm) then
    w &&& flagsMask &&& ~~~pteWritable ||| pteCow
  else w &&& flagsMask

/-- The store of `vmm_clone_user_pagetable` to an entry of the parent. -/
def downgrade (m : Memory) (pt i : Nat) : Memory :=
  let w := m.words pt i
  if isSet (w &&& flagsMask) pteWritable && !isSet (w &&& flagsMask) (pteShared ||| pteNopmm) then
    m.set pt i (entry (physOf w) (forkFlags w))
  else m

/-- The innermost body of `vmm_clone_user_pagetable`. -/
def clonePage (m : Memory) (dst pt i va : Nat) : Memory :=
  let w := m.words pt i
  if isSet w ptePresent = false then m
  else if isSet (forkFlags w) pteNopmm then
    (m.downgrade pt i).mapPage dst va (physOf w) (forkFlags w)
  else ((m.downgrade pt i).refInc (physOf w)).mapPage dst va (physOf w) (forkFlags w)

/-- The loops of `vmm_clone_user_pagetable` over the first `n` entries of a table whose
pages start at `va`. -/
def cloneTable (dst : Nat) : Nat → Memory → Nat → Nat → Nat → Memory
  | 0, m, pt, n, va =>
    (List.range n).foldl (fun m i => m.clonePage dst pt i (va + i * 2 ^ 12)) m
  | level + 1, m, table, n, va =>
    (List.range n).foldl
      (fun m i =>
        if isSet (m.words table i) ptePresent then
          cloneTable dst level m (frameOf (m.words table i)) 512
            (va + i * 2 ^ (12 + 9 * (level + 1)))
        else m) m

def cloneUserPagetable (m : Memory) (src : Nat) : Memory × Option Nat :=
  match m.newUserPagetable with
  | (m, none) => (m, none)
  | (m, some dst) => (cloneTable dst 3 m src 256 0, some dst)

end Memory
end Aeryk.Vm
