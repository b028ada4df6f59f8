import Aeryk.Vm.Calls

/-!
# The loader

`elf_load` of `elf.c`.  Everything the loader reads is at some distance from `file->data`, where
distances are 64-bit sums and wrap.  Kernel memory is a `View`: it may give every byte, or be
closed behind the end of the file, and then a read there has no answer and neither has the call.
The reads stand in the order and under the conditions of the source.

What the loader does to memory goes through `Frames`: `pmm_alloc_page`, the `memset` and `memcpy`
that fill a page, and `vmm_map_page`.  The result is `none` for `-1`, and the entry and the break
otherwise.
-/

namespace Aeryk.Elf

open Mem Vm

/-! ## Reads -/

/-- Kernel memory by the distance from `file->data`. -/
abbrev View := Nat → Option Byte

namespace View

/-- The bytes from a distance on, `n` of them. -/
def slice (v : View) : Nat → Nat → Option (List Byte)
  | _, 0 => some []
  | off, n + 1 => do
    let b ← v (off % 2 ^ 64)
    let rest ← v.slice (off + 1) n
    some (b :: rest)

/-- The number with these bytes, the lowest first. -/
def number : List Byte → Nat
  | [] => 0
  | b :: bs => b.toNat + 256 * number bs

def field (v : View) (off n : Nat) : Option Nat := (v.slice off n).map number

end View

/-! ## Pages and segments -/

structure Frames (σ : Type) where
  /-- `pmm_alloc_page`: the physical address of a page, or 0. -/
  alloc : σ → σ × Nat
  /-- `memset` and `memcpy`: the bytes of the page. -/
  fill : σ → Nat → (Nat → Byte) → σ
  /-- `vmm_map_page`, in the page table that is being filled. -/
  map : σ → Nat → Nat → Word → σ

section

variable {σ : Type} (fr : Frames σ) (v : View)

/-- The bytes of the page at `pageVaddr`: those of the file that fall into it, and zeros. -/
def pageBytes (ph pageVaddr : Nat) : Option (Nat → Byte) := do
  let fileStart ← v.field (ph + 16) 8
  let filesz ← v.field (ph + 32) 8
  let pageEnd := (pageVaddr + pageSize) % 2 ^ 64
  let fileEnd := (fileStart + filesz) % 2 ^ 64
  let copyStart := if pageVaddr > fileStart then pageVaddr else fileStart
  let copyEnd := if pageEnd < fileEnd then pageEnd else fileEnd
  if copyStart < copyEnd then
    let offset ← v.field (ph + 8) 8
    let bytes ← v.slice (offset + (copyStart - fileStart)) (copyEnd - copyStart)
    let pageOffset := copyStart - pageVaddr
    some fun i => if pageOffset ≤ i then bytes.getD (i - pageOffset) 0#8 else 0#8
  else some fun _ => 0#8

/-- The loop over the pages of a segment, `n` of them.  The answer is `false` if there is no
frame for one. -/
def loadPages (ph : Nat) (flags : Word) : Nat → Nat → σ → Option (σ × Bool)
  | 0, _, s => some (s, true)
  | n + 1, pageVaddr, s =>
    if (fr.alloc s).2 = 0 then some ((fr.alloc s).1, false)
    else do
      let bytes ← pageBytes v ph pageVaddr
      loadPages ph flags n (pageVaddr + pageSize)
        (fr.map (fr.fill (fr.alloc s).1 (fr.alloc s).2 bytes) pageVaddr (fr.alloc s).2 flags)

/-- The flags of the pages of a segment with these `p_flags`. -/
def segmentFlags (pFlags : Nat) : Word :=
  ptePresent ||| pteUser ||| (if pFlags &&& 2 ≠ 0 then pteWritable else 0#64) |||
    (if pFlags &&& 1 = 0 then pteNx else 0#64)

def pageAlignDown (addr : Nat) : Nat := addr / pageSize * pageSize

def segmentEnd (vaddr memsz : Nat) : Nat := pageAlignUp ((vaddr + memsz) % 2 ^ 64)

def ptLoad : Nat := 1

/-- The loop body for the program header at `ph`.  The answer is the new `highest_end`. -/
def loadSegment (ph highestEnd : Nat) (s : σ) : Option (σ × Option Nat) := do
  let type ← v.field ph 4
  if type ≠ ptLoad then some (s, some highestEnd)
  else
    let pFlags ← v.field (ph + 4) 4
    let vaddr ← v.field (ph + 16) 8
    let memsz ← v.field (ph + 40) 8
    let segStart := pageAlignDown vaddr
    let segEnd := segmentEnd vaddr memsz
    let r ← loadPages fr v ph (segmentFlags pFlags) ((segEnd - segStart) / pageSize) segStart s
    if r.2 then some (r.1, some (if segEnd > highestEnd then segEnd else highestEnd))
    else some (r.1, none)

/-- `sizeof(Elf64_Phdr)`. -/
def phdrSize : Nat := 56

/-- The loop over the program headers, `n` of them from `ph` on. -/
def loadSegments : Nat → Nat → Nat → σ → Option (σ × Option Nat)
  | 0, _, highestEnd, s => some (s, some highestEnd)
  | n + 1, ph, highestEnd, s => do
    let r ← loadSegment fr v ph highestEnd s
    match r.2 with
    | none => some (r.1, none)
    | some highestEnd => loadSegments n (ph + phdrSize) highestEnd r.1

def elfMagic : Nat := 0x464C457F

def elfClass64 : Nat := 2

def elfData2Lsb : Nat := 1

def etExec : Nat := 2

/-- The checks of the ELF header, one after the other. -/
def headerOk : Option Bool := do
  if (← v.field 0 4) ≠ elfMagic then some false
  else if (← v.field 4 1) ≠ elfClass64 then some false
  else if (← v.field 5 1) ≠ elfData2Lsb then some false
  else if (← v.field 16 2) ≠ etExec then some false
  else some true

/-- `elf_load`, with `file->data` if it is not null.  On success it gives `e_entry` and the
break. -/
def elfLoad (data : Option View) (s : σ) : Option (σ × Option (Nat × Nat)) :=
  match data with
  | none => some (s, none)
  | some v => do
    if (← headerOk v) = false then some (s, none)
    else
      let phoff ← v.field 32 8
      let phnum ← v.field 56 2
      let r ← loadSegments fr v phnum phoff 0 s
      match r.2 with
      | none => some (r.1, none)
      | some highestEnd => do
        let entry ← v.field 24 8
        some (r.1, some (entry, highestEnd))

end

/-! ## Files -/

/-- A file, and the kernel memory behind it. -/
structure File where
  bytes : Nat → Byte
  size : Nat
  /-- `size` is a `uint32_t`. -/
  size_lt : size < 2 ^ 32

namespace File

def memory (f : File) : View := fun off => some (f.bytes off)

def inside (f : File) : View := fun off => if off < f.size then some (f.bytes off) else none

def slice (f : File) (off n : Nat) : List Byte := (List.range n).map fun i => f.bytes (off + i)

def field (f : File) (off n : Nat) : Nat := View.number (f.slice off n)

end File

end Aeryk.Elf
