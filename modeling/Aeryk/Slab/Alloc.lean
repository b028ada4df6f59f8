import Mathlib.Algebra.GroupWithZero.Nat
import Mathlib.Data.Finset.Basic
import Mathlib.Data.Fin.VecNotation
import Mathlib.Logic.Function.Basic

/-!
# The slab allocator

`slab.rs`: `init_slab`, `kmalloc` and `kfree` over pages of the physical memory manager.  A slab is
one page.  Its header stands at the start of the page, and a free chunk holds the link to the next
one in its first word.  So the model keeps raw memory, by 8-byte words, and the header fields are
words at fixed offsets.

A pointer to a cache is the index of the cache in `KMALLOC_CACHES`.  What `pmm_alloc_page` answers
is an argument of `kmalloc`, and the frames the allocator has not given back are kept in `held`.
-/

namespace Aeryk.Slab

open Function

/-- Memory, by the word at each address that is a multiple of 8.  Null is `0`. -/
abbrev Words := Nat → Nat

def slabMagic : Nat := 0x51AB51AB

abbrev numCaches : Nat := 8

scoped instance : NeZero numCaches := ⟨by decide⟩

/-- A place in `KMALLOC_CACHES`. -/
abbrev CacheId := Fin numCaches

def cacheSizes : CacheId → Nat := ![16, 32, 64, 128, 256, 512, 1024, 2048]

def pageSize : Nat := 4096

/-- `size_of::<Slab>()`. -/
def slabHeaderSize : Nat := 56

/-! ## `Slab` and `SlabChunk` in memory -/

/-- The fields of `Slab`. -/
inductive Field where
  | magic
  | next
  | prev
  | cache
  | freeList
  | freeChunks
  | totalChunks
deriving DecidableEq

/-- Where a field stands in the header, under `repr(C)`. -/
def Field.offset : Field → Nat
  | .magic => 0
  | .next => 8
  | .prev => 16
  | .cache => 24
  | .freeList => 32
  | .freeChunks => 40
  | .totalChunks => 48

def read (m : Words) (s : Nat) (f : Field) : Nat := m (s + f.offset)

/-- Memory after a store to a field of the slab at `s`. -/
def write (m : Words) (s : Nat) (f : Field) (v : Nat) : Words :=
  update m (s + f.offset) v

/-- A store to a field of the slab at `s` if `s` is not null. -/
def writeIf (m : Words) (s : Nat) (f : Field) (v : Nat) : Words :=
  if s ≠ 0 then write m s f v else m

/-- `(*s).magic`, the low half of its word. -/
def magic (m : Words) (s : Nat) : Nat := read m s .magic % 2 ^ 32

/-- A store to `(*s).magic`, which leaves the padding behind it alone. -/
def setMagic (m : Words) (s : Nat) (v : Nat) : Words :=
  write m s .magic (read m s .magic / 2 ^ 32 * 2 ^ 32 + v)

/-- `(*c).next` of a `SlabChunk`. -/
def chunkNext (m : Words) (c : Nat) : Nat := m c

/-- A store to `(*c).next` of a `SlabChunk`. -/
def setChunkNext (m : Words) (c v : Nat) : Words := update m c v

/-- `write_bytes(page, 0, PAGE_SIZE)`. -/
def zeroPage (m : Words) (page : Nat) : Words :=
  fun a => if page ≤ a ∧ a < page + pageSize then 0 else m a

/-! ## The lists of a cache -/

/-- `list_remove`.  The head cell is passed by value and comes back with the memory. -/
def listRemove (m : Words) (head s : Nat) : Words × Nat :=
  let m := writeIf m (read m s .prev) .next (read m s .next)
  let m := writeIf m (read m s .next) .prev (read m s .prev)
  (m, if head = s then read m s .next else head)

def listAdd (m : Words) (head s : Nat) : Words × Nat :=
  let m := write m s .next head
  let m := write m s .prev 0
  let m := writeIf m head .prev s
  (m, s)

/-- The list heads of `SlabCache`. -/
inductive SlabList where
  | slabsPartial
  | slabsFree
  | slabsFull
deriving DecidableEq

structure Cache where
  objectSize : Nat
  head : SlabList → Nat

def emptyCache : Cache where
  objectSize := 0
  head := fun _ => 0

/-- Memory, `KMALLOC_CACHES`, the frames held from the memory manager, and what has been printed.
-/
structure State where
  mem : Words
  caches : CacheId → Cache
  held : Finset Nat
  printed : List String

/-- The state with a new memory and a new head for one list. -/
def State.setHead (st : State) (i : CacheId) (l : SlabList) (r : Words × Nat) : State :=
  { st with
    mem := r.1
    caches := update st.caches i
      { st.caches i with head := update (st.caches i).head l r.2 } }

/-- `list_remove(&raw mut (*cache).l, s)`. -/
def State.listRemove (st : State) (i : CacheId) (l : SlabList) (s : Nat) : State :=
  st.setHead i l (Slab.listRemove st.mem ((st.caches i).head l) s)

/-- `list_add(&raw mut (*cache).l, s)`. -/
def State.listAdd (st : State) (i : CacheId) (l : SlabList) (s : Nat) : State :=
  st.setHead i l (Slab.listAdd st.mem ((st.caches i).head l) s)

def initSlab (st : State) : State :=
  { st with caches := fun i => { emptyCache with objectSize := cacheSizes i } }

/-! ## New slabs -/

/-- The memory after `chunk` has been put in front of the free list of `slab`. -/
def pushChunk (m : Words) (slab chunk : Nat) : Words :=
  let m := setChunkNext m chunk (read m slab .freeList)
  let m := write m slab .freeList chunk
  write m slab .freeChunks (read m slab .freeChunks + 1)

/-- The loop of `allocate_new_slab` that cuts the page into chunks. -/
def carve (slab objSize dataEnd : Nat) : Nat → Words → Nat → Words
  | 0, m, _ => m
  | fuel + 1, m, chunkAddr =>
    if chunkAddr + objSize ≤ dataEnd then
      carve slab objSize dataEnd fuel (pushChunk m slab chunkAddr) (chunkAddr + objSize)
    else m

/-- The stores of `allocate_new_slab` to the page it got. -/
def formatSlab (m : Words) (page : Nat) (i : CacheId) (objSize : Nat) : Words :=
  let m := zeroPage m page
  let m := setMagic m page slabMagic
  let m := write m page .cache i
  let m := write m page .next 0
  let m := write m page .prev 0
  let m := write m page .freeList 0
  let m := write m page .freeChunks 0
  let dataStart := (page + slabHeaderSize + 15) / 16 * 16
  let dataEnd := page + pageSize
  -- every turn moves on by at least 16 bytes, so the page size is fuel enough
  let m := carve page objSize dataEnd pageSize m dataStart
  write m page .totalChunks (read m page .freeChunks)

/-- `allocate_new_slab`.  `answer` is what `pmm_alloc_page` returns. -/
def allocateNewSlab (hhdm : Nat) (st : State) (i : CacheId) (answer : Nat) : State × Nat :=
  if answer = 0 then (st, 0)
  else
    let page := answer + hhdm
    ({ st with
       mem := formatSlab st.mem page i (st.caches i).objectSize
       held := insert answer st.held }, page)

/-! ## `kmalloc` -/

/-- The slab `kmalloc` takes a chunk from, at the head of the list of partial slabs. -/
def targetSlab (hhdm : Nat) (st : State) (i : CacheId) (answer : Nat) : State × Nat :=
  let target := (st.caches i).head .slabsPartial
  if target = 0 then
    let target := (st.caches i).head .slabsFree
    if target ≠ 0 then
      ((st.listRemove i .slabsFree target).listAdd i .slabsPartial target, target)
    else
      let r := allocateNewSlab hhdm st i answer
      if r.2 = 0 then (r.1, 0) else (r.1.listAdd i .slabsPartial r.2, r.2)
  else (st, target)

/-- The memory after the head of the free list of `slab` has been taken. -/
def popChunk (m : Words) (slab : Nat) : Words :=
  let m := write m slab .freeList (chunkNext m (read m slab .freeList))
  write m slab .freeChunks (read m slab .freeChunks - 1)

/-- The second half of `kmalloc`: take a chunk and move a slab that is now full. -/
def takeChunk (st : State) (i : CacheId) (target : Nat) : State × Nat :=
  let chunk := read st.mem target .freeList
  let st := { st with mem := popChunk st.mem target }
  if read st.mem target .freeChunks = 0 then
    ((st.listRemove i .slabsPartial target).listAdd i .slabsFull target, chunk)
  else (st, chunk)

def kmalloc (hhdm : Nat) (st : State) (size : Nat) (answer : Nat) : State × Nat :=
  if size = 0 then (st, 0)
  else if 2048 < size then
    ({ st with
       printed := st.printed ++ ["[!] kmalloc: Allocations > 2048 bytes not supported!\n"] }, 0)
  else
    match (List.finRange numCaches).find? (fun i => size ≤ cacheSizes i) with
    | none => (st, 0)
    | some i =>
      let r := targetSlab hhdm st i answer
      if r.2 = 0 then (r.1, 0) else takeChunk r.1 i r.2

/-! ## `kfree` -/

/-- The page a pointer lies in: `ptr & !0xFFF`. -/
def pageBase (p : Nat) : Nat := p / 4096 * 4096

/-- The part of `kfree` behind the magic check. -/
def giveChunk (hhdm : Nat) (st : State) (i : CacheId) (slab chunk : Nat) : State :=
  let st :=
    if read st.mem slab .freeChunks = 0 then
      (st.listRemove i .slabsFull slab).listAdd i .slabsPartial slab
    else st
  let st := { st with mem := pushChunk st.mem slab chunk }
  if read st.mem slab .freeChunks = read st.mem slab .totalChunks then
    let st := st.listRemove i .slabsPartial slab
    { st with held := st.held.erase (slab - hhdm) }
  else st

def kfree (hhdm : Nat) (st : State) (p : Nat) : State :=
  if p = 0 then st
  else
    let slab := pageBase p
    if magic st.mem slab ≠ slabMagic then
      { st with
        printed := st.printed ++
          ["[!] kfree: Invalid pointer or magic mismatch. Memory corruption avoided.\n"] }
    else
      giveChunk hhdm st (Fin.ofNat numCaches (read st.mem slab .cache)) slab p

end Aeryk.Slab
