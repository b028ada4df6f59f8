import Aeryk.Lib.Bytes

/-!
# The physical memory manager

`pmm.c`: a bitmap with one bit per page, set while the page is allocated, and 16-bit reference
counts right behind its `bitmap_size` bytes.  Both lie in the memory that is managed, so the model
keeps bytes, and a bit that has no place in the bitmap falls into the counts.  Addresses are
physical, without `hhdm_offset`, and `NULL` is the address `0`.

`Tracks` says that the bitmap, the counts and the hint `bitmap_index` agree with a *ledger*: the
pages that are reserved, and the references that the calls have left on each other page.
`pmm_alloc_page` starts at the hint, so it finds the lowest free page only because every page below
the hint is allocated.
-/

namespace Aeryk.Mem

open Lib

def pageSize : Nat := 4096

/-- The static variables of `pmm.c`, with the memory its two arrays lie in. -/
structure Pmm where
  /-- Physical memory. -/
  mem : Bytes
  /-- `bitmap`, as a physical address. -/
  bitmap : Nat
  /-- `bitmap_size`, in bytes. -/
  bitmapSize : Nat
  highestAddress : Nat
  bitmapIndex : Nat

namespace Pmm

variable {m : Pmm} {i j : Nat}

/-- `highest_address / PAGE_SIZE`. -/
def pages (m : Pmm) : Nat := m.highestAddress / pageSize

def refcounts (m : Pmm) : Nat := m.bitmap + m.bitmapSize

def bitmapSet (m : Pmm) (bit : Nat) : Pmm := { m with mem := setBit m.mem m.bitmap bit }

def bitmapClear (m : Pmm) (bit : Nat) : Pmm := { m with mem := clearBit m.mem m.bitmap bit }

def bitmapTest (m : Pmm) (bit : Nat) : Bool := bitAt m.mem m.bitmap bit

/-- `refcounts[bit]`. -/
def refcount (m : Pmm) (bit : Nat) : Nat := wordAt m.mem m.refcounts bit

/-- The store `refcounts[bit] = v`. -/
def setRefcount (m : Pmm) (bit v : Nat) : Pmm :=
  { m with mem := setWord m.mem m.refcounts bit v }

/-- The first clear bit from `lo` on and below `hi`. -/
def scan (m : Pmm) (lo hi : Nat) : Option Nat :=
  (List.range' lo (hi - lo)).find? fun i => !m.bitmapTest i

/-- What both loops of `pmm_alloc_page` do with the page they find. -/
def take (m : Pmm) (i : Nat) : Pmm × Nat :=
  ({ m.bitmapSet i with bitmapIndex := i }.setRefcount i 1, i * pageSize)

def pmmAllocPage (m : Pmm) : Pmm × Nat :=
  match m.scan m.bitmapIndex m.pages with
  | some i => m.take i
  | none =>
    match m.scan 0 m.bitmapIndex with
    | some i => m.take i
    | none => (m, 0)

/-- `refcounts[bit]--`, if it is positive. -/
def dropRef (m : Pmm) (bit : Nat) : Pmm :=
  if m.refcount bit > 0 then m.setRefcount bit (m.refcount bit - 1) else m

/-- The end of `pmm_free_page`, for a page without references. -/
def release (m : Pmm) (bit : Nat) : Pmm :=
  if bit < m.bitmapIndex then { m.bitmapClear bit with bitmapIndex := bit }
  else m.bitmapClear bit

def pmmFreePage (m : Pmm) (page : Nat) : Pmm :=
  let bit := page / pageSize
  if m.bitmapTest bit = false then m
  else if (m.dropRef bit).refcount bit = 0 then (m.dropRef bit).release bit
  else m.dropRef bit

/-- `pmm_page_ref_inc`.  The count has 16 bits. -/
def pmmPageRefInc (m : Pmm) (page : Nat) : Pmm :=
  m.setRefcount (page / pageSize) (m.refcount (page / pageSize) + 1)

def pmmPageRefcount (m : Pmm) (page : Nat) : Nat := m.refcount (page / pageSize)

/-! ## Reads after stores -/

/-- Every page has its bit within the bytes of the bitmap. -/
def Covers (m : Pmm) : Prop := m.pages ≤ 8 * m.bitmapSize

instance (m : Pmm) : Decidable m.Covers := inferInstanceAs (Decidable (_ ≤ _))

theorem Covers.byte_lt (h : m.Covers) (hi : i < m.pages) : i / 8 < m.bitmapSize := by
  have h' : m.pages ≤ 8 * m.bitmapSize := h
  omega

@[simp] theorem bitmapTest_bitmapSet :
    (m.bitmapSet i).bitmapTest j = (decide (j = i) || m.bitmapTest j) :=
  bitAt_setBit ..

@[simp] theorem bitmapTest_bitmapClear :
    (m.bitmapClear i).bitmapTest j = (!decide (j = i) && m.bitmapTest j) :=
  bitAt_clearBit ..

theorem bitmapTest_setRefcount (h : m.Covers) (hj : j < m.pages) (v : Nat) :
    (m.setRefcount i v).bitmapTest j = m.bitmapTest j :=
  bitAt_setWord (h.byte_lt hj) ..

theorem refcount_bitmapSet (h : m.Covers) (hi : i < m.pages) :
    (m.bitmapSet i).refcount j = m.refcount j :=
  wordAt_setBit (h.byte_lt hi) ..

theorem refcount_bitmapClear (h : m.Covers) (hi : i < m.pages) :
    (m.bitmapClear i).refcount j = m.refcount j :=
  wordAt_clearBit (h.byte_lt hi) ..

@[simp] theorem refcount_setRefcount_same (v : Nat) :
    (m.setRefcount i v).refcount i = v % 65536 :=
  wordAt_setWord_same ..

theorem refcount_setRefcount_ne (h : j ≠ i) (v : Nat) :
    (m.setRefcount i v).refcount j = m.refcount j :=
  wordAt_setWord_ne _ _ _ h

theorem refcount_lt (m : Pmm) (i : Nat) : m.refcount i < 65536 := wordAt_lt ..

/-! ## The search -/

theorem scan_eq_some {lo hi : Nat} (h : m.scan lo hi = some i) :
    lo ≤ i ∧ i < hi ∧ m.bitmapTest i = false ∧ ∀ j, lo ≤ j → j < i → m.bitmapTest j = true := by
  rw [scan, List.find?_range'_eq_some] at h
  obtain ⟨hbit, hmem, hmin⟩ := h
  rw [List.mem_range'_1] at hmem
  simp only [Bool.not_eq_true'] at hbit
  refine ⟨hmem.1, by omega, hbit, ?_⟩
  intro j hlo hj
  simpa using hmin j hlo hj

theorem scan_eq_none {lo hi : Nat} (h : m.scan lo hi = none) (hlo : lo ≤ i) (hi' : i < hi) :
    m.bitmapTest i = true := by
  rw [scan, List.find?_range'_eq_none] at h
  simpa using h i hlo (by omega)

end Pmm
end Aeryk.Mem
