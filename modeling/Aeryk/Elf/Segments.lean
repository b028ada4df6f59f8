import Aeryk.Elf.Loader
import Aeryk.Lib.Packing
import Aeryk.Vm.Pages

/-!
# The pages of an executable

`elf_load` over the memory of the kernel.  With the file in memory every read has an answer, so the
loader maps a list of pages that is known from the file alone, those of the `PT_LOAD` segments in
the order of their headers (`elfLoad_memory`).
-/

namespace Aeryk.Elf

open List Lib Mem Vm

/-- A `PT_LOAD` program header. -/
structure Segment where
  offset : Nat
  vaddr : Nat
  filesz : Nat
  memsz : Nat
  flags : Nat
deriving DecidableEq

namespace Segment

def start (s : Segment) : Nat := pageAlignDown s.vaddr

/-- `seg_end`. -/
def stop (s : Segment) : Nat := segmentEnd s.vaddr s.memsz

def count (s : Segment) : Nat := (s.stop - s.start) / pageSize

end Segment

namespace File

def ram (f : File) (off n : Nat) : List Byte :=
  (range n).map fun i => f.bytes ((off + i) % 2 ^ 64)

def number (f : File) (off n : Nat) : Nat := View.number (f.ram off n)

def segmentAt (f : File) (ph : Nat) : Segment where
  offset := f.number (ph + 8) 8
  vaddr := f.number (ph + 16) 8
  filesz := f.number (ph + 32) 8
  memsz := f.number (ph + 40) 8
  flags := f.number (ph + 4) 4

/-- The segments of the `n` program headers from `ph` on. -/
def segmentsFrom (f : File) : Nat → Nat → List Segment
  | 0, _ => []
  | n + 1, ph =>
    if f.number ph 4 = ptLoad then f.segmentAt ph :: f.segmentsFrom n (ph + phdrSize)
    else f.segmentsFrom n (ph + phdrSize)

def segments (f : File) : List Segment := f.segmentsFrom (f.number 56 2) (f.number 32 8)

/-- What a page of a segment is filled with. -/
def pageOfSegment (f : File) (s : Segment) (pageVaddr : Nat) : Nat → Byte :=
  let pageEnd := (pageVaddr + pageSize) % 2 ^ 64
  let fileEnd := (s.vaddr + s.filesz) % 2 ^ 64
  let copyStart := if pageVaddr > s.vaddr then pageVaddr else s.vaddr
  let copyEnd := if pageEnd < fileEnd then pageEnd else fileEnd
  if copyStart < copyEnd then
    let bytes := f.ram (s.offset + (copyStart - s.vaddr)) (copyEnd - copyStart)
    let pageOffset := copyStart - pageVaddr
    fun i => if pageOffset ≤ i then bytes.getD (i - pageOffset) 0#8 else 0#8
  else fun _ => 0#8

/-- The pages of a segment from an address on. -/
def pagesFrom (f : File) (s : Segment) (n pageVaddr : Nat) : List NewPage :=
  (range n).map fun k =>
    ⟨pageVaddr + k * pageSize, segmentFlags s.flags,
      wordsOf (f.pageOfSegment s (pageVaddr + k * pageSize))⟩

def newPages (f : File) (s : Segment) : List NewPage := f.pagesFrom s s.count s.start

def image (f : File) : List NewPage := f.segments.flatMap f.newPages

def Accepted (f : File) : Prop :=
  f.number 0 4 = elfMagic ∧ f.number 4 1 = elfClass64 ∧ f.number 5 1 = elfData2Lsb ∧
    f.number 16 2 = etExec

instance (f : File) : Decidable f.Accepted :=
  inferInstanceAs (Decidable (_ ∧ _ ∧ _ ∧ _))

def entry (f : File) : Nat := f.number 24 8

end File

/-- `highest_end` after some more segments. -/
def highest (highestEnd : Nat) (ss : List Segment) : Nat :=
  ss.foldl (fun e s => if s.stop > e then s.stop else e) highestEnd

/-- The frames of the kernel, for a page table. -/
def frames (pml4 : Nat) : Frames Memory where
  alloc := Memory.alloc
  fill m phys bytes := m.setPage (phys / pageSize) (wordsOf bytes)
  map m va phys flags := m.mapPage pml4 va phys flags

section

variable {f : File} {r : Nat} {m : Memory}

/-! ## Reads -/

theorem memory_slice (f : File) (off n : Nat) : f.memory.slice off n = some (f.ram off n) := by
  induction n generalizing off with
  | zero => rfl
  | succ n ih =>
    rw [View.slice, ih]
    unfold File.ram File.memory
    dsimp only [Option.bind_eq_bind, Option.bind_some]
    rw [range_succ_eq_map, map_cons, map_map, Nat.add_zero]
    refine congrArg (fun l => some (_ :: l)) (map_congr_left fun i _ => ?_)
    rw [Function.comp_apply, Nat.succ_eq_add_one, Nat.add_comm i 1, Nat.add_assoc]

theorem memory_field (f : File) (off n : Nat) : f.memory.field off n = some (f.number off n) := by
  unfold View.field
  rw [memory_slice]
  rfl

theorem memory_pageBytes (f : File) (ph pageVaddr : Nat) :
    pageBytes f.memory ph pageVaddr = some (f.pageOfSegment (f.segmentAt ph) pageVaddr) := by
  unfold pageBytes File.pageOfSegment
  simp only [memory_field, memory_slice, Option.bind_eq_bind, Option.bind_some, File.segmentAt]
  exact (apply_ite some _ _ _).symm

theorem memory_headerOk (f : File) : headerOk f.memory = some (decide f.Accepted) := by
  unfold headerOk
  rw [memory_field, memory_field, memory_field, memory_field]
  dsimp only [Option.bind_eq_bind, Option.bind_some]
  unfold File.Accepted
  by_cases h₁ : f.number 0 4 = elfMagic
  · by_cases h₂ : f.number 4 1 = elfClass64
    · by_cases h₃ : f.number 5 1 = elfData2Lsb
      · by_cases h₄ : f.number 16 2 = etExec
        · simp [h₁, h₂, h₃, h₄]
        · simp [h₁, h₂, h₃, h₄]
      · simp [h₁, h₂, h₃]
    · simp [h₁, h₂]
  · simp [h₁]

/-! ## The loops -/

theorem mapAll_append (r : Nat) (ps qs : List NewPage) (m : Memory) :
    Memory.mapAll r (ps ++ qs) m =
      if (Memory.mapAll r ps m).2 then Memory.mapAll r qs (Memory.mapAll r ps m).1
      else Memory.mapAll r ps m := by
  induction ps generalizing m with
  | nil => rfl
  | cons p ps ih =>
    rw [cons_append, Memory.mapAll, Memory.mapAll]
    split
    · exact ih _
    · rfl

theorem pagesFrom_succ (f : File) (s : Segment) (n pageVaddr : Nat) :
    f.pagesFrom s (n + 1) pageVaddr =
      ⟨pageVaddr, segmentFlags s.flags, wordsOf (f.pageOfSegment s pageVaddr)⟩ ::
        f.pagesFrom s n (pageVaddr + pageSize) := by
  unfold File.pagesFrom
  rw [range_succ_eq_map, map_cons, map_map, Nat.zero_mul, Nat.add_zero]
  refine congrArg (cons _) (map_congr_left fun k _ => ?_)
  have hk : pageVaddr + (k + 1) * pageSize = pageVaddr + pageSize + k * pageSize := by
    rw [Nat.succ_mul]
    omega
  rw [Function.comp_apply, Nat.succ_eq_add_one, hk]

theorem loadPages_memory (f : File) (ph n pageVaddr : Nat) (m : Memory) :
    loadPages (frames r) f.memory ph (segmentFlags (f.segmentAt ph).flags) n pageVaddr m =
      some (Memory.mapAll r (f.pagesFrom (f.segmentAt ph) n pageVaddr) m) := by
  induction n generalizing pageVaddr m with
  | zero => rfl
  | succ n ih =>
    rw [loadPages, pagesFrom_succ, Memory.mapAll]
    unfold Memory.mapFilledPage
    by_cases hphys : m.alloc.2 = 0
    · rw [if_pos hphys, if_neg Bool.false_ne_true]
      exact if_pos hphys
    · rw [if_neg hphys, if_pos rfl, memory_pageBytes]
      refine (if_neg hphys).trans ?_
      exact ih _ _

theorem loadSegment_memory (f : File) (ph highestEnd : Nat) (m : Memory) :
    loadSegment (frames r) f.memory ph highestEnd m =
      some (if f.number ph 4 = ptLoad then
        ((Memory.mapAll r (f.newPages (f.segmentAt ph)) m).1,
          if (Memory.mapAll r (f.newPages (f.segmentAt ph)) m).2 then
            some (if (f.segmentAt ph).stop > highestEnd then (f.segmentAt ph).stop
              else highestEnd)
          else none)
      else (m, some highestEnd)) := by
  unfold loadSegment
  rw [memory_field, memory_field, memory_field, memory_field]
  dsimp only [Option.bind_eq_bind, Option.bind_some]
  by_cases hload : f.number ph 4 = ptLoad
  · rw [if_neg (not_not.mpr hload), if_pos hload]
    have hpages := loadPages_memory (r := r) f ph (f.segmentAt ph).count (f.segmentAt ph).start m
    have hpages' : loadPages (frames r) f.memory ph (segmentFlags (f.number (ph + 4) 4))
        ((segmentEnd (f.number (ph + 16) 8) (f.number (ph + 40) 8) -
          pageAlignDown (f.number (ph + 16) 8)) / pageSize)
        (pageAlignDown (f.number (ph + 16) 8)) m =
          some (Memory.mapAll r (f.newPages (f.segmentAt ph)) m) := hpages
    rw [hpages']
    dsimp only [Option.bind_some]
    split
    · rfl
    · rfl
  · rw [if_pos hload, if_neg hload]

theorem loadSegments_memory (f : File) (n ph highestEnd : Nat) (m : Memory) :
    loadSegments (frames r) f.memory n ph highestEnd m =
      some ((Memory.mapAll r ((f.segmentsFrom n ph).flatMap f.newPages) m).1,
        if (Memory.mapAll r ((f.segmentsFrom n ph).flatMap f.newPages) m).2 then
          some (highest highestEnd (f.segmentsFrom n ph))
        else none) := by
  induction n generalizing ph highestEnd m with
  | zero => rfl
  | succ n ih =>
    rw [loadSegments, loadSegment_memory, File.segmentsFrom]
    dsimp only [Option.bind_eq_bind, Option.bind_some]
    by_cases hload : f.number ph 4 = ptLoad
    · rw [if_pos hload, if_pos hload, flatMap_cons, mapAll_append]
      cases hmap : (Memory.mapAll r (f.newPages (f.segmentAt ph)) m).2 with
      | true => exact ih _ _ _
      | false =>
        rw [if_neg Bool.false_ne_true, if_neg Bool.false_ne_true, hmap]
        rfl
    · rw [if_neg hload, if_neg hload]
      exact ih _ _ _

/-- `elf_load` maps the pages of the file. -/
theorem elfLoad_memory (f : File) (r : Nat) (m : Memory) :
    elfLoad (frames r) (some f.memory) m =
      some (if f.Accepted then
        ((Memory.mapAll r f.image m).1,
          if (Memory.mapAll r f.image m).2 then some (f.entry, highest 0 f.segments) else none)
      else (m, none)) := by
  unfold elfLoad
  dsimp only
  rw [memory_headerOk]
  dsimp only [Option.bind_eq_bind, Option.bind_some]
  by_cases hok : f.Accepted
  · rw [if_neg (by simpa using hok), if_pos hok, memory_field, memory_field]
    dsimp only [Option.bind_some]
    rw [loadSegments_memory]
    dsimp only [Option.bind_some]
    cases hmap : (Memory.mapAll r f.image m).2 with
    | true =>
      have hmap' : (Memory.mapAll r ((f.segmentsFrom (f.number 56 2) (f.number 32 8)).flatMap
        f.newPages) m).2 = true := hmap
      rw [hmap', if_pos rfl, memory_field]
      rfl
    | false =>
      have hmap' : (Memory.mapAll r ((f.segmentsFrom (f.number 56 2) (f.number 32 8)).flatMap
        f.newPages) m).2 = false := hmap
      rw [hmap', if_neg Bool.false_ne_true]
      rfl
  · rw [if_pos (by simpa using hok), if_neg hok]

end

end Aeryk.Elf
