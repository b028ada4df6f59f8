import Aeryk.Mem.Pmm

/-!
# Setting up the physical memory manager

`init_pmm` reads the memory map of the bootloader in three passes.  The first finds the highest
usable address, the second a usable entry that holds the bitmap and the counts, and the third
clears the bits of the usable pages.  Then the pages of the two arrays and page `0` are marked.

The bitmap gets `pages / 8` bytes, and one more if *that number of bytes* is no multiple of eight.
So the last, partly used byte is missing when `pages` is no multiple of eight but `pages / 8` is
one (`RoundsUp`), and the bits of the last pages lie in the first counts.  `initPmm` answers `none`
where the source halts or goes on with `bitmap` still `NULL`.
-/

namespace Aeryk.Mem

open List Lib

structure MemmapEntry where
  base : Nat
  length : Nat
  usable : Bool
deriving DecidableEq

/-- `entry->base + entry->length`, in 64 bits. -/
def MemmapEntry.top (e : MemmapEntry) : Nat := (e.base + e.length) % 2 ^ 64

/-- The first pass of `init_pmm`. -/
def findHighest (es : List MemmapEntry) : Nat :=
  es.foldl (fun highest e => if e.usable ∧ e.top > highest then e.top else highest) 0

/-- The size `init_pmm` gives the bitmap, in bytes. -/
def bitmapSizeFor (highest : Nat) : Nat :=
  if highest / pageSize / 8 % 8 ≠ 0 then highest / pageSize / 8 + 1 else highest / pageSize / 8

/-- `refcounts_size`. -/
def refcountsSizeFor (highest : Nat) : Nat := highest / pageSize * 2

def arraysSizeFor (highest : Nat) : Nat := bitmapSizeFor highest + refcountsSizeFor highest

/-- The second pass: the first usable entry that both arrays fit in. -/
def placeArrays (es : List MemmapEntry) (need : Nat) : Option MemmapEntry :=
  es.find? fun e => e.usable && decide (e.length ≥ need)

/-- The steps of a loop `for (j = 0; j < length; j += PAGE_SIZE)`. -/
def pageSteps (length : Nat) : Nat := (length + pageSize - 1) / pageSize

/-- The pages such a loop goes over from `base`. -/
def pagesFrom (base length : Nat) : List Nat :=
  (range (pageSteps length)).map fun k => (base + k * pageSize) / pageSize

namespace Pmm

/-- `bitmap_clear` for each page of a list. -/
def clearPages (m : Pmm) (is : List Nat) : Pmm := is.foldl bitmapClear m

/-- `bitmap_set` for each page of a list. -/
def setPages (m : Pmm) (is : List Nat) : Pmm := is.foldl bitmapSet m

/-- The third pass: the pages of the usable entries are cleared. -/
def clearUsable (m : Pmm) (es : List MemmapEntry) : Pmm :=
  es.foldl (fun m e => if e.usable then m.clearPages (pagesFrom e.base e.length) else m) m

/-- The arrays at `base`, filled by the two calls of `memset`. -/
def fresh (mem : Bytes) (base highest : Nat) : Pmm where
  mem := fill (fill mem base (bitmapSizeFor highest) 0xFF#8) (base + bitmapSizeFor highest)
    (refcountsSizeFor highest) 0#8
  bitmap := base
  bitmapSize := bitmapSizeFor highest
  highestAddress := highest
  bitmapIndex := 0

end Pmm

/-- `init_pmm`, with the response of the bootloader and the contents of memory. -/
def initPmm (response : Option (List MemmapEntry)) (mem : Bytes) : Option Pmm :=
  match response with
  | none => none
  | some es =>
    match placeArrays es (arraysSizeFor (findHighest es)) with
    | none => none
    | some e =>
      let m := (Pmm.fresh mem e.base (findHighest es)).clearUsable es
      let m := m.setPages (pagesFrom e.base (arraysSizeFor (findHighest es)))
      some ((m.bitmapSet 0).setRefcount 0 1)

/-! ## What is asked of the map and of the result -/

def highestEnd (es : List MemmapEntry) : Nat :=
  ((es.filter (·.usable)).map fun e => e.base + e.length).foldr max 0

/-- What is assumed of the bootloader.  That usable entries do not overlap is not needed. -/
structure WellFormed (es : List MemmapEntry) : Prop where
  base_aligned : ∀ e ∈ es, e.usable = true → e.base % pageSize = 0
  length_aligned : ∀ e ∈ es, e.usable = true → e.length % pageSize = 0
  /-- A usable entry ends within the address space. -/
  in_range : ∀ e ∈ es, e.usable = true → e.base + e.length < 2 ^ 64
  /-- Some usable entry holds both arrays. -/
  roomy : ∃ e ∈ es, e.usable = true ∧ arraysSizeFor (highestEnd es) ≤ e.length

/-- The rounding of the bitmap size reaches the last page. -/
def RoundsUp (es : List MemmapEntry) : Prop :=
  highestEnd es / pageSize % 8 = 0 ∨ highestEnd es / pageSize / 8 % 8 ≠ 0

def UsablePage (es : List MemmapEntry) (i : Nat) : Prop :=
  ∃ e ∈ es, e.usable = true ∧ e.base ≤ i * pageSize ∧ (i + 1) * pageSize ≤ e.base + e.length

/-- A page that holds a byte of the bitmap or of the reference counts. -/
def Pmm.HoldsArrays (m : Pmm) (i : Nat) : Prop :=
  ∃ x, m.bitmap ≤ x ∧ x < m.refcounts + 2 * m.pages ∧ x / pageSize = i

/-- The state after `init_pmm` is the one the memory map asks for. -/
structure InitExact (m : Pmm) (es : List MemmapEntry) : Prop where
  covered : ∀ i < m.pages, i / 8 < m.bitmapSize
  apart : ∀ x, ¬((m.bitmap ≤ x ∧ x < m.bitmap + m.bitmapSize) ∧
    (m.refcounts ≤ x ∧ x < m.refcounts + 2 * m.pages))
  bit : ∀ i < m.pages,
    m.bitmapTest i = false ↔ UsablePage es i ∧ i ≠ 0 ∧ ¬m.HoldsArrays i

/-! ## The passes -/

theorem foldl_highest (es : List MemmapEntry) (n : Nat)
    (h : ∀ e ∈ es, e.usable = true → e.base + e.length < 2 ^ 64) :
    es.foldl (fun highest e => if e.usable ∧ e.top > highest then e.top else highest) n =
      max n (highestEnd es) := by
  induction es generalizing n with
  | nil => simp [highestEnd]
  | cons e es ih =>
    have htail := fun n => ih n fun e he => h e (mem_cons_of_mem _ he)
    rw [foldl_cons, htail]
    cases hu : e.usable with
    | false => simp [highestEnd, hu]
    | true =>
      have htop : e.top = e.base + e.length := Nat.mod_eq_of_lt (h e mem_cons_self hu)
      have hcons : highestEnd (e :: es) = max (e.base + e.length) (highestEnd es) := by
        simp [highestEnd, hu]
      have hstep : (if true = true ∧ e.base + e.length > n then e.base + e.length else n) =
          max n (e.base + e.length) := by
        split
        next hlt => exact (Nat.max_eq_right (Nat.le_of_lt hlt.2)).symm
        next hge => exact (Nat.max_eq_left (Nat.le_of_not_lt fun hlt => hge ⟨rfl, hlt⟩)).symm
      rw [hcons, htop, hstep, Nat.max_assoc]

theorem WellFormed.findHighest_eq {es : List MemmapEntry} (h : WellFormed es) :
    findHighest es = highestEnd es := by
  rw [findHighest, foldl_highest es 0 h.in_range, Nat.zero_max]

theorem mem_pagesFrom {base length j : Nat} :
    j ∈ pagesFrom base length ↔
      base / pageSize ≤ j ∧ j < base / pageSize + pageSteps length := by
  have hk : ∀ k, (base + k * pageSize) / pageSize = base / pageSize + k := fun k =>
    Nat.add_mul_div_right _ _ (by decide)
  simp only [pagesFrom, mem_map, mem_range, hk]
  constructor
  · rintro ⟨k, hlt, rfl⟩
    omega
  · rintro ⟨hle, hlt⟩
    exact ⟨j - base / pageSize, by omega, by omega⟩

/-- A page is gone over by the clearing loop of an entry exactly when it belongs to it. -/
theorem mem_pagesFrom_entry {e : MemmapEntry} {j : Nat} (hb : e.base % pageSize = 0)
    (hl : e.length % pageSize = 0) :
    j ∈ pagesFrom e.base e.length ↔
      e.base ≤ j * pageSize ∧ (j + 1) * pageSize ≤ e.base + e.length := by
  rw [mem_pagesFrom, pageSteps]
  simp only [pageSize] at hb hl ⊢
  omega

/-- A page is gone over by the protecting loop exactly when it holds a byte of the range. -/
theorem mem_pagesFrom_range {base length j : Nat} (hb : base % pageSize = 0) :
    j ∈ pagesFrom base length ↔ ∃ x, base ≤ x ∧ x < base + length ∧ x / pageSize = j := by
  rw [mem_pagesFrom, pageSteps]
  simp only [pageSize] at hb ⊢
  constructor
  · rintro ⟨hle, hlt⟩
    exact ⟨j * 4096, by omega, by omega, by omega⟩
  · rintro ⟨x, hle, hlt, rfl⟩
    omega

namespace Pmm

variable {m : Pmm} {j : Nat}

/-- Where the arrays lie and how many pages there are. -/
def layout (m : Pmm) : Nat × Nat × Nat := (m.bitmap, m.bitmapSize, m.highestAddress)

theorem clearPages_layout (m : Pmm) (is : List Nat) : (m.clearPages is).layout = m.layout := by
  induction is generalizing m with
  | nil => rfl
  | cons i is ih => exact ih (m.bitmapClear i)

theorem setPages_layout (m : Pmm) (is : List Nat) : (m.setPages is).layout = m.layout := by
  induction is generalizing m with
  | nil => rfl
  | cons i is ih => exact ih (m.bitmapSet i)

theorem clearUsable_layout (m : Pmm) (es : List MemmapEntry) :
    (m.clearUsable es).layout = m.layout := by
  induction es generalizing m with
  | nil => rfl
  | cons e es ih =>
    have hstep := ih (if e.usable then m.clearPages (pagesFrom e.base e.length) else m)
    refine hstep.trans ?_
    split
    · exact clearPages_layout ..
    · rfl

theorem bitmapTest_clearPages (m : Pmm) (is : List Nat) :
    (m.clearPages is).bitmapTest j = true ↔ j ∉ is ∧ m.bitmapTest j = true := by
  induction is generalizing m with
  | nil => simp [clearPages]
  | cons i is ih =>
    have hstep := ih (m.bitmapClear i)
    rw [bitmapTest_bitmapClear] at hstep
    refine hstep.trans ?_
    simp only [Bool.and_eq_true, Bool.not_eq_true', decide_eq_false_iff_not, mem_cons]
    tauto

theorem bitmapTest_setPages (m : Pmm) (is : List Nat) :
    (m.setPages is).bitmapTest j = true ↔ j ∈ is ∨ m.bitmapTest j = true := by
  induction is generalizing m with
  | nil => simp [setPages]
  | cons i is ih =>
    have hstep := ih (m.bitmapSet i)
    rw [bitmapTest_bitmapSet] at hstep
    refine hstep.trans ?_
    simp only [Bool.or_eq_true, decide_eq_true_eq, mem_cons]
    tauto

theorem bitmapTest_clearUsable (m : Pmm) (es : List MemmapEntry) :
    (m.clearUsable es).bitmapTest j = true ↔
      (∀ e ∈ es, e.usable = true → j ∉ pagesFrom e.base e.length) ∧ m.bitmapTest j = true := by
  induction es generalizing m with
  | nil => simp [clearUsable]
  | cons e es ih =>
    have hstep := ih (if e.usable then m.clearPages (pagesFrom e.base e.length) else m)
    refine hstep.trans ?_
    cases hu : e.usable with
    | false => simp [hu]
    | true =>
      simp only [if_true, bitmapTest_clearPages, forall_mem_cons, hu, forall_const]
      tauto

/-- A byte of the bitmap starts with all its bits set. -/
theorem bitmapTest_fresh (mem : Bytes) (base highest : Nat) (h : j / 8 < bitmapSizeFor highest) :
    (fresh mem base highest).bitmapTest j = true := by
  have hbyte : (fresh mem base highest).mem (base + j / 8) = 0xFF#8 := by
    have hnot : ¬(base + bitmapSizeFor highest ≤ base + j / 8 ∧
        base + j / 8 < base + bitmapSizeFor highest + refcountsSizeFor highest) := by omega
    exact (fill_of_not_mem _ _ hnot).trans (fill_of_mem _ _ (by omega))
  have hall : ∀ k < 8, (0xFF#8).getLsbD k = true := by decide
  rw [bitmapTest, bitAt_eq]
  exact (congrArg (fun v => BitVec.getLsbD v (j % 8)) hbyte).trans
    (hall _ (Nat.mod_lt j (by omega)))

/-- The end of `init_pmm`: the arrays and page `0` are protected. -/
def protect (m : Pmm) (is : List Nat) : Pmm := ((m.setPages is).bitmapSet 0).setRefcount 0 1

theorem protect_layout (m : Pmm) (is : List Nat) : (m.protect is).layout = m.layout :=
  setPages_layout m is

theorem bitmapTest_protect {is : List Nat} (hj : j / 8 < m.bitmapSize) :
    (m.protect is).bitmapTest j = true ↔ j = 0 ∨ j ∈ is ∨ m.bitmapTest j = true := by
  have hsize : (m.setPages is).bitmapSize = m.bitmapSize :=
    congrArg (fun l => l.2.1) (setPages_layout m is)
  have hword : (m.protect is).bitmapTest j = ((m.setPages is).bitmapSet 0).bitmapTest j :=
    bitAt_setWord (n := (m.setPages is).bitmapSize) (by omega) ..
  rw [hword, bitmapTest_bitmapSet, Bool.or_eq_true, decide_eq_true_eq, bitmapTest_setPages]

end Pmm

/-! ## The result -/

/-- What `init_pmm` leaves, on a map with room for the arrays. -/
theorem WellFormed.initPmm_eq {es : List MemmapEntry} (h : WellFormed es) (mem : Bytes) :
    ∃ e ∈ es, e.usable = true ∧ initPmm (some es) mem =
      some (((Pmm.fresh mem e.base (highestEnd es)).clearUsable es).protect
        (pagesFrom e.base (arraysSizeFor (highestEnd es)))) := by
  cases hp : placeArrays es (arraysSizeFor (highestEnd es)) with
  | none =>
    obtain ⟨e, he, hu, hl⟩ := h.roomy
    have hno := find?_eq_none.mp hp e he
    simp [hu, hl] at hno
  | some e =>
    have hfound := find?_some hp
    rw [Bool.and_eq_true] at hfound
    refine ⟨e, mem_of_find?_eq_some hp, hfound.1, ?_⟩
    simp only [initPmm, h.findHighest_eq, hp]
    rfl

theorem bitmapSizeFor_le (highest : Nat) : bitmapSizeFor highest ≤ highest / pageSize / 8 + 1 := by
  unfold bitmapSizeFor
  split
  · exact Nat.le_refl _
  · exact Nat.le_succ _

/-- The bitmap reaches the last page exactly when its size is rounded up where needed. -/
theorem covered_iff (highest : Nat) :
    (∀ i < highest / pageSize, i / 8 < bitmapSizeFor highest) ↔
      highest / pageSize % 8 = 0 ∨ highest / pageSize / 8 % 8 ≠ 0 := by
  generalize hn : highest / pageSize = n
  rw [bitmapSizeFor, hn]
  constructor
  · intro h
    rcases Nat.eq_zero_or_pos n with rfl | hpos
    · exact .inl rfl
    · have hlast := h (n - 1) (by omega)
      split at hlast <;> omega
  · intro h i hi
    split <;> omega

/-- For every memory map as the bootloader gives it, `init_pmm` sets the allocator up as the map
asks if and only if the rounding of the bitmap size reaches the last page. -/
theorem init_pmm_exact {es : List MemmapEntry} (h : WellFormed es) (mem : Bytes) :
    ∃ m, initPmm (some es) mem = some m ∧ m.highestAddress = highestEnd es ∧
      (InitExact m es ↔ RoundsUp es) := by
  obtain ⟨e, he, hu, heq⟩ := h.initPmm_eq mem
  refine ⟨_, heq, ?_, ?_⟩
  all_goals
    generalize hm : ((Pmm.fresh mem e.base (highestEnd es)).clearUsable es).protect
      (pagesFrom e.base (arraysSizeFor (highestEnd es))) = m
    have hlayout : m.layout = (e.base, bitmapSizeFor (highestEnd es), highestEnd es) := by
      rw [← hm, Pmm.protect_layout, Pmm.clearUsable_layout]
      rfl
    have hhigh : m.highestAddress = highestEnd es := congrArg (fun l => l.2.2) hlayout
  · exact hhigh
  · have hbase : m.bitmap = e.base := congrArg (fun l => l.1) hlayout
    have hsize : m.bitmapSize = bitmapSizeFor (highestEnd es) :=
      congrArg (fun l => l.2.1) hlayout
    have hpages : m.pages = highestEnd es / pageSize := by rw [Pmm.pages, hhigh]
    have hcov : (∀ i < m.pages, i / 8 < m.bitmapSize) ↔ RoundsUp es := by
      rw [hpages, hsize]
      exact covered_iff _
    constructor
    · intro hexact
      exact hcov.mp hexact.covered
    · intro hr
      refine ⟨hcov.mpr hr, ?_, ?_⟩
      · intro x hx
        have : m.refcounts = m.bitmap + m.bitmapSize := rfl
        omega
      · intro i hi
        have hbyte := hcov.mpr hr i hi
        have hinit := Pmm.bitmapTest_fresh mem e.base (highestEnd es) (hsize ▸ hbyte)
        have hcleared : ((Pmm.fresh mem e.base (highestEnd es)).clearUsable es).bitmapTest i =
            true ↔ ¬UsablePage es i := by
          rw [Pmm.bitmapTest_clearUsable, UsablePage]
          simp only [hinit, and_true, not_exists, not_and]
          refine forall₃_congr fun d hd hdu => ?_
          rw [mem_pagesFrom_entry (h.base_aligned d hd hdu) (h.length_aligned d hd hdu)]
          tauto
        have harrays : i ∈ pagesFrom e.base (arraysSizeFor (highestEnd es)) ↔
            m.HoldsArrays i := by
          have hend : m.refcounts + 2 * m.pages = e.base + arraysSizeFor (highestEnd es) := by
            rw [Pmm.refcounts, hbase, hsize, hpages, arraysSizeFor, refcountsSizeFor]
            omega
          rw [mem_pagesFrom_range (h.base_aligned e he hu), Pmm.HoldsArrays, hbase, hend]
        have hset : m.bitmapTest i = true ↔
            i = 0 ∨ m.HoldsArrays i ∨ ¬UsablePage es i := by
          rw [← hm, Pmm.bitmapTest_protect, harrays, hcleared]
          · rw [hm]
          · have hs : ((Pmm.fresh mem e.base (highestEnd es)).clearUsable es).bitmapSize =
                m.bitmapSize := by
              rw [hsize]
              exact congrArg (fun l => l.2.1) (Pmm.clearUsable_layout _ es)
            rw [hs]
            exact hbyte
        rw [← Bool.not_eq_true, hset]
        tauto

/-- A map of one usable entry from address `0` on. -/
def oneEntry (n : Nat) : List MemmapEntry := [⟨0, n * pageSize, true⟩]

theorem oneEntry_wellFormed {n : Nat} (hn : n * pageSize < 2 ^ 64) (h8 : 8 ≤ n) :
    WellFormed (oneEntry n) := by
  have hmem : ∀ e ∈ oneEntry n, e = ⟨0, n * pageSize, true⟩ := fun e he => mem_singleton.mp he
  have hend : highestEnd (oneEntry n) = n * pageSize := by simp [highestEnd, oneEntry]
  constructor
  · intro e he _
    rw [hmem e he]
    rfl
  · intro e he _
    rw [hmem e he]
    exact Nat.mul_mod_left n pageSize
  · intro e he _
    rw [hmem e he]
    simpa using hn
  · refine ⟨_, mem_singleton_self _, rfl, ?_⟩
    have hsize := bitmapSizeFor_le (n * pageSize)
    rw [hend, arraysSizeFor, refcountsSizeFor]
    simp only [pageSize] at hsize ⊢
    omega

theorem init_pmm_exact_sixtyFour :
    ∃ m, initPmm (some (oneEntry 64)) (fun _ => 0#8) = some m ∧ InitExact m (oneEntry 64) := by
  obtain ⟨m, heq, -, hiff⟩ :=
    init_pmm_exact (oneEntry_wellFormed (n := 64) (by decide) (by decide)) fun _ => 0#8
  exact ⟨m, heq, hiff.mpr (.inl (by decide))⟩

/-- With 65 pages the bit of page 64 is the lowest bit of `refcounts[0]`, which is set, so the page
is never given out although it is usable and holds neither array. -/
theorem init_pmm_sixtyFive :
    WellFormed (oneEntry 65) ∧
      ∃ m, initPmm (some (oneEntry 65)) (fun _ => 0#8) = some m ∧ m.pages = 65 ∧
        m.bitmapSize = 8 ∧ UsablePage (oneEntry 65) 64 ∧ ¬m.HoldsArrays 64 ∧
        m.bitmapTest 64 = true ∧ ¬InitExact m (oneEntry 65) := by
  refine ⟨oneEntry_wellFormed (by decide) (by decide), ?_⟩
  have hrun : (initPmm (some (oneEntry 65)) fun _ => 0#8).map
      (fun m => (m.bitmap, m.pages, m.bitmapSize, m.bitmapTest 64)) = some (0, 65, 8, true) := by
    decide +kernel
  obtain ⟨m, heq, hm⟩ := Option.map_eq_some_iff.mp hrun
  simp only [Prod.mk.injEq] at hm
  obtain ⟨hbase, hpages, hsize, hbit⟩ := hm
  refine ⟨m, heq, hpages, hsize, ?_, ?_, hbit, ?_⟩
  · exact ⟨_, mem_singleton_self _, rfl, Nat.zero_le _, by decide⟩
  · rintro ⟨x, -, hlt, hx⟩
    rw [Pmm.refcounts, hbase, hsize, hpages] at hlt
    simp only [pageSize] at hx
    omega
  · intro hexact
    have hbyte := hexact.covered 64 (by omega)
    omega

end Aeryk.Mem
