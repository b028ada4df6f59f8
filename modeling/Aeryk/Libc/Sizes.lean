import Aeryk.Libc.Runs
import Aeryk.Vm.Calls

/-!
# The sizes of requests

`malloc` computes the units of a request with `(size + 15) / 16 + 1`, and `grow_heap` turns them
back into bytes for `sbrk`, all in 64 bits.  From `2 ^ 64 - 31` on the bytes wrap to 0, which asks
`sbrk` for nothing, and from `2 ^ 64 - 15` on the sum wraps and one unit is left.  All smaller
requests come out right, whatever the heap is like (`allocation_sizes_iff`).
-/

namespace Aeryk.Libc

open Lib

/-! ## `sbrk` -/

/-- `sbrk`, for a kernel that answers `brk`. -/
def sbrk (brk : Nat → Nat) (increment : Nat) : Option Nat :=
  let oldBrk := brk 0
  if increment = 0 then some oldBrk
  else if 2 ^ 63 ≤ increment then none
  else if brk ((oldBrk + increment) % 2 ^ 64) ≠ (oldBrk + increment) % 2 ^ 64 then none
  else some oldBrk

/-- The kernel moves the break up, or leaves it. -/
structure Moves (brk : Nat → Nat) (cur : Nat) : Prop where
  query : brk 0 = cur
  up : ∀ a, cur < a → brk a = a ∨ brk a = cur

/-- `SYS_brk` moves the break up, or leaves it. -/
theorem moves_sysBrk (m : Vm.Memory) (t : Vm.Task) :
    Moves (fun a => (Vm.sysBrk m t a).2.2) t.brk where
  query := rfl
  up a _ := by
    unfold Vm.sysBrk
    split
    · exact .inr rfl
    · split
      · exact .inr rfl
      · dsimp only
        split
        · exact .inr rfl
        · exact .inl rfl

/-- The break is aligned, in the lower half, and above the sentinel and all units. -/
structure BreakOk (base : Nat) (s : Sys) (cur : Nat) : Prop where
  aligned : cur % 16 = 0
  lower : cur < 2 ^ 63
  sentinel : base < cur / 16
  above : ∀ u ∈ s.cells, u < cur / 16

/-- What `sbrk` answers to `grow_heap`, in units. -/
def answer (brk : Nat → Nat) (size : Nat) : Option Nat :=
  (sbrk brk (increment (unitsFor size))).map (· / 16)

/-! ## What is claimed of a size -/

/-- A block of units that `sbrk` has returned, with `n` bytes behind its header. -/
def Usable (s : Sys) (a n : Nat) : Prop :=
  n + 16 ≤ 16 * s.heap.size a ∧ ∀ u, Covers s.heap.size a u → u ∈ s.cells

/-- In every run `malloc` of this size answers with `NULL` or with a block for it. -/
def MallocOk (size : Nat) : Prop :=
  ∀ base s brk cur, Reachable base (fun s op => op.Ok base s) s → Moves brk cur →
    BreakOk base s cur →
      ∃ r, malloc base s.heap size [answer brk size] = some r ∧
        (r.ptr = none ∨
          ∃ a, r.ptr = some (a + 1) ∧ Usable (s.returned size (answer brk size) r) a size)

/-- In every run `calloc` answers with `NULL` or with a zeroed block, and writes nothing else. -/
def CallocOk (nmemb size : Nat) : Prop :=
  ∀ base s brk cur, Reachable base (fun s op => op.Ok base s) s → Moves brk cur →
    BreakOk base s cur →
      ∃ r, calloc base s.heap nmemb size [answer brk (nmemb * size % 2 ^ 64)] = some r ∧
        ((r.ptr = none ∧ r.heap.bytes = s.heap.bytes) ∨
          ∃ a, r.ptr = some (a + 1) ∧
            Usable (s.returned (nmemb * size % 2 ^ 64) (answer brk (nmemb * size % 2 ^ 64)) r) a
              (nmemb * size) ∧
            (∀ i < nmemb * size, r.heap.bytes (16 * (a + 1) + i) = 0#8) ∧
            ∀ x < 2 ^ 64, r.heap.bytes x ≠ s.heap.bytes x →
              16 * (a + 1) ≤ x ∧ x < 16 * (a + r.heap.size a))

/-! ## Requests that come out right -/

section

variable {base cur size : Nat} {s : Sys} {brk : Nat → Nat}

theorem answer_fresh (hm : Moves brk cur) (hok : BreakOk base s cur) (hfits : Fits size) :
    FreshUnits base s.cells (growUnits (unitsFor size)) (answer brk size) := by
  have hpos : 0 < growUnits (unitsFor size) := by
    unfold growUnits
    split <;> omega
  have haligned := hok.aligned
  have hlower := hok.lower
  intro start heq
  unfold answer sbrk at heq
  rw [hfits.increment_eq, hm.query] at heq
  obtain ⟨old, hold, rfl⟩ := Option.map_eq_some_iff.mp heq
  dsimp only at hold
  rw [if_neg (by omega)] at hold
  split at hold
  · cases hold
  · split at hold
    · cases hold
    · cases hold
      exact ⟨hok.sentinel, hok.above, by omega⟩

/-- A block in use of a sound heap can be used. -/
theorem Sound.usable {a n : Nat} (h : Sound base s) (ha : s.live a = some n) :
    Usable s a n ∧ a + s.heap.size a < 2 ^ 60 := by
  cases h with
  | unused _ hlive _ =>
    rw [hlive] at ha
    cases ha
  | tiled hb hpay =>
    have hmem : a ∈ s.used := by simp [Sys.used, ha]
    exact ⟨⟨hpay a n ha, fun u hu => hb.tiles.mem_cells (.inr hmem) hu⟩,
      hb.end_lt (.inr hmem)⟩

theorem mallocOk_of_fits (hfits : Fits size) : MallocOk size := by
  intro base s brk cur hreach hm hok
  have hsound := hreach.sound fun _ _ h => h
  obtain ⟨r, heq, hsound', -, hlive, -⟩ := hsound.malloc hfits (answer_fresh hm hok hfits)
  refine ⟨r, heq, ?_⟩
  cases hptr : r.ptr with
  | none => exact .inl rfl
  | some ptr =>
    obtain ⟨a, rfl, ha⟩ := hlive ptr hptr
    exact .inr ⟨a, rfl, (hsound'.usable ha).1⟩

/-- `memset` clears the bytes of the block and no others. -/
theorem clear_bytes (bytes : Nat → BitVec 8) {a n : Nat} (hend : 16 * (a + 1) + n < 2 ^ 64) :
    (∀ i < n, clear bytes (a + 1) n (16 * (a + 1) + i) = 0#8) ∧
      ∀ x < 2 ^ 64, clear bytes (a + 1) n x ≠ bytes x →
        16 * (a + 1) ≤ x ∧ x < 16 * (a + 1) + n := by
  unfold clear
  constructor
  · intro i hi
    exact if_pos (by omega)
  · intro x hx hne
    split at hne
    · omega
    · exact absurd rfl hne

theorem callocOk_of_fits {nmemb : Nat} (h : nmemb * size ≤ 2 ^ 64 - 32 ∨ 2 ^ 64 ≤ nmemb * size) :
    CallocOk nmemb size := by
  intro base s brk cur hreach hm hok
  have hsound := hreach.sound fun _ _ h => h
  have hop : 2 ^ 64 ≤ nmemb * size ∨ (Fits (nmemb * size) ∧ FreshUnits base s.cells
      (growUnits (unitsFor (nmemb * size))) (answer brk (nmemb * size % 2 ^ 64))) := by
    rcases h with hfits | hlarge
    · have hlt : nmemb * size < 2 ^ 64 := by omega
      rw [Nat.mod_eq_of_lt hlt]
      exact .inr ⟨hfits, answer_fresh hm hok hfits⟩
    · exact .inl hlarge
  obtain ⟨r, heq, hsound', hres⟩ := hsound.calloc hop
  refine ⟨r, heq, ?_⟩
  rcases hres with hnull | ⟨a, hptr, hlt, ha, hbytes⟩
  · exact .inl hnull
  · obtain ⟨husable, hend⟩ := hsound'.usable ha
    have hsize : nmemb * size + 16 ≤ 16 * r.heap.size a := husable.1
    have hend' : a + r.heap.size a < 2 ^ 60 := hend
    rw [Nat.mod_eq_of_lt hlt] at husable ⊢
    obtain ⟨hzero, hother⟩ := clear_bytes s.heap.bytes
      (by omega : 16 * (a + 1) + nmemb * size < 2 ^ 64)
    rw [← hbytes] at hzero hother
    refine .inr ⟨a, hptr, husable, hzero, fun x hx hne => ?_⟩
    have := hother x hx hne
    omega

end

/-! ## Requests that wrap -/

def emptySys : Sys := ⟨emptyHeap, fun _ => none, []⟩

/-- A kernel that moves the break wherever it is asked to; it is at 32. -/
def grantBrk (a : Nat) : Nat := if a = 0 then 32 else a

theorem moves_grantBrk : Moves grantBrk 32 where
  query := rfl
  up a ha := .inl (if_neg (by omega))

theorem breakOk_emptySys : BreakOk 1 emptySys 32 where
  aligned := by decide
  lower := by decide
  sentinel := by decide
  above := by
    rintro u ⟨r, hr, -⟩
    cases hr

theorem reachable_emptySys : Reachable 1 (fun s op => op.Ok 1 s) emptySys := .start emptyHeap rfl

/-- The bytes of the request wrap to 0: a block is made of units that `sbrk` has not returned. -/
theorem malloc_nothing :
    ∃ r, mallocLoop (2 ^ 60) fuel [some 2] (ready 1 emptyHeap).1 1 1 = some r ∧
      r.ptr = some 3 ∧ r.answers = [] :=
  ⟨_, rfl, rfl, rfl⟩

/-- The units of the request wrap to 1: a block without bytes. -/
theorem malloc_header :
    ∃ r, mallocLoop 1 fuel [some 2] (ready 1 emptyHeap).1 1 1 = some r ∧
      r.ptr = some 258 ∧ r.heap.size 257 = 1 :=
  ⟨_, rfl, rfl, rfl⟩

theorem malloc_eq {size : Nat} (hpos : size ≠ 0) (answers : List (Option Nat)) :
    malloc 1 emptyHeap size answers =
      mallocLoop (unitsFor size) fuel answers (ready 1 emptyHeap).1 1 1 :=
  if_neg hpos

/-- A request that wraps is answered with a block that cannot be used. -/
theorem malloc_wraps {size : Nat} (hlow : 2 ^ 64 - 32 < size) (hlt : size < 2 ^ 64) :
    ∃ r a, malloc 1 emptyHeap size [answer grantBrk size] = some r ∧ r.ptr = some (a + 1) ∧
      ∀ bytes, ¬Usable (emptySys.returned size (answer grantBrk size)
        { r with heap := { r.heap with bytes := bytes } }) a size := by
  rw [malloc_eq (by omega)]
  by_cases hsum : size + 15 < 2 ^ 64
  · have hunits : unitsFor size = 2 ^ 60 := by
      unfold unitsFor
      omega
    have hanswer : answer grantBrk size = some 2 := by
      unfold answer
      rw [hunits]
      rfl
    rw [hanswer, hunits]
    obtain ⟨r, heq, hptr, hused⟩ := malloc_nothing
    refine ⟨r, 2, heq, hptr, ?_⟩
    rintro bytes ⟨hsize, hcells⟩
    -- The region has no units, but the block has.
    obtain ⟨⟨start, n⟩, hmem, hle, hend⟩ := hcells 2 ⟨Nat.le_refl 2, by omega⟩
    have hregions : (start, n) ∈ [(2, increment (2 ^ 60) / 16)] := by
      rw [← hunits]
      unfold Sys.returned at hmem
      rw [hused] at hmem
      exact hmem
    cases List.mem_singleton.mp hregions
    exact absurd hend (by decide)
  · have hunits : unitsFor size = 1 := by
      unfold unitsFor
      omega
    have hanswer : answer grantBrk size = some 2 := by
      unfold answer
      rw [hunits]
      rfl
    rw [hanswer, hunits]
    obtain ⟨r, heq, hptr, hone⟩ := malloc_header
    refine ⟨r, 257, heq, hptr, ?_⟩
    rintro bytes ⟨hsize, -⟩
    have hsize' : size + 16 ≤ 16 * r.heap.size 257 := hsize
    omega

theorem not_mallocOk {size : Nat} (hlow : 2 ^ 64 - 32 < size) (hlt : size < 2 ^ 64) :
    ¬MallocOk size := by
  intro hok
  obtain ⟨r, a, heq, hptr, hbad⟩ := malloc_wraps hlow hlt
  obtain ⟨r', heq', hres⟩ :=
    hok 1 emptySys grantBrk 32 reachable_emptySys moves_grantBrk breakOk_emptySys
  obtain rfl := Option.some.inj (heq.symm.trans heq')
  rcases hres with hnull | ⟨a', hptr', husable⟩
  · rw [hptr] at hnull
    cases hnull
  · rw [hptr] at hptr'
    cases hptr'
    exact hbad _ husable

theorem not_callocOk {nmemb size : Nat} (hlow : 2 ^ 64 - 32 < nmemb * size)
    (hlt : nmemb * size < 2 ^ 64) : ¬CallocOk nmemb size := by
  intro hok
  obtain ⟨r, a, heq, hptr, hbad⟩ := malloc_wraps hlow hlt
  obtain ⟨r', heq', hres⟩ :=
    hok 1 emptySys grantBrk 32 reachable_emptySys moves_grantBrk breakOk_emptySys
  have hguard := (calloc_guard nmemb size).not.mpr (Nat.not_le.mpr hlt)
  obtain ⟨h', ptr, answers⟩ := r
  cases hptr
  unfold calloc at heq'
  rw [if_neg hguard, Nat.mod_eq_of_lt hlt] at heq'
  dsimp only [emptySys] at heq'
  rw [heq] at heq'
  cases heq'
  rcases hres with ⟨hnull, -⟩ | ⟨a', hptr', husable, -⟩
  · cases hnull
  · cases hptr'
    rw [Nat.mod_eq_of_lt hlt] at husable
    exact hbad _ husable

/-! ## The sizes -/

/-- `malloc` and `calloc` answer with `NULL` or a block for what was asked exactly if that is not
one of the last 31 sizes. -/
theorem allocation_sizes_iff (nmemb size : BitVec 64) :
    (MallocOk size.toNat ↔ size.toNat ≤ 2 ^ 64 - 32) ∧
      (CallocOk nmemb.toNat size.toNat ↔
        nmemb.toNat * size.toNat ≤ 2 ^ 64 - 32 ∨ 2 ^ 64 ≤ nmemb.toNat * size.toNat) := by
  refine ⟨⟨fun hok => ?_, mallocOk_of_fits⟩, ⟨fun hok => ?_, callocOk_of_fits⟩⟩
  · exact Nat.le_of_not_lt fun hlow => not_mallocOk hlow size.isLt hok
  · by_contra hnot
    rw [not_or, Nat.not_le, Nat.not_le] at hnot
    exact not_callocOk hnot.1 hnot.2 hok

/-- `malloc((size_t)-1)` answers with a block that has no bytes. -/
theorem malloc_of_minus_one :
    (malloc 1 emptyHeap (2 ^ 64 - 1) [answer grantBrk (2 ^ 64 - 1)]).map
        (fun r => (r.ptr, r.heap.size 257)) = some (some 258, 1) ∧ ¬MallocOk (2 ^ 64 - 1) :=
  ⟨rfl, not_mallocOk (by decide) (by decide)⟩

end Aeryk.Libc
