import Mathlib.Algebra.GroupWithZero.Nat
import Mathlib.Data.List.Perm.Basic
import Mathlib.Order.BooleanAlgebra.Set
import Aeryk.Lib.Ring
import Aeryk.Lib.Tiling

/-!
# The heap of a program

`malloc`, `free` and `calloc` of the C library.  Addresses are counted in units of a header, which
has 16 bytes: the regions that `sbrk` returns are aligned.  Pointer arithmetic is modulo `2 ^ 60`
units and `size_t` modulo `2 ^ 64`.

The free blocks and the sentinel are a ring, in the order of their addresses (`Blocks`), and a loop
goes around it from `free_list` on.  The loops have `fuel`, far more than there are units, and
answer `none` where it is used up.  What `sbrk` answers is handed to `malloc` as a list.
-/

namespace Aeryk.Libc

open List Function Lib

/-! ## The code -/

/-- The headers, `free_list`, and the bytes behind the headers. -/
structure Heap where
  next : Nat → Nat
  size : Nat → Nat
  freeList : Option Nat
  bytes : Nat → BitVec 8

/-- `p + n` for a pointer to a header. -/
def advance (p n : Nat) : Nat := (p + n) % 2 ^ 60

/-- More turns than there are units in the address space. -/
def fuel : Nat := 2 ^ 62

/-- The loop of `free`. -/
def freeLoop (h : Heap) (block : Nat) : Nat → Nat → Option Nat
  | 0, _ => none
  | n + 1, cur =>
    if block > cur ∧ block < h.next cur then some cur
    else if cur ≥ h.next cur ∧ (block > cur ∨ block < h.next cur) then some cur
    else freeLoop h block n (h.next cur)

/-- The first `if` behind the loop of `free`: the block right after. -/
def joinNext (h : Heap) (block cur : Nat) : Heap :=
  if advance block (h.size block) = h.next cur then
    { h with
      size := update h.size block ((h.size block + h.size (h.next cur)) % 2 ^ 64)
      next := update h.next block (h.next (h.next cur)) }
  else { h with next := update h.next block (h.next cur) }

/-- The second `if`: the block right before. -/
def joinPrev (h : Heap) (block cur : Nat) : Heap :=
  if advance cur (h.size cur) = block then
    { h with
      size := update h.size cur ((h.size cur + h.size block) % 2 ^ 64)
      next := update h.next cur (h.next block) }
  else { h with next := update h.next cur block }

/-- `free` of a pointer that is not `NULL`. -/
def freeBlock (h : Heap) (block : Nat) : Option Heap :=
  match h.freeList with
  | none => none
  | some first =>
    match freeLoop h block fuel first with
    | none => none
    | some cur => some { joinPrev (joinNext h block cur) block cur with freeList := some cur }

def free (h : Heap) : Option Nat → Option Heap
  | none => some h
  | some ptr => freeBlock h (ptr - 1)

/-- The units that `grow_heap` asks for. -/
def growUnits (units : Nat) : Nat := if units < 256 then 256 else units

/-- The argument of `sbrk`, as an unsigned number of bytes. -/
def increment (units : Nat) : Nat := growUnits units * 16 % 2 ^ 64

/-- `grow_heap`, for an answer of `sbrk`. -/
def growHeap (h : Heap) (units : Nat) : Option Nat → Option (Heap × Option Nat)
  | none => some (h, none)
  | some block =>
    let h := { h with size := update h.size block (growUnits units) }
    match free h (some (block + 1)) with
    | none => none
    | some h => some (h, h.freeList)

/-- What `malloc` leaves: the heap, the pointer, and the answers that were not asked for. -/
structure Returned where
  heap : Heap
  ptr : Option Nat
  answers : List (Option Nat)

/-- The block of `units` that is taken from `cur`. -/
def take (h : Heap) (units prev cur : Nat) : Heap × Nat :=
  if h.size cur = units then
    ({ h with next := update h.next prev (h.next cur), freeList := some prev }, cur)
  else
    let rest := h.size cur - units
    let block := advance cur rest
    ({ h with
      size := update (update h.size cur rest) block units
      freeList := some prev }, block)

/-- The loop of `malloc`. -/
def mallocLoop (units : Nat) : Nat → List (Option Nat) → Heap → Nat → Nat → Option Returned
  | 0, _, _, _, _ => none
  | n + 1, answers, h, prev, cur =>
    if h.size cur ≥ units then
      some ⟨(take h units prev cur).1, some ((take h units prev cur).2 + 1), answers⟩
    else if h.freeList = some cur then
      match answers with
      | [] => none
      | raw :: answers =>
        match growHeap h units raw with
        | none => none
        | some (h, none) => some ⟨h, none, answers⟩
        | some (h, some cur) => mallocLoop units n answers h cur (h.next cur)
    else mallocLoop units n answers h cur (h.next cur)

/-- `units` in `malloc`. -/
def unitsFor (size : Nat) : Nat := (size + 15) % 2 ^ 64 / 16 + 1

/-- The heap with a free list: `base` is set up by the first call. -/
def ready (base : Nat) (h : Heap) : Heap × Nat :=
  match h.freeList with
  | some prev => (h, prev)
  | none =>
    ({ h with
      next := update h.next base base
      size := update h.size base 0
      freeList := some base }, base)

def malloc (base : Nat) (h : Heap) (size : Nat) (answers : List (Option Nat)) : Option Returned :=
  if size = 0 then some ⟨h, none, answers⟩
  else
    let o := ready base h
    mallocLoop (unitsFor size) fuel answers o.1 o.2 (o.1.next o.2)

/-- `memset(ptr, 0, n)`, for a pointer in units and a number of bytes. -/
def clear (bytes : Nat → BitVec 8) (ptr n : Nat) : Nat → BitVec 8 := fun x =>
  if (x + 2 ^ 64 - ptr * 16) % 2 ^ 64 < n then 0#8 else bytes x

def calloc (base : Nat) (h : Heap) (nmemb size : Nat) (answers : List (Option Nat)) :
    Option Returned :=
  if nmemb ≠ 0 ∧ size > (2 ^ 64 - 1) / nmemb then some ⟨h, none, answers⟩
  else
    let total := nmemb * size % 2 ^ 64
    match malloc base h total answers with
    | none => none
    | some ⟨h, none, answers⟩ => some ⟨h, none, answers⟩
    | some ⟨h, some ptr, answers⟩ =>
      some ⟨{ h with bytes := clear h.bytes ptr total }, some ptr, answers⟩

/-! ## The blocks -/

/-- The units are tiled by free blocks and others.  The free blocks and the sentinel are a ring in
the order of their addresses, and none touch. -/
structure Blocks (base : Nat) (h : Heap) (nodes : List Nat) (others cells : Set Nat) : Prop where
  ring : Path h.next base nodes base
  sorted : nodes.Pairwise (· < ·)
  start : ∃ p ∈ nodes, h.freeList = some p
  sentinel : h.size base = 0
  tiles : Tiles h.size ({a | a ∈ nodes ∧ a ≠ base} ∪ others) cells
  used : ∀ a ∈ nodes, a ∉ others
  merged : ∀ a ∈ nodes, ∀ b ∈ nodes, a ≠ base → a + h.size a ≠ b
  room : ∀ u ∈ cells, base < u ∧ u + 1 < 2 ^ 60

section

variable {base : Nat} {h h' : Heap} {nodes l₁ l₂ : List Nat} {others cells : Set Nat}
  {a b p block : Nat}

theorem Blocks.end_lt (hb : Blocks base h nodes others cells)
    (ha : a ∈ nodes ∧ a ≠ base ∨ a ∈ others) : a + h.size a < 2 ^ 60 := by
  have hend := hb.tiles.end_le ha fun u hu => Nat.lt_sub_of_add_lt (hb.room u hu).2
  omega

/-- The sentinel lies below all blocks. -/
theorem Blocks.base_lt (hb : Blocks base h nodes others cells)
    (ha : a ∈ nodes ∧ a ≠ base ∨ a ∈ others) : base < a :=
  (hb.room a (hb.tiles.start_mem ha)).1

/-- The ring has fewer nodes than the loops have turns. -/
theorem Blocks.length_le (hb : Blocks base h nodes others cells) :
    nodes.length ≤ 2 ^ 60 + 1 := by
  have hnodup : nodes.Nodup := hb.sorted.imp fun hlt => Nat.ne_of_lt hlt
  have hsub : nodes ⊆ base :: range (2 ^ 60) := by
    intro a ha
    by_cases hbase : a = base
    · rw [hbase]
      exact mem_cons_self
    · have hlt := hb.end_lt (.inl ⟨ha, hbase⟩)
      exact mem_cons_of_mem _ (mem_range.mpr (by omega))
  have hlen := (subperm_of_subset hnodup hsub).length_le
  rw [length_cons, length_range] at hlen
  exact hlen

/-! ## The place of a block -/

/-- The loop of `free` stops here. -/
def Stops (h : Heap) (block cur : Nat) : Prop :=
  (block > cur ∧ block < h.next cur) ∨
    (cur ≥ h.next cur ∧ (block > cur ∨ block < h.next cur))

/-- Going along a path with a place to stop at, the loop stops. -/
theorem freeLoop_stops {n cur : Nat} {l : List Nat} (hp : Path h.next cur l b)
    (hlen : l.length ≤ n) (hstop : ∃ q ∈ l, Stops h block q) :
    ∃ q ∈ l, Stops h block q ∧ freeLoop h block n cur = some q := by
  induction l generalizing n cur with
  | nil =>
    obtain ⟨q, hq, -⟩ := hstop
    cases hq
  | cons c l ih =>
    obtain ⟨rfl, hrest⟩ := hp
    obtain ⟨m, rfl⟩ : ∃ m, n = m + 1 := ⟨n - 1, by rw [length_cons] at hlen; omega⟩
    have hrest := ih hrest (Nat.le_of_succ_le_succ hlen)
    rw [freeLoop]
    split
    next hbetween => exact ⟨cur, mem_cons_self, .inl hbetween, rfl⟩
    next hbetween =>
      split
      next hwrap => exact ⟨cur, mem_cons_self, .inr hwrap, rfl⟩
      next hwrap =>
        have hno : ¬Stops h block cur := not_or.mpr ⟨hbetween, hwrap⟩
        obtain ⟨q, hq, hs⟩ := hstop
        obtain ⟨q', hq', hs'⟩ := hrest ⟨q, by grind, hs⟩
        exact ⟨q', mem_cons_of_mem _ hq', hs'⟩

/-- What follows a node of the ring. -/
theorem Blocks.next_eq (hb : Blocks base h (l₁ ++ p :: l₂) others cells) :
    h.next p = l₂.headD base := by
  obtain ⟨d, -, rfl, hrest⟩ := path_append.mp hb.ring
  cases l₂ with
  | nil => exact hrest
  | cons c l₂ => exact hrest.1

/-- The loop stops at the node behind which the block belongs. -/
theorem Blocks.stops_iff (hb : Blocks base h (l₁ ++ p :: l₂) others cells)
    (hblock : block ∈ others) : Stops h block p ↔ p < block ∧ ∀ c ∈ l₂, block < c := by
  have hbase := hb.base_lt (.inr hblock)
  have hsorted := (pairwise_append.mp hb.sorted).2.1
  unfold Stops
  rw [hb.next_eq]
  cases l₂ with
  | nil =>
    have hp : base ≤ p := by
      by_cases hpb : p = base
      · exact Nat.le_of_eq hpb.symm
      · exact Nat.le_of_lt (hb.base_lt (.inl ⟨by simp, hpb⟩))
    simp only [headD_nil, not_mem_nil, false_implies, implies_true, and_true]
    omega
  | cons c l₂ =>
    obtain ⟨hpc, hrest⟩ := pairwise_cons.mp hsorted
    have hlt := hpc c mem_cons_self
    have hall : (∀ d ∈ c :: l₂, block < d) ↔ block < c := by
      have hbehind := (pairwise_cons.mp hrest).1
      grind
    rw [hall, headD_cons]
    omega

/-- An ordered list whose first element is smaller can be cut at a number that it lacks. -/
theorem exists_cut {l : List Nat} (hs : (a :: l).Pairwise (· < ·)) (ha : a < block)
    (hl : block ∉ l) : ∃ l₁ p l₂, a :: l = l₁ ++ p :: l₂ ∧ p < block ∧ ∀ c ∈ l₂, block < c := by
  induction l generalizing a with
  | nil => exact ⟨[], a, [], rfl, ha, nofun⟩
  | cons b l ih =>
    obtain ⟨hab, hrest⟩ := pairwise_cons.mp hs
    rcases Nat.lt_trichotomy b block with hlt | rfl | hgt
    · obtain ⟨l₁, p, l₂, heq, hp, hc⟩ :=
        ih hrest hlt fun hmem => hl (mem_cons_of_mem _ hmem)
      exact ⟨a :: l₁, p, l₂, by rw [heq, cons_append], hp, hc⟩
    · exact absurd mem_cons_self hl
    · refine ⟨[], a, b :: l, rfl, ha, fun c hc => ?_⟩
      rcases mem_cons.mp hc with rfl | hc
      · exact hgt
      · exact Nat.lt_trans hgt ((pairwise_cons.mp hrest).1 c hc)

/-- The loop of `free` finds the place of a block. -/
theorem Blocks.freeLoop_eq (hb : Blocks base h nodes others cells) (hblock : block ∈ others)
    {first : Nat} (hfirst : h.freeList = some first) :
    ∃ l₁ p l₂, nodes = l₁ ++ p :: l₂ ∧ p < block ∧ (∀ c ∈ l₂, block < c) ∧
      freeLoop h block fuel first = some p := by
  obtain ⟨first', hmem, hfirst'⟩ := hb.start
  obtain rfl : first = first' := Option.some.inj (hfirst.symm.trans hfirst')
  have hlen := hb.length_le
  have hplace : ∃ p ∈ nodes, Stops h block p := by
    have hbase := hb.base_lt (.inr hblock)
    have hnot : block ∉ nodes := fun hmem => hb.used block hmem hblock
    cases hnodes : nodes with
    | nil =>
      rw [hnodes] at hmem
      cases hmem
    | cons c l =>
      rw [hnodes] at hb hnot
      have hc : base = c := hb.ring.1
      obtain ⟨l₁, p, l₂, heq, hp, hl₂⟩ := exists_cut hb.sorted (hc ▸ hbase) fun hmem =>
        hnot (mem_cons_of_mem _ hmem)
      rw [heq] at hb ⊢
      exact ⟨p, by simp, (hb.stops_iff hblock).mpr ⟨hp, hl₂⟩⟩
  obtain ⟨m₁, m₂, hsplit⟩ := append_of_mem hmem
  have hring := hb.ring
  rw [hsplit] at hring hlen hplace
  have hperm : ∀ q, q ∈ first :: m₂ ++ m₁ ↔ q ∈ m₁ ++ first :: m₂ := by
    intro q
    rw [mem_append, mem_append, or_comm]
  obtain ⟨q, hq, hstop⟩ := hplace
  rw [length_append, Nat.add_comm, ← length_append] at hlen
  obtain ⟨p, hp, hstop, heq⟩ := freeLoop_stops (n := fuel) hring.rotate
    (Nat.le_trans hlen (by decide)) ⟨q, (hperm q).mpr hq, hstop⟩
  rw [hperm, ← hsplit] at hp
  obtain ⟨l₁, l₂, hcut⟩ := append_of_mem hp
  rw [hcut] at hb
  obtain ⟨hlt, hall⟩ := (hb.stops_iff hblock).mp hstop
  exact ⟨l₁, p, l₂, hcut, hlt, hall, heq⟩

/-! ## Merging -/

/-- Between the two `if`s of `free`: the block has its `next` and does not touch what follows. -/
structure Joined (base : Nat) (h : Heap) (l₁ : List Nat) (p block : Nat) (l₂ : List Nat)
    (others cells : Set Nat) : Prop where
  front : Path h.next base l₁ p
  back : Path h.next (h.next block) l₂ base
  sorted : (l₁ ++ p :: block :: l₂).Pairwise (· < ·)
  sentinel : h.size base = 0
  tiles : Tiles h.size ({a | a ∈ l₁ ++ p :: l₂ ∧ a ≠ base} ∪ others) cells
  used : ∀ a ∈ l₁ ++ p :: l₂, a ∉ others
  merged : ∀ a ∈ l₁ ++ p :: l₂, ∀ b ∈ l₁ ++ p :: l₂, a ≠ base → a + h.size a ≠ b
  apart : ∀ c ∈ l₂, block + h.size block ≠ c
  room : ∀ u ∈ cells, base < u ∧ u + 1 < 2 ^ 60

theorem advance_eq {n : Nat} (hlt : p + n < 2 ^ 60) : advance p n = p + n := Nat.mod_eq_of_lt hlt

theorem pairwise_insert {l₁ l₂ : List Nat} (hs : (l₁ ++ p :: l₂).Pairwise (· < ·))
    (hp : p < block) (hl₂ : ∀ c ∈ l₂, block < c) :
    (l₁ ++ p :: block :: l₂).Pairwise (· < ·) := by
  rw [pairwise_append, pairwise_cons] at hs
  rw [pairwise_append, pairwise_cons, pairwise_cons]
  obtain ⟨hs₁, hs₂, hcross⟩ := hs
  have hbefore := fun a ha => hcross a ha p mem_cons_self
  grind

/-- Without the block right behind another the rest is what the ring leaves. -/
theorem blocks_without (base : Nat) {c : Nat} (hs : (l₁ ++ p :: c :: l₂).Pairwise (· < ·))
    (hc : c ∉ others) :
    ({a | a ∈ l₁ ++ p :: l₂ ∧ a ≠ base} ∪ others : Set Nat) =
      ({a | a ∈ l₁ ++ p :: c :: l₂ ∧ a ≠ base} ∪ others) \ {c} := by
  have hnodup : (l₁ ++ p :: c :: l₂).Nodup := hs.imp fun hlt => Nat.ne_of_lt hlt
  ext a
  simp only [Set.mem_union, Set.mem_ofPred_eq, Set.mem_sdiff, Set.mem_singleton_iff]
  grind

/-- The block takes in the one that follows. -/
theorem Blocks.takeNext {c : Nat} (hb : Blocks base h (l₁ ++ p :: c :: l₂) others cells)
    (hblock : block ∈ others) (hp : p < block) (hjoin : block + h.size block = c)
    (hsize : h'.size = update h.size block ((h.size block + h.size c) % 2 ^ 64))
    (hnext : h'.next = update h.next block (h.next c)) :
    Joined base h' l₁ p block l₂ others cells ∧
      h'.size block = h.size block + h.size c := by
  have hbase := hb.base_lt (.inr hblock)
  have hc : c ∈ l₁ ++ p :: c :: l₂ := by simp
  have hcbase : c ≠ base := by omega
  have hcend := hb.end_lt (.inl ⟨hc, hcbase⟩)
  have hsub : (l₁ ++ p :: l₂).Sublist (l₁ ++ p :: c :: l₂) := by simp
  have hnot : ∀ a ∈ l₁ ++ p :: c :: l₂, a ≠ block := fun a ha hab =>
    hb.used a ha (hab ▸ hblock)
  have hsum : h'.size block = h.size block + h.size c := by
    rw [hsize, update_self, Nat.mod_eq_of_lt (by omega)]
  have hsame : ∀ a, a ≠ block → h'.size a = h.size a := by
    intro a ha
    rw [hsize, update_of_ne ha]
  have hkeep : ∀ a ∈ l₁ ++ p :: c :: l₂, h'.next a = h.next a := by
    intro a ha
    rw [hnext, update_of_ne (hnot a ha)]
  obtain ⟨d, hfront, rfl, -, hback⟩ := path_append.mp hb.ring
  refine ⟨⟨?_, ?_, ?_, ?_, ?_, ?_, ?_, ?_, hb.room⟩, hsum⟩
  · exact hfront.congr fun a ha => hkeep a (mem_append_left _ ha)
  · rw [hnext, update_self, ← hnext]
    exact hback.congr fun a ha => hkeep a (by simp [ha])
  · refine pairwise_insert (hb.sorted.sublist hsub) hp fun a ha => ?_
    have hsorted := (pairwise_append.mp hb.sorted).2.1
    have hca := (pairwise_cons.mp (pairwise_cons.mp hsorted).2).1 a ha
    omega
  · exact (hsame base (by omega)).trans hb.sentinel
  · rw [blocks_without base hb.sorted (hb.used c hc)]
    exact hb.tiles.merge (.inr hblock) (.inl ⟨hc, hcbase⟩) hjoin hsum
      fun a _ hab _ => hsame a hab
  · exact fun a ha => hb.used a (hsub.subset ha)
  · intro a ha b hb' hab
    rw [hsame a (hnot a (hsub.subset ha))]
    exact hb.merged a (hsub.subset ha) b (hsub.subset hb') hab
  · intro a ha
    have := hb.merged c hc a (by simp [ha]) hcbase
    omega

/-- The block is put before the one that follows. -/
theorem Blocks.beforeNext (hb : Blocks base h (l₁ ++ p :: l₂) others cells)
    (hblock : block ∈ others) (hp : p < block) (hl₂ : ∀ c ∈ l₂, block < c)
    (hjoin : block + h.size block ≠ h.next p) (hsize : h'.size = h.size)
    (hnext : h'.next = update h.next block (h.next p)) :
    Joined base h' l₁ p block l₂ others cells := by
  have hbase := hb.base_lt (.inr hblock)
  have hkeep : ∀ a ∈ l₁ ++ p :: l₂, h'.next a = h.next a := by
    intro a ha
    rw [hnext, update_of_ne]
    exact fun hab => hb.used a ha (hab ▸ hblock)
  rw [hb.next_eq] at hjoin
  obtain ⟨d, hfront, rfl, hback⟩ := path_append.mp hb.ring
  refine ⟨?_, ?_, pairwise_insert hb.sorted hp hl₂, ?_, ?_, hb.used, ?_, ?_, hb.room⟩
  · exact hfront.congr fun a ha => hkeep a (mem_append_left _ ha)
  · rw [hnext, update_self, ← hnext]
    exact hback.congr fun a ha => hkeep a (by simp [ha])
  · rw [hsize]
    exact hb.sentinel
  · rw [hsize]
    exact hb.tiles
  · rw [hsize]
    exact hb.merged
  · rw [hsize]
    intro c hc heq
    cases l₂ with
    | nil => cases hc
    | cons e l₂ =>
      rcases mem_cons.mp hc with rfl | hc
      · exact hjoin heq
      · -- The blocks behind the next one lie behind its end.
        have hsorted := (pairwise_append.mp hb.sorted).2.1
        have hlt := (pairwise_cons.mp (pairwise_cons.mp hsorted).2).1 c hc
        have hbe := hl₂ e mem_cons_self
        have hle := hb.tiles.apart block (.inr hblock) e (.inl ⟨by simp, by omega⟩) hbe
        omega

theorem Blocks.joinNext (hb : Blocks base h (l₁ ++ p :: l₂) others cells)
    (hblock : block ∈ others) (hp : p < block) (hl₂ : ∀ c ∈ l₂, block < c) :
    ∃ l₂', Joined base (joinNext h block p) l₁ p block l₂' others cells ∧
      (∀ a ∈ others, a ≠ block → (joinNext h block p).size a = h.size a) ∧
      h.size block ≤ (joinNext h block p).size block := by
  have hbase := hb.base_lt (.inr hblock)
  unfold Libc.joinNext
  rw [advance_eq (hb.end_lt (.inr hblock))]
  split
  next hjoin =>
    have hnext := hb.next_eq
    cases l₂ with
    | nil =>
      rw [hnext, headD_nil] at hjoin
      omega
    | cons c l₂ =>
      rw [headD_cons] at hnext
      rw [hnext] at hjoin ⊢
      refine ⟨l₂, (hb.takeNext hblock hp hjoin rfl rfl).1,
        fun a _ hab => update_of_ne hab _ _, ?_⟩
      exact (Nat.le_add_right _ _).trans_eq (hb.takeNext hblock hp hjoin rfl rfl).2.symm
  next hjoin =>
    exact ⟨l₂, hb.beforeNext hblock hp hl₂ hjoin rfl rfl, fun _ _ _ => rfl, Nat.le_refl _⟩

/-- The block before takes in this one. -/
theorem Joined.takePrev (hj : Joined base h l₁ p block l₂ others cells) (hblock : block ∈ others)
    (hjoin : p + h.size p = block)
    (hsize : h'.size = update h.size p ((h.size p + h.size block) % 2 ^ 64))
    (hnext : h'.next = update h.next p (h.next block))
    (hfree : h'.freeList = some p) :
    Blocks base h' (l₁ ++ p :: l₂) (others \ {block}) cells ∧
      h'.size p = h.size p + h.size block := by
  have hsub : (l₁ ++ p :: l₂).Sublist (l₁ ++ p :: block :: l₂) := by simp
  have hp : p ∈ l₁ ++ p :: l₂ := by simp
  obtain ⟨-, hs₂, hcross⟩ := pairwise_append.mp hj.sorted
  obtain ⟨hp₂, hblock₂⟩ := pairwise_cons.mp hs₂
  have hlt := hp₂ block mem_cons_self
  have hpbase : p ≠ base := by
    rintro rfl
    rw [hj.sentinel] at hjoin
    omega
  have hend := hj.tiles.end_le (.inr hblock) fun u hu =>
    Nat.lt_sub_of_add_lt (hj.room u hu).2
  have hsum : h'.size p = h.size p + h.size block := by
    rw [hsize, update_self, Nat.mod_eq_of_lt (by omega)]
  have hsame : ∀ a, a ≠ p → h'.size a = h.size a := by
    intro a ha
    rw [hsize, update_of_ne ha]
  have hne₁ : ∀ a ∈ l₁, a ≠ p := fun a ha => Nat.ne_of_lt (hcross a ha p mem_cons_self)
  have hne₂ : ∀ a ∈ l₂, a ≠ p := fun a ha =>
    Nat.ne_of_gt (hp₂ a (mem_cons_of_mem _ ha))
  have hkeep : ∀ a, a ≠ p → h'.next a = h.next a := by
    intro a ha
    rw [hnext, update_of_ne ha]
  refine ⟨⟨?_, hj.sorted.sublist hsub, ⟨p, hp, hfree⟩, ?_, ?_, ?_, ?_, hj.room⟩, hsum⟩
  · refine path_append.mpr ⟨p, hj.front.congr fun a ha => hkeep a (hne₁ a ha), rfl, ?_⟩
    rw [hnext, update_self, ← hnext]
    exact hj.back.congr fun a ha => hkeep a (hne₂ a ha)
  · exact (hsame base hpbase.symm).trans hj.sentinel
  · have hset : ({a | a ∈ l₁ ++ p :: l₂ ∧ a ≠ base} ∪ others \ {block} : Set Nat) =
        ({a | a ∈ l₁ ++ p :: l₂ ∧ a ≠ base} ∪ others) \ {block} := by
      have hnot : block ∉ {a | a ∈ l₁ ++ p :: l₂ ∧ a ≠ base} := fun hmem =>
        hj.used block hmem.1 hblock
      rw [Set.union_sdiff_distrib, Set.sdiff_singleton_eq_self hnot]
    rw [hset]
    exact hj.tiles.merge (.inl ⟨hp, hpbase⟩) (.inr hblock) hjoin hsum
      fun a _ hap _ => hsame a hap
  · exact fun a ha hmem => hj.used a ha hmem.1
  · intro a ha b hb hab
    have hmerged := hj.merged a ha b hb hab
    have hafter := hj.apart b
    have hlow := hcross b
    grind

/-- The block is put behind the one before. -/
theorem Joined.behindPrev (hj : Joined base h l₁ p block l₂ others cells)
    (hblock : block ∈ others) (hbase : base < block) (hjoin : p + h.size p ≠ block)
    (hsize : h'.size = h.size) (hnext : h'.next = update h.next p block)
    (hfree : h'.freeList = some p) :
    Blocks base h' (l₁ ++ p :: block :: l₂) (others \ {block}) cells := by
  have hp : p ∈ l₁ ++ p :: block :: l₂ := by simp
  obtain ⟨-, hs₂, hcross⟩ := pairwise_append.mp hj.sorted
  obtain ⟨hp₂, hs₂⟩ := pairwise_cons.mp hs₂
  have hblock₂ := (pairwise_cons.mp hs₂).1
  have hlt := hp₂ block mem_cons_self
  have hkeep : ∀ a, a ≠ p → h'.next a = h.next a := by
    intro a ha
    rw [hnext, update_of_ne ha]
  have hsplit : ∀ a, a ∈ l₁ ++ p :: block :: l₂ ↔ a = block ∨ a ∈ l₁ ++ p :: l₂ := by
    intro a
    simp only [mem_append, mem_cons]
    tauto
  refine ⟨?_, hj.sorted, ⟨p, hp, hfree⟩, ?_, ?_, ?_, ?_, hj.room⟩
  · refine path_append.mpr ⟨p, hj.front.congr fun a ha =>
      hkeep a (Nat.ne_of_lt (hcross a ha p mem_cons_self)), rfl, ?_, ?_⟩
    · rw [hnext, update_self]
    · rw [hkeep block (Nat.ne_of_gt hlt)]
      exact hj.back.congr fun a ha =>
        hkeep a (Nat.ne_of_gt (hp₂ a (mem_cons_of_mem _ ha)))
  · rw [hsize]
    exact hj.sentinel
  · have hset : ({a | a ∈ l₁ ++ p :: block :: l₂ ∧ a ≠ base} ∪ others \ {block} : Set Nat) =
        {a | a ∈ l₁ ++ p :: l₂ ∧ a ≠ base} ∪ others := by
      ext a
      simp only [Set.mem_union, Set.mem_ofPred_eq, Set.mem_sdiff, Set.mem_singleton_iff, hsplit]
      grind
    rw [hset, hsize]
    exact hj.tiles
  · rintro a ha ⟨hmem, hne⟩
    rcases (hsplit a).mp ha with rfl | ha
    · exact hne rfl
    · exact hj.used a ha hmem
  · rw [hsize]
    intro a ha b hb hab
    have hpos := hj.tiles.pos block (.inr hblock)
    -- The blocks before `p` end where it starts.
    have hbefore : a ∈ l₁ → a + h.size a ≤ p := by
      intro ha₁
      have hold : a ∈ l₁ ++ p :: l₂ := mem_append_left _ ha₁
      have hap := hcross a ha₁ p mem_cons_self
      have hbelow := (hj.room a (hj.tiles.start_mem (.inl ⟨hold, hab⟩))).1
      exact hj.tiles.apart a (.inl ⟨hold, hab⟩) p (.inl ⟨by simp, by omega⟩) hap
    have hmerged := hj.merged a
    have hafter := hj.apart b
    have hlow := hcross b
    have hhigh := hblock₂ a
    grind

theorem joinNext_bytes (h : Heap) (block p : Nat) : (joinNext h block p).bytes = h.bytes := by
  unfold joinNext
  split
  · rfl
  · rfl

theorem joinPrev_bytes (h : Heap) (block p : Nat) : (joinPrev h block p).bytes = h.bytes := by
  unfold joinPrev
  split
  · rfl
  · rfl

theorem Joined.joinPrev (hj : Joined base h l₁ p block l₂ others cells) (hblock : block ∈ others) :
    ∃ nodes, Blocks base { joinPrev h block p with freeList := some p } nodes
        (others \ {block}) cells ∧
      (∀ a ∈ others, (joinPrev h block p).size a = h.size a) ∧
      ∃ c ∈ nodes, h.size block ≤
        ({ joinPrev h block p with freeList := some p } : Heap).size c := by
  have hp : ∀ a ∈ others, a ≠ p := fun a ha hap => hj.used p (by simp) (hap ▸ ha)
  have hbelow := (hj.room block (hj.tiles.start_mem (.inr hblock))).1
  have hlt := (pairwise_cons.mp (pairwise_append.mp hj.sorted).2.1).1 block
    mem_cons_self
  have hend : p + h.size p < 2 ^ 60 := by
    by_cases hpb : p = base
    · have hblock₁ := (hj.room block (hj.tiles.start_mem (.inr hblock))).2
      rw [hpb, hj.sentinel]
      omega
    · have := hj.tiles.end_le (.inl ⟨by simp, hpb⟩) fun u hu =>
        Nat.lt_sub_of_add_lt (hj.room u hu).2
      omega
  unfold Libc.joinPrev
  rw [advance_eq hend]
  split
  next hjoin =>
    refine ⟨l₁ ++ p :: l₂, (hj.takePrev hblock hjoin rfl rfl rfl).1,
      fun a ha => update_of_ne (hp a ha) _ _, p, by simp, ?_⟩
    exact (Nat.le_add_left _ _).trans_eq (hj.takePrev hblock hjoin rfl rfl rfl).2.symm
  next hjoin =>
    exact ⟨l₁ ++ p :: block :: l₂, hj.behindPrev hblock hbelow hjoin rfl rfl rfl,
      fun _ _ => rfl, block, by simp, Nat.le_refl _⟩

/-- `free` puts a block into the ring. -/
theorem Blocks.freeBlock (hb : Blocks base h nodes others cells) (hblock : block ∈ others) :
    ∃ h' nodes', freeBlock h block = some h' ∧
      Blocks base h' nodes' (others \ {block}) cells ∧
      (∀ a ∈ others, a ≠ block → h'.size a = h.size a) ∧ h'.bytes = h.bytes ∧
      ∃ c ∈ nodes', h.size block ≤ h'.size c := by
  obtain ⟨first, -, hfirst⟩ := hb.start
  obtain ⟨l₁, p, l₂, rfl, hp, hl₂, hloop⟩ := hb.freeLoop_eq hblock hfirst
  obtain ⟨l₂', hj, hsame, hle⟩ := hb.joinNext hblock hp hl₂
  obtain ⟨nodes', hb', hsame', c, hc, hle'⟩ := hj.joinPrev hblock
  unfold Libc.freeBlock
  rw [hfirst]
  dsimp only
  rw [hloop]
  refine ⟨_, nodes', rfl, hb', fun a ha hab => ?_, ?_, c, hc, Nat.le_trans hle hle'⟩
  · exact (hsame' a ha).trans (hsame a ha hab)
  · exact (joinPrev_bytes _ _ _).trans (joinNext_bytes _ _ _)

/-! ## Taking a block -/

/-- A free block of the right size leaves the ring. -/
theorem Blocks.takeWhole {c : Nat} (hb : Blocks base h (l₁ ++ p :: c :: l₂) others cells)
    (hc : c ≠ base) (hsize : h'.size = h.size)
    (hnext : h'.next = update h.next p (h.next c)) (hfree : h'.freeList = some p) :
    Blocks base h' (l₁ ++ p :: l₂) (insert c others) cells := by
  have hsub : (l₁ ++ p :: l₂).Sublist (l₁ ++ p :: c :: l₂) := by simp
  have hcmem : c ∈ l₁ ++ p :: c :: l₂ := by simp
  obtain ⟨d, hfront, rfl, -, hback⟩ := path_append.mp hb.ring
  obtain ⟨-, hs₂, hcross⟩ := pairwise_append.mp hb.sorted
  have hp₂ := (pairwise_cons.mp hs₂).1
  have hkeep : ∀ a, a ≠ d → h'.next a = h.next a := by
    intro a ha
    rw [hnext, update_of_ne ha]
  have hwithout := blocks_without base hb.sorted (hb.used c hcmem)
  refine ⟨?_, hb.sorted.sublist hsub, ⟨d, by simp, hfree⟩, ?_, ?_, ?_, ?_, hb.room⟩
  · refine path_append.mpr ⟨d, hfront.congr fun a ha =>
      hkeep a (Nat.ne_of_lt (hcross a ha d mem_cons_self)), rfl, ?_⟩
    rw [hnext, update_self, ← hnext]
    exact hback.congr fun a ha => hkeep a (Nat.ne_of_gt (hp₂ a (mem_cons_of_mem _ ha)))
  · rw [hsize]
    exact hb.sentinel
  · have hmem : c ∈ ({a | a ∈ l₁ ++ d :: c :: l₂ ∧ a ≠ base} ∪ others : Set Nat) :=
      .inl ⟨hcmem, hc⟩
    rw [hsize, Set.union_insert, hwithout, Set.insert_sdiff_singleton,
      Set.insert_eq_of_mem hmem]
    exact hb.tiles
  · rintro a ha (rfl | hmem)
    · have hmem : a ∈ ({a | a ∈ l₁ ++ d :: l₂ ∧ a ≠ base} ∪ others : Set Nat) :=
        .inl ⟨ha, hc⟩
      rw [hwithout] at hmem
      exact hmem.2 rfl
    · exact hb.used a (hsub.subset ha) hmem
  · rw [hsize]
    exact fun a ha b hb' => hb.merged a (hsub.subset ha) b (hsub.subset hb')

structure Took (base units : Nat) (h h' : Heap) (block : Nat) (others cells : Set Nat) :
    Prop where
  blocks : ∃ nodes, Blocks base h' nodes (insert block others) cells
  size : h'.size block = units
  fresh : block ∉ others
  same : ∀ a ∈ others, h'.size a = h.size a
  bytes : h'.bytes = h.bytes

/-- The end of a free block is cut off. -/
theorem Blocks.takeTail {c units : Nat} (hb : Blocks base h nodes others cells) (hp : p ∈ nodes)
    (hc : c ∈ nodes ∧ c ≠ base) (hunits : 0 < units) (hfit : units < h.size c)
    (hblock : block = c + (h.size c - units))
    (hsize : h'.size = update (update h.size c (h.size c - units)) block units)
    (hnext : h'.next = h.next) (hfree : h'.freeList = some p) (hbytes : h'.bytes = h.bytes) :
    Took base units h h' block others cells := by
  -- No block starts inside another one.
  have hinside : ∀ a, a ∈ nodes ∧ a ≠ base ∨ a ∈ others → a ≠ block := by
    rintro a ha rfl
    have := hb.tiles.apart c (.inl hc) a ha (by omega)
    omega
  have hbase := hb.base_lt (.inl hc)
  have hsc : h'.size c = h.size c - units := by
    rw [hsize, update_of_ne (hinside c (.inl hc)), update_self]
  have hsame : ∀ a, a ≠ block → a ≠ c → h'.size a = h.size a := by
    intro a hab hac
    rw [hsize, update_of_ne hab, update_of_ne hac]
  have hsb : h'.size block = units := by
    rw [hsize, update_self]
  have hnodes : ∀ a ∈ nodes, a ≠ block := by
    intro a ha
    by_cases hab : a = base
    · omega
    · exact hinside a (.inl ⟨ha, hab⟩)
  refine ⟨⟨nodes, ?_, hb.sorted, ⟨p, hp, hfree⟩, ?_, ?_, ?_, ?_, hb.room⟩, hsb, ?_, ?_, hbytes⟩
  · rw [hnext]
    exact hb.ring
  · exact (hsame base (by omega) (by omega)).trans hb.sentinel
  · rw [Set.union_insert]
    exact hb.tiles.split (.inl hc) hunits hfit hblock hsc hsb
      fun a ha hac => hsame a (hinside a ha) hac
  · rintro a ha (rfl | hmem)
    · exact hnodes a ha rfl
    · exact hb.used a ha hmem
  · intro a ha b hb' hab
    by_cases hac : a = c
    · rw [hac, hsc, ← hblock]
      exact (hnodes b hb').symm
    · rw [hsame a (hnodes a ha) hac]
      exact hb.merged a ha b hb' hab
  · exact fun hmem => hinside block (.inr hmem) rfl
  · intro a ha
    exact hsame a (hinside a (.inr ha)) fun hac => hb.used c hc.1 (hac ▸ ha)

theorem Blocks.take {c units : Nat} (hb : Blocks base h (l₁ ++ p :: c :: l₂) others cells)
    (hunits : 0 < units) (hfit : units ≤ h.size c) :
    Took base units h (take h units p c).1 (take h units p c).2 others cells := by
  have hcmem : c ∈ l₁ ++ p :: c :: l₂ := by simp
  have hc : c ≠ base := by
    rintro rfl
    rw [hb.sentinel] at hfit
    omega
  have hend := hb.end_lt (.inl ⟨hcmem, hc⟩)
  unfold Libc.take
  split
  next heq =>
    exact ⟨⟨_, hb.takeWhole hc rfl rfl rfl⟩, heq, hb.used c hcmem, fun _ _ => rfl, rfl⟩
  next hne =>
    have hadv : advance c (h.size c - units) = c + (h.size c - units) :=
      advance_eq (by omega)
    exact hb.takeTail (by simp) ⟨hcmem, hc⟩ hunits (by omega) hadv rfl rfl rfl rfl

end

end Aeryk.Libc
