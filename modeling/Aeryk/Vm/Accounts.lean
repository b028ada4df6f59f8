import Mathlib.Data.Finset.Prod
import Aeryk.Lib.Refs
import Aeryk.Mem.Ledger
import Aeryk.Vm.Tables

/-!
# Who holds a page frame

A page frame in use is held by entries of page tables, by a process as its `pml4`, or by the kernel
for something else: a stack, a slab, a frame that is not yet mapped.  `uses` counts the holders.
`Accounted` says that the page allocator agrees with that number, and that a frame used as a table
has one holder.  So the trees of the address spaces are disjoint, and a store to an entry is a
store to that entry alone.

`K` counts the frames the kernel holds.  An allocation gives a reference to the kernel, mapping a
page passes it on to an entry, clearing an entry takes it back and `pmm_free_page` drops it.  Only
the user half is counted: the tables of the kernel half are reserved.
-/

namespace Aeryk.Vm

open Finset Lib Mem Mem.Pmm

/-! ## Keys -/

/-- The words of the user half: key `k` at depth `d`. -/
def slots : Finset (Nat × Nat) :=
  (range 4 ×ˢ range (256 * 512 ^ 3)).filter fun x => x.2 < 256 * 512 ^ x.1

def userPages : Nat := 256 * 512 ^ 3

/-- The tables of the user half: key `k` at depth `d`. -/
def TableKey (d k : Nat) : Prop := d ≤ 3 ∧ k * 512 < 256 * 512 ^ d

section

variable {d k : Nat}

theorem mem_slots : (d, k) ∈ slots ↔ d ≤ 3 ∧ k < 256 * 512 ^ d := by
  unfold slots
  rw [mem_filter, mem_product, mem_range, mem_range]
  constructor
  · rintro ⟨⟨hd, -⟩, hk⟩
    exact ⟨Nat.le_of_lt_succ hd, hk⟩
  · rintro ⟨hd, hk⟩
    refine ⟨⟨Nat.lt_succ_of_le hd, Nat.lt_of_lt_of_le hk ?_⟩, hk⟩
    exact Nat.mul_le_mul_left _ (Nat.pow_le_pow_right (by decide) hd)

theorem leaf_mem_slots : (3, k) ∈ slots ↔ k < userPages := by
  rw [mem_slots]
  exact ⟨fun h => h.2, fun h => ⟨Nat.le_refl 3, h⟩⟩

theorem tableKey_of_slot (h : (d, k) ∈ slots) : TableKey d (k / 512) := by
  rw [mem_slots] at h
  exact ⟨h.1, Nat.lt_of_le_of_lt (Nat.div_mul_le_self k 512) h.2⟩

theorem slot_of_tableKey (h : TableKey (d + 1) k) : (d, k) ∈ slots := by
  rw [mem_slots]
  obtain ⟨hd, hk⟩ := h
  refine ⟨by omega, ?_⟩
  rw [Nat.pow_succ, ← Nat.mul_assoc] at hk
  exact Nat.lt_of_mul_lt_mul_right hk

theorem tableKey_succ (h : (d, k) ∈ slots) (hd : d < 3) : TableKey (d + 1) k := by
  rw [mem_slots] at h
  refine ⟨hd, ?_⟩
  rw [Nat.pow_succ, ← Nat.mul_assoc]
  exact Nat.mul_lt_mul_of_pos_right h.2 (by decide)

theorem tableKey_up (h : TableKey (d + 1) k) : TableKey d (k / 512) :=
  tableKey_of_slot (slot_of_tableKey h)

theorem tableKey_zero : TableKey 0 k ↔ k = 0 := by
  unfold TableKey
  rw [Nat.pow_zero]
  omega

end

/-! ## Holders -/

namespace Memory

/-- The table with key `k` at depth `d` of the tree with root `r`. -/
def tab (m : Memory) (r d k : Nat) : Option Nat := Radix.tab 512 child m.words r d k

/-- The word with key `k` at depth `d` of the tree with root `r`. -/
def word (m : Memory) (r d k : Nat) : Option Word := Radix.word 512 child m.words r d k

/-- The leaf entry of page `v`, or `0` if it has no page table. -/
def leaf (m : Memory) (r v : Nat) : Word := (m.word r 3 v).getD 0#64

/-- The frame that a word of the tree of `x.1` holds: a table, or at the last level a page. -/
def holds (m : Memory) (x : Nat × Nat × Nat) : Option Nat :=
  (m.word x.1 x.2.1 x.2.2).bind (if x.2.1 = 3 then owned else child)

def uses (m : Memory) (R : Finset Nat) (K : Nat → Nat) (f : Nat) : Nat :=
  refs m.holds (R ×ˢ slots) f + (if f ∈ R then 1 else 0) + K f

end Memory

open Memory

/-- The page allocator agrees with the holders of the frames, and a frame used as a table
has one holder. -/
structure Accounted (m : Memory) (res : Nat → Bool) (R : Finset Nat) (K : Nat → Nat) : Prop where
  follows : Follows m.pmm ⟨res, m.uses R K⟩
  /-- Physical addresses have 52 bits. -/
  small : m.pmm.pages ≤ 2 ^ 40
  range : ∀ f, 0 < m.uses R K f → f < m.pmm.pages ∧ res f = false
  table : ∀ r ∈ R, ∀ d k t, TableKey d k → m.tab r d k = some t → m.uses R K t = 1
  /-- A free frame is left with a count of zero. -/
  idle : ∀ f < m.pmm.pages, res f = false → m.uses R K f = 0 → m.pmm.refcount f = 0

section

variable {m m' : Memory} {res : Nat → Bool} {R : Finset Nat} {K : Nat → Nat}
  {r r' d d' k k' t f v : Nat} {w : Word}

theorem tab_succ : m.tab r (d + 1) k = (m.word r d k).bind child := Radix.tab_succ

theorem word_of_tab (h : m.tab r d (k / 512) = some t) :
    m.word r d k = some (m.words t (k % 512)) :=
  Radix.word_of_tab h

theorem holds_of_lt (hd : d < 3) : m.holds (r, d, k) = m.tab r (d + 1) k := by
  rw [tab_succ, holds, if_neg (by exact Nat.ne_of_lt hd)]

theorem holds_leaf : m.holds (r, 3, v) = owned (m.leaf r v) := by
  unfold holds leaf
  cases m.word r 3 v with
  | none => exact owned_zero.symm
  | some w => rfl

/-- Entries and holders are read from the contents of the frames alone. -/
theorem leaf_of_words (h : m'.words = m.words) (r v : Nat) : m'.leaf r v = m.leaf r v := by
  unfold leaf word
  rw [h]

theorem uses_of_words (h : m'.words = m.words) : m'.uses R K = m.uses R K := by
  funext f
  unfold uses holds word
  rw [h]

theorem uses_add (g : Nat → Nat) : m.uses R (K + g) f = m.uses R K f + g f := by
  unfold uses
  rw [Pi.add_apply]
  omega

theorem uses_single :
    m.uses R (K + Pi.single t 1) f = m.uses R K f + if f = t then 1 else 0 := by
  rw [uses_add, Pi.single_apply]

/-- A root and a table below a root have different frames, and so have two tables. -/
theorem Accounted.unique (h : Accounted m res R K) (hr : r ∈ R) (hr' : r' ∈ R)
    (hk : TableKey d k) (hk' : TableKey d' k') (ht : m.tab r d k = some t)
    (ht' : m.tab r' d' k' = some t) : r = r' ∧ d = d' ∧ k = k' := by
  have hone := h.table r hr d k t hk ht
  unfold uses at hone
  -- a root that is also held by an entry would have two holders
  have hroot : ∀ {a e j}, a ∈ R → t ∈ R → TableKey (e + 1) j → m.tab a (e + 1) j ≠ some t := by
    intro a e j ha hR hj htab
    have hslot := slot_of_tableKey hj
    have hpos : 0 < refs m.holds (R ×ˢ slots) t :=
      refs_pos.mpr ⟨(a, e, j), mem_product.mpr ⟨ha, hslot⟩,
        (holds_of_lt (by exact hj.1)).trans htab⟩
    rw [if_pos hR] at hone
    omega
  cases d with
  | zero =>
    obtain rfl : r = t := Option.some.inj ht
    cases d' with
    | zero =>
      obtain rfl : r' = r := Option.some.inj ht'
      exact ⟨rfl, rfl, (tableKey_zero.mp hk).trans (tableKey_zero.mp hk').symm⟩
    | succ d' => exact absurd ht' (hroot hr' hr hk')
  | succ d =>
    cases d' with
    | zero =>
      obtain rfl : r' = t := Option.some.inj ht'
      exact absurd ht (hroot hr hr' hk)
    | succ d' =>
      have hle : refs m.holds (R ×ˢ slots) t ≤ 1 := by omega
      have heq := refs_unique hle (s := (r, d, k)) (t := (r', d', k'))
        (mem_product.mpr ⟨hr, slot_of_tableKey hk⟩)
        (mem_product.mpr ⟨hr', slot_of_tableKey hk'⟩)
        ((holds_of_lt (by exact hk.1)).trans ht) ((holds_of_lt (by exact hk'.1)).trans ht')
      simp only [Prod.mk.injEq] at heq
      exact ⟨heq.1, congrArg Nat.succ heq.2.1, heq.2.2⟩

def IsTable (m : Memory) (R : Finset Nat) (t : Nat) : Prop :=
  ∃ r ∈ R, ∃ d k, TableKey d k ∧ m.tab r d k = some t

theorem Accounted.uses_table (h : Accounted m res R K) (ht : IsTable m R t) :
    m.uses R K t = 1 := by
  obtain ⟨r, hr, d, k, hk, htab⟩ := ht
  exact h.table r hr d k t hk htab

/-- A frame the kernel holds is not used as a table. -/
theorem Accounted.not_table_of_kernel (h : Accounted m res R K) (hK : 0 < K t) :
    ¬IsTable m R t := by
  rintro ⟨r, hr, d, k, hk, htab⟩
  have hone := h.table r hr d k t hk htab
  unfold uses at hone
  cases d with
  | zero =>
    obtain rfl : r = t := Option.some.inj htab
    rw [if_pos hr] at hone
    omega
  | succ d =>
    have hpos : 0 < refs m.holds (R ×ˢ slots) t :=
      refs_pos.mpr ⟨(r, d, k), mem_product.mpr ⟨hr, slot_of_tableKey hk⟩,
        (holds_of_lt (by exact hk.1)).trans htab⟩
    omega

/-- A page of an address space is not used as a table. -/
theorem Accounted.not_table_of_leaf (h : Accounted m res R K) (hr : r ∈ R) (hv : v < userPages)
    (hf : owned (m.leaf r v) = some t) : ¬IsTable m R t := by
  rintro ⟨r', hr', d, k, hk, htab⟩
  have hone := h.table r' hr' d k t hk htab
  have hmem : (r, 3, v) ∈ R ×ˢ slots := mem_product.mpr ⟨hr, leaf_mem_slots.mpr hv⟩
  have hheld : m.holds (r, 3, v) = some t := holds_leaf.trans hf
  have hpos : 0 < refs m.holds (R ×ˢ slots) t := refs_pos.mpr ⟨_, hmem, hheld⟩
  unfold uses at hone
  cases d with
  | zero =>
    obtain rfl : r' = t := Option.some.inj htab
    rw [if_pos hr'] at hone
    omega
  | succ d =>
    have hle : refs m.holds (R ×ˢ slots) t ≤ 1 := by omega
    have heq := refs_unique hle hmem (t := (r', d, k))
      (mem_product.mpr ⟨hr', slot_of_tableKey hk⟩) hheld
      ((holds_of_lt (by exact hk.1)).trans htab)
    simp only [Prod.mk.injEq] at heq
    have := hk.1
    omega

theorem Accounted.not_table_of_unused (h : Accounted m res R K) (hu : m.uses R K t = 0) :
    ¬IsTable m R t := by
  intro ht
  have := h.uses_table ht
  omega

theorem isTable_root (hr : r ∈ R) : IsTable m R r :=
  ⟨r, hr, 0, 0, tableKey_zero.mpr rfl, rfl⟩

/-! ## Stores that touch no table -/

def SameTables (m m' : Memory) (R : Finset Nat) : Prop :=
  ∀ t, IsTable m R t → m'.words t = m.words t

theorem SameTables.tab (h : SameTables m m' R) (hr : r ∈ R) (hk : TableKey d k) :
    m'.tab r d k = m.tab r d k := by
  refine Radix.tab_congr (V := TableKey) (fun d k => tableKey_up) ?_ hk
  intro d k hk t ht
  rw [h t ⟨r, hr, d, k / 512, tableKey_up hk, ht⟩]

theorem SameTables.word (h : SameTables m m' R) (hr : r ∈ R) (hk : (d, k) ∈ slots) :
    m'.word r d k = m.word r d k := by
  have htab : m'.tab r d (k / 512) = m.tab r d (k / 512) := h.tab hr (tableKey_of_slot hk)
  cases ht : m.tab r d (k / 512) with
  | none =>
    have ht' : m'.tab r d (k / 512) = none := htab.trans ht
    unfold Memory.word Radix.word
    unfold Memory.tab at ht ht'
    rw [ht, ht']
    rfl
  | some t =>
    rw [word_of_tab ht, word_of_tab (htab.trans ht),
      h t ⟨r, hr, d, k / 512, tableKey_of_slot hk, ht⟩]

theorem SameTables.leaf (h : SameTables m m' R) (hr : r ∈ R) (hv : v < userPages) :
    m'.leaf r v = m.leaf r v := by
  unfold Memory.leaf
  rw [h.word hr (leaf_mem_slots.mpr hv)]

theorem SameTables.holds (h : SameTables m m' R) (hr : r ∈ R) (hk : (d, k) ∈ slots) :
    m'.holds (r, d, k) = m.holds (r, d, k) := by
  unfold Memory.holds
  rw [h.word hr hk]

theorem SameTables.uses (h : SameTables m m' R) : m'.uses R K = m.uses R K := by
  funext f
  have hrefs : refs m'.holds (R ×ˢ slots) f = refs m.holds (R ×ˢ slots) f := by
    refine refs_congr ?_
    rintro ⟨r, d, k⟩
    refine and_congr_right fun hx => ?_
    obtain ⟨hr, hk⟩ := mem_product.mp hx
    rw [h.holds hr hk]
  unfold Memory.uses
  rw [hrefs]

/-- Frames that are not tables may be written to. -/
theorem Accounted.sameTables (h : Accounted m res R K) (hs : SameTables m m' R)
    (hp : m'.pmm = m.pmm) : Accounted m' res R K where
  follows := by
    rw [hp, hs.uses]
    exact h.follows
  small := by
    rw [hp]
    exact h.small
  range := by
    rw [hp, hs.uses]
    exact h.range
  table r hr d k t hk ht := by
    rw [hs.uses]
    rw [hs.tab hr hk] at ht
    exact h.table r hr d k t hk ht
  idle := by
    rw [hp, hs.uses]
    exact h.idle

/-- The number of failures is nobody's frame. -/
theorem Accounted.of_nulls (h : Accounted m res R K) (n : Nat) :
    Accounted { m with nulls := n } res R K :=
  ⟨h.follows, h.small, h.range, h.table, h.idle⟩

end

end Aeryk.Vm
