import Aeryk.Vm.Moves

/-!
# Mapping and unmapping a page

What `get_next_level`, `vmm_map_page`, `vmm_unmap_page`, `vmm_handle_cow_fault` and
`vmm_new_user_pagetable` do in accounted memory, for a page of the user half.  `vmm_map_page`
either stores the entry or, when the allocator is out of frames, leaves every leaf entry as it was,
and the frame that was to be mapped is still held by the kernel.

`Grown` is what all of them have in common: tables are added and never taken away, and a frame in
use that is not a table keeps its contents.
-/

namespace Aeryk.Vm

open Finset Function Lib Mem Mem.Pmm Memory

/-- The page number in a virtual address of 48 bits. -/
def pageOf (va : Nat) : Nat := va / pageSize % 2 ^ 36

section

variable {m m' m'' : Memory} {res : Nat → Bool} {R : Finset Nat} {K K' K'' : Nat → Nat}
  {r r' d k t f v va phys : Nat} {w flags : Word}

theorem index_pageOf (va : Nat) :
    index 0 va = pageOf va % 512 ∧ index 1 va = pageOf va / 512 % 512 ∧
      index 2 va = pageOf va / 512 / 512 % 512 ∧
        index 3 va = pageOf va / 512 / 512 / 512 % 512 := by
  unfold index pageOf pageSize
  omega

theorem page_slots (hv : v < userPages) :
    (3, v) ∈ slots ∧ (2, v / 512) ∈ slots ∧ (1, v / 512 / 512) ∈ slots ∧
      (0, v / 512 / 512 / 512) ∈ slots := by
  have hv' : v < 256 * 512 ^ 3 := hv
  simp only [mem_slots]
  omega

/-! ## What is kept -/

/-- The contents of the frame are not the page allocator's and not a table's. -/
def Kept (m : Memory) (res : Nat → Bool) (R : Finset Nat) (K : Nat → Nat) (f : Nat) : Prop :=
  ¬IsTable m R f ∧ (0 < m.uses R K f ∨ res f = true ∨ m.pmm.pages ≤ f)

/-- Tables are added, and nothing else changes but entries of tables. -/
structure Grown (res : Nat → Bool) (R : Finset Nat) (m : Memory) (K : Nat → Nat) (m' : Memory)
    (K' : Nat → Nat) : Prop where
  tab : ∀ r ∈ R, ∀ d k t, TableKey d k → m.tab r d k = some t → m'.tab r d k = some t
  page : ∀ f, Kept m res R K f → m'.words f = m.words f ∧ Kept m' res R K' f
  high : ∀ r ∈ R, ∀ i, 256 ≤ i → m'.words r i = m.words r i
  pages : m'.pmm.pages = m.pmm.pages
  reserved : ∀ f < m.pmm.pages, res f = true → m'.pmm.refcount f = m.pmm.refcount f

theorem Grown.refl : Grown res R m K m K :=
  ⟨fun _ _ _ _ _ _ h => h, fun _ h => ⟨rfl, h⟩, fun _ _ _ _ => rfl, rfl, fun _ _ _ => rfl⟩

theorem Grown.trans (h : Grown res R m K m' K') (h' : Grown res R m' K' m'' K'') :
    Grown res R m K m'' K'' where
  tab r hr d k t hk ht := h'.tab r hr d k t hk (h.tab r hr d k t hk ht)
  page f hf := by
    obtain ⟨hw, hf'⟩ := h.page f hf
    obtain ⟨hw', hf''⟩ := h'.page f hf'
    exact ⟨hw'.trans hw, hf''⟩
  high r hr i hi := (h'.high r hr i hi).trans (h.high r hr i hi)
  pages := h'.pages.trans h.pages
  reserved f hf hres := (h'.reserved f (h.pages ▸ hf) hres).trans (h.reserved f hf hres)

/-- A frame that is free is not kept. -/
theorem Kept.ne_of_free (h : Kept m res R K t) (hu : m.uses R K f = 0) (hp : f < m.pmm.pages)
    (hres : res f = false) : t ≠ f := by
  rintro rfl
  rcases h.2 with hpos | hr | hle
  · omega
  · rw [hres] at hr
    cases hr
  · omega

theorem setPage_same (m : Memory) (f : Nat) (ws : Nat → Word) : (m.setPage f ws).words f = ws :=
  update_self ..

theorem pages_pmmAllocPage (p : Pmm) : p.pmmAllocPage.1.pages = p.pages := by
  unfold Pmm.pmmAllocPage
  split
  · rfl
  · split <;> rfl

/-- `pmm_alloc_page` leaves the counts of allocated frames alone. -/
theorem Accounted.refcount_alloc (h : Accounted m res R K)
    (hheld : res f = true ∨ 0 < m.uses R K f) :
    m.alloc.1.pmm.refcount f = m.pmm.refcount f := by
  show m.pmm.pmmAllocPage.1.refcount f = m.pmm.refcount f
  rcases h.follows.allocPage_eq with ⟨i, hi, heq, hfree, -⟩ | ⟨heq, -⟩
  · rw [heq]
    refine refcount_take_ne h.follows.covers hi ?_
    rintro rfl
    rcases hheld with hr | hpos
    · exact Bool.false_ne_true (hfree.1.symm.trans hr)
    · exact absurd hfree.2 (Nat.ne_of_gt hpos)
  · rw [heq]

/-- An allocated frame is filled. -/
theorem grown_alloc_setPage (h₀ : Accounted m res R K) (hu : m.uses R K f = 0)
    (hf : f < m.pmm.pages ∧ res f = false)
    (h : Accounted m.alloc.1 res R (K + Pi.single f 1)) (ws : Nat → Word) :
    SameTables m (m.alloc.1.setPage f ws) R ∧
      Grown res R m K (m.alloc.1.setPage f ws) (K + Pi.single f 1) := by
  have hK : 0 < (K + Pi.single f 1 : Nat → Nat) f := by
    rw [Pi.add_apply, Pi.single_eq_same]
    omega
  have hnt : ¬IsTable m R f := h.not_table_of_kernel hK
  have hsame : SameTables m (m.alloc.1.setPage f ws) R := by
    intro t ht
    refine update_of_ne ?_ ..
    rintro rfl
    exact hnt ht
  refine ⟨hsame, ?_, ?_, ?_, ?_, fun g _ hres => h₀.refcount_alloc (.inl hres)⟩
  · intro r hr d k t hk ht
    rw [hsame.tab hr hk]
    exact ht
  · intro g hg
    have hne := hg.ne_of_free hu hf.1 hf.2
    refine ⟨update_of_ne hne .., ?_, ?_⟩
    · rintro ⟨r, hr, d, k, hk, ht⟩
      rw [hsame.tab hr hk] at ht
      exact hg.1 ⟨r, hr, d, k, hk, ht⟩
    · rcases hg.2 with hpos | hr | hle
      · refine .inl ?_
        rw [uses_single, hsame.uses]
        omega
      · exact .inr (.inl hr)
      · refine .inr (.inr ?_)
        exact (pages_pmmAllocPage m.pmm).symm ▸ hle
  · intro r hr i _
    have hrf : r ≠ f := by
      rintro rfl
      exact hnt (isTable_root hr)
    exact congrFun (update_of_ne hrf ..) i
  · exact pages_pmmAllocPage m.pmm

/-- The root of the user half of a table that is stored to. -/
theorem Accounted.high_set (h : Accounted m res R K) (hr : r ∈ R) (hk : (d, k) ∈ slots)
    (ht : m.tab r d (k / 512) = some t) (hr' : r' ∈ R) {i : Nat} (hi : 256 ≤ i) :
    (m.set t (k % 512) w).words r' i = m.words r' i := by
  refine Radix.store_other ?_
  rintro ⟨rfl, rfl⟩
  -- a root is at depth 0, where the keys of the user half are below 256
  obtain ⟨-, rfl, -⟩ := h.unique hr hr' (tableKey_of_slot hk) (tableKey_zero.mpr rfl) ht rfl
  rw [mem_slots] at hk
  omega

/-! ## `get_next_level` -/

theorem child_tableEntry (hf : f < 2 ^ 40) :
    child (entry (f * pageSize) tableFlags) = some f := by
  rw [child_eq_some, frameOf_entry hf (by decide), isSet_entry hf (by decide)]
  exact ⟨by decide, rfl⟩

/-- `get_next_level` at the word `(d, k)` answers with table `u`, which was there or is new. -/
structure Leads (res : Nat → Bool) (R : Finset Nat) (K : Nat → Nat) (m m' : Memory)
    (r d k u : Nat) : Prop where
  tab : ∀ r' ∈ R, ∀ d' k', TableKey d' k' →
    m'.tab r' d' k' = if r' = r ∧ d' = d + 1 ∧ k' = k then some u else m.tab r' d' k'
  uses : m'.uses R K = m.uses R (K + if m.tab r (d + 1) k = none then Pi.single u 1 else 0)
  fresh : m.tab r (d + 1) k = none → m.uses R K u = 0 ∧ u < m.pmm.pages ∧ res u = false
  leaf : ∀ r' ∈ R, ∀ v < userPages, m'.leaf r' v = m.leaf r' v
  nulls : m'.nulls = m.nulls
  accounted : Accounted m' res R K
  grown : Grown res R m K m' K

/-- A frame is allocated, cleared and made a table. -/
theorem Accounted.newTable (h : Accounted m res R K) (hr : r ∈ R) (hk : (d, k) ∈ slots)
    (hd : d < 3) (ht : m.tab r d (k / 512) = some t) (hnone : m.tab r (d + 1) k = none)
    (hu : m.uses R K f = 0) (hf : f < m.pmm.pages ∧ res f = false)
    (hnulls : m.alloc.1.nulls = m.nulls)
    (hacc : Accounted m.alloc.1 res R (K + Pi.single f 1)) :
    Leads res R K m ((m.alloc.1.setPage f fun _ => 0#64).set t (k % 512)
      (entry (f * pageSize) tableFlags)) r d k f := by
  obtain ⟨hsame, hgrown⟩ := grown_alloc_setPage h hu hf hacc fun _ => 0#64
  have hzero : ∀ i, (m.alloc.1.setPage f fun _ => 0#64).words f i = 0#64 := by
    intro i
    rw [setPage_same]
  have h₁ : Accounted (m.alloc.1.setPage f fun _ => 0#64) res R (K + Pi.single f 1) :=
    hacc.sameTables hsame rfl
  have hnulls₁ : (m.alloc.1.setPage f fun _ => 0#64).nulls = m.nulls := hnulls
  generalize (m.alloc.1.setPage f fun _ => 0#64) = m₁ at hsame hgrown hzero h₁ hnulls₁
  have ht₁ : m₁.tab r d (k / 512) = some t := (hsame.tab hr (tableKey_of_slot hk)).trans ht
  have hnone₁ : m₁.tab r (d + 1) k = none := (hsame.tab hr (tableKey_succ hk hd)).trans hnone
  have hone : m₁.uses R (K + Pi.single f 1) f = 1 := by
    rw [uses_single, hsame.uses, hu, if_pos rfl]
  have hw := child_tableEntry (Nat.lt_of_lt_of_le hf.1 h.small)
  have htab : ∀ r' ∈ R, ∀ d' k', TableKey d' k' →
      (m₁.set t (k % 512) (entry (f * pageSize) tableFlags)).tab r' d' k' =
        if r' = r ∧ d' = d + 1 ∧ k' = k then some f else m.tab r' d' k' := by
    intro r' hr' d' k' hk'
    rw [h₁.tab_addTable hr hk ht₁ hnone₁ hw hzero hr' hk', hsame.tab hr' hk']
  have huses := h₁.uses_addTable hr hk hd ht₁ hnone₁ hw hzero
  refine ⟨htab, ?_, fun _ => ⟨hu, hf⟩, ?_, hnulls₁,
    h₁.addTable hr hk hd ht₁ hnone₁ hw hzero hone,
    ⟨?_, ?_, ?_, hgrown.pages, hgrown.reserved⟩⟩
  · rw [huses, hsame.uses, if_pos hnone]
  · intro r' hr' v hv
    rw [h₁.leaf_addTable hr hk hd ht₁ hnone₁ hw hzero hr' hv, hsame.leaf hr' hv]
  · intro r' hr' d' k' u hk' hu'
    rw [htab r' hr' d' k' hk', if_neg]
    · exact hu'
    · rintro ⟨rfl, rfl, rfl⟩
      rw [hnone] at hu'
      cases hu'
  · intro g hg
    have hgt : g ≠ t := by
      rintro rfl
      exact hg.1 ⟨r, hr, d, k / 512, tableKey_of_slot hk, ht⟩
    refine ⟨(Radix.store_table hgt).trans (hgrown.page g hg).1, ?_, ?_⟩
    · rintro ⟨r', hr', d', k', hk', hu'⟩
      rw [htab r' hr' d' k' hk'] at hu'
      split at hu'
      · exact hg.ne_of_free hu hf.1 hf.2 (Option.some.inj hu').symm
      · exact hg.1 ⟨r', hr', d', k', hk', hu'⟩
    · rw [huses]
      exact (hgrown.page g hg).2.2
  · intro r' hr' i hi
    exact (h₁.high_set hr hk ht₁ hr' hi).trans (hgrown.high r' hr' i hi)

/-- `get_next_level` leads to the next table, or the allocator has no frame left. -/
theorem Accounted.getNextLevel (h : Accounted m res R K) (hr : r ∈ R) (hk : (d, k) ∈ slots)
    (hd : d < 3) (ht : m.tab r d (k / 512) = some t) :
    (∃ m' u, m.getNextLevel t (k % 512) = (m', some u) ∧ Leads res R K m m' r d k u) ∨
      (m.getNextLevel t (k % 512) = ({ m with nulls := m.nulls + 1 }, none) ∧
        m.tab r (d + 1) k = none ∧ ∀ f < m.pmm.pages, res f = false → 0 < m.uses R K f) := by
  have hword := word_of_tab ht
  unfold Memory.getNextLevel
  cases hp : isSet (m.words t (k % 512)) ptePresent with
  | true =>
    have hnext : m.tab r (d + 1) k = some (frameOf (m.words t (k % 512))) := by
      rw [tab_succ, hword]
      exact child_eq_some.mpr ⟨hp, rfl⟩
    refine .inl ⟨m, _, rfl, ?_, ?_, ?_, fun _ _ _ _ => rfl, rfl, h, Grown.refl⟩
    · intro r' _ d' k' _
      split
      next heq =>
        obtain ⟨rfl, rfl, rfl⟩ := heq
        exact hnext
      · rfl
    · rw [if_neg (by rw [hnext]; exact nofun), add_zero]
    · intro hnone
      rw [hnext] at hnone
      cases hnone
  | false =>
    have hnone : m.tab r (d + 1) k = none := by
      rw [tab_succ, hword]
      exact child_eq_none.mpr hp
    rw [if_neg Bool.false_ne_true]
    rcases h.alloc with ⟨f, hpos, hphys, hnulls, hu, hf, hacc⟩ | ⟨hphys, hfail, hfull⟩
    · have hne : f * pageSize ≠ 0 := Nat.ne_of_gt (Nat.mul_pos hpos (by decide))
      unfold Memory.clearPage
      rw [hphys, if_neg hne, mul_pageSize_div]
      exact .inl ⟨_, f, rfl, h.newTable hr hk hd ht hnone hu hf hnulls hacc⟩
    · rw [if_pos hphys, hfail]
      exact .inr ⟨rfl, hnone, hfull⟩

theorem Leads.self (h : Leads res R K m m' r d k t) (hr : r ∈ R) (hk : TableKey (d + 1) k) :
    m'.tab r (d + 1) k = some t := by
  rw [h.tab r hr (d + 1) k hk, if_pos ⟨rfl, rfl, rfl⟩]

/-! ## Room for tables -/

/-- The words of the user half that lead to a table. -/
def tables (m : Memory) (r : Nat) : Finset (Nat × Nat) :=
  slots.filter fun x => x.1 < 3 ∧ (m.tab r (x.1 + 1) x.2).isSome

def freeFrames (m : Memory) (res : Nat → Bool) (R : Finset Nat) (K : Nat → Nat) : Finset Nat :=
  (range m.pmm.pages).filter fun f => res f = false ∧ m.uses R K f = 0

def wayTo (v : Nat) : Finset (Nat × Nat) :=
  {(0, v / 512 / 512 / 512), (1, v / 512 / 512), (2, v / 512)}

theorem wayTo_congr {u v : Nat} (h : u / 512 = v / 512) : wayTo u = wayTo v := by
  unfold wayTo
  rw [h]

theorem mem_tables : (d, k) ∈ tables m r ↔ (d, k) ∈ slots ∧ d < 3 ∧ (m.tab r (d + 1) k).isSome := by
  unfold tables
  rw [mem_filter]

theorem Leads.tables (h : Leads res R K m m' r d k t) (hr : r ∈ R) (hk : (d, k) ∈ slots)
    (hd : d < 3) (hr' : r' ∈ R) :
    tables m' r' = if r' = r then insert (d, k) (tables m r') else tables m r' := by
  ext ⟨e, j⟩
  have hmem : (e, j) ∈ Vm.tables m' r' ↔
      (e, j) ∈ Vm.tables m r' ∨ (r' = r ∧ e = d ∧ j = k) := by
    rw [mem_tables, mem_tables]
    constructor
    · rintro ⟨hj, he, hsome⟩
      rw [h.tab r' hr' (e + 1) j (tableKey_succ hj he)] at hsome
      split at hsome
      next heq => exact .inr ⟨heq.1, Nat.succ.inj heq.2.1, heq.2.2⟩
      · exact .inl ⟨hj, he, hsome⟩
    · rintro (⟨hj, he, hsome⟩ | ⟨rfl, rfl, rfl⟩)
      · refine ⟨hj, he, ?_⟩
        rw [h.tab r' hr' (e + 1) j (tableKey_succ hj he)]
        split
        · rfl
        · exact hsome
      · refine ⟨hk, hd, ?_⟩
        rw [h.self hr' (tableKey_succ hk hd)]
        rfl
  rw [hmem]
  split
  next heq =>
    rw [mem_insert, Prod.mk.injEq]
    constructor
    · rintro (hj | ⟨-, hj⟩)
      · exact .inr hj
      · exact .inl hj
    · rintro (hj | hj)
      · exact .inr ⟨heq, hj⟩
      · exact .inl hj
  next hne =>
    constructor
    · rintro (hj | ⟨heq, -⟩)
      · exact hj
      · exact absurd heq hne
    · exact .inl

/-- Every frame that is taken becomes a table. -/
theorem Leads.room (h : Leads res R K m m' r d k t) (hr : r ∈ R) (hk : (d, k) ∈ slots)
    (hd : d < 3) :
    (freeFrames m' res R K).card + (Vm.tables m' r).card =
      (freeFrames m res R K).card + (Vm.tables m r).card := by
  rw [h.tables hr hk hd hr, if_pos rfl]
  by_cases hnone : m.tab r (d + 1) k = none
  · obtain ⟨hu, hf⟩ := h.fresh hnone
    have hnew : (d, k) ∉ Vm.tables m r := by
      rw [mem_tables, hnone]
      rintro ⟨-, -, hsome⟩
      cases hsome
    have hfree : freeFrames m' res R K = (freeFrames m res R K).erase t := by
      ext g
      unfold freeFrames
      rw [h.uses, if_pos hnone, h.grown.pages]
      simp only [mem_erase, mem_filter, mem_range, uses_single]
      by_cases hg : g = t
      · simp [hg]
      · simp [hg]
    have hmem : t ∈ freeFrames m res R K := by
      unfold freeFrames
      rw [mem_filter, mem_range]
      exact ⟨hf.1, hf.2, hu⟩
    have hcard := card_erase_add_one hmem
    rw [hfree, card_insert_of_notMem hnew]
    omega
  · have hold : (d, k) ∈ Vm.tables m r := by
      rw [mem_tables]
      exact ⟨hk, hd, Option.isSome_iff_ne_none.mpr hnone⟩
    have huses : m'.uses R K = m.uses R K := by rw [h.uses, if_neg hnone, add_zero]
    rw [insert_eq_of_mem hold]
    unfold freeFrames
    rw [huses, h.grown.pages]

/-! ## `vmm_map_page` -/

/-- Tables are added on the way to page `v` of one address space. -/
structure Walked (res : Nat → Bool) (R : Finset Nat) (m : Memory) (K : Nat → Nat) (m' : Memory)
    (K' : Nat → Nat) (r v : Nat) : Prop where
  grown : Grown res R m K m' K'
  others : ∀ r' ∈ R, r' ≠ r → tables m' r' = tables m r'
  within : tables m' r ⊆ tables m r ∪ wayTo v
  room : (freeFrames m' res R K').card + (tables m' r).card =
    (freeFrames m res R K).card + (tables m r).card

theorem Walked.refl : Walked res R m K m K r v :=
  ⟨Grown.refl, fun _ _ _ => rfl, subset_union_left, rfl⟩

theorem Walked.trans (h : Walked res R m K m' K' r v) (h' : Walked res R m' K' m'' K'' r v) :
    Walked res R m K m'' K'' r v where
  grown := h.grown.trans h'.grown
  others r' hr' hne := (h'.others r' hr' hne).trans (h.others r' hr' hne)
  within := by
    refine h'.within.trans (union_subset h.within ?_)
    exact subset_union_right
  room := h'.room.trans h.room

theorem Leads.walked (h : Leads res R K m m' r d k t) (hr : r ∈ R) (hk : (d, k) ∈ slots)
    (hd : d < 3) (hway : (d, k) ∈ wayTo v) : Walked res R m K m' K r v where
  grown := h.grown
  others r' hr' hne := by rw [h.tables hr hk hd hr', if_neg hne]
  within := by
    rw [h.tables hr hk hd hr, if_pos rfl]
    refine insert_subset (mem_union_right _ hway) ?_
    exact subset_union_left
  room := h.room hr hk hd

/-- The tables grow along a walk. -/
theorem Grown.tables (h : Grown res R m K m' K') (hr : r ∈ R) : tables m r ⊆ tables m' r := by
  rintro ⟨d, k⟩ hmem
  rw [mem_tables] at hmem ⊢
  obtain ⟨hk, hd, hsome⟩ := hmem
  obtain ⟨t, ht⟩ := Option.isSome_iff_exists.mp hsome
  rw [h.tab r hr (d + 1) k t (tableKey_succ hk hd) ht]
  exact ⟨hk, hd, rfl⟩

/-- A store to a leaf entry adds no table. -/
theorem Accounted.walked_setLeaf (h : Accounted m res R K) (hr : r ∈ R) (hv : v < userPages)
    (ht : m.tab r 3 (v / 512) = some t)
    (huses : (m.set t (v % 512) w).uses R K' = m.uses R K) :
    Walked res R m K (m.set t (v % 512) w) K' r v := by
  have hslot := leaf_mem_slots.mpr hv
  have htab : ∀ r' ∈ R, ∀ d k, TableKey d k →
      (m.set t (v % 512) w).tab r' d k = m.tab r' d k := fun r' hr' d k hk =>
    h.tab_setLeaf hr hv ht hr' hk
  have htables : ∀ r' ∈ R, tables (m.set t (v % 512) w) r' = tables m r' := by
    intro r' hr'
    ext ⟨d, k⟩
    rw [mem_tables, mem_tables]
    refine and_congr_right fun hk => and_congr_right fun hd => ?_
    rw [htab r' hr' (d + 1) k (tableKey_succ hk hd)]
  refine ⟨⟨?_, ?_, ?_, rfl, fun _ _ _ => rfl⟩, fun r' hr' _ => htables r' hr', ?_, ?_⟩
  · intro r' hr' d k u hk hu
    rw [htab r' hr' d k hk]
    exact hu
  · intro g hg
    have hgt : g ≠ t := by
      rintro rfl
      exact hg.1 ⟨r, hr, 3, v / 512, tableKey_of_slot hslot, ht⟩
    refine ⟨Radix.store_table hgt, ?_, ?_⟩
    · rintro ⟨r', hr', d, k, hk, hu⟩
      rw [htab r' hr' d k hk] at hu
      exact hg.1 ⟨r', hr', d, k, hk, hu⟩
    · rw [huses]
      exact hg.2
  · intro r' hr' i hi
    exact h.high_set hr hslot ht hr' hi
  · rw [htables r hr]
    exact subset_union_left
  · rw [htables r hr]
    unfold freeFrames
    rw [huses]
    rfl

/-- `vmm_map_page` has stored the entry. -/
structure Mapped (res : Nat → Bool) (R : Finset Nat) (K : Nat → Nat) (m m' : Memory)
    (r v : Nat) (w : Word) : Prop where
  walked : Walked res R m (K + one (owned w)) m' (K + one (owned (m.leaf r v))) r v
  way : wayTo v ⊆ tables m' r
  leaf : ∀ r' ∈ R, ∀ v' < userPages,
    m'.leaf r' v' = if r' = r ∧ v' = v then w else m.leaf r' v'
  nulls : m'.nulls = m.nulls
  accounted : Accounted m' res R (K + one (owned (m.leaf r v)))

/-- `vmm_map_page` has returned early, and the allocator has no frame left. -/
structure Dropped (res : Nat → Bool) (R : Finset Nat) (K : Nat → Nat) (m m' : Memory)
    (r v : Nat) : Prop where
  walked : Walked res R m K m' K r v
  way : ¬wayTo v ⊆ tables m' r
  leaf : ∀ r' ∈ R, ∀ v' < userPages, m'.leaf r' v' = m.leaf r' v'
  nulls : m'.nulls = m.nulls + 1
  accounted : Accounted m' res R K
  full : freeFrames m' res R K = ∅

theorem freeFrames_eq_empty (h : ∀ f < m.pmm.pages, res f = false → 0 < m.uses R K f) :
    freeFrames m res R K = ∅ := by
  unfold freeFrames
  rw [filter_eq_empty_iff]
  rintro f hf ⟨hres, hu⟩
  have := h f (mem_range.mp hf) hres
  omega

theorem SameTables.tables (h : SameTables m m' R) (hr : r ∈ R) : tables m' r = tables m r := by
  ext ⟨d, k⟩
  rw [mem_tables, mem_tables]
  refine and_congr_right fun hk => and_congr_right fun hd => ?_
  rw [h.tab hr (tableKey_succ hk hd)]

theorem mem_freeFrames :
    f ∈ freeFrames m res R K ↔ f < m.pmm.pages ∧ res f = false ∧ m.uses R K f = 0 := by
  unfold freeFrames
  rw [mem_filter, mem_range]

/-- The number of free frames, as the bitmap has it. -/
def Memory.freeCount (m : Memory) : Nat :=
  ((range m.pmm.pages).filter fun f => m.pmm.bitmapTest f = false).card

theorem Accounted.freeCount_eq (h : Accounted m res R K) :
    m.freeCount = (freeFrames m res R K).card := by
  unfold Memory.freeCount freeFrames
  congr 1
  refine filter_congr fun f hf => ?_
  exact h.follows.bit f (mem_range.mp hf)

/-- A frame that is free was free before. -/
theorem Grown.free (h : Grown res R m K m' K') (h' : Accounted m' res R K')
    (hf : f ∈ freeFrames m' res R K') : f ∈ freeFrames m res R K := by
  obtain ⟨hlt, hres, hu⟩ := mem_freeFrames.mp hf
  rw [h.pages] at hlt
  refine mem_freeFrames.mpr ⟨hlt, hres, ?_⟩
  by_contra hpos
  by_cases ht : IsTable m R f
  · obtain ⟨r, hr, d, k, hk, htab⟩ := ht
    have := h'.table r hr d k f hk (h.tab r hr d k f hk htab)
    omega
  · obtain ⟨-, -, hheld⟩ := h.page f ⟨ht, .inl (Nat.pos_of_ne_zero hpos)⟩
    rcases hheld with hpos' | hres' | hle
    · omega
    · exact Bool.false_ne_true (hres.symm.trans hres')
    · rw [h.pages] at hle
      omega

/-- `pmm_alloc_page` takes one of the free frames. -/
theorem Accounted.alloc_frame (h : Accounted m res R K) :
    (∃ f, 0 < f ∧ m.alloc.2 = f * pageSize ∧ m.alloc.1.nulls = m.nulls ∧
        f ∈ freeFrames m res R K ∧ Accounted m.alloc.1 res R (K + Pi.single f 1) ∧
        freeFrames m.alloc.1 res R (K + Pi.single f 1) = (freeFrames m res R K).erase f) ∨
      (m.alloc.2 = 0 ∧ m.alloc.1 = { m with nulls := m.nulls + 1 } ∧
        freeFrames m res R K = ∅) := by
  rcases h.alloc with ⟨f, hpos, hphys, hnulls, hu, hf, hacc⟩ | ⟨hphys, hfail, hfull⟩
  · refine .inl ⟨f, hpos, hphys, hnulls, mem_freeFrames.mpr ⟨hf.1, hf.2, hu⟩, hacc, ?_⟩
    ext g
    have hpages : m.alloc.1.pmm.pages = m.pmm.pages := pages_pmmAllocPage m.pmm
    have huses : m.alloc.1.uses R (K + Pi.single f 1) g =
        m.uses R K g + if g = f then 1 else 0 := uses_single
    rw [mem_erase, mem_freeFrames, mem_freeFrames, huses, hpages]
    by_cases hg : g = f
    · simp [hg]
    · simp [hg]
  · exact .inr ⟨hphys, hfail, freeFrames_eq_empty hfull⟩

/-- `get_next_level` has failed on the way. -/
theorem Dropped.of_full (hacc : Accounted m' res R K) (hwalk : Walked res R m K m' K r v)
    (hleaf : ∀ r' ∈ R, ∀ v' < userPages, m'.leaf r' v' = m.leaf r' v')
    (hnulls : m'.nulls = m.nulls) (hway : (d, k) ∈ wayTo v) (hnone : m'.tab r (d + 1) k = none)
    (hfull : ∀ f < m'.pmm.pages, res f = false → 0 < m'.uses R K f) :
    Dropped res R K m { m' with nulls := m'.nulls + 1 } r v where
  walked := ⟨⟨hwalk.grown.tab, hwalk.grown.page, hwalk.grown.high, hwalk.grown.pages,
    hwalk.grown.reserved⟩, hwalk.others, hwalk.within, hwalk.room⟩
  way hsub := by
    have hmem := hsub hway
    rw [mem_tables] at hmem
    have hsome : (m'.tab r (d + 1) k).isSome := hmem.2.2
    rw [hnone] at hsome
    cases hsome
  leaf := hleaf
  nulls := congrArg (· + 1) hnulls
  accounted := hacc.of_nulls _
  full := freeFrames_eq_empty (m := m') hfull

/-- A new table is held once, and nothing else is held more often. -/
theorem Leads.uses_le (h : Leads res R K m m' r d k t) (f : Nat) :
    m'.uses R K f ≤ max 1 (m.uses R K f) := by
  rw [h.uses]
  split
  next hnone =>
    have hfresh := (h.fresh hnone).1
    rw [uses_single]
    split
    next heq =>
      rw [heq]
      omega
    · omega
  · rw [add_zero]
    exact Nat.le_max_right _ _

/-- `vmm_map_page` on a page of the user half, and how often frames are held after it. -/
theorem Accounted.mapPage_uses (h : Accounted m res R (K + one (owned (entry phys flags))))
    (hr : r ∈ R) (hv : pageOf va < userPages) :
    (Mapped res R K m (m.mapPage r va phys flags) r (pageOf va) (entry phys flags) ∧
        ∀ f, (m.mapPage r va phys flags).uses R (K + one (owned (m.leaf r (pageOf va)))) f ≤
          max 1 (m.uses R (K + one (owned (entry phys flags))) f)) ∨
      (Dropped res R (K + one (owned (entry phys flags))) m (m.mapPage r va phys flags) r
          (pageOf va) ∧
        ∀ f, (m.mapPage r va phys flags).uses R (K + one (owned (entry phys flags))) f ≤
          max 1 (m.uses R (K + one (owned (entry phys flags))) f)) := by
  obtain ⟨hi₀, hi₁, hi₂, hi₃⟩ := index_pageOf va
  obtain ⟨hs₃, hs₂, hs₁, hs₀⟩ := page_slots hv
  have hw₀ : (0, pageOf va / 512 / 512 / 512) ∈ wayTo (pageOf va) := by simp [wayTo]
  have hw₁ : (1, pageOf va / 512 / 512) ∈ wayTo (pageOf va) := by simp [wayTo]
  have hw₂ : (2, pageOf va / 512) ∈ wayTo (pageOf va) := by simp [wayTo]
  unfold Memory.mapPage
  rw [hi₀, hi₁, hi₂, hi₃]
  generalize pageOf va = v at *
  rcases h.getNextLevel hr hs₀ (by decide) rfl with ⟨m₁, pdpt, he₁, l₁⟩ | ⟨he, hnone, hfull⟩
  · rw [he₁]
    dsimp only
    have hwalk₁ := l₁.walked hr hs₀ (by decide) hw₀
    have ht₁ := l₁.self hr (tableKey_succ hs₀ (by decide))
    rcases l₁.accounted.getNextLevel hr hs₁ (by decide) ht₁ with
      ⟨m₂, pd, he₂, l₂⟩ | ⟨he, hnone, hfull⟩
    · rw [he₂]
      dsimp only
      have hwalk₂ := hwalk₁.trans (l₂.walked hr hs₁ (by decide) hw₁)
      have ht₂ := l₂.self hr (tableKey_succ hs₁ (by decide))
      have hleaf₂ : ∀ r' ∈ R, ∀ v' < userPages, m₂.leaf r' v' = m.leaf r' v' := by
        intro r' hr' v' hv'
        rw [l₂.leaf r' hr' v' hv', l₁.leaf r' hr' v' hv']
      rcases l₂.accounted.getNextLevel hr hs₂ (by decide) ht₂ with
        ⟨m₃, pt, he₃, l₃⟩ | ⟨he, hnone, hfull⟩
      · rw [he₃]
        dsimp only
        have hwalk₃ := hwalk₂.trans (l₃.walked hr hs₂ (by decide) hw₂)
        have ht₃ := l₃.self hr (tableKey_succ hs₂ (by decide))
        have hleaf₃ : ∀ r' ∈ R, ∀ v' < userPages, m₃.leaf r' v' = m.leaf r' v' := by
          intro r' hr' v' hv'
          rw [l₃.leaf r' hr' v' hv', hleaf₂ r' hr' v' hv']
        have hold := hleaf₃ r hr v hv
        have hlast := l₃.accounted.walked_setLeaf hr hv ht₃
          (l₃.accounted.uses_setLeaf hr hv ht₃ K)
        rw [hold] at hlast
        have huses := l₃.accounted.uses_setLeaf (w := entry phys flags) hr hv ht₃ K
        rw [hold] at huses
        refine .inl ⟨⟨hwalk₃.trans hlast, ?_, ?_, ?_, ?_⟩, fun f => ?_⟩
        · -- each of the three calls has left its table behind
          refine Finset.Subset.trans ?_ (hlast.grown.tables hr)
          have h₃ := l₃.tables hr hs₂ (by decide) hr
          have h₂ := l₂.tables hr hs₁ (by decide) hr
          have h₁ := l₁.tables hr hs₀ (by decide) hr
          rw [if_pos rfl] at h₁ h₂ h₃
          rw [h₃, h₂, h₁]
          intro x hx
          simp only [wayTo, mem_insert, mem_singleton] at hx ⊢
          rcases hx with hx | hx | hx
          · exact .inr (.inr (.inl hx))
          · exact .inr (.inl hx)
          · exact .inl hx
        · intro r' hr' v' hv'
          rw [l₃.accounted.leaf_setLeaf hr hv ht₃ hr' hv', hleaf₃ r' hr' v' hv']
        · exact l₃.nulls.trans (l₂.nulls.trans l₁.nulls)
        · rw [← hold]
          exact l₃.accounted.setLeaf hr hv ht₃
        · rw [huses]
          have h₃ := l₃.uses_le f
          have h₂ := l₂.uses_le f
          have h₁ := l₁.uses_le f
          omega
      · rw [he]
        exact .inr ⟨Dropped.of_full l₂.accounted hwalk₂ hleaf₂ (l₂.nulls.trans l₁.nulls) hw₂
          hnone hfull, fun f =>
            (l₂.uses_le f).trans (Nat.max_le.mpr ⟨Nat.le_max_left _ _, l₁.uses_le f⟩)⟩
    · rw [he]
      exact .inr ⟨Dropped.of_full l₁.accounted hwalk₁ l₁.leaf l₁.nulls hw₁ hnone hfull,
        l₁.uses_le⟩
  · rw [he]
    exact .inr ⟨Dropped.of_full h Walked.refl (fun _ _ _ _ => rfl) rfl hw₀ hnone hfull,
      fun f => Nat.le_max_right _ _⟩

/-- `vmm_map_page` on a page of the user half. -/
theorem Accounted.mapPage (h : Accounted m res R (K + one (owned (entry phys flags)))) (hr : r ∈ R)
    (hv : pageOf va < userPages) :
    Mapped res R K m (m.mapPage r va phys flags) r (pageOf va) (entry phys flags) ∨
      Dropped res R (K + one (owned (entry phys flags))) m (m.mapPage r va phys flags) r
        (pageOf va) :=
  (h.mapPage_uses hr hv).imp And.left And.left

end

end Aeryk.Vm
