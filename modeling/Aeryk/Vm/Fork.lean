import Aeryk.Proc.Lifecycle
import Aeryk.Vm.Clone

/-!
# The memory side of `clone_process`

Without `CLONE_VM`, `clone_process` copies the page table of the parent, takes a `process_t` from
the slab allocator and a page for the kernel stack, and takes back what it has done where one of
them is missing.  Here is what becomes of the page frames.

`vmm_map_page` does not tell whether it has mapped the page.  So the copy can come back with pages
missing, whose reference counts were raised.  That only happens once the allocator is empty, and
then there is no page for the stack either: the copy is destroyed and `clone_process` answers
`NULL`, but what the missing pages were charged is never taken back.
-/

namespace Aeryk.Vm

open Finset Lib Mem Mem.Pmm Memory

namespace Memory

/-- The page `kmalloc` takes where no slab has room. -/
def kmallocPage (m : Memory) (room : Bool) : Memory × Option (Option Nat) :=
  if room then (m, some none)
  else if m.alloc.2 = 0 then (m.alloc.1, none)
  else (m.alloc.1, some (some m.alloc.2))

/-- `kfree` of the chunk `kmalloc` has just answered with: the page goes back if it was taken
for the chunk. -/
def kfreePage (m : Memory) : Option Nat → Memory
  | none => m
  | some phys => m.free phys

/-- The calls of `clone_process` without `CLONE_VM` that take and give back page frames, and their
answers.  `room` says whether a slab has room for the `process_t`, at `child`. -/
def cloneCalls (m : Memory) (src : Nat) (room : Bool) (child : Nat) : Memory × Kernel.CloneAnswer :=
  match m.cloneUserPagetable src with
  | (m, none) => (m, ⟨none, none, none, none⟩)
  | (m, some dst) =>
    match m.kmallocPage room with
    | (m, none) => (m.destroyUserPagetable dst, ⟨none, some (dst * pageSize), none, none⟩)
    | (m, some slab) =>
      if m.alloc.2 = 0 then
        ((m.alloc.1.kfreePage slab).destroyUserPagetable dst,
          ⟨none, some (dst * pageSize), some child, none⟩)
      else (m.alloc.1, ⟨none, some (dst * pageSize), some child, some m.alloc.2⟩)

/-- The page that the `process_t` of the child has been given, if a page was taken for it. -/
def cloneSlab (m : Memory) (src : Nat) (room : Bool) : Option Nat :=
  match m.cloneUserPagetable src with
  | (_, none) => none
  | (m, some _) => (m.kmallocPage room).2.join.map (· / pageSize)

end Memory

section

variable {m m' m₁ : Memory} {res : Nat → Bool} {R : Finset Nat} {K : Nat → Nat}
  {r r' dst d k t f v : Nat} {w : Word}

/-! ## The copy of the page table -/

/-- The outcome of `vmm_clone_user_pagetable` where it answers with a root. -/
structure Cloned (res : Nat → Bool) (R : Finset Nat) (K : Nat → Nat) (m m' : Memory)
    (r dst : Nat) : Prop where
  fresh : dst ∉ R
  accounted : Accounted m' res (insert dst R)
    (K + lostRefs m r (lost m' dst (presentPages m r)))
  tab : ∀ r' ∈ R, ∀ d k, TableKey d k → m'.tab r' d k = m.tab r' d k
  leaf : ∀ r' ∈ R, ∀ v < userPages, m'.leaf r' v =
    if r' = r ∧ v ∈ presentPages m r then forked (m.leaf r v) else m.leaf r' v
  child : ∀ v < userPages, m'.leaf dst v =
    if v ∈ presentPages m r \ lost m' dst (presentPages m r) then forked (m.leaf r v) else 0#64
  page : ∀ f, Kept m res R K f → m'.words f = m.words f
  reserved : ∀ f < m.pmm.pages, res f = true → m'.pmm.refcount f = m.pmm.refcount f
  pages : m'.pmm.pages = m.pmm.pages
  within : (tables m' dst).card ≤ ((presentPages m r).biUnion wayTo).card
  full : ∀ v ∈ lost m' dst (presentPages m r),
    freeFrames m' res (insert dst R) (K + lostRefs m r (lost m' dst (presentPages m r))) = ∅ ∧
      tables m' dst ⊆ ((presentPages m r).filter (· ≤ v)).biUnion wayTo
  room : (freeFrames m' res (insert dst R)
      (K + lostRefs m r (lost m' dst (presentPages m r)))).card + (tables m' dst).card + 1 =
    (freeFrames m res R K).card

theorem NewRoot.leaf (h : NewRoot res R K m m' f) (hr : r ∈ R) (hv : v < userPages) :
    m'.leaf r v = m.leaf r v :=
  h.same.leaf hr hv

theorem NewRoot.presentPages (h : NewRoot res R K m m' f) (hr : r ∈ R) :
    presentPages m' r = presentPages m r := by
  ext v
  rw [mem_presentPages, mem_presentPages]
  exact and_congr_right fun hv => by rw [h.leaf hr hv]

theorem NewRoot.lostRefs (h : NewRoot res R K m m' f) (hr : r ∈ R) {pages : Finset Nat}
    (hpages : ∀ v ∈ pages, v < userPages) : lostRefs m' r pages = lostRefs m r pages := by
  funext g
  refine sum_congr rfl fun v hv => ?_
  rw [h.leaf hr (hpages v hv)]

/-- A frame that is kept is not touched by making a root. -/
theorem NewRoot.kept (h : NewRoot res R K m m' f) {g : Nat} (hg : Kept m res R K g) :
    m'.words g = m.words g ∧ Kept m' res (insert f R) K g := by
  have hne := hg.ne_of_free h.unused.1 h.unused.2.1 h.unused.2.2
  refine ⟨h.page g hne, ?_, ?_⟩
  · rintro ⟨r, hr, d, k, hk, ht⟩
    rcases mem_insert.mp hr with rfl | hr
    · cases d with
      | zero => exact hne (Option.some.inj ht).symm
      | succ d =>
        rw [h.empty.tab hk] at ht
        cases ht
    · rw [h.same.tab hr hk] at ht
      exact hg.1 ⟨r, hr, d, k, hk, ht⟩
  · rw [h.uses, uses_single, h.pages]
    rcases hg.2 with hpos | hres | hle
    · exact .inl (by omega)
    · exact .inr (.inl hres)
    · exact .inr (.inr hle)

theorem Accounted.cloneUserPagetable (h : Accounted m res R K) (hr : r ∈ R) :
    (∃ m' dst, m.cloneUserPagetable r = (m', some dst) ∧ Cloned res R K m m' r dst) ∨
      (m.cloneUserPagetable r = ({ m with nulls := m.nulls + 1 }, none) ∧
        freeFrames m res R K = ∅) := by
  unfold Memory.cloneUserPagetable
  rcases h.newUserPagetable with ⟨m₁, dst, heq, hnew⟩ | ⟨heq, hfull⟩
  · rw [heq]
    refine .inl ⟨_, dst, rfl, ?_⟩
    have hne : ∀ r' ∈ R, r' ≠ dst := by
      rintro r' hr' rfl
      exact hnew.fresh hr'
    have hc := hnew.accounted.cloneTable (mem_insert_of_mem hr)
      (mem_insert_self dst R) (hne r hr) hnew.empty
    generalize Memory.cloneTable dst 3 m₁ r 256 0 = m' at hc ⊢
    have hlost : ∀ v ∈ lost m' dst (presentPages m r), v < userPages := fun v hv =>
      (mem_presentPages.mp (mem_filter.mp hv).1).1
    obtain ⟨hacc, hgrown, htables, hleaf, hchild, hwithin, hfull, hroom⟩ := hc
    rw [hnew.presentPages hr] at hacc hgrown hleaf hchild hwithin hfull hroom
    rw [hnew.lostRefs hr hlost] at hacc hgrown hfull hroom
    have hmem : dst ∈ freeFrames m res R K :=
      mem_filter.mpr ⟨mem_range.mpr hnew.unused.2.1, hnew.unused.2.2, hnew.unused.1⟩
    rw [hnew.freeFrames] at hroom
    refine ⟨hnew.fresh, hacc, ?_, ?_, ?_, ?_, ?_, hgrown.pages.trans hnew.pages,
      card_le_card hwithin, hfull, ?_⟩
    · intro r' hr' d k hk
      have hr₁ := mem_insert_of_mem (b := dst) hr'
      rw [hgrown.tab_eq hr₁ (htables r' hr₁ (hne r' hr')) hk, hnew.same.tab hr' hk]
    · intro r' hr' v hv
      rw [hleaf r' (mem_insert_of_mem hr') (hne r' hr') v hv, hnew.leaf hr hv,
        hnew.leaf hr' hv]
    · intro v hv
      rw [hchild v hv, hnew.leaf hr hv]
    · intro f hf
      obtain ⟨hw, hf₁⟩ := hnew.kept hf
      exact (hgrown.page f hf₁).1.trans hw
    · intro f hf hres
      exact (hgrown.reserved f (hnew.pages ▸ hf) hres).trans (hnew.reserved f hf hres)
    · rw [hroom]
      exact card_erase_add_one hmem
  · rw [heq]
    exact .inr ⟨rfl, freeFrames_eq_empty hfull⟩

/-! ## Which pages are missing -/

/-- The words that lead to the tables of the present pages up to `v`. -/
def tablesUpTo (m : Memory) (r v : Nat) : Finset (Nat × Nat) :=
  ((presentPages m r).filter (· ≤ v)).biUnion wayTo

theorem mem_wayTo_last {u : Nat} (h : (2, k) ∈ wayTo u) : u / 512 = k := by
  simp only [wayTo, mem_insert, mem_singleton, Prod.mk.injEq] at h
  omega

/-- The copy is without a page if the allocator has run out on the way to it. -/
theorem Cloned.mem_lost (h : Cloned res R K m m' r dst) :
    v ∈ lost m' dst (presentPages m r) ↔
      v ∈ presentPages m r ∧ (freeFrames m res R K).card ≤ (tablesUpTo m r v).card := by
  have hroom := h.room
  constructor
  · intro hv
    obtain ⟨hpres, hway⟩ := mem_filter.mp hv
    obtain ⟨hfull, hsub⟩ := h.full v hv
    rw [hfull, card_empty] at hroom
    refine ⟨hpres, ?_⟩
    have hlt : tables m' dst ⊂ tablesUpTo m r v := by
      refine ⟨hsub, fun hsup => hway ((subset_biUnion_of_mem wayTo ?_).trans hsup)⟩
      exact mem_filter.mpr ⟨hpres, Nat.le_refl v⟩
    have := card_lt_card hlt
    omega
  · rintro ⟨hpres, hle⟩
    refine mem_filter.mpr ⟨hpres, fun hway => ?_⟩
    -- a page before `v` that is missing would have the page table of `v`
    have hall : tablesUpTo m r v ⊆ tables m' dst := by
      refine biUnion_subset.mpr fun u hu => ?_
      obtain ⟨hu, huv⟩ := mem_filter.mp hu
      by_contra hno
      obtain ⟨-, hsub⟩ := h.full u (mem_filter.mpr ⟨hu, hno⟩)
      have hlast : (2, v / 512) ∈ wayTo v := by simp [wayTo]
      obtain ⟨x, hx, hxv⟩ := mem_biUnion.mp (hsub (hway hlast))
      have hxu := (mem_filter.mp hx).2
      have hxeq := mem_wayTo_last hxv
      have huv' : u / 512 = v / 512 := by omega
      exact hno (wayTo_congr huv' ▸ hway)
    have := card_le_card hall
    omega

/-- Nothing is missing and the tables of the copy are those of the present pages. -/
theorem Cloned.room_of_whole (h : Cloned res R K m m' r dst)
    (hwhole : lost m' dst (presentPages m r) = ∅) :
    (freeFrames m' res (insert dst R) K).card + ((presentPages m r).biUnion wayTo).card + 1 =
      (freeFrames m res R K).card := by
  have hroom := h.room
  have hsub : (presentPages m r).biUnion wayTo ⊆ tables m' dst := by
    refine biUnion_subset.mpr fun u hu => ?_
    by_contra hno
    have hmem : u ∈ lost m' dst (presentPages m r) := mem_filter.mpr ⟨hu, hno⟩
    rw [hwhole] at hmem
    cases hmem
  have hle := card_le_card hsub
  have hge := h.within
  rw [hwhole, lostRefs_empty, add_zero] at hroom
  omega

/-! ## How many references there are -/

/-- The number of pages of an address space that are a frame of the allocator. -/
def shares (m : Memory) (r f : Nat) : Nat :=
  refs (fun v => owned (m.leaf r v)) (range userPages) f

/-- What an address space holds of a frame that is not a table. -/
theorem refs_root (hr : r ∈ R) (hf : ¬IsTable m R f) :
    refs m.holds ({r} ×ˢ slots) f = shares m r f := by
  unfold shares refs
  symm
  refine card_nbij (fun v => (r, 3, v)) ?_ ?_ ?_
  · intro v hv
    rw [mem_coe, mem_filter, mem_range] at hv
    rw [mem_coe, mem_filter, mem_product]
    exact ⟨⟨mem_singleton_self r, leaf_mem_slots.mpr hv.1⟩, holds_leaf.trans hv.2⟩
  · intro u _ v _ heq
    exact (Prod.mk.inj (Prod.mk.inj heq).2).2
  · rintro ⟨a, d, k⟩ hx
    rw [mem_coe, mem_filter, mem_product] at hx
    obtain ⟨⟨ha, hk⟩, hheld⟩ := hx
    obtain rfl : a = r := mem_singleton.mp ha
    by_cases hd : d = 3
    · subst hd
      refine ⟨k, ?_, rfl⟩
      rw [mem_coe, mem_filter, mem_range]
      exact ⟨leaf_mem_slots.mp hk, holds_leaf.symm.trans hheld⟩
    · have hd' : d < 3 := by
        have := (mem_slots.mp hk).1
        omega
      rw [holds_of_lt hd'] at hheld
      exact absurd ⟨a, hr, d + 1, k, tableKey_succ hk hd', hheld⟩ hf

/-- The holders of a frame do not depend on the flags of the entries. -/
theorem refs_trees (htab : ∀ r ∈ R, ∀ d k, TableKey d k → m'.tab r d k = m.tab r d k)
    (hleaf : ∀ r ∈ R, ∀ v < userPages, owned (m'.leaf r v) = owned (m.leaf r v)) :
    refs m'.holds (R ×ˢ slots) f = refs m.holds (R ×ˢ slots) f := by
  refine refs_congr ?_
  rintro ⟨r, d, k⟩
  refine and_congr_right fun hx => ?_
  obtain ⟨hr, hk⟩ := mem_product.mp hx
  by_cases hd : d = 3
  · subst hd
    rw [holds_leaf, holds_leaf, hleaf r hr k (leaf_mem_slots.mp hk)]
  · have hd' : d < 3 := by
      have := (mem_slots.mp hk).1
      omega
    rw [holds_of_lt hd', holds_of_lt hd', htab r hr _ _ (tableKey_succ hk hd')]

theorem uses_trees (htab : ∀ r ∈ R, ∀ d k, TableKey d k → m'.tab r d k = m.tab r d k)
    (hleaf : ∀ r ∈ R, ∀ v < userPages, owned (m'.leaf r v) = owned (m.leaf r v)) :
    m'.uses R K = m.uses R K := by
  funext f
  unfold Memory.uses
  rw [refs_trees htab hleaf]

theorem Cloned.owned_leaf (h : Cloned res R K m m' r dst) (hr' : r' ∈ R) (hv : v < userPages) :
    owned (m'.leaf r' v) = owned (m.leaf r' v) := by
  rw [h.leaf r' hr' v hv]
  split
  next hc => rw [owned_forked, hc.1]
  · rfl

theorem lostRefs_eq (m : Memory) (r : Nat) (pages : Finset Nat) (f : Nat) :
    lostRefs m r pages f = refs (fun v => owned (m.leaf r v)) pages f :=
  (card_filter _ _).symm

/-- Pages that are not the allocator's leave no references behind. -/
theorem lostRefs_eq_zero {pages : Finset Nat} (h : ∀ v ∈ pages, owned (m.leaf r v) = none) :
    lostRefs m r pages = 0 := by
  funext f
  rw [lostRefs_eq]
  refine refs_eq_zero.mpr fun v hv => ?_
  rw [h v hv]
  exact nofun

/-- The copy has a further reference to each page of the parent, or has lost it. -/
theorem Cloned.uses_page (h : Cloned res R K m m' r dst) (hf : ¬IsTable m' (insert dst R) f) :
    m'.uses (insert dst R) (K + lostRefs m r (lost m' dst (presentPages m r))) f =
      m.uses R K f + shares m r f := by
  have hdst : f ∉ insert dst R := fun hc => hf (isTable_root hc)
  have hR : f ∉ R := fun hc => hdst (mem_insert_of_mem hc)
  have hsplit : insert dst R ×ˢ slots = R ×ˢ slots ∪ {dst} ×ˢ slots := by
    rw [← union_product, union_comm, ← insert_eq]
  have hdisj : Disjoint (R ×ˢ slots) (({dst} : Finset Nat) ×ˢ slots) := by
    rw [disjoint_left]
    rintro ⟨a, x⟩ ha hb
    rw [mem_product] at ha hb
    exact h.fresh (mem_singleton.mp hb.1 ▸ ha.1)
  have hold : refs m'.holds (R ×ˢ slots) f = refs m.holds (R ×ˢ slots) f :=
    refs_trees h.tab fun r' hr' v hv => h.owned_leaf hr' hv
  have hnew : refs m'.holds ({dst} ×ˢ slots) f =
      refs (fun v => owned (m.leaf r v))
        (presentPages m r \ lost m' dst (presentPages m r)) f := by
    rw [refs_root (mem_insert_self dst R) hf]
    refine refs_congr fun v => ?_
    rw [mem_range]
    constructor
    · rintro ⟨hv, hheld⟩
      rw [h.child v hv] at hheld
      split at hheld
      next hc =>
        rw [owned_forked] at hheld
        exact ⟨hc, hheld⟩
      · rw [owned_zero] at hheld
        cases hheld
    · rintro ⟨hc, hheld⟩
      have hv := (mem_presentPages.mp (mem_sdiff.mp hc).1).1
      rw [h.child v hv, if_pos hc, owned_forked]
      exact ⟨hv, hheld⟩
  have hshares : shares m r f = refs (fun v => owned (m.leaf r v)) (presentPages m r) f := by
    refine refs_congr fun v => ?_
    rw [mem_presentPages, mem_range]
    constructor
    · rintro ⟨hv, hheld⟩
      exact ⟨⟨hv, (owned_eq_some.mp hheld).1.1⟩, hheld⟩
    · rintro ⟨⟨hv, -⟩, hheld⟩
      exact ⟨hv, hheld⟩
  have hsum : refs (fun v => owned (m.leaf r v)) (presentPages m r) f =
      refs (fun v => owned (m.leaf r v))
          (presentPages m r \ lost m' dst (presentPages m r)) f +
        refs (fun v => owned (m.leaf r v)) (lost m' dst (presentPages m r)) f := by
    rw [← refs_union _ sdiff_disjoint, sdiff_union_of_subset]
    exact filter_subset _ _
  unfold Memory.uses
  rw [if_neg hdst, if_neg hR, Pi.add_apply, lostRefs_eq, hsplit, refs_union _ hdisj, hold, hnew,
    hshares, hsum]
  omega

/-! ## The outcome -/

/-- The frames a copy needs: a root, the tables, a slab if none has room, and a kernel stack. -/
def framesNeeded (m : Memory) (r : Nat) (room : Bool) : Nat :=
  1 + ((presentPages m r).biUnion wayTo).card + (if room then 0 else 1) + 1

/-- The allocator and the number of failures may be other ones, as long as the accounts are
right. -/
theorem Cloned.of_pmm (h : Cloned res R K m m' r dst) {p : Pmm} {n : Nat}
    (hacc : Accounted { m' with pmm := p, nulls := n } res (insert dst R)
      (K + lostRefs m r (lost m' dst (presentPages m r))))
    (hres : ∀ f < m'.pmm.pages, res f = true → p.refcount f = m'.pmm.refcount f)
    (hpages : p.pages = m'.pmm.pages) :
    Cloned res R K m { m' with pmm := p, nulls := n } r dst := by
  have hfree : ∀ K', freeFrames { m' with pmm := p, nulls := n } res (insert dst R) K' =
      freeFrames m' res (insert dst R) K' := by
    intro K'
    ext f
    rw [mem_freeFrames, mem_freeFrames]
    exact and_congr_left fun _ => by rw [← hpages]
  have hlost : lost { m' with pmm := p, nulls := n } dst (presentPages m r) =
      lost m' dst (presentPages m r) := rfl
  refine ⟨h.fresh, hacc, h.tab, h.leaf, h.child, h.page, ?_, hpages.trans h.pages, h.within, ?_, ?_⟩
  · intro f hf hr
    exact (hres f (h.pages ▸ hf) hr).trans (h.reserved f hf hr)
  · rw [hlost, hfree]
    exact h.full
  · rw [hlost, hfree]
    exact h.room

theorem Accounted.kmallocPage (h : Accounted m res R K) (room : Bool) :
    (∃ p n slab, m.kmallocPage room = ({ m with pmm := p, nulls := n }, some slab) ∧
        p.pages = m.pmm.pages ∧
        (∀ f < m.pmm.pages, res f = true → p.refcount f = m.pmm.refcount f) ∧
        (∀ phys, slab = some phys → ∃ f ∈ freeFrames m res R K, phys = f * pageSize) ∧
        Accounted { m with pmm := p, nulls := n } res R (K + one (slab.map (· / pageSize))) ∧
        (freeFrames { m with pmm := p, nulls := n } res R
            (K + one (slab.map (· / pageSize)))).card + (if room then 0 else 1) =
          (freeFrames m res R K).card) ∨
      (room = false ∧ m.kmallocPage room = ({ m with nulls := m.nulls + 1 }, none) ∧
        freeFrames m res R K = ∅) := by
  unfold Memory.kmallocPage
  cases room with
  | true =>
    refine .inl ⟨m.pmm, m.nulls, none, rfl, rfl, fun _ _ _ => rfl,
      fun _ he => (by cases he), ?_, ?_⟩
    · rw [Option.map_none, one_none, add_zero]
      exact h
    · rw [Option.map_none, one_none, add_zero]
      rfl
  | false =>
    rw [if_neg Bool.false_ne_true]
    rcases h.alloc_frame with ⟨f, hpos, hphys, -, hf, hacc, hfree⟩ | ⟨hphys, hfail, hfull⟩
    · have hne : f * pageSize ≠ 0 := Nat.ne_of_gt (Nat.mul_pos hpos (by decide))
      refine .inl ⟨m.alloc.1.pmm, m.alloc.1.nulls, some (f * pageSize), ?_, ?_, ?_, ?_, ?_, ?_⟩
      · rw [hphys, if_neg hne]
        rfl
      · exact pages_pmmAllocPage m.pmm
      · exact fun g _ hres => h.refcount_alloc (.inl hres)
      · rintro _ ⟨⟩
        exact ⟨f, hf, rfl⟩
      · rw [Option.map_some, mul_pageSize_div, one_some]
        exact hacc
      · rw [Option.map_some, mul_pageSize_div, one_some]
        have hcard := congrArg card hfree
        rw [card_erase_of_mem hf] at hcard
        have hpos := card_pos.mpr ⟨f, hf⟩
        rw [if_neg Bool.false_ne_true]
        exact (congrArg (· + 1) hcard).trans (by omega)
    · rw [if_pos hphys, hfail]
      exact .inr ⟨rfl, rfl, hfull⟩

/-- `kfree` gives the page of the slab back. -/
theorem Accounted.kfreePage {slab : Option Nat}
    (h : Accounted m res R (K + one (slab.map (· / pageSize))))
    (hslab : ∀ phys, slab = some phys → ∃ f, phys = f * pageSize ∧ m.uses R K f = 0) :
    ∃ p, m.kfreePage slab = { m with pmm := p } ∧ p.pages = m.pmm.pages ∧
      (∀ f < m.pmm.pages, res f = true → p.refcount f = m.pmm.refcount f) ∧
      Accounted { m with pmm := p } res R K := by
  cases slab with
  | none =>
    rw [Option.map_none, one_none, add_zero] at h
    exact ⟨m.pmm, rfl, rfl, fun _ _ _ => rfl, h⟩
  | some phys =>
    obtain ⟨f, rfl, hu⟩ := hslab phys rfl
    rw [Option.map_some, mul_pageSize_div, one_some] at h
    refine ⟨m.pmm.pmmFreePage (f * pageSize), rfl, pages_pmmFreePage _ _, ?_, ?_⟩
    · intro g _ hres
      have hpos : 0 < m.uses R (K + Pi.single f 1) f := by
        rw [uses_single, if_pos rfl]
        omega
      obtain ⟨hp, hresf⟩ := h.range f hpos
      rw [refcount_pmmFreePage _ _ h.follows.covers (by rw [mul_pageSize_div]; exact hp),
        mul_pageSize_div, if_neg]
      rintro ⟨rfl, -⟩
      exact Bool.false_ne_true (hresf.symm.trans hres)
    · exact h.free (by omega)

/-- `clone_process` is refused at once, is taken back, or comes through. -/
theorem Accounted.cloneCalls (h : Accounted m res R K) (hr : r ∈ R) (room : Bool) (child : Nat) :
    (m.cloneCalls r room child = ({ m with nulls := m.nulls + 1 }, ⟨none, none, none, none⟩) ∧
        freeFrames m res R K = ∅) ∨
      (∃ m₁ dst, (m.cloneCalls r room child).1 = m₁.destroyUserPagetable dst ∧
        (m.cloneCalls r room child).2.stack = none ∧ Cloned res R K m m₁ r dst ∧
        (freeFrames m res R K).Nonempty ∧
        (freeFrames m res R K).card < framesNeeded m r room) ∨
      ∃ m₁ dst p n slab stack, m.cloneCalls r room child =
          ({ m₁ with pmm := p, nulls := n },
            ⟨none, some (dst * pageSize), some child, some (stack * pageSize)⟩) ∧
        Cloned res R K m m₁ r dst ∧ lost m₁ dst (presentPages m r) = ∅ ∧
        p.pages = m₁.pmm.pages ∧
        Accounted { m₁ with pmm := p, nulls := n } res (insert dst R)
          (K + one slab + Pi.single stack 1) ∧
        m.cloneSlab r room = slab ∧
        (∀ g, m₁.uses (insert dst R) (K + one slab + Pi.single stack 1) g ≤
          max 1 (m₁.uses (insert dst R) K g)) ∧
        (freeFrames { m₁ with pmm := p, nulls := n } res (insert dst R)
          (K + one slab + Pi.single stack 1)).card + framesNeeded m r room =
            (freeFrames m res R K).card := by
  rcases h.cloneUserPagetable hr with ⟨m₁, dst, heq, hc⟩ | ⟨heq, hempty⟩
  · refine .inr ?_
    have hacc := hc.accounted
    have hne : (freeFrames m res R K).Nonempty := by
      have := hc.room
      exact card_pos.mp (by omega)
    have hroom : (freeFrames m res R K).card ≤ (freeFrames m₁ res (insert dst R)
        (K + lostRefs m r (lost m₁ dst (presentPages m r)))).card +
          ((presentPages m r).biUnion wayTo).card + 1 := by
      have := hc.room
      have := hc.within
      omega
    rcases hacc.kmallocPage room with
      ⟨p, n, slab, hk, hpages, hres, hslab, hacc₁, hcard⟩ | ⟨hroomf, hk, hfull⟩
    · rcases hacc₁.alloc_frame with
        ⟨f, hpos, hphys, -, hf, hacc₂, hfree⟩ | ⟨hphys, hfail, hfull⟩
      · -- a frame was left for the stack, so no page is missing
        have hphys' : f * pageSize ≠ 0 := Nat.ne_of_gt (Nat.mul_pos hpos (by decide))
        have hcalls : m.cloneCalls r room child =
            ((Memory.alloc { m₁ with pmm := p, nulls := n }).1,
              ⟨none, some (dst * pageSize), some child, some (f * pageSize)⟩) := by
          unfold Memory.cloneCalls
          rw [heq]
          dsimp only
          rw [hk]
          dsimp only
          rw [hphys, if_neg hphys']
        have hleft := card_pos.mpr ⟨f, hf⟩
        have hwhole : lost m₁ dst (presentPages m r) = ∅ := by
          by_contra hlost
          obtain ⟨v, hv⟩ := nonempty_iff_ne_empty.mpr hlost
          rw [(hc.full v hv).1, card_empty] at hcard
          omega
        have hcount := hc.room_of_whole hwhole
        rw [hwhole, lostRefs_empty, add_zero] at hacc₂ hcard hleft hfree hf hslab
        refine .inr ⟨m₁, dst, _, _, slab.map (· / pageSize), f, hcalls, hc, hwhole, ?_, hacc₂, ?_,
          ?_, ?_⟩
        · exact (pages_pmmAllocPage p).trans hpages
        · unfold Memory.cloneSlab
          rw [heq]
          dsimp only
          rw [hk]
          rfl
        · intro g
          have hunused : m₁.uses (insert dst R) (K + one (slab.map (· / pageSize))) f = 0 :=
            (mem_freeFrames.mp hf).2.2
          rw [uses_single]
          split
          next hg =>
            rw [hg, hunused]
            exact Nat.le_max_left _ _
          · rw [uses_add]
            cases slab with
            | none => exact Nat.le_max_right _ _
            | some phys =>
              obtain ⟨x, hx, rfl⟩ := hslab phys rfl
              have hux := (mem_freeFrames.mp hx).2.2
              rw [Option.map_some, mul_pageSize_div]
              unfold one
              split
              next hg =>
                obtain rfl := Option.some.inj hg
                rw [hux]
                exact Nat.le_max_left _ _
              · exact Nat.le_max_right _ _
        · have hstack := congrArg card hfree
          rw [card_erase_of_mem hf] at hstack
          unfold framesNeeded
          refine (congrArg (· + _) hstack).trans ?_
          omega
      · have hcalls : m.cloneCalls r room child =
            ((Memory.kfreePage { m₁ with pmm := p, nulls := n + 1 } slab).destroyUserPagetable dst,
              ⟨none, some (dst * pageSize), some child, none⟩) := by
          unfold Memory.cloneCalls
          rw [heq]
          dsimp only
          rw [hk]
          dsimp only
          rw [if_pos hphys, hfail]
        have hunused : ∀ phys, slab = some phys → ∃ f, phys = f * pageSize ∧
            m₁.uses (insert dst R) (K + lostRefs m r (lost m₁ dst (presentPages m r))) f = 0 := by
          intro phys hslabeq
          obtain ⟨f, hf, heqf⟩ := hslab phys hslabeq
          exact ⟨f, heqf, (mem_freeFrames.mp hf).2.2⟩
        obtain ⟨p', hfree, hpages', hres', hacc'⟩ :=
          (hacc₁.of_nulls (n + 1)).kfreePage hunused
        rw [hcalls, hfree]
        refine .inl ⟨{ m₁ with pmm := p', nulls := n + 1 }, dst, rfl, rfl,
          hc.of_pmm hacc' ?_ (hpages'.trans hpages), hne, ?_⟩
        · intro f hf hr
          exact (hres' f (hpages.symm ▸ hf) hr).trans (hres f hf hr)
        · rw [hfull, card_empty] at hcard
          unfold framesNeeded
          omega
    · have hcalls : m.cloneCalls r room child =
          (Memory.destroyUserPagetable { m₁ with nulls := m₁.nulls + 1 } dst,
            ⟨none, some (dst * pageSize), none, none⟩) := by
        unfold Memory.cloneCalls
        rw [heq]
        dsimp only
        rw [hk]
      rw [hcalls]
      refine .inl ⟨{ m₁ with nulls := m₁.nulls + 1 }, dst, rfl, rfl,
        hc.of_pmm (hacc.of_nulls _) (fun _ _ _ => rfl) rfl, hne, ?_⟩
      rw [hfull, card_empty] at hroom
      unfold framesNeeded
      rw [hroomf, if_neg Bool.false_ne_true]
      omega
  · refine .inl ⟨?_, hempty⟩
    unfold Memory.cloneCalls
    rw [heq]

/-! ## Taking it back -/

/-- The stored count of a frame of the allocator. -/
theorem Accounted.refcount_mod (h : Accounted m res R K) (hf : f < m.pmm.pages)
    (hres : res f = false) : m.pmm.refcount f = m.uses R K f % 65536 := by
  rcases Nat.eq_zero_or_pos (m.uses R K f) with hz | hpos
  · rw [h.idle f hf hres hz, hz]
  · exact h.follows.count f hf hres hpos

/-- The same frames are free, and every frame has the same count. -/
structure SamePmm (p p' : Pmm) : Prop where
  pages : p'.pages = p.pages
  bit : ∀ f < p.pages, p'.bitmapTest f = p.bitmapTest f
  count : ∀ f < p.pages, p'.refcount f = p.refcount f

/-- Two accounts with the same holders. -/
theorem Accounted.samePmm {R' : Finset Nat} {K' : Nat → Nat} (h : Accounted m res R K)
    (h' : Accounted m' res R' K') (huses : m'.uses R' K' = m.uses R K)
    (hpages : m'.pmm.pages = m.pmm.pages)
    (hres : ∀ f < m.pmm.pages, res f = true → m'.pmm.refcount f = m.pmm.refcount f) :
    SamePmm m.pmm m'.pmm where
  pages := hpages
  bit f hf := by
    have hiff : m'.pmm.bitmapTest f = false ↔ m.pmm.bitmapTest f = false := by
      rw [h.follows.bit f hf, h'.follows.bit f (hpages ▸ hf), huses]
    cases hb : m.pmm.bitmapTest f with
    | false => exact hiff.mpr hb
    | true =>
      refine Bool.eq_true_of_not_eq_false fun hc => ?_
      rw [hiff.mp hc] at hb
      cases hb
  count f hf := by
    cases hr : res f with
    | true => exact hres f hf hr
    | false => rw [h.refcount_mod hf hr, h'.refcount_mod (hpages ▸ hf) hr, huses]

theorem shares_pos : 0 < shares m r f ↔ ∃ v < userPages, owned (m.leaf r v) = some f := by
  unfold shares
  rw [refs_pos]
  simp only [mem_range]

/-- With one page nothing has more than one holder. -/
theorem uses_le_one (hacc : Accounted m res {r} 0)
    (howned : ∀ u < userPages, owned (m.leaf r u) = if u = v then some f else none) (g : Nat) :
    m.uses {r} 0 g ≤ 1 := by
  have hr := mem_singleton_self r
  by_cases ht : IsTable m {r} g
  · exact (hacc.uses_table ht).le
  · have hroot : g ∉ ({r} : Finset Nat) := fun hg => ht (isTable_root hg)
    have hone : shares m r g ≤ 1 := by
      have hsame : ∀ u < userPages, owned (m.leaf r u) = some g → u = v := by
        intro u hu ho
        rw [howned u hu] at ho
        by_contra hne
        rw [if_neg hne] at ho
        cases ho
      unfold shares
      refine refs_le_one fun u hu u' hu' ho ho' => ?_
      rw [hsame u (mem_range.mp hu) ho, hsame u' (mem_range.mp hu') ho']
    unfold Memory.uses
    rw [refs_root hr ht, if_neg hroot, Pi.zero_apply, Nat.add_zero, Nat.add_zero]
    exact hone

/-- What one address space holds is part of what is held. -/
theorem Accounted.shares_le (h : Accounted m res R K) (hr : r ∈ R) :
    shares m r f ≤ m.uses R K f := by
  rcases Nat.eq_zero_or_pos (shares m r f) with hz | hpos
  · omega
  · obtain ⟨v, hv, ho⟩ := shares_pos.mp hpos
    have hle : refs m.holds ({r} ×ˢ slots) f ≤ refs m.holds (R ×ˢ slots) f := by
      refine refs_mono ?_
      exact product_subset_product (singleton_subset_iff.mpr hr)
        (Finset.Subset.refl _)
    rw [refs_root hr (h.not_table_of_leaf hr hv ho)] at hle
    unfold Memory.uses
    omega

/-- `pmm_free_page` raises no count, and changes none but that of the page. -/
theorem refcount_freeAll {l : List Nat} (hc : m.pmm.Covers) (hl : ∀ a ∈ l, a < m.pmm.pages) :
    (freeAll m l).pmm.refcount f ≤ m.pmm.refcount f ∧
      (f ∉ l → (freeAll m l).pmm.refcount f = m.pmm.refcount f) ∧
      (freeAll m l).pmm.pages = m.pmm.pages := by
  induction l generalizing m with
  | nil => exact ⟨Nat.le_refl _, fun _ => rfl, rfl⟩
  | cons a l ih =>
    have hpages : (m.free (a * pageSize)).pmm.pages = m.pmm.pages := pages_pmmFreePage _ _
    have hcount : (m.free (a * pageSize)).pmm.refcount f =
        if f = a ∧ m.pmm.bitmapTest f = true then m.pmm.refcount f - 1 else m.pmm.refcount f := by
      have heq := refcount_pmmFreePage (a * pageSize) f hc
        (by rw [mul_pageSize_div]; exact hl a List.mem_cons_self)
      rw [mul_pageSize_div] at heq
      exact heq
    obtain ⟨hle, hsame, hp⟩ := ih (m := m.free (a * pageSize)) (covers_pmmFreePage hc _)
      (fun b hb => hpages.symm ▸ hl b (List.mem_cons_of_mem a hb))
    refine ⟨?_, ?_, hp.trans hpages⟩
    · refine hle.trans ?_
      rw [hcount]
      split
      · exact Nat.sub_le ..
      · exact Nat.le_refl _
    · intro hf
      rw [List.mem_cons, not_or] at hf
      exact (hsame hf.2).trans (hcount.trans (if_neg fun h => hf.1 h.1))

/-- The frames that `vmm_destroy_user_pagetable` frees are frames of the allocator. -/
theorem Accounted.freed_range (h : Accounted m res R K) (hr : r ∈ R)
    (hf : f ∈ freedTable m.words 3 r 256 ++ [r]) : f < m.pmm.pages ∧ res f = false := by
  obtain ⟨huses, hdrop⟩ := h.dropRoot hr
  refine hdrop.range f ?_
  rw [uses_add]
  have := List.count_pos_iff.mpr hf
  omega

/-- The copy is destroyed, and no count has wrapped around. -/
theorem Cloned.destroy (hc : Cloned res R K m m₁ r dst)
    (hfit : ∀ f, m.uses R K f + shares m r f < 65536) :
    Accounted (m₁.destroyUserPagetable dst) res R
        (K + lostRefs m r (lost m₁ dst (presentPages m r))) ∧
      (m₁.destroyUserPagetable dst).uses R
          (K + lostRefs m r (lost m₁ dst (presentPages m r))) =
        m.uses R (K + lostRefs m r (lost m₁ dst (presentPages m r))) := by
  have hdst := mem_insert_self dst R
  have hacc := hc.accounted.destroyUserPagetable hdst ?_
  · rw [erase_insert hc.fresh] at hacc
    refine ⟨hacc, ?_⟩
    rw [uses_of_words (destroyUserPagetable_words m₁ dst)]
    exact uses_trees hc.tab fun r' hr' v hv => hc.owned_leaf hr' hv
  · intro d k f hk hheld
    by_cases hd : d = 3
    · subst hd
      have ho : owned (m₁.leaf dst k) = some f := holds_leaf.symm.trans hheld
      rw [hc.uses_page (hc.accounted.not_table_of_leaf hdst (leaf_mem_slots.mp hk) ho)]
      exact hfit f
    · have hd' : d < 3 := by
        have := (mem_slots.mp hk).1
        omega
      rw [holds_of_lt hd'] at hheld
      rw [hc.accounted.table dst hdst (d + 1) k f (tableKey_succ hk hd') hheld]
      decide

/-- A count that has wrapped around does not come back. -/
theorem Cloned.destroy_wrapped (hc : Cloned res R K m m₁ r dst) (h : Accounted m res R K)
    (hr : r ∈ R) (hlow : ∀ f, m.uses R K f < 65536)
    (hf : 65536 ≤ m.uses R K f + shares m r f) :
    (m₁.destroyUserPagetable dst).pmm.refcount f ≠ m.pmm.refcount f := by
  have hdst := mem_insert_self dst R
  have hu := hlow f
  have hle := h.shares_le (f := f) hr
  obtain ⟨v, hv, ho⟩ := shares_pos.mp (show 0 < shares m r f by omega)
  obtain ⟨hp, hres⟩ := h.range f (uses_pos_of_leaf hr hv ho)
  have ho₁ : owned (m₁.leaf r v) = some f := (hc.owned_leaf hr hv).trans ho
  have hstored := hc.accounted.refcount_mod (hc.pages.symm ▸ hp) hres
  rw [hc.uses_page (hc.accounted.not_table_of_leaf (mem_insert_of_mem hr) hv ho₁)]
    at hstored
  have hbefore := h.refcount_mod hp hres
  have hafter := (refcount_freeAll (f := f) hc.accounted.follows.covers
    fun a ha => (hc.accounted.freed_range hdst ha).1).1
  rw [destroyUserPagetable_eq]
  omega

theorem Cloned.destroy_pages (hc : Cloned res R K m m₁ r dst) :
    (m₁.destroyUserPagetable dst).pmm.pages = m.pmm.pages := by
  have hcounts := refcount_freeAll (f := 0) hc.accounted.follows.covers
    fun a ha => (hc.accounted.freed_range (mem_insert_self dst R) ha).1
  rw [destroyUserPagetable_eq, hcounts.2.2, hc.pages]

/-- Where the counts are what they were, none has wrapped and no page is missing from the copy. -/
theorem Cloned.of_counts (hc : Cloned res R K m m₁ r dst) (h : Accounted m res R K)
    (hr : r ∈ R) (hlow : ∀ f, m.uses R K f < 65536)
    (hcount : ∀ f < m.pmm.pages, res f = false →
      (m₁.destroyUserPagetable dst).pmm.refcount f = m.pmm.refcount f) :
    (∀ f, m.uses R K f + shares m r f < 65536) ∧
      ∀ v ∈ lost m₁ dst (presentPages m r), owned (m.leaf r v) = none := by
  have hfit : ∀ f, m.uses R K f + shares m r f < 65536 := by
    intro f
    by_contra hf
    have hle := h.shares_le (f := f) hr
    have hu := hlow f
    obtain ⟨hp, hres⟩ := h.range f (by omega)
    exact hc.destroy_wrapped h hr hlow (by omega) (hcount f hp hres)
  refine ⟨hfit, fun v hv => ?_⟩
  by_contra hno
  obtain ⟨f, ho⟩ := Option.ne_none_iff_exists'.mp hno
  obtain ⟨hacc, huses⟩ := hc.destroy hfit
  have hvp := (mem_presentPages.mp (mem_filter.mp hv).1).1
  obtain ⟨hp, hres⟩ := h.range f (uses_pos_of_leaf hr hvp ho)
  have hpos : 0 < lostRefs m r (lost m₁ dst (presentPages m r)) f := by
    rw [lostRefs_eq]
    exact refs_pos.mpr ⟨v, hv, ho⟩
  have hle : lostRefs m r (lost m₁ dst (presentPages m r)) f ≤ shares m r f := by
    rw [lostRefs_eq]
    refine refs_mono fun u hu => ?_
    rw [mem_range]
    exact (mem_presentPages.mp (mem_filter.mp hu).1).1
  have hafter := hacc.refcount_mod (hc.destroy_pages.symm ▸ hp) hres
  rw [huses, uses_add, hcount f hp hres, h.refcount_mod hp hres] at hafter
  have := hfit f
  omega

/-- Destroying the copy gives back what it took if no count has wrapped around and no page of the
allocator is missing. -/
theorem Cloned.undone_iff (hc : Cloned res R K m m₁ r dst) (h : Accounted m res R K)
    (hr : r ∈ R) (hlow : ∀ f, m.uses R K f < 65536) :
    SamePmm m.pmm (m₁.destroyUserPagetable dst).pmm ↔
      (∀ f, m.uses R K f + shares m r f < 65536) ∧
        ∀ v ∈ lost m₁ dst (presentPages m r), owned (m.leaf r v) = none := by
  constructor
  · intro hsame
    exact hc.of_counts h hr hlow fun f hp _ => hsame.count f hp
  · rintro ⟨hfit, hnone⟩
    obtain ⟨hacc, huses⟩ := hc.destroy hfit
    rw [lostRefs_eq_zero hnone, add_zero] at hacc huses
    have hdst := mem_insert_self dst R
    have hfreed : ∀ f, f ∈ freedTable m₁.words 3 dst 256 ++ [dst] →
        f < m₁.pmm.pages ∧ res f = false := fun f hf => hc.accounted.freed_range hdst hf
    have hcounts := fun f => refcount_freeAll (f := f) hc.accounted.follows.covers
      fun a ha => (hfreed a ha).1
    refine h.samePmm hacc huses hc.destroy_pages fun f hf hres => ?_
    rw [destroyUserPagetable_eq, (hcounts f).2.1, hc.reserved f hf hres]
    intro hmem
    exact Bool.false_ne_true ((hfreed f hmem).2.symm.trans hres)

end

end Aeryk.Vm
