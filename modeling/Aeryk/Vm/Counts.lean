import Aeryk.Vm.World

/-!
# Reference counts over forks, faults and exits

`pmm_page_ref_inc` adds to a count of 16 bits and does not look at it.  A fork adds one to the
count of each page of the parent, so the count of a page that 65535 processes map is zero after the
next fork.  And where a fork runs out of memory, the references of pages that could not be mapped
are never taken back.

`ForkFits` rules out both.  Where every fork meets it the counts are right in every state, so no
page is freed or taken over while another page table maps it.
-/

namespace Aeryk.Vm

open Finset Lib Mem Mem.Pmm Memory

/-! ## Flags -/

/-- A page that is not the allocator's does not become copy-on-write. -/
theorem cow_forked_of_nopmm {w : Word} (h : isSet w pteNopmm = true) :
    isSet (forked w) pteCow = isSet w pteCow := by
  have hshared : isSet (w &&& flagsMask) (pteShared ||| pteNopmm) = true := by
    rw [isSet_and _ _ _ (by decide)]
    have hand : w &&& (pteShared ||| pteNopmm) = w &&& pteShared ||| w &&& pteNopmm := by
      ext i
      simp only [BitVec.getElem_and, BitVec.getElem_or, Bool.and_or_distrib_left]
    unfold isSet at h ⊢
    rw [bne_iff_ne] at h ⊢
    rw [hand]
    exact fun hz => h (BitVec.or_eq_zero_iff.mp hz).2
  rw [isSet_forked (by decide)]
  unfold forkFlags
  rw [hshared, Bool.not_true, Bool.and_false, if_neg Bool.false_ne_true,
    isSet_and _ _ _ (by decide)]

theorem cow_forked {w : Word} (h : isSet w pteCow = true → isSet w pteNopmm = false)
    (hcow : isSet (forked w) pteCow = true) : isSet (forked w) pteNopmm = false := by
  rw [nopmm_forked]
  cases hn : isSet w pteNopmm with
  | false => rfl
  | true =>
    rw [cow_forked_of_nopmm hn] at hcow
    exact hn.symm.trans (h hcow)

namespace World

section

variable {s : World} {res : Nat → Bool} {pid : Nat} {p : Proc} {room : Bool}

/-! ## Forks -/

/-- What a fork needs for right counts: no free frame, or counts that stay below 65536 and frames
for everything, or at least for the tables of every page of the allocator. -/
def ForkFits (m : Memory) (r : Nat) (room : Bool) : Prop :=
  m.freeCount = 0 ∨
    (∀ f, 0 < shares m r f → m.pmm.refcount f + shares m r f < 65536) ∧
      (framesNeeded m r room ≤ m.freeCount ∨
        ∀ v < userPages, owned (m.leaf r v) ≠ none → (tablesUpTo m r v).card < m.freeCount)

/-- The outcomes of a fork: it is refused at once, taken back, or comes through. -/
theorem fork_cases (h : Accounted s.mem res s.roots s.kernel) (hr : p.task.cr3 ∈ s.roots)
    (room : Bool) :
    (s.fork p room = { s with mem := { s.mem with nulls := s.mem.nulls + 1 } } ∧
        freeFrames s.mem res s.roots s.kernel = ∅) ∨
      (∃ m₁ dst, s.fork p room = { s with mem := m₁.destroyUserPagetable dst } ∧
        Cloned res s.roots s.kernel s.mem m₁ p.task.cr3 dst ∧
        (freeFrames s.mem res s.roots s.kernel).Nonempty ∧
        (freeFrames s.mem res s.roots s.kernel).card < framesNeeded s.mem p.task.cr3 room) ∨
      ∃ m₁ dst q n slab stack, s.fork p room =
          s.spawn { m₁ with pmm := q, nulls := n } slab
            { task := { p.task with pid := s.nextPid, cr3 := dst, kernelStack := stack }
              dead := false } ∧
        Cloned res s.roots s.kernel s.mem m₁ p.task.cr3 dst ∧
        lost m₁ dst (presentPages s.mem p.task.cr3) = ∅ ∧
        Accounted { m₁ with pmm := q, nulls := n } res (insert dst s.roots)
          (s.kernel + one slab + Pi.single stack 1) ∧
        (∀ g, m₁.uses (insert dst s.roots) (s.kernel + one slab + Pi.single stack 1) g ≤
          max 1 (m₁.uses (insert dst s.roots) s.kernel g)) ∧
        (freeFrames { m₁ with pmm := q, nulls := n } res (insert dst s.roots)
          (s.kernel + one slab + Pi.single stack 1)).card + framesNeeded s.mem p.task.cr3 room =
            (freeFrames s.mem res s.roots s.kernel).card := by
  unfold fork
  rcases h.cloneCalls hr room 0 with ⟨heq, hempty⟩ | ⟨m₁, dst, hmem, hstack, hc, hne, hlt⟩ |
    ⟨m₁, dst, q, n, slab, stack, heq, hc, hlost, -, hacc, hslab, huses, hcard⟩
  · rw [heq]
    exact .inl ⟨rfl, hempty⟩
  · refine .inr (.inl ⟨m₁, dst, ?_, hc, hne, hlt⟩)
    dsimp only
    rw [hstack, hmem]
    cases (s.mem.cloneCalls p.task.cr3 room 0).2.table with
    | none => rfl
    | some t => rfl
  · refine .inr (.inr ⟨m₁, dst, q, n, slab, stack, ?_, hc, hlost, hacc, huses, hcard⟩)
    rw [heq, hslab]
    dsimp only
    rw [mul_pageSize_div, mul_pageSize_div]

/-- The entries of the address spaces that were there, after a fork. -/
theorem Exact.cow_leaf (h : Exact res s) {m₁ : Memory} {dst r v : Nat}
    (hc : Cloned res s.roots s.kernel s.mem m₁ p.task.cr3 dst) (hr : r ∈ s.roots)
    (hv : v < userPages) (hcow : isSet (m₁.leaf r v) pteCow = true) :
    isSet (m₁.leaf r v) pteNopmm = false := by
  rw [hc.leaf r hr v hv] at hcow ⊢
  split at hcow
  next hcond =>
    rw [if_pos hcond]
    refine cow_forked (h.cow _ ?_ v hv) hcow
    exact hcond.1 ▸ hr
  next hcond =>
    rw [if_neg hcond]
    exact h.cow r hr v hv hcow

/-- The entries of the new address space. -/
theorem Exact.cow_child (h : Exact res s) {m₁ : Memory} {dst v : Nat}
    (hc : Cloned res s.roots s.kernel s.mem m₁ p.task.cr3 dst) (hr : p.task.cr3 ∈ s.roots)
    (hv : v < userPages) (hcow : isSet (m₁.leaf dst v) pteCow = true) :
    isSet (m₁.leaf dst v) pteNopmm = false := by
  rw [hc.child v hv] at hcow ⊢
  split at hcow
  next hcond =>
    rw [if_pos hcond]
    exact cow_forked (h.cow _ hr v hv) hcow
  · exact absurd hcow (by decide)

/-- The stored count of a page of the parent. -/
theorem Exact.refcount_shared (h : Exact res s) {f r : Nat} (hr : r ∈ s.roots)
    (hpos : 0 < shares s.mem r f) : s.mem.pmm.refcount f = s.mem.uses s.roots s.kernel f := by
  obtain ⟨v, hv, howned⟩ := shares_pos.mp hpos
  obtain ⟨hp, hres⟩ := h.accounted.range f (uses_pos_of_leaf hr hv howned)
  exact h.refcount hp hres

/-- The counts have room for another reference from each page of the parent. -/
theorem Exact.fits (h : Exact res s) (hr : p.task.cr3 ∈ s.roots)
    (hcount : ∀ f, 0 < shares s.mem p.task.cr3 f →
      s.mem.pmm.refcount f + shares s.mem p.task.cr3 f < 65536) (f : Nat) :
    s.mem.uses s.roots s.kernel f + shares s.mem p.task.cr3 f < 65536 := by
  rcases Nat.eq_zero_or_pos (shares s.mem p.task.cr3 f) with hz | hpos
  · rw [hz]
    exact h.low f
  · rw [← h.refcount_shared hr hpos]
    exact hcount f hpos

/-- A fork that fits keeps the counts right. -/
theorem Exact.fork (h : Exact res s) (hp : s.procs pid = some p)
    (hfits : ForkFits s.mem p.task.cr3 room) : Exact res (s.fork p room) := by
  have hr := h.root_mem hp
  rcases fork_cases h.accounted hr room with ⟨heq, -⟩ | ⟨m₁, dst, heq, hc, hne, hlt⟩ |
    ⟨m₁, dst, q, n, slab, stack, heq, hc, hlost, hacc, huses, -⟩
  · rw [heq]
    exact h.of_mem rfl rfl rfl rfl (h.accounted.of_nulls _) h.low h.cow
  · -- the frames ran out, but only on the way to pages that are not the allocator's
    have hfree := card_pos.mpr hne
    rw [← h.accounted.freeCount_eq] at hfree hlt
    obtain ⟨hcount, hroom⟩ := hfits.resolve_left (Nat.ne_of_gt hfree)
    have hnone : ∀ v ∈ lost m₁ dst (presentPages s.mem p.task.cr3),
        owned (s.mem.leaf p.task.cr3 v) = none := by
      intro v hv
      obtain ⟨hpres, hle⟩ := hc.mem_lost.mp hv
      by_contra howned
      have := hroom.resolve_left (Nat.not_le_of_lt hlt) v (mem_presentPages.mp hpres).1 howned
      rw [h.accounted.freeCount_eq] at this
      omega
    obtain ⟨hacc, huses⟩ := hc.destroy (h.fits hr hcount)
    rw [lostRefs_eq_zero hnone, add_zero] at hacc huses
    rw [heq]
    refine h.of_mem rfl rfl rfl rfl hacc (fun f => ?_) fun r hr' v hv hcow => ?_
    · rw [huses]
      exact h.low f
    · have hleaf := leaf_of_words (destroyUserPagetable_words m₁ dst) r v
      dsimp only at hcow ⊢
      rw [hleaf] at hcow ⊢
      exact h.cow_leaf hc hr' hv hcow
  · have hcount : ∀ f, 0 < shares s.mem p.task.cr3 f →
        s.mem.pmm.refcount f + shares s.mem p.task.cr3 f < 65536 := by
      rcases hfits with hzero | hfits
      · have hroom := hc.room
        rw [← h.accounted.freeCount_eq, hzero] at hroom
        omega
      · exact hfits.1
    have hfit := h.fits hr hcount
    have hpage := fun f => hc.uses_page (f := f)
    rw [hlost, lostRefs_empty, add_zero] at hpage
    rw [heq]
    refine h.spawn hc.fresh hacc (fun f => ?_) fun r hr' v hv hcow => ?_
    · by_cases htab : IsTable m₁ (insert dst s.roots) f
      · have huse := hacc.uses_table htab
        exact Nat.lt_of_le_of_lt (Nat.le_of_eq huse) (by decide)
      · have hle := huses f
        rw [hpage f htab] at hle
        have := hfit f
        exact Nat.lt_of_le_of_lt hle (by omega)
    · -- the two allocations after the copy do not write a page table
      change isSet (m₁.leaf r v) pteCow = true at hcow
      change isSet (m₁.leaf r v) pteNopmm = false
      rcases mem_insert.mp hr' with rfl | hr'
      · exact h.cow_child hc hr hv hcow
      · exact h.cow_leaf hc hr' hv hcow

/-! ## Faults and exits -/

/-- A page that a process takes over is not copy-on-write afterwards. -/
theorem Exact.fault (h : Exact res s) (hp : s.procs pid = some p) {va : Nat}
    (hva : pageOf va < userPages) :
    Exact res { s with mem := (s.mem.handleCowFault p.task.cr3 va).1 } := by
  have hr := h.root_mem hp
  cases hpres : isSet (s.mem.leaf p.task.cr3 (pageOf va)) ptePresent with
  | false =>
    rw [handleCowFault_refused (.inl hpres)]
    exact h
  | true =>
    cases hcow : isSet (s.mem.leaf p.task.cr3 (pageOf va)) pteCow with
    | false =>
      rw [handleCowFault_refused (.inr hcow)]
      exact h
    | true =>
      rcases h.accounted.handleCowFault hr hva hpres hcow (h.cow _ hr _ hva hcow) (h.low _) with
        ⟨m', f, heq, hrec⟩ | heq
      · rw [heq]
        refine h.of_mem rfl rfl rfl rfl hrec.accounted (fun g => ?_) fun r hr' v hv hc => ?_
        · by_cases hg : g = f
          · have halone := hrec.alone
            rw [hg, halone]
            decide
          · exact Nat.lt_of_le_of_lt (hrec.fewer g hg) (h.low g)
        · dsimp only at hc ⊢
          rw [hrec.leaf r hr' v hv] at hc ⊢
          split at hc
          · rw [isSet_entry hrec.small (by decide), isSet_reclaimFlags_cow] at hc
            cases hc
          next hne =>
            rw [if_neg hne]
            exact h.cow r hr' v hv hc
      · rw [heq]
        exact h.of_mem rfl rfl rfl rfl (h.accounted.of_nulls _) h.low h.cow

theorem Exact.die (h : Exact res s) (hp : s.procs pid = some p) : Exact res (s.die pid p) := by
  have hroot : (s.die pid p).rootOf = s.rootOf := rootOf_put hp rfl
  have hstack : (s.die pid p).stackOf = s.stackOf := stackOf_put hp rfl
  exact h.of_mem (roots_congr rfl hroot) (kernel_congr rfl hstack rfl) rfl hroot h.accounted h.low
    h.cow

/-- What was held by a page table is held by others only once the table is gone. -/
theorem uses_dropRoot {m : Memory} {R : Finset Nat} {K : Nat → Nat} {r : Nat}
    (h : Accounted m res R K) (hr : r ∈ R) (f : Nat) : m.uses (R.erase r) K f ≤ m.uses R K f := by
  have huses := congrFun (h.dropRoot hr).1 f
  rw [uses_add] at huses
  omega

/-- The kernel stack and the page table of a process that is reaped are given back. -/
theorem Exact.remove (h : Exact res s) (hp : s.procs pid = some p) :
    Exact res (s.remove pid
      ((s.mem.free (p.task.kernelStack * pageSize)).destroyUserPagetable p.task.cr3)) := by
  have hr := h.root_mem hp
  generalize hm : (s.mem.free (p.task.kernelStack * pageSize)).destroyUserPagetable p.task.cr3 = m
  have hwords : m.words = s.mem.words := by
    rw [← hm, destroyUserPagetable_words]
    rfl
  have hroots : (s.remove pid m).roots = s.roots.erase p.task.cr3 :=
    roots_remove m hp fun pid' hp' =>
      h.apart pid' pid _ hp' (rootOf_eq_some.mpr ⟨p, hp, rfl⟩)
  have hkernel := kernel_remove m hp (h.pids pid p hp)
  have hacc := h.accounted
  rw [← hkernel] at hacc
  have hone : ∀ f, s.mem.uses s.roots (s.remove pid m).kernel f +
      (if f = p.task.kernelStack then 1 else 0) < 65536 := by
    intro f
    rw [← uses_single, hkernel]
    exact h.low f
  have hless : ∀ f, s.mem.uses s.roots (s.remove pid m).kernel f < 65536 :=
    fun f => Nat.lt_of_le_of_lt (Nat.le_add_right _ _) (hone f)
  have hfreed := hacc.free (by have := hone p.task.kernelStack; rw [if_pos rfl] at this; omega)
  have hgone := hfreed.destroyUserPagetable hr fun _ _ f _ _ => hless f
  have huses : ∀ f, m.uses (s.roots.erase p.task.cr3) (s.remove pid m).kernel f < 65536 := by
    intro f
    have hle := uses_dropRoot hacc hr f
    rw [uses_single, uses_single] at hle
    rw [uses_of_words hwords]
    exact Nat.lt_of_le_of_lt (Nat.le_of_add_le_add_right hle) (hless f)
  refine ⟨?_, fun f => ?_, fun pid' p' hp' => ?_, fun a b r ha hb => ?_, fun r hr' v hv hcow => ?_⟩
  · rw [hroots]
    exact hm ▸ hgone
  · unfold uses
    rw [hroots]
    exact huses f
  · unfold World.remove at hp'
    dsimp only at hp'
    rw [Function.update_apply] at hp'
    split at hp'
    · cases hp'
    · exact h.pids pid' p' hp'
  · rw [rootOf_remove] at ha hb
    split at ha
    · cases ha
    · split at hb
      · cases hb
      · exact h.apart a b r ha hb
  · have hleaf : (s.remove pid m).mem.leaf r v = s.mem.leaf r v := leaf_of_words hwords r v
    rw [hroots] at hr'
    rw [hleaf] at hcow ⊢
    exact h.cow r (mem_of_mem_erase hr') v hv hcow

/-- A slab that is no longer needed is given back. -/
theorem Exact.freeSlab (h : Exact res s) {f : Nat} (hf : 0 < s.held f) :
    Exact res { s with mem := s.mem.free (f * pageSize), held := s.held - Pi.single f 1 } := by
  generalize hs : { s with mem := s.mem.free (f * pageSize), held := s.held - Pi.single f 1 } = s'
  have hkernel : s'.kernel + Pi.single f 1 = s.kernel := by
    funext g
    subst hs
    rw [Pi.add_apply]
    unfold kernel stackOf
    dsimp only
    rw [Pi.sub_apply]
    rcases eq_or_ne g f with rfl | hne
    · rw [Pi.single_eq_same]
      omega
    · rw [Pi.single_eq_of_ne hne]
      omega
  have hacc := h.accounted
  rw [← hkernel] at hacc
  have hone : ∀ g, s.mem.uses s.roots s'.kernel g + (if g = f then 1 else 0) < 65536 := by
    intro g
    rw [← uses_single, hkernel]
    exact h.low g
  have hfreed := hacc.free (by have := hone f; rw [if_pos rfl] at this; omega)
  have hmem : s'.mem = s.mem.free (f * pageSize) := by rw [← hs]
  have hroot : s'.rootOf = s.rootOf := by rw [← hs]; rfl
  have hnext : s'.nextPid = s.nextPid := by rw [← hs]
  have hroots := roots_congr hnext hroot
  refine ⟨?_, fun g => ?_, fun pid' p' hp' => ?_, ?_, fun r hr v hv hcow => ?_⟩
  · rw [hroots, hmem]
    exact hfreed
  · unfold uses
    rw [hroots, hmem]
    exact Nat.lt_of_le_of_lt (Nat.le_add_right _ _) (hone g)
  · subst hs
    exact h.pids pid' p' hp'
  · rw [hroot]
    exact h.apart
  · rw [hroots] at hr
    rw [hmem] at hcow ⊢
    exact h.cow r hr v hv hcow

/-- Reaping a process keeps the counts right. -/
theorem Exact.reap (h : Exact res s) (hp : s.procs pid = some p) (slab : Option Nat) :
    Exact res (s.reap pid p slab) := by
  have hgone := h.remove hp
  unfold World.reap
  cases slab with
  | none => exact hgone
  | some f =>
    dsimp only
    split
    next hheld => exact hgone.freeSlab hheld
    · exact hgone

/-! ## Runs -/

/-- Forks, faults in the user half, exits and reapings. -/
def Counted : Act → Prop
  | .fork _ _ => True
  | .fault _ va => pageOf va < userPages
  | .exit _ => True
  | .reap _ _ => True
  | _ => False

def Fits (s : World) : Act → Prop
  | .fork pid room => ∀ p, s.live pid = some p → ForkFits s.mem p.task.cr3 room
  | _ => True

/-- The stored counts are the references, and a frame that two entries map is neither free nor
taken for one with a single holder. -/
structure Counts (res : Nat → Bool) (s : World) : Prop where
  stored : ∀ f < s.mem.pmm.pages, res f = false → s.mem.pmm.refcount f = s.uses f
  used : ∀ r ∈ s.roots, ∀ v < userPages, ∀ f, owned (s.mem.leaf r v) = some f →
    s.mem.pmm.bitmapTest f = true
  shared : ∀ r ∈ s.roots, ∀ v < userPages, ∀ r' ∈ s.roots, ∀ v' < userPages, ∀ f,
    (r, v) ≠ (r', v') → owned (s.mem.leaf r v) = some f → owned (s.mem.leaf r' v') = some f →
      s.mem.pmm.pmmPageRefcount (f * pageSize) ≠ 1

theorem Exact.step (h : Exact res s) {fb : FrameBuffer} {a : Act} (ha : Counted a)
    (hfits : Fits s a) : Exact res (s.step fb a) := by
  cases a with
  | mmap => exact ha.elim
  | munmap => exact ha.elim
  | brk => exact ha.elim
  | fbmap => exact ha.elim
  | fork pid room =>
    unfold World.step
    dsimp only
    cases hl : s.live pid with
    | none => exact h
    | some p => exact h.fork (live_eq_some.mp hl).1 (hfits p hl)
  | fault pid va =>
    unfold World.step
    dsimp only
    cases hl : s.live pid with
    | none => exact h
    | some p => exact h.fault (live_eq_some.mp hl).1 ha
  | exit pid =>
    unfold World.step
    dsimp only
    cases hl : s.live pid with
    | none => exact h
    | some p => exact h.die (live_eq_some.mp hl).1
  | reap pid slab =>
    unfold World.step
    dsimp only
    cases hp : s.procs pid with
    | none => exact h
    | some p =>
      dsimp only
      split
      · exact h.reap hp slab
      · exact h

theorem Exact.counts (h : Exact res s) : Counts res s where
  stored f hf hres := h.refcount hf hres
  used r hr v hv f howned := by
    have hpos := uses_pos_of_leaf (K := s.kernel) hr hv howned
    refine h.accounted.follows.set_of_not_free (h.accounted.range f hpos).1 fun hfree => ?_
    exact Nat.ne_of_gt hpos hfree.2
  shared r hr v hv r' hr' v' hv' f hne howned howned' hone := by
    have hpos := uses_pos_of_leaf (K := s.kernel) hr hv howned
    rw [h.accounted.refcount_eq hpos (h.low f)] at hone
    have hrefs : refs s.mem.holds (s.roots ×ˢ slots) f ≤ 1 := by
      unfold Memory.uses at hone
      omega
    have heq := refs_unique hrefs
      (mem_product.mpr ⟨hr, leaf_mem_slots.mpr hv⟩)
      (mem_product.mpr ⟨hr', leaf_mem_slots.mpr hv'⟩)
      (holds_leaf.trans howned) (holds_leaf.trans howned')
    injection heq with hroot hrest
    injection hrest with _ hpage
    exact hne (Prod.ext hroot hpage)

/-- After a fork that does not fit a count is wrong. -/
theorem Exact.fits_of_counts (h : Exact res s) (hp : s.procs pid = some p)
    (hcounts : Counts res (s.fork p room)) : ForkFits s.mem p.task.cr3 room := by
  have hr := h.root_mem hp
  rcases fork_cases h.accounted hr room with ⟨-, hempty⟩ | ⟨m₁, dst, heq, hc, -, hlt⟩ |
    ⟨m₁, dst, q, n, slab, stack, heq, hc, hlost, hacc, -, hcard⟩
  · refine .inl ?_
    rw [h.accounted.freeCount_eq, hempty, card_empty]
  · have hstored := hcounts.stored
    rw [heq] at hstored
    have huses : (m₁.destroyUserPagetable dst).uses s.roots s.kernel =
        s.mem.uses s.roots s.kernel := by
      rw [uses_of_words (destroyUserPagetable_words m₁ dst)]
      exact uses_trees hc.tab fun r' hr' v hv => hc.owned_leaf hr' hv
    obtain ⟨hfit, hnone⟩ := hc.of_counts h.accounted hr h.low fun f hf hres => by
      rw [h.refcount hf hres]
      exact (hstored f (hc.destroy_pages.symm ▸ hf) hres).trans (congrFun huses f)
    refine .inr ⟨fun f hpos => ?_, .inr fun v hv howned => ?_⟩
    · rw [h.refcount_shared hr hpos]
      exact hfit f
    · by_contra hle
      rw [h.accounted.freeCount_eq] at hle
      refine howned (hnone v (hc.mem_lost.mpr ⟨?_, Nat.le_of_not_lt hle⟩))
      obtain ⟨f, ho⟩ := Option.ne_none_iff_exists'.mp howned
      exact mem_presentPages.mpr ⟨hv, (owned_eq_some.mp ho).1.1⟩
  · refine .inr ⟨fun f hpos => ?_, .inl ?_⟩
    · rw [h.refcount_shared hr hpos]
      obtain ⟨v, hv, howned⟩ := shares_pos.mp hpos
      have howned₁ := (hc.owned_leaf hr hv).trans howned
      have hpage := hc.uses_page (hc.accounted.not_table_of_leaf
        (mem_insert_of_mem hr) hv howned₁)
      rw [hlost, lostRefs_empty, add_zero] at hpage
      have hmore : m₁.uses (insert dst s.roots) s.kernel f ≤
          m₁.uses (insert dst s.roots) (s.kernel + one slab + Pi.single stack 1) f := by
        rw [add_assoc, uses_add]
        exact Nat.le_add_right _ _
      obtain ⟨hf, hres⟩ := hacc.range f
        (uses_pos_of_leaf (mem_insert_of_mem hr) hv howned₁)
      have hstored := hcounts.stored f
      rw [heq] at hstored
      unfold World.uses at hstored
      rw [roots_spawn, kernel_spawn] at hstored
      have hmod : m₁.uses (insert dst s.roots) (s.kernel + one slab + Pi.single stack 1) f % 65536 =
          m₁.uses (insert dst s.roots) (s.kernel + one slab + Pi.single stack 1) f :=
        (hacc.refcount_mod hf hres).symm.trans (hstored hf hres)
      omega
    · rw [h.accounted.freeCount_eq]
      omega

theorem Exact.fits_of_step (h : Exact res s) {fb : FrameBuffer} {a : Act}
    (hcounts : Counts res (s.step fb a)) : Fits s a := by
  cases a with
  | fork pid room =>
    intro p hp
    unfold World.step at hcounts
    dsimp only at hcounts
    rw [hp] at hcounts
    exact h.fits_of_counts (live_eq_some.mp hp).1 hcounts
  | mmap => exact trivial
  | munmap => exact trivial
  | brk => exact trivial
  | fbmap => exact trivial
  | fault => exact trivial
  | exit => exact trivial
  | reap => exact trivial

/-- In a run of forks, faults and exits the counts are right in every state exactly if every fork
fits. -/
theorem refcounts_exact_iff (h : Exact res s) {fb : FrameBuffer} {acts : List Act}
    (hacts : ∀ a ∈ acts, Counted a) :
    (∀ first, first <+: acts → Counts res (first.foldl (World.step fb) s)) ↔
      Along Fits (World.step fb) s acts :=
  always_iff_along_of_keeps (fun _ h => h.counts) (fun _ _ ha h hfits => h.step ha hfits)
    (fun _ _ _ h hcounts => h.fits_of_step hcounts) h hacts

/-! ## Frames that are taken -/

/-! ## Forks without end -/

/-- A process maps one page, which has `n` references, and there are `k` free frames. -/
structure Sharing (res : Nat → Bool) (s : World) (pid v f n k : Nat) : Prop where
  accounted : Accounted s.mem res s.roots s.kernel
  pids : ∀ pid p, s.procs pid = some p → pid < s.nextPid
  proc : ∃ p, s.live pid = some p ∧ presentPages s.mem p.task.cr3 = {v} ∧
    owned (s.mem.leaf p.task.cr3 v) = some f
  uses : s.uses f = n
  room : k ≤ (freeFrames s.mem res s.roots s.kernel).card

theorem framesNeeded_single {m : Memory} {r v : Nat} (h : presentPages m r = {v}) :
    framesNeeded m r true = 5 := by
  unfold framesNeeded
  rw [h, singleton_biUnion, card_wayTo]
  rfl

theorem shares_single {m : Memory} {r v f : Nat} (h : presentPages m r = {v})
    (howned : owned (m.leaf r v) = some f) : shares m r f = 1 := by
  have hmem : ∀ u, u ∈ presentPages m r ↔ u = v := fun u => by rw [h, mem_singleton]
  unfold shares refs
  refine card_eq_one.mpr ⟨v, ?_⟩
  ext u
  rw [mem_filter, mem_range, mem_singleton]
  constructor
  · rintro ⟨hu, ho⟩
    exact (hmem u).mp (mem_presentPages.mpr ⟨hu, (owned_eq_some.mp ho).1.1⟩)
  · rintro rfl
    exact ⟨(mem_presentPages.mp ((hmem u).mpr rfl)).1, howned⟩

/-- One more fork, one more reference. -/
theorem Sharing.fork {v f n k : Nat} (h : Sharing res s pid v f n (k + 5)) {fb : FrameBuffer} :
    Sharing res (s.step fb (.fork pid true)) pid v f (n + 1) k := by
  obtain ⟨p, hlive, hpages, howned⟩ := h.proc
  obtain ⟨hp, -⟩ := live_eq_some.mp hlive
  have hv : v < userPages := (mem_presentPages.mp (hpages ▸ mem_singleton_self v)).1
  have hr : p.task.cr3 ∈ s.roots :=
    mem_roots.mpr ⟨pid, h.pids pid p hp, rootOf_eq_some.mpr ⟨p, hp, rfl⟩⟩
  have hneed := framesNeeded_single hpages
  have hroom := h.room
  unfold World.step
  dsimp only
  rw [hlive]
  dsimp only
  rcases fork_cases h.accounted hr true with ⟨-, hempty⟩ | ⟨m₁, dst, -, -, -, hlt⟩ |
    ⟨m₁, dst, q, n', slab, stack, heq, hc, hlost, hacc, huses, hcard⟩
  · rw [hempty, card_empty] at hroom
    omega
  · omega
  · rw [heq]
    have howned₁ : owned (m₁.leaf p.task.cr3 v) = some f := (hc.owned_leaf hr hv).trans howned
    refine ⟨?_, fun _ _ => pids_spawn h.pids, ⟨p, ?_, ?_, howned₁⟩, ?_, ?_⟩
    · rw [roots_spawn, kernel_spawn]
      exact hacc
    · refine live_eq_some.mpr ⟨?_, (live_eq_some.mp hlive).2⟩
      rw [procs_spawn, if_neg (Nat.ne_of_lt (h.pids pid p hp)), hp]
    · rw [← hpages]
      ext u
      rw [mem_presentPages, mem_presentPages]
      refine and_congr_right fun hu => ?_
      have hword : (s.spawn { m₁ with pmm := q, nulls := n' } slab
          { task := { p.task with pid := s.nextPid, cr3 := dst, kernelStack := stack }
            dead := false }).mem.leaf p.task.cr3 u = m₁.leaf p.task.cr3 u := rfl
      rw [hword, hc.leaf _ hr u hu]
      split
      · rw [present_forked]
      · rfl
    · have hpage := hc.uses_page (hc.accounted.not_table_of_leaf
        (mem_insert_of_mem hr) hv howned₁)
      rw [hlost, lostRefs_empty, add_zero, shares_single hpages howned] at hpage
      have hle := huses f
      rw [add_assoc, uses_add, hpage] at hle
      have hn := h.uses
      unfold World.uses at hn ⊢
      rw [roots_spawn, kernel_spawn]
      have hsame : m₁.uses (insert dst s.roots) (s.kernel + one slab + Pi.single stack 1) f =
          n + 1 := by
        rw [add_assoc, uses_add, hpage]
        omega
      exact hsame
    · rw [roots_spawn, kernel_spawn]
      have : (freeFrames { m₁ with pmm := q, nulls := n' } res (insert dst s.roots)
          (s.kernel + one slab + Pi.single stack 1)).card ≥ k := by omega
      exact this

theorem Sharing.forks {v f n k N : Nat} {fb : FrameBuffer}
    (h : Sharing res s pid v f n (k + 5 * N)) :
    Sharing res ((List.replicate N (.fork pid true)).foldl (World.step fb) s) pid v f (n + N)
      k := by
  induction N generalizing s n with
  | zero => exact h
  | succ N ih =>
    rw [List.replicate_succ, List.foldl_cons]
    have hnext : Sharing res (s.step fb (.fork pid true)) pid v f (n + 1) (k + 5 * N) := h.fork
    have hrest := ih hnext
    rwa [Nat.add_right_comm] at hrest

/-- A count of 16 bits is zero for 65536 references. -/
theorem Sharing.not_counts {v f k : Nat} (h : Sharing res s pid v f 65536 k) : ¬Counts res s := by
  intro hcounts
  have huses := h.uses
  have hpos : 0 < s.uses f := huses ▸ Nat.zero_lt_succ _
  obtain ⟨hf, hres⟩ := h.accounted.range f hpos
  have hstored := hcounts.stored f hf hres
  have hmod := h.accounted.refcount_mod hf hres
  unfold World.uses at huses hstored
  rw [huses] at hmod hstored
  rw [hmod] at hstored
  cases hstored

/-- A fork of a page with few references fits. -/
theorem Sharing.fits {v f n k : Nat} (h : Sharing res s pid v f n (k + 5)) (hn : n < 65535)
    (hp : s.live pid = some p) : ForkFits s.mem p.task.cr3 true := by
  obtain ⟨p', hlive, hpages, howned⟩ := h.proc
  obtain rfl : p' = p := Option.some.inj (hlive.symm.trans hp)
  have hroom := h.room
  refine .inr ⟨fun g hg => ?_, .inl ?_⟩
  · obtain ⟨u, hu, ho⟩ := shares_pos.mp hg
    have hmem : u ∈ presentPages s.mem p'.task.cr3 :=
      mem_presentPages.mpr ⟨hu, (owned_eq_some.mp ho).1.1⟩
    rw [hpages] at hmem
    obtain rfl : u = v := mem_singleton.mp hmem
    obtain rfl : f = g := Option.some.inj (howned.symm.trans ho)
    rw [shares_single hpages howned]
    have huses := h.uses
    have hr : p'.task.cr3 ∈ s.roots := by
      obtain ⟨hproc, -⟩ := live_eq_some.mp hlive
      exact mem_roots.mpr ⟨pid, h.pids pid p' hproc, rootOf_eq_some.mpr ⟨p', hproc, rfl⟩⟩
    obtain ⟨hf, hres⟩ := h.accounted.range f (uses_pos_of_leaf hr hu ho)
    rw [h.accounted.refcount_mod hf hres]
    have hmod := Nat.mod_le (s.mem.uses s.roots s.kernel f) 65536
    unfold World.uses at huses
    omega
  · rw [framesNeeded_single hpages, h.accounted.freeCount_eq]
    omega

/-! ## A machine with one process -/

/-- A machine with `8 * bytes` frames in which nothing runs. -/
def idleWorld (bytes : Nat) : World where
  mem := freshMemory bytes
  procs := fun _ => none
  held := 0
  nextPid := 1
  owner := ⟨false, 0⟩

theorem idleWorld_roots (bytes : Nat) : (idleWorld bytes).roots = ∅ := rfl

theorem idleWorld_kernel (bytes : Nat) : (idleWorld bytes).kernel = 0 := rfl

theorem idleWorld_exact {bytes : Nat} (hb : 0 < bytes) (hsmall : 8 * bytes ≤ 2 ^ 40) :
    Exact onlyZero (idleWorld bytes) where
  accounted := by
    rw [idleWorld_roots, idleWorld_kernel]
    exact freshMemory_accounted hb hsmall
  low f := by
    unfold World.uses
    rw [idleWorld_roots, idleWorld_kernel]
    have hzero : (idleWorld bytes).mem.uses ∅ 0 f = 0 := freshMemory_uses bytes f
    rw [hzero]
    decide
  pids _ _ hp := nomatch hp
  apart _ _ _ hr := nomatch hr
  cow r hr := absurd hr (notMem_empty r)

def loneProc (cr3 kernelStack : Nat) : Proc where
  task :=
    { pid := 1
      cr3 := cr3
      kernelStack := kernelStack
      brkStart := 0
      brk := 0
      mmapNext := mmapBase }
  dead := false

/-- Process 1 has page `v` and a kernel stack. -/
def loneWorld (bytes v : Nat) : World :=
  let o := onePage bytes v
  (idleWorld bytes).spawn o.1.alloc.1 none (loneProc o.2 (o.1.alloc.2 / pageSize))

/-- The counts are right, and the page has one reference. -/
theorem loneWorld_spec (bytes v : Nat) (hb : 1 < bytes) (hsmall : 8 * bytes ≤ 2 ^ 40)
    (hv : v < userPages) : Exact onlyZero (loneWorld bytes v) ∧
      ∃ f, Sharing onlyZero (loneWorld bytes v) 1 v f 1 (8 * bytes - 7) := by
  have hb' : 0 < bytes := Nat.lt_of_succ_lt hb
  obtain ⟨f, hf, hacc, hleaf, hcard, -⟩ := onePage_spec hb' hsmall hv
  have hidle := idleWorld_exact hb' hsmall
  have howned := owned_single hf hleaf
  have hpages := presentPages_single hf hleaf hv
  have hcow := flags_single hf hleaf (show addrMask &&& pteCow = 0#64 by decide) (by decide)
  have hone := uses_le_one hacc howned
  unfold loneWorld
  generalize onePage bytes v = o at *
  obtain ⟨m, r⟩ := o
  dsimp only at *
  rcases hacc.alloc_frame with ⟨t, -, hphys, -, hfree, hacc', hrest⟩ | ⟨-, -, hempty⟩
  · rw [hphys, mul_pageSize_div]
    have hwords : m.alloc.1.words = m.words := rfl
    have hkernel : (idleWorld bytes).kernel + one none + Pi.single t 1 =
        (0 : Nat → Nat) + Pi.single t 1 := by
      rw [idleWorld_kernel, one_none, add_zero]
    have hinsert : insert r (idleWorld bytes).roots = {r} := by
      rw [idleWorld_roots, insert_empty_eq]
    obtain ⟨-, -, hunused⟩ := mem_freeFrames.mp hfree
    have huses : ∀ g, m.alloc.1.uses {r} (0 + Pi.single t 1) g =
        m.uses {r} 0 g + if g = t then 1 else 0 := by
      intro g
      rw [uses_single, uses_of_words hwords]
    have hlow : ∀ g, m.alloc.1.uses {r} (0 + Pi.single t 1) g ≤ 1 := by
      intro g
      rw [huses]
      split
      next hg => rw [hg, hunused]
      · rw [Nat.add_zero]
        exact hone g
    have hcr3 : (loneProc r t).task.cr3 = r := rfl
    have hstack : (loneProc r t).task.kernelStack = t := rfl
    have hdead : (loneProc r t).dead = false := rfl
    generalize loneProc r t = q at *
    have hexact : Exact onlyZero ((idleWorld bytes).spawn m.alloc.1 none q) := by
      refine hidle.spawn ?_ ?_ (fun g => ?_) fun r' hr' u hu hc => ?_
      · rw [idleWorld_roots]
        exact notMem_empty _
      · rw [hcr3, hstack, hinsert, hkernel]
        exact hacc'
      · rw [hcr3, hstack, hinsert, hkernel]
        exact Nat.lt_of_le_of_lt (hlow g) (by decide)
      · rw [hcr3, hinsert] at hr'
        rw [leaf_of_words hwords, mem_singleton.mp hr', hcow u hu] at hc
        cases hc
    refine ⟨hexact, f, hexact.accounted, hexact.pids, ⟨q, ?_, ?_, ?_⟩, ?_, ?_⟩
    · refine live_eq_some.mpr ⟨procs_spawn.trans (if_pos rfl), hdead⟩
    · rw [hcr3, ← hpages]
      ext u
      rw [mem_presentPages, mem_presentPages]
      exact and_congr_right fun _ => by rw [← leaf_of_words hwords]; rfl
    · rw [hcr3]
      exact (congrArg owned (leaf_of_words hwords r v)).trans ((howned v hv).trans (if_pos rfl))
    · unfold World.uses
      rw [roots_spawn, kernel_spawn, hcr3, hstack, hinsert, hkernel]
      have hpos : 0 < m.alloc.1.uses {r} (0 + Pi.single t 1) f :=
        uses_pos_of_leaf (mem_singleton_self r) hv
          ((congrArg owned (leaf_of_words hwords r v)).trans ((howned v hv).trans (if_pos rfl)))
      exact Nat.le_antisymm (hlow f) hpos
    · rw [roots_spawn, kernel_spawn, hcr3, hstack, hinsert, hkernel]
      have hless : (freeFrames m.alloc.1 onlyZero {r} (0 + Pi.single t 1)).card + 7 =
          8 * bytes := by
        rw [hrest, card_erase_of_mem hfree]
        have := card_pos.mpr ⟨t, hfree⟩
        omega
      have : 8 * bytes - 7 ≤ (freeFrames m.alloc.1 onlyZero {r} (0 + Pi.single t 1)).card := by
        omega
      exact this
  · rw [hempty, card_empty] at hcard
    omega

/-- 65535 forks of one process: its page has 65536 references and a count of zero. -/
theorem refcount_wraps : Exact onlyZero (loneWorld 65536 1) ∧
    ¬Counts onlyZero ((List.replicate 65535 (.fork 1 true)).foldl (World.step ⟨0, 0⟩)
      (loneWorld 65536 1)) := by
  obtain ⟨hexact, f, hshare⟩ :=
    loneWorld_spec 65536 1 (by decide) (by decide) (by decide)
  have hroom : Sharing onlyZero (loneWorld 65536 1) 1 1 f 1 (196606 + 5 * 65535) := hshare
  exact ⟨hexact, Sharing.not_counts hroom.forks⟩

/-- One fork fits. -/
theorem refcounts_exact_iff_forked : Exact onlyZero (loneWorld 2 1) ∧
    ∀ first, first <+: [.fork 1 true] →
      Counts onlyZero (first.foldl (World.step ⟨0, 0⟩) (loneWorld 2 1)) := by
  obtain ⟨hexact, f, hshare⟩ := loneWorld_spec 2 1 (by decide) (by decide) (by decide)
  have hrun : Along Fits (World.step ⟨0, 0⟩) (loneWorld 2 1) [.fork 1 true] := by
    refine ⟨fun p hp => ?_, trivial⟩
    have hfew : Sharing onlyZero (loneWorld 2 1) 1 1 f 1 (4 + 5) := hshare
    exact hfew.fits (by decide) hp
  refine ⟨hexact, (refcounts_exact_iff hexact fun a ha => ?_).mpr hrun⟩
  rw [List.mem_singleton.mp ha]
  exact trivial

end

end World

end Aeryk.Vm
