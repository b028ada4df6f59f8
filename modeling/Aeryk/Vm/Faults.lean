import Aeryk.Vm.Mapping

/-!
# Unmapping and copy-on-write faults

`vmm_unmap_page` and `vmm_handle_cow_fault` walk to a page table that is there and change one leaf
entry.  The first gives up the frame of the entry.  The second makes the entry writable: it keeps
the frame if nobody else holds it, and otherwise takes a copy and gives up its share.  Dropping a
reference is right as long as the count has not wrapped around.
-/

namespace Aeryk.Vm

open Lib Mem Mem.Pmm Memory

section

variable {m m' : Memory} {res : Nat → Bool} {R : Finset Nat} {K : Nat → Nat}
  {r r' d k t f v va : Nat} {w : Word}

theorem walk_eq (m : Memory) (r va : Nat) : m.walk r va = m.tab r 3 (pageOf va / 512) := by
  obtain ⟨-, hi₁, hi₂, hi₃⟩ := index_pageOf va
  unfold Memory.walk
  rw [hi₁, hi₂, hi₃]
  simp only [Memory.tab, Radix.tab, Option.bind_some, Option.bind_assoc]

theorem leaf_of_tab (ht : m.tab r 3 (v / 512) = some t) : m.leaf r v = m.words t (v % 512) := by
  unfold leaf
  rw [word_of_tab ht]
  rfl

theorem leaf_of_none (ht : m.tab r 3 (v / 512) = none) : m.leaf r v = 0#64 := by
  unfold leaf Memory.word Radix.word
  unfold Memory.tab at ht
  rw [ht]
  rfl

theorem one_owned (w : Word) (hp : isSet w ptePresent = true) (hn : isSet w pteNopmm = false) :
    one (owned w) = Pi.single (frameOf w) 1 := by
  rw [owned_eq_some.mpr ⟨⟨hp, hn⟩, rfl⟩, one_some]

/-- The holders of a frame that an entry maps. -/
theorem uses_pos_of_leaf (hr : r ∈ R) (hv : v < userPages) (hf : owned (m.leaf r v) = some f) :
    0 < m.uses R K f := by
  have hpos : 0 < refs m.holds (R ×ˢ slots) f :=
    refs_pos.mpr ⟨(r, 3, v), Finset.mem_product.mpr ⟨hr, leaf_mem_slots.mpr hv⟩,
      holds_leaf.trans hf⟩
  unfold uses
  omega

/-! ## `vmm_unmap_page` -/

/-- The leaf entry that `vmm_unmap_page` leaves behind. -/
def unmapped (w : Word) : Word := if isSet w ptePresent then 0#64 else w

theorem leaf_eq_unmapped (hp : isSet (m.leaf r v) ptePresent = false) (r' v' : Nat) :
    m.leaf r' v' = if r' = r ∧ v' = v then unmapped (m.leaf r v) else m.leaf r' v' := by
  split
  next heq =>
    obtain ⟨rfl, rfl⟩ := heq
    rw [unmapped, hp, if_neg Bool.false_ne_true]
  · rfl

/-- `vmm_unmap_page` on a page of the user half. -/
theorem Accounted.unmapPage (h : Accounted m res R K) (hr : r ∈ R) (hv : pageOf va < userPages)
    (hlt : ∀ f, owned (m.leaf r (pageOf va)) = some f → m.uses R K f < 65536) :
    Accounted (m.unmapPage r va) res R K ∧
      ∀ r' ∈ R, ∀ v' < userPages, (m.unmapPage r va).leaf r' v' =
        if r' = r ∧ v' = pageOf va then unmapped (m.leaf r (pageOf va)) else m.leaf r' v' := by
  obtain ⟨hi₀, -⟩ := index_pageOf va
  unfold Memory.unmapPage
  rw [walk_eq, hi₀]
  generalize pageOf va = v at *
  cases ht : m.tab r 3 (v / 512) with
  | none =>
    have hp : isSet (m.leaf r v) ptePresent = false := by
      rw [leaf_of_none ht]
      exact isSet_zero _
    exact ⟨h, fun r' _ v' _ => leaf_eq_unmapped hp r' v'⟩
  | some t =>
    have hleaf := leaf_of_tab ht
    dsimp only
    rw [← hleaf]
    cases hp : isSet (m.leaf r v) ptePresent with
    | false =>
      rw [if_pos rfl]
      exact ⟨h, fun r' _ v' _ => leaf_eq_unmapped hp r' v'⟩
    | true =>
      rw [if_neg (by decide)]
      have hacc : Accounted m res R (K + one (owned 0#64)) := by
        rw [owned_zero, one_none, add_zero]
        exact h
      have hset := hacc.setLeaf hr hv ht
      have hleaves : ∀ r' ∈ R, ∀ v' < userPages, (m.set t (v % 512) 0#64).leaf r' v' =
          if r' = r ∧ v' = v then unmapped (m.leaf r v) else m.leaf r' v' := by
        intro r' hr' v' hv'
        rw [h.leaf_setLeaf hr hv ht hr' hv', unmapped, hp, if_pos rfl]
      cases hn : isSet (m.leaf r v) pteNopmm with
      | true =>
        have hnone : owned (m.leaf r v) = none := by
          rw [owned, hp, hn]
          rfl
        rw [hnone, one_none, add_zero] at hset
        exact ⟨hset, hleaves⟩
      | false =>
        have huses := hacc.uses_setLeaf hr hv ht (w := 0#64) K
        rw [one_owned _ hp hn, owned_zero, one_none, add_zero] at huses
        rw [one_owned _ hp hn] at hset
        have hcount := hlt _ (owned_eq_some.mpr ⟨⟨hp, hn⟩, rfl⟩)
        rw [← huses, uses_single, if_pos rfl] at hcount
        rw [if_neg Bool.false_ne_true, physOf_eq]
        exact ⟨hset.free (Nat.lt_of_succ_lt_succ hcount), hleaves⟩

/-! ## `vmm_handle_cow_fault` -/

/-- The flags of an entry after a copy-on-write fault. -/
def reclaimFlags (w : Word) : Word := w &&& flagsMask &&& ~~~pteCow ||| pteWritable

theorem flags_addr (w mask : Word) : w &&& flagsMask &&& mask &&& addrMask = 0#64 := by
  have hzero : flagsMask &&& mask &&& addrMask = 0#64 := by
    rw [BitVec.and_assoc, BitVec.and_comm mask, ← BitVec.and_assoc]
    have : flagsMask &&& addrMask = 0#64 := by decide
    rw [this, BitVec.zero_and]
  rw [BitVec.and_assoc, BitVec.and_assoc, ← BitVec.and_assoc flagsMask, hzero, BitVec.and_zero]

theorem reclaimFlags_addr (w : Word) : reclaimFlags w &&& addrMask = 0#64 := by
  have hor : (w &&& flagsMask &&& ~~~pteCow ||| pteWritable) &&& addrMask =
      (w &&& flagsMask &&& ~~~pteCow &&& addrMask) ||| (pteWritable &&& addrMask) := by
    ext i
    simp only [BitVec.getElem_and, BitVec.getElem_or, Bool.and_or_distrib_right]
  rw [reclaimFlags, hor, flags_addr]
  decide

theorem isSet_reclaimFlags {flag : Word} (hf : flagsMask &&& flag = flag)
    (hc : ~~~pteCow &&& flag = flag) :
    isSet (reclaimFlags w) flag = (isSet w flag || isSet pteWritable flag) := by
  rw [reclaimFlags, isSet_or, isSet_and _ _ _ hc, isSet_and _ _ _ hf]

theorem isSet_reclaimFlags_cow : isSet (reclaimFlags w) pteCow = false := by
  rw [reclaimFlags, isSet_or, isSet_and_zero _ _ _ (by decide)]
  decide

theorem owned_reclaim (hf : f < 2 ^ 40) (hp : isSet w ptePresent = true)
    (hn : isSet w pteNopmm = false) : owned (entry (f * pageSize) (reclaimFlags w)) = some f := by
  rw [owned_eq_some, isSet_entry hf (by decide), isSet_entry hf (by decide),
    frameOf_entry hf (reclaimFlags_addr w), isSet_reclaimFlags (by decide) (by decide),
    isSet_reclaimFlags (by decide) (by decide), hp, hn]
  exact ⟨⟨rfl, by decide⟩, rfl⟩

/-- `vmm_handle_cow_fault` has made page `v` writable, and its frame is now `f`. -/
structure Reclaimed (res : Nat → Bool) (R : Finset Nat) (K : Nat → Nat) (m m' : Memory)
    (r v f : Nat) : Prop where
  leaf : ∀ r' ∈ R, ∀ v' < userPages, m'.leaf r' v' =
    if r' = r ∧ v' = v then entry (f * pageSize) (reclaimFlags (m.leaf r v)) else m.leaf r' v'
  small : f < 2 ^ 40
  contents : m'.words f = m.words (frameOf (m.leaf r v))
  page : ∀ g, Kept m res R K g → m'.words g = m.words g
  alone : m'.uses R K f = 1
  fewer : ∀ g, g ≠ f → m'.uses R K g ≤ m.uses R K g
  accounted : Accounted m' res R K

section

variable (h : Accounted m res R K) (hr : r ∈ R) (hv : v < userPages)
  (ht : m.tab r 3 (v / 512) = some t) (hp : isSet (m.leaf r v) ptePresent = true)
  (hn : isSet (m.leaf r v) pteNopmm = false)

include h hr hv ht hp hn

/-- Nobody else holds the frame. -/
theorem Accounted.reclaim_alone (hone : m.uses R K (frameOf (m.leaf r v)) = 1) :
    Reclaimed res R K m (m.set t (v % 512)
      (entry (frameOf (m.leaf r v) * pageSize) (reclaimFlags (m.leaf r v)))) r v
      (frameOf (m.leaf r v)) := by
  have hsmall := frameOf_lt (m.leaf r v)
  have hold : owned (m.leaf r v) = some (frameOf (m.leaf r v)) :=
    owned_eq_some.mpr ⟨⟨hp, hn⟩, rfl⟩
  have hnew := owned_reclaim hsmall hp hn
  generalize hw : entry (frameOf (m.leaf r v) * pageSize) (reclaimFlags (m.leaf r v)) = w at hnew
  have huses := h.uses_setFlags hr hv ht (hnew.trans hold.symm)
  have hkeep : ∀ g, ¬IsTable m R g → (m.set t (v % 512) w).words g = m.words g := by
    intro g hg
    refine Radix.store_table ?_
    rintro rfl
    exact hg ⟨r, hr, 3, v / 512, tableKey_of_slot (leaf_mem_slots.mpr hv), ht⟩
  refine ⟨?_, hsmall, hkeep _ (h.not_table_of_leaf hr hv hold), fun g hg => hkeep g hg.1, ?_, ?_,
    h.setLeaf_of_uses hr hv ht huses⟩
  · intro r' hr' v' hv'
    rw [hw]
    exact h.leaf_setLeaf hr hv ht hr' hv'
  · rw [huses, hone]
  · intro g _
    rw [huses]

/-- The page is copied to a new frame. -/
theorem Accounted.reclaim_copy (hlt : m.uses R K (frameOf (m.leaf r v)) < 65536)
    (hu : m.uses R K f = 0) (hf : f < m.pmm.pages ∧ res f = false)
    (hacc : Accounted m.alloc.1 res R (K + Pi.single f 1)) :
    Reclaimed res R K m (((m.alloc.1.setPage f (m.words (frameOf (m.leaf r v)))).set t (v % 512)
      (entry (f * pageSize) (reclaimFlags (m.leaf r v)))).free
        (frameOf (m.leaf r v) * pageSize)) r v f := by
  have hsmall : f < 2 ^ 40 := Nat.lt_of_lt_of_le hf.1 h.small
  have hold : owned (m.leaf r v) = some (frameOf (m.leaf r v)) :=
    owned_eq_some.mpr ⟨⟨hp, hn⟩, rfl⟩
  have hne : f ≠ frameOf (m.leaf r v) := by
    intro hc
    have hpos := uses_pos_of_leaf (K := K) hr hv hold
    rw [← hc, hu] at hpos
    exact Nat.lt_irrefl 0 hpos
  have hnew := owned_reclaim hsmall hp hn
  obtain ⟨hsame, hgrown⟩ := grown_alloc_setPage h hu hf hacc (m.words (frameOf (m.leaf r v)))
  have hcopy := setPage_same m.alloc.1 f (m.words (frameOf (m.leaf r v)))
  have h₁ : Accounted (m.alloc.1.setPage f (m.words (frameOf (m.leaf r v)))) res R
      (K + Pi.single f 1) := hacc.sameTables hsame rfl
  have hleaf₁ : ∀ r' ∈ R, ∀ v' < userPages, _ := fun r' hr' v' hv' =>
    hsame.leaf (r := r') (v := v') hr' hv'
  generalize (m.alloc.1.setPage f (m.words (frameOf (m.leaf r v)))) = m₁ at *
  have ht₁ : m₁.tab r 3 (v / 512) = some t :=
    (hsame.tab hr (tableKey_of_slot (leaf_mem_slots.mpr hv))).trans ht
  generalize hw : entry (f * pageSize) (reclaimFlags (m.leaf r v)) = w at hnew
  have hone : (one (owned w)) = Pi.single f 1 := by rw [hnew, one_some]
  have h₁' : Accounted m₁ res R (K + one (owned w)) := by
    rw [hone]
    exact h₁
  have h₂ := h₁'.setLeaf hr hv ht₁
  have huses := h₁'.uses_setLeaf hr hv ht₁ (w := w) K
  rw [hleaf₁ r hr v hv, hold, one_some] at h₂ huses
  rw [hone, hsame.uses] at huses
  -- the new frame has gained the holder that the old one has lost
  have hmove : ∀ g, (m₁.set t (v % 512) w).uses R K g +
      (if g = frameOf (m.leaf r v) then 1 else 0) =
        m.uses R K g + if g = f then 1 else 0 := by
    intro g
    rw [← uses_single, ← uses_single, huses]
  have hdrop : (m₁.set t (v % 512) w).uses R K (frameOf (m.leaf r v)) < 65535 := by
    have hg := hmove (frameOf (m.leaf r v))
    rw [if_pos rfl, if_neg hne.symm] at hg
    omega
  have hkeep : ∀ g, ¬IsTable m R g → (m₁.set t (v % 512) w).words g = m₁.words g := by
    intro g hg
    refine Radix.store_table ?_
    rintro rfl
    exact hg ⟨r, hr, 3, v / 512, tableKey_of_slot (leaf_mem_slots.mpr hv), ht⟩
  refine ⟨?_, hsmall, ?_, ?_, ?_, ?_, h₂.free hdrop⟩
  · intro r' hr' v' hv'
    rw [hw, ← hleaf₁ r' hr' v' hv']
    exact h₁.leaf_setLeaf hr hv ht₁ hr' hv'
  · exact (hkeep f (h.not_table_of_unused hu)).trans hcopy
  · intro g hg
    exact (hkeep g hg.1).trans (hgrown.page g hg).1
  · have hg := hmove f
    rw [if_neg hne, if_pos rfl, hu] at hg
    exact hg
  · intro g hg
    have hg' := hmove g
    rw [if_neg hg] at hg'
    exact Nat.le.intro hg'

end

/-- The stored count of a frame that has not wrapped around. -/
theorem Accounted.refcount_eq (h : Accounted m res R K) (hpos : 0 < m.uses R K f)
    (hlt : m.uses R K f < 65536) : m.pmm.pmmPageRefcount (f * pageSize) = m.uses R K f := by
  obtain ⟨hp, hres⟩ := h.range f hpos
  rw [Pmm.pmmPageRefcount, mul_pageSize_div, h.follows.count f hp hres hpos]
  exact Nat.mod_eq_of_lt hlt

/-- `vmm_handle_cow_fault` on a copy-on-write page whose count has not wrapped around. -/
theorem Accounted.handleCowFault (h : Accounted m res R K) (hr : r ∈ R)
    (hv : pageOf va < userPages) (hp : isSet (m.leaf r (pageOf va)) ptePresent = true)
    (hc : isSet (m.leaf r (pageOf va)) pteCow = true)
    (hn : isSet (m.leaf r (pageOf va)) pteNopmm = false)
    (hlt : m.uses R K (frameOf (m.leaf r (pageOf va))) < 65536) :
    (∃ m' f, m.handleCowFault r va = (m', true) ∧ Reclaimed res R K m m' r (pageOf va) f) ∨
      m.handleCowFault r va = ({ m with nulls := m.nulls + 1 }, false) := by
  obtain ⟨hi₀, -⟩ := index_pageOf va
  unfold Memory.handleCowFault
  rw [walk_eq, hi₀]
  generalize pageOf va = v at *
  cases ht : m.tab r 3 (v / 512) with
  | none =>
    rw [leaf_of_none ht, isSet_zero] at hp
    cases hp
  | some t =>
    have hpos := uses_pos_of_leaf (K := K) hr hv (owned_eq_some.mpr ⟨⟨hp, hn⟩, rfl⟩)
    dsimp only
    rw [← leaf_of_tab ht, hp, hc, if_neg (by decide), physOf_eq, h.refcount_eq hpos hlt]
    split
    next hone => exact .inl ⟨_, _, rfl, h.reclaim_alone hr hv ht hp hn hone⟩
    · rcases h.alloc with ⟨f, hfpos, hphys, -, hu, hf, hacc⟩ | ⟨hphys, hfail, -⟩
      · have hne : f * pageSize ≠ 0 := Nat.ne_of_gt (Nat.mul_pos hfpos (by decide))
        unfold Memory.copyPage
        rw [hphys, if_neg hne, mul_pageSize_div, mul_pageSize_div]
        exact .inl ⟨_, f, rfl, h.reclaim_copy hr hv ht hp hn hlt hu hf hacc⟩
      · rw [if_pos hphys, hfail]
        exact .inr rfl

/-- A page that is not copy-on-write is left alone. -/
theorem handleCowFault_refused (hrefuse : isSet (m.leaf r (pageOf va)) ptePresent = false ∨
    isSet (m.leaf r (pageOf va)) pteCow = false) : m.handleCowFault r va = (m, false) := by
  obtain ⟨hi₀, -⟩ := index_pageOf va
  unfold Memory.handleCowFault
  rw [walk_eq, hi₀]
  generalize pageOf va = v at *
  cases ht : m.tab r 3 (v / 512) with
  | none => rfl
  | some t =>
    dsimp only
    rw [← leaf_of_tab ht, if_pos hrefuse]

end

end Aeryk.Vm
