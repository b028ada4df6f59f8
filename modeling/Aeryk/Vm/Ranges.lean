import Aeryk.Vm.Filling
import Aeryk.Vm.Fork

/-!
# Ranges of pages in long runs

A long run of memory calls needs less than the exact outcome of each: that there are accounts of
the frames, with no count at its limit (`Sound`), and which pages may have changed (`Touched`).
Both add up over the turns of a loop and over calls.
-/

namespace Aeryk.Vm

open Function Lib Mem Mem.Pmm Memory

section

variable {m m' m'' : Memory} {res : Nat → Bool} {R : Finset Nat} {K K' : Nat → Nat}
  {r v va f n base phys : Nat} {flags w : Word} {S T : Set Nat} {P Q : Word → Prop}

/-! ## Counts that stay small -/

/-- The frames are accounted for, and no frame has as many holders as a count can hold. -/
def Sound (m : Memory) (res : Nat → Bool) (R : Finset Nat) : Prop :=
  ∃ K, Accounted m res R K ∧ ∀ f, m.uses R K f < 65536

def TablesStay (R : Finset Nat) (m m' : Memory) : Prop :=
  ∀ r ∈ R, ∀ d k t, TableKey d k → m.tab r d k = some t → m'.tab r d k = some t

theorem TablesStay.isTable (h : TablesStay R m m') (ht : IsTable m R f) : IsTable m' R f := by
  obtain ⟨r, hr, d, k, hk, htab⟩ := ht
  exact ⟨r, hr, d, k, hk, h r hr d k f hk htab⟩

/-- The holders of a frame that is no table are pages and the kernel, so one leaf entry makes the
difference. -/
theorem uses_of_leaf (K K' : Nat → Nat) (hstay : TablesStay R m m') (hr : r ∈ R)
    (hv : v < userPages) (hleaf : ∀ r' ∈ R, ∀ v' < userPages,
      m'.leaf r' v' = if r' = r ∧ v' = v then w else m.leaf r' v') (hf : ¬IsTable m' R f) :
    m'.uses R K' f + one (owned (m.leaf r v)) f + K f =
      m.uses R K f + one (owned w) f + K' f := by
  have hf' : ¬IsTable m R f := fun ht => hf (hstay.isTable ht)
  have hmem : (r, 3, v) ∈ R ×ˢ slots := Finset.mem_product.mpr ⟨hr, leaf_mem_slots.mpr hv⟩
  have hnot : ∀ {n : Memory}, ¬IsTable n R f → ∀ x ∈ R ×ˢ slots, x.2.1 < 3 →
      n.holds x ≠ some f := by
    rintro n hn ⟨r', d, k⟩ hx hd hheld
    obtain ⟨hr', hk⟩ := Finset.mem_product.mp hx
    exact hn ⟨r', hr', d + 1, k, tableKey_succ hk hd, (holds_of_lt hd).symm.trans hheld⟩
  have hrefs : refs m'.holds (R ×ˢ slots) f =
      refs (update m.holds (r, 3, v) (owned w)) (R ×ˢ slots) f := by
    refine refs_congr fun x => and_congr_right fun hx => ?_
    rcases Nat.lt_or_ge x.2.1 3 with hd | hd
    · rw [update_of_ne (fun hc => by rw [hc] at hd; exact Nat.lt_irrefl 3 hd)]
      exact iff_of_false (hnot hf x hx hd) (hnot hf' x hx hd)
    · obtain ⟨r', d, u⟩ := x
      obtain ⟨hr', hk⟩ := Finset.mem_product.mp hx
      obtain rfl : d = 3 := Nat.le_antisymm (mem_slots.mp hk).1 hd
      rw [holds_leaf, hleaf r' hr' u (leaf_mem_slots.mp hk)]
      by_cases hc : r' = r ∧ u = v
      · obtain ⟨rfl, rfl⟩ := hc
        rw [if_pos ⟨rfl, rfl⟩, update_self]
      · rw [if_neg hc, update_of_ne, holds_leaf]
        rintro heq
        simp only [Prod.mk.injEq, true_and] at heq
        exact hc heq
  have hupdate := refs_update m.holds f hmem (owned w)
  rw [holds_leaf] at hupdate
  unfold Memory.uses one
  omega

/-- Where no leaf entry changes, the holders change with the kernel's. -/
theorem uses_of_same (K K' : Nat → Nat) (hstay : TablesStay R m m') (hr : r ∈ R)
    (hleaf : ∀ r' ∈ R, ∀ v' < userPages, m'.leaf r' v' = m.leaf r' v') (hf : ¬IsTable m' R f) :
    m'.uses R K' f + K f = m.uses R K f + K' f := by
  have hzero : 0 < userPages := by decide
  have hsame : ∀ r' ∈ R, ∀ v' < userPages,
      m'.leaf r' v' = if r' = r ∧ v' = 0 then m.leaf r 0 else m.leaf r' v' := by
    intro r' hr' v' hv'
    rw [hleaf r' hr' v' hv']
    split
    next h => rw [h.1, h.2]
    · rfl
  have := uses_of_leaf K K' hstay hr hzero hsame hf
  omega

/-- A table has one holder, so only the other frames need a bound. -/
theorem Sound.of_pages (h : Accounted m res R K)
    (hlt : ∀ f, ¬IsTable m R f → m.uses R K f < 65536) : Sound m res R := by
  refine ⟨K, h, fun f => ?_⟩
  by_cases hf : IsTable m R f
  · rw [h.uses_table hf]
    decide
  · exact hlt f hf

/-- A frame that was free is given to the kernel. -/
theorem Sound.take (h : Accounted m' res R (K + Pi.single f 1))
    (hlt : ∀ g, m'.uses R K g < 65536) (hfree : m'.uses R K f = 0) : Sound m' res R := by
  refine ⟨_, h, fun g => ?_⟩
  have := hlt g
  rw [uses_single]
  split
  next hg =>
    rw [hg, hfree]
    decide
  · omega

/-! ## Pages that may have changed -/

/-- Only pages `S` of the address space `r` have new entries, and those are as `P` says. -/
def Touched (R : Finset Nat) (m m' : Memory) (r : Nat) (S : Set Nat) (P : Word → Prop) : Prop :=
  ∀ r' ∈ R, ∀ v < userPages,
    m'.leaf r' v = m.leaf r' v ∨ (r' = r ∧ v ∈ S ∧ P (m'.leaf r' v))

theorem Touched.refl : Touched R m m r S P := fun _ _ _ _ => .inl rfl

theorem Touched.trans (h : Touched R m m' r S P) (h' : Touched R m' m'' r S P) :
    Touched R m m'' r S P := by
  intro r' hr' v hv
  rcases h' r' hr' v hv with heq | hnew
  · rw [heq]
    exact h r' hr' v hv
  · exact .inr hnew

theorem Touched.mono (h : Touched R m m' r S P) (hS : S ⊆ T) (hP : ∀ w, P w → Q w) :
    Touched R m m' r T Q := by
  intro r' hr' v hv
  rcases h r' hr' v hv with heq | ⟨hr, hmem, hp⟩
  · exact .inl heq
  · exact .inr ⟨hr, hS hmem, hP _ hp⟩

theorem Touched.of_words (h : m'.words = m.words) : Touched R m m' r S P := by
  intro r' _ v _
  exact .inl (leaf_of_words h r' v)

/-- The entry of one page has been replaced. -/
theorem Touched.single (hleaf : ∀ r' ∈ R, ∀ v' < userPages,
      m'.leaf r' v' = if r' = r ∧ v' = v then w else m.leaf r' v') (hv : v ∈ S) (hw : P w) :
    Touched R m m' r S P := by
  intro r' hr' v' hv'
  rw [hleaf r' hr' v' hv']
  split
  next hc =>
    obtain ⟨rfl, rfl⟩ := hc
    exact .inr ⟨rfl, hv, hw⟩
  · exact .inl rfl

/-! ## Loops that add pages -/

theorem Mapped.stay (h : Mapped res R K m m' r v w) : TablesStay R m m' := h.walked.grown.tab

theorem owned_of_nopmm (h : isSet flags pteNopmm = true) : owned (entry phys flags) = none := by
  unfold owned entry
  rw [isSet_or, isSet_or, h, Bool.or_true, Bool.not_true, Bool.and_false]
  rfl

/-- `vmm_map_page` with a page that is not the allocator's. -/
theorem Sound.mapPage (h : Sound m res R) (phys : Nat) (hr : r ∈ R) (hv : pageOf va < userPages)
    (hflags : isSet flags pteNopmm = true) :
    Sound (m.mapPage r va phys flags) res R ∧
      Touched R m (m.mapPage r va phys flags) r {pageOf va} (· = entry phys flags) := by
  obtain ⟨K, hacc, hlt⟩ := h
  have hnone : one (owned (entry phys flags)) = 0 := by
    rw [owned_of_nopmm hflags, one_none]
  have hstart : Accounted m res R (K + one (owned (entry phys flags))) := by
    rw [hnone, add_zero]
    exact hacc
  rcases hstart.mapPage hr hv with hm | hm
  · refine ⟨Sound.of_pages hm.accounted fun f hf => ?_,
      Touched.single hm.leaf (Set.mem_singleton _) rfl⟩
    have huses := uses_of_leaf K (K + one (owned (m.leaf r (pageOf va)))) hm.stay hr
      hv hm.leaf hf
    have := hlt f
    rw [hnone, Pi.add_apply, Pi.zero_apply] at huses
    omega
  · refine ⟨Sound.of_pages hm.accounted fun f hf => ?_, fun r' hr' v' hv' =>
      .inl (hm.leaf r' hr' v' hv')⟩
    have huses := uses_of_same K (K + one (owned (entry phys flags)))
      hm.walked.grown.tab hr hm.leaf hf
    have := hlt f
    rw [hnone, Pi.add_apply, Pi.zero_apply] at huses
    rw [hnone]
    omega

/-- One new page of a loop. -/
theorem Sound.mapNewPage (h : Sound m res R) (hr : r ∈ R) (hv : pageOf va < userPages)
    (hflags : PageFlags flags) :
    Sound (m.mapNewPage r va flags).1 res R ∧
      Touched R m (m.mapNewPage r va flags).1 r {pageOf va}
        fun w => ∃ f < 2 ^ 40, w = entry (f * pageSize) flags := by
  obtain ⟨K, hacc, hlt⟩ := h
  rw [mapNewPage_eq]
  rcases hacc.mapFilledPage hr hv hflags fun _ => 0#64 with ⟨m', f, heq, ht, -, hleaf⟩ |
    ⟨m', f, heq, ht, -, hleaf, -⟩ | ⟨heq, -⟩
  · obtain ⟨hp, -, hunused⟩ := mem_freeFrames.mp ht.free
    have hsmall := Nat.lt_of_lt_of_le hp hacc.small
    rw [heq]
    dsimp only
    refine ⟨Sound.of_pages ht.accounted fun g hg => ?_,
      Touched.single hleaf (Set.mem_singleton _) ⟨f, hsmall, rfl⟩⟩
    have huses := uses_of_leaf K (K + one (owned (m.leaf r (pageOf va))))
      ht.grown.tab hr hv hleaf hg
    have := hlt g
    rw [hflags.owned_entry hsmall, one_some, Pi.single_apply, Pi.add_apply] at huses
    split at huses
    next heqf =>
      rw [heqf] at huses ⊢
      omega
    · omega
  · obtain ⟨hp, -, hunused⟩ := mem_freeFrames.mp ht.free
    rw [heq]
    dsimp only
    refine ⟨Sound.of_pages ht.accounted fun g hg => ?_, fun r' hr' v' hv' =>
      .inl (hleaf r' hr' v' hv')⟩
    have huses := uses_of_same K (K + Pi.single f 1) ht.grown.tab hr hleaf hg
    have := hlt g
    rw [Pi.add_apply, Pi.single_apply] at huses
    split at huses
    next heqf =>
      rw [heqf] at huses ⊢
      omega
    · omega
  · rw [heq]
    exact ⟨⟨K, hacc.of_nulls _, hlt⟩, Touched.of_words rfl⟩

def pageRange (base n : Nat) : Set Nat := Set.Ico (base / pageSize) (base / pageSize + n)

theorem pageOf_mem_pageRange {i : Nat} (hi : i < n) (hroom : base / pageSize + n ≤ userPages) :
    pageOf ((base + i * pageSize) % 2 ^ 64) < userPages ∧
      pageOf ((base + i * pageSize) % 2 ^ 64) ∈ pageRange base n := by
  rw [pageOf_range base i (by omega)]
  exact ⟨by omega, Set.mem_Ico.mpr ⟨Nat.le_add_right _ _, by omega⟩⟩

/-- The loop of `SYS_mmap` and `SYS_brk`, from any turn on. -/
theorem Sound.mapPages_from {i : Nat} (h : Sound m res R) (hr : r ∈ R)
    (hroom : base / pageSize + (i + n) ≤ userPages) (hflags : PageFlags flags) :
    Sound (mapPages r base flags n i m).1 res R ∧
      Touched R m (mapPages r base flags n i m).1 r (pageRange base (i + n))
        fun w => ∃ f < 2 ^ 40, w = entry (f * pageSize) flags := by
  induction n generalizing i m with
  | zero => exact ⟨h, Touched.refl⟩
  | succ n ih =>
    unfold Vm.mapPages
    obtain ⟨hv, hmem⟩ := pageOf_mem_pageRange (i := i) (by omega) hroom
    obtain ⟨hsound, htouched⟩ := h.mapNewPage hr hv hflags
    have hfirst := htouched.mono (Set.singleton_subset_iff.mpr hmem) fun _ hw => hw
    generalize m.mapNewPage r ((base + i * pageSize) % 2 ^ 64) flags = o at *
    obtain ⟨m₁, answer⟩ := o
    cases answer with
    | false => exact ⟨hsound, hfirst⟩
    | true =>
      have heq : i + 1 + n = i + (n + 1) := by omega
      obtain ⟨hsound', hrest⟩ := ih (i := i + 1) hsound (by rw [heq]; exact hroom)
      rw [heq] at hrest
      exact ⟨hsound', hfirst.trans hrest⟩

theorem Sound.mapPages (h : Sound m res R) (hr : r ∈ R)
    (hroom : base / pageSize + n ≤ userPages) (hflags : PageFlags flags) :
    Sound (mapPages r base flags n 0 m).1 res R ∧
      Touched R m (mapPages r base flags n 0 m).1 r (pageRange base n)
        fun w => ∃ f < 2 ^ 40, w = entry (f * pageSize) flags := by
  have := h.mapPages_from (i := 0) hr (by rw [Nat.zero_add]; exact hroom) hflags
  rw [Nat.zero_add] at this
  exact this

/-- A loop over a range whose body touches the page of its turn. -/
theorem Sound.foldl_range {body : Memory → Nat → Memory} (n : Nat)
    (hbody : ∀ i < n, ∀ m, Sound m res R → Sound (body m i) res R ∧ Touched R m (body m i) r S P)
    (h : Sound m res R) :
    Sound ((List.range n).foldl body m) res R ∧
      Touched R m ((List.range n).foldl body m) r S P := by
  induction n with
  | zero => exact ⟨h, Touched.refl⟩
  | succ n ih =>
    rw [List.range_succ, List.foldl_append]
    obtain ⟨hsound, htouched⟩ := ih fun i hi => hbody i (Nat.lt_succ_of_lt hi)
    obtain ⟨hsound', hlast⟩ := hbody n (Nat.lt_succ_self n) _ hsound
    exact ⟨hsound', htouched.trans hlast⟩

theorem fbFlags_nopmm : isSet fbFlags pteNopmm = true := by decide

/-- The loop of `SYS_fbmap`. -/
theorem Sound.mapFramebuffer (h : Sound m res R) (hr : r ∈ R)
    (hroom : base / pageSize + n ≤ userPages) (phys : Nat) :
    Sound (mapFramebuffer m r base phys n) res R ∧
      Touched R m (mapFramebuffer m r base phys n) r (pageRange base n) fun _ => True := by
  refine Sound.foldl_range n (fun i hi m hm => ?_) h
  obtain ⟨hv, hmem⟩ := pageOf_mem_pageRange (i := i) hi hroom
  obtain ⟨hsound, htouched⟩ := hm.mapPage ((phys + i * pageSize) % 2 ^ 64) hr hv
    fbFlags_nopmm
  exact ⟨hsound, htouched.mono (Set.singleton_subset_iff.mpr hmem) fun _ _ => trivial⟩

/-! ## The loop that removes pages -/

theorem Accounted.unmapPage_stay (h : Accounted m res R K) (hr : r ∈ R)
    (hv : pageOf va < userPages) : TablesStay R m (m.unmapPage r va) := by
  obtain ⟨hi₀, -⟩ := index_pageOf va
  unfold Memory.unmapPage
  rw [walk_eq, hi₀]
  intro r' hr' d k t hk htab
  cases ht : m.tab r 3 (pageOf va / 512) with
  | none => exact htab
  | some pt =>
    have hset := h.tab_setLeaf hr hv ht (w := 0#64) hr' hk
    dsimp only
    split
    · exact htab
    · split
      · exact hset.trans htab
      · exact hset.trans htab

/-- `vmm_unmap_page` in the user half. -/
theorem Sound.unmapPage (h : Sound m res R) (hr : r ∈ R) (hv : pageOf va < userPages) :
    Sound (m.unmapPage r va) res R ∧
      Touched R m (m.unmapPage r va) r {pageOf va} (isSet · ptePresent = false) := by
  obtain ⟨K, hacc, hlt⟩ := h
  obtain ⟨hacc', hleaf⟩ := hacc.unmapPage hr hv fun f _ => hlt f
  refine ⟨Sound.of_pages hacc' fun f hf => ?_, Touched.single hleaf (Set.mem_singleton _) ?_⟩
  · have huses := uses_of_leaf K K (hacc.unmapPage_stay hr hv) hr hv hleaf hf
    have := hlt f
    have hle : one (owned (unmapped (m.leaf r (pageOf va)))) f ≤
        one (owned (m.leaf r (pageOf va))) f := by
      unfold unmapped
      split
      · rw [owned_zero, one_none]
        exact Nat.zero_le _
      · exact Nat.le_refl _
    omega
  · unfold unmapped
    split
    · exact isSet_zero _
    next hp => exact Bool.not_eq_true _ ▸ hp

/-- The loop of `SYS_munmap`. -/
theorem Sound.unmapPages (h : Sound m res R) (hr : r ∈ R)
    (hroom : base / pageSize + n ≤ userPages) :
    Sound (unmapPages m r base n) res R ∧
      Touched R m (unmapPages m r base n) r (pageRange base n) (isSet · ptePresent = false) := by
  refine Sound.foldl_range n (fun i hi m hm => ?_) h
  obtain ⟨hv, hmem⟩ := pageOf_mem_pageRange (i := i) hi hroom
  obtain ⟨hsound, htouched⟩ := hm.unmapPage hr hv
  exact ⟨hsound, htouched.mono (Set.singleton_subset_iff.mpr hmem) fun _ hw => hw⟩

/-! ## Pages of the kernel -/

/-- `pmm_alloc_page` for the kernel. -/
theorem Sound.alloc (h : Sound m res R) : Sound m.alloc.1 res R := by
  obtain ⟨K, hacc, hlt⟩ := h
  rcases hacc.alloc_frame with ⟨f, -, -, -, hf, hacc', -⟩ | ⟨-, hfail, -⟩
  · exact Sound.take hacc' hlt (mem_freeFrames.mp hf).2.2
  · rw [hfail]
    exact ⟨K, hacc.of_nulls _, hlt⟩

end

end Aeryk.Vm
