import Aeryk.Vm.Accounts

/-!
# Moving references

What each kind of step does to the accounts.  The three calls of the allocator change what the
kernel holds.  A store to a leaf entry passes the frame of the new entry from the kernel to the
entry and the frame of the old one back.  A store that adds a table passes on its frame.  A `pml4`
joins and leaves the set of roots.
-/

namespace Aeryk.Vm

open Function Lib Mem Mem.Pmm Memory

section

variable {m m' : Memory} {res : Nat → Bool} {R : Finset Nat} {K : Nat → Nat}
  {r r' d d' k k' t f v : Nat} {w : Word}

def one (o : Option Nat) (f : Nat) : Nat := if o = some f then 1 else 0

theorem one_some (f : Nat) : one (some f) = Pi.single f 1 := by
  funext g
  rw [Pi.single_apply, one]
  simp only [Option.some.injEq, eq_comm]

theorem one_none : one none = 0 := by
  funext g
  exact if_neg nofun

/-! ## Calls of the allocator -/

theorem put_uses (n : Nat) (K' : Nat → Nat) (hn : m.uses R K' f = n)
    (hrest : ∀ g, g ≠ f → m.uses R K' g = m.uses R K g) :
    Ledger.put ⟨res, m.uses R K⟩ f n = ⟨res, m.uses R K'⟩ := by
  unfold Ledger.put
  congr 1
  funext g
  by_cases hg : g = f
  · rw [hg, update_self, hn]
  · rw [update_of_ne hg, hrest g hg]

/-- `pmm_alloc_page` gives the kernel a frame that nobody holds, or there is none. -/
theorem Accounted.alloc (h : Accounted m res R K) :
    (∃ f, 0 < f ∧ m.alloc.2 = f * pageSize ∧ m.alloc.1.nulls = m.nulls ∧ m.uses R K f = 0 ∧
        (f < m.pmm.pages ∧ res f = false) ∧
        Accounted m.alloc.1 res R (K + Pi.single f 1)) ∨
      (m.alloc.2 = 0 ∧ m.alloc.1 = { m with nulls := m.nulls + 1 } ∧
        ∀ f < m.pmm.pages, res f = false → 0 < m.uses R K f) := by
  rcases h.follows.allocPage_eq with ⟨f, hp, heq, hfree, hmin⟩ | ⟨heq, hnone⟩
  · have hpos := h.follows.pos_of_free hfree
    have hzero : m.uses R K f = 0 := hfree.2
    have hres : res f = false := hfree.1
    have hne : m.pmm.pmmAllocPage.2 ≠ 0 := by
      rw [heq]
      exact Nat.ne_of_gt (Nat.mul_pos hpos (by decide))
    have huses : ∀ g, m.uses R (K + Pi.single f 1) g = m.uses R K g + if g = f then 1 else 0 :=
      fun g => uses_single
    have hput : Ledger.put ⟨res, m.uses R K⟩ f 1 = ⟨res, m.uses R (K + Pi.single f 1)⟩ := by
      refine put_uses 1 _ ?_ ?_
      · rw [huses, hzero, if_pos rfl]
      · intro g hg
        rw [huses, if_neg hg, Nat.add_zero]
    refine .inl ⟨f, hpos, by rw [Memory.alloc, heq]; rfl, by rw [Memory.alloc]; exact if_neg hne,
      hzero, ⟨hp, hres⟩, ?_, ?_, ?_, ?_, ?_⟩
    · show Follows m.pmm.pmmAllocPage.1 ⟨res, m.uses R (K + Pi.single f 1)⟩
      rw [heq, ← hput]
      exact h.follows.take hp hfree hmin
    · show m.pmm.pmmAllocPage.1.pages ≤ 2 ^ 40
      rw [heq]
      exact h.small
    · intro g hg
      have hg' : 0 < m.uses R (K + Pi.single f 1) g := hg
      show g < m.pmm.pmmAllocPage.1.pages ∧ res g = false
      rw [heq]
      by_cases hgf : g = f
      · rw [hgf]
        exact ⟨hp, hres⟩
      · rw [huses, if_neg hgf] at hg'
        exact h.range g hg'
    · intro r hr d k t hk ht
      have hone := h.table r hr d k t hk ht
      have htf : t ≠ f := by
        rintro rfl
        omega
      show m.uses R (K + Pi.single f 1) t = 1
      rw [huses, if_neg htf, hone]
    · intro g hg hgres hgz
      have hgz' : m.uses R (K + Pi.single f 1) g = 0 := hgz
      have hg' : g < m.pmm.pmmAllocPage.1.pages := hg
      show m.pmm.pmmAllocPage.1.refcount g = 0
      rw [huses] at hgz'
      rw [heq] at hg' ⊢
      have hgf : g ≠ f := by
        rintro rfl
        rw [if_pos rfl] at hgz'
        omega
      rw [refcount_take_ne h.follows.covers hp hgf]
      exact h.idle g hg' hgres (by omega)
  · refine .inr ⟨by rw [Memory.alloc, heq], ?_, ?_⟩
    · rw [Memory.alloc, heq]
      rfl
    · intro f hp hres
      refine Nat.pos_of_ne_zero fun hz => ?_
      exact hnone f hp ⟨hres, hz⟩

/-- `pmm_page_ref_inc` gives the kernel another reference to a page. -/
theorem Accounted.refInc (h : Accounted m res R K) (hpos : 0 < m.uses R K f)
    (ht : ¬IsTable m R f) : Accounted (m.refInc (f * pageSize)) res R (K + Pi.single f 1) := by
  obtain ⟨hp, hres⟩ := h.range f hpos
  have huses : ∀ g, m.uses R (K + Pi.single f 1) g = m.uses R K g + if g = f then 1 else 0 :=
    fun g => uses_single
  have hput : Ledger.put ⟨res, m.uses R K⟩ f (m.uses R K f + 1) =
      ⟨res, m.uses R (K + Pi.single f 1)⟩ := by
    refine put_uses _ _ ?_ ?_
    · rw [huses, if_pos rfl]
    · intro g hg
      rw [huses, if_neg hg, Nat.add_zero]
  refine ⟨?_, h.small, ?_, ?_, ?_⟩
  · show Follows (m.pmm.pmmPageRefInc (f * pageSize)) ⟨res, m.uses R (K + Pi.single f 1)⟩
    rw [← hput]
    rw [← mul_pageSize_div f] at hp hres hpos
    have hinc := h.follows.pmmPageRefInc hp hres hpos
    rwa [mul_pageSize_div] at hinc
  · intro g hg
    have hg' : 0 < m.uses R (K + Pi.single f 1) g := hg
    rw [huses] at hg'
    by_cases hgf : g = f
    · rw [hgf]
      exact ⟨hp, hres⟩
    · rw [if_neg hgf] at hg'
      exact h.range g hg'
  · intro r hr d k t hk htab
    have htf : t ≠ f := by
      rintro rfl
      exact ht ⟨r, hr, d, k, hk, htab⟩
    show m.uses R (K + Pi.single f 1) t = 1
    rw [huses, if_neg htf]
    exact h.table r hr d k t hk htab
  · intro g hg hgres hgz
    have hgz' : m.uses R (K + Pi.single f 1) g = 0 := hgz
    rw [huses] at hgz'
    have hgf : g ≠ f := by
      rintro rfl
      omega
    have hcount : (m.pmm.pmmPageRefInc (f * pageSize)).refcount g = m.pmm.refcount g :=
      refcount_setRefcount_ne (by rw [mul_pageSize_div]; exact hgf) _
    exact hcount.trans (h.idle g hg hgres (by omega))

/-- `pmm_free_page` drops a reference of the kernel. -/
theorem Accounted.free (h : Accounted m res R (K + Pi.single f 1))
    (hlt : m.uses R K f < 65535) : Accounted (m.free (f * pageSize)) res R K := by
  have huses : ∀ g, m.uses R (K + Pi.single f 1) g = m.uses R K g + if g = f then 1 else 0 :=
    fun g => uses_single
  have hf : m.uses R (K + Pi.single f 1) f = m.uses R K f + 1 := by rw [huses, if_pos rfl]
  obtain ⟨hp, hres⟩ := h.range f (by omega)
  have hput : Ledger.put ⟨res, m.uses R (K + Pi.single f 1)⟩ f
      (m.uses R (K + Pi.single f 1) f - 1) = ⟨res, m.uses R K⟩ := by
    refine put_uses _ _ (by omega) ?_
    intro g hg
    rw [huses, if_neg hg, Nat.add_zero]
  have hpages : (m.pmm.pmmFreePage (f * pageSize)).pages = m.pmm.pages := pages_pmmFreePage _ _
  refine ⟨?_, hpages ▸ h.small, ?_, ?_, ?_⟩
  · show Follows (m.pmm.pmmFreePage (f * pageSize)) ⟨res, m.uses R K⟩
    rw [← hput]
    rw [← mul_pageSize_div f] at hp hres
    have hfree := h.follows.pmmFreePage hp hres
    rw [mul_pageSize_div] at hfree
    exact hfree (by dsimp only; omega)
  · intro g hg
    have hg' : 0 < m.uses R K g := hg
    show g < (m.pmm.pmmFreePage (f * pageSize)).pages ∧ res g = false
    rw [hpages]
    exact h.range g (by rw [huses]; omega)
  · intro r hr d k t hk htab
    have hone := h.table r hr d k t hk htab
    have htf : t ≠ f := by
      rintro rfl
      have hK : 0 < (K + Pi.single t 1 : Nat → Nat) t := by
        rw [Pi.add_apply, Pi.single_eq_same]
        omega
      exact h.not_table_of_kernel hK ⟨r, hr, d, k, hk, htab⟩
    rw [huses, if_neg htf] at hone
    exact hone
  · intro g hg hgres hgz
    have hgz' : m.uses R K g = 0 := hgz
    have hg' : g < m.pmm.pages := hpages ▸ hg
    have hcount := refcount_pmmFreePage (f * pageSize) g h.follows.covers
      (by rw [mul_pageSize_div]; exact hp)
    rw [mul_pageSize_div] at hcount
    show (m.pmm.pmmFreePage (f * pageSize)).refcount g = 0
    rw [hcount]
    by_cases hgf : g = f
    · subst hgf
      -- the reference was the last one
      have hstored := h.follows.count g hp hres (by dsimp only; omega)
      have hset := h.follows.set_of_not_free hp fun hfree => by
        have hz : m.uses R (K + Pi.single g 1) g = 0 := hfree.2
        omega
      rw [if_pos ⟨rfl, hset⟩, hstored]
      dsimp only
      omega
    · rw [if_neg fun hc => hgf hc.1]
      exact h.idle g hg' hgres (by rw [huses, if_neg hgf, hgz'])

/-- A store that moves no table changes one word. -/
theorem Accounted.word_store {d' k' : Nat} (h : Accounted m res R K) (hr : r ∈ R)
    (hk : (d, k) ∈ slots) (ht : m.tab r d (k / 512) = some t) (hr' : r' ∈ R)
    (hk' : (d', k') ∈ slots)
    (htab : (m.set t (k % 512) w).tab r' d' (k' / 512) = m.tab r' d' (k' / 512)) :
    (m.set t (k % 512) w).word r' d' k' =
      if r' = r ∧ d' = d ∧ k' = k then some w else m.word r' d' k' := by
  cases hu : m.tab r' d' (k' / 512) with
  | none =>
    have hne : ¬(r' = r ∧ d' = d ∧ k' = k) := by
      rintro ⟨rfl, rfl, rfl⟩
      rw [ht] at hu
      cases hu
    have hu' := htab.trans hu
    unfold Memory.tab at hu hu'
    unfold Memory.word Radix.word
    rw [if_neg hne, hu, hu']
    rfl
  | some u =>
    rw [word_of_tab (htab.trans hu), word_of_tab hu]
    split
    next heq =>
      obtain ⟨rfl, rfl, rfl⟩ := heq
      obtain rfl : t = u := Option.some.inj (ht.symm.trans hu)
      exact congrArg some Radix.store_same
    next hne =>
      refine congrArg some (Radix.store_other ?_)
      rintro ⟨rfl, hmod⟩
      obtain ⟨h1, h2, h3⟩ := h.unique hr' hr (tableKey_of_slot hk') (tableKey_of_slot hk) hu ht
      have hdm := Nat.div_add_mod k' 512
      have hdm' := Nat.div_add_mod k 512
      exact hne ⟨h1, h2, by rw [← hdm, ← hdm', h3, hmod]⟩

/-! ## Stores to leaf entries -/

section

variable (h : Accounted m res R K) (hr : r ∈ R) (hv : v < userPages)
  (ht : m.tab r 3 (v / 512) = some t)

include h hr hv ht

theorem Accounted.tab_setLeaf (hr' : r' ∈ R) (hk : TableKey d k) :
    (m.set t (v % 512) w).tab r' d k = m.tab r' d k := by
  refine Radix.tab_store (V := TableKey) (fun d k => tableKey_up) ?_ hk
  intro d k hk' htab _
  -- a page table is at depth 3, and no table is below it
  have hd := (h.unique hr' hr (tableKey_up hk') (tableKey_of_slot (leaf_mem_slots.mpr hv))
    htab ht).2.1
  have := hk'.1
  omega

theorem Accounted.word_setLeaf (hr' : r' ∈ R) (hk : (d, k) ∈ slots) :
    (m.set t (v % 512) w).word r' d k =
      if r' = r ∧ d = 3 ∧ k = v then some w else m.word r' d k :=
  h.word_store hr (leaf_mem_slots.mpr hv) ht hr' hk
    (h.tab_setLeaf hr hv ht hr' (tableKey_of_slot hk))

theorem Accounted.leaf_setLeaf (hr' : r' ∈ R) {v' : Nat} (hv' : v' < userPages) :
    (m.set t (v % 512) w).leaf r' v' = if r' = r ∧ v' = v then w else m.leaf r' v' := by
  unfold Memory.leaf
  rw [h.word_setLeaf hr hv ht hr' (leaf_mem_slots.mpr hv')]
  by_cases heq : r' = r ∧ v' = v
  · rw [if_pos ⟨heq.1, rfl, heq.2⟩, if_pos heq]
    rfl
  · rw [if_neg fun hc => heq ⟨hc.1, hc.2.2⟩, if_neg heq]

/-- The new entry takes its frame from the kernel and the old one gives its frame back. -/
theorem Accounted.uses_setLeaf (K' : Nat → Nat) :
    (m.set t (v % 512) w).uses R (K' + one (owned (m.leaf r v))) =
      m.uses R (K' + one (owned w)) := by
  have hmem : (r, 3, v) ∈ R ×ˢ slots := Finset.mem_product.mpr ⟨hr, leaf_mem_slots.mpr hv⟩
  have hrefs : ∀ f, refs (m.set t (v % 512) w).holds (R ×ˢ slots) f =
      refs (update m.holds (r, 3, v) (owned w)) (R ×ˢ slots) f := by
    intro f
    refine refs_congr ?_
    rintro ⟨r', d, k⟩
    refine and_congr_right fun hx => ?_
    obtain ⟨hr', hk⟩ := Finset.mem_product.mp hx
    unfold Memory.holds
    rw [h.word_setLeaf hr hv ht hr' hk]
    by_cases heq : r' = r ∧ d = 3 ∧ k = v
    · obtain ⟨rfl, rfl, rfl⟩ := heq
      rw [update_self, if_pos ⟨rfl, rfl, rfl⟩, if_pos rfl]
      rfl
    · rw [if_neg heq, update_of_ne]
      intro hc
      simp only [Prod.mk.injEq] at hc
      exact heq hc
  funext f
  have hupd := refs_update m.holds f hmem (owned w)
  rw [holds_leaf] at hupd
  rw [uses_add, uses_add]
  unfold uses
  rw [hrefs]
  unfold one
  omega

/-- A store that keeps the frame of the entry, if it has one. -/
theorem Accounted.uses_setFlags (hw : owned w = owned (m.leaf r v)) :
    (m.set t (v % 512) w).uses R K = m.uses R K := by
  have hall := h.uses_setLeaf hr hv ht (w := w) K
  rw [hw] at hall
  funext g
  have hg := congrFun hall g
  rw [uses_add, uses_add] at hg
  exact Nat.add_right_cancel hg

/-- A store to a leaf entry that changes the number of holders of no frame. -/
theorem Accounted.setLeaf_of_uses {K' : Nat → Nat}
    (huses : (m.set t (v % 512) w).uses R K' = m.uses R K) :
    Accounted (m.set t (v % 512) w) res R K' := by
  refine ⟨?_, h.small, ?_, ?_, ?_⟩
  · rw [huses]
    exact h.follows
  · rw [huses]
    exact h.range
  · intro r' hr' d k u hk hu
    rw [huses]
    rw [h.tab_setLeaf hr hv ht hr' hk] at hu
    exact h.table r' hr' d k u hk hu
  · rw [huses]
    exact h.idle

end

/-- A store to a leaf entry. -/
theorem Accounted.setLeaf (h : Accounted m res R (K + one (owned w))) (hr : r ∈ R)
    (hv : v < userPages) (ht : m.tab r 3 (v / 512) = some t) :
    Accounted (m.set t (v % 512) w) res R (K + one (owned (m.leaf r v))) :=
  h.setLeaf_of_uses hr hv ht (h.uses_setLeaf hr hv ht K)

/-! ## Stores that add a table -/

/-- The table `(d', k')` is the one `(d + 1, k)` or lies below it. -/
def Below (d k d' k' : Nat) : Prop := d + 1 ≤ d' ∧ k' / 512 ^ (d' - (d + 1)) = k

theorem Below.self : Below d k (d + 1) k := by
  refine ⟨Nat.le_refl _, ?_⟩
  rw [Nat.sub_self, Nat.pow_zero, Nat.div_one]

theorem Below.down (h : Below d k d' (k' / 512)) : Below d k (d' + 1) k' := by
  obtain ⟨hd, hk⟩ := h
  refine ⟨Nat.le_succ_of_le hd, ?_⟩
  rw [Nat.succ_sub hd, Nat.pow_succ', ← Nat.div_div_eq_div_mul, hk]

section

variable (h : Accounted m res R (K + Pi.single f 1)) (hr : r ∈ R) (hk : (d, k) ∈ slots)
  (hd : d < 3) (ht : m.tab r d (k / 512) = some t) (hnone : m.tab r (d + 1) k = none)
  (hw : child w = some f) (hzero : ∀ i, m.words f i = 0#64)

include h hr hk ht

theorem Accounted.tab_addTable_of_not_below (hr' : r' ∈ R) (hk' : TableKey d' k')
    (hb : ¬(r' = r ∧ Below d k d' k')) : (m.set t (k % 512) w).tab r' d' k' = m.tab r' d' k' := by
  refine Radix.tab_store (V := fun d' k' => TableKey d' k' ∧ ¬(r' = r ∧ Below d k d' k'))
    ?_ ?_ ⟨hk', hb⟩
  · rintro d' k' ⟨hkey, hnb⟩
    exact ⟨tableKey_up hkey, fun hc => hnb ⟨hc.1, hc.2.down⟩⟩
  · rintro d' k' ⟨hkey, hnb⟩ htab hmod
    -- the path would go through the word that is stored to
    obtain ⟨rfl, rfl, hdiv⟩ := h.unique hr' hr (tableKey_up hkey) (tableKey_of_slot hk) htab ht
    have hkk : k' = k := by
      rw [← Nat.div_add_mod k' 512, ← Nat.div_add_mod k 512, hdiv, hmod]
    exact hnb ⟨rfl, hkk ▸ Below.self⟩

theorem Accounted.table_ne : t ≠ f := by
  rintro rfl
  have hK : 0 < (K + Pi.single t 1 : Nat → Nat) t := by
    rw [Pi.add_apply, Pi.single_eq_same]
    omega
  exact h.not_table_of_kernel hK ⟨r, hr, d, k / 512, tableKey_of_slot hk, ht⟩

include hw

theorem Accounted.tab_addTable_self : (m.set t (k % 512) w).tab r (d + 1) k = some f := by
  have hnb : ¬(r = r ∧ Below d k d (k / 512)) := by
    rintro ⟨-, hle, -⟩
    omega
  have htab := h.tab_addTable_of_not_below hr hk ht (w := w) hr (tableKey_of_slot hk) hnb
  rw [tab_succ, word_of_tab (htab.trans ht)]
  show child (Radix.store m.words t (k % 512) w t (k % 512)) = some f
  rw [Radix.store_same, hw]

include hnone hzero

theorem Accounted.tab_addTable (hr' : r' ∈ R) (hk' : TableKey d' k') :
    (m.set t (k % 512) w).tab r' d' k' =
      if r' = r ∧ d' = d + 1 ∧ k' = k then some f else m.tab r' d' k' := by
  by_cases hb : r' = r ∧ Below d k d' k'
  · obtain ⟨rfl, hle, hdiv⟩ := hb
    obtain ⟨e, rfl⟩ := Nat.exists_eq_add_of_le hle
    rw [Nat.add_sub_cancel_left] at hdiv
    cases e with
    | zero =>
      rw [Nat.pow_zero, Nat.div_one] at hdiv
      rw [hdiv, if_pos ⟨rfl, rfl, rfl⟩]
      exact h.tab_addTable_self hr hk ht hw
    | succ e =>
      rw [if_neg (by omega), Memory.tab, Memory.tab, Radix.tab_eq_none hnone (e + 1) hdiv]
      -- the words of the new table lead nowhere
      have hnew : (m.set t (k % 512) w).tab r' (d + 1 + 1) (k' / 512 ^ e) = none := by
        have hself : (m.set t (k % 512) w).tab r' (d + 1) (k' / 512 ^ e / 512) = some f := by
          rw [Nat.div_div_eq_div_mul, ← Nat.pow_succ, hdiv]
          exact h.tab_addTable_self hr hk ht hw
        rw [tab_succ, word_of_tab hself]
        show child (Radix.store m.words t (k % 512) w f _) = none
        rw [Radix.store_table (h.table_ne hr hk ht).symm, hzero, child_zero]
      have hrest := Radix.tab_eq_none hnew e rfl
      rwa [show d + 1 + 1 + e = d + 1 + (e + 1) by omega] at hrest
  · rw [h.tab_addTable_of_not_below hr hk ht hr' hk' hb, if_neg]
    rintro ⟨rfl, rfl, rfl⟩
    exact hb ⟨rfl, Below.self⟩

/-- The words after the store: the one stored to, those of the new table, and the rest. -/
theorem Accounted.word_addTable (hr' : r' ∈ R) (hk' : (d', k') ∈ slots) :
    (m.set t (k % 512) w).word r' d' k' =
      if r' = r ∧ d' = d ∧ k' = k then some w
      else if r' = r ∧ d' = d + 1 ∧ k' / 512 = k then some 0#64
      else m.word r' d' k' := by
  have htab := h.tab_addTable hr hk ht hnone hw hzero hr' (tableKey_of_slot hk')
  by_cases hnew : r' = r ∧ d' = d + 1 ∧ k' / 512 = k
  · rw [if_pos hnew] at htab
    rw [if_neg (by omega), if_pos hnew, word_of_tab htab]
    show some (Radix.store m.words t (k % 512) w f _) = _
    rw [Radix.store_table (h.table_ne hr hk ht).symm, hzero]
  · rw [if_neg hnew] at htab
    rw [if_neg hnew]
    exact h.word_store hr hk ht hr' hk' htab

include hd

theorem Accounted.leaf_addTable (hr' : r' ∈ R) (hv : v < userPages) :
    (m.set t (k % 512) w).leaf r' v = m.leaf r' v := by
  unfold Memory.leaf
  rw [h.word_addTable hr hk ht hnone hw hzero hr' (leaf_mem_slots.mpr hv), if_neg (by omega)]
  split
  next hnew =>
    obtain ⟨rfl, hd3, rfl⟩ := hnew
    have htab : m.tab r' 3 (v / 512) = none := hd3 ▸ hnone
    have hword : m.word r' 3 v = none := by
      unfold Memory.tab at htab
      unfold Memory.word Radix.word
      rw [htab]
      rfl
    rw [hword]
    rfl
  · rfl

theorem Accounted.holds_addTable {x : Nat × Nat × Nat} (hx : x ∈ R ×ˢ slots) :
    (m.set t (k % 512) w).holds x = update m.holds (r, d, k) (some f) x := by
  obtain ⟨r', d', k'⟩ := x
  obtain ⟨hr', hk'⟩ := Finset.mem_product.mp hx
  unfold Memory.holds
  rw [h.word_addTable hr hk ht hnone hw hzero hr' hk']
  by_cases heq : r' = r ∧ d' = d ∧ k' = k
  · obtain ⟨rfl, rfl, rfl⟩ := heq
    rw [update_self, if_pos ⟨rfl, rfl, rfl⟩, if_neg (Nat.ne_of_lt hd)]
    exact hw
  · have hne : (r', d', k') ≠ (r, d, k) := by
      intro hc
      simp only [Prod.mk.injEq] at hc
      exact heq hc
    rw [update_of_ne hne, if_neg heq]
    split
    next hnew =>
      obtain ⟨rfl, rfl, rfl⟩ := hnew
      have hword : m.word r' (d + 1) k' = none := by
        have htab := hnone
        unfold Memory.tab at htab
        unfold Memory.word Radix.word
        rw [htab]
        rfl
      rw [hword]
      dsimp only [Option.bind_some, Option.bind_none]
      split
      · exact owned_zero
      · exact child_zero
    · rfl

/-- The entry takes the frame of the table from the kernel. -/
theorem Accounted.uses_addTable :
    (m.set t (k % 512) w).uses R K = m.uses R (K + Pi.single f 1) := by
  have hmem : (r, d, k) ∈ R ×ˢ slots := Finset.mem_product.mpr ⟨hr, hk⟩
  funext g
  have hrefs : refs (m.set t (k % 512) w).holds (R ×ˢ slots) g =
      refs (update m.holds (r, d, k) (some f)) (R ×ˢ slots) g := by
    refine refs_congr fun x => and_congr_right fun hx => ?_
    rw [h.holds_addTable hr hk hd ht hnone hw hzero hx]
  have hupd := refs_update m.holds g hmem (some f)
  rw [holds_of_lt hd, hnone, if_neg nofun] at hupd
  rw [uses_single]
  unfold uses
  rw [hrefs]
  simp only [Option.some.injEq, eq_comm (a := f)] at hupd
  omega

end

/-- A store of an entry for a new table, which the kernel alone holds and which is empty. -/
theorem Accounted.addTable (h : Accounted m res R (K + Pi.single f 1)) (hr : r ∈ R)
    (hk : (d, k) ∈ slots) (hd : d < 3) (ht : m.tab r d (k / 512) = some t)
    (hnone : m.tab r (d + 1) k = none) (hw : child w = some f)
    (hzero : ∀ i, m.words f i = 0#64) (hone : m.uses R (K + Pi.single f 1) f = 1) :
    Accounted (m.set t (k % 512) w) res R K := by
  have huses := h.uses_addTable hr hk hd ht hnone hw hzero
  refine ⟨?_, h.small, ?_, ?_, ?_⟩
  · rw [huses]
    exact h.follows
  · rw [huses]
    exact h.range
  · intro r' hr' d' k' u hk' hu
    rw [huses]
    rw [h.tab_addTable hr hk ht hnone hw hzero hr' hk'] at hu
    split at hu
    · obtain rfl : f = u := Option.some.inj hu
      exact hone
    · exact h.table r' hr' d' k' u hk' hu
  · rw [huses]
    exact h.idle

end

end Aeryk.Vm
